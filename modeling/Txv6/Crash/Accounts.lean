import Txv6.Crash.Commit

/-! # The accounts of the operations

Every call of an operation keeps to the steps, with its notes in the history, and every step
keeps the accounts; so along every run the accounts fit the state.
-/
namespace Txv6
open Lib Lib.Prog Function

/-- What a process notes of itself. -/
structure Noted (p : ProcPtr) (h h' : Hist) : Prop where
  inside : h'.inside p = h.inside p
  bufs : h'.bufs p = h.bufs p
  dirty : h'.dirty p = h.dirty p

theorem Noted.refl (p : ProcPtr) (h : Hist) : Noted p h h := ⟨rfl, rfl, rfl⟩

theorem Noted.trans {p : ProcPtr} {h h' h'' : Hist} (hn : Noted p h h') (hn' : Noted p h' h'') :
    Noted p h h'' :=
  ⟨hn'.inside.trans hn.inside, hn'.bufs.trans hn.bufs, hn'.dirty.trans hn.dirty⟩

theorem Noted.see (p : ProcPtr) (h : Hist) (s t : Kernel) : Noted p h (h.see s t) := by
  unfold Hist.see
  split
  · exact ⟨rfl, rfl, rfl⟩
  · exact .refl p h

/-- The steps of a process, with the history. -/
inductive ClientAct (p : ProcPtr) : (Kernel × Hist) × Share → (Kernel × Hist) × Share → Prop
  | kernel {s t h a a'} : LogAct p (h.inside p) (s, a) (t, a') →
      ClientAct p ((s, h), a) ((t, h.see s t), a')
  | modify {s h a b x f} : b ∈ a.held → s.Holds b x → s.sb.log.Home x → a.counted = true →
      ClientAct p ((s, h), a) ((s.setBytes b f, h.modify p b x f), { a with dirty := insert b a.dirty })
  | note {s h h' a} : h'.contents = h.contents → h'.groups = h.groups → (∀ q, q ≠ p → Noted q h h') →
      (h'.inside p = true → a.counted = true) → ClientAct p ((s, h), a) ((s, h'), a)

/-- What the other processes leave alone. -/
structure ClientRely (p : ProcPtr) (a : Share) (x y : Kernel × Hist) : Prop where
  kernel : LogRely a x.1 y.1
  noted : Noted p x.2 y.2

/-- A process outside of calls. -/
structure Idle (p : ProcPtr) (x : (Kernel × Hist) × Share) : Prop where
  held : x.2.held = x.1.2.bufs p
  ref : x.2.ref = none
  dirty : x.2.dirty = x.1.2.dirty p
  counted : x.2.counted = x.1.2.inside p
  phase : x.2.phase = none
  valid : ∀ b ∈ x.2.held, x.1.1.Holds b (x.1.1.buf b).blockno

variable {p : ProcPtr} {s : Kernel} {h : Hist} {a : Share} {α : Type}

theorem Idle.stable {x y : Kernel × Hist} (hi : Idle p (x, a)) (hR : ClientRely p a x y) : Idle p (y, a) where
  held := hi.held.trans hR.noted.bufs.symm
  ref := hi.ref
  dirty := hi.dirty.trans hR.noted.dirty.symm
  counted := hi.counted.trans hR.noted.inside.symm
  phase := hi.phase
  valid b hb := by
    have hx := hR.kernel.holds hb (hi.valid b hb)
    exact ⟨hx.valid, hx.dev, rfl⟩

/-! ## The calls -/

/-- Code of a process, with the history. -/
abbrev clientWp (p : ProcPtr) {α : Type} (m : Prog (Kernel × Hist) Err α)
    (Q : α → (Kernel × Hist) × Share → Prop) (x : (Kernel × Hist) × Share) : Prop :=
  gwp (fun _ _ => True) (fun a s t => ClientRely p a s t ∧ LogOk p a t.1)
    (fun x y => p < nproc ∧ ClientAct p x y) m Q (fun e _ => Fatal.fatal e = true) x

theorem clientWp_bind {β : Type} {m : Prog (Kernel × Hist) Err α} {f : α → Prog (Kernel × Hist) Err β}
    {Q : β → (Kernel × Hist) × Share → Prop} {x : (Kernel × Hist) × Share}
    (hm : clientWp p m (fun r y => clientWp p (f r) Q y) x) : clientWp p (m >>= f) Q x :=
  gwp_seq hm fun _ _ hy => hy

theorem clientWp_watch {m : K α} {Q : α → (Kernel × Hist) × Share → Prop} (hp : p < nproc)
    (hm : logWp p (h.inside p) m (fun r y => ∀ h', Noted p h h' → Q r ((y.1, h'), y.2)) (s, a)) :
    clientWp p (watch m) Q ((s, h), a) := by
  have := gwp_track (f := Hist.see) (J := Noted p h) (S := fun a x y => ClientRely p a x y ∧ LogOk p a y.1)
    (H := fun x y => p < nproc ∧ ClientAct p x y) (r := h) ?_ ?_ hm (.refl p h)
  · exact gwp_mono (fun r y hy => hy.2 y.1.2 hy.1) (fun e y hy => hy.2) this
  · intro g x y hS hJ
    exact ⟨⟨hS.1.kernel, hS.2⟩, hJ.trans hS.1.noted⟩
  · intro s t g g' r hG hJ
    rw [← hJ.inside] at hG
    exact ⟨⟨hp, .kernel hG⟩, hJ.trans (.see p r s t)⟩

theorem clientWp_note {f : Hist → Hist} {Q : Unit → (Kernel × Hist) × Share → Prop} (hp : p < nproc)
    (hcontents : ∀ h, (f h).contents = h.contents) (hgroups : ∀ h, (f h).groups = h.groups)
    (hother : ∀ h q, q ≠ p → Noted q h (f h))
    (hin : ∀ h', Noted p h h' → (f h').inside p = true → a.counted = true)
    (hQ : ∀ t h', LogRely a s t → Noted p h h' → Q () ((t, f h'), a)) : clientWp p (note f) Q ((s, h), a) :=
  ⟨trivial, fun t hR _ _ => ⟨a, ⟨hp, .note (hcontents _) (hgroups _) (hother _) (hin _ hR.1.noted)⟩,
    hQ t.1 t.2 hR.1.kernel hR.1.noted⟩⟩

namespace Hist

@[simp] theorem setInside_self (h : Hist) (p : ProcPtr) (v : Bool) : (h.setInside p v).inside p = v :=
  update_self ..

theorem take_self (h : Hist) (p : ProcPtr) (b : BufPtr) : (h.take p b).bufs p = insert b (h.bufs p) :=
  update_self ..

theorem give_self (h : Hist) (p : ProcPtr) (b : BufPtr) : (h.give p b).bufs p = (h.bufs p).erase b :=
  update_self ..

theorem modify_self (h : Hist) (p : ProcPtr) (b : BufPtr) (x : Nat) (f : Block → Block) :
    (h.modify p b x f).dirty p = insert b (h.dirty p) :=
  update_self ..

theorem logged_self (h : Hist) (p : ProcPtr) (b : BufPtr) : (h.logged p b).dirty p = (h.dirty p).erase b :=
  update_self ..

theorem setInside_other (h : Hist) {p q : ProcPtr} (v : Bool) (hq : q ≠ p) : Noted q h (h.setInside p v) :=
  ⟨update_of_ne hq .., rfl, rfl⟩

theorem take_other (h : Hist) {p q : ProcPtr} (b : BufPtr) (hq : q ≠ p) : Noted q h (h.take p b) :=
  ⟨rfl, update_of_ne hq .., rfl⟩

theorem give_other (h : Hist) {p q : ProcPtr} (b : BufPtr) (hq : q ≠ p) : Noted q h (h.give p b) :=
  ⟨rfl, update_of_ne hq .., rfl⟩

theorem logged_other (h : Hist) {p q : ProcPtr} (b : BufPtr) (hq : q ≠ p) : Noted q h (h.logged p b) :=
  ⟨rfl, rfl, update_of_ne hq ..⟩

end Hist

section
variable (hi : Idle p ((s, h), a)) (hp : p < nproc)
include hi hp

theorem Idle.beginOp (hin : h.inside p = false) :
    clientWp p (LogCall.beginOp.prog p) (fun _ y => Idle p y) ((s, h), a) := by
  refine clientWp_bind (clientWp_watch hp (logWp_beginOp (hi.counted.trans hin) fun t hR h' hn => ?_))
  refine clientWp_note hp (fun _ => rfl) (fun _ => rfl) (fun h _ => h.setInside_other true) (fun _ _ _ => rfl)
    fun u h'' hRu hn' => ?_
  have hi' : Idle p ((u, h''), a) := hi.stable ⟨hR.trans (hRu.sub (Finset.Subset.refl _) hi.ref id), hn.trans hn'⟩
  exact ⟨hi'.held, hi'.ref, hi'.dirty, (h''.setInside_self p true).symm, hi'.phase, hi'.valid⟩

theorem Idle.bread {blk : Nat} :
    clientWp p ((LogCall.bread blk).prog p) (fun _ y => Idle p y) ((s, h), a) := by
  refine clientWp_bind (clientWp_watch hp (logWp_bread hi.ref fun b t hb hR hx h' hn => ?_))
  refine clientWp_note hp (fun _ => rfl) (fun _ => rfl) (fun h _ => h.take_other b) ?_ fun u h'' hRu hn' => ?_
  · intro h'' hn' hin
    exact hi.counted.trans ((hn.trans hn').inside.symm.trans hin)
  have hi' : Idle p ((u, h''), a) :=
    hi.stable ⟨hR.trans (hRu.sub (Finset.subset_insert _ _) hi.ref id), hn.trans hn'⟩
  refine ⟨?_, hi'.ref, hi'.dirty, hi'.counted, hi'.phase, fun c hc => ?_⟩
  · exact (congrArg (insert b) hi'.held).trans (h''.take_self p b).symm
  · rcases Finset.mem_insert.mp hc with rfl | hc
    · have hxu := hRu.holds (Finset.mem_insert_self _ _) hx
      exact ⟨hxu.valid, hxu.dev, rfl⟩
    · exact hi'.valid c hc

theorem Idle.modify {b : BufPtr} {f : Block → Block} (hw : Writable (s, h) p b) :
    clientWp p ((LogCall.modify b f).prog p) (fun _ y => Idle p y) ((s, h), a) := by
  have hb : b ∈ a.held := by rw [hi.held]; exact hw.mine
  refine ⟨trivial, fun t hR _ _ => ⟨{ a with dirty := insert b a.dirty }, ⟨hp, .modify hb ?_ ?_ ?_⟩, ?_⟩⟩
  · exact (hi.stable hR.1).valid b hb
  · have hblk := (hR.1.kernel.place b (Share.uses_pos_of_held hb)).2
    have hhome := hw.home
    dsimp only at hblk hhome
    rw [hR.1.kernel.sb, hblk]
    exact hhome
  · exact hi.counted.trans hw.inside
  · have hi' := hi.stable hR.1
    refine ⟨hi'.held, hi'.ref, ?_, hi'.counted, hi'.phase, fun c hc => ?_⟩
    · exact (congrArg (insert b) hi'.dirty).trans (t.2.modify_self p b _ f).symm
    · exact (hi'.valid c hc).setBytes

theorem Idle.logWrite {b : BufPtr} (hw : Writable (s, h) p b) :
    clientWp p ((LogCall.logWrite b).prog p) (fun _ y => Idle p y) ((s, h), a) := by
  have hb : b ∈ a.held := by rw [hi.held]; exact hw.mine
  refine clientWp_bind (clientWp_watch hp (logWp_logWrite (hi.counted.trans hw.inside) hi.phase hb (hi.valid b hb)
    hw.home hw.word fun t hR h' hn => ?_))
  refine clientWp_note hp (fun _ => rfl) (fun _ => rfl) (fun h _ => h.logged_other b) ?_ fun u h'' hRu hn' => ?_
  · intro h'' hn' hin
    exact hi.counted.trans ((hn.trans hn').inside.symm.trans hin)
  have hi' : Idle p ((u, h''), a) := hi.stable ⟨hR.trans (hRu.sub (Finset.Subset.refl _) hi.ref id), hn.trans hn'⟩
  refine ⟨hi'.held, hi'.ref, ?_, hi'.counted, hi'.phase, hi'.valid⟩
  exact (congrArg (Finset.erase · b) hi'.dirty).trans (h''.logged_self p b).symm

theorem Idle.brelse {b : BufPtr} (hb : b ∈ h.bufs p)
    (hd : b ∉ h.dirty p) : clientWp p ((LogCall.brelse b).prog p) (fun _ y => Idle p y) ((s, h), a) := by
  have hcnt : ∀ h', Noted p h h' → h'.inside p = true → a.counted = true :=
    fun h' hn hin => hi.counted.trans (hn.inside.symm.trans hin)
  refine clientWp_bind (clientWp_note hp (fun _ => rfl) (fun _ => rfl) (fun h _ => h.give_other b) hcnt
    fun t h' hR hn => ?_)
  have hi' : Idle p ((t, h'), a) := hi.stable ⟨hR, hn⟩
  have hb' : b ∈ a.held := by rw [hi.held]; exact hb
  have hd' : b ∉ a.dirty := by rw [hi.dirty]; exact hd
  refine clientWp_watch hp (logWp_brelse hi.ref hb' hd' fun u hRu h'' hn' => ?_)
  refine ⟨?_, hi'.ref, hi'.dirty.trans hn'.dirty.symm, hi'.counted.trans hn'.inside.symm, hi'.phase, fun c hc => ?_⟩
  · exact (congrArg (Finset.erase · b) hi'.held).trans ((h'.give_self p b).symm.trans hn'.bufs.symm)
  · have hx := hRu.holds hc (hi'.valid c (Finset.mem_of_mem_erase hc))
    exact ⟨hx.valid, hx.dev, rfl⟩

theorem Idle.endOp (hin : h.inside p = true) (hd : h.dirty p = ∅) :
    clientWp p (LogCall.endOp.prog p) (fun _ y => Idle p y) ((s, h), a) := by
  have hcnt := hi.counted.trans hin
  refine clientWp_bind (clientWp_note hp (fun _ => rfl) (fun _ => rfl) (fun h _ => h.setInside_other false)
    (fun _ _ _ => hcnt) fun t h' hR hn => ?_)
  have hi' : Idle p ((t, h'), a) := hi.stable ⟨hR, hn⟩
  refine clientWp_watch hp ?_
  rw [Hist.setInside_self]
  refine logWp_endOp hi.ref (hi.dirty.trans hd) hi.phase hcnt fun u hRu h'' hn' => ?_
  refine ⟨hi'.held.trans hn'.bufs.symm, hi'.ref, hi'.dirty.trans hn'.dirty.symm, ?_, hi'.phase, fun c hc => ?_⟩
  · exact (h'.setInside_self p false).symm.trans hn'.inside.symm
  · have hx := hRu.holds hc (hi'.valid c hc)
    exact ⟨hx.valid, hx.dev, rfl⟩

theorem Idle.call {k : LogCall} (hd : Disciplined (.call p k) (s, h) (s, h)) : clientWp p (k.prog p) (fun _ y => Idle p y) ((s, h), a) := by
  cases k with
  | beginOp => exact hi.beginOp hp hd
  | bread blk => exact hi.bread hp
  | modify b f => exact hi.modify hp hd
  | logWrite b => exact hi.logWrite hp hd
  | brelse b => exact hi.brelse hp hd.1 hd.2
  | endOp => exact hi.endOp hp hd.1 hd.2
end

/-! ## The steps -/

section Steps
variable {g : ProcPtr → Share} {o : Option (ProcPtr × CommitPhase)} {t : Kernel}

theorem LogTot.modify {b : BufPtr} {x : Nat} {f : Block → Block} (ht : LogTot o (s, h) g) (hp : p < nproc)
    (hb : b ∈ (g p).held) (hx : s.Holds b x) (hhome : s.sb.log.Home x) (hcnt : (g p).counted = true) :
    LogTot o (s.setBytes b f, h.modify p b x f)
      (update g p { g p with dirty := insert b (g p).dirty }) := by
  obtain ⟨rfl, hcom⟩ := ht.idle hp hcnt
  refine ⟨?_, ?_, ?_, turn_keep ht.turn rfl, ?_⟩
  · exact (ht.headers.account (a := { g p with dirty := insert b (g p).dirty }) hp rfl rfl).congr
      (ht.headers.cache.setBytes b f) fun _ => ⟨rfl, rfl, rfl, rfl⟩
  · exact ht.contents.setBytes ht.headers.cache hx hb (fun y hy => update_of_ne hy ..)
      (fun _ => update_self ..) (.inl ⟨hhome, hcnt⟩)
  · have := ht.ops.frame (p := p) (a := { g p with dirty := insert b (g p).dirty }) (t := s.setBytes b f)
      rfl rfl rfl rfl rfl
    exact ⟨this.outstanding, this.inside, this.inactive, this.length, this.nodup, this.homes⟩
  · obtain ⟨gr, older, h1, h2, h3, h4⟩ := ht.idleState
    exact .idle h1 h2 h3 h4

theorem LogTot.note {h' : Hist} (ht : LogTot o (s, h) g) (hcontents : h'.contents = h.contents)
    (hgroups : h'.groups = h.groups) (hin : ∀ q, h'.inside q = true → (g q).counted = true) :
    LogTot o (s, h') g := by
  refine ⟨ht.headers, ?_, ?_, ht.turn, ?_⟩
  · have := ht.contents
    rwa [← hcontents] at this
  · exact ⟨ht.ops.outstanding, hin, ht.ops.inactive, ht.ops.length, ht.ops.nodup, ht.ops.homes⟩
  · have hst := ht.state
    generalize o.map (·.2) = ph at hst ⊢
    cases hst with
    | idle h1 h2 h3 h4 => exact .idle h1 (hgroups.trans h2) h3 h4
    | logging h1 h2 h3 h4 h5 h6 h7 h8 h9 =>
      exact .logging h1 h2 (hgroups.trans h3) h4 h5 (h6.trans hcontents.symm) h7 h8 (by rwa [hcontents])
    | installing h1 h2 h3 h4 h5 h6 h7 =>
      exact .installing h1 h2 (hgroups.trans h3) h4 (h5.trans hcontents.symm) (by rwa [hcontents]) (by rwa [hcontents])
    | installed h1 h2 h3 h4 h5 h6 h7 h8 =>
      exact .installed h1 h2 (hgroups.trans h3) h4 (h5.trans hcontents.symm) h6 (by rwa [hcontents]) (by rwa [hcontents])
    | cleared h1 h2 h3 h4 h5 h6 h7 =>
      exact .cleared h1 h2 (hgroups.trans h3) h4 (h5.trans hcontents.symm) h6 (by rwa [hcontents])

end Steps

end Txv6
