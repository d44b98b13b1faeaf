import Txv6.Crash.Rely

/-! # The buffer cache, step by step

The code of `bio.c` takes the steps of `CacheAct`, and the disk writes and the changes of a buffer
are whatever step the caller accounts them for.
-/
namespace Txv6
open Lib Lib.Prog

variable {b : BufPtr} {f : Kernel → Kernel} {blk : Nat} {Q : Unit → Kernel × Share → Prop}

/-- Code of process `p` whose steps are all known. -/
abbrev logWp (p : ProcPtr) (v : Bool) {α : Type} (m : K α) (Q : α → Kernel × Share → Prop) (x : Kernel × Share) :
    Prop :=
  gwp (fun _ _ => True) (fun a s t => LogRely a s t ∧ LogOk p a t) (LogAct p v) m Q
    (fun e _ => Fatal.fatal e = true) x

variable {p : ProcPtr} {v : Bool} {s : Kernel} {a : Share} {α : Type}

/-! ## Rules -/

theorem logWp_bind {β : Type} {m : K α} {f : α → K β} {Q : β → Kernel × Share → Prop} {x : Kernel × Share}
    (h : logWp p v m (fun r y => logWp p v (f r) Q y) x) : logWp p v (m >>= f) Q x :=
  gwp_seq h fun _ _ hy => hy

theorem logWp_read {f : Kernel → α} {Q : α → Kernel × Share → Prop}
    (h : ∀ t, LogRely a s t → LogOk p a t → Q (f t) (t, a)) : logWp p v (.read f) Q (s, a) :=
  ⟨trivial, fun t hR _ _ => ⟨a, .cache .skip, h t hR.1 hR.2⟩⟩

theorem logWp_update
    (h : ∀ t, LogRely a s t → LogOk p a t → ∃ a', LogAct p v (t, a) (f t, a') ∧ Q () (f t, a')) :
    logWp p v (.update f) Q (s, a) :=
  ⟨trivial, fun t hR _ _ => h t hR.1 hR.2⟩

theorem logWp_await {en : Kernel → Bool} (h : ∀ t, LogRely a s t → LogOk p a t → en t = true →
      ∃ a', LogAct p v (t, a) (f t, a') ∧ Q () (f t, a')) : logWp p v (.await en f) Q (s, a) :=
  ⟨trivial, fun t hR hen _ => h t hR.1 hR.2 hen⟩

theorem logWp_atom {f : Kernel → α × Kernel} {Q : α → Kernel × Share → Prop}
    (h : ∀ t r u, LogRely a s t → LogOk p a t → f t = (r, u) →
      ∃ a', LogAct p v (t, a) (u, a') ∧ Q r (u, a')) : logWp p v (.atom f) Q (s, a) :=
  ⟨trivial, fun t hR _ _ => h t _ _ hR.1 hR.2 rfl⟩

/-- The panics of an atomic step are not followed. -/
theorem logWp_atomOrPanic {f : Kernel → Except String α × Kernel} {Q : α → Kernel × Share → Prop}
    (h : ∀ t r u, LogRely a s t → LogOk p a t → f t = (.ok r, u) →
      ∃ a', LogAct p v (t, a) (u, a') ∧ Q r (u, a')) : logWp p v (atomOrPanic f) Q (s, a) := by
  refine ⟨trivial, fun t hR _ hn => ?_⟩
  dsimp only at hn ⊢
  cases hr : (f t).1 with
  | error m =>
    rw [hr] at hn
    cases hn
  | ok r => exact h t r _ hR.1 hR.2 (Prod.ext hr rfl)

theorem logWp_kassert {c : Kernel → Bool} {m : String}
    (h : ∀ t, LogRely a s t → LogOk p a t → Q () (t, a)) : logWp p v (kassert c m) Q (s, a) := by
  refine ⟨trivial, fun t hR _ hn => ⟨a, .cache .skip, ?_⟩⟩
  dsimp only
  split
  · exact h t hR.1 hR.2
  · rfl

/-- Code that is not in a transaction. -/
theorem logWp_txActive {Q : Bool → Kernel × Share → Prop}
    (h : ∀ t, LogRely a s t → Q false (t, a)) : logWp p v (txActive p) Q (s, a) := by
  refine logWp_read fun t hR hok => ?_
  rw [hok.inactive]
  exact h t hR

theorem Share.uses_eq_zero (hb : b ∉ a.held) (href : a.ref = none) : a.uses b = 0 := by
  simp [Share.uses, hb, href]

theorem LogRely.sub {a' : Share} {t : Kernel} (h : LogRely a s t) (hheld : a'.held ⊆ a.held)
    (href : a'.ref = none) (hphase : a'.phase ≠ none → a.phase ≠ none) : LogRely a' s t where
  sb := h.sb
  valid b hb := h.valid b (hheld hb)
  place b hb := by
    refine h.place b (Share.uses_pos_of_held (hheld ?_))
    by_contra hm
    rw [Share.uses_eq_zero hm href] at hb
    exact absurd hb (lt_irrefl _)
  bytes b hb := h.bytes b (hheld hb)
  disk b hb := h.disk b (hheld hb)
  lh hp := h.lh (hphase hp)

/-! ## bio.c -/

theorem logWp_bget {Q : BufPtr → Kernel × Share → Prop} (href : a.ref = none)
    (h : ∀ b t, b ∉ a.held → LogRely a s t → (t.buf b).dev = rootdev → (t.buf b).blockno = blk →
      Q b (t, { a with held := insert b a.held })) : logWp p v (bget p rootdev blk) Q (s, a) := by
  have hkeep : ∀ {b t u}, LogRely { a with ref := some b } t u → LogRely a t u :=
    fun hR => hR.sub (Finset.Subset.refl _) href id
  refine logWp_bind (logWp_atom fun t ob u hR hok hget => ?_)
  have hres := bget_result t rootdev blk
  rw [hget] at hres
  -- the reference, with the buffer at its place
  have hgot : ob = none ∧ u = t ∨ ∃ b, ob = some b ∧ LogRely a t u ∧ (u.buf b).dev = rootdev ∧
      (u.buf b).blockno = blk := by
    cases hres with
    | full => exact .inl ⟨rfl, rfl⟩
    | @found b _ hd hk =>
      refine .inr ⟨b, rfl, .of_sameBufs (.setBuf rfl rfl rfl rfl) rfl rfl fun _ => rfl, ?_, ?_⟩
      · rw [setBuf_self]; exact hd
      · rw [setBuf_self]; exact hk
    | @recycled b _ _ hr =>
      have hnone : a.uses b = 0 := le_antisymm (hr ▸ hok.uses b) (a.uses_nonneg b)
      refine .inr ⟨b, rfl, .of_setBuf rfl hnone, ?_, ?_⟩
      · rw [setBuf_self]
      · rw [setBuf_self]
  obtain ⟨rfl, rfl⟩ | ⟨b, rfl, hRu, hd, hk⟩ := hgot
  · exact ⟨a, .cache .skip, rfl⟩
  · refine ⟨{ a with ref := some b }, .cache (.get href hget), logWp_bind (logWp_await fun v hRv hok hfree => ?_)⟩
    have hfree : (v.buf b).lock.locked = false := by simpa [Kernel.lock] using hfree
    have hnot : b ∉ a.held := by
      intro hb
      have := hok.locked b hb
      rw [hfree] at this
      cases this
    obtain ⟨hd', hk'⟩ := hRv.place b (Share.uses_pos_of_ref rfl)
    refine ⟨{ a with held := insert b a.held }, .cache ?_, ?_⟩
    · have := CacheAct.lock (p := p) (a := { a with ref := some b }) (s := v) rfl hfree
      dsimp only at this
      rwa [← href] at this
    · rw [setLock_eq]
      refine h b _ hnot (((hR.trans hRu).trans (hkeep hRv)).trans
        (.of_sameBufs (.setBuf rfl rfl rfl rfl) rfl rfl fun _ => rfl)) ?_ ?_
      · rw [setBuf_self]
        exact hd'.trans hd
      · rw [setBuf_self]
        exact hk'.trans hk

theorem logWp_bread {Q : BufPtr → Kernel × Share → Prop} (href : a.ref = none)
    (h : ∀ b t, b ∉ a.held → LogRely a s t → t.Holds b blk →
      Q b (t, { a with held := insert b a.held })) : logWp p v (bread p rootdev blk) Q (s, a) := by
  refine logWp_bind (logWp_bget href fun b t hnot hR hd hk => logWp_bind (logWp_read fun u hRu hok => ?_))
  have hmem : b ∈ insert b a.held := Finset.mem_insert_self _ _
  have hkeep : ∀ {t u}, LogRely { a with held := insert b a.held } t u → LogRely a t u :=
    fun hR => hR.sub (Finset.subset_insert _ _) href id
  obtain ⟨hdu, hku⟩ := hRu.place b (Share.uses_pos_of_held hmem)
  have hRsu := hR.trans (hkeep hRu)
  cases hv : (u.buf b).valid with
  | true => exact h b u hnot hRsu ⟨hv, hdu.trans hd, hku.trans hk⟩
  | false =>
    refine logWp_bind (logWp_bind (logWp_update fun v hRv hokv =>
      ⟨_, .cache (.load hmem ((hRv.valid b hmem).trans hv)), logWp_update fun w hRw _ => ?_⟩))
    rw [diskRead_eq] at hRw
    obtain ⟨hdv, hkv⟩ := hRv.place b (Share.uses_pos_of_held hmem)
    obtain ⟨hdw, hkw⟩ := hRw.place b (Share.uses_pos_of_held hmem)
    have hkw : (w.buf b).blockno = (v.buf b).blockno := hkw
    have hvw : (w.buf b).valid = false := (hRw.valid b hmem).trans ((hRv.valid b hmem).trans hv)
    have hbytes : w.bytes b = w.disk (w.buf b).blockno := by
      rw [hRw.bytes b hmem, bytes_setBytes_self, hkw]
      exact (hRw.disk b hmem (hdv.trans (hdu.trans hd))).symm
    refine ⟨_, .cache (.validate hmem hvw hbytes), ?_⟩
    refine h b _ hnot ((((hRsu.trans (hkeep hRv)).trans (.of_setBytes hokv.cache hnot)).trans (hkeep hRw)).trans ?_) ?_
    · exact .of_setBuf rfl (Share.uses_eq_zero hnot href)
    · refine ⟨?_, ?_, ?_⟩
      all_goals rw [setBuf_self]
      · exact hdw.trans (hdv.trans (hdu.trans hd))
      · exact hkw.trans (hkv.trans (hku.trans hk))

theorem logWp_brelse (href : a.ref = none) (hb : b ∈ a.held)
    (hd : b ∉ a.dirty) (h : ∀ t, LogRely { a with held := a.held.erase b } s t →
      Q () (t, { a with held := a.held.erase b })) : logWp p v (brelse p b) Q (s, a) := by
  have hkeep : ∀ {t u}, LogRely a t u → LogRely { a with held := a.held.erase b } t u :=
    fun hR => hR.sub (Finset.erase_subset _ _) href id
  have hkeep' : ∀ {t u}, LogRely { a with held := a.held.erase b, ref := some b } t u →
      LogRely { a with held := a.held.erase b } t u :=
    fun hR => hR.sub (Finset.Subset.refl _) href id
  refine logWp_bind (logWp_kassert fun t hR _ => logWp_bind (logWp_update fun u hRu _ =>
    ⟨_, .cache (.unlock href hb hd), logWp_update fun v hRv _ => ⟨_, .cache (.put rfl), ?_⟩⟩))
  rw [setLock_eq] at hRv
  have hsame := (CacheAct.put (p := p) (s := v)
    (a := { a with held := a.held.erase b, ref := some b }) rfl).same
  have hlast : LogRely { a with held := a.held.erase b } v (v.brelse b) :=
    .of_sameBufs (brelse_same v b) hsame.disk hsame.sb fun _ => by rw [hsame.log]
  have hunlock : LogRely { a with held := a.held.erase b } u
      (u.setBuf b fun x => { x with lock := ⟨false, 0⟩ }) :=
    .of_sameBufs (.setBuf rfl rfl rfl rfl) rfl rfl fun _ => rfl
  have := h _ ((((hkeep (hR.trans hRu)).trans hunlock).trans (hkeep' hRv)).trans hlast)
  rwa [href] at this

/-- A buffer given back leaves the account as it was before `bread`. -/
theorem logWp_brelse_insert (href : a.ref = none)
    (hb : b ∉ a.held) (hd : b ∉ a.dirty) (h : ∀ t, LogRely a s t → Q () (t, a)) :
    logWp p v (brelse p b) Q (s, { a with held := insert b a.held }) := by
  refine logWp_brelse href (Finset.mem_insert_self _ _) hd fun t hR => ?_
  have he : (insert b a.held).erase b = a.held := Finset.erase_insert hb
  dsimp only at hR ⊢
  rw [he] at hR ⊢
  exact h t hR

theorem logWp_bwrite (h : ∀ t, LogRely a s t → LogOk p a t →
      ∃ a', LogAct p v (t, a) (t.diskWrite b, a') ∧ Q () (t.diskWrite b, a')) : logWp p v (bwrite p b) Q (s, a) :=
  logWp_bind (logWp_kassert fun _ hR _ => logWp_update fun u hRu hok => h u (hR.trans hRu) hok)

theorem logWp_setBufBytes {f : Block → Block} (h : ∀ t, LogRely a s t → LogOk p a t →
      ∃ a', LogAct p v (t, a) (t.setBytes b f, a') ∧ Q () (t.setBytes b f, a')) :
    logWp p v (setBufBytes b f) Q (s, a) := by
  rw [setBufBytes_eq]
  exact logWp_update h

end Txv6
