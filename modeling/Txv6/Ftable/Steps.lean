import Txv6.Ftable.Own

/-! # The steps of the file table's code -/
namespace Txv6.Ftable
open Lib Function
open Lib.Prog hiding update

variable {p : ProcPtr} {o : Own} {x y : State × Ghost}

theorem Exact.lt_nproc (hx : Exact x) (halive : x.1.state p = .runnable) : p < nproc := by
  by_contra hge
  exact hx.slots.bound p (Nat.le_of_not_lt hge) halive

/-- A slot that nobody runs in is not touched by what another process does with its own. -/
theorem Slots.other (hx : Slots x) (halive : x.1.state p = .runnable) (hstate : y.1.state = x.1.state)
    (hofile : ∀ q, q ≠ p → y.1.ofile q = x.1.ofile q)
    (hempty : ∀ q, q ≠ p → Empty q x.2 → Empty q y.2) (hbuilder : y.2.builder = x.2.builder) : Slots y := by
  have hne : ∀ q, x.1.state q ≠ .runnable → q ≠ p := by
    intro q hq he
    subst he
    exact hq halive
  refine ⟨?_, ?_, ?_, ?_⟩
  · rw [hstate]
    exact hx.bound
  · intro q hq
    rw [hstate] at hq
    exact hempty q (hne q hq) (hx.empty q hq)
  · intro q hq
    rw [hstate] at hq
    have hdead : x.1.state q ≠ .runnable := by
      intro h
      rw [h] at hq
      obtain hq | hq := hq
      · cases hq
      · cases hq
    rw [hofile q (hne q hdead)]
    exact hx.clear q hq
  · intro q
    rw [hbuilder, hstate]
    exact hx.built q

/-! ## Files -/
section File
variable {f : FilePtr} {k : File} {l : FilePtr → Nat} {m : Page × Bool → Nat}

/-- The file `f` is set to `k`; the process accounts for the difference. -/
theorem FileStep.file (ho : Has p o y) (hl : ∀ f', f' ≠ f → l f' = o.hold f')
    (href : k.ref + (o.hold f : Int) = (y.1.file f).ref + (l f : Int))
    (hfree : k.ref = 0 → k.type = .none) (hone : k.type = .pipe → k.readable = !k.writable)
    (hends : ∀ e, (if isEnd k e then 1 else 0) + m e = (if isEnd (y.1.file f) e then 1 else 0) + o.ends e)
    (hother : Exact y → ∀ q, q ≠ p → q < nproc → y.2.hold q f = 1 → New f y → k.ref = 1 ∧ k.type = .none) :
    FileStep p y (y.1.setFile f fun _ => k, (y.2.setHold p l).setEnds p m) := by
  intro hy
  have hp := hy.lt_nproc ho.alive
  refine ⟨⟨⟨?_, ?_⟩, ⟨?_, ?_, ?_⟩, ?_⟩, ?_⟩
  · intro f'
    have hheld := y.2.held_setHold hp l f'
    have hold := hy.refs.ref f'
    change ((y.1.setFile f fun _ => k).file f').ref = ((y.2.setHold p l).held f' : Int)
    rw [ho.hold] at hheld
    by_cases e : f' = f
    · subst e
      rw [show (y.1.setFile f' fun _ => k).file f' = k by simp [State.setFile]]
      omega
    · rw [show (y.1.setFile f fun _ => k).file f' = y.1.file f' by simp [State.setFile, update_of_ne e], hold]
      have := hl f' e
      omega
  · intro f' hf'
    by_cases e : f' = f
    · subst e
      simp only [State.setFile, update_self] at hf' ⊢
      exact hfree hf'
    · simp only [State.setFile, update_of_ne e] at hf' ⊢
      exact hy.refs.free f' hf'
  · intro f' hf'
    by_cases e : f' = f
    · subst e
      simp only [State.setFile, update_self] at hf' ⊢
      exact hone hf'
    · simp only [State.setFile, update_of_ne e] at hf' ⊢
      exact hy.pipes.oneWay f' hf'
  · intro e
    have hloose := (y.2.setHold p l).loose_setEnds hp m e
    have hold := hy.pipes.ends e
    have hfiles := y.1.files_setFile f k e
    have hown : (y.2.setHold p l).ends p e = o.ends e := congrFun ho.ends e
    have hsame : (y.2.setHold p l).loose e = y.2.loose e := rfl
    have hopen : (y.1.setFile f fun _ => k).openEnd e = y.1.openEnd e := rfl
    rw [hopen, hold]
    have := hends e
    rw [hown, hsame] at hloose
    dsimp only
    omega
  · exact fun pg q hq => hy.pipes.dying pg q hq
  · refine hy.slots.other ho.alive rfl (fun _ _ => rfl) (fun q hq he => ?_) rfl
    refine ⟨fun f' => ?_, fun e => ?_, he.dying, he.builder⟩
    · change update y.2.hold p l q f' = 0
      rw [update_of_ne hq]
      exact he.hold f'
    · change update y.2.ends p m q e = 0
      rw [update_of_ne hq]
      exact he.ends e
  · intro q hq
    refine .spared (fun _ _ => rfl) (fun _ _ => rfl) (update_of_ne hq _ _)
      (update_of_ne hq _ _) (fun _ => Iff.rfl) (fun _ => Iff.rfl) fun halive f' hf' hnew => ?_
    unfold New
    by_cases e : f' = f
    · subst e
      rw [show (y.1.setFile f' fun _ => k).file f' = k by simp [State.setFile]]
      exact hother hy q hq (hy.lt_nproc halive) hf' hnew
    · rw [show (y.1.setFile f fun _ => k).file f' = y.1.file f' by simp [State.setFile, update_of_ne e]]
      exact hnew

theorem Has.file {N : Set FilePtr} (ho : Has p o y) (ff : File) (l : FilePtr → Nat) (m : Page × Bool → Nat)
    (hN : ∀ f' ∈ N, l f' = 1 ∧ (f' = f → ff.ref = 1 ∧ ff.type = .none) ∧ (f' ≠ f → f' ∈ o.fresh)) :
    Has p { o with hold := l, fresh := N, ends := m }
      (y.1.setFile f fun _ => ff, (y.2.setHold p l).setEnds p m) := by
  refine ⟨ho.alive, ho.ofile, update_self .., fun f' hf' => ?_, update_self .., ho.dying,
    ho.builder, ho.child⟩
  obtain ⟨hone, heq, hne⟩ := hN f' hf'
  refine ⟨hone, ?_⟩
  unfold New
  by_cases e : f' = f
  · subst e
    simpa [State.setFile] using heq rfl
  · simpa [State.setFile, update_of_ne e, New] using (ho.fresh f' (hne e)).2

/-- Another process that holds the file too is one more than this one. -/
theorem Exact.shared {q : ProcPtr} (hy : Exact y) (ho : Has p o y) (hq : q ≠ p)
    (hqn : q < nproc) : (o.hold f : Int) + y.2.hold q f ≤ (y.1.file f).ref := by
  have hle := y.2.hold_add_le (hy.lt_nproc ho.alive) hqn hq f
  rw [ho.hold] at hle
  rw [hy.refs.ref f]
  omega

theorem fileWp_filealloc (ho : Has p o x) : fileWp p filealloc (fun r y => match r with
    | none => Has p o y
    | some f => o.hold f = 0 ∧
        Has p { o with hold := update o.hold f 1, fresh := insert f o.fresh } y) x := by
  refine fwp_atom fun y hR => ?_
  have hy := hR.1.keeps o ho
  cases hfind : (List.finRange nfile).find? fun f => (y.1.file f).ref == 0 with
  | none => exact ⟨y.2, FileStep.refl p y, hy⟩
  | some f =>
    have href : (y.1.file f).ref = 0 := by simpa using List.find?_some hfind
    have hmine : o.hold f = 0 := by
      have hle := y.2.hold_le (hR.2.lt_nproc hy.alive) f
      have := hR.2.refs.ref f
      rw [hy.hold] at hle
      omega
    refine ⟨_, FileStep.file (k := { y.1.file f with ref := 1 }) (l := update o.hold f 1)
      (m := o.ends) hy ?_ ?_ ?_ ?_ ?_ ?_, hmine, hy.file _ _ _ fun f' hf' => ⟨?_, fun e => ?_, fun e => ?_⟩⟩
    · intro f' hf'
      rw [update_of_ne hf']
    · rw [href, hmine, update_self]
      rfl
    · intro h
      cases h
    · exact hR.2.pipes.oneWay f
    · exact fun _ => rfl
    · intro _ q _ _ _ hnew
      rw [hnew.1] at href
      cases href
    · by_cases e : f' = f
      · rw [e, update_self]
      · rw [update_of_ne e]
        exact (ho.fresh f' (Set.mem_of_mem_insert_of_ne hf' e)).1
    · exact ⟨rfl, hR.2.refs.free f href⟩
    · exact Set.mem_of_mem_insert_of_ne hf' e

theorem fileWp_filedup (ho : Has p o x) (hf : 1 ≤ o.hold f) (hnew : f ∉ o.fresh) : fileWp p (filedup f)
    (fun _ y => Has p { o with hold := update o.hold f (o.hold f + 1) } y) x := by
  refine fwp_attempt fun y hR => ?_
  have hy := hR.1.keeps o ho
  have href := hR.2.refs.ref f
  have hle := y.2.hold_le (hR.2.lt_nproc hy.alive) f
  rw [hy.hold] at hle
  have hlt : ¬ (y.1.file f).ref < 1 := by omega
  refine ⟨(), (y.2.setHold p (update o.hold f (o.hold f + 1))).setEnds p o.ends, ?_, ?_, ?_⟩
  · rw [if_neg hlt]
  · rw [if_neg hlt]
    refine FileStep.file (k := { y.1.file f with ref := (y.1.file f).ref + 1 }) hy ?_ ?_ ?_ ?_ ?_ ?_
    · intro f' hf'
      rw [update_of_ne hf']
    · rw [update_self]
      push_cast
      omega
    · intro h
      dsimp only at h
      omega
    · exact hR.2.pipes.oneWay f
    · exact fun _ => rfl
    · intro hy' q hq hqn hqf hone
      have := hy'.shared hy (f := f) hq hqn
      have := hone.1
      omega
  · rw [if_neg hlt]
    refine hy.file _ _ _ fun f' hf' => ⟨?_, fun e => absurd (e ▸ hf') hnew, fun _ => hf'⟩
    have e : f' ≠ f := fun e => hnew (e ▸ hf')
    rw [update_of_ne e]
    exact (ho.fresh f' hf').1

/-- What `fileclose` finds in the file that is gone. -/
def Own.closed (o : Own) (f : FilePtr) (r : Option File) : Own :=
  { o with
    hold := Function.update o.hold f (o.hold f - 1)
    fresh := o.fresh \ {f}
    ends := match r with
      | none => o.ends
      | some ff => if ff.type = .pipe then
          Function.update o.ends (ff.pipe, ff.writable) (o.ends (ff.pipe, ff.writable) + 1) else o.ends }

theorem fileWp_filecloseStep (ho : Has p o x) (hf : 1 ≤ o.hold f) :
    fileWp p (.attempt fun s => s.fileclose f) (fun r y => Has p (o.closed f r) y) x := by
  refine fwp_attempt fun y hR => ?_
  have hy := hR.1.keeps o ho
  have href := hR.2.refs.ref f
  have hle := y.2.hold_le (hR.2.lt_nproc hy.alive) f
  rw [hy.hold] at hle
  have hfresh : ∀ f' ∈ o.fresh \ {f}, (o.closed f none).hold f' = 1 ∧ f' ≠ f ∧ f' ∈ o.fresh := by
    intro f' hf'
    refine ⟨?_, hf'.2, hf'.1⟩
    rw [show (o.closed f none).hold f' = o.hold f' from update_of_ne hf'.2 _ _]
    exact (ho.fresh f' hf'.1).1
  have put : ∀ (ff : File) (m : Page × Bool → Nat), Has p { o with
      hold := (o.closed f none).hold
      fresh := o.fresh \ {f}
      ends := m } (y.1.setFile f fun _ => ff, (y.2.setHold p (o.closed f none).hold).setEnds p m) := by
    intro ff m
    refine hy.file _ _ _ fun f' hf' => ?_
    obtain ⟨hone, hne, hmem⟩ := hfresh f' hf'
    exact ⟨hone, fun e => absurd e hne, fun _ => hmem⟩
  unfold State.fileclose
  rw [if_neg (by omega)]
  by_cases hmany : 1 < (y.1.file f).ref
  · rw [if_pos hmany]
    refine ⟨none, _, rfl, FileStep.file (k := { y.1.file f with ref := (y.1.file f).ref - 1 })
      (l := (o.closed f none).hold) (m := o.ends) hy ?_ ?_ ?_ ?_ ?_ ?_, put _ _⟩
    · intro f' hf'
      exact update_of_ne hf' _ _
    · change _ = _ + ((update o.hold f (o.hold f - 1) f : Nat) : Int)
      rw [update_self]
      dsimp only
      omega
    · intro h
      dsimp only at h
      omega
    · exact hR.2.pipes.oneWay f
    · exact fun _ => rfl
    · intro hy' q hq hqn hqf hnew
      have := hnew.1
      omega
  · rw [if_neg hmany]
    have hone : (y.1.file f).ref = 1 := by omega
    refine ⟨some (y.1.file f), _, rfl, FileStep.file
      (k := { y.1.file f with ref := 0, type := .none }) (l := (o.closed f none).hold)
      (m := (o.closed f (some (y.1.file f))).ends) hy ?_ ?_ ?_ ?_ ?_ ?_, put _ _⟩
    · intro f' hf'
      exact update_of_ne hf' _ _
    · change _ = _ + ((update o.hold f (o.hold f - 1) f : Nat) : Int)
      rw [update_self]
      dsimp only
      omega
    · exact fun _ => rfl
    · intro h
      cases h
    · -- the end that was the file's is the process's now
      intro e
      rw [if_neg (fun h => nomatch h.1)]
      unfold Own.closed
      dsimp only
      by_cases ht : (y.1.file f).type = .pipe
      · rw [if_pos ht]
        by_cases he : e = ((y.1.file f).pipe, (y.1.file f).writable)
        · subst he
          rw [update_self, if_pos ⟨ht, rfl, rfl⟩]
          omega
        · rw [update_of_ne he, if_neg]
          intro h
          exact he (Prod.ext h.2.1.symm h.2.2.symm)
      · rw [if_neg ht, if_neg (fun h => ht h.1)]
    · intro hy' q hq hqn hqf _
      have := hy'.shared hy (f := f) hq hqn
      omega

end File

/-! ## Ends of pipes -/
section Pipe
variable {pg : Page} {e' : Option Ends} {m : Page × Bool → Nat} {d : Option ProcPtr}

/-- The pipe in the page `pg` is changed by a process that has the difference. -/
theorem FileStep.pipe (ho : Has p o y) (hm : ∀ e, e.1 ≠ pg → m e = o.ends e)
    (hends : ∀ w, Ends.number e' w + o.ends (pg, w) = y.1.openEnd (pg, w) + m (pg, w))
    (hd : ∀ q, d = some q → q = p ∧ e' = some ⟨false, false⟩) (hwas : ∀ q, y.2.dying pg = some q → q = p) :
    FileStep p y (y.1.setPipe pg e', (y.2.setEnds p m).setDying pg d) := by
  intro hy
  have hp := hy.lt_nproc ho.alive
  refine ⟨⟨⟨hy.refs.ref, hy.refs.free⟩, ⟨hy.pipes.oneWay, ?_, ?_⟩, ?_⟩, ?_⟩
  · intro e
    have hloose := y.2.loose_setEnds hp m e
    have hold := hy.pipes.ends e
    have hown : y.2.ends p e = o.ends e := congrFun ho.ends e
    change (y.1.setPipe pg e').openEnd e = y.1.files e + (y.2.setEnds p m).loose e
    rw [hown] at hloose
    obtain ⟨pg', w⟩ := e
    by_cases he : pg' = pg
    · subst he
      have hnew : (y.1.setPipe pg' e').openEnd (pg', w) = Ends.number e' w := by
        simp [State.openEnd, State.setPipe]
      have := hends w
      omega
    · have hnew : (y.1.setPipe pg e').openEnd (pg', w) = y.1.openEnd (pg', w) := by
        simp [State.openEnd, State.setPipe, update_of_ne he]
      have := hm (pg', w) he
      omega
  · intro pg' q hq
    by_cases he : pg' = pg
    · subst he
      simp only [Ghost.setDying, State.setPipe, update_self] at hq ⊢
      exact (hd q hq).2
    · simp only [Ghost.setDying, State.setPipe, update_of_ne he] at hq ⊢
      exact hy.pipes.dying pg' q hq
  · refine hy.slots.other ho.alive rfl (fun _ _ => rfl) (fun q hq he => ?_) rfl
    refine ⟨he.hold, fun e => ?_, fun pg' => ?_, he.builder⟩
    · change update y.2.ends p m q e = 0
      rw [update_of_ne hq]
      exact he.ends e
    · change update y.2.dying pg d pg' ≠ some q
      by_cases e : pg' = pg
      · subst e
        rw [update_self]
        exact fun h => hq (hd q h).1
      · rw [update_of_ne e]
        exact he.dying pg'
  · intro q hq
    refine .spared (fun _ _ => rfl) (fun _ _ => rfl) rfl (update_of_ne hq _ _) (fun pg' => ?_)
      (fun _ => Iff.rfl) fun _ _ _ hnew => hnew
    change update y.2.dying pg d pg' = some q ↔ y.2.dying pg' = some q
    by_cases e : pg' = pg
    · subst e
      rw [update_self]
      exact ⟨fun h => absurd (hd q h).1 hq, fun h => absurd (hwas q h) hq⟩
    · rw [update_of_ne e]

theorem Has.pipe (ho : Has p o y) (e' : Option Ends) (m : Page × Bool → Nat) {d' : Option Page}
    (hd : ∀ pg', update y.2.dying pg d pg' = some p ↔ d' = some pg') :
    Has p { o with ends := m, dying := d' } (y.1.setPipe pg e', (y.2.setEnds p m).setDying pg d) :=
  ⟨ho.alive, ho.ofile, ho.hold, ho.fresh, update_self .., hd, ho.builder, ho.child⟩

/-- A page that is no dying pipe. -/
theorem Exact.not_dying (hy : Exact y) (h : y.1.pipe pg ≠ some ⟨false, false⟩) : y.2.dying pg = none := by
  cases hd : y.2.dying pg with
  | none => rfl
  | some q => exact absurd (hy.pipes.dying pg q hd) h

theorem Ends.number_close (e : Ends) (w w' : Bool) :
    Ends.number (some (e.close w)) w' = if w' = w then 0 else Ends.number (some e) w' := by
  unfold Ends.number Ends.close Ends.isOpen
  cases w <;> cases w' <;> simp

/-- `pipeclose` of an end that the process has. -/
theorem fileWp_pipeclose {w : Bool} (ho : Has p o x) (hdying : o.dying = none) (hw : 1 ≤ o.ends (pg, w)) :
    fileWp p (pipeclose pg w) (fun _ y =>
      Has p { o with ends := update o.ends (pg, w) (o.ends (pg, w) - 1) } y) x := by
  have hnone : ∀ {y : State × Ghost}, Has p o y → ∀ pg', y.2.dying pg' ≠ some p := by
    intro y hy pg' h
    have := (hy.dying pg').mp h
    rw [hdying] at this
    cases this
  refine fwp_seq (M := fun last y => Has p { o with
    ends := update o.ends (pg, w) (o.ends (pg, w) - 1)
    dying := if last then some pg else none } y) (fwp_atom fun y hR => ?_) fun last y hy => ?_
  · have hy := hR.1.keeps o ho
    have hends := hR.2.pipes.ends (pg, w)
    have hle := y.2.ends_le (hR.2.lt_nproc hy.alive) (pg, w)
    rw [congrFun hy.ends] at hle
    unfold State.openEnd Ends.number at hends
    dsimp only at hends
    unfold State.pipeclose
    cases he : y.1.pipe pg with
    | none =>
      rw [he] at hends
      dsimp only at hends
      omega
    | some e =>
      rw [he] at hends
      dsimp only at hends ⊢
      have hopen : e.isOpen w = true := by
        by_contra hc
        rw [if_neg hc] at hends
        omega
      have halive : y.1.pipe pg ≠ some ⟨false, false⟩ := by
        intro h
        rw [he] at h
        cases h
        unfold Ends.isOpen at hopen
        cases w <;> cases hopen
      have hnot := hR.2.not_dying halive
      refine ⟨_, FileStep.pipe (m := update o.ends (pg, w) (o.ends (pg, w) - 1))
        (d := if !(e.close w).readopen && !(e.close w).writeopen then some p else none) hy ?_ ?_ ?_ ?_,
        hy.pipe _ _ ?_⟩
      · intro e' he'
        refine update_of_ne ?_ _ _
        intro h
        exact he' (congrArg Prod.fst h)
      · intro w'
        rw [Ends.number_close]
        unfold State.openEnd
        dsimp only
        rw [he]
        by_cases hw' : w' = w
        · subst hw'
          rw [if_pos rfl, update_self]
          unfold Ends.number
          dsimp only
          rw [if_pos hopen]
          omega
        · rw [if_neg hw', update_of_ne (fun h => hw' (congrArg Prod.snd h))]
      · intro q hq
        split at hq
        next hlast =>
          refine ⟨(Option.some.inj hq).symm, ?_⟩
          generalize e.close w = e' at hlast ⊢
          obtain ⟨r, v⟩ := e'
          cases r <;> cases v <;> first | rfl | cases hlast
        next => cases hq
      · intro q hq
        rw [hnot] at hq
        cases hq
      · intro pg'
        by_cases e' : pg' = pg
        · subst e'
          rw [update_self]
          split
          · exact ⟨fun _ => rfl, fun _ => rfl⟩
          · exact ⟨fun h => (nomatch h), fun h => (nomatch h)⟩
        · rw [update_of_ne e']
          refine ⟨fun h => absurd h (hnone hy pg'), fun h => ?_⟩
          split at h
          · exact absurd (Option.some.inj h).symm e'
          · cases h
  · refine fwp_when (fun hlast => ?_) fun hlast => ?_
    · subst hlast
      refine fwp_update fun z hR => ?_
      have hz := hR.1.keeps _ hy
      have hmine : z.2.dying pg = some p := (hz.dying pg).mpr rfl
      refine ⟨_, FileStep.pipe (m := update o.ends (pg, w) (o.ends (pg, w) - 1)) (d := none)
        hz (fun _ _ => rfl) ?_ ?_ ?_, ?_⟩
      · intro w'
        unfold State.openEnd
        dsimp only
        rw [hR.2.pipes.dying pg p hmine]
        cases w' <;> rfl
      · exact fun q hq => nomatch hq
      · intro q hq
        rw [hmine] at hq
        exact (Option.some.inj hq).symm
      · rw [← hdying]
        refine hz.pipe none _ fun pg' => ?_
        rw [hdying]
        by_cases e' : pg' = pg
        · subst e'
          rw [update_self]
          exact ⟨fun h => (nomatch h), fun h => (nomatch h)⟩
        · rw [update_of_ne e']
          refine ⟨fun h => ?_, fun h => nomatch h⟩
          exact absurd (Option.some.inj ((hz.dying pg').mp h)).symm e'
    · subst hlast
      rw [← hdying] at hy
      exact hy

/-- `kalloc` for a pipe: the process has both ends. -/
theorem fileWp_kalloc (ho : Has p o x) (hends : o.ends = fun _ => 0) (mem : Option Page) :
    fileWp p (kalloc mem) (fun r y => match r with
      | none => Has p o y
      | some pi => Has p { o with ends := fun e => if e.1 = pi then 1 else 0 } y) x := by
  cases mem with
  | none => exact ho
  | some pi =>
    refine fwp_seq (M := fun _ y => Has p { o with ends := fun e => if e.1 = pi then 1 else 0 } y)
      (fwp_await fun y hR hen => ?_) fun _ y hy => hy
    have hy := hR.1.keeps o ho
    have hfree : y.1.pipe pi = none := Option.isNone_iff_eq_none.mp hen
    have hnot := hR.2.not_dying (show y.1.pipe pi ≠ some ⟨false, false⟩ by rw [hfree]; exact fun h => nomatch h)
    refine ⟨_, FileStep.pipe (m := fun e => if e.1 = pi then 1 else 0) (d := none) hy ?_ ?_ ?_ ?_,
      hy.pipe _ _ ?_⟩
    · intro e he
      rw [if_neg he, hends]
    · intro w
      unfold State.openEnd
      dsimp only
      rw [hfree, hends, if_pos rfl]
      cases w <;> rfl
    · exact fun q hq => nomatch hq
    · intro q hq
      rw [hnot] at hq
      cases hq
    · intro pg'
      by_cases e : pg' = pi
      · subst e
        rw [update_self, ← hy.dying, hnot]
      · rw [update_of_ne e]
        exact hy.dying pg'

/-- The fields of a pipe with two loose ends are set. -/
theorem fileWp_openPipe {pi : Page} (ho : Has p { o with ends := fun e => if e.1 = pi then 1 else 0 } x) :
    fileWp p (.update fun s => s.setPipe pi (some ⟨true, true⟩))
      (fun _ y => Has p { o with ends := fun e => if e.1 = pi then 1 else 0 } y) x := by
  refine fwp_update fun y hR => ?_
  have hy := hR.1.keeps _ ho
  have hopen : y.1.pipe pi = some ⟨true, true⟩ := by
    have hlt := hR.2.lt_nproc hy.alive
    have hend : ∀ w, 1 ≤ y.1.openEnd (pi, w) := by
      intro w
      have hle := y.2.ends_le hlt (pi, w)
      have hmine : y.2.ends p (pi, w) = 1 := by
        rw [hy.ends]
        exact if_pos rfl
      rw [hR.2.pipes.ends]
      omega
    have hr := hend false
    have hw := hend true
    unfold State.openEnd Ends.number at hr hw
    dsimp only at hr hw
    cases he : y.1.pipe pi with
    | none =>
      rw [he] at hr
      cases hr
    | some e =>
      rw [he] at hr hw
      obtain ⟨r, v⟩ := e
      have hr : r = true := by simpa [Ends.isOpen, Nat.one_le_iff_ne_zero] using hr
      have hw : v = true := by simpa [Ends.isOpen, Nat.one_le_iff_ne_zero] using hw
      rw [hr, hw]
  refine ⟨y.2, ?_, ?_⟩
  · rw [show y.1.setPipe pi (some ⟨true, true⟩) = y.1 by
      rw [State.setPipe, ← hopen, update_eq_self]]
    exact FileStep.refl p y
  · rw [show y.1.setPipe pi (some ⟨true, true⟩) = y.1 by
      rw [State.setPipe, ← hopen, update_eq_self]]
    exact hy

end Pipe

/-! ## Whole operations on files -/
section Files
variable {f : FilePtr}

/-- `fileclose` of a file that the process has a reference to. -/
theorem fileWp_fileclose (ho : Has p o x) (hdying : o.dying = none) (hf : 1 ≤ o.hold f) :
    fileWp p (fileclose f)
      (fun _ y => Has p { o with
        hold := update o.hold f (o.hold f - 1)
        fresh := o.fresh \ {f} } y) x := by
  refine fwp_seq (fileWp_filecloseStep ho hf) fun r y hy => ?_
  cases r with
  | none => exact hy
  | some ff =>
    refine fwp_when (fun ht => ?_) fun ht => ?_
    · have ht : ff.type = .pipe := by simpa using ht
      have hends : (o.closed f (some ff)).ends = update o.ends (ff.pipe, ff.writable)
          (o.ends (ff.pipe, ff.writable) + 1) := if_pos ht
      have hloose : 1 ≤ (o.closed f (some ff)).ends (ff.pipe, ff.writable) := by
        rw [hends, update_self]
        omega
      refine fwp_post (fun _ z hz => ?_) (fileWp_pipeclose hy hdying hloose)
      rw [hends, update_self, update_idem, Nat.add_sub_cancel, update_eq_self] at hz
      exact hz
    · have ht : ff.type ≠ .pipe := by simpa using ht
      have hends : (o.closed f (some ff)).ends = o.ends := if_neg ht
      unfold Own.closed at hy hends
      dsimp only at hy hends
      rw [hends] at hy
      exact hy

/-- A new file gets its fields. -/
theorem fileWp_setNew {g : File → File} {m : Page × Bool → Nat} (ho : Has p o x) (hf : f ∈ o.fresh)
    (href : ∀ a, (g a).ref = a.ref) (hone : ∀ a, (g a).type = .pipe → (g a).readable = !(g a).writable)
    (hends : ∀ a e, (if isEnd (g a) e then 1 else 0) + m e = o.ends e) :
    fileWp p (.update fun s => s.setFile f g)
      (fun _ y => Has p { o with fresh := o.fresh \ {f}, ends := m } y) x := by
  refine fwp_update fun y hR => ?_
  have hy := hR.1.keeps o ho
  obtain ⟨hmine, hone', hnone⟩ := hy.fresh f hf
  refine ⟨_, FileStep.file (k := g (y.1.file f)) (l := o.hold) (m := m) hy ?_ ?_ ?_ ?_ ?_ ?_,
    hy.file _ _ _ fun f' hf' => ⟨(hy.fresh f' hf'.1).1, fun e => absurd e hf'.2, fun _ => hf'.1⟩⟩
  · exact fun _ _ => rfl
  · rw [href]
  · intro h
    rw [href, hone'] at h
    cases h
  · exact hone _
  · intro e
    rw [hends, if_neg, Nat.zero_add]
    intro h
    have ht := h.1
    rw [hnone] at ht
    cases ht
  · intro hy' q hq hqn hqf _
    have := hy'.shared hy (f := f) hq hqn
    omega

end Files

/-! ## Descriptors -/
section Descriptors

theorem FileStep.ofile (ho : Has p o y) (fd : Nat) (v : Option FilePtr) :
    FileStep p y (y.1.setOfile p fd v, y.2) := by
  intro hy
  have hother : ∀ q, q ≠ p → (y.1.setOfile p fd v).ofile q = y.1.ofile q := by
    intro q hq
    exact update_of_ne hq _ _
  refine ⟨⟨⟨hy.refs.ref, hy.refs.free⟩, ⟨hy.pipes.oneWay, hy.pipes.ends, hy.pipes.dying⟩,
    hy.slots.other ho.alive rfl hother (fun _ _ h => h) rfl⟩, fun q hq => ?_⟩
  refine .spared (fun _ _ => rfl) (fun q' hq' => hother q' ?_) rfl rfl (fun _ => Iff.rfl)
    (fun _ => Iff.rfl) fun _ _ _ hnew => hnew
  -- the descriptors of a process that runs are nobody's to build
  intro e
  subst e
  obtain hq' | hq' := hq'
  · exact hq hq'.symm
  · have hused := (hy.slots.built q').mp (by rw [hq']; exact fun h => nomatch h)
    rw [ho.alive] at hused
    cases hused

theorem Has.setOfile (ho : Has p o y) (hchild : ∀ q c, o.child = some (q, c) → q ≠ p) (fd : Nat)
    (v : Option FilePtr) : Has p { o with ofile := update o.ofile fd v } (y.1.setOfile p fd v, y.2) := by
  refine ⟨ho.alive, ?_, ho.hold, ho.fresh, ho.ends, ho.dying, ho.builder, fun q c hc => ?_⟩
  · change update y.1.ofile p _ p = _
    rw [update_self, ho.ofile]
  · refine ⟨?_, (ho.child q c hc).2⟩
    change update y.1.ofile p _ q = _
    rw [update_of_ne (hchild q c hc)]
    exact (ho.child q c hc).1

theorem fileWp_setOfile (ho : Has p o x) (hchild : o.child = none) (fd : Nat) (v : Option FilePtr) :
    fileWp p (.update fun s => s.setOfile p fd v)
      (fun _ y => Has p { o with ofile := update o.ofile fd v } y) x := by
  refine fwp_update fun y hR => ?_
  have hy := hR.1.keeps o ho
  refine ⟨y.2, FileStep.ofile hy fd v, hy.setOfile (fun q c hc => ?_) fd v⟩
  rw [hchild] at hc
  cases hc

theorem fileWp_fdalloc (ho : Has p o x) (hchild : o.child = none) (f : FilePtr) :
    fileWp p (fdalloc p f) (fun r y => match r with
      | none => Has p o y
      | some fd => fd < nofile ∧ o.ofile fd = none ∧
          Has p { o with ofile := update o.ofile fd (some f) } y) x := by
  refine fwp_atom fun y hR => ?_
  have hy := hR.1.keeps o ho
  cases hfind : (List.range nofile).find? fun fd => y.1.ofile p fd == none with
  | none => exact ⟨y.2, FileStep.refl p y, hy⟩
  | some fd =>
    have hlt : fd < nofile := List.mem_range.mp (List.mem_of_find?_eq_some hfind)
    have hnone : o.ofile fd = none := by
      rw [← hy.ofile]
      simpa using List.find?_some hfind
    refine ⟨y.2, FileStep.ofile hy fd (some f), hlt, hnone, hy.setOfile (fun q c hc => ?_) fd (some f)⟩
    rw [hchild] at hc
    cases hc

theorem fileWp_read {α : Type} {g : State → α} (ho : Has p o x) :
    fileWp p (.read g) (fun a y => Has p o y ∧ a = g y.1) x :=
  fwp_read fun y hR => ⟨FileStep.refl p y, hR.1.keeps o ho, rfl⟩

end Descriptors

end Txv6.Ftable
