import Txv6.Refs.Calls

/-! # The accounts over fork, exit and wait

`fork` has the slot of the child on its account until the child runs; the reference that the
child's working directory takes is the one that `idup` made. `exit` leaves a process without
files and without a working directory. -/
namespace Txv6
open Lib Lib.Prog
open Kernel (setPage setProc)

/-! ## Freeing a slot -/

theorem freeproc_rest (s : Kernel) (np : ProcPtr) : (s.freeproc np).tx = s.tx ∧
    (s.freeproc np).inode = s.inode ∧ (s.freeproc np).file = s.file ∧
    (s.freeproc np).trace = s.trace := by
  unfold Kernel.freeproc
  split
  · exact ⟨rfl, rfl, rfl, rfl⟩
  · exact ⟨rfl, rfl, rfl, rfl⟩

theorem freeproc_other (s : Kernel) {np q : ProcPtr} (hq : q ≠ np) : (s.freeproc np).proc q = s.proc q := by
  unfold Kernel.freeproc
  split <;> simp [setProc, Kernel.kfree, setPage, Function.update, hq]

theorem freeproc_own (s : Kernel) (np : ProcPtr) : (s.freeproc np).proc np =
    { s.proc np with pid := 0, parent := none, state := .unused, tx := none } := by
  unfold Kernel.freeproc
  split <;> simp [setProc, Kernel.kfree, setPage]

section Processes
variable {p : ProcPtr} {w : Option InodePtr} {x : Kernel × Account}
  {E : Err → Kernel × Account → Prop} {hs : List Header} {v : Option (List Header)} {ch : Option ProcPtr}
  {α : Type}

/-- A change of other processes: the account stays, with another child on it. -/
theorem RefInv.withChild {ch' : Option ProcPtr} {r : Res} {s t : Kernel} {g : Account}
    (h : RefInv p w ch none r (s, g)) (hproc : t.proc p = s.proc p)
    (htx : ∀ a, (s.proc p).tx = some a → t.tx a = s.tx a) (htrace : t.trace = s.trace)
    (hused : ∀ c, ch' = some c → (t.proc c).state = .used) (hdead : t.NoCwds) :
    RefInv p w ch' none r (t, { g with child := ch' }) where
  bound := h.bound
  live := by rw [hproc]; exact h.live
  cwd := by rw [hproc]; exact h.cwd
  child := rfl
  used := hused
  noCwds := hdead
  ended _ hv := nomatch hv
  acc ip := by
    have hact : t.txActive p = s.txActive p :=
      txActive_congr (by rw [hproc]) fun a ha => by rw [htx a ha]
    have howed := owed_congr hact (skipped_congr htrace p) ip
    have hacc := h.acc ip
    dsimp only at hacc ⊢
    rw [howed]
    exact hacc

/-- A slot is freed that is dead, or that is the own child. -/
theorem RefInv.freeproc {r : Res} {s : Kernel} {g : Account} {np : ProcPtr}
    (h : RefInv p w ch none r (s, g)) (hch : ch = none ∨ ch = some np)
    (hnp : ch = some np ∨ (s.proc np).state = .zombie) (hcwd : (s.proc np).cwd = none) :
    ∃ g', RefGuar p (s, g) (s.freeproc np, g') ∧
      RefInv p w none none r (s.freeproc np, g') := by
  obtain ⟨htx, hinode, hfile, htrace⟩ := freeproc_rest s np
  have hne : np ≠ p := by
    rintro rfl
    rcases hnp with hc | hz
    · exact h.child_ne hc rfl
    · have hl : (s.proc np).state = .runnable := h.live
      rw [hl] at hz
      cases hz
  have hcwds : ∀ q, ((s.freeproc np).proc q).cwd = (s.proc q).cwd := by
    intro q
    by_cases e : q = np
    · subst e; rw [freeproc_own]
    · rw [freeproc_other s e]
  have hbal : ∀ ip, (s.freeproc np).bal ip = s.bal ip :=
    bal_congr (fun ip => by rw [hinode]) hfile hcwds
  have hdead : (s.freeproc np).NoCwds := by
    intro q hq
    rw [hcwds]
    by_cases e : q = np
    · subst e; exact hcwd
    · rw [freeproc_other s e] at hq
      exact h.noCwds q hq
  have hown : (s.freeproc np).proc p = s.proc p := freeproc_other s fun e => hne e.symm
  refine ⟨{ g with child := none }, ?_, ?_⟩
  · exact {
      bound := h.bound
      live := h.live
      acc := fun ip => by
        rw [hbal]
        simp
      skipped := fun q _ ip => skipped_congr htrace q ip
      other := fun q _ hq hstate => by
        refine freeproc_other s ?_
        rintro rfl
        rcases hnp with hc | hz
        · exact hq (h.child.trans hc)
        · dsimp only at hstate
          rw [hz] at hstate
          rcases hstate with h | h <;> cases h
      fresh := fun q _ hn hrun => by
        by_cases e : q = np
        · subst e
          rw [freeproc_own] at hrun
          cases hrun
        · rw [freeproc_other s e] at hrun
          exact absurd hrun hn
      tx := fun b => .inl (by rw [htx])
      txPtr := ⟨np, fun q hq => by rw [freeproc_other s hq], .inr (.inl (by rw [freeproc_own]))⟩
      child := fun c hc => by cases hc
      noCwds := fun _ => hdead }
  · exact h.withChild hown (fun a _ => by rw [htx]) htrace (fun c hc => by cases hc) hdead

/-- Process `p` is making the child `np`, which has the working directory `c` so far and a
transaction that has not begun. -/
structure ForkInv (p : ProcPtr) (w : Option InodePtr) (np : ProcPtr) (c : Option InodePtr)
    (r : Res) (x : Kernel × Account) : Prop where
  inv : RefInv p w (some np) none r x
  bound : np < nproc
  cwd : (x.1.proc np).cwd = c
  inactive : x.1.txActive np = false

namespace ForkInv
variable {np : ProcPtr} {c : Option InodePtr} {r ρ : Res} {s t : Kernel} {g : Account}

theorem stable (h : ForkInv p w np c r (s, g)) (hR : RefRely p g s t) : ForkInv p w np c r (t, g) := by
  obtain ⟨hp, htx⟩ := hR.child np h.inv.child
  refine ⟨h.inv.stable hR, h.bound, ?_, ?_⟩
  · rw [hp]
    exact h.cwd
  · have hact : t.txActive np = s.txActive np :=
      txActive_congr (by rw [hp]) fun a ha => by rw [htx a ha]
    exact hact.trans h.inactive

section
variable (h : ForkInv p w np c r x)
include h

/-- A step that is about the tables of files and inodes only. -/
theorem act {en : Kernel → Bool} {upd : Kernel → Kernel} {next : Kernel → K α}
    {Q : α → Kernel × Account → Prop}
    (hstep : ∀ t, en t = true → (next t).isFatal = false → (upd t).tx = t.tx ∧
      ∃ δ ρ, RefStep p δ 0 t (upd t) ∧ (∀ ip, ρ.refs ip = r.refs ip + δ ip) ∧
        ∀ g', ForkInv p w np c ρ (upd t, g') → refWp p (next t) Q E (upd t, g')) :
    refWp p (.act en upd next) Q E x := by
  refine ⟨trivial, fun t hR hen hf => ?_⟩
  have ht : ForkInv p w np c r (t, x.2) := h.stable hR.1
  obtain ⟨htx, δ, ρ, hs, hr, hnext⟩ := hstep t hen hf
  obtain ⟨hG, hI⟩ := ht.inv.move (ρ := ρ) hs fun ip => by simpa using hr ip
  have hproc : (upd t).proc np = t.proc np := hs.proc np (ht.inv.child_ne rfl)
  refine ⟨_, hG, hnext _ ⟨hI, h.bound, ?_, ?_⟩⟩
  · rw [hproc]
    exact ht.cwd
  · have hact : (upd t).txActive np = t.txActive np :=
      txActive_congr (by rw [hproc]) fun a _ => by rw [htx]
    exact hact.trans ht.inactive

theorem read (f : Kernel → α) :
    refWp p (.read f) (fun _ => ForkInv p w np c r) E x :=
  h.act fun t _ _ => ⟨rfl, 0, r, .refl t, fun ip => by simp, fun _ h => h⟩

theorem filedup (f : FilePtr) :
    refWp p (filedup f) (fun _ => ForkInv p w np c r) E x := by
  refine h.act fun t _ hn => ?_
  by_cases h1 : (t.file f).ref < 1
  · simp only [if_pos h1] at hn
    cases hn
  · simp only [if_neg h1]
    refine ⟨rfl, 0, r, .setFileSame fun ip => ?_, fun ip => by simp, fun _ h => h⟩
    have hpos : 0 < (t.file f).ref + 1 ↔ 0 < (t.file f).ref := by omega
    simp [File.On, hpos]

theorem idup (ip : InodePtr) :
    refWp p (idup ip) (fun q y => q = ip ∧ ForkInv p w np c (r.ref ip) y) E x :=
  h.act fun t _ _ => ⟨rfl, _, r.ref ip, .idup t ip, fun i => by simp [Res.ref], fun _ h => ⟨rfl, h⟩⟩

/-- A change of the child. -/
theorem setChild {f : Kernel → Proc → Proc} {d : Option InodePtr}
    (hstate : ∀ t y, (f t y).state = y.state) (htx : ∀ t y, (f t y).tx = y.tx)
    (hcwd : ∀ t y, y.cwd = c → (f t y).cwd = d)
    (hr : ∀ ip, ρ.refs ip = r.refs ip + (if c = some ip then 1 else 0) -
      (if d = some ip then 1 else 0)) :
    refWp p (.update fun s => s.setProc np (f s) : K Unit)
      (fun _ => ForkInv p w np d ρ) E x := by
  refine ⟨trivial, fun t hR _ _ => ?_⟩
  have ht : ForkInv p w np c r (t, x.2) := h.stable hR.1
  have hc : (t.proc np).cwd = c := ht.cwd
  have hne : np ≠ p := ht.inv.child_ne rfl
  obtain ⟨hG, hI⟩ := ht.inv.moveProc (f := f t) (.inr rfl) h.bound (hstate t _) (htx t _)
    (ρ := ρ) fun ip => by rw [hc, hcwd t _ hc]; exact hr ip
  rw [if_neg hne] at hI
  refine ⟨_, hG, hI, h.bound, ?_, ?_⟩
  · simp [setProc, hcwd t _ hc]
  · have : (t.setProc np (f t)).txActive np = t.txActive np :=
      txActive_congr (by simp [setProc, htx]) fun _ _ => rfl
    exact this.trans ht.inactive
end

end ForkInv
/-- The child runs: it is a process of its own now. -/
theorem ForkInv.run {np : ProcPtr} {c : Option InodePtr} (h : ForkInv p w np c {} x) :
    refWp p (.update fun s => s.setProc np fun y => { y with parent := some p, state := .runnable } :
      K Unit) (fun _ => RefInv p w none none {}) E x := by
  refine ⟨trivial, fun t hR _ _ => ?_⟩
  have ht : ForkInv p w np c {} (t, x.2) := h.stable hR.1
  have hne : np ≠ p := ht.inv.child_ne rfl
  have hproc : ∀ q, q ≠ np → (t.setProc np fun y =>
      { y with parent := some p, state := .runnable }).proc q = t.proc q :=
    fun q hq => by simp [setProc, Function.update, hq]
  have hchild : (t.setProc np fun y => { y with parent := some p, state := .runnable }).proc np =
      { t.proc np with parent := some p, state := .runnable } := by simp [setProc]
  generalize hu : (t.setProc np fun y => { y with parent := some p, state := .runnable }) = u
    at hproc hchild
  have hrest : u.tx = t.tx ∧ u.inode = t.inode ∧ u.file = t.file ∧ u.trace = t.trace := by
    rw [← hu]
    exact ⟨rfl, rfl, rfl, rfl⟩
  obtain ⟨htx, hinode, hfile, htrace⟩ := hrest
  have hcwds : ∀ q, (u.proc q).cwd = (t.proc q).cwd := by
    intro q
    by_cases e : q = np
    · subst e; rw [hchild]
    · rw [hproc q e]
  have hptr : ∀ q, (u.proc q).tx = (t.proc q).tx := by
    intro q
    by_cases e : q = np
    · subst e; rw [hchild]
    · rw [hproc q e]
  have hbal : ∀ ip, u.bal ip = t.bal ip := bal_congr (fun ip => by rw [hinode]) hfile hcwds
  have hdead : u.NoCwds := by
    intro q hq
    by_cases e : q = np
    · subst e
      rw [hchild] at hq
      rcases hq with hq | hq <;> cases hq
    · rw [hproc q e] at hq ⊢
      exact ht.inv.noCwds q hq
  have hown : u.proc p = t.proc p := hproc p fun e => hne e.symm
  refine ⟨{ x.2 with child := none }, ?_, ?_⟩
  · change RefGuar p (t, x.2) (t.setProc np _, _)
    rw [hu]
    exact {
      bound := ht.inv.bound
      live := ht.inv.live
      acc := fun ip => by
        rw [hbal]
        simp
      skipped := fun q _ ip => skipped_congr htrace q ip
      other := fun q _ hq _ => by
        refine hproc q ?_
        rintro rfl
        exact hq ht.inv.child
      fresh := fun q _ hn hrun => by
        by_cases e : q = np
        · subst e
          have hact : u.txActive q = t.txActive q :=
            txActive_congr (hptr q) fun a _ => by rw [htx]
          exact hact.trans ht.inactive
        · rw [hproc q e] at hrun
          exact absurd hrun hn
      tx := fun b => .inl (by rw [htx])
      txPtr := ⟨np, fun q _ => hptr q, .inl (hptr np)⟩
      child := fun c hc => by cases hc
      noCwds := fun _ => hdead }
  · change RefInv p w none none {} (t.setProc np _, _)
    rw [hu]
    exact ht.inv.withChild hown (fun a _ => by rw [htx]) htrace (fun c hc => by cases hc) hdead

theorem ForkInv.forkFiles {np : ProcPtr} (fds : List Nat) (h : ForkInv p w np none {} x) :
    refWp p (forkFiles p np fds) (fun _ => ForkInv p w np none {}) E x := by
  induction fds generalizing x with
  | nil => exact h
  | cons i rest ih =>
    refine gwp_seq (h.read _) fun o y h => ?_
    cases o with
    | none => exact ih h
    | some f =>
      refine gwp_seq (h.filedup f) fun _ y h => ?_
      refine gwp_seq (h.setChild (ρ := {})
        (f := fun _ y => { y with ofile := Function.update y.ofile i (some f) })
        (fun _ _ => rfl) (fun _ _ => rfl) (fun _ _ hc => hc) fun ip => by simp) fun _ y h => ?_
      exact ih h

end Processes
end Txv6
