import Txv6.Refs.Account

/-! # Processes side by side

What a process may count on while it runs a call, what it promises to the others, and what
holds of its account inside a call.
-/
namespace Txv6
open Lib Lib.Prog

/-- What the other processes leave alone: the counts of skipped `iput`s, a running process
with its transaction, and a child that is being built. A process that they set running is
not in a transaction. -/
structure RefRely (p : ProcPtr) (g : Account) (s t : Kernel) : Prop where
  skipped : ∀ ip, t.skipped p ip = s.skipped p ip
  own : (s.proc p).state = .runnable →
    t.proc p = s.proc p ∧ ∀ a, (s.proc p).tx = some a → t.tx a = s.tx a
  fresh : (s.proc p).state ≠ .runnable → (t.proc p).state = .runnable → t.txActive p = false
  child : ∀ c, g.child = some c →
    t.proc c = s.proc c ∧ ∀ a, (s.proc c).tx = some a → t.tx a = s.tx a
  noCwds : s.NoCwds → t.NoCwds

/-- What a process does: it keeps its account, and changes other processes only if they are
its child, or unused or dead. A transaction page that changes is its own or comes from
`kalloc`. -/
structure RefGuar (p : ProcPtr) (x y : Kernel × Account) : Prop where
  bound : p < nproc
  live : (x.1.proc p).state = .runnable
  acc : ∀ ip, y.2.acc ip = x.2.acc ip + (y.1.bal ip - x.1.bal ip)
  skipped : ∀ q, q ≠ p → ∀ ip, y.1.skipped q ip = x.1.skipped q ip
  other : ∀ q, q ≠ p → x.2.child ≠ some q →
    (x.1.proc q).state = .runnable ∨ (x.1.proc q).state = .used → y.1.proc q = x.1.proc q
  fresh : ∀ q, q ≠ p → (x.1.proc q).state ≠ .runnable → (y.1.proc q).state = .runnable →
    y.1.txActive q = false
  tx : ∀ b, y.1.tx b = x.1.tx b ∨ (x.1.proc p).tx = some b ∨ x.1.freelist.head? = some b
  txPtr : ∃ n, (∀ q, q ≠ n → (y.1.proc q).tx = (x.1.proc q).tx) ∧
    ((y.1.proc n).tx = (x.1.proc n).tx ∨ (y.1.proc n).tx = none ∨
      (y.1.proc n).tx = x.1.freelist.head?)
  child : ∀ c, y.2.child = some c → (y.1.proc c).state = .used ∧
    (x.2.child = some c ∨ (x.1.proc c).state = .unused)
  noCwds : x.1.NoCwds → y.1.NoCwds

namespace RefRely
variable {p : ProcPtr} {g : Account} {s t u : Kernel}

theorem refl (p : ProcPtr) (g : Account) (s : Kernel) : RefRely p g s s :=
  ⟨fun _ => rfl, fun _ => ⟨rfl, fun _ _ => rfl⟩, fun h h' => absurd h' h,
    fun _ _ => ⟨rfl, fun _ _ => rfl⟩, id⟩

theorem txActive (h : RefRely p g s t) (hs : (s.proc p).state = .runnable) : t.txActive p = s.txActive p := by
  obtain ⟨hp, htx⟩ := h.own hs
  exact txActive_congr (by rw [hp]) fun a ha => by rw [htx a ha]

theorem owed (h : RefRely p g s t) (hs : (s.proc p).state = .runnable) (ip : InodePtr) :
    t.owed p ip = s.owed p ip :=
  owed_congr (h.txActive hs) h.skipped ip

theorem trans (h : RefRely p g s t) (h' : RefRely p g t u) : RefRely p g s u where
  skipped ip := (h'.skipped ip).trans (h.skipped ip)
  own hs := by
    obtain ⟨hp, htx⟩ := h.own hs
    obtain ⟨hp', htx'⟩ := h'.own (by rw [hp]; exact hs)
    exact ⟨hp'.trans hp, fun a ha => (htx' a (by rw [hp]; exact ha)).trans (htx a ha)⟩
  fresh hs hu := by
    by_cases ht : (t.proc p).state = .runnable
    · rw [h'.txActive ht]
      exact h.fresh hs ht
    · exact h'.fresh ht hu
  child c hc := by
    obtain ⟨hp, htx⟩ := h.child c hc
    obtain ⟨hp', htx'⟩ := h'.child c hc
    exact ⟨hp'.trans hp, fun a ha => (htx' a (by rw [hp]; exact ha)).trans (htx a ha)⟩
  noCwds h₀ := h'.noCwds (h.noCwds h₀)

end RefRely

/-! ## Inside a call -/

/-- Process `p` runs. Its account is made of the references `r.refs` in its local variables
and of those that its transaction owes; its working directory is `w`, the child it makes is
`ch`, and where `v` is given, its transaction is over and has the objects `v` in its workset. -/
structure RefInv (p : ProcPtr) (w : Option InodePtr) (ch : Option ProcPtr)
    (v : Option (List Header)) (r : Res) (x : Kernel × Account) : Prop where
  bound : p < nproc
  live : (x.1.proc p).state = .runnable
  cwd : (x.1.proc p).cwd = w
  child : x.2.child = ch
  used : ∀ c, ch = some c → (x.1.proc c).state = .used
  noCwds : x.1.NoCwds
  ended : ∀ hs, v = some hs → x.1.Ended p hs
  acc : ∀ ip, x.2.acc ip = r.refs ip + x.1.owed p ip

namespace RefInv
variable {p : ProcPtr} {w : Option InodePtr} {ch : Option ProcPtr}
  {v ω : Option (List Header)} {r ρ : Res}
  {x : Kernel × Account} {s t : Kernel} {g : Account} {δ ε : InodePtr → Int}

theorem stable (h : RefInv p w ch v r (s, g)) (hR : RefRely p g s t) : RefInv p w ch v r (t, g) where
  bound := h.bound
  live := by
    rw [(hR.own h.live).1]
    exact h.live
  cwd := by
    rw [(hR.own h.live).1]
    exact h.cwd
  child := h.child
  used c hc := by
    have hgc : g.child = some c := by rw [h.child, hc]
    rw [(hR.child c hgc).1]
    exact h.used c hc
  noCwds := hR.noCwds h.noCwds
  ended hs hv := by
    obtain ⟨hp, htx⟩ := hR.own h.live
    exact ended_congr (by rw [hp]) htx (h.ended hs hv)
  acc ip := by
    rw [hR.owed h.live]
    exact h.acc ip

theorem congr (h : RefInv p w ch v r x) (hr : ρ.refs = r.refs) : RefInv p w ch v ρ x :=
  { h with acc := fun ip => by rw [hr]; exact h.acc ip }

theorem child_ne (h : RefInv p w ch v r x) {c : ProcPtr} (hc : ch = some c) : c ≠ p := by
  rintro rfl
  have hu := h.used c hc
  rw [h.live] at hu
  cases hu

section
variable (h : RefInv p w ch v r (s, g))
include h

/-- What it takes for a step to be within the guarantee, inside a call. -/
theorem guar (hskip : ∀ q, q ≠ p → ∀ ip, t.skipped q ip = s.skipped q ip)
    (hother : ∀ q, q ≠ p → ch ≠ some q → t.proc q = s.proc q) (hptr : ∀ q, (t.proc q).tx = (s.proc q).tx)
    (hused : ∀ c, ch = some c → (t.proc c).state = .used)
    (htx : ∀ b, (s.proc p).tx ≠ some b → t.tx b = s.tx b) (hdead : t.NoCwds) :
    RefGuar p (s, g) (t, g.settle s t) where
  bound := h.bound
  live := h.live
  acc _ := rfl
  skipped := hskip
  other q hq hc _ := by
    refine hother q hq fun hch => hc ?_
    rw [h.child, hch]
  fresh q hq hn hrun := by
    by_cases hch : ch = some q
    · rw [hused q hch] at hrun
      cases hrun
    · rw [hother q hq hch] at hrun
      exact absurd hrun hn
  tx b := by
    by_cases hb : (s.proc p).tx = some b
    · exact .inr (.inl hb)
    · exact .inl (htx b hb)
  txPtr := ⟨p, fun q _ => hptr q, .inl (hptr p)⟩
  child c hc := by
    have hcc : ch = some c := h.child.symm.trans hc
    exact ⟨hused c hcc, .inl hc⟩
  noCwds _ := hdead

/-- A step of the process is within its guarantee and is accounted for. -/
theorem moveTx (hs : TxStep p δ ε s t)
    (hr : ∀ ip, ρ.refs ip + ε ip = r.refs ip + δ ip) (hv : ∀ l, ω = some l → t.Ended p l) :
    RefGuar p (s, g) (t, g.settle s t) ∧ RefInv p w ch ω ρ (t, g.settle s t) := by
  have hdead : t.NoCwds := by
    intro q hq
    by_cases e : q = p
    · subst e
      rw [hs.state, h.live] at hq
      rcases hq with hq | hq <;> cases hq
    · rw [hs.proc q e] at hq ⊢
      exact h.noCwds q hq
  have hptr : ∀ q, (t.proc q).tx = (s.proc q).tx := by
    intro q
    by_cases e : q = p
    · subst e; exact hs.txPtr
    · rw [hs.proc q e]
  have hused : ∀ c, ch = some c → (t.proc c).state = .used := by
    intro c hc
    rw [hs.proc c (h.child_ne hc)]
    exact h.used c hc
  constructor
  · exact h.guar hs.others (fun q hq _ => hs.proc q hq) hptr hused hs.tx hdead
  · exact {
      bound := h.bound
      live := by rw [hs.state]; exact h.live
      cwd := by rw [hs.cwd]; exact h.cwd
      child := h.child
      used := hused
      noCwds := hdead
      ended := hv
      acc := fun ip => by
        have hacc := h.acc ip
        have howed := hs.owed ip
        have hbal := hs.bal ip
        have := hr ip
        simp only [Account.settle] at hacc ⊢
        omega }

theorem move (hs : RefStep p δ ε s t)
    (hr : ∀ ip, ρ.refs ip + ε ip = r.refs ip + δ ip) :
    RefGuar p (s, g) (t, g.settle s t) ∧ RefInv p w ch v ρ (t, g.settle s t) :=
  h.moveTx hs.toTxStep hr fun l hl => hs.ended l (h.ended l hl)

/-- A change of a process that is the own one or the child. Only its working directory
matters to the account. -/
theorem moveProc {q : ProcPtr} {f : Proc → Proc}
    (hq : q = p ∨ ch = some q) (hbound : q < nproc)
    (hstate : (f (s.proc q)).state = (s.proc q).state) (htx : (f (s.proc q)).tx = (s.proc q).tx)
    (hr : ∀ ip, ρ.refs ip = r.refs ip + (if (s.proc q).cwd = some ip then 1 else 0) -
      (if (f (s.proc q)).cwd = some ip then 1 else 0)) :
    RefGuar p (s, g) (s.setProc q f, g.settle s (s.setProc q f)) ∧
      RefInv p (if q = p then (f (s.proc q)).cwd else w) ch v ρ
        (s.setProc q f, g.settle s (s.setProc q f)) := by
  have hother : ∀ n, n ≠ q → (s.setProc q f).proc n = s.proc n :=
    fun n hn => by simp [Kernel.setProc, Function.update, hn]
  have hown : (s.setProc q f).proc q = f (s.proc q) := by simp [Kernel.setProc]
  have hstates : ∀ n, ((s.setProc q f).proc n).state = (s.proc n).state := by
    intro n
    by_cases e : n = q
    · subst e; rw [hown, hstate]
    · rw [hother n e]
  have hptr : ∀ n, ((s.setProc q f).proc n).tx = (s.proc n).tx := by
    intro n
    by_cases e : n = q
    · subst e; rw [hown, htx]
    · rw [hother n e]
  have hlive : (s.proc q).state = .runnable ∨ (s.proc q).state = .used := by
    rcases hq with rfl | hc
    · exact .inl h.live
    · exact .inr (h.used q hc)
  have hdead : (s.setProc q f).NoCwds := by
    intro n hn
    rw [hstates] at hn
    by_cases e : n = q
    · subst e
      rcases hlive with hl | hl <;> rw [hl] at hn <;> rcases hn with hn | hn <;> cases hn
    · rw [hother n e]
      exact h.noCwds n hn
  have hused : ∀ c, ch = some c → ((s.setProc q f).proc c).state = .used := by
    intro c hc
    rw [hstates]
    exact h.used c hc
  have hne : ∀ n, n ≠ p → ch ≠ some n → n ≠ q := by
    rintro n hn hc rfl
    rcases hq with rfl | hq
    · exact hn rfl
    · exact hc hq
  constructor
  · exact h.guar (fun n _ ip => skipped_congr rfl n ip) (fun n hn hc => hother n (hne n hn hc)) hptr
      hused (fun _ _ => rfl) hdead
  · exact {
      bound := h.bound
      live := by rw [hstates]; exact h.live
      cwd := by
        split
        next e => subst e; rw [hown]
        next e => rw [hother p fun he => e he.symm]; exact h.cwd
      child := h.child
      used := hused
      noCwds := hdead
      ended := fun l hl => ended_congr (hptr p) (fun _ _ => rfl) (h.ended l hl)
      acc := fun ip => by
        have hacc := h.acc ip
        have hactive : (s.setProc q f).txActive p = s.txActive p :=
          txActive_congr (hptr p) fun _ _ => rfl
        have howed := owed_congr hactive (skipped_congr (s := s) rfl p) ip
        have hbal := bal_setProc s hbound f ip
        have := hr ip
        simp only [Account.settle] at hacc ⊢
        omega }
end

end RefInv

/-! ## Rules -/

/-- The next free page is not the transaction of a process. -/
def Kernel.PageFree (s : Kernel) : Prop :=
  ∀ a, s.freelist.head? = some a → ∀ q, (s.proc q).tx ≠ some a

/-- The judgement on code of process `p`. -/
abbrev refWp (p : ProcPtr) {α : Type} (m : K α) (Q : α → Kernel × Account → Prop)
    (E : Err → Kernel × Account → Prop) (x : Kernel × Account) : Prop :=
  gwp (fun _ _ => True) (fun g s t => RefRely p g s t ∧ t.PageFree) (RefGuar p) m Q E x

/-- The process runs and builds no child; nothing is known of its account. -/
def RefAlive (p : ProcPtr) (x : Kernel × Account) : Prop := ∃ w r, RefInv p w none none r x

namespace RefInv
variable {p : ProcPtr} {w : Option InodePtr} {ch : Option ProcPtr}
  {v ω : Option (List Header)} {r ρ : Res}
  {x : Kernel × Account} {α : Type} {E : Err → Kernel × Account → Prop} {m : K α} {f : Kernel → Kernel}

/-- Forget what is known of the transaction. -/
theorem forget (h : RefInv p w ch v r x) : RefInv p w ch none r x :=
  { h with ended := fun _ hv => nomatch hv }

theorem alive (h : RefInv p w none v r x) : RefAlive p x := ⟨w, r, h.forget⟩

section
variable (h : RefInv p w ch v r x)
include h

/-- One atomic step that is a reference step. -/
theorem act {en : Kernel → Bool} {upd : Kernel → Kernel} {next : Kernel → K α}
    {Q : α → Kernel × Account → Prop}
    (hstep : ∀ t g, RefInv p w ch v r (t, g) → en t = true → (next t).isFatal = false →
      ∃ δ ε ρ, RefStep p δ ε t (upd t) ∧ (∀ ip, ρ.refs ip + ε ip = r.refs ip + δ ip) ∧
        ∀ g', RefInv p w ch v ρ (upd t, g') → refWp p (next t) Q E (upd t, g')) :
    refWp p (.act en upd next) Q E x := by
  refine ⟨trivial, fun t hR hen hf => ?_⟩
  have ht : RefInv p w ch v r (t, x.2) := h.stable hR.1
  obtain ⟨δ, ε, ρ, hs, hr, hnext⟩ := hstep t x.2 ht hen hf
  obtain ⟨hG, hI⟩ := ht.move hs hr
  exact ⟨_, hG, hnext _ hI⟩

theorem read (f : Kernel → α) :
    refWp p (.read f) (fun _ => RefInv p w ch v r) E x :=
  h.act fun t _ _ _ _ => ⟨0, 0, r, .refl t, fun _ => rfl, fun _ h => h⟩

theorem update
    (hf : ∀ t, ∃ δ, RefStep p δ 0 t (f t) ∧ ∀ ip, ρ.refs ip = r.refs ip + δ ip) :
    refWp p (.update f) (fun _ => RefInv p w ch v ρ) E x := by
  refine h.act fun t _ _ _ _ => ?_
  obtain ⟨δ, hs, hr⟩ := hf t
  exact ⟨δ, 0, ρ, hs, fun ip => by simpa using hr ip, fun _ h => h⟩

theorem updateSame
    (hf : ∀ t, RefStep p 0 0 t (f t)) : refWp p (.update f) (fun _ => RefInv p w ch v r) E x :=
  h.update fun t => ⟨0, hf t, fun ip => by simp⟩

theorem atomOrPanic {f : Kernel → Except String α × Kernel} {κ : α → Res}
    (hf : ∀ t a, (f t).1 = .ok a → ∃ δ, RefStep p δ 0 t (f t).2 ∧
      ∀ ip, (κ a).refs ip = r.refs ip + δ ip) :
    refWp p (Txv6.atomOrPanic f) (fun a => RefInv p w ch v (κ a)) E x := by
  refine h.act fun t _ _ _ hn => ?_
  cases ho : (f t).1 with
  | error m =>
    rw [ho] at hn
    cases hn
  | ok a =>
    obtain ⟨δ, hs, hr⟩ := hf t a ho
    exact ⟨δ, 0, κ a, hs, fun ip => by simpa using hr ip, fun _ h => h⟩
end

section
variable (hE : ∀ e x, RefInv p w ch v r x → E e x)
include hE

/-- Code none of whose steps is about references. -/
theorem steps (hm : Steps (RefStep p 0 0) m)
    (h : RefInv p w ch v r x) : refWp p m (fun _ => RefInv p w ch v r) E x :=
  gwp_of_steps (fun _ _ => trivial) (fun _ _ _ hR h => h.stable hR.1)
    (fun _ _ _ hs h => ⟨_, h.move hs fun _ => rfl⟩) hE hm h

theorem calm (hm : Steps Calm m)
    (h : RefInv p w ch v r x) : refWp p m (fun _ => RefInv p w ch v r) E x :=
  h.steps hE (hm.mono fun _ _ => .of_calm)

theorem txCalm (hm : Steps (TxCalm p) m)
    (h : RefInv p w ch v r x) : refWp p m (fun _ => RefInv p w ch v r) E x :=
  h.steps hE (hm.mono fun _ _ => .of_txCalm)
end

end RefInv

/-- Aborting keeps the process alive. -/
theorem RefAlive.cleanup {p : ProcPtr} {α : Type} {m : K α} {x : Kernel × Account}
    {E : Err → Kernel × Account → Prop} (hE : ∀ e x, RefAlive p x → E e x)
    (hm : Steps (AbortStep p) m) (h : RefAlive p x) : refWp p m (fun _ => RefAlive p) E x := by
  refine gwp_of_steps (fun _ _ => trivial) ?_ ?_ hE hm h
  · rintro s t g hR ⟨w, r, h⟩
    exact ⟨w, r, h.stable hR.1⟩
  · rintro s t g hs ⟨w, r, h⟩
    obtain ⟨δ, ε, hs⟩ := RefStep.of_abortStep hs
    obtain ⟨hG, hI⟩ := h.move (ρ := { r with refs := r.refs + δ - ε }) hs fun ip => by simp
    exact ⟨_, hG, w, _, hI⟩

end Txv6
