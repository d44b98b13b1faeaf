import Txv6.Lib.Parallel

/-! # Machines with a ghost

The proof method of this file keeps a ghost beside the state of a machine. No program sees the
ghost. Each step of a thread comes with the ghost after it, which may differ from the one before
in what it says of any thread: a thread may hand over what it owns to another one. A thread does
not come to a `bad` error.
-/
namespace Txv6.Lib
open Relation

namespace Prog
variable {σ ε α β Γ : Type} [Fatal ε] {p : Prog σ ε α} {f : α → Prog σ ε β} {Q' : α → σ × Γ → Prop}

/-- One atomic step that may leave with an error. -/
def attempt (f : σ → Except ε α × σ) : Prog σ ε α :=
  .act (fun _ => true) (fun s => (f s).2) fun s =>
    match (f s).1 with
    | .ok a => .ret a
    | .error e => .fail e

/-- `wp` with a ghost beside the state. -/
def fwp (R G : σ × Γ → σ × Γ → Prop) :
    Prog σ ε α → (α → σ × Γ → Prop) → (ε → σ × Γ → Prop) → σ × Γ → Prop
  | .ret a, Q, _, x => Q a x
  | .fail e, _, E, x => E e x
  | .act en upd next, Q, E, x =>
    ∀ y, R x y → en y.1 = true →
      ∃ g, ((next y.1).isFatal = false → G y (upd y.1, g)) ∧ fwp R G (next y.1) Q E (upd y.1, g)

variable {R G : σ × Γ → σ × Γ → Prop} {Q : α → σ × Γ → Prop} {E : ε → σ × Γ → Prop} {x : σ × Γ}

theorem fwp_mono {E' : ε → σ × Γ → Prop}
    (hQ : ∀ a x, Q a x → Q' a x) (hE : ∀ e x, E e x → E' e x) (h : fwp R G p Q E x) : fwp R G p Q' E' x := by
  induction p generalizing x with
  | ret a => exact hQ a x h
  | fail e => exact hE e x h
  | act en upd next ih =>
    intro y hR hen
    obtain ⟨g, hG, hn⟩ := h y hR hen
    exact ⟨g, hG, ih y.1 hn⟩

theorem fwp_post (hQ : ∀ a x, Q a x → Q' a x)
    (h : fwp R G p Q E x) : fwp R G p Q' E x := fwp_mono hQ (fun _ _ he => he) h

theorem fwp_seq {M : α → σ × Γ → Prop} {Q' : β → σ × Γ → Prop}
    (h : fwp R G p M E x) (hf : ∀ a y, M a y → fwp R G (f a) Q' E y) : fwp R G (p >>= f) Q' E x := by
  change fwp R G (p.bind f) Q' E x
  induction p generalizing x with
  | ret a => exact hf a x h
  | fail e => exact h
  | act en upd next ih =>
    intro y hR hen
    obtain ⟨g, hG, hn⟩ := h y hR hen
    exact ⟨g, fun hfatal => hG (isFatal_of_bind hfatal), ih y.1 hn⟩

theorem fwp_read {f : σ → α} (h : ∀ y, R x y → G y y ∧ Q (f y.1) y) : fwp R G (.read f) Q E x := by
  intro y hR _
  exact ⟨y.2, fun _ => (h y hR).1, (h y hR).2⟩

theorem fwp_update {f : σ → σ} {Q : Unit → σ × Γ → Prop}
    (h : ∀ y, R x y → ∃ g, G y (f y.1, g) ∧ Q () (f y.1, g)) : fwp R G (.update f) Q E x := by
  intro y hR _
  obtain ⟨g, hG, hQ⟩ := h y hR
  exact ⟨g, fun _ => hG, hQ⟩

theorem fwp_atom {f : σ → α × σ}
    (h : ∀ y, R x y → ∃ g, G y ((f y.1).2, g) ∧ Q (f y.1).1 ((f y.1).2, g)) : fwp R G (.atom f) Q E x := by
  intro y hR _
  obtain ⟨g, hG, hQ⟩ := h y hR
  exact ⟨g, fun _ => hG, hQ⟩

theorem fwp_await {en : σ → Bool} {f : σ → σ} {Q : Unit → σ × Γ → Prop}
    (h : ∀ y, R x y → en y.1 = true → ∃ g, G y (f y.1, g) ∧ Q () (f y.1, g)) :
    fwp R G (.await en f) Q E x := by
  intro y hR hen
  obtain ⟨g, hG, hQ⟩ := h y hR hen
  exact ⟨g, fun _ => hG, hQ⟩

/-- A step that does not leave with an error. -/
theorem fwp_attempt {f : σ → Except ε α × σ}
    (h : ∀ y, R x y → ∃ a g, (f y.1).1 = .ok a ∧ G y ((f y.1).2, g) ∧ Q a ((f y.1).2, g)) :
    fwp R G (.attempt f) Q E x := by
  intro y hR _
  obtain ⟨a, g, ha, hG, hQ⟩ := h y hR
  refine ⟨g, fun _ => hG, ?_⟩
  dsimp only
  rw [ha]
  exact hQ

theorem fwp_when {c : Bool} {p : Prog σ ε Unit} {Q : Unit → σ × Γ → Prop}
    (hp : c = true → fwp R G p Q E x) (hn : c = false → Q () x) : fwp R G (.when c p) Q E x := by
  cases c with
  | false => exact hn rfl
  | true => exact hp rfl

/-- A judgement outlives the steps of the other programs. -/
theorem fwp_stable {S : σ × Γ → σ × Γ → Prop} {y : σ × Γ}
    (htr : ∀ {x y z}, S x y → R y z → R x z) (hQ : ∀ a x y, S x y → Q a x → Q a y)
    (hE : ∀ e x y, S x y → E e x → E e y) (h : fwp R G p Q E x) (hS : S x y) : fwp R G p Q E y := by
  cases p with
  | ret a => exact hQ a x y hS h
  | fail e => exact hE e x y hS h
  | act en upd next => exact fun z hR hen => h z (htr hS hR) hen

/-- Alone, a program ends as the judgement says. -/
theorem fwp_run {F : σ × Γ → Prop} {o : Except ε α} {t : σ} (hR : ∀ x, F x → R x x)
    (hG : ∀ x y, F x → G x y → F y) (h : fwp R G p Q E x) (hx : F x) (hrun : p.run x.1 = (some o, t)) :
    ∃ g, match o with
      | .ok a => F (t, g) ∧ Q a (t, g)
      | .error e => E e (t, g) := by
  induction p generalizing x with
  | ret a =>
    cases hrun
    exact ⟨x.2, hx, h⟩
  | fail e =>
    cases hrun
    exact ⟨x.2, h⟩
  | act en upd next ih =>
    unfold run at hrun
    split at hrun
    next hen =>
      obtain ⟨g, hstep, hn⟩ := h x (hR x hx) hen
      cases hf : (next x.1).isFatal with
      | false => exact ih x.1 hn (hG x _ hx (hstep hf)) hrun
      | true =>
        generalize next x.1 = q at hf hn hrun
        cases q with
        | ret a => cases hf
        | fail e =>
          cases hrun
          exact ⟨g, hn⟩
        | act en upd next => cases hf
    next => cases hrun

/-! ## Programs that never wait -/

/-- No step of the program waits. -/
def Live : Prog σ ε α → Prop
  | .ret _ => True
  | .fail _ => True
  | .act en _ next => ∀ s, en s = true ∧ Live (next s)

namespace Live

omit [Fatal ε] in
theorem bind (hp : p.Live) (hf : ∀ a, (f a).Live) : (p >>= f).Live := by
  change (p.bind f).Live
  induction p with
  | ret a => exact hf a
  | fail e => trivial
  | act en upd next ih => exact fun s => ⟨(hp s).1, ih s (hp s).2⟩

omit [Fatal ε] in
theorem pure (a : α) : (Pure.pure a : Prog σ ε α).Live := trivial

omit [Fatal ε] in
theorem fail (e : ε) : (.fail e : Prog σ ε α).Live := trivial

omit [Fatal ε] in
theorem read (f : σ → α) : (.read f : Prog σ ε α).Live := fun _ => ⟨rfl, trivial⟩

omit [Fatal ε] in
theorem update (f : σ → σ) : (.update f : Prog σ ε Unit).Live := fun _ => ⟨rfl, trivial⟩

omit [Fatal ε] in
theorem atom (f : σ → α × σ) : (.atom f : Prog σ ε α).Live := fun _ => ⟨rfl, trivial⟩

omit [Fatal ε] in
theorem attempt (f : σ → Except ε α × σ) : (.attempt f : Prog σ ε α).Live := by
  intro s
  refine ⟨rfl, ?_⟩
  dsimp only
  split <;> trivial

omit [Fatal ε] in
theorem ite {c : Prop} [Decidable c] {q : Prog σ ε α} (hp : p.Live) (hq : q.Live) : (if c then p else q).Live := by
  split
  next => exact hp
  next => exact hq

omit [Fatal ε] in
theorem run (hp : p.Live) (s : σ) : ∃ o t, p.run s = (some o, t) := by
  induction p generalizing s with
  | ret a => exact ⟨_, s, rfl⟩
  | fail e => exact ⟨_, s, rfl⟩
  | act en upd next ih =>
    unfold Prog.run
    rw [if_pos (hp s).1]
    exact ih s (hp s).2 _

end Live
end Prog

namespace Machine
variable {ι κ σ ε α Γ : Type} [Fatal ε] {o : Option (Prog σ ε α)} {g₀ : Γ} {i : ι} {x : σ × Γ}

/-- What the steps of the other threads do, as thread `i` relies on it, and what holds between
them. -/
def Among (Tot : σ × Γ → Prop) (R : ι → σ × Γ → σ × Γ → Prop) (i : ι) (x y : σ × Γ) : Prop :=
  R i x y ∧ Tot y

/-- A step of thread `i`: it keeps what holds of the state, and is one that the others rely on. -/
def Fair (Tot : σ × Γ → Prop) (R : ι → σ × Γ → σ × Γ → Prop) (i : ι) (x y : σ × Γ) : Prop :=
  Tot x → Tot y ∧ ∀ j, j ≠ i → R j x y

/-- A proof method for machines with a ghost. `I` holds of a thread outside of calls, and `Tot` of
the state and the ghost. -/
structure Haunted (M : Machine ι κ σ ε α) (P : Label ι κ ε α → σ → σ → Prop) (Γ : Type) where
  R : ι → σ × Γ → σ × Γ → Prop
  I : ι → σ × Γ → Prop
  Tot : σ × Γ → Prop
  bad : ε → Prop
  refl : ∀ i x, R i x x
  trans : ∀ {i x y z}, R i x y → R i y z → R i x z
  stable : ∀ {i x y}, R i x y → I i x → I i y
  call : ∀ {i k x}, P (.call i k) x.1 x.1 → M.ready i x.1 → Tot x → I i x →
    Prog.fwp (Among Tot R i) (Fair Tot R i) (M.prog i k) (fun _ => I i)
      (fun e y => ¬ bad e ∧ (Fatal.fatal e = false → I i y)) x
  user : ∀ {i x t}, M.ready i x.1 → M.user i x.1 t → Tot x → I i x →
    ∃ g, Fair Tot R i x (t, g) ∧ I i (t, g)

namespace Haunted
variable {M : Machine ι κ σ ε α} {P : Label ι κ ε α → σ → σ → Prop} (A : Haunted M P Γ)
  {c c₀ : Pool ι σ ε α}

/-- What holds of a thread, outside of a call or with the rest of one to run. -/
def Local (i : ι) (x : σ × Γ) : Option (Prog σ ε α) → Prop
  | none => A.I i x
  | some p => Prog.fwp (Among A.Tot A.R i) (Fair A.Tot A.R i) p (fun _ => A.I i)
      (fun e y => ¬ A.bad e ∧ (Fatal.fatal e = false → A.I i y)) x

theorem local_stable {y : σ × Γ} (h : A.Local i x o) (hR : A.R i x y) : A.Local i y o := by
  cases o with
  | none => exact A.stable hR h
  | some p =>
    refine Prog.fwp_stable (S := A.R i) ?_ ?_ ?_ h hR
    · intro x y z h h'
      exact ⟨A.trans h h'.1, h'.2⟩
    · intro _ x y hR hI
      exact A.stable hR hI
    · intro e x y hR hE
      exact ⟨hE.1, fun hf => A.stable hR (hE.2 hf)⟩

variable [DecidableEq ι]

/-- **Soundness.** Along every run there is a ghost that fits the state and the threads. -/
theorem sound (h₀ : ∀ i, c₀.run i = none) (hI : ∀ i, A.I i (c₀.state, g₀))
    (hT : A.Tot (c₀.state, g₀)) (hr : M.Run P c₀ c) :
    ∃ g, A.Tot (c.state, g) ∧ ∀ i, A.Local i (c.state, g) (c.run i) := by
  refine Run.keeps g₀ (T := fun s g => A.Tot (s, g)) (L := fun i s g => A.Local i (s, g))
    (fun hP hready hT hi => A.call hP hready hT hi) ?_ (fun _ _ hi => hi) (fun _ hmild hi => hi.2 hmild) ?_ h₀ hT hI hr
  · intro i en upd next s g _ hen hf hT hi
    obtain ⟨g', hG, hn⟩ := hi (s, g) ⟨A.refl _ _, hT⟩ hen
    obtain ⟨hT', hR⟩ := hG hf hT
    exact ⟨g', hT', hn, fun j hj _ ho => A.local_stable ho (hR j hj)⟩
  · intro i s t g _ hready hu hT hi
    obtain ⟨g', hG, hi'⟩ := A.user hready hu hT hi
    obtain ⟨hT', hR⟩ := hG hT
    exact ⟨g', hT', hi', fun j hj _ ho => A.local_stable ho (hR j hj)⟩

/-- **No bad error** is the next step of a thread. -/
theorem not_bad (h₀ : ∀ i, c₀.run i = none) (hI : ∀ i, A.I i (c₀.state, g₀))
    (hT : A.Tot (c₀.state, g₀)) (hr : M.Run P c₀ c) {en : σ → Bool} {upd : σ → σ}
    {next : σ → Prog σ ε α} (hrun : c.run i = some (.act en upd next)) (hen : en c.state = true)
    {e : ε} (he : next c.state = .fail e) : ¬ A.bad e := by
  obtain ⟨g, hT', hL⟩ := A.sound h₀ hI hT hr
  have hi := hL i
  rw [hrun] at hi
  obtain ⟨g', _, hn⟩ := hi (c.state, g) ⟨A.refl _ _, hT'⟩ hen
  dsimp only at hn
  rw [he] at hn
  exact hn.1

end Haunted
end Machine
end Txv6.Lib
