import Txv6.Lib.Parallel

/-! # Errors that no thread comes to

`gwp` does not follow a thread into a fatal error. Here the errors are judged too: a thread
whose steps are all taken in states with a condition `C` does not come to a `bad` error.
-/
namespace Txv6.Lib
open Relation Prog

namespace Prog
variable {σ ε α : Type} [Fatal ε] {R G : σ → σ → Prop} {Q : α → σ → Prop} {E : ε → σ → Prop} {s t : σ}
  {p : Prog σ ε α} {f : σ → σ}

/-- A weakest precondition outlives steps of the other programs. -/
theorem wp_stable {S : σ → σ → Prop} (htr : ∀ {s t u}, S s t → R t u → R s u)
    (hQ : ∀ a s t, S s t → Q a s → Q a t) (hE : ∀ e s t, S s t → E e s → E e t)
    (h : wp R G p Q E s) (hS : S s t) : wp R G p Q E t := by
  cases p with
  | ret a => exact hQ a s t hS h
  | fail e => exact hE e s t hS h
  | act en upd next => exact fun u hR hen => h u (htr hS hR) hen

omit [Fatal ε] in
theorem track_bind {β τ : Type} {f : σ → σ → τ → τ} (p : Prog σ ε α) (k : α → Prog σ ε β) :
    track f (p >>= k) = track f p >>= fun a => track f (k a) := by
  change track f (p.bind k) = (track f p).bind fun a => track f (k a)
  induction p with
  | ret a => rfl
  | fail e => rfl
  | act en upd next ih => exact congrArg (Prog.act _ _) (funext fun x => ih x.1)

/-! ## Code with known steps and known errors -/

/-- Each step is a `G`-step, unless it stops the machine, and each error is one of `B`. -/
def Within (G : σ → σ → Prop) (B : ε → Prop) : Prog σ ε α → Prop
  | .ret _ => True
  | .fail e => B e
  | .act en upd next => ∀ s, en s = true → ((next s).isFatal = false → G s (upd s)) ∧ Within G B (next s)

namespace Within
variable {β τ : Type} {B : ε → Prop}

theorem seq {f : α → Prog σ ε β} (h : Within G B p) (hf : ∀ a, Within G B (f a)) : Within G B (p >>= f) := by
  change Within G B (p.bind f)
  induction p with
  | ret a => exact hf a
  | fail e => exact h
  | act en upd next ih =>
    intro s hen
    exact ⟨fun hn => (h s hen).1 (isFatal_of_bind hn), ih s (h s hen).2⟩

theorem read {f : σ → α} (h : ∀ s, G s s) : Within G B (.read f : Prog σ ε α) :=
  fun s _ => ⟨fun _ => h s, trivial⟩

theorem update (h : ∀ s, G s (f s)) : Within G B (.update f : Prog σ ε Unit) :=
  fun s _ => ⟨fun _ => h s, trivial⟩

theorem atom {f : σ → α × σ} (h : ∀ s, G s (f s).2) : Within G B (.atom f : Prog σ ε α) :=
  fun s _ => ⟨fun _ => h s, trivial⟩

theorem await {en : σ → Bool} (h : ∀ s, en s = true → G s (f s)) :
    Within G B (.await en f : Prog σ ε Unit) := fun s hen => ⟨fun _ => h s hen, trivial⟩

theorem check {c : σ → Bool} {e : ε} (h : ∀ s, G s s) (he : B e) :
    Within G B (.check c e : Prog σ ε Unit) := by
  intro s _
  refine ⟨fun _ => h s, ?_⟩
  dsimp only
  split
  · trivial
  · exact he

theorem when {c : Bool} {p : Prog σ ε Unit} (h : Within G B p) : Within G B (when c p) := by
  cases c with
  | false => trivial
  | true => exact h

/-- Beside which something is recorded. -/
theorem track {f : σ → σ → τ → τ} (h : Within G B p) :
    Within (fun x y : σ × τ => G x.1 y.1 ∧ y.2 = f x.1 y.1 x.2) B (Prog.track f p) := by
  induction p with
  | ret a => trivial
  | fail e => exact h
  | act en upd next ih =>
    intro x hen
    refine ⟨fun hn => ⟨(h x.1 hen).1 ?_, rfl⟩, ih x.1 (h x.1 hen).2⟩
    rwa [isFatal_track] at hn

end Within

/-- Such code keeps an invariant that each of its steps keeps. -/
theorem wp_of_within {G₀ : σ → σ → Prop} {B : ε → Prop} {J : σ → Prop}
    (hE : ∀ e s, B e → Fatal.fatal e = true ∨ J s → E e s) (hR : ∀ s t, R s t → J s → J t)
    (hJ : ∀ s t u, R s t → G₀ t u → J t → G t u ∧ J u) (h : Within G₀ B p) (hs : J s) :
    wp R G p (fun _ => J) E s := by
  induction p generalizing s with
  | ret a => exact hs
  | fail e => exact hE e s h (.inr hs)
  | act en upd next ih =>
    intro t ht hen
    have hJt := hR s t ht hs
    obtain ⟨hstep, hnext⟩ := h t hen
    cases hf : (next t).isFatal with
    | false =>
      obtain ⟨hG, hJu⟩ := hJ s t _ ht (hstep hf) hJt
      exact ⟨fun _ => hG, ih t hnext hJu⟩
    | true =>
      refine ⟨fun hn => (nomatch hn), ?_⟩
      cases hn : next t with
      | fail e =>
        rw [hn] at hf hnext
        exact hE e _ hnext (.inl hf)
      | ret a => rw [hn] at hf; cases hf
      | act en' upd' next' => rw [hn] at hf; cases hf

theorem Within.of_steps (h : Steps G p) : Within G (fun _ => True) p := by
  induction p with
  | ret a => trivial
  | fail e => trivial
  | act en upd next ih => exact fun s hen => ⟨(h s hen).1, ih s (h s hen).2⟩

end Prog

namespace Machine
variable {ι κ σ ε α : Type} [Fatal ε] {o : Option (Prog σ ε α)} {i : ι} {s : σ}

/-- The largest guarantee: the step keeps what is said of the state, and is a step that every
other thread relies on. -/
def Guards (Tot : σ → Prop) (R : ι → σ → σ → Prop) (i : ι) (s t : σ) : Prop :=
  (Tot s → Tot t) ∧ ∀ j, j ≠ i → R j s t

/-- A proof method for machines whose threads do not come to `bad` errors. `I` holds of a thread
outside of calls, `Tot` of the state, and `C`, which may be more than `Tot`, where a step of a
call is taken. -/
structure Judged (M : Machine ι κ σ ε α) (P : Label ι κ ε α → σ → σ → Prop) where
  R : ι → σ → σ → Prop
  G : ι → σ → σ → Prop
  I : ι → σ → Prop
  Tot : σ → Prop
  C : σ → Prop
  bad : ε → Prop
  refl : ∀ i s, R i s s
  trans : ∀ {i s t u}, R i s t → R i t u → R i s u
  stable : ∀ {i s t}, R i s t → I i s → I i t
  call : ∀ {i k s}, P (.call i k) s s → M.ready i s → Tot s → I i s →
    wp (fun s t => R i s t ∧ C t) (G i) (M.prog i k) (fun _ => I i)
      (fun e t => ¬ bad e ∧ (Fatal.fatal e = false → I i t)) s
  act : ∀ {i s t}, P (.act i) s t → Tot s → C s
  user : ∀ {i s t}, M.user i s t → I i s → G i s t ∧ I i t
  step : ∀ {i s t}, Tot s → G i s t → Tot t ∧ ∀ j, j ≠ i → R j s t

namespace Judged
variable {M : Machine ι κ σ ε α} {P : Label ι κ ε α → σ → σ → Prop} (A : Judged M P)
  {c c₀ : Pool ι σ ε α}

/-- What holds of a thread, outside of a call or with the rest of one to run. -/
def Local (i : ι) (s : σ) : Option (Prog σ ε α) → Prop
  | none => A.I i s
  | some p => wp (fun s t => A.R i s t ∧ A.C t) (A.G i) p (fun _ => A.I i)
      (fun e t => ¬ A.bad e ∧ (Fatal.fatal e = false → A.I i t)) s

theorem local_stable {t : σ} (h : A.Local i s o) (hR : A.R i s t) : A.Local i t o := by
  cases o with
  | none => exact A.stable hR h
  | some p =>
    refine wp_stable (S := A.R i) ?_ ?_ ?_ h hR
    · intro s t u h h'
      exact ⟨A.trans h h'.1, h'.2⟩
    · intro _ s t hR hI
      exact A.stable hR hI
    · intro e s t hR hE
      exact ⟨hE.1, fun hf => A.stable hR (hE.2 hf)⟩

variable [DecidableEq ι]

theorem sound (h₀ : ∀ i, c₀.run i = none) (hI : ∀ i, A.I i c₀.state) (hT : A.Tot c₀.state)
    (hr : M.Run P c₀ c) : A.Tot c.state ∧ ∀ i, A.Local i c.state (c.run i) := by
  have key := Run.keeps () (T := fun s _ => A.Tot s) (L := fun i s _ => A.Local i s)
    (fun hP hready hT hi => A.call hP hready hT hi) ?_ (fun _ _ hi => hi) (fun _ hmild hi => hi.2 hmild) ?_
    h₀ hT hI hr
  · exact key.choose_spec
  · intro i en upd next s _ hP hen hf hT hi
    obtain ⟨hG, hn⟩ := hi _ ⟨A.refl _ _, A.act hP hT⟩ hen
    obtain ⟨hT', hR⟩ := A.step hT (hG hf)
    exact ⟨(), hT', hn, fun j hj _ ho => A.local_stable ho (hR j hj)⟩
  · intro i s t _ _ _ hu hT hi
    obtain ⟨hG, hi'⟩ := A.user hu hi
    obtain ⟨hT', hR⟩ := A.step hT hG
    exact ⟨(), hT', hi', fun j hj _ ho => A.local_stable ho (hR j hj)⟩

/-- **No bad error** is the next step of a thread. -/
theorem not_bad (h₀ : ∀ i, c₀.run i = none) (hI : ∀ i, A.I i c₀.state) (hT : A.Tot c₀.state)
    (hr : M.Run P c₀ c) (hC : A.C c.state) {en : σ → Bool} {upd : σ → σ}
    {next : σ → Prog σ ε α} (hrun : c.run i = some (.act en upd next)) (hen : en c.state = true)
    {e : ε} (he : next c.state = .fail e) : ¬ A.bad e := by
  have hi := (A.sound h₀ hI hT hr).2 i
  rw [hrun] at hi
  have hn := (hi _ ⟨A.refl _ _, hC⟩ hen).2
  rw [he] at hn
  exact hn.1

end Judged
end Machine
end Txv6.Lib
