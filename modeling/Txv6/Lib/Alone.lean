import Txv6.Lib.Prog

/-! # Programs that run alone

Total correctness of a program that nothing interferes with: it never waits, it ends without
an error, and every state it passes through satisfies an invariant, so that the invariant is
what is left wherever the run is cut off.
-/
namespace Txv6.Lib.Prog
variable {σ ε α β : Type} {I : σ → Prop} {s : σ} {p : Prog σ ε α} {a : α} {M Q' : α → σ → Prop} {e : ε}
  {c en : σ → Bool} {f : σ → σ}

/-- Run alone from `s`, the program stays in `I` and returns in `Q`. -/
def alone (I : σ → Prop) : Prog σ ε α → (α → σ → Prop) → σ → Prop
  | .ret a, Q, s => I s ∧ Q a s
  | .fail _, _, _ => False
  | .act en upd next, Q, s => I s ∧ en s = true ∧ alone I (next s) Q (upd s)

theorem alone_mono {Q : α → σ → Prop} (hQ : ∀ a t, Q a t → Q' a t) (h : alone I p Q s) : alone I p Q' s := by
  induction p generalizing s with
  | ret a => exact ⟨h.1, hQ a s h.2⟩
  | fail e => exact h
  | act en upd next ih => exact ⟨h.1, h.2.1, ih s h.2.2⟩

theorem alone_seq {f : α → Prog σ ε β} {Q : β → σ → Prop}
    (h : alone I p M s) (hf : ∀ a t, M a t → alone I (f a) Q t) : alone I (p >>= f) Q s := by
  change alone I (p.bind f) Q s
  induction p generalizing s with
  | ret a => exact hf a s h.2
  | fail e => exact h.elim
  | act en upd next ih => exact ⟨h.1, h.2.1, ih s h.2.2⟩

theorem alone_pure {Q : α → σ → Prop} (hI : I s) (hQ : Q a s) :
    alone I (pure a : Prog σ ε α) Q s := ⟨hI, hQ⟩

theorem alone_read {f : σ → α} {Q : α → σ → Prop} (hI : I s) (hQ : Q (f s) s) :
    alone I (.read f : Prog σ ε α) Q s := ⟨hI, rfl, hI, hQ⟩

theorem alone_update {Q : Unit → σ → Prop} (hI : I s) (hI' : I (f s))
    (hQ : Q () (f s)) : alone I (.update f : Prog σ ε Unit) Q s := ⟨hI, rfl, hI', hQ⟩

theorem alone_atom {f : σ → α × σ} {Q : α → σ → Prop} (hI : I s) (hI' : I (f s).2)
    (hQ : Q (f s).1 (f s).2) : alone I (.atom f : Prog σ ε α) Q s := ⟨hI, rfl, hI', hQ⟩

theorem alone_await {Q : Unit → σ → Prop} (hI : I s) (hen : en s = true) (hI' : I (f s)) (hQ : Q () (f s)) :
    alone I (.await en f : Prog σ ε Unit) Q s := ⟨hI, hen, hI', hQ⟩

theorem alone_check {Q : Unit → σ → Prop} (hI : I s) (hc : c s = true)
    (hQ : Q () s) : alone I (.check c e : Prog σ ε Unit) Q s := by
  refine ⟨hI, rfl, ?_⟩
  dsimp only
  rw [if_pos hc]
  exact ⟨hI, hQ⟩

/-- What the judgement says of the run. -/
theorem alone_run {Q : α → σ → Prop} (h : alone I p Q s) :
    (∃ a, (p.run s).1 = some (.ok a) ∧ Q a (p.run s).2) ∧ ∀ t ∈ p.visited s, I t := by
  induction p generalizing s with
  | ret a =>
    refine ⟨⟨a, rfl, h.2⟩, fun t ht => ?_⟩
    rw [List.mem_singleton.mp ht]
    exact h.1
  | fail e => exact h.elim
  | act en upd next ih =>
    obtain ⟨hI, hen, hn⟩ := h
    obtain ⟨hrun, hvis⟩ := ih s hn
    simp only [run, visited, hen, if_true]
    refine ⟨hrun, fun t ht => ?_⟩
    rcases List.mem_cons.mp ht with rfl | ht
    · exact hI
    · exact hvis t ht

/-! ## Outcomes

The same without the invariant, and with a condition on the errors as well. Every rule is an
equivalence, so straight-line code can be executed by rewriting. -/

/-- Run alone from `s`, the program never waits; it returns in `Q` or leaves with an error
in `E`. -/
def ends : Prog σ ε α → (α → σ → Prop) → (ε → σ → Prop) → σ → Prop
  | .ret a, Q, _, s => Q a s
  | .fail e, _, E, s => E e s
  | .act en upd next, Q, E, s => en s = true ∧ ends (next s) Q E (upd s)

section Ends
variable {Q : α → σ → Prop} {E : ε → σ → Prop}

theorem ends_imp {E' : ε → σ → Prop} (h : ends p Q E s)
    (hQ : ∀ a t, Q a t → Q' a t) (hE : ∀ e t, E e t → E' e t) : ends p Q' E' s := by
  induction p generalizing s with
  | ret a => exact hQ a s h
  | fail e => exact hE e s h
  | act en upd next ih => exact ⟨h.1, ih s h.2⟩

theorem ends_mono (h : ends p Q E s)
    (hQ : ∀ a t, Q a t → Q' a t) : ends p Q' E s := ends_imp h hQ fun _ _ he => he

theorem ends_bind {f : α → Prog σ ε β} {Q : β → σ → Prop} :
    ends (p >>= f) Q E s ↔ ends p (fun a => ends (f a) Q E) E s := by
  change ends (p.bind f) Q E s ↔ _
  induction p generalizing s with
  | ret a => exact Iff.rfl
  | fail e => exact Iff.rfl
  | act en upd next ih => exact and_congr_right fun _ => ih s

theorem ends_pure : ends (pure a : Prog σ ε α) Q E s ↔ Q a s := Iff.rfl

theorem ends_read {f : σ → α} : ends (.read f : Prog σ ε α) Q E s ↔ Q (f s) s :=
  ⟨fun h => h.2, fun h => ⟨rfl, h⟩⟩

theorem ends_update {Q : Unit → σ → Prop} :
    ends (.update f : Prog σ ε Unit) Q E s ↔ Q () (f s) := ⟨fun h => h.2, fun h => ⟨rfl, h⟩⟩

theorem ends_atom {f : σ → α × σ} : ends (.atom f : Prog σ ε α) Q E s ↔ Q (f s).1 (f s).2 :=
  ⟨fun h => h.2, fun h => ⟨rfl, h⟩⟩

theorem ends_await {Q : Unit → σ → Prop} :
    ends (.await en f : Prog σ ε Unit) Q E s ↔ en s = true ∧ Q () (f s) := Iff.rfl

theorem ends_check {Q : Unit → σ → Prop} :
    ends (.check c e : Prog σ ε Unit) Q E s ↔ if c s then Q () s else E e s := by
  change true = true ∧ ends (if c s then .ret () else .fail e) Q E s ↔ _
  by_cases h : c s = true
  · simp [h, ends]
  · simp [h, ends]

theorem ends_when {c : Bool} {p : Prog σ ε Unit} {Q : Unit → σ → Prop} :
    ends (.when c p) Q E s ↔ if c then ends p Q E s else Q () s := by
  cases c with
  | true => exact Iff.rfl
  | false => exact Iff.rfl

/-- What the judgement says of the run. -/
theorem ends_run (h : ends p Q E s) :
    (∃ a t, p.run s = (some (.ok a), t) ∧ Q a t) ∨ ∃ e t, p.run s = (some (.error e), t) ∧ E e t := by
  induction p generalizing s with
  | ret a => exact .inl ⟨a, s, rfl, h⟩
  | fail e => exact .inr ⟨e, s, rfl, h⟩
  | act en upd next ih =>
    simp only [run, h.1, if_true]
    exact ih s h.2

/-- A program that cannot fail returns. -/
theorem ends_ok (h : ends p Q (fun _ _ => False) s) : ∃ a t, p.run s = (some (.ok a), t) ∧ Q a t := by
  rcases ends_run h with hok | ⟨_, _, _, he⟩
  · exact hok
  · exact he.elim

end Ends

end Txv6.Lib.Prog
