import Mathlib.Logic.Function.Basic

/-! # Tables of slots

A table whose slots are empty or hold a key and a value is a finite map, as long as no key is in
two slots. Where in the table a pair goes does not matter.
-/
namespace Txv6.Lib
open Function
variable {κ β : Type}

/-- The slots `e` hold the map `m`. -/
structure Slots (e : Nat → Option (κ × β)) (m : κ → Option β) : Prop where
  distinct : ∀ i j k b c, e i = some (k, b) → e j = some (k, c) → i = j
  get : ∀ k b, m k = some b ↔ ∃ i, e i = some (k, b)

namespace Slots
variable {e : Nat → Option (κ × β)} {m : κ → Option β} {i : Nat} {k : κ} {b : β}

theorem eq_none (h : Slots e m) : m k = none ↔ ∀ i b, e i ≠ some (k, b) := by
  constructor
  · intro hk i b hi
    rw [(h.get k b).mpr ⟨i, hi⟩] at hk
    cases hk
  · intro hno
    cases hk : m k with
    | none => rfl
    | some b =>
      obtain ⟨i, hi⟩ := (h.get k b).mp hk
      exact absurd hi (hno i b)

variable [DecidableEq κ]

/-- A slot that has no other key gets an entry for `k`, or loses it. -/
theorem put (h : Slots e m) (hi : ∀ k' b, e i = some (k', b) → k' = k) (hk : ∀ j b, j ≠ i → e j ≠ some (k, b))
    (o : Option β) : Slots (update e i (o.map (k, ·))) (update m k o) := by
  have hself : ∀ j b, update e i (o.map (k, ·)) j = some (k, b) ↔ j = i ∧ o = some b := by
    intro j b
    by_cases ej : j = i
    · simp [ej]
    · simp [ej, hk j b ej]
  have hother : ∀ j k' b, k' ≠ k → (update e i (o.map (k, ·)) j = some (k', b) ↔ e j = some (k', b)) := by
    intro j k' b ek
    by_cases ej : j = i
    · rw [ej, update_self]
      refine iff_of_false ?_ fun hj => ek (hi k' b hj)
      simp [Ne.symm ek]
    · rw [update_of_ne ej]
  refine ⟨fun j j' k' b' c' hj hj' => ?_, fun k' b' => ?_⟩
  · by_cases ek : k' = k
    · subst ek
      rw [((hself j b').mp hj).1, ((hself j' c').mp hj').1]
    · exact h.distinct j j' k' b' c' ((hother j k' b' ek).mp hj) ((hother j' k' c' ek).mp hj')
  · by_cases ek : k' = k
    · subst ek
      simp [hself]
    · simp only [update_of_ne ek, h.get, hother _ k' b' ek]

/-- A new key goes into an empty slot. -/
theorem insert (h : Slots e m) (hi : e i = none) (hk : m k = none) (b : β) :
    Slots (update e i (some (k, b))) (update m k (some b)) := by
  refine h.put (fun k' b' hj => ?_) (fun j b' _ => h.eq_none.mp hk j b') (some b)
  rw [hi] at hj
  cases hj

/-- The slot of a key is emptied. -/
theorem erase (h : Slots e m) (hi : e i = some (k, b)) :
    Slots (update e i none) (update m k none) := by
  refine h.put (fun k' b' hj => ?_) (fun j b' hne hj => hne (h.distinct j i k b' b hj hi)) none
  rw [hi] at hj
  exact (Prod.mk.inj (Option.some.inj hj)).1.symm

end Slots
end Txv6.Lib
