import Mathlib.Logic.Function.Basic

/-! # Numbered units and their holders

Units `lo ..< hi` are handed out to holders, one unit to one holder; `own x` is the unit of
holder `x`, with 0 for none. A table of flags says which units are taken; the units below `lo`
are taken for good.
-/
namespace Txv6.Lib
open Function

structure Allotment {ι : Type} (lo hi : Nat) (own : ι → Nat) (used : Nat → Bool) : Prop where
  pos : 0 < lo
  range : ∀ x, own x ≠ 0 → lo ≤ own x ∧ own x < hi
  inj : ∀ x y, own x ≠ 0 → own x = own y → x = y
  exact : ∀ b, lo ≤ b → b < hi → (used b = true ↔ ∃ x, own x = b)
  reserved : ∀ b < lo, used b = true

namespace Allotment
variable {ι : Type} {lo hi b : Nat} {own own' : ι → Nat} {used used' : Nat → Bool} {x y : ι}

section
variable (h : Allotment lo hi own used)
include h

theorem used_own (hx : own x ≠ 0) : used (own x) = true :=
  (h.exact _ (h.range x hx).1 (h.range x hx).2).mpr ⟨x, rfl⟩

/-- A unit that is not taken is in the range and nobody's. -/
theorem fresh (hb : used b = false) : lo ≤ b ∧ ∀ x, own x ≠ b := by
  have hlo : lo ≤ b := by
    by_contra hlt
    rw [h.reserved b (Nat.lt_of_not_le hlt)] at hb
    cases hb
  refine ⟨hlo, fun x hx => ?_⟩
  have hne : own x ≠ 0 := by
    have := h.pos
    omega
  rw [← hx, h.used_own hne] at hb
  cases hb

theorem congr (ho : ∀ x, own' x = own x)
    (hu : ∀ b < hi, used' b = used b) (hlo : lo ≤ hi) : Allotment lo hi own' used' where
  pos := h.pos
  range x hx := by rw [ho] at hx ⊢; exact h.range x hx
  inj x y hx e := by rw [ho] at hx; rw [ho, ho] at e; exact h.inj x y hx e
  exact b hb hb' := by
    rw [hu b hb', h.exact b hb hb']
    exact exists_congr fun x => by rw [ho]
  reserved b hb := by rw [hu b (Nat.lt_of_lt_of_le hb hlo)]; exact h.reserved b hb

/-- Some holders give their units back. -/
theorem release (S : ι → Prop) [DecidablePred S] (hle : lo ≤ hi)
    (hused : ∀ c < hi, used' c = true ↔ used c = true ∧ ∀ x, S x → own x ≠ 0 → own x ≠ c) :
    Allotment lo hi (fun x => if S x then 0 else own x) used' := by
  have hkeep : ∀ {x}, (if S x then 0 else own x) ≠ 0 → ¬ S x ∧ (if S x then 0 else own x) = own x := by
    intro x hx
    by_cases hS : S x
    · rw [if_pos hS] at hx
      exact absurd rfl hx
    · exact ⟨hS, if_neg hS⟩
  refine ⟨h.pos, fun x hx => ?_, fun x y hx e => ?_, fun c hc hc' => ?_, fun c hc => ?_⟩
  · obtain ⟨_, hx'⟩ := hkeep hx
    rw [hx'] at hx ⊢
    exact h.range x hx
  · obtain ⟨_, hx'⟩ := hkeep hx
    obtain ⟨_, hy'⟩ := hkeep (e ▸ hx)
    rw [hx', hy'] at e
    rw [hx'] at hx
    exact h.inj x y hx e
  · have hpos := h.pos
    rw [hused c hc', h.exact c hc hc']
    constructor
    · rintro ⟨⟨x, hx⟩, hno⟩
      refine ⟨x, ?_⟩
      rw [if_neg fun hS => hno x hS (by omega) hx, hx]
    · rintro ⟨x, hx⟩
      obtain ⟨hS, hx'⟩ := hkeep (x := x) (by omega)
      rw [hx'] at hx
      refine ⟨⟨x, hx⟩, fun y hy hne e => hS ?_⟩
      rwa [← h.inj y x hne (e.trans hx.symm)]
  · refine (hused c (by omega)).mpr ⟨h.reserved c hc, fun x _ hne e => ?_⟩
    have := (h.range x hne).1
    omega
end

variable [DecidableEq ι]

/-- A free unit goes to a holder without one. -/
theorem assign (h : Allotment lo hi own used) (hx : own x = 0) (hb : used b = false) (hlt : b < hi) :
    Allotment lo hi (update own x b) (fun c => used c || decide (c = b)) := by
  obtain ⟨hlo, hno⟩ := h.fresh hb
  refine ⟨h.pos, fun y hy => ?_, fun y z hy e => ?_, fun c hc hc' => ?_, fun c hc => ?_⟩
  · by_cases ey : y = x
    · subst ey
      rw [update_self]
      exact ⟨hlo, hlt⟩
    · rw [update_of_ne ey] at hy ⊢
      exact h.range y hy
  · by_cases ey : y = x
    · by_cases ez : z = x
      · rw [ey, ez]
      · rw [ey, update_self, update_of_ne ez] at e
        exact absurd e.symm (hno z)
    · rw [update_of_ne ey] at hy e
      by_cases ez : z = x
      · rw [ez, update_self] at e
        exact absurd e (hno y)
      · rw [update_of_ne ez] at e
        exact h.inj y z hy e
  · rw [Bool.or_eq_true, decide_eq_true_eq, h.exact c hc hc']
    constructor
    · rintro (⟨y, hy⟩ | rfl)
      · have hyx : y ≠ x := by
          rintro rfl
          have := h.pos
          omega
        exact ⟨y, by rw [update_of_ne hyx]; exact hy⟩
      · exact ⟨x, update_self ..⟩
    · rintro ⟨y, hy⟩
      by_cases ey : y = x
      · rw [ey, update_self] at hy
        exact .inr hy.symm
      · rw [update_of_ne ey] at hy
        exact .inl ⟨y, hy⟩
  · rw [h.reserved c hc]
    rfl

end Allotment
end Txv6.Lib
