import Mathlib.Logic.Basic

/-! # Separated holders

Pages that are either on a free list or held in one role by one holder. The rules say
how allocation, freeing and handing a page on keep this.
-/
namespace Txv6.Lib

/-- No page has two holders, no held page is free, and none is free twice. -/
structure Separated {ρ π : Type} (holds : ρ → Option π) (free : List π) : Prop where
  unique : ∀ {r r' x}, holds r = some x → holds r' = some x → r = r'
  notFree : ∀ {r x}, holds r = some x → x ∉ free
  nodup : free.Nodup

namespace Separated
variable {ρ π : Type} {holds f : ρ → Option π} {free : List π} {x : π}

/-- Holders may let go of pages without freeing them. -/
theorem mono (h : Separated holds free) (hf : ∀ r y, f r = some y → holds r = some y) :
    Separated f free where
  unique hr hr' := h.unique (hf _ _ hr) (hf _ _ hr')
  notFree hr := h.notFree (hf _ _ hr)
  nodup := h.nodup

theorem alloc (h : Separated holds (x :: free)) (r₀ : ρ)
    (hf : ∀ r y, f r = some y → r = r₀ ∧ y = x ∨ holds r = some y) : Separated f free where
  unique {r r' y} hr hr' := by
    have hx : ∀ r, holds r ≠ some x := fun r hr => h.notFree hr List.mem_cons_self
    rcases hf _ _ hr with ⟨e, ey⟩ | hr <;> rcases hf _ _ hr' with ⟨e', ey'⟩ | hr'
    · rw [e, e']
    · exact absurd (ey ▸ hr') (hx _)
    · exact absurd (ey' ▸ hr) (hx _)
    · exact h.unique hr hr'
  notFree {r y} hr := by
    rcases hf _ _ hr with ⟨rfl, rfl⟩ | hr
    · exact (List.nodup_cons.mp h.nodup).1
    · exact fun hy => h.notFree hr (List.mem_cons_of_mem _ hy)
  nodup := (List.nodup_cons.mp h.nodup).2

theorem release {r₀ : ρ} (h : Separated holds free) (hx : holds r₀ = some x)
    (hf : ∀ r y, f r = some y → r ≠ r₀ ∧ holds r = some y) : Separated f (x :: free) where
  unique hr hr' := h.unique (hf _ _ hr).2 (hf _ _ hr').2
  notFree {r y} hr hy := by
    obtain ⟨hne, hr⟩ := hf _ _ hr
    rcases List.mem_cons.mp hy with rfl | hy
    · exact hne (h.unique hr hx)
    · exact h.notFree hr hy
  nodup := List.nodup_cons.mpr ⟨h.notFree hx, h.nodup⟩

/-- The page of `r₀` takes the place of that of `r₁`, which becomes free. -/
theorem exchange {r₀ r₁ : ρ} {d : π} (h : Separated holds free) (hd : holds r₁ = some d)
    (hx : holds r₀ = some x) (hne : r₀ ≠ r₁)
    (hf : ∀ r y, f r = some y → r = r₁ ∧ y = x ∨ r ≠ r₀ ∧ r ≠ r₁ ∧ holds r = some y) :
    Separated f (d :: free) where
  unique {r r' y} hr hr' := by
    rcases hf _ _ hr with ⟨e, ey⟩ | ⟨hr0, _, hr⟩ <;>
      rcases hf _ _ hr' with ⟨e', ey'⟩ | ⟨hr0', _, hr'⟩
    · rw [e, e']
    · exact absurd (h.unique hr' (ey ▸ hx)) hr0'
    · exact absurd (h.unique hr (ey' ▸ hx)) hr0
    · exact h.unique hr hr'
  notFree {r y} hr hy := by
    rcases hf _ _ hr with ⟨_, rfl⟩ | ⟨_, hr1, hr⟩ <;> rcases List.mem_cons.mp hy with rfl | hy
    · exact hne (h.unique hx hd)
    · exact h.notFree hx hy
    · exact hr1 (h.unique hr hd)
    · exact h.notFree hr hy
  nodup := List.nodup_cons.mpr ⟨h.notFree hd, h.nodup⟩

end Separated
end Txv6.Lib
