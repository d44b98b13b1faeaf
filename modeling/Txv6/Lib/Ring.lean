import Mathlib.Data.List.Infix
import Mathlib.Data.Nat.ModEq

/-! # Ring buffers with free running counters

A ring of `cap` cells whose two counters are machine words: they count everything ever put
and taken, modulo `2 ^ w`, and a cell is found by the remainder modulo `cap`. With `cap` a
proper divisor of `2 ^ w` the difference of the counters is the number of elements, also
after they have wrapped.
-/
namespace Txv6.Lib

/-- Cells from index 0 on, of which a user addresses those below its capacity. -/
structure Ring (β : Type) (w : Nat) where
  data : Nat → β
  nread : BitVec w
  nwrite : BitVec w

namespace Ring
variable {β : Type} {w cap : Nat} {r : Ring β w} {k : Nat}

/-- How many elements are in the ring. -/
def count (r : Ring β w) : Nat := (r.nwrite - r.nread).toNat

/-- The cell of the element `k` places behind the next one to be taken. -/
def cell (cap : Nat) (r : Ring β w) (k : Nat) : Nat := (r.nread + BitVec.ofNat w k).toNat % cap

/-- The elements in the ring, the next one to be taken first. -/
def contents (cap : Nat) (r : Ring β w) : List β :=
  (List.range r.count).map fun k => r.data (r.cell cap k)

def put (cap : Nat) (r : Ring β w) (b : β) : Ring β w :=
  { r with data := Function.update r.data (r.nwrite.toNat % cap) b, nwrite := r.nwrite + 1 }

def pop (r : Ring β w) : Ring β w := { r with nread := r.nread + 1 }

@[simp] theorem contents_length : (r.contents cap).length = r.count := by simp [contents]

theorem count_lt (r : Ring β w) : r.count < 2 ^ w := (r.nwrite - r.nread).isLt

theorem nwrite_eq (r : Ring β w) : r.nwrite = r.nread + BitVec.ofNat w r.count := by
  have h : BitVec.ofNat w r.count = r.nwrite - r.nread := by
    unfold count
    rw [BitVec.ofNat_toNat, BitVec.setWidth_eq]
  rw [h, BitVec.add_comm, BitVec.sub_add_cancel]

/-- The test of an empty ring. -/
theorem count_eq_zero_iff : r.count = 0 ↔ r.nread = r.nwrite := by
  constructor
  · intro h
    rw [r.nwrite_eq, h]
    simp
  · intro h
    simp [count, h]

/-- The test of a full ring. -/
theorem count_eq_cap_iff (hw : cap < 2 ^ w) : r.count = cap ↔ r.nwrite = r.nread + BitVec.ofNat w cap := by
  constructor
  · intro h
    rw [r.nwrite_eq, h]
  · intro h
    unfold count
    rw [h, BitVec.add_comm, BitVec.add_sub_cancel, BitVec.toNat_ofNat, Nat.mod_eq_of_lt hw]

/-! ## Cells -/

/-- Counting on by a word moves the cell by as much, also where the counter wraps. -/
theorem cell_eq (hd : cap ∣ 2 ^ w) (k : Nat) : r.cell cap k = (r.nread.toNat + k) % cap := by
  unfold cell
  rw [BitVec.toNat_add, BitVec.toNat_ofNat, Nat.add_mod_mod, Nat.mod_mod_of_dvd _ hd]

theorem cell_injective (hd : cap ∣ 2 ^ w) {j : Nat} (hj : j < cap) (hk : k < cap)
    (h : r.cell cap j = r.cell cap k) : j = k := by
  rw [cell_eq hd, cell_eq hd] at h
  have h : j % cap = k % cap := Nat.ModEq.add_left_cancel' r.nread.toNat h
  rwa [Nat.mod_eq_of_lt hj, Nat.mod_eq_of_lt hk] at h

/-- Where the next element goes. -/
theorem cell_count : r.cell cap r.count = r.nwrite.toNat % cap := by
  unfold cell
  rw [← r.nwrite_eq]

/-! ## Putting and taking -/

theorem count_put (b : β) (h : r.count < cap) (hw : cap < 2 ^ w) : (r.put cap b).count = r.count + 1 := by
  have he : (r.put cap b).nwrite = r.nread + BitVec.ofNat w (r.count + 1) := by
    have h1 : BitVec.ofNat w (r.count + 1) = BitVec.ofNat w r.count + 1 := by
      rw [BitVec.ofNat_add]
      rfl
    change r.nwrite + 1 = _
    rw [r.nwrite_eq, h1, BitVec.add_assoc]
  have hr : (r.put cap b).nread = r.nread := rfl
  unfold count
  rw [he, hr, BitVec.add_comm r.nread, BitVec.add_sub_cancel, BitVec.toNat_ofNat]
  exact Nat.mod_eq_of_lt (by omega)

theorem contents_put (b : β) (hd : cap ∣ 2 ^ w) (h : r.count < cap) (hw : cap < 2 ^ w) :
    (r.put cap b).contents cap = r.contents cap ++ [b] := by
  unfold contents
  rw [count_put b h hw, List.range_succ, List.map_append]
  congr 1
  · refine List.map_congr_left fun k hk => ?_
    have hk : k < r.count := List.mem_range.mp hk
    -- the cells in use are other ones than the new one
    have hne : r.cell cap k ≠ r.nwrite.toNat % cap := by
      intro he
      rw [← cell_count] at he
      have := cell_injective hd (hk.trans h) h he
      omega
    change Function.update r.data _ b (r.cell cap k) = _
    rw [Function.update_of_ne hne]
  · change [Function.update r.data _ b (r.cell cap r.count)] = [b]
    rw [cell_count, Function.update_self]

theorem count_pop (h : r.nread ≠ r.nwrite) : r.pop.count + 1 = r.count := by
  have hpos : r.count ≠ 0 := fun h0 => h (count_eq_zero_iff.mp h0)
  have hlt := r.count_lt
  have he : r.nwrite - (r.nread + 1) = BitVec.ofNat w (r.count - 1) := by
    have h1 : BitVec.ofNat w r.count = BitVec.ofNat w (r.count - 1) + 1 := by
      have : r.count = r.count - 1 + 1 := by omega
      conv_lhs => rw [this, BitVec.ofNat_add]
      rfl
    have h2 : r.nwrite = r.nread + (BitVec.ofNat w (r.count - 1) + 1) := by
      conv_lhs => rw [r.nwrite_eq, h1]
    have h3 : r.nread + (BitVec.ofNat w (r.count - 1) + 1) =
        BitVec.ofNat w (r.count - 1) + (r.nread + 1) := by ac_rfl
    rw [h2, h3, BitVec.add_sub_cancel]
  change (r.nwrite - (r.nread + 1)).toNat + 1 = r.count
  rw [he, BitVec.toNat_ofNat, Nat.mod_eq_of_lt (by omega)]
  omega

theorem contents_pop (h : r.nread ≠ r.nwrite) :
    r.contents cap = r.data (r.nread.toNat % cap) :: r.pop.contents cap := by
  have hcell : ∀ k, r.cell cap (k + 1) = r.pop.cell cap k := by
    intro k
    have h1 : BitVec.ofNat w (k + 1) = 1 + BitVec.ofNat w k := by
      rw [Nat.add_comm, BitVec.ofNat_add]
      rfl
    unfold cell
    rw [h1, ← BitVec.add_assoc]
    rfl
  unfold contents
  rw [← count_pop h, List.range_succ_eq_map, List.map_cons, List.map_map]
  congr 1
  · simp [cell]
  · refine List.map_congr_left fun k _ => ?_
    change r.data (r.cell cap (k + 1)) = r.data (r.pop.cell cap k)
    rw [hcell]

/-! ## Taking back -/

/-- Take back what was put last. -/
def unput (r : Ring β w) : Ring β w := { r with nwrite := r.nwrite - 1 }

theorem count_of_nwrite (h : r.nwrite = r.nread + BitVec.ofNat w k) (hk : k < 2 ^ w) : r.count = k := by
  unfold count
  rw [h, BitVec.add_comm, BitVec.add_sub_cancel, BitVec.toNat_ofNat, Nat.mod_eq_of_lt hk]

theorem nwrite_unput (h : r.count = k + 1) : r.unput.nwrite = r.nread + BitVec.ofNat w k := by
  have hone : BitVec.ofNat w (k + 1) = BitVec.ofNat w k + 1 := by
    rw [BitVec.ofNat_add]
    rfl
  change r.nwrite - 1 = _
  rw [r.nwrite_eq, h, hone, ← BitVec.add_assoc, BitVec.add_sub_cancel]

theorem count_unput (h : r.count = k + 1) : r.unput.count = k := by
  have hlt := r.count_lt
  exact count_of_nwrite (nwrite_unput h) (by omega)

theorem contents_unput (h : r.count = k + 1) :
    r.contents cap = r.unput.contents cap ++ [r.data (r.unput.nwrite.toNat % cap)] := by
  unfold contents
  rw [count_unput h, h, List.range_succ, List.map_append, nwrite_unput h]
  rfl

end Ring
end Txv6.Lib
