import Txv6.Volume.Write
import Mathlib.Tactic.FinCases

/-! # Inodes on the volume

The dinodes in the inode blocks: what `iupdate` stores is what `ilock` reads back, and the files
of the volume are none of its business.
-/
namespace Txv6
open Lib Function

/-! ## Bytes of a dinode -/

theorem append_byteOf_short (x : Short) : byteOf x 1 ++ byteOf x 0 = x := by
  apply BitVec.eq_of_getLsbD_eq
  intro i hi
  simp only [byteOf, BitVec.getLsbD_append, BitVec.getLsbD_extractLsb']
  by_cases h0 : i < 8
  · simp [h0]
  · simp [h0, show 8 + (i - 8) = i by omega, show i - 8 < 8 by omega]

theorem InodeData.bytes_length (i : InodeData) : i.bytes.length = dinodeSize := rfl

/-- **What is stored is read back.** -/
theorem dinodeAt_putBytes (b : Block) (o : Nat) (i : InodeData) : dinodeAt (putBytes b o i.bytes) o = i := by
  have hget : ∀ k < dinodeSize, putBytes b o i.bytes (o + k) = i.bytes.getD k 0 := by
    intro k hk
    unfold putBytes
    rw [if_pos ⟨Nat.le_add_right o k, by rw [i.bytes_length]; omega⟩, Nat.add_sub_cancel_left]
  have h16 : ∀ k, k + 1 < dinodeSize → ∀ x : Short, i.bytes.getD k 0 = byteOf x 0 →
      i.bytes.getD (k + 1) 0 = byteOf x 1 → le16 (putBytes b o i.bytes) (o + k) = x := by
    intro k hk x h0 h1
    have e0 : putBytes b o i.bytes (o + k) = byteOf x 0 := (hget k (by omega)).trans h0
    have e1 : putBytes b o i.bytes (o + k + 1) = byteOf x 1 := (hget (k + 1) hk).trans h1
    unfold le16
    rw [e0, e1]
    exact append_byteOf_short x
  have h32 : ∀ k, k + 3 < dinodeSize → ∀ x : Uint, i.bytes.getD k 0 = byteOf x 0 →
      i.bytes.getD (k + 1) 0 = byteOf x 1 → i.bytes.getD (k + 2) 0 = byteOf x 2 →
      i.bytes.getD (k + 3) 0 = byteOf x 3 → le32 (putBytes b o i.bytes) (o + k) = x := by
    intro k hk x h0 h1 h2 h3
    have e0 : putBytes b o i.bytes (o + k) = byteOf x 0 := (hget k (by omega)).trans h0
    have e1 : putBytes b o i.bytes (o + k + 1) = byteOf x 1 := (hget (k + 1) (by omega)).trans h1
    have e2 : putBytes b o i.bytes (o + k + 2) = byteOf x 2 := (hget (k + 2) (by omega)).trans h2
    have e3 : putBytes b o i.bytes (o + k + 3) = byteOf x 3 := (hget (k + 3) hk).trans h3
    unfold le32
    rw [e0, e1, e2, e3]
    exact append_byteOf x
  ext1
  · exact h16 0 (by decide) _ rfl rfl
  · exact h16 2 (by decide) _ rfl rfl
  · exact h16 4 (by decide) _ rfl rfl
  · exact h16 6 (by decide) _ rfl rfl
  · exact h32 8 (by decide) _ rfl rfl rfl rfl
  · funext k
    show le32 _ (o + 12 + 4 * k) = _
    rw [Nat.add_assoc]
    have hk : (k : Nat) < 13 := k.2
    refine h32 (12 + 4 * k) (show 12 + 4 * (k : Nat) + 3 < 64 by omega) _ ?_ ?_ ?_ ?_ <;> fin_cases k <;> rfl

theorem dinodeAt_congr {b c : Block} {o : Nat} (h : ∀ k < dinodeSize, c (o + k) = b (o + k)) :
    dinodeAt c o = dinodeAt b o := by
  have h16 : ∀ k, k + 1 < dinodeSize → le16 c (o + k) = le16 b (o + k) := by
    intro k hk
    have e1 : c (o + k + 1) = b (o + k + 1) := h (k + 1) hk
    unfold le16
    rw [h k (by omega), e1]
  have h32 : ∀ k, k + 3 < dinodeSize → le32 c (o + k) = le32 b (o + k) := by
    intro k hk
    have e1 : c (o + k + 1) = b (o + k + 1) := h (k + 1) (by omega)
    have e2 : c (o + k + 2) = b (o + k + 2) := h (k + 2) (by omega)
    have e3 : c (o + k + 3) = b (o + k + 3) := h (k + 3) hk
    unfold le32
    rw [h k (by omega), e1, e2, e3]
  ext1
  · exact h16 0 (by decide)
  · exact h16 2 (by decide)
  · exact h16 4 (by decide)
  · exact h16 6 (by decide)
  · exact h32 8 (by decide)
  · funext k
    show le32 _ (o + 12 + 4 * k) = le32 _ (o + 12 + 4 * k)
    rw [Nat.add_assoc]
    have hk : (k : Nat) < 13 := k.2
    exact h32 (12 + 4 * k) (show 12 + 4 * (k : Nat) + 3 < 64 by omega)

/-- The dinodes of a block do not overlap. -/
theorem dinodeAt_putBytes_of_ne {b : Block} {n m : Nat} (i : InodeData) (h : m % ipb ≠ n % ipb) :
    dinodeAt (putBytes b (dinodeOff n) i.bytes) (dinodeOff m) = dinodeAt b (dinodeOff m) := by
  refine dinodeAt_congr fun k hk => ?_
  unfold dinodeOff
  rcases Nat.lt_or_gt_of_ne h with h | h
  · have := Nat.mul_le_mul_right dinodeSize (Nat.succ_le_of_lt h)
    rw [Nat.succ_mul] at this
    exact putBytes_of_lt (by omega)
  · have := Nat.mul_le_mul_right dinodeSize (Nat.succ_le_of_lt h)
    rw [Nat.succ_mul] at this
    exact putBytes_of_ge (by rw [i.bytes_length]; omega)

/-! ## The inode blocks -/

namespace Vol
variable {sb : Superblock} {v w : Vol} {I : Nat → InodeData} {n m : Nat} {i : InodeData}

/-- The dinode of inode `n`. -/
def dinode (sb : Superblock) (v : Vol) (n : Nat) : InodeData := dinodeAt (v.blk (sb.iblock n)) (dinodeOff n)

theorem iupdate_blk {x : Nat} (h : x ≠ sb.iblock n) : (v.iupdate sb n i).blk x = v.blk x := by
  unfold iupdate
  rw [put_blk, update_of_ne h]

/-- `iupdate` replaces one dinode. -/
theorem iupdate_dinode (sb : Superblock) (v : Vol) (n : Nat) (i : InodeData) :
    (v.iupdate sb n i).dinode sb = update (v.dinode sb) n i := by
  funext m
  unfold dinode
  by_cases e : m = n
  · subst e
    rw [update_self]
    unfold iupdate
    rw [put_blk, update_self]
    exact dinodeAt_putBytes _ _ i
  · rw [update_of_ne e]
    by_cases eb : sb.iblock m = sb.iblock n
    · unfold iupdate
      rw [put_blk, eb, update_self]
      refine dinodeAt_putBytes_of_ne i fun emod => e ?_
      have hdiv : m / ipb = n / ipb := Nat.add_right_cancel eb
      rw [← Nat.div_add_mod m ipb, ← Nat.div_add_mod n ipb, hdiv, emod]
    · rw [iupdate_blk eb]

/-- The dinodes are in the blocks below the free map. -/
theorem dinode_congr (hsb : sb.Ok) (h : ∀ x < sb.bmapstart, w.blk x = v.blk x) (hn : n < sb.ninodes) :
    w.dinode sb n = v.dinode sb n := by
  unfold dinode
  rw [h _ (hsb.iblock_lt hn)]

/-- The files are in the blocks from the free map on. -/
theorem Files.above (h : v.Files sb I) (hsb : sb.Ok) (hw : ∀ x, sb.bmapstart ≤ x → w.blk x = v.blk x) :
    w.Files sb I ∧ ∀ n, Live sb I n → ∀ k, (I n).slot w.blk k = (I n).slot v.blk k := by
  have hind : ∀ n, Live sb I n → (I n).ind ≠ 0 → w.blk (I n).ind = v.blk (I n).ind := by
    intro n hn hi
    refine hw _ ?_
    rw [← InodeData.slot_ind v.blk] at hi ⊢
    have := (h.slot_range hn ndirect_lt_nslots hi).1
    have := Superblock.bmapstart_lt_datastart sb
    omega
  exact h.keep hsb hind fun x hx _ => hw x hx

/-- Contents are in the blocks from the free map on. -/
theorem Files.content_above (h : v.Files sb I) (hsb : sb.Ok) (hw : ∀ x, sb.bmapstart ≤ x → w.blk x = v.blk x)
    (hn : Live sb I n) : (I n).content w.blk = (I n).content v.blk := by
  have hslot := (h.above hsb hw).2 n hn
  unfold InodeData.content
  refine List.map_congr_left fun j hj => ?_
  have hj := List.mem_range.mp hj
  have hwhole : (I n).Whole v.blk := ⟨h.small n hn, h.filled n hn⟩
  obtain ⟨hlt, hne⟩ := hwhole.block hj
  have haddr : (I n).addr w.blk (j / bsize) = (I n).addr v.blk (j / bsize) := hslot _
  unfold InodeData.byte
  rw [haddr, hw]
  have := (h.slot_range hn (slotOf_lt hlt) hne).1
  exact Nat.le_trans (Nat.le_of_lt (Superblock.bmapstart_lt_datastart sb)) this

theorem iupdate_above (hsb : sb.Ok) (hn : n < sb.ninodes) {x : Nat} (hx : sb.bmapstart ≤ x) :
    (v.iupdate sb n i).blk x = v.blk x := by
  refine iupdate_blk ?_
  have := hsb.iblock_lt hn
  omega

end Vol
end Txv6
