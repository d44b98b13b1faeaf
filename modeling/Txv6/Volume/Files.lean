import Txv6.Volume.Alloc
import Txv6.Lib.Allotment

/-! # Files on a volume

What the blocks of a file are, what a file contains, and when the files and the free map of a
volume fit together. The inodes are a function of their own here, because an inode that is
being worked on is ahead of its copy on the volume.
-/
namespace Txv6
open Lib Function

/-! ## Layout -/

/-- The first block after the free map. -/
def Superblock.datastart (sb : Superblock) : Nat := sb.bmapstart + sb.size / bpb + 1

/-- Log, inodes, free map and data follow each other. -/
structure Superblock.Ok (sb : Superblock) : Prop where
  log : sb.logstart + logblocks < sb.inodestart
  inodes : sb.inodestart + sb.ninodes / ipb < sb.bmapstart
  data : sb.datastart ≤ sb.size
  small : sb.size < 2 ^ 31

section Layout
variable {sb : Superblock}

theorem Superblock.bblock_lt {b : Nat} (hb : b < sb.size) : sb.bblock b < sb.datastart := by
  unfold Superblock.bblock Superblock.datastart
  have := Nat.div_le_div_right (c := bpb) (Nat.le_of_lt hb)
  omega

theorem Superblock.bmapstart_le_bblock (sb : Superblock) (b : Nat) : sb.bmapstart ≤ sb.bblock b := Nat.le_add_left _ _

theorem Superblock.Ok.iblock_lt (h : sb.Ok) {n : Nat} (hn : n < sb.ninodes) : sb.iblock n < sb.bmapstart := by
  unfold Superblock.iblock
  have := Nat.div_le_div_right (c := ipb) (Nat.le_of_lt hn)
  have := h.inodes
  omega

theorem Superblock.Ok.home (h : sb.Ok) {n : Nat} (hn : sb.inodestart ≤ n) : sb.log.Home n := by
  have hlog := h.log
  refine ⟨fun e => ?_, fun i hi e => ?_⟩
  · have e : n = sb.logstart := e
    omega
  · have hi : i < logblocks := hi
    have e : n = sb.logstart + i + 1 := e
    omega

theorem Superblock.inodestart_le_iblock (n : Nat) : sb.inodestart ≤ sb.iblock n := Nat.le_add_left _ _

theorem Superblock.bmapstart_lt_datastart (sb : Superblock) : sb.bmapstart < sb.datastart :=
  Nat.lt_succ_of_le (Nat.le_add_right _ _)

end Layout

/-! ## The blocks of an inode -/

/-- Direct blocks, the indirect block and the blocks it names. -/
abbrev nslots : Nat := maxfile + 1

namespace InodeData

/-- The block in slot `k`: a direct one, the indirect one, or one named by the indirect one. -/
def slot (blk : Nat → Block) (i : InodeData) (k : Nat) : Nat :=
  if h : k < ndirect + 1 then (i.addrs ⟨k, h⟩).toNat
  else if i.addrs (Fin.last ndirect) = 0 then 0
  else (le32 (blk (i.addrs (Fin.last ndirect)).toNat) (4 * (k - (ndirect + 1)))).toNat

/-- Block `bn` of the file. -/
def addr (blk : Nat → Block) (i : InodeData) (bn : Nat) : Nat :=
  i.slot blk (if bn < ndirect then bn else bn + 1)

/-- Byte `j` of the file. -/
def byte (blk : Nat → Block) (i : InodeData) (j : Nat) : UChar := blk (i.addr blk (j / bsize)) (j % bsize)

/-- The contents of the file. -/
def content (blk : Nat → Block) (i : InodeData) : List UChar :=
  (List.range i.size.toNat).map (i.byte blk)

variable {blk blk' : Nat → Block} {i : InodeData} {k : Nat}

/-- The indirect block. -/
def ind (i : InodeData) : Nat := (i.addrs (Fin.last ndirect)).toNat

theorem slot_direct (h : k < ndirect + 1) : i.slot blk k = (i.addrs ⟨k, h⟩).toNat := dif_pos h

theorem slot_ind (blk : Nat → Block) : i.slot blk ndirect = i.ind := slot_direct (Nat.lt_succ_self _)

theorem ind_eq_zero : i.ind = 0 ↔ i.addrs (Fin.last ndirect) = 0 := by
  unfold ind
  rw [← BitVec.toNat_inj]
  rfl

theorem slot_entry (h : ¬ k < ndirect + 1) (hi : i.ind ≠ 0) :
    i.slot blk k = (le32 (blk i.ind) (4 * (k - (ndirect + 1)))).toNat := by
  unfold slot
  rw [dif_neg h, if_neg (mt ind_eq_zero.mpr hi)]
  rfl

theorem slot_no_ind (h : ¬ k < ndirect + 1) (hi : i.ind = 0) : i.slot blk k = 0 := by
  unfold slot
  rw [dif_neg h, if_pos (ind_eq_zero.mp hi)]

/-- The slots depend on the indirect block only. -/
theorem slot_congr (h : i.ind ≠ 0 → blk' i.ind = blk i.ind) (k : Nat) : i.slot blk' k = i.slot blk k := by
  by_cases hk : k < ndirect + 1
  · rw [slot_direct hk, slot_direct hk]
  · by_cases hi : i.ind = 0
    · rw [slot_no_ind hk hi, slot_no_ind hk hi]
    · rw [slot_entry hk hi, slot_entry hk hi, h hi]

theorem content_length : (i.content blk).length = i.size.toNat := by simp [content]

theorem content_getElem? {j : Nat} (h : j < i.size.toNat) : (i.content blk)[j]? = some (i.byte blk j) := by
  simp [content, h]

end InodeData

/-! ## Files and the free map -/

/-- An allocated inode. -/
def Live (sb : Superblock) (I : Nat → InodeData) (n : Nat) : Prop :=
  1 ≤ n ∧ n < sb.ninodes ∧ (I n).type ≠ 0

instance {sb : Superblock} {I : Nat → InodeData} {n : Nat} : Decidable (Live sb I n) :=
  inferInstanceAs (Decidable (_ ∧ _ ∧ _))

/-- The block in a slot of an allocated inode. -/
def Vol.own (sb : Superblock) (v : Vol) (I : Nat → InodeData) (x : Nat × Nat) : Nat :=
  if Live sb I x.1 ∧ x.2 < nslots then (I x.1).slot v.blk x.2 else 0

/-- The free map is exact, no block is used twice, and no file has a hole. -/
structure Vol.Files (sb : Superblock) (v : Vol) (I : Nat → InodeData) : Prop where
  blocks : Allotment sb.datastart sb.size (v.own sb I) (v.bit sb)
  small : ∀ n, Live sb I n → (I n).size.toNat ≤ maxfile * bsize
  filled : ∀ n, Live sb I n → ∀ bn, bn * bsize < (I n).size.toNat → (I n).addr v.blk bn ≠ 0

section Files
variable {sb : Superblock} {v w : Vol} {I J : Nat → InodeData} {n k b : Nat}

theorem Vol.own_eq (hn : Live sb I n) (hk : k < nslots) : v.own sb I (n, k) = (I n).slot v.blk k :=
  if_pos ⟨hn, hk⟩

theorem Vol.own_dead (h : ¬ (Live sb I n ∧ k < nslots)) : v.own sb I (n, k) = 0 := if_neg h

section
variable (h : v.Files sb I) (hn : Live sb I n) (hk : k < nslots)
include h hn hk

theorem Vol.Files.slot_range (hne : (I n).slot v.blk k ≠ 0) : sb.datastart ≤ (I n).slot v.blk k ∧ (I n).slot v.blk k < sb.size := by
  rw [← own_eq hn hk] at hne ⊢
  exact h.blocks.range _ hne

theorem Vol.Files.slot_inj {m j : Nat} (hm : Live sb I m) (hj : j < nslots) (hne : (I n).slot v.blk k ≠ 0)
    (e : (I n).slot v.blk k = (I m).slot v.blk j) : n = m ∧ k = j := by
  rw [← own_eq hn hk] at hne e
  rw [← own_eq hm hj] at e
  exact Prod.mk.inj (h.blocks.inj _ _ hne e)

theorem Vol.Files.slot_used (hne : (I n).slot v.blk k ≠ 0) : v.bit sb ((I n).slot v.blk k) = true := by
  rw [← own_eq hn hk] at hne ⊢
  exact h.blocks.used_own hne
end

/-- A free block is a data block that no file has. -/
theorem Vol.Files.free_block (h : v.Files sb I) (hb : v.bit sb b = false) :
    sb.datastart ≤ b ∧ ∀ n k, Live sb I n → k < nslots → (I n).slot v.blk k ≠ b := by
  obtain ⟨hlo, hno⟩ := h.blocks.fresh hb
  refine ⟨hlo, fun n k hn hk => ?_⟩
  rw [← own_eq hn hk]
  exact hno (n, k)

/-- The free map is below the data. -/
theorem bit_congr (hc : b < sb.size) (h : ∀ x < sb.datastart, sb.bmapstart ≤ x → w.blk x = v.blk x) :
    w.bit sb b = v.bit sb b := by
  unfold Vol.bit
  rw [h _ (Superblock.bblock_lt hc) (Superblock.bmapstart_le_bblock sb b)]

/-! ## Changes -/

/-- The slots of all files are the same after a change of blocks that are not indirect blocks. -/
theorem Vol.own_congr (h : ∀ n, Live sb I n → (I n).ind ≠ 0 → w.blk (I n).ind = v.blk (I n).ind)
    (x : Nat × Nat) : w.own sb I x = v.own sb I x := by
  unfold Vol.own
  by_cases hx : Live sb I x.1 ∧ x.2 < nslots
  · rw [if_pos hx, if_pos hx]
    exact InodeData.slot_congr (h x.1 hx.1) x.2
  · rw [if_neg hx, if_neg hx]

theorem ndirect_lt_nslots : ndirect < nslots := by decide

theorem index_lt {off k : Nat} (h : off < k * bsize) : off / bsize < k :=
  (Nat.div_lt_iff_lt_mul (by decide)).mpr h

/-- The files stay where the indirect blocks and the bitmap do. -/
theorem Vol.Files.keep (h : v.Files sb I) (hsb : sb.Ok)
    (hind : ∀ n, Live sb I n → (I n).ind ≠ 0 → w.blk (I n).ind = v.blk (I n).ind)
    (hmap : ∀ x, sb.bmapstart ≤ x → x < sb.datastart → w.blk x = v.blk x) :
    w.Files sb I ∧ ∀ n, Live sb I n → ∀ k, (I n).slot w.blk k = (I n).slot v.blk k := by
  have hslot : ∀ n, Live sb I n → ∀ k, (I n).slot w.blk k = (I n).slot v.blk k :=
    fun n hn k => InodeData.slot_congr (hind n hn) k
  refine ⟨⟨h.blocks.congr (own_congr hind) (fun b hb => ?_) hsb.data, h.small, fun n hn bn hbn => ?_⟩, hslot⟩
  · exact bit_congr hb fun x hx hx' => hmap x hx' hx
  · have := h.filled n hn bn hbn
    unfold InodeData.addr at this ⊢
    rwa [hslot n hn]

/-- A store to a data block leaves the files as they are, but for their bytes. -/
theorem Vol.Files.store {a : Nat} (h : v.Files sb I) (hsb : sb.Ok) (ha : sb.datastart ≤ a)
    (hind : ∀ n, Live sb I n → (I n).ind ≠ 0 → (I n).ind ≠ a)
    (hw : ∀ x, x ≠ a → w.blk x = v.blk x) : w.Files sb I ∧
      ∀ n, Live sb I n → ∀ k, (I n).slot w.blk k = (I n).slot v.blk k := by
  exact h.keep hsb (fun n hn hi => hw _ (hind n hn hi)) fun x _ hx => hw x (Nat.ne_of_lt (Nat.lt_of_lt_of_le hx ha))

/-- A free block goes into an empty slot. -/
theorem Vol.Files.assign (h : v.Files sb I) (hsb : sb.Ok) (hn : Live sb I n) (hk : k < nslots)
    (hzero : (I n).slot v.blk k = 0) (hb : v.bit sb b = false) (hlt : b < sb.size)
    (hmeta : ∀ m, (J m).type = (I m).type ∧ (J m).size = (I m).size)
    (hbit : ∀ c < sb.size, w.bit sb c = (v.bit sb c || decide (c = b))) (hself : (J n).slot w.blk k = b)
    (hother : ∀ m j, Live sb I m → j < nslots → (m, j) ≠ (n, k) →
      (J m).slot w.blk j = (I m).slot v.blk j) : w.Files sb J := by
  have hlive : ∀ m, Live sb J m ↔ Live sb I m := by
    intro m
    unfold Live
    rw [(hmeta m).1]
  have hown : ∀ x, w.own sb J x = update (v.own sb I) (n, k) b x := by
    intro x
    by_cases e : x = (n, k)
    · rw [e, update_self, own_eq ((hlive n).mpr hn) hk, hself]
    · rw [update_of_ne e]
      by_cases hx : Live sb I x.1 ∧ x.2 < nslots
      · rw [own_eq hx.1 hx.2, own_eq ((hlive x.1).mpr hx.1) hx.2]
        exact hother x.1 x.2 hx.1 hx.2 e
      · rw [own_dead hx, own_dead (fun hx' => hx ⟨(hlive x.1).mp hx'.1, hx'.2⟩)]
  have hblocks := h.blocks.assign (x := (n, k)) (by rw [own_eq hn hk]; exact hzero) hb hlt
  refine ⟨hblocks.congr hown hbit hsb.data, fun m hm => ?_, fun m hm bn hbn => ?_⟩
  · rw [(hmeta m).2]
    exact h.small m ((hlive m).mp hm)
  · have hmI := (hlive m).mp hm
    rw [(hmeta m).2] at hbn
    have hne := h.filled m hmI bn hbn
    have hsmall := h.small m hmI
    have hbn' : bn < maxfile := by
      by_contra hge
      have := Nat.mul_le_mul_right bsize (Nat.le_of_not_lt hge)
      omega
    unfold InodeData.addr at hne ⊢
    have hj : (if bn < ndirect then bn else bn + 1) < nslots := by
      split
      · exact Nat.lt_trans (by assumption) ndirect_lt_nslots
      · exact Nat.succ_lt_succ hbn'
    by_cases e : (m, if bn < ndirect then bn else bn + 1) = (n, k)
    · obtain ⟨e1, e2⟩ := Prod.mk.inj e
      rw [e1, e2, hzero] at hne
      exact absurd rfl hne
    · rwa [hother m _ hmI hj e]

end Files
end Txv6
