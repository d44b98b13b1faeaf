import Txv6.Image
import Txv6.Volume.Dinodes

/-! # A volume with a file on it

A root directory, a file `/a` of 31 blocks and an empty file `/b`, on a kernel that has just
been started.
-/
namespace Txv6

/-! ## A cold cache -/

/-- A kernel that has not read a block yet represents its disk. -/
theorem carries_cold {s : Kernel} {p : ProcPtr} (hpages : ∀ b c, (s.buf b).data = (s.buf c).data → b = c)
    (hlru : s.lru = List.finRange nbuf) (hcold : ∀ b, (s.buf b).dev = 0 ∧ (s.buf b).refcnt = 0 ∧
      (s.buf b).lock.locked = false) (htx : s.txActive p = false) (hlog : s.log.lh = []) :
    Carries p ∅ ∅ ⟨s.disk, []⟩ s := by
  have hnone : ∀ b n, ¬ s.Holds b n := by
    intro b n hb
    have := (hcold b).1.symm.trans hb.dev
    cases this
  have hlisted : ∀ b, b ∈ s.lru := fun b => by rw [hlru]; exact List.mem_finRange b
  have hcache : s.CacheOk := ⟨hpages, hlisted, fun b _ hb => by rw [(hcold b).1] at hb; cases hb⟩
  refine ⟨⟨hcache, ?_, htx, fun n => ?_, fun b => ?_, fun b _ => (hcold b).2.2, ?_, ?_, ?_, ?_, ?_⟩, hlog⟩
  · rw [hlru]
    exact List.nodup_finRange _
  · exact blk_of_none (hnone · n)
  · rw [(hcold b).2.1]
    simp
  · simp
  · simp
  · exact fun b _ n hb => absurd hb (hnone b n)
  · simp
  · exact List.nodup_nil

namespace Sample
open Image (superblock rootInode emptyFile rootBlock)

/-! ## The disk -/

/-- Slot `k` of this file is block `48 + k`, for all of its 32 blocks. -/
def bigFile : InodeData := ⟨tFile, 0, 0, 1, 31744, fun k => BitVec.ofNat 32 (48 + k)⟩

def indirect : Block := fun i => if i % 4 = 0 ∧ i < 76 then BitVec.ofNat 8 (61 + i / 4) else 0

def inodeBlock : Block :=
  putBytes (putBytes (putBytes (fun _ => 0) (dinodeOff 1) rootInode.bytes)
    (dinodeOff 2) bigFile.bytes) (dinodeOff 3) emptyFile.bytes

/-- Blocks 0 to 79 are in use. -/
def bitmap : Block := fun i => if i < 10 then 0xff else 0

def disk : Nat → Block
  | 33 => inodeBlock
  | 46 => bitmap
  | 47 => rootBlock
  | 60 => indirect
  | _ => fun _ => 0

def vol : Vol := ⟨disk, []⟩

/-- The inodes of the disk. -/
def inodes : Nat → InodeData
  | 1 => rootInode
  | 2 => bigFile
  | 3 => emptyFile
  | _ => .zero

theorem superblock_ok : superblock.Ok := ⟨by decide, by decide, by decide, by decide⟩

theorem live_iff {n : Nat} : Live superblock inodes n ↔ n = 1 ∨ n = 2 ∨ n = 3 := by
  unfold Live
  constructor
  · rintro ⟨_, _, h⟩
    by_contra hn
    rw [not_or, not_or] at hn
    refine h ?_
    unfold inodes
    split <;> simp_all [InodeData.zero]
  · rintro (rfl | rfl | rfl) <;> decide

theorem bit_iff {b : Nat} (hb : b < superblock.size) : vol.bit superblock b = decide (b < 80) := by
  have hsize : superblock.size = 2000 := rfl
  have hblk : superblock.bblock b = 46 := by
    show b / bpb + 46 = 46
    rw [Nat.div_eq_of_lt]
    exact Nat.lt_trans hb (by decide)
  have hmod : b % bpb = b := Nat.mod_eq_of_lt (Nat.lt_trans hb (by decide))
  unfold Vol.bit
  rw [hblk, hmod]
  show bitAt bitmap b = _
  unfold bitAt bitmap
  by_cases h : b < 80
  · rw [if_pos (by omega), decide_eq_true h]
    have hbits : ∀ k < 8, (0xff : UChar).getLsbD k = true := by decide
    exact hbits _ (Nat.mod_lt b (by decide))
  · rw [if_neg (by omega), decide_eq_false h]
    simp

/-! ## The blocks of the files -/

theorem indirect_entry (e : Nat) : (le32 indirect (4 * e)).toNat = if e < 19 then 61 + e else 0 := by
  have hzero : ∀ k, (4 * e + k) % 4 ≠ 0 → indirect (4 * e + k) = 0 := fun k hk => if_neg fun h => hk h.1
  have h0 : indirect (4 * e) = if e < 19 then BitVec.ofNat 8 (61 + e) else 0 := by
    unfold indirect
    rw [Nat.mul_div_cancel_left e (by decide)]
    by_cases he : e < 19
    · rw [if_pos he, if_pos (by omega)]
    · rw [if_neg he, if_neg (by omega)]
  unfold le32
  rw [hzero 3 (by omega), hzero 2 (by omega), hzero 1 (by omega), h0]
  by_cases he : e < 19
  · rw [if_pos he, if_pos he]
    simp only [BitVec.toNat_append, BitVec.toNat_ofNat]
    rw [Nat.mod_eq_of_lt (show 61 + e < 2 ^ 8 by omega)]
    simp
  · rw [if_neg he, if_neg he]
    rfl

theorem bigFile_slot (k : Nat) : bigFile.slot disk k = if k < 32 then 48 + k else 0 := by
  by_cases hk : k < ndirect + 1
  · have hk : k < 13 := hk
    rw [InodeData.slot_direct hk, if_pos (by omega)]
    show (BitVec.ofNat 32 (48 + k)).toNat = 48 + k
    rw [BitVec.toNat_ofNat, Nat.mod_eq_of_lt (by omega)]
  · have hind : bigFile.ind = 60 := rfl
    rw [InodeData.slot_entry hk (by rw [hind]; decide), hind]
    show (le32 indirect (4 * (k - 13))).toNat = _
    have hk : ¬ k < 13 := hk
    rw [indirect_entry]
    by_cases h : k < 32
    · rw [if_pos h, if_pos (by omega)]
      omega
    · rw [if_neg h, if_neg (by omega)]

/-- A file of one block. -/
theorem slot_first {i : InodeData} {blk : Nat → Block} {a : Uint} (h : i.addrs = fun k => if k = 0 then a else 0)
    (k : Nat) : i.slot blk k = if k = 0 then a.toNat else 0 := by
  by_cases hk : k < ndirect + 1
  · rw [InodeData.slot_direct hk, h]
    by_cases h0 : k = 0
    · subst h0
      rfl
    · simp [h0, Fin.ext_iff]
  · have hi : i.ind = 0 := by
      rw [InodeData.ind_eq_zero, h]
      rfl
    rw [InodeData.slot_no_ind hk hi, if_neg]
    rintro rfl
    exact hk (by decide)

theorem rootInode_slot (k : Nat) : rootInode.slot disk k = if k = 0 then 47 else 0 := slot_first (a := 47) rfl k

theorem emptyFile_slot (k : Nat) : emptyFile.slot disk k = 0 := by
  by_cases hk : k < ndirect + 1
  · rw [InodeData.slot_direct hk]
    rfl
  · rw [InodeData.slot_no_ind hk rfl]

theorem own_iff (x : Nat × Nat) : vol.own superblock inodes x =
    if x = (1, 0) then 47 else if x.1 = 2 ∧ x.2 < 32 then 48 + x.2 else 0 := by
  obtain ⟨n, k⟩ := x
  unfold Vol.own
  by_cases h : Live superblock inodes n ∧ k < nslots
  · rw [if_pos h]
    rcases live_iff.mp h.1 with rfl | rfl | rfl
    · exact (rootInode_slot k).trans (by simp)
    · exact (bigFile_slot k).trans (by simp)
    · exact (emptyFile_slot k).trans (by simp)
  · have hn : n = 1 ∨ n = 2 ∨ n = 3 → ¬ k < 269 := fun hn hk => h ⟨live_iff.mpr hn, hk⟩
    rw [if_neg h, if_neg, if_neg]
    · rintro ⟨rfl, hk⟩
      exact hn (.inr (.inl rfl)) (by dsimp only at hk; omega)
    · intro e
      obtain ⟨rfl, rfl⟩ := Prod.mk.inj e
      exact hn (.inl rfl) (by decide)

/-- The holders of blocks, apart. -/
theorem own_cases (x : Nat × Nat) : (x = (1, 0) ∧ vol.own superblock inodes x = 47) ∨
    (x.1 = 2 ∧ x.2 < 32 ∧ vol.own superblock inodes x = 48 + x.2) ∨ vol.own superblock inodes x = 0 := by
  rw [own_iff]
  by_cases h1 : x = (1, 0)
  · exact .inl ⟨h1, if_pos h1⟩
  · rw [if_neg h1]
    by_cases h2 : x.1 = 2 ∧ x.2 < 32
    · exact .inr (.inl ⟨h2.1, h2.2, if_pos h2⟩)
    · exact .inr (.inr (if_neg h2))

/-- **The volume is in order.** -/
theorem files : vol.Files superblock inodes := by
  have hdata : superblock.datastart = 47 := rfl
  have hsize : superblock.size = 2000 := rfl
  refine ⟨⟨by decide, fun x hx => ?_, fun x y hx e => ?_, fun b h1 h2 => ?_, fun b hb => ?_⟩, fun n hn => ?_,
    fun n hn bn hbn => ?_⟩
  · rcases own_cases x with ⟨_, h⟩ | ⟨_, _, h⟩ | h <;> omega
  · rcases own_cases x with ⟨hx1, h⟩ | ⟨hx1, hx2, h⟩ | h
    · rcases own_cases y with ⟨hy1, h'⟩ | ⟨hy1, hy2, h'⟩ | h'
      · rw [hx1, hy1]
      · omega
      · omega
    · rcases own_cases y with ⟨hy1, h'⟩ | ⟨hy1, hy2, h'⟩ | h'
      · omega
      · exact Prod.ext (hx1.trans hy1.symm) (by omega)
      · omega
    · exact absurd h hx
  · rw [bit_iff h2, decide_eq_true_iff]
    constructor
    · intro hb
      by_cases h47 : b = 47
      · exact ⟨(1, 0), by rw [own_iff, h47]; rfl⟩
      · refine ⟨(2, b - 48), ?_⟩
        rw [own_iff, if_neg (by simp), if_pos ⟨rfl, by dsimp only; omega⟩]
        dsimp only
        omega
    · rintro ⟨x, rfl⟩
      rcases own_cases x with ⟨_, h⟩ | ⟨_, _, h⟩ | h <;> omega
  · rw [bit_iff (by omega), decide_eq_true_iff]
    omega
  · rcases live_iff.mp hn with rfl | rfl | rfl <;> decide
  · rcases live_iff.mp hn with rfl | rfl | rfl
    · have h64 : rootInode.size.toNat = 64 := rfl
      have hbn : bn * 1024 < rootInode.size.toNat := hbn
      have : bn = 0 := by omega
      subst this
      decide
    · have hs : bigFile.size.toNat = 31744 := rfl
      have hbn : bn * 1024 < bigFile.size.toNat := hbn
      show bigFile.slot disk _ ≠ 0
      rw [bigFile_slot]
      have : bn < 31 := by omega
      split <;> split <;> omega
    · exact absurd hbn (Nat.not_lt_zero _)

/-! ## A kernel that has the file open -/

/-- Process 0 is in an operation and has `/a` locked; nothing has been read but its inode. -/
def kernel : Kernel :=
  { Image.booted with
    disk := disk
    inode := fun ip => if ip = 1 then
      { dev := rootdev, inum := 2, ref := 1, valid := true, data := some 201, lock := ⟨true, 1⟩ }
      else Image.booted.inode ip
    heap := fun q => if q = 201 then { ino := bigFile, bytes := fun _ => 0 } else Image.booted.heap q
    log := { outstanding := 1 } }

theorem kernel_carries : Carries 0 ∅ ∅ vol kernel := by
  have hpages : ∀ b c, (kernel.buf b).data = (kernel.buf c).data → b = c :=
    fun b c e => Fin.ext (Nat.add_left_cancel e)
  have htx : kernel.txActive 0 = false := Image.booted_inactive 0
  exact carries_cold hpages rfl (fun _ => ⟨rfl, rfl, rfl⟩) htx rfl

theorem kernel_inode : kernel.InodeAt 1 201 (inodes 2) where
  dev := rfl
  data := rfl
  apart b := by
    show 100 + (b : Nat) ≠ 201
    have : (b : Nat) < 30 := b.2
    omega
  ino := rfl

end Sample
end Txv6
