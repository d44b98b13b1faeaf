import Txv6.Volume.Cache
import Mathlib.Data.List.Range

/-! # The block allocator on a volume

`Vol.balloc` and `Vol.bfree` say what the allocator is for: the first block whose bit is clear,
and the bit of a block. The code of `fs.c`, with its loops over the free map blocks and the
bits in each of them, does the same to the volume that it runs on.
-/
namespace Txv6
open Lib Lib.Prog Function Finset

def zeroBlock : Block := fun _ => 0

namespace Vol

/-- Whether block `b` is in use according to the free map. -/
def bit (sb : Superblock) (v : Vol) (b : Nat) : Bool := bitAt (v.blk (sb.bblock b)) (b % bpb)

/-- The first free block. -/
def free (sb : Superblock) (v : Vol) : Option Nat := (List.range sb.size).find? fun b => !v.bit sb b

/-- Block `b` is marked and zeroed. -/
def take (sb : Superblock) (v : Vol) (b : Nat) : Vol :=
  (v.put (sb.bblock b) (setBit (v.blk (sb.bblock b)) (b % bpb))).put b zeroBlock

/-- The block number, or 0 when the disk is full. -/
def balloc (sb : Superblock) (v : Vol) : Nat × Vol :=
  match v.free sb with
  | none => (0, v)
  | some b => (b, v.take sb b)

def bfree (sb : Superblock) (v : Vol) (b : Nat) : Vol :=
  v.put (sb.bblock b) (clearBit (v.blk (sb.bblock b)) (b % bpb))

variable {sb : Superblock} {v : Vol} {b : Nat}

theorem free_eq_some : v.free sb = some b ↔
    b < sb.size ∧ v.bit sb b = false ∧ ∀ c < b, v.bit sb c = true := by
  unfold free
  rw [List.find?_range_eq_some]
  simp only [Bool.not_eq_true', List.mem_range, Bool.not_not]
  tauto

theorem free_eq_none : v.free sb = none ↔ ∀ b < sb.size, v.bit sb b = true := by
  unfold free
  simp [List.find?_eq_none]

end Vol

/-! ## Bits -/

/-- The mask of a bit, within its byte. -/
theorem mask_getLsbD {i j : Nat} (e : j / 8 = i / 8) : (1#8 <<< (i % 8)).getLsbD (j % 8) = decide (i = j) := by
  rw [BitVec.getLsbD_shiftLeft]
  have hj : j % 8 < 8 := Nat.mod_lt j (by decide)
  by_cases ei : i = j
  · subst ei
    simp [hj]
  · have hne : i % 8 ≠ j % 8 := by omega
    rw [decide_eq_false ei]
    simp only [hj, decide_true, Bool.true_and]
    by_cases hlt : j % 8 < i % 8
    · simp [hlt]
    · have hpos : j % 8 - i % 8 ≠ 0 := by omega
      simp [hlt, BitVec.getLsbD_one, hpos]

theorem setBit_bitAt (x : Block) (i j : Nat) : bitAt (setBit x i) j = (bitAt x j || decide (i = j)) := by
  unfold bitAt setBit
  by_cases e : j / 8 = i / 8
  · rw [e, update_self, BitVec.getLsbD_or, mask_getLsbD e]
  · rw [update_of_ne e]
    have hne : i ≠ j := fun h => e (by rw [h])
    simp [hne]

theorem clearBit_bitAt (x : Block) (i j : Nat) : bitAt (clearBit x i) j = (bitAt x j && !decide (i = j)) := by
  unfold bitAt clearBit
  by_cases e : j / 8 = i / 8
  · rw [e, update_self, BitVec.getLsbD_and, BitVec.getLsbD_not, mask_getLsbD e]
    simp [Nat.mod_lt j (show 0 < 8 by decide)]
  · rw [update_of_ne e]
    have hne : i ≠ j := fun h => e (by rw [h])
    simp [hne]

/-! ## The code -/

namespace Carries
variable {p : ProcPtr} {D : Finset BufPtr} {v : Vol} {s : Kernel} {b : BufPtr} {n : Nat}
  {E : Err → Kernel → Prop} {Q : Unit → Kernel → Prop}

theorem bzero (h : Carries p D ∅ v s) (hn : ∀ b ∈ D, (s.buf b).blockno ≠ n)
    (hop : 1 ≤ s.log.outstanding) (hroom : D.card + v.lh.length < nbuf ∨ ∀ e t, E e t)
    (hQ : ∀ t, Carries p D ∅ (v.put n zeroBlock) t → Still D s t → Q () t) :
    ends (bzero p rootdev n) Q E s := by
  unfold Txv6.bzero
  rw [ends_bind]
  refine h.bread hn (by simp) (hroom.imp_left .inr) fun b t₁ hb h₁ st₁ b₁ => ?_
  rw [ends_bind]
  refine h₁.bdata ?_
  unfold setBfield
  rw [ends_bind, ends_update, ends_bind]
  have hop₁ : 1 ≤ t₁.log.outstanding := by rw [st₁.outstanding]; exact hop
  refine h₁.put (f := fun _ => zeroBlock) (mem_insert_self b D) rfl b₁ hop₁
    (hroom.imp_left fun hr => ?_) fun t₂ h₂ st₂ _ => ?_
  · exact Nat.lt_of_le_of_lt (Nat.le_add_left _ _) hr
  refine h₂.brelse hb fun t₃ h₃ st₃ _ => ?_
  exact hQ t₃ h₃ (st₁.trans ((st₂.mono (subset_insert b D)).trans st₃))

/-- The search in one free map block. -/
theorem ballocScan {Q : Option Nat → Kernel → Prop} {size base : Nat} (h : Carries p D ∅ v s)
    (hb : b ∈ D) (hblk : (s.buf b).blockno = n) (hop : 1 ≤ s.log.outstanding)
    (hroom : v.lh.length < logblocks ∨ ∀ e t, E e t)
    (hnone : (∀ j < bpb, base + j < size → bitAt (v.blk n) j = true) → Q none s)
    (hsome : ∀ j t, j < bpb → base + j < size → bitAt (v.blk n) j = false →
      (∀ i < j, bitAt (v.blk n) i = true) → Carries p D ∅ (v.put n (setBit (v.blk n) j)) t →
      Still D s t → Q (some j) t) :
    ∀ fuel i, fuel + i = bpb → (∀ j < i, bitAt (v.blk n) j = true) →
      ends (ballocScan p size base b fuel i) Q E s
  | 0, i, hfuel, hset => by
    unfold Txv6.ballocScan
    refine hnone fun j hj _ => hset j (by omega)
  | fuel + 1, i, hfuel, hset => by
    unfold Txv6.ballocScan
    by_cases hi : i < bpb ∧ base + i < size
    swap
    · rw [if_neg hi, ends_pure]
      refine hnone fun j hj hsz => hset j ?_
      omega
    have hbytes : ((s.heap (s.buf b).data).bytes : Block) = v.blk n := by
      rw [← hblk]
      exact h.bytes hb
    rw [if_pos hi, ends_bind]
    refine h.bdata ?_
    unfold bfield
    rw [ends_bind, ends_read, hbytes]
    cases hbit : bitAt (v.blk n) i with
    | true =>
      rw [if_neg (by simp [hbit])]
      refine ballocScan h hb hblk hop hroom hnone hsome fuel (i + 1) (by omega) fun j hj => ?_
      rcases Nat.lt_succ_iff_lt_or_eq.mp hj with hlt | rfl
      · exact hset j hlt
      · exact hbit
    | false =>
      rw [if_pos (by simp [hbit]), ends_bind]
      refine h.bdata ?_
      unfold setBfield
      rw [ends_bind, ends_update, ends_bind]
      refine h.put (f := fun x => setBit x i) hb rfl hblk hop hroom fun t ht hst _ => ?_
      exact hsome i t hi.1 hi.2 hbit hset ht hst

/-- The blocks in hand are not those that the allocator works on. -/
def Spared (D : Finset BufPtr) (v : Vol) (s : Kernel) : Prop :=
  ∀ b ∈ D, v.bit s.sb (s.buf b).blockno = true ∧ ∀ n < s.sb.size, (s.buf b).blockno ≠ s.sb.bblock n

theorem ballocLoop {Q : Nat → Kernel → Prop} (hfree : Spared D v s) (hop : 1 ≤ s.log.outstanding)
    (hroom : D.card + (v.balloc s.sb).2.lh.length < nbuf ∨ ∀ e t, E e t)
    (hQ : ∀ t, Carries p D ∅ (v.balloc s.sb).2 t → Still D s t → Q (v.balloc s.sb).1 t) :
    ∀ fuel k t, s.sb.size < k * bpb + fuel → (∀ c < k * bpb, c < s.sb.size → v.bit s.sb c = true) →
      Carries p D ∅ v t → Still D s t →
      ends (ballocLoop p rootdev s.sb.size fuel (k * bpb)) Q E t := by
  have hlen : v.lh.length ≤ (v.balloc s.sb).2.lh.length := by
    unfold Vol.balloc
    split
    · exact Nat.le_refl _
    · exact Nat.le_trans Vol.put_length Vol.put_length
  -- all blocks are in use
  have full : ∀ t, (∀ c < s.sb.size, v.bit s.sb c = true) → Carries p D ∅ v t → Still D s t → Q 0 t := by
    intro t hall ht hst
    have hb : v.balloc s.sb = (0, v) := by
      unfold Vol.balloc
      rw [Vol.free_eq_none.mpr hall]
    rw [hb] at hQ
    exact hQ t ht hst
  intro fuel
  induction fuel with
  | zero =>
    intro k t hk hset ht hst
    unfold Txv6.ballocLoop
    exact full t (fun c hc => hset c (by omega) hc) ht hst
  | succ fuel ih =>
    intro k t hk hset ht hst
    unfold Txv6.ballocLoop
    by_cases hlt : k * bpb < s.sb.size
    swap
    · rw [if_neg hlt, ends_pure]
      exact full t (fun c hc => hset c (by omega) hc) ht hst
    have hblock : ∀ j < bpb, s.sb.bblock (k * bpb + j) = k + s.sb.bmapstart := by
      intro j hj
      unfold Superblock.bblock
      rw [Nat.mul_comm, Nat.mul_add_div (by decide), Nat.div_eq_of_lt hj, Nat.add_zero]
    have hbit : ∀ j < bpb, v.bit s.sb (k * bpb + j) = bitAt (v.blk (k + s.sb.bmapstart)) j := by
      intro j hj
      unfold Vol.bit
      rw [hblock j hj, Nat.mul_comm k, Nat.mul_add_mod, Nat.mod_eq_of_lt hj]
    have hblk0 : s.sb.bblock (k * bpb) = k + s.sb.bmapstart := by
      rw [← Nat.add_zero (k * bpb)]
      exact hblock 0 (by decide)
    rw [if_pos hlt, ends_bind, ends_read, hst.sb, hblk0, ends_bind]
    have hroomv : D.card + v.lh.length < nbuf ∨ ∀ e t, E e t := hroom.imp_left fun hr => by omega
    refine ht.bread (fun c hc => ?_) (by simp) (hroomv.imp_left .inr) fun b t₁ hb h₁ st₁ b₁ => ?_
    · rw [hst.held c hc, ← hblk0]
      exact (hfree c hc).2 _ hlt
    have hbD := mem_insert_self b D
    have hop₁ : 1 ≤ t₁.log.outstanding := by rw [st₁.outstanding, hst.outstanding]; exact hop
    rw [ends_bind]
    refine h₁.ballocScan hbD b₁ hop₁
      (hroomv.imp_left fun hr => Nat.lt_of_le_of_lt (Nat.le_add_left _ _) hr) ?_ ?_ bpb 0 (Nat.add_zero _)
      fun j hj => absurd hj (Nat.not_lt_zero j)
    · -- no free block in this one
      intro hall
      change ends (Txv6.brelse p b >>= _) Q E t₁
      rw [ends_bind]
      refine h₁.brelse hb fun t₂ h₂ st₂ _ => ?_
      have hmul : (k + 1) * bpb = k * bpb + bpb := Nat.succ_mul k bpb
      have hpos : 0 < bpb := by decide
      have hset' : ∀ c < (k + 1) * bpb, c < s.sb.size → v.bit s.sb c = true := by
        intro c hc hsz
        by_cases hck : c < k * bpb
        · exact hset c hck hsz
        · obtain ⟨j, rfl⟩ := Nat.exists_eq_add_of_le (Nat.le_of_not_lt hck)
          have hj : j < bpb := by omega
          rw [hbit j hj]
          exact hall j hj hsz
      have hfuel : s.sb.size < (k + 1) * bpb + fuel := by
        refine Nat.lt_of_lt_of_le hk ?_
        rw [hmul, Nat.add_assoc, Nat.add_comm fuel 1]
        exact Nat.add_le_add_left (Nat.add_le_add_right hpos fuel) _
      have hnext := ih (k + 1) t₂ hfuel hset' h₂ (hst.trans (st₁.trans st₂))
      rwa [hmul] at hnext
    · intro j t₂ hj hsz hclear hbelow h₂ st₂
      have hfreej : v.free s.sb = some (k * bpb + j) := by
        refine Vol.free_eq_some.mpr ⟨hsz, by rw [hbit j hj]; exact hclear, fun c hc => ?_⟩
        by_cases hck : c < k * bpb
        · exact hset c hck (by omega)
        · obtain ⟨i, rfl⟩ := Nat.exists_eq_add_of_le (Nat.le_of_not_lt hck)
          rw [hbit i (by omega)]
          exact hbelow i (by omega)
      have hball : v.balloc s.sb = (k * bpb + j, v.take s.sb (k * bpb + j)) := by
        unfold Vol.balloc
        rw [hfreej]
      rw [hball] at hQ hroom
      have htake : v.take s.sb (k * bpb + j) =
          (v.put (k + s.sb.bmapstart) (setBit (v.blk (k + s.sb.bmapstart)) j)).put (k * bpb + j) zeroBlock := by
        unfold Vol.take
        rw [hblock j hj, Nat.mul_comm k, Nat.mul_add_mod, Nat.mod_eq_of_lt hj]
      change ends (Txv6.brelse p b >>= _) Q E t₂
      rw [ends_bind]
      refine h₂.brelse hb fun t₃ h₃ st₃ _ => ?_
      have st := hst.trans (st₁.trans ((st₂.mono (subset_insert b D)).trans st₃))
      rw [ends_bind]
      refine h₃.bzero (fun c hc e => ?_) (by rw [st.outstanding]; exact hop) (hroom.imp_left fun hr => ?_)
        fun t₄ h₄ st₄ => ?_
      · -- a block in hand is in use
        have hused := (hfree c hc).1
        rw [← st.held c hc, e, hbit j hj, hclear] at hused
        cases hused
      · rw [htake] at hr
        have := Vol.put_length (v := v.put (k + s.sb.bmapstart) (setBit (v.blk (k + s.sb.bmapstart)) j))
          (n := k * bpb + j) (x := zeroBlock)
        dsimp only at hr
        omega
      · rw [← htake] at h₄
        exact hQ t₄ h₄ (st.trans st₄)

/-- **`balloc`** takes the first free block. -/
theorem balloc {Q : Nat → Kernel → Prop} (h : Carries p D ∅ v s) (hfree : Spared D v s)
    (hop : 1 ≤ s.log.outstanding) (hroom : D.card + (v.balloc s.sb).2.lh.length < nbuf ∨ ∀ e t, E e t)
    (hQ : ∀ t, Carries p D ∅ (v.balloc s.sb).2 t → Still D s t → Q (v.balloc s.sb).1 t) :
    ends (balloc p rootdev) Q E s := by
  unfold Txv6.balloc
  rw [ends_bind, ends_read]
  have hloop := ballocLoop hfree hop hroom hQ (s.sb.size + 1) 0 s (by omega)
    (fun c hc => absurd hc (by omega)) h (.refl D s)
  rwa [Nat.zero_mul] at hloop

/-- **`bfree`** clears the bit of a block in use. -/
theorem bfree (h : Carries p D ∅ v s)
    (hn : ∀ b ∈ D, (s.buf b).blockno ≠ s.sb.bblock n) (hbit : v.bit s.sb n = true)
    (hop : 1 ≤ s.log.outstanding) (hroom : D.card + v.lh.length < nbuf ∨ ∀ e t, E e t)
    (hQ : ∀ t, Carries p D ∅ (v.bfree s.sb n) t → Still D s t → Q () t) : ends (bfree p rootdev n) Q E s := by
  unfold Txv6.bfree
  rw [ends_bind, ends_read, ends_bind]
  refine h.bread hn (by simp) (hroom.imp_left .inr) fun b t₁ hb h₁ st₁ b₁ => ?_
  have hbD := mem_insert_self b D
  have hbytes : ((t₁.heap (t₁.buf b).data).bytes : Block) = v.blk (s.sb.bblock n) := by
    rw [← b₁]
    exact h₁.bytes hbD
  rw [ends_bind]
  refine h₁.bdata ?_
  unfold kassert
  rw [ends_bind, ends_check, hbytes, if_pos (show bitAt _ _ = true from hbit), ends_bind]
  refine h₁.bdata ?_
  unfold setBfield
  rw [ends_bind, ends_update, ends_bind]
  have hop₁ : 1 ≤ t₁.log.outstanding := by rw [st₁.outstanding]; exact hop
  refine h₁.put (f := fun x => clearBit x (n % bpb)) hbD rfl b₁ hop₁ (hroom.imp_left fun hr => ?_) fun t₂ h₂ st₂ _ => ?_
  · exact Nat.lt_of_le_of_lt (Nat.le_add_left _ _) hr
  refine h₂.brelse hb fun t₃ h₃ st₃ _ => ?_
  exact hQ t₃ h₃ (st₁.trans ((st₂.mono (subset_insert b D)).trans st₃))

end Carries
end Txv6
