import Txv6.Volume.Contents

/-! # What a write costs in the log

Each round of `writei` logs at most two blocks, the bit and the block, and the file as a whole
at most two more for its indirect block.
-/
namespace Txv6
open Lib Function

namespace Vol
variable {sb : Superblock} {v w : Vol} {i : InodeData} {n bn b x : Nat} {y : Block} {k : Fin (ndirect + 1)}

/-! ## What the steps add to the log -/

theorem put_lh_of_mem (h : n ∈ v.lh) : (v.put n y).lh = v.lh := by
  rw [put_lh, if_pos h]

theorem mem_put_self : n ∈ (v.put n y).lh := mem_put.mpr (.inr rfl)

theorem take_length_le (sb : Superblock) (v : Vol) (b : Nat) : (v.take sb b).lh.length ≤ v.lh.length + 2 :=
  Nat.le_trans put_length_le (Nat.succ_le_succ put_length_le)

theorem mem_take_self : b ∈ (v.take sb b).lh := mem_put_self

theorem mem_take (h : x ∈ v.lh) : x ∈ (v.take sb b).lh := mem_put.mpr (.inl (mem_put.mpr (.inl h)))

/-- The blocks that are set aside for the indirect block: its bit and itself. -/
def owed (v : Vol) (i : InodeData) : Nat := if i.ind ≠ 0 ∧ i.ind ∈ v.lh then 0 else 2

theorem owed_le : v.owed i ≤ 2 := by
  unfold owed
  split <;> omega

theorem owed_of_mem (h0 : i.ind ≠ 0) (h : i.ind ∈ v.lh) : v.owed i = 0 := if_pos ⟨h0, h⟩

theorem owed_of_zero (h : i.ind = 0) : v.owed i = 2 := if_neg fun h' => h'.1 h

/-- A longer log owes no more. -/
theorem owed_mono {j : InodeData} (hi : j.ind = i.ind) (h : ∀ x ∈ v.lh, x ∈ w.lh) : w.owed j ≤ v.owed i := by
  by_cases hv : i.ind ≠ 0 ∧ i.ind ∈ v.lh
  · rw [owed_of_mem (by rw [hi]; exact hv.1) (by rw [hi]; exact h _ hv.2)]
    exact Nat.zero_le _
  · rw [show v.owed i = 2 from if_neg hv]
    exact owed_le

/-! ## The block map -/

section Bmap
variable {I : Nat → InodeData}

/-- A new block in an address slot costs its bit and itself. -/
theorem bmapSlot_cost (h : v.Files sb I) (h0 : i.addrs k = 0) :
    v.bmapSlot sb i k = (0, v, i) ∨ ∃ b, b ≠ 0 ∧ b < sb.size ∧ v.bit sb b = false ∧ v.bmapSlot sb i k =
      (b, v.take sb b, { i with addrs := update i.addrs k (BitVec.ofNat 32 b) }) := by
  unfold bmapSlot
  rw [if_neg (not_not.mpr h0)]
  dsimp only
  rcases balloc_cases h with ⟨_, hr⟩ | ⟨b, hbit, hlt, hb, hr⟩
  · rw [hr]
    exact .inl rfl
  · rw [hr, if_neg hb]
    exact .inr ⟨b, hb, hlt, hbit, rfl⟩

/-- A new block named by the indirect block costs its bit, itself and the indirect block. -/
theorem bmapEntry_cost (h : v.Files sb I) {ind e : Nat} (h0 : le32 (v.blk ind) (4 * e) = 0) :
    v.bmapEntry sb ind e = (0, v) ∨ ((v.bmapEntry sb ind e).1 ∈ (v.bmapEntry sb ind e).2.lh ∧
      ind ∈ (v.bmapEntry sb ind e).2.lh ∧ (v.bmapEntry sb ind e).2.lh.length ≤ v.lh.length + 3 ∧
      (ind ∈ v.lh → (v.bmapEntry sb ind e).2.lh.length ≤ v.lh.length + 2)) := by
  unfold bmapEntry
  rw [if_neg (not_not.mpr h0)]
  dsimp only
  rcases balloc_cases h with ⟨_, hr⟩ | ⟨b, _, _, hb, hr⟩
  · rw [hr]
    exact .inl rfl
  · rw [hr, if_neg hb]
    refine .inr ⟨mem_put.mpr (.inl mem_take_self), mem_put_self, ?_, fun hmem => ?_⟩
    · exact Nat.le_trans put_length_le (Nat.succ_le_succ (take_length_le sb v b))
    · rw [put_lh_of_mem (mem_take hmem)]
      exact take_length_le sb v b

theorem ind_update (hk : k ≠ Fin.last ndirect) (x : Uint) :
    ({ i with addrs := update i.addrs k x } : InodeData).ind = i.ind :=
  congrArg BitVec.toNat (update_of_ne hk.symm _ _)

/-- **A block that is missing** costs two, if what the indirect block costs has been set aside. -/
theorem bmap_cost (h : v.Files sb I) (hsb : sb.Ok) (hn : Live sb I n) (h0 : (I n).addr v.blk bn = 0) :
    (v.bmap sb (I n) bn).2.1.lh.length + (v.bmap sb (I n) bn).2.1.owed (v.bmap sb (I n) bn).2.2 ≤
      v.lh.length + v.owed (I n) + 2 ∧
    ((v.bmap sb (I n) bn).1 ≠ 0 → (v.bmap sb (I n) bn).1 ∈ (v.bmap sb (I n) bn).2.1.lh) := by
  unfold InodeData.addr at h0
  unfold bmap
  by_cases hd : bn < ndirect
  · simp only [if_pos hd, dif_pos hd] at h0 ⊢
    rw [InodeData.slot_direct (by omega)] at h0
    rcases bmapSlot_cost h (BitVec.eq_of_toNat_eq h0) with hr | ⟨b, hb, _, _, hr⟩
    · rw [hr]
      exact ⟨by dsimp only; omega, fun hne => absurd rfl hne⟩
    · rw [hr]
      dsimp only
      have hne : (⟨bn, by omega⟩ : Fin (ndirect + 1)) ≠ Fin.last ndirect :=
        fun e => Nat.ne_of_lt hd (congrArg Fin.val e)
      have hind := ind_update (i := I n) hne (BitVec.ofNat 32 b)
      generalize ({ I n with addrs := update (I n).addrs ⟨bn, by omega⟩ (BitVec.ofNat 32 b) } :
        InodeData) = j at hind ⊢
      have hown := owed_mono (w := v.take sb b) hind fun x hx => mem_take hx
      have hlen := take_length_le sb v b
      exact ⟨by omega, fun _ => mem_take_self⟩
  simp only [if_neg hd, dif_neg hd] at h0 ⊢
  have hbig : ¬ bn + 1 < ndirect + 1 := by omega
  by_cases hind : (I n).ind = 0
  · -- the indirect block is new as well
    obtain ⟨hg, _, hslot⟩ := bmapSlot_grown h hsb hn (Fin.last ndirect)
    rcases bmapSlot_cost h (InodeData.ind_eq_zero.mp hind) with hr | ⟨b, hb, hlt, _, hr⟩
    · rw [hr, if_pos rfl]
      exact ⟨by dsimp only; omega, fun hne => absurd rfl hne⟩
    rw [hr] at hg hslot
    rw [hr, if_neg hb]
    dsimp only at hg hslot ⊢
    generalize hi : ({ I n with addrs := update (I n).addrs (Fin.last ndirect) (BitVec.ofNat 32 b) } :
      InodeData) = i at hg hslot ⊢
    have hiind : i.ind = b := by
      rw [← InodeData.slot_ind (v.take sb b).blk]
      exact hslot hb
    have hentry : le32 ((v.take sb b).blk b) (4 * (bn - ndirect)) = 0 := by
      rw [take_blk_self]
      exact le32_zeroBlock _
    have hlen := take_length_le sb v b
    rw [owed_of_zero hind]
    rcases bmapEntry_cost hg.files hentry with hr | ⟨h1, h2, _, h4⟩
    · rw [hr]
      dsimp only
      rw [owed_of_mem (by rw [hiind]; exact hb) (by rw [hiind]; exact mem_take_self)]
      exact ⟨by omega, fun hne => absurd rfl hne⟩
    · have h4 := h4 mem_take_self
      rw [owed_of_mem (by rw [hiind]; exact hb) (by rw [hiind]; exact h2)]
      exact ⟨by omega, fun _ => h1⟩
  · have hlast : (I n).slot v.blk (Fin.last ndirect) = (I n).ind := InodeData.slot_ind v.blk
    rw [bmapSlot_present (by rw [hlast]; exact hind), hlast, if_neg hind]
    dsimp only
    rw [InodeData.slot_entry hbig hind, show bn + 1 - (ndirect + 1) = bn - ndirect by omega] at h0
    rcases bmapEntry_cost h (BitVec.eq_of_toNat_eq h0) with hr | ⟨h1, h2, h3, h4⟩
    · rw [hr]
      exact ⟨by dsimp only; omega, fun hne => absurd rfl hne⟩
    · rw [owed_of_mem hind h2]
      refine ⟨?_, fun _ => h1⟩
      by_cases hmem : (I n).ind ∈ v.lh
      · have := h4 hmem
        omega
      · rw [show v.owed (I n) = 2 from if_neg fun h' => hmem h'.2]
        omega

end Bmap

/-! ## Rounds of the loop -/

section Loop
variable {I : Nat → InodeData} {src : Nat → Nat → List UChar × Bool} {len : Nat}

/-- What a round costs. -/
def roundCost (v : Vol) (i : InodeData) (bn : Nat) : Nat := if i.addr v.blk bn = 0 then 2 else 1

theorem roundCost_le (v : Vol) (i : InodeData) (bn : Nat) : v.roundCost i bn ≤ 2 := by
  unfold roundCost
  split <;> omega

theorem bmap_owed (h : v.Files sb I) (hsb : sb.Ok) (hn : Live sb I n) :
    (v.bmap sb (I n) bn).2.1.lh.length + (v.bmap sb (I n) bn).2.1.owed (v.bmap sb (I n) bn).2.2 ≤
      v.lh.length + v.owed (I n) + v.roundCost (I n) bn := by
  by_cases h0 : (I n).addr v.blk bn = 0
  · rw [show v.roundCost (I n) bn = 2 from if_pos h0]
    exact (bmap_cost h hsb hn h0).1
  · rw [bmap_present h0]
    exact Nat.le_add_right _ _

/-- A round that stores a block. -/
theorem round_owed (h : v.Files sb I) (hsb : sb.Ok) (hn : Live sb I n)
    (hr : (v.bmap sb (I n) bn).1 ≠ 0) (y : Block) :
    ((v.bmap sb (I n) bn).2.1.put (v.bmap sb (I n) bn).1 y).lh.length +
        ((v.bmap sb (I n) bn).2.1.put (v.bmap sb (I n) bn).1 y).owed (v.bmap sb (I n) bn).2.2 ≤
      v.lh.length + v.owed (I n) + v.roundCost (I n) bn := by
  by_cases h0 : (I n).addr v.blk bn = 0
  · obtain ⟨hcost, hmem⟩ := bmap_cost h hsb hn h0
    have hlh := put_lh_of_mem (y := y) (hmem hr)
    have hown := owed_mono (v := (v.bmap sb (I n) bn).2.1) (i := (v.bmap sb (I n) bn).2.2) rfl
      fun x (hx : x ∈ (v.bmap sb (I n) bn).2.1.lh) => (mem_put (n := (v.bmap sb (I n) bn).1) (x := y)).mpr (.inl hx)
    rw [show v.roundCost (I n) bn = 2 from if_pos h0, hlh]
    omega
  · rw [bmap_present h0]
    rw [show v.roundCost (I n) bn = 1 from if_neg h0]
    have hown := owed_mono (v := v) (i := I n) rfl
      fun x (hx : x ∈ v.lh) => (mem_put (n := (I n).addr v.blk bn) (x := y)).mpr (.inl hx)
    have hlen := put_length_le (v := v) (n := (I n).addr v.blk bn) (x := y)
    dsimp only
    omega

/-- **The loop of `writei`** costs what its first round costs and two for every block after that. -/
theorem writeiLoop_cost (src : Nat → Nat → List UChar × Bool) (len : Nat) (hsb : sb.Ok) : ∀ fuel tot off {v : Vol} {I : Nat → InodeData}, v.Files sb I →
    Live sb I n → off + (len - tot) ≤ maxfile * bsize →
    (writeiLoop sb src len fuel tot off v (I n)).2.1.lh.length +
        (writeiLoop sb src len fuel tot off v (I n)).2.1.owed (writeiLoop sb src len fuel tot off v (I n)).2.2 ≤
      v.lh.length + v.owed (I n) + v.roundCost (I n) (off / bsize) +
        2 * ((len - tot - chunk len tot off + (bsize - 1)) / bsize) := by
  intro fuel
  induction fuel with
  | zero =>
    intro tot off v I _ _ _
    exact Nat.le_trans (Nat.le_add_right _ _) (Nat.le_add_right _ _)
  | succ fuel ih =>
    intro tot off v I h hn hmax
    by_cases hlt : tot < len
    swap
    · rw [writeiLoop_stop hlt]
      exact Nat.le_trans (Nat.le_add_right _ _) (Nat.le_add_right _ _)
    by_cases h0 : (v.bmap sb (I n) (off / bsize)).1 = 0
    · rw [writeiLoop_full hlt h0]
      exact Nat.le_trans (bmap_owed h hsb hn) (Nat.le_add_right _ _)
    cases hok : (src tot (chunk len tot off)).2 with
    | false =>
      rw [writeiLoop_fault hlt h0 hok]
      exact Nat.le_trans (bmap_owed h hsb hn) (Nat.le_add_right _ _)
    | true =>
      rw [writeiLoop_next hlt h0 hok]
      have hround := round_owed h hsb hn h0 (chunkBlock sb src len tot off v (I n))
      have hbn : off / bsize < maxfile := index_lt (by omega)
      obtain ⟨hfiles, hlive, _⟩ := h.round hsb hn hbn h0 (chunkBlock sb src len tot off v (I n))
      generalize (v.bmap sb (I n) (off / bsize)).2.1.put (v.bmap sb (I n) (off / bsize)).1
        (chunkBlock sb src len tot off v (I n)) = w at hround hfiles hlive
      generalize (v.bmap sb (I n) (off / bsize)).2.2 = i at hround hfiles hlive
      have hmod : off % bsize < bsize := Nat.mod_lt _ (by decide)
      have hm : chunk len tot off = min (len - tot) (bsize - off % bsize) := rfl
      generalize chunk len tot off = m at hm ⊢
      by_cases hend : tot + m = len
      · rw [writeiLoop_stop (by omega)]
        exact Nat.le_trans hround (Nat.le_add_right _ _)
      have hrest := ih (tot + m) (off + m) hfiles hlive (by omega)
      rw [update_self] at hrest
      have hle := roundCost_le w i ((off + m) / bsize)
      -- the next round begins at the beginning of a block
      have halign : (off + m) % bsize = 0 := by
        have := Nat.div_add_mod off bsize
        rw [show off + m = bsize * (off / bsize + 1) by rw [Nat.mul_add]; omega]
        exact Nat.mul_mod_right _ _
      have hm' : chunk len (tot + m) (off + m) = min (len - (tot + m)) bsize := by
        unfold chunk
        rw [halign, Nat.sub_zero]
      rw [hm'] at hrest
      have hcount : 2 + 2 * ((len - (tot + m) - min (len - (tot + m)) bsize + (bsize - 1)) / bsize) ≤
          2 * ((len - tot - m + (bsize - 1)) / bsize) := by
        have hb : bsize = 1024 := rfl
        rw [hb]
        omega
      omega

/-- `writei` as a whole, with the inode block. -/
theorem writei_cost (src : Nat → Nat → List UChar × Bool) (len : Nat) (h : v.Files sb I) (hsb : sb.Ok) (hn : Live sb I n) (off : Nat) :
    (writei sb src n off len v (I n)).2.1.lh.length ≤ v.lh.length + v.roundCost (I n) (off / bsize) +
      2 * ((len - chunk len 0 off + (bsize - 1)) / bsize) + 3 := by
  by_cases hr : Refused (I n) off len
  · rw [writei_refused hr]
    dsimp only
    omega
  have hwritei : writei sb src n off len v (I n) = _ := if_neg hr
  rw [hwritei]
  unfold Refused at hr
  have hloop := writeiLoop_cost src len hsb len 0 off h hn (by omega)
  rw [Nat.sub_zero] at hloop
  generalize writeiLoop sb src len len 0 off v (I n) = r at hloop
  have hlast : (r.2.1.iupdate sb n (grow r.2.2 r.1.2)).lh.length ≤ r.2.1.lh.length + 1 := put_length_le
  have howed := owed_le (v := v) (i := I n)
  dsimp only
  omega

/-- A bound that does not depend on the offset. -/
theorem writei_length_le (src : Nat → Nat → List UChar × Bool) (len : Nat) (h : v.Files sb I) (hsb : sb.Ok) (hn : Live sb I n) (off : Nat) :
    (writei sb src n off len v (I n)).2.1.lh.length ≤ v.lh.length + 2 * (len / bsize) + 7 := by
  have hcost := writei_cost src len h hsb hn off
  have hround := roundCost_le v (I n) (off / bsize)
  have hdiv : (len - chunk len 0 off + (bsize - 1)) / bsize ≤ len / bsize + 1 := by
    have hb : bsize = 1024 := rfl
    rw [hb]
    omega
  omega

/-- **A chunk of `filewrite`** logs at most `MAXOPBLOCKS` blocks: if it does not begin at the
beginning of a block, the block is there already. -/
theorem writei_length_le_maxopblocks (src : Nat → Nat → List UChar × Bool) (h : v.Files sb I) (hsb : sb.Ok) (hn : Live sb I n) {off : Nat}
    (hoff : off ≤ (I n).size.toNat) (hlen : len ≤ (maxopblocks - 1 - 1 - 2) / 2 * bsize) :
    (writei sb src n off len v (I n)).2.1.lh.length ≤ v.lh.length + maxopblocks := by
  have hcost := writei_cost src len h hsb hn off
  have hb : bsize = 1024 := rfl
  have hm : maxopblocks = 10 := rfl
  have hlen : len ≤ 3072 := hlen
  have hchunk : chunk len 0 off = min len (1024 - off % 1024) := rfl
  by_cases halign : off % 1024 = 0
  · have hround := roundCost_le v (I n) (off / bsize)
    rw [hb] at hround hcost
    rw [hchunk, halign] at hcost
    omega
  · have hround : v.roundCost (I n) (off / bsize) = 1 := by
      refine if_neg (h.filled n hn _ ?_)
      have : off / 1024 * 1024 + off % 1024 = off := Nat.div_add_mod' off 1024
      rw [hb]
      omega
    rw [hround, hchunk, hb] at hcost
    omega

end Loop

/-! ## The blocks that a call logs

The functions look at the contents of blocks and never at the log, so what they log does not
depend on what is in it. -/

/-- `v` is `v₀` with the blocks `L` in the log beforehand. -/
structure Over (L : List Nat) (v v₀ : Vol) : Prop where
  blk : v.blk = v₀.blk
  lh : ∀ x, x ∈ v.lh ↔ x ∈ L ∨ x ∈ v₀.lh

namespace Over
variable {L : List Nat} {v₀ : Vol}

theorem empty (v : Vol) : Over v.lh v { v with lh := [] } := ⟨rfl, fun x => by simp⟩

theorem set (h : Over L v v₀) (n : Nat) (y : Block) : Over L (v.set n y) (v₀.set n y) := by
  refine ⟨?_, h.lh⟩
  unfold Vol.set
  rw [h.blk]

theorem put (h : Over L v v₀) (n : Nat) (y : Block) : Over L (v.put n y) (v₀.put n y) := by
  refine ⟨?_, fun x => ?_⟩
  · rw [put_blk, put_blk, h.blk]
  · rw [mem_put, mem_put, h.lh]
    tauto

theorem take (h : Over L v v₀) (b : Nat) : Over L (v.take sb b) (v₀.take sb b) := by
  unfold Vol.take
  rw [h.blk]
  exact (h.put _ _).put _ _

theorem balloc (sb : Superblock) (h : Over L v v₀) : (v.balloc sb).1 = (v₀.balloc sb).1 ∧
    Over L (v.balloc sb).2 (v₀.balloc sb).2 := by
  have hfree : v.free sb = v₀.free sb := by
    unfold free bit
    rw [h.blk]
  unfold Vol.balloc
  rw [hfree]
  cases v₀.free sb with
  | none => exact ⟨rfl, h⟩
  | some b => exact ⟨rfl, h.take b⟩

theorem bmapSlot (sb : Superblock) (h : Over L v v₀) (i : InodeData) (k : Fin (ndirect + 1)) :
    (v.bmapSlot sb i k).1 = (v₀.bmapSlot sb i k).1 ∧ (v.bmapSlot sb i k).2.2 = (v₀.bmapSlot sb i k).2.2 ∧
    Over L (v.bmapSlot sb i k).2.1 (v₀.bmapSlot sb i k).2.1 := by
  obtain ⟨h1, h2⟩ := h.balloc sb
  unfold Vol.bmapSlot
  by_cases hk : i.addrs k ≠ 0
  · rw [if_pos hk, if_pos hk]
    exact ⟨rfl, rfl, h⟩
  · rw [if_neg hk, if_neg hk]
    dsimp only
    rw [h1]
    by_cases h0 : (v₀.balloc sb).1 = 0
    · rw [if_pos h0, if_pos h0]
      exact ⟨rfl, rfl, h2⟩
    · rw [if_neg h0, if_neg h0]
      exact ⟨rfl, rfl, h2⟩

theorem bmapEntry (sb : Superblock) (h : Over L v v₀) (ind e : Nat) :
    (v.bmapEntry sb ind e).1 = (v₀.bmapEntry sb ind e).1 ∧
    Over L (v.bmapEntry sb ind e).2 (v₀.bmapEntry sb ind e).2 := by
  obtain ⟨h1, h2⟩ := h.balloc sb
  unfold Vol.bmapEntry
  rw [h.blk]
  by_cases hk : le32 (v₀.blk ind) (4 * e) ≠ 0
  · rw [if_pos hk, if_pos hk]
    exact ⟨rfl, h⟩
  · rw [if_neg hk, if_neg hk]
    dsimp only
    rw [h1]
    by_cases h0 : (v₀.balloc sb).1 = 0
    · rw [if_pos h0, if_pos h0]
      exact ⟨rfl, h2⟩
    · rw [if_neg h0, if_neg h0, h2.blk]
      exact ⟨rfl, h2.put _ _⟩

theorem bmap (sb : Superblock) (h : Over L v v₀) (i : InodeData) (bn : Nat) :
    (v.bmap sb i bn).1 = (v₀.bmap sb i bn).1 ∧ (v.bmap sb i bn).2.2 = (v₀.bmap sb i bn).2.2 ∧
    Over L (v.bmap sb i bn).2.1 (v₀.bmap sb i bn).2.1 := by
  unfold Vol.bmap
  by_cases hd : bn < ndirect
  · simp only [dif_pos hd]
    exact h.bmapSlot sb i ⟨bn, by omega⟩
  simp only [dif_neg hd]
  obtain ⟨h1, h2, h3⟩ := h.bmapSlot sb i (Fin.last ndirect)
  rw [h1]
  by_cases h0 : (v₀.bmapSlot sb i (Fin.last ndirect)).1 = 0
  · rw [if_pos h0, if_pos h0]
    exact ⟨rfl, h2, h3⟩
  · rw [if_neg h0, if_neg h0]
    obtain ⟨e1, e2⟩ := h3.bmapEntry sb (v₀.bmapSlot sb i (Fin.last ndirect)).1 (bn - ndirect)
    exact ⟨e1, h2, e2⟩

theorem writeiLoop (sb : Superblock) (src : Nat → Nat → List UChar × Bool) (len : Nat) : ∀ fuel tot off {v v₀ : Vol} {i : InodeData},
    Over L v v₀ → (writeiLoop sb src len fuel tot off v i).1 = (writeiLoop sb src len fuel tot off v₀ i).1 ∧
    (writeiLoop sb src len fuel tot off v i).2.2 = (writeiLoop sb src len fuel tot off v₀ i).2.2 ∧
    Over L (writeiLoop sb src len fuel tot off v i).2.1 (writeiLoop sb src len fuel tot off v₀ i).2.1 := by
  intro fuel
  induction fuel with
  | zero => exact fun tot off v v₀ i h => ⟨rfl, rfl, h⟩
  | succ fuel ih =>
    intro tot off v v₀ i h
    by_cases hlt : tot < len
    swap
    · rw [writeiLoop_stop hlt, writeiLoop_stop hlt]
      exact ⟨rfl, rfl, h⟩
    obtain ⟨h1, h2, h3⟩ := h.bmap sb i (off / bsize)
    have hblock : chunkBlock sb src len tot off v i = chunkBlock sb src len tot off v₀ i := by
      unfold chunkBlock
      rw [h1, h3.blk]
    by_cases h0 : (v₀.bmap sb i (off / bsize)).1 = 0
    · rw [writeiLoop_full hlt (h1.trans h0), writeiLoop_full hlt h0]
      exact ⟨rfl, h2, h3⟩
    have h0' : (v.bmap sb i (off / bsize)).1 ≠ 0 := by
      rw [h1]
      exact h0
    cases hok : (src tot (chunk len tot off)).2 with
    | false =>
      rw [writeiLoop_fault hlt h0' hok, writeiLoop_fault hlt h0 hok, h1, hblock]
      exact ⟨rfl, h2, h3.set _ _⟩
    | true =>
      rw [writeiLoop_next hlt h0' hok, writeiLoop_next hlt h0 hok, h1, h2, hblock]
      exact ih _ _ (h3.put _ _)

/-- What `writei` logs is what it would log if the log were empty. -/
theorem writei (h : Over L v v₀) (src : Nat → Nat → List UChar × Bool) (n off len : Nat) (i : InodeData) :
    Over L (writei sb src n off len v i).2.1 (writei sb src n off len v₀ i).2.1 := by
  unfold Vol.writei
  by_cases hr : i.size.toNat < off ∨ 2 ^ 32 ≤ off + len ∨ maxfile * bsize < off + len
  · rw [if_pos hr, if_pos hr]
    exact h
  · rw [if_neg hr, if_neg hr]
    obtain ⟨h1, h2, h3⟩ := writeiLoop sb src len len 0 off (i := i) h
    dsimp only
    rw [h1, h2]
    unfold iupdate
    rw [h3.blk]
    exact h3.put _ _

end Over
end Vol
end Txv6
