import Txv6.Volume.Files

/-! # The block map

`bmap` as a function on a volume and an inode, what it does to the files of the volume, and
that the code of `fs.c` computes it.
-/
namespace Txv6
open Lib Function
open InodeData (addr ind slot_congr slot_direct slot_entry slot_ind slot_no_ind)
open Lib.Prog hiding update

variable {k : Fin (ndirect + 1)} {e l m : Nat} {Q : Nat → Kernel → Prop}

namespace Vol

/-- A direct block or the indirect block, allocated if it is missing. -/
def bmapSlot (sb : Superblock) (v : Vol) (i : InodeData) (k : Fin (ndirect + 1)) : Nat × Vol × InodeData :=
  if i.addrs k ≠ 0 then ((i.addrs k).toNat, v, i)
  else
    let r := v.balloc sb
    if r.1 = 0 then (0, r.2, i)
    else (r.1, r.2, { i with addrs := Function.update i.addrs k (BitVec.ofNat 32 r.1) })

/-- A block named by the indirect block `ind`, allocated if it is missing. -/
def bmapEntry (sb : Superblock) (v : Vol) (ind e : Nat) : Nat × Vol :=
  if le32 (v.blk ind) (4 * e) ≠ 0 then ((le32 (v.blk ind) (4 * e)).toNat, v)
  else
    let r := v.balloc sb
    if r.1 = 0 then (0, r.2)
    else (r.1, r.2.put ind (put32 (r.2.blk ind) (4 * e) (BitVec.ofNat 32 r.1)))

/-- Block `bn` of the file, allocated if it is missing. -/
def bmap (sb : Superblock) (v : Vol) (i : InodeData) (bn : Nat) : Nat × Vol × InodeData :=
  if h : bn < ndirect then v.bmapSlot sb i ⟨bn, Nat.lt_succ_of_lt h⟩
  else
    let r := v.bmapSlot sb i (Fin.last ndirect)
    if r.1 = 0 then (0, r.2)
    else
      let e := r.2.1.bmapEntry sb r.1 (bn - ndirect)
      (e.1, e.2, r.2.2)

section Present
variable {sb : Superblock} {v : Vol} {i : InodeData} {bn : Nat}

theorem bmapSlot_present (h : i.slot v.blk k ≠ 0) : v.bmapSlot sb i k = (i.slot v.blk k, v, i) := by
  rw [slot_direct k.2, Fin.eta] at h ⊢
  unfold bmapSlot
  rw [if_pos]
  exact fun e => h (congrArg BitVec.toNat e)

/-- A block that the file has is found and nothing changes. -/
theorem bmap_present (h : i.addr v.blk bn ≠ 0) : v.bmap sb i bn = (i.addr v.blk bn, v, i) := by
  unfold addr at h ⊢
  unfold bmap
  by_cases hd : bn < ndirect
  · simp only [if_pos hd, dif_pos hd] at h ⊢
    exact bmapSlot_present h
  simp only [if_neg hd, dif_neg hd] at h ⊢
  have hbig : ¬ bn + 1 < ndirect + 1 := by omega
  have hind : i.ind ≠ 0 := fun h0 => h (slot_no_ind hbig h0)
  have hlast : i.slot v.blk (Fin.last ndirect) = i.ind := slot_ind v.blk
  rw [bmapSlot_present (by rw [hlast]; exact hind), hlast, if_neg hind]
  rw [slot_entry hbig hind, show bn + 1 - (ndirect + 1) = bn - ndirect by omega] at h ⊢
  unfold bmapEntry
  rw [if_pos]
  exact fun e => h (congrArg BitVec.toNat e)

end Present

/-! ## A new block -/

section Take
variable {sb : Superblock} {v : Vol} {b c x : Nat}

theorem take_blk_self : (v.take sb b).blk b = zeroBlock := by
  unfold take
  rw [put_blk, update_self]

theorem take_blk (hb : x ≠ b) (hx : x ≠ sb.bblock b) : (v.take sb b).blk x = v.blk x := by
  unfold take
  rw [put_blk, update_of_ne hb, put_blk, update_of_ne hx]

theorem take_bit (hb : sb.datastart ≤ b) (hc : c < sb.size) :
    (v.take sb b).bit sb c = (v.bit sb c || decide (c = b)) := by
  have hne : sb.bblock c ≠ b := Nat.ne_of_lt (Nat.lt_of_lt_of_le (Superblock.bblock_lt hc) hb)
  unfold bit take
  rw [put_blk, update_of_ne hne, put_blk]
  by_cases e : sb.bblock c = sb.bblock b
  · rw [e, update_self, setBit_bitAt]
    have hdiv : c / bpb = b / bpb := Nat.add_right_cancel e
    congr 1
    rw [decide_eq_decide]
    constructor
    · intro hmod
      rw [← Nat.div_add_mod c bpb, ← Nat.div_add_mod b bpb, hdiv, hmod]
    · intro hcb
      rw [hcb]
  · rw [update_of_ne e]
    have hcb : c ≠ b := fun h => e (by rw [h])
    simp [hcb]

end Take

/-- The blocks of inode `n` have become more, and nothing else has changed: not the other inodes,
not the contents of any block that a file had, except for the indirect block of `n`. -/
structure Grown (sb : Superblock) (n : Nat) (v : Vol) (I : Nat → InodeData) (w : Vol)
    (J : Nat → InodeData) : Prop where
  files : w.Files sb J
  other : ∀ m, m ≠ n → J m = I m
  same : J n = { I n with addrs := (J n).addrs }
  slots : ∀ k < nslots, (I n).slot v.blk k ≠ 0 → (J n).slot w.blk k = (I n).slot v.blk k
  data : ∀ m k, Live sb I m → k < nslots → (m, k) ≠ (n, ndirect) → (I m).slot v.blk k ≠ 0 →
    w.blk ((I m).slot v.blk k) = v.blk ((I m).slot v.blk k)
  low : ∀ x < sb.bmapstart, w.blk x = v.blk x

namespace Grown
variable {sb : Superblock} {n : Nat} {v w u : Vol} {I J L : Nat → InodeData}

theorem refl (h : v.Files sb I) : Grown sb n v I v I :=
  ⟨h, fun _ _ => rfl, rfl, fun _ _ _ => rfl, fun _ _ _ _ _ _ => rfl, fun _ _ => rfl⟩

section
variable (h : Grown sb n v I w J)
include h

theorem type (m : Nat) : (J m).type = (I m).type := by
  by_cases e : m = n
  · rw [e, h.same]
  · rw [h.other m e]

theorem live (m : Nat) : Live sb J m ↔ Live sb I m := by
  unfold Live
  rw [h.type]

/-- A slot of another file keeps its block. -/
theorem slot_other (hm : Live sb I m) (hmn : m ≠ n) (k : Nat) :
    (J m).slot w.blk k = (I m).slot v.blk k := by
  rw [h.other m hmn]
  refine slot_congr (fun hi => ?_) k
  have hne : (m, ndirect) ≠ (n, ndirect) := fun e => hmn (Prod.mk.inj e).1
  have := h.data m ndirect hm ndirect_lt_nslots hne
  rw [slot_ind v.blk] at this
  exact this hi

/-- A slot that is in use keeps its block. -/
theorem slot {k : Nat} (hm : Live sb I m) (hk : k < nslots)
    (hne : (I m).slot v.blk k ≠ 0) : (J m).slot w.blk k = (I m).slot v.blk k := by
  by_cases e : m = n
  · rw [e] at hne ⊢
    exact h.slots k hk hne
  · exact h.slot_other hm e k

theorem trans (h' : Grown sb n w J u L) : Grown sb n v I u L where
  files := h'.files
  other m hm := (h'.other m hm).trans (h.other m hm)
  same := by
    rw [h'.same, h.same]
  slots k hk hne := by
    have e := h.slots k hk hne
    rw [← e] at hne
    rw [h'.slots k hk hne, e]
  data m k hm hk hmk hne := by
    have e := h.slot hm hk hne
    have hd := h'.data m k ((h.live m).mpr hm) hk hmk (by rw [e]; exact hne)
    rw [e] at hd
    rw [hd, h.data m k hm hk hmk hne]
  low x hx := (h'.low x hx).trans (h.low x hx)

/-- The bytes that a file has do not change. -/
theorem byte {j : Nat} (hm : Live sb I m) (hj : j / bsize < maxfile)
    (hne : (I m).addr v.blk (j / bsize) ≠ 0) : (J m).byte w.blk j = (I m).byte v.blk j := by
  unfold InodeData.byte addr at *
  have hk : (if j / bsize < ndirect then j / bsize else j / bsize + 1) < nslots := by
    split
    · exact Nat.lt_trans (by assumption) ndirect_lt_nslots
    · exact Nat.succ_lt_succ hj
  have hnd : (if j / bsize < ndirect then j / bsize else j / bsize + 1) ≠ ndirect := by
    split <;> omega
  rw [h.slot hm hk hne, h.data m _ hm hk (fun e => hnd (Prod.mk.inj e).2) hne]
end

end Grown
/-! ## What `bmap` does to the files -/

section Pure
variable {sb : Superblock} {n : Nat} {v : Vol} {I : Nat → InodeData} {b bn : Nat}

/-- The disk is full, or there is a block to be had. -/
theorem balloc_cases (h : v.Files sb I) : (v.free sb = none ∧ v.balloc sb = (0, v)) ∨
    ∃ b, v.bit sb b = false ∧ b < sb.size ∧ b ≠ 0 ∧ v.balloc sb = (b, v.take sb b) := by
  cases hf : v.free sb with
  | none =>
    refine .inl ⟨rfl, ?_⟩
    unfold balloc
    rw [hf]
  | some b =>
    obtain ⟨hlt, hbit, _⟩ := free_eq_some.mp hf
    have hlo := (h.free_block hbit).1
    have hpos := h.blocks.pos
    refine .inr ⟨b, hbit, hlt, by omega, ?_⟩
    unfold balloc
    rw [hf]

theorem take_data (h : v.Files sb I) {k : Nat} (hb : v.bit sb b = false) (hlt : b < sb.size)
    (hm : Live sb I m) (hk : k < nslots) (hne : (I m).slot v.blk k ≠ 0) :
    (v.take sb b).blk ((I m).slot v.blk k) = v.blk ((I m).slot v.blk k) := by
  refine take_blk ((h.free_block hb).2 m k hm hk) ?_
  have := (h.slot_range hm hk hne).1
  have := Superblock.bblock_lt hlt
  omega

theorem take_low (h : v.Files sb I) {x : Nat} (hb : v.bit sb b = false) (hx : x < sb.bmapstart) :
    (v.take sb b).blk x = v.blk x := by
  have := (h.free_block hb).1
  have := Superblock.bmapstart_lt_datastart sb
  have := Superblock.bmapstart_le_bblock sb b
  exact take_blk (by omega) (by omega)

theorem le32_zeroBlock (o : Nat) : le32 zeroBlock o = 0 := by
  change (0#8 ++ 0#8 ++ 0#8 ++ 0#8 : Uint) = 0
  decide

theorem toNat_block (hsb : sb.Ok) (hlt : b < sb.size) : (BitVec.ofNat 32 b).toNat = b := by
  have := hsb.small
  rw [BitVec.toNat_ofNat, Nat.mod_eq_of_lt (by omega)]

section
variable (h : v.Files sb I)
include h

/-- A new block in an address slot leaves the other slots alone. -/
theorem slot_new_addr (hsb : sb.Ok) (hn : Live sb I n) (k : Fin (ndirect + 1))
    (hk : (I n).addrs k = 0) (hb : v.bit sb b = false) (hlt : b < sb.size) (hlk : l ≠ k) :
    ({ I n with addrs := update (I n).addrs k (BitVec.ofNat 32 b) } : InodeData).slot
      (v.take sb b).blk l = (I n).slot v.blk l := by
  generalize hj : ({ I n with addrs := update (I n).addrs k (BitVec.ofNat 32 b) } : InodeData) = j
  by_cases hl : l < ndirect + 1
  · rw [slot_direct hl, slot_direct hl, ← hj]
    have hne : (⟨l, hl⟩ : Fin (ndirect + 1)) ≠ k := fun e => hlk (congrArg Fin.val e)
    simp [update_of_ne hne]
  by_cases hkl : k = Fin.last ndirect
  · -- the indirect block is new and empty
    subst hkl
    have hji : j.ind = b := by
      rw [← hj]
      unfold ind
      simp only [update_self]
      exact toNat_block hsb hlt
    rw [slot_no_ind hl (InodeData.ind_eq_zero.mpr hk)]
    by_cases hb0 : b = 0
    · rw [slot_no_ind hl (hji.trans hb0)]
    · rw [slot_entry hl (by rw [hji]; exact hb0), hji, take_blk_self, le32_zeroBlock]
      rfl
  · have hind : j.ind = (I n).ind := by
      rw [← hj]
      exact congrArg BitVec.toNat (update_of_ne (Ne.symm hkl) _ _)
    by_cases hi : (I n).ind = 0
    · rw [slot_no_ind hl hi, slot_no_ind hl (hind.trans hi)]
    · rw [slot_entry hl hi, slot_entry hl (by rw [hind]; exact hi), hind]
      rw [← slot_ind v.blk] at hi ⊢
      rw [take_data h hb hlt hn ndirect_lt_nslots hi]

/-- A free block goes into an empty address slot of the inode. -/
theorem grown_addr (hsb : sb.Ok) (hn : Live sb I n) (k : Fin (ndirect + 1))
    (hk : (I n).addrs k = 0) (hb : v.bit sb b = false) (hlt : b < sb.size) :
    Grown sb n v I (v.take sb b) (update I n
      { I n with addrs := update (I n).addrs k (BitVec.ofNat 32 b) }) ∧
    ({ I n with addrs := update (I n).addrs k (BitVec.ofNat 32 b) } : InodeData).slot
      (v.take sb b).blk k = b := by
  generalize hj : ({ I n with addrs := update (I n).addrs k (BitVec.ofNat 32 b) } : InodeData) = j
  have hb32 : (BitVec.ofNat 32 b).toNat = b := toNat_block hsb hlt
  have hks : (k : Nat) < nslots := Nat.lt_of_lt_of_le k.2 (by decide)
  have hzero : (I n).slot v.blk k = 0 := by
    rw [slot_direct k.2, hk]
    rfl
  have hself : j.slot (v.take sb b).blk k = b := by
    rw [slot_direct k.2, ← hj]
    simp only [Fin.eta, update_self]
    exact hb32
  have hindI : ∀ m, Live sb I m → (I m).ind ≠ 0 → (v.take sb b).blk (I m).ind = v.blk (I m).ind := by
    intro m hm hi
    rw [← slot_ind v.blk] at hi ⊢
    exact take_data h hb hlt hm ndirect_lt_nslots hi
  have hown : ∀ l : Nat, l ≠ k → j.slot (v.take sb b).blk l = (I n).slot v.blk l := by
    intro l hl
    rw [← hj]
    exact slot_new_addr h hsb hn k hk hb hlt hl
  refine ⟨⟨?_, fun m hm => update_of_ne hm _ _, ?_, fun l hl hne => ?_, ?_, ?_⟩, hself⟩
  · refine h.assign hsb hn hks hzero hb hlt (fun m => ?_) (fun c hc => ?_) ?_ fun m l hm hl hml => ?_
    · by_cases e : m = n
      · rw [e, update_self, ← hj]
        exact ⟨rfl, rfl⟩
      · rw [update_of_ne e]
        exact ⟨rfl, rfl⟩
    · exact take_bit (h.free_block hb).1 hc
    · rw [update_self]
      exact hself
    · by_cases e : m = n
      · subst e
        rw [update_self]
        exact hown l fun el => hml (by rw [el])
      · rw [update_of_ne e]
        exact slot_congr (hindI m hm) l
  · rw [update_self, ← hj]
  · rw [update_self]
    refine hown l fun el => hne ?_
    rw [el]
    exact hzero
  · exact fun m l hm hl _ hne => take_data h hb hlt hm hl hne
  · exact fun x hx => take_low h hb hx

theorem bmapSlot_grown (hsb : sb.Ok) (hn : Live sb I n) (k : Fin (ndirect + 1)) :
    Grown sb n v I (v.bmapSlot sb (I n) k).2.1 (update I n (v.bmapSlot sb (I n) k).2.2) ∧
    ((v.bmapSlot sb (I n) k).1 = 0 → (v.bmapSlot sb (I n) k).2.1.free sb = none) ∧
    ((v.bmapSlot sb (I n) k).1 ≠ 0 →
      (v.bmapSlot sb (I n) k).2.2.slot (v.bmapSlot sb (I n) k).2.1.blk k = (v.bmapSlot sb (I n) k).1) := by
  unfold bmapSlot
  by_cases hk : (I n).addrs k ≠ 0
  · rw [if_pos hk, update_eq_self]
    refine ⟨.refl h, fun h0 => absurd ?_ hk, fun _ => slot_direct k.2⟩
    rw [← BitVec.toNat_inj]
    exact h0
  · rw [if_neg hk]
    dsimp only
    rcases balloc_cases h with ⟨hf, hr⟩ | ⟨b, hb, hlt, hb0, hr⟩
    · rw [hr, if_pos rfl, update_eq_self]
      exact ⟨.refl h, fun _ => hf, fun h0 => absurd rfl h0⟩
    · rw [hr, if_neg hb0]
      obtain ⟨hg, hself⟩ := grown_addr h hsb hn k (not_not.mp hk) hb hlt
      exact ⟨hg, fun h0 => absurd h0 hb0, fun _ => hself⟩

/-- A new entry of the indirect block leaves the other slots alone. -/
theorem slot_new_entry (hn : Live sb I n) (hi : (I n).ind ≠ 0)
    (hb : v.bit sb b = false) (hlt : b < sb.size) (hl : l ≠ ndirect + 1 + e) :
    (I n).slot ((v.take sb b).put (I n).ind
      (put32 ((v.take sb b).blk (I n).ind) (4 * e) (BitVec.ofNat 32 b))).blk l = (I n).slot v.blk l := by
  by_cases hl' : l < ndirect + 1
  · rw [slot_direct hl', slot_direct hl']
  · rw [slot_entry hl' hi, slot_entry hl' hi, put_blk, update_self,
      le32_put32_of_ne (by omega)]
    rw [← slot_ind v.blk] at hi ⊢
    rw [take_data h hb hlt hn ndirect_lt_nslots hi]

theorem bmapEntry_grown (hsb : sb.Ok) (hn : Live sb I n) (hi : (I n).ind ≠ 0)
    (he : e < nindirect) : Grown sb n v I (v.bmapEntry sb (I n).ind e).2 I ∧
    ((v.bmapEntry sb (I n).ind e).1 = 0 → (v.bmapEntry sb (I n).ind e).2.free sb = none) ∧
    ((v.bmapEntry sb (I n).ind e).1 ≠ 0 → (I n).slot (v.bmapEntry sb (I n).ind e).2.blk (ndirect + 1 + e) =
      (v.bmapEntry sb (I n).ind e).1) := by
  have hk : ¬ ndirect + 1 + e < ndirect + 1 := by omega
  have hke : ndirect + 1 + e - (ndirect + 1) = e := by omega
  have hks : ndirect + 1 + e < nslots := by
    have : nslots = ndirect + nindirect + 1 := rfl
    omega
  have hslot : (I n).slot v.blk (ndirect + 1 + e) = _ := slot_entry hk hi
  rw [hke] at hslot
  unfold bmapEntry
  by_cases hx : le32 (v.blk (I n).ind) (4 * e) ≠ 0
  · rw [if_pos hx]
    refine ⟨.refl h, fun h0 => absurd ?_ hx, fun _ => hslot⟩
    rw [← BitVec.toNat_inj]
    exact h0
  rw [if_neg hx]
  dsimp only
  rcases balloc_cases h with ⟨hf, hr⟩ | ⟨b, hb, hlt, hb0, hr⟩
  · rw [hr, if_pos rfl]
    exact ⟨.refl h, fun _ => hf, fun h0 => absurd rfl h0⟩
  rw [hr, if_neg hb0]
  dsimp only
  have hzero : (I n).slot v.blk (ndirect + 1 + e) = 0 := by
    rw [hslot, not_not.mp hx]
    rfl
  have hindblk : (I n).slot v.blk ndirect = (I n).ind := slot_ind v.blk
  have hrange := h.slot_range hn ndirect_lt_nslots (by rw [hindblk]; exact hi)
  have hind := take_data h hb hlt hn ndirect_lt_nslots (by rw [hindblk]; exact hi)
  rw [hindblk] at hrange hind
  have hb32 : (BitVec.ofNat 32 b).toNat = b := toNat_block hsb hlt
  generalize hw : (v.take sb b).put (I n).ind
    (put32 ((v.take sb b).blk (I n).ind) (4 * e) (BitVec.ofNat 32 b)) = w
  have hwind : w.blk (I n).ind = put32 (v.blk (I n).ind) (4 * e) (BitVec.ofNat 32 b) := by
    rw [← hw, put_blk, update_self, hind]
  have hwne : ∀ x, x ≠ (I n).ind → w.blk x = (v.take sb b).blk x := fun x hx => by
    rw [← hw, put_blk, update_of_ne hx]
  have hself : (I n).slot w.blk (ndirect + 1 + e) = b := by
    rw [slot_entry hk hi, hke, hwind, le32_put32]
    exact hb32
  have hown : ∀ l, l ≠ ndirect + 1 + e → (I n).slot w.blk l = (I n).slot v.blk l := by
    intro l hl
    rw [← hw]
    exact slot_new_entry h hn hi hb hlt hl
  have hdata : ∀ m l, Live sb I m → l < nslots → (m, l) ≠ (n, ndirect) → (I m).slot v.blk l ≠ 0 →
      w.blk ((I m).slot v.blk l) = v.blk ((I m).slot v.blk l) := by
    intro m l hm hl hml hne
    have hne' : (I m).slot v.blk l ≠ (I n).ind := by
      intro el
      rw [← hindblk] at el
      obtain ⟨e1, e2⟩ := h.slot_inj hm hl hn ndirect_lt_nslots hne el
      exact hml (by rw [e1, e2])
    rw [hwne _ hne']
    exact take_data h hb hlt hm hl hne
  have hotherslot : ∀ m, Live sb I m → m ≠ n → ∀ l, (I m).slot w.blk l = (I m).slot v.blk l := by
    intro m hm hmn l
    refine slot_congr (fun him => ?_) l
    rw [← slot_ind v.blk] at him ⊢
    exact hdata m ndirect hm ndirect_lt_nslots (fun em => hmn (Prod.mk.inj em).1) him
  refine ⟨⟨?_, fun _ _ => rfl, rfl, fun l hl hne => ?_, hdata, fun x hx => ?_⟩, fun h0 => absurd h0 hb0,
    fun _ => hself⟩
  · refine h.assign hsb hn hks hzero hb hlt (fun _ => ⟨rfl, rfl⟩) (fun c hc => ?_) hself
      fun m l hm hl hml => ?_
    · rw [← take_bit (h.free_block hb).1 hc]
      refine bit_congr hc fun x hx _ => hwne x ?_
      omega
    · by_cases em : m = n
      · subst em
        exact hown l fun el => hml (by rw [el])
      · exact hotherslot m hm em l
  · refine hown l fun el => hne ?_
    rw [el]
    exact hzero
  · have := Superblock.bmapstart_lt_datastart sb
    rw [hwne x (by omega)]
    exact take_low h hb hx

/-- **`bmap`** may only add blocks, and finds or adds the one that is asked for unless the disk
is full. -/
theorem bmap_grown (hsb : sb.Ok) (hn : Live sb I n) (hbn : bn < maxfile) :
    Grown sb n v I (v.bmap sb (I n) bn).2.1 (update I n (v.bmap sb (I n) bn).2.2) ∧
    ((v.bmap sb (I n) bn).1 = 0 → (v.bmap sb (I n) bn).2.1.free sb = none) ∧
    ((v.bmap sb (I n) bn).1 ≠ 0 →
      (v.bmap sb (I n) bn).2.2.addr (v.bmap sb (I n) bn).2.1.blk bn = (v.bmap sb (I n) bn).1) := by
  unfold bmap addr
  by_cases hd : bn < ndirect
  · simp only [dif_pos hd, if_pos hd]
    exact bmapSlot_grown h hsb hn ⟨bn, by omega⟩
  simp only [dif_neg hd, if_neg hd]
  obtain ⟨hg, hfull, hslot⟩ := bmapSlot_grown h hsb hn (Fin.last ndirect)
  generalize v.bmapSlot sb (I n) (Fin.last ndirect) = r at hg hfull hslot
  by_cases h0 : r.1 = 0
  · rw [if_pos h0]
    exact ⟨hg, fun _ => hfull h0, fun hne => absurd rfl hne⟩
  rw [if_neg h0]
  have hlive : Live sb (update I n r.2.2) n := (hg.live n).mpr hn
  have hind : (update I n r.2.2 n).ind = r.1 := by
    rw [update_self, ← slot_ind r.2.1.blk]
    exact hslot h0
  have he : bn - ndirect < nindirect := by
    have : maxfile = ndirect + nindirect := rfl
    omega
  have hent := bmapEntry_grown hg.files hsb hlive (by rw [hind]; exact h0) he
  rw [hind, update_self, show ndirect + 1 + (bn - ndirect) = bn + 1 by omega] at hent
  exact ⟨hg.trans hent.1, hent.2⟩

end

end Pure
end Vol
/-! ## The code -/

/-- A new value in the page of an inode. -/
def Kernel.setIno (s : Kernel) (d : Page) (i : InodeData) : Kernel := s.setPage d fun x => { x with ino := i }

section SetIno
variable {s t : Kernel} {d : Page} {i j : InodeData} {D W : Finset BufPtr} {p : ProcPtr} {v : Vol}

theorem setIno_self (h : (s.heap d).ino = i) : s.setIno d i = s := by
  subst h
  unfold Kernel.setIno Kernel.setPage
  rw [update_eq_self]

theorem setIno_setIno : (s.setIno d i).setIno d j = s.setIno d j := by
  simp [Kernel.setIno, Kernel.setPage]

@[simp] theorem setIno_ino : ((s.setIno d i).heap d).ino = i := by simp [Kernel.setIno, Kernel.setPage]

theorem setIno_heap {q : Page} (h : q ≠ d) : (s.setIno d i).heap q = s.heap q := update_of_ne h _ _

theorem Still.setIno (h : Still D s t) (hd : s.Apart d) : Still D (s.setIno d i) (t.setIno d i) := h.setPage hd

theorem Carries.setIno (h : Carries p D W v s) (hd : s.Apart d) : Carries p D W v (s.setIno d i) :=
  h.setPage hd

/-- What an inode page has, where only the cache may have changed since it was set. -/
theorem Still.ino (h : Still D (s.setIno d i) t) (hd : s.Apart d) : (t.heap d).ino = i := by
  have hd' : (s.setIno d i).Apart d := hd
  rw [h.heap d hd', setIno_ino]

end SetIno

namespace Vol
variable {sb : Superblock} {v : Vol}

theorem balloc_length : v.lh.length ≤ (v.balloc sb).2.lh.length := by
  unfold balloc
  split
  · exact Nat.le_refl _
  · exact Nat.le_trans put_length put_length

theorem bmapSlot_length {i : InodeData} : v.lh.length ≤ (v.bmapSlot sb i k).2.1.lh.length := by
  unfold bmapSlot
  split
  · exact Nat.le_refl _
  · dsimp only
    split
    · exact balloc_length
    · exact balloc_length

theorem bmapEntry_length (sb : Superblock) (v : Vol) (ind e : Nat) : v.lh.length ≤ (v.bmapEntry sb ind e).2.lh.length := by
  unfold bmapEntry
  split
  · exact Nat.le_refl _
  · dsimp only
    split
    · exact balloc_length
    · exact Nat.le_trans balloc_length put_length

theorem bmap_length {i : InodeData} {bn : Nat} : v.lh.length ≤ (v.bmap sb i bn).2.1.lh.length := by
  unfold bmap
  split
  · exact bmapSlot_length
  · dsimp only
    split
    · exact bmapSlot_length
    · exact Nat.le_trans bmapSlot_length (bmapEntry_length ..)

end Vol

namespace Carries
variable {p : ProcPtr} {D : Finset BufPtr} {v : Vol} {s : Kernel} {b : BufPtr} {n : Nat} {d : Page}
  {i : InodeData} {ip : InodePtr} {E : Err → Kernel → Prop}

/-- Outside of a transaction `idata` is the inode's own page. -/
theorem idata {Q : Page → Kernel → Prop} {W : Finset BufPtr} {c : Site} (h : Carries p D W v s)
    (hd : (s.inode ip).data = some d) (hQ : Q d s) : ends (idata c p ip) Q E s := by
  have htx : s.txdata p (.inode ip) false = (.ok (some d), s) := by
    have hin := h.inactive
    unfold Kernel.txActive at hin
    unfold Kernel.txdata Kernel.dataPtr
    cases ht : (s.proc p).tx with
    | none =>
      dsimp only
      rw [hd]
    | some t =>
      rw [ht] at hin
      dsimp only at hin ⊢
      rw [if_neg (by simpa using hin), hd]
  unfold Txv6.idata txdata
  rw [ends_bind, ends_atomOrPanic htx]
  exact hQ

theorem bmapSlot (h : Carries p ∅ ∅ v s) (hd : s.Apart d) (hi : (s.heap d).ino = i)
    (hop : 1 ≤ s.log.outstanding) (hroom : (v.bmapSlot s.sb i k).2.1.lh.length < nbuf ∨ ∀ e t, E e t)
    (hQ : ∀ t, Carries p ∅ ∅ (v.bmapSlot s.sb i k).2.1 t →
      Still ∅ (s.setIno d (v.bmapSlot s.sb i k).2.2) t → Q (v.bmapSlot s.sb i k).1 t) :
    ends (bmapSlot p rootdev d k) Q E s := by
  unfold Txv6.bmapSlot ifield
  rw [ends_bind, ends_read, hi]
  unfold Vol.bmapSlot at hroom hQ
  by_cases hk : i.addrs k ≠ 0
  · rw [if_pos hk] at hQ ⊢
    rw [setIno_self hi] at hQ
    exact hQ s h (.refl ∅ s)
  rw [if_neg hk] at hroom hQ ⊢
  dsimp only at hroom hQ
  rw [ends_bind]
  refine h.balloc (fun b hb => absurd hb (Finset.notMem_empty b)) hop (hroom.imp_left fun hr => ?_)
    fun t ht hst => ?_
  · rw [Finset.card_empty, Nat.zero_add]
    split at hr <;> exact hr
  by_cases h0 : (v.balloc s.sb).1 = 0
  · rw [if_pos h0] at hQ ⊢
    rw [setIno_self hi] at hQ
    exact hQ t ht hst
  · rw [if_neg h0] at hQ ⊢
    unfold setIfield
    rw [ends_bind, ends_update, ends_pure]
    have hti : (t.heap d).ino = i := by rw [hst.heap d hd, hi]
    have hset : t.setPage d (fun x => { x with ino := { x.ino with
        addrs := update x.ino.addrs k (BitVec.ofNat 32 (v.balloc s.sb).1) } }) =
        t.setIno d { i with addrs := update i.addrs k (BitVec.ofNat 32 (v.balloc s.sb).1) } := by
      rw [← hti]
      rfl
    rw [hset]
    exact hQ _ (ht.setIno (hst.apart hd)) (hst.setIno hd)

theorem bmapEntry {ind : Nat} (h : Carries p {b} ∅ v s) (hblk : (s.buf b).blockno = ind)
    (hbit : v.bit s.sb ind = true) (hdata : s.sb.datastart ≤ ind) (hop : 1 ≤ s.log.outstanding)
    (hroom : 1 + (v.bmapEntry s.sb ind e).2.lh.length < nbuf ∨ ∀ e t, E e t)
    (hQ : ∀ t, Carries p {b} ∅ (v.bmapEntry s.sb ind e).2 t → Still {b} s t →
      Q (v.bmapEntry s.sb ind e).1 t) :
    ends (bmapEntry p rootdev b (s.buf b).data e) Q E s := by
  have hb : b ∈ ({b} : Finset BufPtr) := Finset.mem_singleton_self b
  have hbytes : ((s.heap (s.buf b).data).bytes : Block) = v.blk ind := by
    rw [← hblk]
    exact h.bytes hb
  unfold Txv6.bmapEntry bfield
  rw [ends_bind, ends_read, hbytes]
  unfold Vol.bmapEntry at hroom hQ
  by_cases hx : le32 (v.blk ind) (4 * e) ≠ 0
  · rw [if_pos hx] at hQ ⊢
    exact hQ s h (.refl _ s)
  rw [if_neg hx] at hroom hQ ⊢
  dsimp only at hroom hQ
  rw [ends_bind]
  have hspared : Spared {b} v s := by
    intro c hc
    rw [Finset.mem_singleton.mp hc, hblk]
    refine ⟨hbit, fun n hn e => ?_⟩
    have := Superblock.bblock_lt hn
    omega
  have hcard : ({b} : Finset BufPtr).card = 1 := Finset.card_singleton b
  refine h.balloc hspared hop (hroom.imp_left fun hr => ?_) fun t ht hst => ?_
  · rw [hcard]
    split at hr
    · exact hr
    · exact Nat.lt_of_le_of_lt (Nat.add_le_add_left Vol.put_length 1) hr
  by_cases h0 : (v.balloc s.sb).1 = 0
  · rw [if_pos h0] at hQ ⊢
    exact hQ t ht hst
  · rw [if_neg h0] at hQ hroom ⊢
    unfold setBfield
    rw [ends_bind, ends_update, ends_bind]
    refine ht.put (f := fun x => put32 x (4 * e) (BitVec.ofNat 32 (v.balloc s.sb).1)) hb (hst.page b)
      ((hst.held b hb).trans hblk) (by rw [hst.outstanding]; exact hop) (hroom.imp_left fun hr => ?_)
      fun u hu hst' _ => ?_
    · exact Nat.lt_of_le_of_lt (Nat.le_trans Vol.put_length (Nat.le_add_left _ 1)) hr
    · exact hQ u hu (hst.trans hst')

/-- **The code of `bmap`** computes `Vol.bmap`. -/
theorem bmap {I : Nat → InodeData} {bn : Nat} (h : Carries p ∅ ∅ v s) (hfiles : v.Files s.sb I)
    (hsb : s.sb.Ok) (hn : Live s.sb I n) (hbn : bn < maxfile) (hdev : (s.inode ip).dev = rootdev)
    (hdp : (s.inode ip).data = some d) (hd : s.Apart d) (hi : (s.heap d).ino = I n)
    (hop : 1 ≤ s.log.outstanding) (hroom : 1 + (v.bmap s.sb (I n) bn).2.1.lh.length < nbuf ∨ ∀ e t, E e t)
    (hQ : ∀ t, Carries p ∅ ∅ (v.bmap s.sb (I n) bn).2.1 t →
      Still ∅ (s.setIno d (v.bmap s.sb (I n) bn).2.2) t → Q (v.bmap s.sb (I n) bn).1 t) :
    ends (bmap p ip bn) Q E s := by
  unfold Txv6.bmap
  rw [ends_bind]
  refine h.idata hdp ?_
  rw [ends_bind, ends_read, hdev]
  unfold Vol.bmap at hroom hQ
  by_cases hdir : bn < ndirect
  · simp only [dif_pos hdir] at hroom hQ ⊢
    refine h.bmapSlot hd hi hop (hroom.imp_left fun hr => ?_) hQ
    exact Nat.lt_of_le_of_lt (Nat.le_add_left _ _) hr
  have he : bn - ndirect < nindirect := by
    have : maxfile = ndirect + nindirect := rfl
    omega
  simp only [dif_neg hdir, if_pos he] at hroom hQ ⊢
  obtain ⟨hg, _, hslot⟩ := Vol.bmapSlot_grown hfiles hsb hn (Fin.last ndirect)
  rw [ends_bind]
  refine h.bmapSlot (k := Fin.last ndirect) hd hi hop (hroom.imp_left fun hr => ?_) fun t ht hst => ?_
  · split at hr
    · exact Nat.lt_of_le_of_lt (Nat.le_add_left _ _) hr
    · have hle := Vol.bmapEntry_length s.sb (v.bmapSlot s.sb (I n) (Fin.last ndirect)).2.1
        (v.bmapSlot s.sb (I n) (Fin.last ndirect)).1 (bn - ndirect)
      exact Nat.lt_of_le_of_lt hle (Nat.lt_of_le_of_lt (Nat.le_add_left _ _) hr)
  generalize hres : v.bmapSlot s.sb (I n) (Fin.last ndirect) = r at *
  by_cases h0 : r.1 = 0
  · rw [if_pos h0] at hQ ⊢
    exact hQ t ht hst
  rw [if_neg h0] at hroom hQ ⊢
  -- the indirect block is in use, so the allocator does not touch it
  have hlive : Live s.sb (update I n r.2.2) n := (hg.live n).mpr hn
  have hind : (update I n r.2.2 n).slot r.2.1.blk ndirect = r.1 := by
    rw [update_self]
    exact hslot h0
  have hused := hg.files.slot_used hlive ndirect_lt_nslots (by rw [hind]; exact h0)
  have hrange := hg.files.slot_range hlive ndirect_lt_nslots (by rw [hind]; exact h0)
  rw [hind] at hused hrange
  have hsbt : t.sb = s.sb := hst.sb
  have hop' : 1 ≤ t.log.outstanding := by rw [hst.outstanding]; exact hop
  have hle := Vol.bmapEntry_length s.sb r.2.1 r.1 (bn - ndirect)
  rw [ends_bind]
  refine ht.bread (by simp) (by simp) (hroom.imp_left fun hr => .inr ?_) fun b t₁ hb h₁ st₁ b₁ => ?_
  · rw [Finset.card_empty, Nat.zero_add]
    exact Nat.lt_of_le_of_lt hle (Nat.lt_of_le_of_lt (Nat.le_add_left _ _) hr)
  rw [ends_bind]
  refine h₁.bdata ?_
  have hsb₁ : t₁.sb = s.sb := st₁.sb.trans hsbt
  have hins : insert b (∅ : Finset BufPtr) = {b} := rfl
  rw [hins] at h₁
  rw [ends_bind]
  refine h₁.bmapEntry b₁ (by rw [hsb₁]; exact hused) (by rw [hsb₁]; exact hrange.1)
    (by rw [st₁.outstanding]; exact hop') (by rw [hsb₁]; exact hroom) fun t₂ h₂ st₂ => ?_
  rw [ends_bind]
  refine h₂.brelse (D := ∅) (Finset.notMem_empty b) fun t₃ h₃ st₃ _ => ?_
  rw [hsb₁] at h₃ ⊢
  exact hQ t₃ h₃ (hst.trans (st₁.trans ((st₂.mono (Finset.empty_subset _)).trans st₃)))

end Carries
end Txv6
