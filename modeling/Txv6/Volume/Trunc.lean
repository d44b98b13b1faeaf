import Txv6.Volume.Ops

/-! # Files that go away

`itrunc` frees the blocks of a file one after the other, and the last `iput` of an inode without
links frees the inode as well. What they do to the volume depends on the inode and on its indirect
block only.
-/
namespace Txv6
open Lib Function List
open Lib.Prog hiding update

/-! ## Freeing a list of blocks -/

namespace Vol
variable {sb : Superblock} {v w : Vol} {l : List Nat} {a b x : Nat}

/-- The blocks of a list are freed; 0 stands for no block. -/
def freeList (sb : Superblock) (v : Vol) (l : List Nat) : Vol :=
  l.foldl (fun v a => if a = 0 then v else v.bfree sb a) v

@[simp] theorem freeList_nil : v.freeList sb [] = v := rfl

theorem freeList_zero : v.freeList sb (0 :: l) = v.freeList sb l := rfl

theorem freeList_cons (h : a ≠ 0) : v.freeList sb (a :: l) = (v.bfree sb a).freeList sb l := by
  unfold freeList
  rw [foldl_cons, if_neg h]

theorem freeList_append (l l' : List Nat) : v.freeList sb (l ++ l') = (v.freeList sb l).freeList sb l' :=
  foldl_append

theorem bfree_bit : (v.bfree sb a).bit sb b = (v.bit sb b && !decide (b = a)) := by
  unfold bit bfree
  rw [put_blk]
  by_cases e : sb.bblock b = sb.bblock a
  · rw [e, update_self, clearBit_bitAt]
    congr 2
    have hdiv : b / bpb = a / bpb := Nat.add_right_cancel e
    rw [decide_eq_decide]
    constructor
    · intro hmod
      rw [← Nat.div_add_mod b bpb, ← Nat.div_add_mod a bpb, hdiv, hmod]
    · intro hab
      rw [hab]
  · rw [update_of_ne e]
    have hne : b ≠ a := fun hab => e (by rw [hab])
    simp [hne]

theorem freeList_bit (l : List Nat) (b : Nat) : (v.freeList sb l).bit sb b = true ↔
    v.bit sb b = true ∧ ∀ a ∈ l, a ≠ 0 → a ≠ b := by
  induction l generalizing v with
  | nil => simp
  | cons a l ih =>
    by_cases h : a = 0
    · subst h
      rw [freeList_zero, ih]
      simp
    · rw [freeList_cons h, ih, bfree_bit]
      simp only [Bool.and_eq_true, Bool.not_eq_true', decide_eq_false_iff_not, forall_mem_cons]
      constructor
      · rintro ⟨⟨h1, h2⟩, h3⟩
        exact ⟨h1, fun _ hab => h2 hab.symm, h3⟩
      · rintro ⟨h1, h2, h3⟩
        exact ⟨⟨h1, fun hba => h2 h hba.symm⟩, h3⟩

theorem freeList_blk (l : List Nat) (hx : ∀ a ∈ l, a ≠ 0 → x ≠ sb.bblock a) : (v.freeList sb l).blk x = v.blk x := by
  induction l generalizing v with
  | nil => rfl
  | cons a l ih =>
    have hl : ∀ a ∈ l, a ≠ 0 → x ≠ sb.bblock a := fun a' ha' => hx a' (mem_cons_of_mem a ha')
    by_cases h : a = 0
    · subst h
      rw [freeList_zero, ih hl]
    · rw [freeList_cons h, ih hl]
      unfold bfree
      rw [put_blk, update_of_ne (hx a mem_cons_self h)]

theorem mem_freeList_lh (l : List Nat) : x ∈ (v.freeList sb l).lh ↔
    x ∈ v.lh ∨ ∃ a ∈ l, a ≠ 0 ∧ x = sb.bblock a := by
  induction l generalizing v with
  | nil => simp
  | cons a l ih =>
    by_cases h : a = 0
    · subst h
      rw [freeList_zero, ih]
      simp
    · rw [freeList_cons h, ih]
      unfold bfree
      rw [mem_put]
      constructor
      · rintro ((h1 | h1) | ⟨c, hc, hc'⟩)
        · exact .inl h1
        · exact .inr ⟨a, mem_cons_self, h, h1⟩
        · exact .inr ⟨c, mem_cons_of_mem a hc, hc'⟩
      · rintro (h1 | ⟨c, hc, hc0, hc'⟩)
        · exact .inl (.inl h1)
        · rcases mem_cons.mp hc with rfl | hc
          · exact .inl (.inr hc')
          · exact .inr ⟨c, hc, hc0, hc'⟩

theorem freeList_lh_nodup (l : List Nat) (h : v.lh.Nodup) : (v.freeList sb l).lh.Nodup := by
  induction l generalizing v with
  | nil => exact h
  | cons a l ih =>
    by_cases h0 : a = 0
    · subst h0
      exact ih h
    · rw [freeList_cons h0]
      exact ih (log_nodup h)

theorem freeList_length (l : List Nat) : v.lh.length ≤ (v.freeList sb l).lh.length := by
  induction l generalizing v with
  | nil => exact Nat.le_refl _
  | cons a l ih =>
    by_cases h : a = 0
    · subst h
      exact ih
    · rw [freeList_cons h]
      exact Nat.le_trans put_length ih

/-- The blocks of the list are in use, each of them once. -/
structure Freeable (sb : Superblock) (v : Vol) (l : List Nat) : Prop where
  nodup : (l.filter (· ≠ 0)).Nodup
  used : ∀ a ∈ l, a ≠ 0 → v.bit sb a = true

theorem Freeable.tail (h : v.Freeable sb (a :: l)) (ha : a ≠ 0) : (v.bfree sb a).Freeable sb l := by
  have hn := h.nodup
  rw [filter_cons, if_pos (by simpa using ha), nodup_cons] at hn
  refine ⟨hn.2, fun c hc hc0 => ?_⟩
  rw [bfree_bit, h.used c (mem_cons_of_mem a hc) hc0]
  have hne : c ≠ a := by
    rintro rfl
    exact hn.1 (mem_filter.mpr ⟨hc, by simpa using hc0⟩)
  simp [hne]

theorem Freeable.zero (h : v.Freeable sb (0 :: l)) : v.Freeable sb l := by
  have hn := h.nodup
  rw [filter_cons, if_neg (by simp)] at hn
  exact ⟨hn, fun c hc => h.used c (mem_cons_of_mem 0 hc)⟩

/-- The blocks of a second list are freed after those of the first. -/
theorem Freeable.append {l' : List Nat} (h : v.Freeable sb (l ++ l')) :
    v.Freeable sb l ∧ (v.freeList sb l).Freeable sb l' := by
  have hn := h.nodup
  rw [filter_append, nodup_append] at hn
  refine ⟨⟨hn.1, fun a ha => h.used a (mem_append_left l' ha)⟩, hn.2.1, fun c hc hc0 => ?_⟩
  refine (freeList_bit l c).mpr ⟨h.used c (mem_append_right l hc) hc0, fun a ha ha0 hac => ?_⟩
  exact hn.2.2 a (mem_filter.mpr ⟨ha, by simpa using ha0⟩) c (mem_filter.mpr ⟨hc, by simpa using hc0⟩) hac

end Vol

/-! ## The blocks of an inode -/

namespace InodeData
variable {blk : Nat → Block} {i : InodeData}

/-- The blocks of an inode in the order in which `itrunc` frees them. -/
def blocks (blk : Nat → Block) (i : InodeData) : List Nat :=
  directSlots.map (fun k => (i.addrs k).toNat) ++ if i.ind = 0 then [] else
    (List.range nindirect).map (fun j => (le32 (blk i.ind) (4 * j)).toNat) ++ [i.ind]

/-- The slots of these blocks. -/
def order (i : InodeData) : List Nat :=
  List.range ndirect ++ if i.ind = 0 then [] else (List.range nindirect).map (· + (ndirect + 1)) ++ [ndirect]

theorem blocks_eq : i.blocks blk = i.order.map (i.slot blk) := by
  unfold blocks order
  have hdirect : directSlots.map (fun k => (i.addrs k).toNat) = (List.range ndirect).map (i.slot blk) := rfl
  rw [map_append, hdirect]
  by_cases hi : i.ind = 0
  · rw [if_pos hi, if_pos hi]
    rfl
  · rw [if_neg hi, if_neg hi, map_append, map_map, map_singleton, slot_ind]
    congr 2
    refine map_congr_left fun j _ => ?_
    rw [comp_apply, slot_entry (by omega) hi, Nat.add_sub_cancel]

theorem order_nodup (i : InodeData) : i.order.Nodup := by
  unfold order
  rw [nodup_append]
  refine ⟨nodup_range, ?_, fun a ha b hb => ?_⟩
  · split
    · exact nodup_nil
    · rw [nodup_append]
      refine ⟨(nodup_range).map fun a b h => Nat.add_right_cancel h, nodup_singleton _, fun a ha b hb => ?_⟩
      rw [mem_singleton] at hb
      obtain ⟨j, _, rfl⟩ := mem_map.mp ha
      omega
  · have ha := mem_range.mp ha
    split at hb
    · cases hb
    · rcases mem_append.mp hb with hb | hb
      · obtain ⟨j, _, rfl⟩ := mem_map.mp hb
        omega
      · rw [mem_singleton] at hb
        omega

theorem mem_order {k : Nat} (hk : i.slot blk k ≠ 0) : k ∈ i.order ↔ k < nslots := by
  have hns : nslots = ndirect + 1 + nindirect := rfl
  unfold order
  constructor
  · intro h
    rcases mem_append.mp h with h | h
    · have := mem_range.mp h
      omega
    · split at h
      · cases h
      · rcases mem_append.mp h with h | h
        · obtain ⟨j, hj, rfl⟩ := mem_map.mp h
          have := mem_range.mp hj
          omega
        · rw [mem_singleton] at h
          omega
  · intro h
    by_cases hd : k < ndirect
    · exact mem_append_left _ (mem_range.mpr hd)
    · have hi : i.ind ≠ 0 := by
        intro hi
        by_cases he : k = ndirect
        · rw [he, slot_ind] at hk
          exact hk hi
        · exact hk (slot_no_ind (by omega) hi)
      refine mem_append_right _ ?_
      rw [if_neg hi]
      by_cases he : k = ndirect
      · exact mem_append_right _ (mem_singleton.mpr he)
      · refine mem_append_left _ (mem_map.mpr ⟨k - (ndirect + 1), mem_range.mpr (by omega), by omega⟩)

/-- The blocks are what is in the slots. -/
theorem mem_blocks {a : Nat} (ha : a ≠ 0) : a ∈ i.blocks blk ↔ ∃ k < nslots, i.slot blk k = a := by
  rw [blocks_eq, mem_map]
  constructor
  · rintro ⟨k, hk, rfl⟩
    exact ⟨k, (mem_order ha).mp hk, rfl⟩
  · rintro ⟨k, hk, rfl⟩
    exact ⟨k, (mem_order ha).mpr hk, rfl⟩

end InodeData

section Files
variable {sb : Superblock} {v w : Vol} {I : Nat → InodeData} {n : Nat}

/-- The blocks of a file can be freed. -/
theorem Vol.Files.freeable (h : v.Files sb I) (hn : Live sb I n) : v.Freeable sb ((I n).blocks v.blk) := by
  constructor
  · rw [InodeData.blocks_eq, filter_map]
    refine List.Nodup.map_on (fun a ha b hb e => ?_) ((I n).order_nodup.filter _)
    have ha := mem_filter.mp ha
    have hb := mem_filter.mp hb
    have hane : (I n).slot v.blk a ≠ 0 := by simpa using ha.2
    have hbne : (I n).slot v.blk b ≠ 0 := by simpa using hb.2
    exact (h.slot_inj hn ((InodeData.mem_order hane).mp ha.1) hn ((InodeData.mem_order hbne).mp hb.1) hane e).2
  · intro a ha ha0
    obtain ⟨k, hk, rfl⟩ := (InodeData.mem_blocks ha0).mp ha
    exact h.slot_used hn hk ha0

theorem Vol.Files.blocks_range (h : v.Files sb I) (hn : Live sb I n) {a : Nat} (ha : a ∈ (I n).blocks v.blk)
    (ha0 : a ≠ 0) : sb.datastart ≤ a ∧ a < sb.size := by
  obtain ⟨k, hk, rfl⟩ := (InodeData.mem_blocks ha0).mp ha
  exact h.slot_range hn hk ha0

/-- An inode is freed together with its blocks. -/
theorem Vol.Files.drop {i : InodeData} (h : v.Files sb I) (hsb : sb.Ok) (hn : Live sb I n) (hi : i.type = 0)
    (hw : ∀ x, sb.datastart ≤ x → w.blk x = v.blk x) (hbit : ∀ b < sb.size, w.bit sb b = true ↔
      v.bit sb b = true ∧ ∀ a ∈ (I n).blocks v.blk, a ≠ 0 → a ≠ b) :
    w.Files sb (update I n i) ∧
      ∀ m, m ≠ n → Live sb I m → ∀ k, (I m).slot w.blk k = (I m).slot v.blk k := by
  have hslot : ∀ m, Live sb I m → ∀ k, (I m).slot w.blk k = (I m).slot v.blk k := by
    refine fun m hm => InodeData.slot_congr fun hind => hw _ ?_
    rw [← InodeData.slot_ind v.blk] at hind ⊢
    exact (h.slot_range hm ndirect_lt_nslots hind).1
  have hlive : ∀ m, Live sb (update I n i) m ↔ m ≠ n ∧ Live sb I m := by
    intro m
    by_cases e : m = n
    · subst e
      unfold Live
      simp [hi]
    · unfold Live
      rw [update_of_ne e]
      simp [e]
  have hother : ∀ {m}, m ≠ n → update I n i m = I m := fun e => update_of_ne e _ _
  refine ⟨⟨?_, fun m hm => ?_, fun m hm bn hbn => ?_⟩, fun m _ hm => hslot m hm⟩
  · have hused : ∀ b < sb.size, w.bit sb b = true ↔
        v.bit sb b = true ∧ ∀ x : Nat × Nat, x.1 = n → v.own sb I x ≠ 0 → v.own sb I x ≠ b := fun b hb => ?_
    · refine (h.blocks.release (fun x : Nat × Nat => x.1 = n) hsb.data hused).congr (fun x => ?_) (fun _ _ => rfl) hsb.data
      by_cases e : x.1 = n
      · rw [if_pos e]
        exact Vol.own_dead fun hx => ((hlive x.1).mp hx.1).1 e
      · rw [if_neg e]
        unfold Vol.own
        rw [hother e]
        by_cases hx : Live sb I x.1 ∧ x.2 < nslots
        · rw [if_pos hx, if_pos ⟨(hlive x.1).mpr ⟨e, hx.1⟩, hx.2⟩, hslot x.1 hx.1]
        · rw [if_neg hx, if_neg fun hx' => hx ⟨((hlive x.1).mp hx'.1).2, hx'.2⟩]
    · rw [hbit b hb]
      refine and_congr_right fun _ => ⟨fun hall x hx hne => ?_, fun hall a ha ha0 => ?_⟩
      · obtain ⟨m, k⟩ := x
        have hx : m = n := hx
        subst hx
        have hk : k < nslots := by
          by_contra hk
          exact hne (Vol.own_dead fun hc => hk hc.2)
        rw [Vol.own_eq hn hk] at hne ⊢
        exact hall _ ((InodeData.mem_blocks hne).mpr ⟨k, hk, rfl⟩) hne
      · obtain ⟨k, hk, rfl⟩ := (InodeData.mem_blocks ha0).mp ha
        have := hall (n, k) rfl
        rw [Vol.own_eq hn hk] at this
        exact this ha0
  · have hm := (hlive m).mp hm
    rw [hother hm.1]
    exact h.small m hm.2
  · have hm := (hlive m).mp hm
    rw [hother hm.1] at hbn ⊢
    have := h.filled m hm.2 bn hbn
    unfold InodeData.addr at this ⊢
    rwa [hslot m hm.2]

end Files

/-! ## The code -/

namespace InodeData

/-- The inode without the blocks in some slots. -/
def clear (i : InodeData) (l : List (Fin (ndirect + 1))) : InodeData :=
  { i with addrs := fun k => if k ∈ l then 0 else i.addrs k }

variable {i : InodeData} {k : Fin (ndirect + 1)} {l : List (Fin (ndirect + 1))}

theorem clear_nil : i.clear [] = i := by simp [clear]

theorem clear_cons : i.clear (k :: l) = { i with addrs := update i.addrs k 0 }.clear l := by
  unfold clear
  congr 1
  funext j
  by_cases hj : j = k
  · simp [hj]
  · simp [hj]

/-- The inode without any block. -/
def trunc (i : InodeData) : InodeData := { i with size := 0, addrs := fun _ => 0 }

theorem last_notMem_directSlots : Fin.last ndirect ∉ directSlots := by decide

theorem clear_direct_last : (i.clear directSlots).addrs (Fin.last ndirect) = i.addrs (Fin.last ndirect) := by
  unfold clear
  dsimp only
  rw [if_neg last_notMem_directSlots]

theorem clear_direct_castSucc (k : Fin ndirect) : (i.clear directSlots).addrs k.castSucc = 0 :=
  if_pos (mem_map.mpr ⟨k, mem_finRange k, rfl⟩)

/-- The direct blocks and the indirect block are all there is. -/
theorem clear_direct_update :
    { i.clear directSlots with size := 0, addrs := update (i.clear directSlots).addrs (Fin.last ndirect) 0 } =
      i.trunc := by
  have haddrs : update (i.clear directSlots).addrs (Fin.last ndirect) 0 = fun _ => 0 := by
    funext k
    refine Fin.lastCases ?_ (fun k => ?_) k
    · exact update_self ..
    · rw [update_of_ne (Fin.castSucc_lt_last k).ne, clear_direct_castSucc]
  rw [haddrs]
  rfl

theorem clear_direct_of_zero (h : i.ind = 0) : { i.clear directSlots with size := 0 } = i.trunc := by
  have hsame : update (i.clear directSlots).addrs (Fin.last ndirect) 0 = (i.clear directSlots).addrs := by
    rw [update_eq_self_iff, clear_direct_last, ind_eq_zero.mp h]
  rw [← clear_direct_update, hsame]

theorem clear_cons_of_zero (h : i.addrs k = 0) : i.clear (k :: l) = i.clear l := by
  rw [clear_cons, ← h, update_eq_self]

end InodeData

theorem Kernel.InodeAt.ends_setIfield {s : Kernel} {ip : InodePtr} {d : Page} {i : InodeData} {f : InodeData → InodeData}
    {Q : Unit → Kernel → Prop} {E : Err → Kernel → Prop} (h : s.InodeAt ip d i) :
    ends (setIfield d f) Q E s ↔ Q () (s.setIno d (f i)) := by
  unfold setIfield
  rw [ends_update]
  have hset : s.setPage d (fun x => { x with ino := f x.ino }) = s.setIno d (f i) := by
    unfold Kernel.setIno Kernel.setPage
    dsimp only
    rw [h.ino]
  rw [hset]

namespace Carries
variable {p : ProcPtr} {D : Finset BufPtr} {v : Vol} {s : Kernel} {d : Page} {i : InodeData} {ip : InodePtr}
  {E : Err → Kernel → Prop} {Q : Unit → Kernel → Prop} {ind n : Nat}

theorem itruncDirect : ∀ (l : List (Fin (ndirect + 1))) {v : Vol} {s : Kernel} {i : InodeData},
    Carries p ∅ ∅ v s → s.InodeAt ip d i → 1 ≤ s.log.outstanding → l.Nodup →
    v.Freeable s.sb (l.map fun k => (i.addrs k).toNat) →
    (1 + (v.freeList s.sb (l.map fun k => (i.addrs k).toNat)).lh.length < nbuf ∨ ∀ e t, E e t) →
    (∀ t, Carries p ∅ ∅ (v.freeList s.sb (l.map fun k => (i.addrs k).toNat)) t → Still ∅ (s.setIno d (i.clear l)) t →
      Q () t) → ends (itruncDirect p rootdev d false l) Q E s
  | [], v, s, i, h, hat, _, _, _, _, hQ => by
    unfold Txv6.itruncDirect
    rw [ends_pure]
    refine hQ s h ?_
    rw [InodeData.clear_nil, setIno_self hat.ino]
    exact .refl ∅ s
  | k :: l, v, s, i, h, hat, hop, hl, hfree, hroom, hQ => by
    unfold Txv6.itruncDirect ifield
    rw [ends_bind, ends_read, hat.ino, ends_bind, ends_when]
    rw [map_cons] at hfree hroom hQ
    obtain ⟨hkl, hl⟩ := nodup_cons.mp hl
    by_cases h0 : i.addrs k = 0
    · have hz : (i.addrs k).toNat = 0 := congrArg BitVec.toNat h0
      rw [hz] at hfree hroom hQ
      rw [if_neg (by simp [h0])]
      refine itruncDirect l h hat hop hl hfree.zero hroom fun t ht hst => hQ t ht ?_
      rwa [InodeData.clear_cons_of_zero h0]
    · have hne : (i.addrs k).toNat ≠ 0 := fun e => h0 (BitVec.eq_of_toNat_eq e)
      rw [if_pos (by simpa using h0), ends_bind, ends_when, Bool.not_false, if_pos rfl]
      rw [Vol.freeList_cons hne] at hroom hQ
      have hlen : v.lh.length ≤ ((v.bfree s.sb (i.addrs k).toNat).freeList s.sb
          (l.map fun k => (i.addrs k).toNat)).lh.length :=
        Nat.le_trans Vol.put_length (Vol.freeList_length _)
      refine h.bfree (by simp) (hfree.used _ mem_cons_self hne) hop
        (hroom.imp_left fun hr => by rw [Finset.card_empty]; omega) fun t₁ h₁ st₁ => ?_
      have hat₁ := hat.still st₁
      rw [hat₁.ends_setIfield]
      have hmap : (l.map fun j => (update i.addrs k 0 j).toNat) = l.map fun j => (i.addrs j).toNat := by
        refine map_congr_left fun j hj => ?_
        have hjk : j ≠ k := fun e => hkl (e ▸ hj)
        rw [update_of_ne hjk]
      have hsb : (t₁.setIno d { i with addrs := update i.addrs k 0 }).sb = s.sb := st₁.sb
      refine itruncDirect l (h₁.setIno hat₁.apart) hat₁.setIno ?_ hl ?_ ?_ fun t ht hst => ?_
      · have : t₁.log.outstanding = s.log.outstanding := st₁.outstanding
        show 1 ≤ t₁.log.outstanding
        omega
      · rw [hsb, hmap]
        exact hfree.tail hne
      · rw [hsb, hmap]
        exact hroom
      · rw [hsb, hmap] at ht
        refine hQ t ht ?_
        rw [InodeData.clear_cons]
        rw [setIno_setIno] at hst
        exact (st₁.setIno hat.apart).trans hst

/-- The blocks that the indirect block `b` names. -/
theorem itruncIndirect {b : BufPtr} : ∀ (l : List Nat) {v : Vol} {s : Kernel},
    Carries p {b} ∅ v s → (s.buf b).blockno = ind → 1 ≤ s.log.outstanding →
    v.Freeable s.sb (l.map fun j => (le32 (v.blk ind) (4 * j)).toNat) →
    (∀ a < s.sb.size, ind ≠ s.sb.bblock a) → (∀ j ∈ l, (le32 (v.blk ind) (4 * j)).toNat < s.sb.size) →
    (1 + (v.freeList s.sb (l.map fun j => (le32 (v.blk ind) (4 * j)).toNat)).lh.length < nbuf ∨ ∀ e t, E e t) →
    (∀ t, Carries p {b} ∅ (v.freeList s.sb (l.map fun j => (le32 (v.blk ind) (4 * j)).toNat)) t → Still {b} s t →
      Q () t) → ends (itruncIndirect p rootdev (s.buf b).data l) Q E s
  | [], v, s, h, _, _, _, _, _, _, hQ => by
    unfold Txv6.itruncIndirect
    rw [ends_pure]
    exact hQ s h (.refl _ s)
  | j :: l, v, s, h, hblk, hop, hfree, hind, hsize, hroom, hQ => by
    have hbytes : (s.heap (s.buf b).data).bytes = v.blk ind := by
      have := h.bytes (Finset.mem_singleton_self b)
      rw [hblk] at this
      exact this
    unfold Txv6.itruncIndirect bfield
    rw [ends_bind, ends_read, hbytes, ends_bind, ends_when]
    rw [map_cons] at hfree hroom hQ
    have hsize' : ∀ j ∈ l, (le32 (v.blk ind) (4 * j)).toNat < s.sb.size := fun j' hj' =>
      hsize j' (mem_cons_of_mem j hj')
    by_cases h0 : le32 (v.blk ind) (4 * j) = 0
    · have hz : (le32 (v.blk ind) (4 * j)).toNat = 0 := congrArg BitVec.toNat h0
      rw [hz] at hfree hroom hQ
      rw [if_neg (by simp [h0])]
      exact itruncIndirect l h hblk hop hfree.zero hind hsize' hroom hQ
    · have hne : (le32 (v.blk ind) (4 * j)).toNat ≠ 0 := fun e => h0 (BitVec.eq_of_toNat_eq e)
      have ha := hsize j mem_cons_self
      rw [if_pos (by simpa using h0)]
      rw [Vol.freeList_cons hne] at hroom hQ
      generalize (le32 (v.blk ind) (4 * j)).toNat = a at hfree hroom hQ hne ha ⊢
      have hlen : v.lh.length ≤ ((v.bfree s.sb a).freeList s.sb
          (l.map fun j => (le32 (v.blk ind) (4 * j)).toNat)).lh.length :=
        Nat.le_trans Vol.put_length (Vol.freeList_length _)
      have hself : (v.bfree s.sb a).blk ind = v.blk ind := by
        unfold Vol.bfree
        rw [Vol.put_blk, update_of_ne (hind a ha)]
      refine h.bfree (fun c hc => ?_) (hfree.used _ mem_cons_self hne) hop
        (hroom.imp_left fun hr => by rw [Finset.card_singleton]; omega) fun t₁ h₁ st₁ => ?_
      · rw [Finset.mem_singleton.mp hc, hblk]
        exact hind a ha
      · have hpage : (s.buf b).data = (t₁.buf b).data := (st₁.page b).symm
        rw [hpage]
        refine itruncIndirect l h₁ ((st₁.held b (Finset.mem_singleton_self b)).trans hblk) ?_ ?_ ?_ ?_ ?_ fun t ht hst => ?_
        · rw [st₁.outstanding]
          exact hop
        · rw [hself, st₁.sb]
          exact hfree.tail hne
        · rw [st₁.sb]
          exact hind
        · rw [hself, st₁.sb]
          exact hsize'
        · rw [hself, st₁.sb]
          exact hroom
        · rw [hself, st₁.sb] at ht
          exact hQ t ht (st₁.trans hst)

/-- The blocks that an indirect block names, and then the indirect block itself. -/
theorem freeIndirect {l : List Nat} (h : Carries p ∅ ∅ v s) (hop : 1 ≤ s.log.outstanding)
    (hl : l = (List.range nindirect).map fun j => (le32 (v.blk ind) (4 * j)).toNat) (h0 : ind ≠ 0)
    (hfree : v.Freeable s.sb (l ++ [ind])) (hdata : s.sb.datastart ≤ ind) (hsize : ∀ a ∈ l, a < s.sb.size)
    (hroom : 1 + (v.freeList s.sb (l ++ [ind])).lh.length < nbuf ∨ ∀ e t, E e t)
    (hQ : ∀ t, Carries p ∅ ∅ (v.freeList s.sb (l ++ [ind])) t → Still ∅ s t → Q () t) :
    ends (do
      let bp ← Txv6.bread p rootdev ind
      let a ← Txv6.bdata p bp
      Txv6.itruncIndirect p rootdev a (List.range nindirect)
      Txv6.brelse p bp
      Txv6.bfree p rootdev ind) Q E s := by
  subst hl
  have hnot : ∀ a < s.sb.size, ind ≠ s.sb.bblock a := by
    intro a ha e
    have := Superblock.bblock_lt ha
    omega
  obtain ⟨hfree₁, hfree₂⟩ := hfree.append
  rw [Vol.freeList_append, Vol.freeList_cons h0, Vol.freeList_nil] at hroom hQ
  have hused := hfree₂.used ind (mem_singleton_self ind) h0
  have hlen : (v.freeList s.sb ((List.range nindirect).map fun j => (le32 (v.blk ind) (4 * j)).toNat)).lh.length ≤
      ((v.freeList s.sb ((List.range nindirect).map fun j => (le32 (v.blk ind) (4 * j)).toNat)).bfree s.sb ind).lh.length :=
    Vol.put_length
  have hlen₀ : v.lh.length ≤
      (v.freeList s.sb ((List.range nindirect).map fun j => (le32 (v.blk ind) (4 * j)).toNat)).lh.length :=
    Vol.freeList_length _
  rw [ends_bind]
  refine h.bread (by simp) (by simp) (hroom.imp_left fun hr => .inr (by rw [Finset.card_empty]; omega))
    fun b t₁ _ h₁ st₁ b₁ => ?_
  rw [insert_empty_eq] at h₁
  rw [ends_bind]
  refine h₁.bdata ?_
  rw [ends_bind]
  rw [← st₁.sb] at hfree₁ hnot hroom hused hQ hlen hlen₀
  refine itruncIndirect _ h₁ b₁ ?_ hfree₁ hnot (fun j hj => ?_) (hroom.imp_left fun hr => by omega) fun t₂ h₂ st₂ => ?_
  · rw [st₁.outstanding]
    exact hop
  · rw [st₁.sb]
    exact hsize _ (mem_map.mpr ⟨j, hj, rfl⟩)
  rw [ends_bind]
  refine h₂.brelse (D := ∅) (Finset.notMem_empty b) fun t₃ h₃ st₃ _ => ?_
  have st₁₃ : Still ∅ t₁ t₃ := (st₂.mono (Finset.empty_subset _)).trans st₃
  rw [← st₁₃.sb] at h₃ hroom hused hQ hlen
  refine h₃.bfree (by simp) hused ?_ (hroom.imp_left fun hr => by rw [Finset.card_empty]; omega) fun t₄ h₄ st₄ => ?_
  · rw [st₁₃.outstanding, st₁.outstanding]
    exact hop
  · exact hQ t₄ h₄ (st₁.trans (st₁₃.trans st₄))

/-- The end of `itrunc`: the size goes, and the inode is written. -/
theorem writeTrunc {j : InodeData} (h : Carries p ∅ ∅ v s) (hat : s.InodeAt ip d j)
    (hinum : (s.inode ip).inum = n) (hop : 1 ≤ s.log.outstanding) (hj : { j with size := 0 } = i.trunc)
    (hroom : v.lh.length < nbuf ∨ ∀ e t, E e t)
    (hQ : ∀ t, Carries p ∅ ∅ (v.iupdate s.sb n i.trunc) t → Still ∅ (s.setIno d i.trunc) t → Q () t) :
    ends (do
      setIfield d fun x => { x with size := 0 }
      Txv6.iupdate p ip) Q E s := by
  rw [ends_bind, hat.ends_setIfield, hj]
  exact (h.setIno hat.apart).iupdate (by simp) hat.setIno hinum hop hroom fun u hu hst _ => hQ u hu hst

/-- `itrunc` frees the blocks of the inode and writes it without them. -/
theorem itrunc (h : Carries p ∅ ∅ v s) (hat : s.InodeAt ip d i) (hinum : (s.inode ip).inum = n)
    (hop : 1 ≤ s.log.outstanding) (hfree : v.Freeable s.sb (i.blocks v.blk))
    (hrange : ∀ a ∈ i.blocks v.blk, a ≠ 0 → s.sb.datastart ≤ a ∧ a < s.sb.size)
    (hroom : 1 + (v.freeList s.sb (i.blocks v.blk)).lh.length < nbuf ∨ ∀ e t, E e t)
    (hQ : ∀ t, Carries p ∅ ∅ ((v.freeList s.sb (i.blocks v.blk)).iupdate s.sb n i.trunc) t →
      Still ∅ (s.setIno d i.trunc) t → Q () t) : ends (itrunc p ip) Q E s := by
  -- what remains when the blocks are free
  have htail : ∀ {j : InodeData} {t : Kernel}, Carries p ∅ ∅ (v.freeList s.sb (i.blocks v.blk)) t →
      Still ∅ (s.setIno d j) t → { j with size := 0 } = i.trunc →
      ends (do setIfield d fun x => { x with size := 0 }; Txv6.iupdate p ip) Q E t := by
    intro j t ht hst hj
    have hstt : Still ∅ (s.setIno d i.trunc) (t.setIno d i.trunc) := by
      have := hst.setIno (i := i.trunc) hat.setIno.apart
      rwa [setIno_setIno] at this
    refine ht.writeTrunc (n := n) (hat.setIno.still hst) ?_ ?_ hj (hroom.imp_left fun hr => by omega) fun u hu hst' => ?_
    · rw [hst.inode]
      exact hinum
    · rw [hst.outstanding]
      exact hop
    · rw [hst.sb] at hu
      exact hQ u hu (hstt.trans hst')
  unfold Txv6.itrunc itruncWith
  rw [ends_bind]
  refine h.idata hat.data ?_
  rw [ends_bind]
  refine h.txActive ?_
  rw [ends_bind, ends_read, hat.dev, ends_bind]
  have hdirect : directSlots.Nodup := by decide
  by_cases hind : i.ind = 0
  · have hblocks : i.blocks v.blk = directSlots.map fun k => (i.addrs k).toNat := by
      unfold InodeData.blocks
      rw [if_pos hind, append_nil]
    have hzero := InodeData.ind_eq_zero.mp hind
    refine itruncDirect directSlots h hat hop hdirect (hblocks ▸ hfree) (hblocks ▸ hroom) fun t₁ h₁ st₁ => ?_
    rw [← hblocks] at h₁
    have hat₁ : t₁.InodeAt ip d (i.clear directSlots) := hat.setIno.still st₁
    unfold ifield
    rw [ends_bind, ends_read, hat₁.ino, ends_bind, ends_when]
    simp only [InodeData.clear_direct_last, hzero, bne_self_eq_false, Bool.false_eq_true, if_false]
    exact htail h₁ st₁ (InodeData.clear_direct_of_zero hind)
  · obtain ⟨l, hl⟩ : ∃ l, l = (List.range nindirect).map fun j => (le32 (v.blk i.ind) (4 * j)).toNat := ⟨_, rfl⟩
    have hblocks : i.blocks v.blk = (directSlots.map fun k => (i.addrs k).toNat) ++ (l ++ [i.ind]) := by
      unfold InodeData.blocks
      rw [if_neg hind, hl]
    rw [hblocks] at hfree hrange hroom htail
    obtain ⟨hfree₁, hfree₂⟩ := hfree.append
    rw [Vol.freeList_append] at hroom htail
    have hlen : (v.freeList s.sb (directSlots.map fun k => (i.addrs k).toNat)).lh.length ≤
        ((v.freeList s.sb (directSlots.map fun k => (i.addrs k).toNat)).freeList s.sb (l ++ [i.ind])).lh.length :=
      Vol.freeList_length _
    have hindr := hrange i.ind (by simp) hind
    have hpos : 0 < s.sb.size := Nat.lt_of_le_of_lt (Nat.zero_le _) hindr.2
    refine itruncDirect directSlots h hat hop hdirect hfree₁ (hroom.imp_left fun hr => by omega) fun t₁ h₁ st₁ => ?_
    have hat₁ : t₁.InodeAt ip d (i.clear directSlots) := hat.setIno.still st₁
    have hsb₁ : t₁.sb = s.sb := st₁.sb
    unfold ifield
    rw [ends_bind, ends_read, hat₁.ino, ends_bind, ends_when]
    have hne : (i.clear directSlots).addrs (Fin.last ndirect) ≠ 0 := by
      rw [InodeData.clear_direct_last]
      exact fun e => hind (InodeData.ind_eq_zero.mpr e)
    have hlast : (i.addrs (Fin.last ndirect)).toNat = i.ind := rfl
    dsimp only
    rw [if_pos (by simpa using hne), ends_bind, ends_when, Bool.not_false, if_pos rfl, InodeData.clear_direct_last, hlast]
    have hsame : (v.freeList s.sb (directSlots.map fun k => (i.addrs k).toNat)).blk i.ind = v.blk i.ind := by
      refine Vol.freeList_blk _ fun a ha ha0 e => ?_
      have := Superblock.bblock_lt (hrange a (mem_append_left _ ha) ha0).2
      omega
    refine h₁.freeIndirect (l := l) ?_ ?_ hind ?_ ?_ (fun a ha => ?_) ?_ fun t₂ h₂ st₂ => ?_
    · rw [st₁.outstanding]
      exact hop
    · rw [hsame]
      exact hl
    · rw [hsb₁]
      exact hfree₂
    · rw [hsb₁]
      exact hindr.1
    · rw [hsb₁]
      by_cases ha0 : a = 0
      · rw [ha0]
        exact hpos
      · exact (hrange a (mem_append_right _ (mem_append_left _ ha)) ha0).2
    · rw [hsb₁]
      exact hroom
    rw [hsb₁] at h₂
    have hat₂ := hat₁.still st₂
    rw [hat₂.ends_setIfield]
    refine htail (h₂.setIno hat₂.apart) (j := { i.clear directSlots with
      addrs := update (i.clear directSlots).addrs (Fin.last ndirect) 0 }) ?_ (InodeData.clear_direct_update (i := i))
    · have := (st₁.trans st₂).setIno (i := { i.clear directSlots with
        addrs := update (i.clear directSlots).addrs (Fin.last ndirect) 0 }) hat.setIno.apart
      rwa [setIno_setIno] at this

end Carries

end Txv6
