import Txv6.Volume.Ops
import Txv6.Lib.Slots

/-! # Directories

The contents of a directory are entries of a number and a name field. `dirlookup`, `dirlink` and
the removal of an entry treat them as a table of slots, with names compared up to a zero byte and
in their first `dirsiz` bytes only.
-/
namespace Txv6
open Lib Lib.Prog Function List

variable {m : Name → Option Nat} {inum : Nat} {Q : Option (InodePtr × Nat) → Kernel → Prop}

/-! ## Names -/

/-- What counts of a name. -/
def key (name : Name) : Name := (name.takeWhile (· != 0)).take dirsiz

/-- A string is over at a zero byte or at the end of the list, which reads as zero. -/
theorem takeWhile_head (l : Name) : (l.headD 0 = 0 ∧ l.takeWhile (· != 0) = []) ∨
    (l.headD 0 ≠ 0 ∧ l.takeWhile (· != 0) = l.headD 0 :: l.tail.takeWhile (· != 0)) := by
  cases l with
  | nil => exact .inl ⟨rfl, rfl⟩
  | cons c l =>
    by_cases hc : c = 0
    · refine .inl ⟨hc, ?_⟩
      rw [takeWhile_cons, if_neg (by rw [hc]; decide)]
    · refine .inr ⟨hc, ?_⟩
      rw [takeWhile_cons, if_pos (bne_iff_ne.mpr hc)]
      rfl

theorem strncmp_eq_zero : ∀ (n : Nat) (s t : Name), strncmp s t n = 0 ↔
    (s.takeWhile (· != 0)).take n = (t.takeWhile (· != 0)).take n
  | 0, _, _ => by simp [strncmp]
  | n + 1, s, t => by
    unfold strncmp
    rcases takeWhile_head s with ⟨hs, es⟩ | ⟨hs, es⟩
    · rcases takeWhile_head t with ⟨ht, et⟩ | ⟨ht, et⟩
      · rw [if_neg (fun hc => hc.1 hs), hs, ht, es, et]
        simp
      · rw [if_neg (fun hc => hc.1 hs), hs, es, et, take_nil, take_succ_cons]
        have : (t.headD 0).toNat ≠ 0 := fun e => ht (BitVec.eq_of_toNat_eq e)
        have hz : (0 : UChar).toNat = 0 := rfl
        constructor
        · intro h
          omega
        · intro h
          cases h
    · rcases takeWhile_head t with ⟨ht, et⟩ | ⟨ht, et⟩
      · rw [if_neg (fun hc => hs (hc.2.trans ht)), ht, es, et, take_nil, take_succ_cons]
        have : (s.headD 0).toNat ≠ 0 := fun e => hs (BitVec.eq_of_toNat_eq e)
        have hz : (0 : UChar).toNat = 0 := rfl
        constructor
        · intro h
          omega
        · intro h
          cases h
      · rw [es, et, take_succ_cons, take_succ_cons, List.cons.injEq]
        by_cases heq : s.headD 0 = t.headD 0
        · rw [if_pos ⟨hs, heq⟩, strncmp_eq_zero n]
          exact ⟨fun h => ⟨heq, h⟩, fun h => h.2⟩
        · rw [if_neg (fun hc => heq hc.2)]
          have : (s.headD 0).toNat ≠ (t.headD 0).toNat := fun e => heq (BitVec.eq_of_toNat_eq e)
          constructor
          · intro h
            omega
          · exact fun h => absurd h.1 heq

/-- Names are equal to the code when their keys are. -/
theorem namecmp_eq_zero (s t : Name) : namecmp s t = 0 ↔ key s = key t := strncmp_eq_zero dirsiz s t

theorem strncpy_length : ∀ (n : Nat) (s : Name), (strncpy s n).length = n
  | 0, _ => by simp [strncpy]
  | n + 1, [] => by simp [strncpy, strncpy_length n]
  | n + 1, c :: t => by
    unfold strncpy
    split
    · simp [strncpy_length n]
    · simp [strncpy_length n]

theorem strncpy_takeWhile : ∀ (n : Nat) (s : Name),
    (strncpy s n).takeWhile (· != 0) = (s.takeWhile (· != 0)).take n
  | 0, _ => by simp [strncpy]
  | n + 1, [] => by simp [strncpy]
  | n + 1, c :: t => by
    by_cases hc : c = 0
    · simp [strncpy, hc]
    · have hne : (c != 0) = true := bne_iff_ne.mpr hc
      rw [strncpy, if_neg hc, takeWhile_cons, if_pos hne, takeWhile_cons, if_pos hne, take_succ_cons,
        strncpy_takeWhile n t]

/-- A name field has the key of the name it was made from. -/
theorem key_strncpy (name : Name) : key (strncpy name dirsiz) = key name := by
  unfold key
  rw [strncpy_takeWhile, take_take, Nat.min_self]

/-! ## Entries -/

/-- What the 16 bytes of an entry say. -/
def Dirent.pair (de : Dirent) : Option (Name × Nat) := if de.inum = 0 then none else some (key de.name, de.inum)

/-- Entry `j` of a directory with contents `c`. -/
def entry (c : List UChar) (j : Nat) : Option (Name × Nat) :=
  (Dirent.ofBytes ((c.drop (direntSize * j)).take direntSize)).pair

section Entries
variable {c bs : List UChar} {j : Nat}

theorem Dirent.ofBytes_bytes {name : Name} (h : inum < 2 ^ 16) :
    Dirent.ofBytes (Dirent.bytes ⟨inum, name⟩) = ⟨inum, name⟩ := by
  have hx : byteOf (BitVec.ofNat 16 inum) 1 ++ byteOf (BitVec.ofNat 16 inum) 0 = BitVec.ofNat 16 inum :=
    append_byteOf_short _
  unfold Dirent.ofBytes Dirent.bytes
  simp only [cons_append, nil_append, getD_cons_succ, getD_cons_zero, drop_succ_cons,
    drop_zero]
  rw [hx, BitVec.toNat_ofNat, Nat.mod_eq_of_lt h]

theorem entry_of_le (h : c.length ≤ direntSize * j) : entry c j = none := by
  unfold entry
  rw [drop_eq_nil_of_le h]
  rfl

/-- An entry is replaced, or one is added at the end. -/
theorem entry_splice (hj : direntSize * j ≤ c.length) (hbs : bs.length = direntSize) :
    entry (Vol.splice c (direntSize * j) bs) = update (entry c) j (Dirent.ofBytes bs).pair := by
  funext i
  unfold entry
  by_cases e : i = j
  · subst e
    rw [update_self]
    congr 2
    apply ext_getElem?
    intro q
    by_cases hq : q < direntSize
    · rw [List.getElem?_take_of_lt hq, List.getElem?_drop, Vol.splice_new hj (by omega) (by omega)]
      congr 1
      omega
    · rw [List.getElem?_eq_none (by rw [length_take]; omega), List.getElem?_eq_none (by omega)]
  · rw [update_of_ne e]
    congr 2
    apply ext_getElem?
    intro q
    by_cases hq : q < direntSize
    · rw [List.getElem?_take_of_lt hq, List.getElem?_take_of_lt hq, List.getElem?_drop, List.getElem?_drop,
        Vol.splice_old hj]
      rw [hbs]
      rcases Nat.lt_or_gt_of_ne e with e | e
      · have := Nat.mul_le_mul_left direntSize (Nat.succ_le_of_lt e)
        rw [Nat.mul_succ] at this
        omega
      · have := Nat.mul_le_mul_left direntSize (Nat.succ_le_of_lt e)
        rw [Nat.mul_succ] at this
        omega
    · rw [List.getElem?_eq_none (by rw [length_take]; omega),
        List.getElem?_eq_none (by rw [length_take]; omega)]

end Entries

/-! ## Directories on a volume -/

/-- The inode is a directory whose entries hold the map `m`. -/
structure InodeData.Dir (blk : Nat → Block) (i : InodeData) (m : Name → Option Nat) : Prop where
  type : i.type = tDir
  aligned : direntSize ∣ i.size.toNat
  slots : Slots (entry (i.content blk)) m

namespace InodeData
variable {blk : Nat → Block} {i : InodeData} {j : Nat}

/-- A read of one entry. -/
theorem piece_entry (hw : i.Whole blk) (ha : direntSize ∣ i.size.toNat) (hj : direntSize * j < i.size.toNat) :
    (i.piece blk (direntSize * j) direntSize).length = direntSize ∧
      (Dirent.ofBytes (i.piece blk (direntSize * j) direntSize)).pair = entry (i.content blk) j := by
  have hmax : i.size.toNat ≤ 268 * 1024 := hw.small
  obtain ⟨q, hq⟩ := ha
  have hlt : j < q := by
    rw [hq] at hj
    exact Nat.lt_of_mul_lt_mul_left hj
  have hend : direntSize * j + direntSize ≤ i.size.toNat := by
    rw [hq, ← Nat.mul_succ]
    exact Nat.mul_le_mul_left direntSize hlt
  have hpiece : i.piece blk (direntSize * j) direntSize = ((i.content blk).drop (direntSize * j)).take direntSize := by
    unfold piece
    rw [if_neg (by omega)]
  rw [hpiece]
  refine ⟨?_, rfl⟩
  rw [length_take, length_drop, content_length]
  omega

theorem no_entry_beyond {x : Name} (hle : i.size.toNat ≤ direntSize * j)
    (h : ∀ l < j, ∀ b, entry (i.content blk) l ≠ some (x, b)) (l b : Nat) : entry (i.content blk) l ≠ some (x, b) := by
  by_cases hl : l < j
  · exact h l hl b
  · rw [entry_of_le]
    · exact (Option.some_ne_none _).symm
    · rw [content_length]
      exact hle.trans (Nat.mul_le_mul_left direntSize (Nat.le_of_not_lt hl))

end InodeData

namespace Fsys
variable {p : ProcPtr} {k : Int} {L : Finset InodePtr} {v : Vol} {I : Nat → InodeData} {s t : Kernel}
  {dp : InodePtr} {n : Nat} {E : Err → Kernel → Prop} {d : Page} {name : Name}

theorem whole (h : Fsys p k L v I s) (hlive : Live s.sb I n) : (I n).Whole v.blk :=
  ⟨h.files.small n hlive, h.files.filled n hlive⟩

/-- The page of a loaded inode. -/
theorem page (h : Fsys p k L v I s) (hl : s.Loaded dp n) (hlive : Live s.sb I n)
    (hd : (s.inode dp).data = some d) : (s.heap d).ino = I n := by
  obtain ⟨d', hd', hed⟩ := h.editing hl hlive
  rw [hd] at hd'
  cases hd'
  exact hed.inode.ino

/-- The loop of `dirlookup` from entry `j` on. -/
theorem dirlookupLoop
    (ha : direntSize ∣ (I n).size.toNat) (hroom : v.lh.length < nbuf) : ∀ fuel j {s : Kernel}, Fsys p k L v I s →
    s.Loaded dp n → Live s.sb I n → (s.inode dp).data = some d → (∃ jp, (s.inode jp).ref = 0) →
    (I n).size.toNat ≤ direntSize * (j + fuel) →
    (∀ i < j, ∀ b, entry ((I n).content v.blk) i ≠ some (key name, b)) →
    (∀ t, Fsys p k L v I t → Moved 0 s t → (∀ i b, entry ((I n).content v.blk) i ≠ some (key name, b)) →
      Q none t) →
    (∀ i b ip t, Fsys p k L v I t → Moved (Pi.single ip 1) s t → entry ((I n).content v.blk) i = some (key name, b) →
      (t.inode ip).inum = b → ((t.inode ip).ref = 1 → (t.inode ip).valid = false) →
      Q (some (ip, direntSize * i)) t) →
    ends (dirlookupLoop p dp d name fuel (direntSize * j)) Q E s := by
  intro fuel
  induction fuel with
  | zero =>
    intro j s h _ _ _ _ hfuel hbefore hnone _
    exact hnone s h (.refl s) (InodeData.no_entry_beyond hfuel hbefore)
  | succ fuel ih =>
    intro j s h hl hlive hd hslot hfuel hbefore hnone hsome
    unfold Txv6.dirlookupLoop ifield
    rw [ends_bind, ends_read, h.page hl hlive hd]
    by_cases hj : direntSize * j < (I n).size.toNat
    swap
    · rw [if_neg hj]
      exact hnone s h (.refl s) (InodeData.no_entry_beyond (Nat.le_of_not_lt hj) hbefore)
    rw [if_pos hj, ends_bind]
    have hw := h.whole hlive
    have hmax : (I n).size.toNat ≤ 268 * 1024 := hw.small
    obtain ⟨hlen, hpair⟩ := InodeData.piece_entry hw ha hj
    refine h.readi hl hlive hroom (by omega) (by decide) fun t ht hst => ?_
    have hl' := (Moved.of_still hst).loaded_of_nonneg (fun _ => Int.le_refl 0) hl
    have hlive' : Live t.sb I n := by rw [hst.sb]; exact hlive
    rw [hlen, if_neg (not_not.mpr rfl)]
    -- the next round
    have hnext : (∀ b, entry ((I n).content v.blk) j ≠ some (key name, b)) →
        ends (Txv6.dirlookupLoop p dp d name fuel (direntSize * j + direntSize)) Q E t := by
      intro hne
      rw [← Nat.mul_succ]
      refine ih (j + 1) ht hl' hlive' (by rw [hst.inode]; exact hd) (by rw [hst.inode]; exact hslot)
        (by rw [Nat.add_assoc, Nat.add_comm 1]; exact hfuel) (fun i hi b => ?_) ?_ ?_
      · rcases Nat.lt_succ_iff_lt_or_eq.mp hi with hi | rfl
        · exact hbefore i hi b
        · exact hne b
      · exact fun u hu hmv hno => hnone u hu ((Moved.of_still hst).after hmv) hno
      · exact fun i b ip u hu hmv => hsome i b ip u hu ((Moved.of_still hst).after hmv)
    unfold Dirent.pair at hpair
    by_cases h0 : (Dirent.ofBytes ((I n).piece v.blk (direntSize * j) direntSize)).inum = 0
    · rw [if_pos h0] at hpair ⊢
      refine hnext fun b => ?_
      rw [← hpair]
      exact fun hb => (nomatch hb)
    rw [if_neg h0] at hpair ⊢
    by_cases hname : namecmp name (Dirent.ofBytes ((I n).piece v.blk (direntSize * j) direntSize)).name = 0
    · rw [if_pos hname, ends_bind, ends_read, (ht.table.entry dp).dev hl'.ref, ends_bind]
      refine ht.iget (.inr (by rw [hst.inode]; exact hslot)) fun ip u hu hmv hinum hfresh => ?_
      refine hsome j _ ip u hu ((Moved.of_still hst).after hmv) ?_ hinum hfresh
      rw [← hpair, (namecmp_eq_zero _ _).mp hname]
    · rw [if_neg hname]
      refine hnext fun b hb => hname ((namecmp_eq_zero _ _).mpr ?_)
      rw [← hpair] at hb
      exact (Prod.mk.inj (Option.some.inj hb)).1.symm

/-- **`dirlookup`** finds the entry of a name, if there is one. -/
theorem dirlookup (h : Fsys p k L v I s)
    (hl : s.Loaded dp n) (hlive : Live s.sb I n) (hdir : (I n).Dir v.blk m) (hroom : v.lh.length < nbuf)
    (hslot : ∃ jp, (s.inode jp).ref = 0) (hnone : ∀ t, Fsys p k L v I t → Moved 0 s t → m (key name) = none → Q none t)
    (hsome : ∀ i b ip t, Fsys p k L v I t → Moved (Pi.single ip 1) s t →
      entry ((I n).content v.blk) i = some (key name, b) → (t.inode ip).inum = b →
      ((t.inode ip).ref = 1 → (t.inode ip).valid = false) → Q (some (ip, direntSize * i)) t) :
    ends (dirlookup p dp name) Q E s := by
  obtain ⟨d, hd, hed⟩ := h.editing hl hlive
  unfold Txv6.dirlookup kassert
  rw [ends_bind]
  refine h.carries.idata hd ?_
  have htype : ((s.heap d).ino.type == tDir) = true := by
    rw [hed.inode.ino, hdir.type]
    exact beq_self_eq_true _
  rw [ends_bind, ends_check, htype, if_pos rfl]
  have hmax : (I n).size.toNat ≤ 268 * 1024 := (h.whole hlive).small
  refine h.dirlookupLoop hdir.aligned hroom direntRounds 0 hl hlive hd hslot ?_ (fun i hi => absurd hi (Nat.not_lt_zero i))
    ?_ hsome
  · refine Nat.le_trans hmax ?_
    decide
  · exact fun t ht hmv hno => hnone t ht hmv (hdir.slots.eq_none.mpr hno)

/-- The search for an empty entry from entry `j` on. -/
theorem emptySlotLoop {Q : Nat → Kernel → Prop} (ha : direntSize ∣ (I n).size.toNat) (hroom : v.lh.length < nbuf) :
    ∀ fuel j {s : Kernel}, Fsys p k L v I s → s.Loaded dp n → Live s.sb I n → (s.inode dp).data = some d →
    (I n).size.toNat ≤ direntSize * (j + fuel) → direntSize * j ≤ (I n).size.toNat →
    (∀ i < j, entry ((I n).content v.blk) i ≠ none) →
    (∀ i t, Fsys p k L v I t → Moved 0 s t → direntSize * i ≤ (I n).size.toNat →
      entry ((I n).content v.blk) i = none → (∀ i' < i, entry ((I n).content v.blk) i' ≠ none) →
      Q (direntSize * i) t) → ends (emptySlotLoop p dp d fuel (direntSize * j)) Q E s := by
  intro fuel
  induction fuel with
  | zero =>
    intro j s h _ _ _ hfuel hle hbefore hQ
    refine hQ j s h (.refl s) hle (entry_of_le ?_) hbefore
    rwa [InodeData.content_length]
  | succ fuel ih =>
    intro j s h hl hlive hd hfuel hle hbefore hQ
    unfold Txv6.emptySlotLoop ifield
    rw [ends_bind, ends_read, h.page hl hlive hd]
    by_cases hj : direntSize * j < (I n).size.toNat
    swap
    · rw [if_neg hj]
      refine hQ j s h (.refl s) hle (entry_of_le ?_) hbefore
      rw [InodeData.content_length]
      omega
    rw [if_pos hj, ends_bind]
    have hw := h.whole hlive
    have hmax : (I n).size.toNat ≤ 268 * 1024 := hw.small
    obtain ⟨hlen, hpair⟩ := InodeData.piece_entry hw ha hj
    refine h.readi hl hlive hroom (by omega) (by decide) fun t ht hst => ?_
    have hl' := (Moved.of_still hst).loaded_of_nonneg (fun _ => Int.le_refl 0) hl
    have hlive' : Live t.sb I n := by rw [hst.sb]; exact hlive
    rw [hlen, if_neg (not_not.mpr rfl)]
    unfold Dirent.pair at hpair
    by_cases h0 : (Dirent.ofBytes ((I n).piece v.blk (direntSize * j) direntSize)).inum = 0
    · rw [if_pos h0] at hpair ⊢
      exact hQ j t ht (.of_still hst) hle hpair.symm hbefore
    · rw [if_neg h0] at hpair ⊢
      rw [← Nat.mul_succ]
      refine ih (j + 1) ht hl' hlive' (by rw [hst.inode]; exact hd)
        (by rw [Nat.add_assoc, Nat.add_comm 1]; exact hfuel) ?_ (fun i hi => ?_) ?_
      · obtain ⟨q, hq⟩ := ha
        rw [hq] at hj ⊢
        exact Nat.mul_le_mul_left direntSize (Nat.succ_le_of_lt (Nat.lt_of_mul_lt_mul_left hj))
      · rcases Nat.lt_succ_iff_lt_or_eq.mp hi with hi | rfl
        · exact hbefore i hi
        · rw [← hpair]
          exact Option.some_ne_none _
      · exact fun i u hu hmv => hQ i u hu ((Moved.of_still hst).after hmv)

end Fsys

/-! ## Entries are written -/

/-- Inode `n` has become `i` on the volume `w`, with entries `e`; nothing else has changed. -/
structure Vol.Reentered (sb : Superblock) (n : Nat) (v : Vol) (I : Nat → InodeData) (e : Nat → Option (Name × Nat))
    (w : Vol) (i : InodeData) : Prop where
  same : i = { I n with size := i.size, addrs := i.addrs }
  aligned : direntSize ∣ i.size.toNat
  entries : entry (i.content w.blk) = e
  others : ∀ m, m ≠ n → Live sb I m → (I m).content w.blk = (I m).content v.blk

/-- No entry is empty and there is no place for another one. -/
def InodeData.Full (sb : Superblock) (v : Vol) (i : InodeData) : Prop :=
  (∀ j < i.size.toNat / direntSize, entry (i.content v.blk) j ≠ none) ∧
    (maxfile * bsize < i.size.toNat + direntSize ∨ (v.bmap sb i (i.size.toNat / bsize)).1 = 0)

instance {sb : Superblock} {v : Vol} {i : InodeData} : Decidable (i.Full sb v) :=
  inferInstanceAs (Decidable (_ ∧ _))

namespace Fsys
variable {p : ProcPtr} {k : Int} {L : Finset InodePtr} {v : Vol} {I : Nat → InodeData} {s t : Kernel}
  {dp : InodePtr} {n j : Nat} {E : Err → Kernel → Prop} {name : Name} {bs : List UChar}

/-- An entry is within one block, so it is written or not. -/
theorem writeEntry {Q : Int → Kernel → Prop} (h : Fsys p k L v I s) (hk : 1 ≤ k) (hl : s.Loaded dp n)
    (hlive : Live s.sb I n) (ha : direntSize ∣ (I n).size.toNat) (hroom : v.lh.length + 8 < nbuf)
    (hbs : bs.length = direntSize) (hj : direntSize * j ≤ (I n).size.toNat)
    (hmax : direntSize * j + direntSize ≤ maxfile * bsize)
    (hQ : ∀ w i t, Fsys p k L w (update I n i) t → Moved 0 s t → t.inode = s.inode →
      w.lh.length ≤ v.lh.length + 7 → Vol.Reentered s.sb n v I (if (v.bmap s.sb (I n) (direntSize * j / bsize)).1 = 0 then
        entry ((I n).content v.blk) else update (entry ((I n).content v.blk)) j (Dirent.ofBytes bs).pair) w i →
      Q (if (v.bmap s.sb (I n) (direntSize * j / bsize)).1 = 0 then 0 else direntSize) t) :
    ends (Txv6.writei p dp (.kernel bs) (direntSize * j) direntSize) Q E s := by
  have hmax' : direntSize * j + direntSize ≤ 268 * 1024 := hmax
  have hfetch : (Src.kernel bs).fetch (s.proc p).umem 0 direntSize = (bs, true) := by
    change ((bs.drop 0).take direntSize, true) = (bs, true)
    rw [drop_zero, take_of_length_le (by omega)]
  have hr : ¬ Vol.Refused (I n) (direntSize * j) direntSize := by
    unfold Vol.Refused
    omega
  have hfit : direntSize * j % bsize + direntSize ≤ bsize := by
    change 16 * j % 1024 + 16 ≤ 1024
    omega
  have hz : direntSize / bsize = 0 := by decide
  refine h.writei hk hl hlive (by omega) (by decide) hfetch hbs (by rw [hz]; exact hroom) hr
    fun tot w i t htot hout hlen ht hmv hinode => ?_
  rw [Vol.writei_round hr (by decide) hfit (by rw [hfetch])] at htot
  have hcontent := hout.content
  rw [append_nil] at hcontent
  rw [hz] at hlen
  rw [← htot]
  refine hQ w i t ht hmv hinode hlen ⟨hout.same, ?_, ?_, hout.others⟩
  · rw [hout.size]
    by_cases h0 : (v.bmap s.sb (I n) (direntSize * j / bsize)).1 = 0
    · rw [if_pos h0] at htot
      have : tot = 0 := by omega
      rw [this, Nat.add_zero, Nat.max_eq_left hj]
      exact ha
    · rw [if_neg h0] at htot
      have : tot = direntSize := by omega
      rw [this]
      rcases Nat.le_total (I n).size.toNat (direntSize * j + direntSize) with hle | hle
      · rw [Nat.max_eq_right hle]
        exact ⟨j + 1, rfl⟩
      · rw [Nat.max_eq_left hle]
        exact ha
  · rw [hcontent]
    by_cases h0 : (v.bmap s.sb (I n) (direntSize * j / bsize)).1 = 0
    · rw [if_pos h0] at htot ⊢
      have : tot = 0 := by omega
      rw [this, take_zero, Vol.splice_nil, Nat.add_zero, Nat.max_eq_left hj, take_of_length_le]
      rw [InodeData.content_length]
    · rw [if_neg h0] at htot ⊢
      have : tot = direntSize := by omega
      have hj' : direntSize * j ≤ ((I n).content v.blk).length := by rw [InodeData.content_length]; exact hj
      rw [this, show bs.take direntSize = bs from take_of_length_le (Nat.le_of_eq hbs), take_of_length_le,
        entry_splice hj' hbs]
      rw [Vol.splice_length hj', InodeData.content_length, hbs]

/-- **`dirlink`** adds an entry, unless the name is there or the directory is full. -/
theorem dirlink {Q : Int → Kernel → Prop} (h : Fsys p k L v I s) (hk : 1 ≤ k)
    (hl : s.Loaded dp n) (hlive : Live s.sb I n) (hdir : (I n).Dir v.blk m) (hroom : v.lh.length + 8 < nbuf)
    (hslot : ∃ jp, (s.inode jp).ref = 0) (hinum : 1 ≤ inum ∧ inum < 2 ^ 16)
    (hfound : ∀ t, Fsys p k L v I t → Moved 0 s t → m (key name) ≠ none → Q (-1) t)
    (hfull : ∀ w i t, Fsys p k L w (update I n i) t → Moved 0 s t → w.lh.length ≤ v.lh.length + 7 →
      (I n).Full s.sb v → Vol.Reentered s.sb n v I (entry ((I n).content v.blk)) w i → Q (-1) t)
    (hdone : ∀ j w i t, Fsys p k L w (update I n i) t → Moved 0 s t → w.lh.length ≤ v.lh.length + 7 →
      m (key name) = none → ¬ (I n).Full s.sb v → entry ((I n).content v.blk) j = none →
      Vol.Reentered s.sb n v I (update (entry ((I n).content v.blk)) j (some (key name, inum))) w i → Q 0 t) :
    ends (Txv6.dirlink p dp name inum) Q E s := by
  unfold Txv6.dirlink
  rw [ends_bind]
  refine h.dirlookup hl hlive hdir (by omega) hslot (fun t₁ h₁ m₁ hnone => ?_) fun i b ip t₁ h₁ m₁ hi hip hfresh => ?_
  swap
  · dsimp only
    rw [ends_bind]
    refine h.putBack m₁ h₁ hfresh fun t₂ h₂ m₂ => hfound t₂ h₂ m₂ ?_
    rw [(hdir.slots.get (key name) b).mpr ⟨i, hi⟩]
    exact Option.some_ne_none b
  dsimp only
  have hl₁ := m₁.loaded_of_nonneg (fun _ => Int.le_refl 0) hl
  have hlive₁ : Live t₁.sb I n := by rw [m₁.sb]; exact hlive
  obtain ⟨d, hd, _⟩ := h₁.editing hl₁ hlive₁
  rw [ends_bind]
  refine h₁.carries.idata hd ?_
  rw [ends_bind]
  have hw := h.whole hlive
  have hsmall : (I n).size.toNat ≤ 268 * 1024 := hw.small
  refine h₁.emptySlotLoop hdir.aligned (by omega) direntRounds 0 hl₁ hlive₁ hd (Nat.le_trans hsmall (by decide))
    (Nat.zero_le _) (fun i hi => absurd hi (Nat.not_lt_zero i)) fun j t₂ h₂ m₂ hj hempty hbefore => ?_
  have m₁₂ := m₁.after m₂
  have hl₂ := m₁₂.loaded_of_nonneg (fun _ => Int.le_refl 0) hl
  have hlive₂ : Live t₂.sb I n := by rw [m₁₂.sb]; exact hlive
  have hlen : (Dirent.bytes ⟨inum, strncpy name dirsiz⟩).length = direntSize := by
    simp [Dirent.bytes, strncpy_length]
  have hpair : (Dirent.ofBytes (Dirent.bytes ⟨inum, strncpy name dirsiz⟩)).pair = some (key name, inum) := by
    rw [Dirent.ofBytes_bytes hinum.2]
    unfold Dirent.pair
    rw [if_neg (show ¬ inum = 0 by omega), key_strncpy]
  -- the directory is full when its end is not a place for an entry
  have hfull_iff : (I n).Full s.sb v ↔ maxfile * bsize < direntSize * j + direntSize ∨
      (v.bmap s.sb (I n) (direntSize * j / bsize)).1 = 0 := by
    obtain ⟨q, hq⟩ := hdir.aligned
    have hcount : (I n).size.toNat / direntSize = q := by
      rw [hq]
      exact Nat.mul_div_cancel_left q (by decide)
    rcases Nat.lt_or_eq_of_le hj with hlt | heq
    · have hblock := hw.block hlt
      have hpresent : v.bmap s.sb (I n) (direntSize * j / bsize) = _ := Vol.bmap_present hblock.2
      have hjq : j < q := by
        rw [hq] at hlt
        exact Nat.lt_of_mul_lt_mul_left hlt
      constructor
      · exact fun hf => absurd hempty (hf.1 j (by rw [hcount]; exact hjq))
      · rintro (hmax | h0)
        · have hle := Nat.mul_le_mul_left direntSize (Nat.succ_le_of_lt hjq)
          have hsmall' : (I n).size.toNat ≤ maxfile * bsize := hw.small
          rw [Nat.mul_succ, ← hq] at hle
          omega
        · rw [hpresent] at h0
          exact absurd h0 hblock.2
    · rw [heq]
      constructor
      · exact fun hf => hf.2
      · refine fun hc => ⟨fun i hi => hbefore i ?_, hc⟩
        rw [hcount] at hi
        rwa [Nat.eq_of_mul_eq_mul_left (by decide) (heq.trans hq)]
  rw [ends_bind]
  by_cases hmax : maxfile * bsize < direntSize * j + direntSize
  · refine h₂.writei_refused hl₂ hlive₂ (by omega) (by decide) (.inr (.inr hmax)) ?_
    refine hfull v (I n) t₂ (by rw [update_eq_self]; exact h₂) m₁₂ (Nat.le_add_right _ _)
      (hfull_iff.mpr (.inl hmax)) ⟨rfl, hdir.aligned, rfl, fun _ _ _ => rfl⟩
  · refine h₂.writeEntry hk hl₂ hlive₂ hdir.aligned hroom hlen hj (by omega) fun w i t₃ h₃ m₃ _ hlh hre => ?_
    rw [m₁₂.sb] at hre ⊢
    rw [hpair] at hre
    by_cases h0 : (v.bmap s.sb (I n) (direntSize * j / bsize)).1 = 0
    · rw [if_pos h0] at hre ⊢
      exact hfull w i t₃ h₃ (m₁₂.after m₃) hlh (hfull_iff.mpr (.inr h0)) hre
    · rw [if_neg h0] at hre ⊢
      refine hdone j w i t₃ h₃ (m₁₂.after m₃) hlh hnone (fun hf => ?_) hempty hre
      rcases hfull_iff.mp hf with hf | hf
      · exact hmax hf
      · exact h0 hf

end Fsys

end Txv6
