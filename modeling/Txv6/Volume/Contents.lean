import Txv6.Volume.Dinodes
import Mathlib.Data.List.GetD

/-! # What a write does to the contents of files

The bytes of a range are replaced block by block, and nothing else of any file changes.
-/
namespace Txv6
open Lib Function List

/-! ## Sources -/

/-- A source of `len` bytes that has the bytes `avail` in front of its first fault. -/
structure Feeds (src : Nat → Nat → List UChar × Bool) (len : Nat) (avail : List UChar) : Prop where
  short : avail.length ≤ len
  get : ∀ tot k, tot ≤ avail.length → tot + k ≤ len →
    src tot k = ((avail.drop tot).take k, decide (tot + k ≤ avail.length))

section Sources
variable {m : Nat → Option UChar}

theorem copyin_length (va n : Nat) : (copyin m va n).1.length ≤ n := by
  induction n generalizing va with
  | zero => exact Nat.le_refl 0
  | succ n ih =>
    unfold copyin
    cases m va with
    | none => exact Nat.zero_le _
    | some b => exact Nat.succ_le_succ (ih (va + 1))

/-- A part of a transfer, from its beginning. -/
theorem copyin_take {va n k : Nat} (h : k ≤ n) :
    copyin m va k = ((copyin m va n).1.take k, decide (k ≤ (copyin m va n).1.length)) := by
  induction k generalizing va n with
  | zero => simp [copyin]
  | succ k ih =>
    obtain ⟨n, rfl⟩ : ∃ l, n = l + 1 := ⟨n - 1, by omega⟩
    unfold copyin
    cases m va with
    | none => simp
    | some b =>
      dsimp only
      rw [ih (show k ≤ n by omega)]
      simp

/-- A part of a transfer that begins before the fault. -/
theorem copyin_drop {va n t k : Nat} (ht : t ≤ (copyin m va n).1.length) (h : t + k ≤ n) :
    copyin m (va + t) k =
      (((copyin m va n).1.drop t).take k, decide (t + k ≤ (copyin m va n).1.length)) := by
  induction t generalizing va n with
  | zero =>
    rw [copyin_take (show k ≤ n by omega)]
    simp
  | succ t ih =>
    obtain ⟨n, rfl⟩ : ∃ l, n = l + 1 := ⟨n - 1, by omega⟩
    cases hm : m va with
    | none => simp [copyin, hm] at ht
    | some b =>
      have hcons : (copyin m va (n + 1)).1 = b :: (copyin m (va + 1) n).1 := by simp [copyin, hm]
      rw [hcons] at ht ⊢
      simp only [length_cons] at ht ⊢
      have hrest : copyin m (va + 1 + t) k = (((copyin m (va + 1) n).1.drop t).take k,
        decide (t + k ≤ (copyin m (va + 1) n).1.length)) := ih (by omega) (by omega)
      rw [show va + (t + 1) = va + 1 + t by omega, hrest, drop_succ_cons]
      congr 1
      rw [decide_eq_decide]
      omega

theorem feeds_user (m : Nat → Option UChar) (va n : Nat) :
    Feeds ((Src.user va).fetch m) n (copyin m va n).1 :=
  ⟨copyin_length va n, fun _ _ ht hk => copyin_drop ht hk⟩

/-- A transfer that succeeds. -/
theorem Src.feeds {src : Src} {m : Nat → Option UChar} {len : Nat} {data : List UChar}
    (h : src.fetch m 0 len = (data, true)) (hlen : data.length = len) : Feeds (src.fetch m) len data := by
  cases src with
  | user va =>
    have hdata : (copyin m va len).1 = data := congrArg Prod.fst h
    rw [← hdata]
    exact feeds_user m va len
  | kernel bs =>
    have hdata : bs.take len = data := congrArg Prod.fst h
    refine ⟨Nat.le_of_eq hlen, fun tot k _ hk => ?_⟩
    rw [decide_eq_true (by rw [hlen]; exact hk), ← hdata, drop_take, take_take,
      Nat.min_eq_left (by omega)]
    rfl

end Sources

/-! ## One block -/

section Store
variable {sb : Superblock} {w u : Vol} {J : Nat → InodeData} {n pos : Nat} {ys : List UChar}

theorem InodeData.addr_congr {blk blk' : Nat → Block} {i j : InodeData} (h : ∀ k, j.slot blk' k = i.slot blk k)
    (bn : Nat) : j.addr blk' bn = i.addr blk bn := h _

/-- Different blocks of a file are different blocks of the volume. -/
theorem Vol.Files.addr_inj (h : w.Files sb J) (hn : Live sb J n) {bn bm : Nat} (hbn : bn < maxfile)
    (hbm : bm < maxfile) (hne : (J n).addr w.blk bn ≠ 0) (e : (J n).addr w.blk bn = (J n).addr w.blk bm) :
    bn = bm :=
  slotOf_inj (h.slot_inj hn (slotOf_lt hbn) hn (slotOf_lt hbm) hne e).2

/-- Bytes at position `pos` of a file, within one block. -/
theorem Vol.Files.store_bytes (h : w.Files sb J) (hsb : sb.Ok) (hn : Live sb J n) (hpos : pos / bsize < maxfile)
    (hne : (J n).addr w.blk (pos / bsize) ≠ 0) (hfit : pos % bsize + ys.length ≤ bsize)
    (hu : u.blk = Function.update w.blk ((J n).addr w.blk (pos / bsize))
      (putBytes (w.blk ((J n).addr w.blk (pos / bsize))) (pos % bsize) ys)) :
    u.Files sb J ∧ (∀ m, Live sb J m → ∀ k, (J m).slot u.blk k = (J m).slot w.blk k) ∧
    (∀ j, j / bsize < maxfile → (J n).addr w.blk (j / bsize) ≠ 0 → (J n).byte u.blk j =
      if pos ≤ j ∧ j < pos + ys.length then ys.getD (j - pos) 0 else (J n).byte w.blk j) ∧
    (∀ x, x ≠ (J n).addr w.blk (pos / bsize) → u.blk x = w.blk x) := by
  have hother : ∀ x, x ≠ (J n).addr w.blk (pos / bsize) → u.blk x = w.blk x := by
    intro x hx
    rw [hu, update_of_ne hx]
  obtain ⟨hfiles, hslot⟩ := h.store_slot (w := u) hsb hn (slotOf_lt hpos) slotOf_ne hne hother
  refine ⟨hfiles, hslot, fun j hj haddr => ?_, hother⟩
  unfold InodeData.byte
  rw [InodeData.addr_congr (hslot n hn)]
  have hj' := Nat.div_add_mod j bsize
  have hpos' := Nat.div_add_mod pos bsize
  by_cases e : j / bsize = pos / bsize
  · -- the same block: compare the offsets in it
    rw [e] at hj' ⊢
    rw [hu, update_self]
    unfold putBytes
    have hiff : (pos % bsize ≤ j % bsize ∧ j % bsize < pos % bsize + ys.length) ↔
        (pos ≤ j ∧ j < pos + ys.length) := by omega
    have hsub : j % bsize - pos % bsize = j - pos := by omega
    simp only [hiff, hsub]
  · have hblk : (J n).addr w.blk (j / bsize) ≠ (J n).addr w.blk (pos / bsize) :=
      fun ea => e (h.addr_inj hn hj hpos haddr ea)
    rw [hother _ hblk, if_neg]
    rintro ⟨h1, h2⟩
    refine e ?_
    rw [show j = pos + (j - pos) by omega]
    exact div_add_bsize (by omega)

end Store

/-! ## A range of bytes -/

namespace Vol

/-- From `v` to `w` the bytes at `off` of file `n` have become `bs`. Blocks may have been added to
the file, its inode has not got its new size yet. -/
structure Wrote (sb : Superblock) (n : Nat) (v : Vol) (I : Nat → InodeData) (off : Nat) (bs : List UChar)
    (w : Vol) (J : Nat → InodeData) : Prop where
  files : w.Files sb J
  other : ∀ m, m ≠ n → J m = I m
  same : J n = { I n with addrs := (J n).addrs }
  slots : ∀ k < nslots, (I n).slot v.blk k ≠ 0 → (J n).slot w.blk k = (I n).slot v.blk k
  data : ∀ m k, Live sb I m → m ≠ n → k < nslots → (I m).slot v.blk k ≠ 0 →
    w.blk ((I m).slot v.blk k) = v.blk ((I m).slot v.blk k)
  new : ∀ k < bs.length, (off + k) / bsize < maxfile ∧ (J n).addr w.blk ((off + k) / bsize) ≠ 0 ∧
    (J n).byte w.blk (off + k) = bs.getD k 0
  old : ∀ j, j / bsize < maxfile → ¬ (off ≤ j ∧ j < off + bs.length) → (I n).addr v.blk (j / bsize) ≠ 0 →
    (J n).byte w.blk j = (I n).byte v.blk j
  low : ∀ x < sb.bmapstart, w.blk x = v.blk x

namespace Wrote
variable {sb : Superblock} {n off : Nat} {v w u : Vol} {I J L : Nat → InodeData} {bs ys : List UChar}

theorem refl (h : v.Files sb I) : Wrote sb n v I off [] v I where
  files := h
  other _ _ := rfl
  same := rfl
  slots _ _ _ := rfl
  data _ _ _ _ _ _ := rfl
  new k hk := absurd hk (Nat.not_lt_zero k)
  old _ _ _ _ := rfl
  low _ _ := rfl

section
variable (h : Wrote sb n v I off bs w J)
include h

theorem live (m : Nat) : Live sb J m ↔ Live sb I m := by
  have : (J m).type = (I m).type := by
    by_cases e : m = n
    · rw [e, h.same]
    · rw [h.other m e]
  unfold Live
  rw [this]

theorem size (m : Nat) : (J m).size = (I m).size := by
  by_cases e : m = n
  · rw [e, h.same]
  · rw [h.other m e]

/-- A slot of another file keeps its block. -/
theorem slot_other {m : Nat} (hm : Live sb I m) (hmn : m ≠ n) (k : Nat) :
    (J m).slot w.blk k = (I m).slot v.blk k := by
  rw [h.other m hmn]
  refine InodeData.slot_congr (fun hi => ?_) k
  rw [← InodeData.slot_ind v.blk] at hi ⊢
  exact h.data m ndirect hm hmn ndirect_lt_nslots hi

/-- A block that the file had is the same block. -/
theorem addr {bn : Nat} (hbn : bn < maxfile) (hne : (I n).addr v.blk bn ≠ 0) :
    (J n).addr w.blk bn = (I n).addr v.blk bn := h.slots _ (slotOf_lt hbn) hne

/-- More blocks for the file. -/
theorem grown (hn : Live sb I n) (g : Grown sb n w J u L) :
    Wrote sb n v I off bs u L where
  files := g.files
  other m hm := (g.other m hm).trans (h.other m hm)
  same := by rw [g.same, h.same]
  slots k hk hne := by
    have e := h.slots k hk hne
    rw [← e] at hne
    rw [g.slots k hk hne, e]
  data m k hm hmn hk hne := by
    have e := h.slot_other hm hmn k
    have := g.data m k ((h.live m).mpr hm) hk (fun e => hmn (Prod.mk.inj e).1) (by rw [e]; exact hne)
    rw [e] at this
    rw [this, h.data m k hm hmn hk hne]
  new k hk := by
    obtain ⟨hlt, hne, hb⟩ := h.new k hk
    have hn' := (h.live n).mpr hn
    refine ⟨hlt, ?_, (g.byte hn' hlt hne).trans hb⟩
    unfold InodeData.addr at hne ⊢
    rwa [g.slots _ (slotOf_lt hlt) hne]
  old j hj hout hne := by
    have hne' : (J n).addr w.blk (j / bsize) ≠ 0 := by
      rw [h.addr hj hne]
      exact hne
    rw [g.byte ((h.live n).mpr hn) hj hne', h.old j hj hout hne]
  low x hx := (g.low x hx).trans (h.low x hx)

/-- More bytes, in one block. -/
theorem store (hsb : sb.Ok) (hn : Live sb I n)
    (hpos : (off + bs.length) / bsize < maxfile) (hne : (J n).addr w.blk ((off + bs.length) / bsize) ≠ 0)
    (hfit : (off + bs.length) % bsize + ys.length ≤ bsize)
    (hu : u.blk = Function.update w.blk ((J n).addr w.blk ((off + bs.length) / bsize))
      (putBytes (w.blk ((J n).addr w.blk ((off + bs.length) / bsize))) ((off + bs.length) % bsize) ys)) :
    Wrote sb n v I off (bs ++ ys) u J := by
  have hn' := (h.live n).mpr hn
  obtain ⟨hfiles, hslot, hbyte, hother⟩ := h.files.store_bytes hsb hn' hpos hne hfit hu
  have haddr : ∀ bn, (J n).addr u.blk bn = (J n).addr w.blk bn := InodeData.addr_congr (hslot n hn')
  have hdata := h.files.slot_range hn' (slotOf_lt hpos) hne
  refine ⟨hfiles, h.other, h.same, fun k hk hk0 => ?_, fun m k hm hmn hk hk0 => ?_, fun k hk => ?_,
    fun j hj hout hj0 => ?_, fun x hx => ?_⟩
  · rw [hslot n hn', h.slots k hk hk0]
  · -- a block of another file is another block
    rw [hother, h.data m k hm hmn hk hk0]
    intro e
    rw [← h.slot_other hm hmn k] at e hk0
    exact hmn (h.files.slot_inj ((h.live m).mpr hm) hk hn' (slotOf_lt hpos) hk0 e).1
  · rw [haddr]
    rw [length_append] at hk
    by_cases hlt : k < bs.length
    · obtain ⟨h1, h2, h3⟩ := h.new k hlt
      refine ⟨h1, h2, ?_⟩
      rw [hbyte _ h1 h2, if_neg (by omega), h3, getD_append _ _ _ _ hlt]
    · have hsame : (off + k) / bsize = (off + bs.length) / bsize := by
        rw [show off + k = off + bs.length + (k - bs.length) by omega]
        exact div_add_bsize (by omega)
      rw [hsame]
      refine ⟨hpos, hne, ?_⟩
      rw [hbyte _ (by rw [hsame]; exact hpos) (by rw [hsame]; exact hne), if_pos (by omega),
        getD_append_right _ _ _ _ (by omega), show off + k - (off + bs.length) = k - bs.length by omega]
  · rw [length_append] at hout
    have hj0' : (J n).addr w.blk (j / bsize) ≠ 0 := by
      rw [h.addr hj hj0]
      exact hj0
    rw [hbyte j hj hj0', if_neg (by omega), h.old j hj (by omega) hj0]
  · rw [hother, h.low x hx]
    have hlow : x < sb.datastart := Nat.lt_trans hx (Superblock.bmapstart_lt_datastart sb)
    exact Nat.ne_of_lt (Nat.lt_of_lt_of_le hlow hdata.1)

/-- The other files keep their contents. -/
theorem content_other (hI : v.Files sb I) {m : Nat} (hm : Live sb I m)
    (hmn : m ≠ n) : (J m).content w.blk = (I m).content v.blk := by
  unfold InodeData.content
  rw [h.size]
  refine map_congr_left fun j hj => ?_
  have hw : (I m).Whole v.blk := ⟨hI.small m hm, hI.filled m hm⟩
  obtain ⟨hlt, hne⟩ := hw.block (mem_range.mp hj)
  unfold InodeData.byte
  rw [InodeData.addr_congr (h.slot_other hm hmn)]
  rw [show w.blk ((I m).addr v.blk (j / bsize)) = v.blk ((I m).addr v.blk (j / bsize)) from
    h.data m _ hm hmn (slotOf_lt hlt) hne]
end

end Wrote

/-! ## The loop -/

/-- How the loop of `writei` ends after `tot` bytes: it is done, the disk is full, or the source
has a fault, with the bytes `stray` in front of it in the block at hand. -/
inductive Ending (sb : Superblock) (off len : Nat) (avail : List UChar) (tot : Nat) (stray : List UChar)
    (w : Vol) : Prop
  | all (total : tot = len) (clean : stray = [])
  | full (short : tot < len) (clean : stray = []) (full : w.free sb = none)
  | fault (short : avail.length < len) (stray : stray = avail.drop tot)
    (fit : (off + tot) % bsize + (avail.length - tot) < bsize) (start : tot = 0 ∨ (off + tot) % bsize = 0)

/-- What the loop of `writei` returns. -/
structure Written (sb : Superblock) (n : Nat) (v : Vol) (I : Nat → InodeData) (off len : Nat)
    (avail : List UChar) (r : (Nat × Nat) × Vol × InodeData) : Prop where
  pos : r.1.2 = off + r.1.1
  short : r.1.1 ≤ avail.length
  wrote : ∃ stray, Wrote sb n v I off (avail.take r.1.1 ++ stray) r.2.1 (Function.update I n r.2.2) ∧
    Ending sb off len avail r.1.1 stray r.2.1

section Loop
variable {sb : Superblock} {n off len : Nat} {v w : Vol} {I J : Nat → InodeData} {avail : List UChar}
  {src : Nat → Nat → List UChar × Bool}

theorem Wrote.update {bs : List UChar} (h : Wrote sb n v I off bs w J) (i : InodeData) :
    Function.update J n i = Function.update I n i := by
  funext m
  by_cases e : m = n
  · rw [e, update_self, update_self]
  · rw [update_of_ne e, update_of_ne e, h.other m e]

theorem Wrote.update_self {bs : List UChar} (h : Wrote sb n v I off bs w J) :
    Function.update I n (J n) = J := by
  rw [← h.update, update_eq_self]

/-- **The loop of `writei`** from `tot` on. -/
theorem writeiLoop_written (hfeed : Feeds src len avail) (hsb : sb.Ok) (hn : Live sb I n)
    (hmax : off + len ≤ maxfile * bsize) : ∀ fuel tot {w : Vol} {J : Nat → InodeData},
    Wrote sb n v I off (avail.take tot) w J → tot ≤ avail.length → len ≤ tot + fuel →
    (tot = 0 ∨ (off + tot) % bsize = 0 ∨ tot = len) →
    Written sb n v I off len avail (writeiLoop sb src len fuel tot (off + tot) w (J n)) := by
  -- nothing left
  have done : ∀ {tot fuel} {w : Vol} {J : Nat → InodeData}, Wrote sb n v I off (avail.take tot) w J →
      tot ≤ avail.length → ¬ tot < len →
      Written sb n v I off len avail (writeiLoop sb src len fuel tot (off + tot) w (J n)) := by
    intro tot fuel w J h htot hlt
    have := hfeed.short
    rw [writeiLoop_stop hlt]
    refine ⟨rfl, htot, [], ?_, .all (show tot = len by omega) rfl⟩
    rw [h.update_self, append_nil]
    exact h
  intro fuel
  induction fuel with
  | zero => exact fun tot w J h htot hfuel _ => done h htot (by omega)
  | succ fuel ih =>
    intro tot w J h htot hfuel hstart
    by_cases hlt : tot < len
    swap
    · exact done h htot hlt
    have hn' := (h.live n).mpr hn
    have hbn : (off + tot) / bsize < maxfile := index_lt (by omega)
    obtain ⟨hg, hfull, haddr⟩ := bmap_grown h.files hsb hn' hbn
    have hnext : _ → _ → writeiLoop sb src len (fuel + 1) tot (off + tot) w (J n) = _ := writeiLoop_next hlt
    have hfault : _ → _ → writeiLoop sb src len (fuel + 1) tot (off + tot) w (J n) = _ := writeiLoop_fault hlt
    have hstop : _ → writeiLoop sb src len (fuel + 1) tot (off + tot) w (J n) = _ := writeiLoop_full hlt
    have hblk : chunkBlock sb src len tot (off + tot) w (J n) =
      putBytes ((w.bmap sb (J n) ((off + tot) / bsize)).2.1.blk (w.bmap sb (J n) ((off + tot) / bsize)).1)
        ((off + tot) % bsize) (src tot (chunk len tot (off + tot))).1 := rfl
    generalize w.bmap sb (J n) ((off + tot) / bsize) = r at hg hfull haddr hnext hfault hstop hblk
    have h₁ := h.grown hn hg
    rw [h.update] at h₁
    by_cases h0 : r.1 = 0
    · rw [hstop h0]
      refine ⟨rfl, htot, [], ?_, .full hlt rfl (hfull h0)⟩
      rw [append_nil]
      exact h₁
    have hmod : (off + tot) % bsize < bsize := Nat.mod_lt _ (by decide)
    have hchunk : chunk len tot (off + tot) = min (len - tot) (bsize - (off + tot) % bsize) := rfl
    generalize chunk len tot (off + tot) = m at hnext hfault hblk hchunk
    obtain ⟨hsrc1, hsrc2⟩ := Prod.mk.inj (hfeed.get tot m htot (by omega))
    have hlen : (avail.take tot).length = tot := by
      rw [length_take]
      omega
    -- the store of this round
    have hstore : ∀ u : Vol, u.blk = Function.update r.2.1.blk r.1 (chunkBlock sb src len tot (off + tot) w (J n)) →
        Wrote sb n v I off (avail.take tot ++ (avail.drop tot).take m) u (Function.update I n r.2.2) := by
      intro u hu
      have ha : (Function.update I n r.2.2 n).addr r.2.1.blk ((off + tot) / bsize) = r.1 := by
        rw [update_self]
        exact haddr h0
      refine h₁.store hsb hn ?_ ?_ ?_ ?_
      · rw [hlen]
        exact hbn
      · rw [hlen, ha]
        exact h0
      · rw [hlen, length_take, length_drop]
        omega
      · rw [hlen, ha, hu, hblk, hsrc1]
    cases hok : (src tot m).2 with
    | false =>
      rw [hfault h0 hok]
      have hshort : avail.length < tot + m := by
        rw [hsrc2] at hok
        simpa using hok
      refine ⟨rfl, htot, (avail.drop tot).take m, hstore _ rfl, .fault (by omega) ?_ ?_ ?_⟩
      · refine take_of_length_le ?_
        rw [length_drop]
        omega
      · show (off + tot) % bsize + (avail.length - tot) < bsize
        omega
      · have : tot ≠ len := by omega
        tauto
    | true =>
      rw [hnext h0 hok]
      have hle : tot + m ≤ avail.length := by
        rw [hsrc2] at hok
        simpa using hok
      have h₂ := hstore (r.2.1.put r.1 (chunkBlock sb src len tot (off + tot) w (J n))) put_blk
      rw [← take_add] at h₂
      have hr := ih (tot + m) h₂ hle (by omega) ?_
      · rw [update_self, ← Nat.add_assoc] at hr
        exact hr
      · by_cases hm : tot + m = len
        · exact .inr (.inr hm)
        · refine .inr (.inl ?_)
          rw [show off + (tot + m) = off + tot + (bsize - (off + tot) % bsize) by omega]
          have := Nat.div_add_mod (off + tot) bsize
          rw [show off + tot + (bsize - (off + tot) % bsize) = bsize * ((off + tot) / bsize + 1) by
            rw [Nat.mul_add]; omega]
          exact Nat.mul_mod_right _ _

end Loop

/-! ## Contents -/

/-- A list with `bs` in place of what it has at `off`. -/
def splice (c : List UChar) (off : Nat) (bs : List UChar) : List UChar :=
  c.take off ++ bs ++ c.drop (off + bs.length)

section Splice
variable {c bs : List UChar} {off j : Nat}

theorem splice_length (h : off ≤ c.length) : (splice c off bs).length = max c.length (off + bs.length) := by
  unfold splice
  simp only [length_append, length_take, length_drop]
  omega

theorem splice_new (h : off ≤ c.length) (h1 : off ≤ j) (h2 : j < off + bs.length) :
    (splice c off bs)[j]? = bs[j - off]? := by
  have hl : (c.take off).length = off := by
    rw [length_take]
    omega
  unfold splice
  rw [append_assoc, List.getElem?_append_right (by omega), hl, List.getElem?_append_left (by omega)]

theorem splice_old (h : off ≤ c.length) (hj : ¬ (off ≤ j ∧ j < off + bs.length)) :
    (splice c off bs)[j]? = (c)[j]? := by
  have hl : (c.take off).length = off := by
    rw [length_take]
    omega
  unfold splice
  rw [append_assoc]
  by_cases h1 : j < off
  · rw [List.getElem?_append_left (by omega), List.getElem?_take_of_lt h1]
  · rw [List.getElem?_append_right (by omega), List.getElem?_append_right (by omega), hl,
      List.getElem?_drop, show off + bs.length + (j - off - bs.length) = j by omega]

theorem splice_nil : splice c off [] = c := by
  unfold splice
  simp

end Splice

section Grow
variable {i : InodeData} {e : Nat}

theorem grow_size (he : e < 2 ^ 32) : (grow i e).size.toNat = max i.size.toNat e := by
  unfold grow
  split
  · rw [BitVec.toNat_ofNat, Nat.mod_eq_of_lt he]
    omega
  · omega

theorem grow_slot (blk : Nat → Block) (k : Nat) : (grow i e).slot blk k = i.slot blk k := by
  unfold grow
  split <;> rfl

theorem grow_byte (blk : Nat → Block) (j : Nat) : (grow i e).byte blk j = i.byte blk j := by
  unfold grow
  split <;> rfl

theorem grow_same : grow i e = { i with size := (grow i e).size } := by
  unfold grow
  split <;> rfl

end Grow

theorem maxfile_lt : maxfile * bsize < 2 ^ 32 := by decide

namespace Wrote
variable {sb : Superblock} {n off e : Nat} {v w : Vol} {I J : Nat → InodeData} {bs : List UChar}

/-- The contents after the new size has been set. -/
theorem content_grow (h : Wrote sb n v I off bs w J) (hI : v.Files sb I) (hn : Live sb I n)
    (hoff : off ≤ (I n).size.toNat) (he : e ≤ off + bs.length) (hmax : e < 2 ^ 32) :
    (grow (J n) e).content w.blk =
      (splice ((I n).content v.blk) off bs).take (max (I n).size.toNat e) := by
  have hsize : (grow (J n) e).size.toNat = max (I n).size.toNat e := by
    rw [grow_size hmax, h.size]
  have hoff' : off ≤ ((I n).content v.blk).length := by
    rw [InodeData.content_length]
    exact hoff
  apply ext_getElem?
  intro j
  by_cases hj : j < max (I n).size.toNat e
  swap
  · rw [List.getElem?_eq_none (by rw [InodeData.content_length, hsize]; omega),
      List.getElem?_eq_none (by rw [length_take]; omega)]
  rw [List.getElem?_take_of_lt hj, InodeData.content_getElem? (by rw [hsize]; exact hj), grow_byte]
  by_cases hin : off ≤ j ∧ j < off + bs.length
  · obtain ⟨_, _, hb⟩ := h.new (j - off) (by omega)
    rw [show off + (j - off) = j by omega] at hb
    rw [splice_new hoff' hin.1 hin.2, hb, getD_eq_getElem?_getD,
      List.getElem?_eq_getElem (show j - off < bs.length by omega)]
    rfl
  · have hjs : j < (I n).size.toNat := by omega
    have hw : (I n).Whole v.blk := ⟨hI.small n hn, hI.filled n hn⟩
    obtain ⟨hlt, hne⟩ := hw.block hjs
    rw [splice_old hoff' hin, InodeData.content_getElem? hjs, h.old j hlt hin hne]

/-- The files after the new size has been set. -/
theorem files_grow (h : Wrote sb n v I off bs w J) (hI : v.Files sb I) (hsb : sb.Ok) (hn : Live sb I n)
    (hoff : off ≤ (I n).size.toNat) (he : e ≤ off + bs.length) (hmax : e ≤ maxfile * bsize) :
    w.Files sb (Function.update I n (grow (J n) e)) := by
  have hsize : (grow (J n) e).size.toNat = max (I n).size.toNat e := by
    rw [grow_size (Nat.lt_of_le_of_lt hmax maxfile_lt), h.size]
  have htype : (grow (J n) e).type = (J n).type := by rw [grow_same]
  have hK : ∀ m, Function.update I n (grow (J n) e) m = if m = n then grow (J n) e else J m := by
    intro m
    by_cases em : m = n
    · rw [em, Function.update_self, if_pos rfl]
    · rw [update_of_ne em, if_neg em, h.other m em]
  generalize Function.update I n (grow (J n) e) = K at hK
  have hlive : ∀ m, Live sb K m ↔ Live sb J m := by
    intro m
    unfold Live
    rw [hK]
    by_cases em : m = n
    · rw [em, if_pos rfl, htype]
    · rw [if_neg em]
  have hslot : ∀ m k, (K m).slot w.blk k = (J m).slot w.blk k := by
    intro m k
    rw [hK]
    by_cases em : m = n
    · rw [em, if_pos rfl, grow_slot]
    · rw [if_neg em]
  refine ⟨h.files.blocks.congr (fun x => ?_) (fun _ _ => rfl) hsb.data, fun m hm => ?_, fun m hm bn hbn => ?_⟩
  · unfold own
    simp only [hlive, hslot]
  · rw [hK]
    by_cases em : m = n
    · rw [em, if_pos rfl, hsize]
      have := hI.small n hn
      omega
    · rw [if_neg em]
      exact h.files.small m ((hlive m).mp hm)
  · rw [InodeData.addr_congr (hslot m)]
    by_cases em : m = n
    · subst em
      by_cases hold : bn * bsize < (J m).size.toNat
      · exact h.files.filled m ((hlive m).mp hm) bn hold
      · -- a block of the new bytes
        rw [hK, if_pos rfl, hsize] at hbn
        rw [h.size] at hold
        obtain ⟨_, hne, _⟩ := h.new (bn * bsize - off) (by omega)
        rw [show off + (bn * bsize - off) = bn * bsize by omega, Nat.mul_div_cancel _ (by decide)] at hne
        exact hne
    · rw [hK, if_neg em] at hbn
      exact h.files.filled m ((hlive m).mp hm) bn hbn

end Wrote

/-! ## The whole function -/

/-- What a `writei` that is not refused has done when it returns `tot`. -/
structure Outcome (sb : Superblock) (n : Nat) (v : Vol) (I : Nat → InodeData) (off len : Nat)
    (avail : List UChar) (tot : Nat) (stray : List UChar) (w : Vol) (i : InodeData) : Prop where
  short : tot ≤ avail.length
  ending : Ending sb off len avail tot stray w
  files : w.Files sb (Function.update I n i)
  same : i = { I n with size := i.size, addrs := i.addrs }
  size : i.size.toNat = max (I n).size.toNat (off + tot)
  content : i.content w.blk =
    (splice ((I n).content v.blk) off (avail.take tot ++ stray)).take (max (I n).size.toNat (off + tot))
  others : ∀ m, m ≠ n → Live sb I m → (I m).content w.blk = (I m).content v.blk
  dinode : ∀ m < sb.ninodes, w.dinode sb m = Function.update (v.dinode sb) n i m

section Writei
variable {sb : Superblock} {n off len : Nat} {v : Vol} {I : Nat → InodeData} {avail : List UChar}
  {src : Nat → Nat → List UChar × Bool}

theorem free_congr {w : Vol} (h : ∀ x, sb.bmapstart ≤ x → w.blk x = v.blk x) : w.free sb = v.free sb := by
  unfold free bit
  simp only [h _ (Superblock.bmapstart_le_bblock sb _)]

/-- **`writei`** replaces a range of one file and leaves the others alone. -/
theorem writei_outcome (h : v.Files sb I) (hsb : sb.Ok) (hn : Live sb I n) (hfeed : Feeds src len avail)
    (hok : ¬ Refused (I n) off len) : ∃ (tot : Nat) (stray : List UChar),
    (writei sb src n off len v (I n)).1 = tot ∧
    Outcome sb n v I off len avail tot stray (writei sb src n off len v (I n)).2.1
      (writei sb src n off len v (I n)).2.2 := by
  have hwritei : writei sb src n off len v (I n) = _ := if_neg hok
  rw [hwritei]
  unfold Refused at hok
  have hoff : off ≤ (I n).size.toNat := by omega
  have hmax : off + len ≤ maxfile * bsize := by omega
  have hstart : Wrote sb n v I off (avail.take 0) v I := by
    rw [take_zero]
    exact .refl h
  have hloop := writeiLoop_written hfeed hsb hn hmax len 0 hstart (Nat.zero_le _) (by omega) (.inl rfl)
  rw [Nat.add_zero] at hloop
  generalize writeiLoop sb src len len 0 off v (I n) = r at hloop
  obtain ⟨hpos, hshort, stray, hwrote, hend⟩ := hloop
  dsimp only
  rw [hpos]
  have hJ : Function.update I n r.2.2 n = r.2.2 := update_self ..
  have hle : off + r.1.1 ≤ off + (avail.take r.1.1 ++ stray).length := by
    rw [length_append, length_take]
    omega
  have hend' : off + r.1.1 ≤ maxfile * bsize := by
    have := hfeed.short
    omega
  have hend32 : off + r.1.1 < 2 ^ 32 := Nat.lt_of_le_of_lt hend' maxfile_lt
  have hfiles := hwrote.files_grow h hsb hn hoff hle hend'
  have hcontent := hwrote.content_grow h hn hoff hle hend32
  have hsize := hwrote.size n
  have hsame := hwrote.same
  rw [hJ] at hfiles hcontent hsize hsame
  generalize hi : grow r.2.2 (off + r.1.1) = i at hfiles hcontent
  have habove : ∀ x, sb.bmapstart ≤ x → (r.2.1.iupdate sb n i).blk x = r.2.1.blk x :=
    fun x hx => iupdate_above hsb hn.2.1 hx
  have hlive : Live sb (Function.update I n i) n := by
    refine ⟨hn.1, hn.2.1, ?_⟩
    rw [update_self, ← hi, grow_same, hsame]
    exact hn.2.2
  refine ⟨r.1.1, stray, rfl, hshort, ?_, (hfiles.above hsb habove).1, ?_, ?_, ?_, fun m hm hlm => ?_,
    fun m hm => ?_⟩
  · cases hend with
    | all h1 h2 => exact .all h1 h2
    | full h1 h2 h3 => exact .full h1 h2 ((free_congr habove).trans h3)
    | fault h1 h2 h3 h4 => exact .fault h1 h2 h3 h4
  · rw [← hi, grow_same, hsame]
  · rw [← hi, grow_size hend32, hsize]
  · have := hfiles.content_above hsb habove hlive
    rw [update_self] at this
    rw [this, hcontent]
  · have hlm' : Live sb (Function.update I n i) m := by
      unfold Live
      rw [update_of_ne hm]
      exact hlm
    have := hfiles.content_above hsb habove hlm'
    rw [update_of_ne hm] at this
    have hother := hwrote.content_other h hlm hm
    rw [update_of_ne hm] at hother
    rw [this, hother]
  · rw [iupdate_dinode]
    by_cases e : m = n
    · rw [e, update_self, update_self]
    · rw [update_of_ne e, update_of_ne e]
      exact dinode_congr hsb hwrote.low hm

end Writei
end Vol
end Txv6
