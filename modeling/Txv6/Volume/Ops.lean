import Txv6.Volume.Itable

/-! # Reading and writing in a file system

`readi` and `writei` on a locked inode, as steps of a process that runs alone: the inode table and
the other files stay as they are.
-/
namespace Txv6
open Lib Lib.Prog Function

/-! ## Where the logged blocks are -/

namespace Vol
variable {sb : Superblock} {v : Vol} {I : Nat → InodeData} {n : Nat} {i : InodeData}

/-- What is logged is outside of the log. -/
def Homed (sb : Superblock) (v : Vol) : Prop := ∀ x ∈ v.lh, sb.inodestart ≤ x

theorem inodestart_le_datastart (hsb : sb.Ok) : sb.inodestart ≤ sb.datastart := by
  have h1 : sb.inodestart ≤ sb.bmapstart := Nat.le_trans (Nat.le_add_right _ _) (Nat.le_of_lt hsb.inodes)
  have h2 := Superblock.bmapstart_lt_datastart sb
  omega

theorem Homed.put {x : Nat} {y : Block} (h : v.Homed sb) (hx : sb.inodestart ≤ x) : (v.put x y).Homed sb := by
  intro z hz
  rcases mem_put.mp hz with hz | rfl
  · exact h z hz
  · exact hx

section
variable (h : v.Homed sb) (hsb : sb.Ok)
include h hsb

theorem Homed.take {b : Nat} (hb : sb.datastart ≤ b) : (v.take sb b).Homed sb := by
  have h1 : sb.inodestart ≤ sb.bmapstart := Nat.le_trans (Nat.le_add_right _ _) (Nat.le_of_lt hsb.inodes)
  refine (h.put (Nat.le_trans h1 (sb.bmapstart_le_bblock b))).put ?_
  exact Nat.le_trans (inodestart_le_datastart hsb) hb

theorem Homed.balloc (hf : v.Files sb I) : (v.balloc sb).2.Homed sb := by
  rcases balloc_cases hf with ⟨_, hr⟩ | ⟨b, hbit, _, _, hr⟩
  · rw [hr]
    exact h
  · rw [hr]
    exact h.take hsb (hf.free_block hbit).1

theorem Homed.bmapSlot {k : Fin (ndirect + 1)} (hf : v.Files sb I) :
    (v.bmapSlot sb i k).2.1.Homed sb := by
  unfold Vol.bmapSlot
  split
  · exact h
  · dsimp only
    split
    · exact h.balloc hsb hf
    · exact h.balloc hsb hf

theorem Homed.bmapEntry {ind e : Nat} (hf : v.Files sb I)
    (hind : sb.datastart ≤ ind) : (v.bmapEntry sb ind e).2.Homed sb := by
  unfold Vol.bmapEntry
  split
  · exact h
  · dsimp only
    split
    · exact h.balloc hsb hf
    · exact (h.balloc hsb hf).put (Nat.le_trans (inodestart_le_datastart hsb) hind)
end

theorem Homed.bmap (bn : Nat) (h : v.Homed sb) (hsb : sb.Ok) (hf : v.Files sb I) (hn : Live sb I n) :
    (v.bmap sb (I n) bn).2.1.Homed sb := by
  unfold Vol.bmap
  split
  · exact h.bmapSlot hsb hf
  · have hslot := h.bmapSlot (i := I n) (k := Fin.last ndirect) hsb hf
    obtain ⟨hg, _, hself⟩ := bmapSlot_grown hf hsb hn (Fin.last ndirect)
    dsimp only
    split
    · exact hslot
    next h0 =>
      have hs := hself h0
      rw [Fin.val_last] at hs
      have hrange := hg.files.slot_range ((hg.live n).mpr hn) ndirect_lt_nslots
      rw [update_self, hs] at hrange
      exact hslot.bmapEntry hsb hg.files (hrange h0).1

theorem Homed.writeiLoop (src : Nat → Nat → List UChar × Bool) (len : Nat) (hsb : sb.Ok) :
    ∀ fuel tot off {v : Vol} {I : Nat → InodeData}, v.Homed sb → v.Files sb I → Live sb I n →
    off + (len - tot) ≤ maxfile * bsize → (writeiLoop sb src len fuel tot off v (I n)).2.1.Homed sb := by
  intro fuel
  induction fuel with
  | zero => exact fun _ _ _ _ h _ _ _ => h
  | succ fuel ih =>
    intro tot off v I h hf hn hmax
    by_cases hlt : tot < len
    swap
    · rw [writeiLoop_stop hlt]
      exact h
    have hbmap := h.bmap (off / bsize) hsb hf hn
    by_cases h0 : (v.bmap sb (I n) (off / bsize)).1 = 0
    · rw [writeiLoop_full hlt h0]
      exact hbmap
    have hbn : off / bsize < maxfile := index_lt (by omega)
    cases hok : (src tot (chunk len tot off)).2 with
    | false =>
      rw [writeiLoop_fault hlt h0 hok]
      exact hbmap
    | true =>
      rw [writeiLoop_next hlt h0 hok]
      obtain ⟨hfiles, hlive, _⟩ := hf.round hsb hn hbn h0 (chunkBlock sb src len tot off v (I n))
      obtain ⟨hg, _, haddr⟩ := bmap_grown hf hsb hn hbn
      generalize v.bmap sb (I n) (off / bsize) = r at h0 hbmap hfiles hlive hg haddr
      have hrange := hg.files.slot_range ((hg.live n).mpr hn) (slotOf_lt hbn)
      rw [update_self] at hrange
      have ha : r.2.2.slot r.2.1.blk (if off / bsize < ndirect then off / bsize else off / bsize + 1) = r.1 := haddr h0
      rw [ha] at hrange
      have hput : (r.2.1.put r.1 (chunkBlock sb src len tot off v (I n))).Homed sb :=
        hbmap.put (Nat.le_trans (inodestart_le_datastart hsb) (hrange h0).1)
      have hm : chunk len tot off ≤ len - tot := Nat.min_le_left _ _
      have hrest := ih (tot + chunk len tot off) (off + chunk len tot off) hput hfiles hlive (by omega)
      rw [update_self] at hrest
      exact hrest

theorem Homed.writei (src : Nat → Nat → List UChar × Bool) (off len : Nat) (h : v.Homed sb) (hsb : sb.Ok)
    (hf : v.Files sb I) (hn : Live sb I n) : (Vol.writei sb src n off len v (I n)).2.1.Homed sb := by
  by_cases hr : Refused (I n) off len
  · rw [writei_refused hr]
    exact h
  have hwritei : Vol.writei sb src n off len v (I n) = _ := if_neg hr
  rw [hwritei]
  unfold Refused at hr
  have hloop := Homed.writeiLoop src len hsb len 0 off h hf hn (by omega)
  exact hloop.put (Superblock.inodestart_le_iblock n)

/-- A write within one block. -/
theorem writei_round {src : Nat → Nat → List UChar × Bool} {off len : Nat} (hr : ¬ Refused i off len)
    (hlen : 0 < len) (hfit : off % bsize + len ≤ bsize) (hsrc : (src 0 len).2 = true) :
    (writei sb src n off len v i).1 = if (v.bmap sb i (off / bsize)).1 = 0 then 0 else (len : Int) := by
  have hwritei : writei sb src n off len v i = _ := if_neg hr
  have hchunk : chunk len 0 off = len := by
    unfold chunk
    omega
  obtain ⟨fuel, hfuel⟩ : ∃ fuel, len = fuel + 1 := Nat.exists_eq_succ_of_ne_zero (by omega)
  rw [hwritei]
  dsimp only
  have hloop : (writeiLoop sb src len len 0 off v i).1.1 = if (v.bmap sb i (off / bsize)).1 = 0 then 0 else len := by
    conv_lhs => rw [show writeiLoop sb src len len = writeiLoop sb src len (fuel + 1) by rw [← hfuel]]
    by_cases h0 : (v.bmap sb i (off / bsize)).1 = 0
    · rw [writeiLoop_full hlen h0, if_pos h0]
    · rw [writeiLoop_next hlen h0 (by rw [hchunk]; exact hsrc), hchunk, if_neg h0, Nat.zero_add,
        writeiLoop_stop (Nat.lt_irrefl len)]
  rw [hloop]
  split
  · rfl
  · rfl

end Vol

/-! ## Rules -/

namespace Fsys
variable {p : ProcPtr} {k : Int} {L : Finset InodePtr} {v : Vol} {I : Nat → InodeData} {s t : Kernel}
  {ip : InodePtr} {n off len : Nat} {E : Err → Kernel → Prop} {Q : Int → Kernel → Prop} {src : Src}

/-- `readi` into a kernel buffer. -/
theorem readi {Q : Int × List UChar → Kernel → Prop} (h : Fsys p k L v I s) (hl : s.Loaded ip n)
    (hlive : Live s.sb I n) (hroom : v.lh.length < nbuf) (hoff : off < 2 ^ 32) (hlen : len < 2 ^ 32)
    (hQ : ∀ t, Fsys p k L v I t → Still ∅ s t →
      Q (((I n).piece v.blk off len).length, (I n).piece v.blk off len) t) :
    ends (readi p ip .kernel off len) Q E s := by
  obtain ⟨d, hd, hed⟩ := h.editing hl hlive
  refine h.carries.readi hed.inode hed.whole hroom hoff hlen fun r t ht hst hr1 hr2 => ?_
  have hr : r = ((((I n).piece v.blk off len).length : Int), (I n).piece v.blk off len) := Prod.ext hr1 (hr2 rfl)
  have hst : Still ∅ s t := by
    have := hst
    unfold Dst.store at this
    rwa [setUmem_self] at this
  rw [hr]
  exact hQ t (h.still ht hst) hst

/-- `writei` from a source that has all the bytes. -/
theorem writei {data : List UChar} (h : Fsys p k L v I s) (hk : 1 ≤ k)
    (hl : s.Loaded ip n) (hlive : Live s.sb I n) (hoff : off < 2 ^ 32) (hlen : len < 2 ^ 32)
    (hsrc : src.fetch (s.proc p).umem 0 len = (data, true)) (hdata : data.length = len)
    (hroom : v.lh.length + 2 * (len / bsize) + 8 < nbuf) (hr : ¬ Vol.Refused (I n) off len)
    (hQ : ∀ (tot : Nat) w i t, (Vol.writei s.sb (src.fetch (s.proc p).umem) n off len v (I n)).1 = tot →
      Vol.Outcome s.sb n v I off len data tot [] w i → w.lh.length ≤ v.lh.length + 2 * (len / bsize) + 7 → Fsys p k L w (update I n i) t →
      Moved 0 s t → t.inode = s.inode → Q tot t) : ends (writei p ip src off len) Q E s := by
  obtain ⟨d, hd, hed⟩ := h.editing hl hlive
  have hfeed := Src.feeds hsrc hdata
  obtain ⟨tot, stray, htot, hout⟩ := Vol.writei_outcome h.files h.layout hlive hfeed hr
  have hlength := Vol.writei_length_le (src.fetch (s.proc p).umem) len h.files h.layout hlive off
  have hhome := Vol.Homed.writei (src.fetch (s.proc p).umem) off len h.home h.layout h.files hlive
  refine h.carries.writei h.files h.layout hlive hed.inode hl.inum (by rw [h.outstanding]; exact hk) hoff hlen
    (.inl (by omega)) fun W t ht hst hclean => ?_
  have hW : W = ∅ := by
    rcases hclean with hW | ⟨t', k', hk', hbad⟩
    · exact hW
    · rw [hfeed.get t' k' (by omega) hk'] at hbad
      simp [hdata, hk'] at hbad
  subst hW
  have hstray : stray = [] := by
    cases hout.ending with
    | all _ h2 => exact h2
    | full _ h2 _ => exact h2
    | fault h1 => omega
  subst hstray
  rw [htot]
  generalize Vol.writei s.sb (src.fetch (s.proc p).umem) n off len v (I n) = r at *
  have hsb : t.sb = s.sb := hst.sb
  have htable := h.table.setIno (i := r.2.2) hd hl.ref
  rw [hl.inum] at htable
  refine hQ tot r.2.1 r.2.2 t htot hout hlength ⟨ht, ?_, ?_, htable.still hst, ?_, ?_, ?_, ?_⟩ ?_ hst.inode
  · rw [hsb]
    exact hout.files
  · rw [hsb]
    exact h.layout
  · intro m hm
    rw [hsb] at hm ⊢
    rw [hout.dinode m hm]
    by_cases e : m = n
    · subst e
      rw [update_self, update_self]
    · rw [update_of_ne e, update_of_ne e, h.dinode m hm]
  · rw [hsb]
    exact hhome
  · exact hst.outstanding.trans h.outstanding
  · exact hst.committing.trans h.committing
  · have hm : Moved 0 s (s.setIno d r.2.2) := .of_inode rfl rfl
    exact hm.after (Moved.of_still hst)

theorem writei_refused (h : Fsys p k L v I s) (hl : s.Loaded ip n)
    (hlive : Live s.sb I n) (hoff : off < 2 ^ 32) (hlen : len < 2 ^ 32) (hr : Vol.Refused (I n) off len)
    (hQ : Q (-1) s) : ends (Txv6.writei p ip src off len) Q E s := by
  obtain ⟨d, hd, hed⟩ := h.editing hl hlive
  exact h.carries.writei_refused hed.inode hoff hlen hr hQ

end Fsys

end Txv6
