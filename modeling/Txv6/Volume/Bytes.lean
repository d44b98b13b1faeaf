import Txv6.Volume.Budget
import Txv6.Volume.Sample

/-! # Files as byte arrays

`readi` and `writei` on a consistent file system, by a process that runs alone: a file is an
array of bytes, and a write does not exceed what its operation has reserved in the log.
-/
namespace Txv6
open Lib Lib.Prog Function

/-- Process `p` runs alone, outside of a transaction, on a consistent file system with contents
`v` and inodes `I`; `ip` is its inode `n`. -/
structure Editing (p : ProcPtr) (ip : InodePtr) (d : Page) (n : Nat) (v : Vol) (I : Nat → InodeData)
    (s : Kernel) : Prop where
  carries : Carries p ∅ ∅ v s
  files : v.Files s.sb I
  layout : s.sb.Ok
  live : Live s.sb I n
  inode : s.InodeAt ip d (I n)
  inum : (s.inode ip).inum = n

namespace Editing
variable {p : ProcPtr} {ip : InodePtr} {d : Page} {n : Nat} {v : Vol} {I : Nat → InodeData} {s : Kernel}
  {off len : Nat}

section
variable (h : Editing p ip d n v I s)
include h

theorem whole : (I n).Whole v.blk :=
  ⟨h.files.small n h.live, h.files.filled n h.live⟩

/-- Another state with the same files. -/
theorem still {t : Kernel} (ht : Carries p ∅ ∅ v t) (hst : Still ∅ s t) :
    Editing p ip d n v I t :=
  ⟨ht, by rw [hst.sb]; exact h.files, by rw [hst.sb]; exact h.layout, by rw [hst.sb]; exact h.live,
    h.inode.still hst, by rw [hst.inode]; exact h.inum⟩

theorem setUmem {q : ProcPtr} {m : Nat → Option UChar} :
    Editing p ip d n v I (s.setUmem q m) :=
  ⟨h.carries.setUmem, h.files, h.layout, h.live, h.inode.setUmem, h.inum⟩

/-- What `readi` delivers if the destination takes it. -/
theorem readi (hlog : v.lh.length < nbuf) (hoff : off < 2 ^ 32)
    (hlen : len < 2 ^ 32) (dst : Dst) (hok : (dst.store (s.proc p).umem ((I n).piece v.blk off len)).1 = true) :
    ∃ t, (readi p ip dst off len).run s =
        (some (.ok (((I n).piece v.blk off len).length, (I n).piece v.blk off len)), t) ∧
      Still ∅ (s.setUmem p (dst.store (s.proc p).umem ((I n).piece v.blk off len)).2) t ∧
      Editing p ip d n v I t := by
  have hrun : ends (Txv6.readi p ip dst off len)
      (fun r t => r = ((((I n).piece v.blk off len).length : Int), (I n).piece v.blk off len) ∧ Carries p ∅ ∅ v t ∧
        Still ∅ (s.setUmem p (dst.store (s.proc p).umem ((I n).piece v.blk off len)).2) t) (fun _ _ => False) s := by
    refine h.carries.readi h.inode h.whole hlog hoff hlen fun r t ht hst hr hr2 => ?_
    rw [if_pos hok] at hr
    exact ⟨Prod.ext hr (hr2 hok), ht, hst⟩
  obtain ⟨r, t, hrun, rfl, ht, hst⟩ := ends_ok hrun
  exact ⟨t, hrun, hst, h.setUmem.still ht hst⟩

/-- What `writei` does if the source has all the bytes. -/
theorem writei (hoff : off < 2 ^ 32) (hlen : len < 2 ^ 32) (src : Src)
    {data : List UChar} (hsrc : src.fetch (s.proc p).umem 0 len = (data, true)) (hdata : data.length = len)
    (hop : 1 ≤ s.log.outstanding) (hroom : v.lh.length + 2 * (len / bsize) + 8 < nbuf)
    (hr : ¬ Vol.Refused (I n) off len) : ∃ (tot : Nat) (w : Vol) (i : InodeData) (t : Kernel),
      (writei p ip src off len).run s = (some (.ok tot), t) ∧ tot ≤ len ∧ (tot = len ∨ w.free s.sb = none) ∧
      i.content w.blk = Vol.splice ((I n).content v.blk) off (data.take tot) ∧
      i.size.toNat = max (I n).size.toNat (off + tot) ∧
      (∀ m, m ≠ n → Live s.sb I m → (I m).content w.blk = (I m).content v.blk) ∧
      Still ∅ (s.setIno d i) t ∧ Editing p ip d n w (update I n i) t := by
  have hfeed := Src.feeds hsrc hdata
  obtain ⟨tot, stray, htot, hout⟩ := Vol.writei_outcome h.files h.layout h.live hfeed hr
  have hlength := Vol.writei_length_le (src.fetch (s.proc p).umem) len h.files h.layout h.live off
  have hrun : ends (Txv6.writei p ip src off len) (fun r t => r = tot ∧
      Carries p ∅ ∅ (Vol.writei s.sb (src.fetch (s.proc p).umem) n off len v (I n)).2.1 t ∧
      Still ∅ (s.setIno d (Vol.writei s.sb (src.fetch (s.proc p).umem) n off len v (I n)).2.2) t)
      (fun _ _ => False) s := by
    refine h.carries.writei h.files h.layout h.live h.inode h.inum hop hoff hlen (.inl (by omega))
      fun W t ht hst hclean => ⟨htot, ?_, hst⟩
    rcases hclean with rfl | ⟨t', k, hk, hbad⟩
    · exact ht
    · rw [hfeed.get t' k (by omega) hk] at hbad
      simp [hdata, hk] at hbad
  generalize Vol.writei s.sb (src.fetch (s.proc p).umem) n off len v (I n) = r at hout hrun
  obtain ⟨a, t, hrun, rfl, ht, hst⟩ := ends_ok hrun
  -- there has been no fault
  have hclean : stray = [] ∧ (tot = len ∨ r.2.1.free s.sb = none) := by
    cases hout.ending with
    | all h1 h2 => exact ⟨h2, .inl h1⟩
    | full _ h2 h3 => exact ⟨h2, .inr h3⟩
    | fault h1 => omega
  have hsb : t.sb = s.sb := hst.sb
  have hcontent := hout.content
  rw [hclean.1, List.append_nil, List.take_of_length_le] at hcontent
  · refine ⟨tot, r.2.1, r.2.2, t, hrun, by have := hout.short; omega, hclean.2, hcontent, hout.size, hout.others,
      hst, ht, by rw [hsb]; exact hout.files, by rw [hsb]; exact h.layout, ?_, ?_, ?_⟩
    · rw [hsb]
      refine ⟨h.live.1, h.live.2.1, ?_⟩
      rw [update_self, hout.same]
      exact h.live.2.2
    · rw [update_self]
      exact h.inode.setIno.still hst
    · rw [hst.inode]
      exact h.inum
  · unfold Vol.Refused at hr
    rw [Vol.splice_length (by rw [InodeData.content_length]; omega), InodeData.content_length, List.length_take]
    have := hout.short
    omega
end

end Editing

section Claims
variable {p : ProcPtr} {ip : InodePtr} {d : Page} {n : Nat} {v : Vol} {I : Nat → InodeData} {s : Kernel}
  {off len : Nat}

theorem Sample.editing : Editing 0 1 201 2 vol inodes kernel :=
  ⟨kernel_carries, files, superblock_ok, live_iff.mpr (.inr (.inl rfl)), kernel_inode, rfl⟩

/-- **A chunk of `filewrite` fits its operation.** Of the blocks that are in the log after `writei`,
the ones that `writei` has put there are at most `MAXOPBLOCKS`, whatever the disk looks like. -/
theorem writei_logs_at_most_maxopblocks (h : Editing p ip d n v I s) (src : Src)
    (hoff : off ≤ (I n).size.toNat) (hlen : len ≤ (maxopblocks - 1 - 1 - 2) / 2 * bsize)
    (hop : 1 ≤ s.log.outstanding) (hroom : s.log.lh.length + maxopblocks + 1 < nbuf) :
    ∃ (r : Int) (t : Kernel) (S : List Nat), (writei p ip src off len).run s = (some (.ok r), t) ∧
      S = (Vol.writei s.sb (src.fetch (s.proc p).umem) n off len { v with lh := [] } (I n)).2.1.lh ∧
      (∀ x, x ∈ t.log.lh ↔ x ∈ s.log.lh ∨ x ∈ S) ∧ S.length ≤ maxopblocks := by
  rw [h.carries.log] at hroom ⊢
  have hoff32 : off < 2 ^ 32 := Nat.lt_of_le_of_lt hoff (I n).size.isLt
  have hlen32 : len < 2 ^ 32 := Nat.lt_of_le_of_lt hlen (by decide)
  have hcost := Vol.writei_length_le_maxopblocks (src.fetch (s.proc p).umem) h.files h.layout h.live hoff hlen
  have hrun : ends (writei p ip src off len)
      (fun _ t => t.log.lh = (Vol.writei s.sb (src.fetch (s.proc p).umem) n off len v (I n)).2.1.lh)
      (fun _ _ => False) s :=
    h.carries.writei h.files h.layout h.live h.inode h.inum hop hoff32 hlen32 (.inl (by omega))
      fun W t ht _ _ => ht.log
  obtain ⟨r, t, hrun, hlh⟩ := ends_ok hrun
  refine ⟨r, t, _, hrun, rfl, fun x => ?_, ?_⟩
  · rw [hlh]
    exact ((Vol.Over.empty v).writei _ n off len (I n)).lh x
  · have hfiles : ({ v with lh := [] } : Vol).Files s.sb I := ⟨h.files.blocks, h.files.small, h.files.filled⟩
    have := Vol.writei_length_le_maxopblocks (src.fetch (s.proc p).umem) hfiles h.layout h.live hoff hlen
    simpa using this

theorem writei_logs_at_most_maxopblocks_sample : ∃ (r : Int) (t : Kernel) (S : List Nat),
    (writei 0 1 (.kernel (List.replicate 3072 0)) 1000 3072).run Sample.kernel = (some (.ok r), t) ∧
    (∀ x, x ∈ t.log.lh ↔ x ∈ Sample.kernel.log.lh ∨ x ∈ S) ∧ S.length ≤ maxopblocks := by
  obtain ⟨r, t, S, hrun, _, hmem, hlen⟩ := writei_logs_at_most_maxopblocks Sample.editing
    (.kernel (List.replicate 3072 0)) (show 1000 ≤ Sample.bigFile.size.toNat by decide)
    (show 3072 ≤ (maxopblocks - 1 - 1 - 2) / 2 * bsize by decide) (by decide) (by decide)
  exact ⟨r, t, S, hrun, hmem, hlen⟩

end Claims
end Txv6
