import Txv6.Volume.Read

/-! # Writing files

`writei` as a function on a volume and an inode, and that the code of `fs.c` computes it. What
the function does to the contents of the files is the subject of `Txv6.Volume.Contents`.
-/
namespace Txv6
open Lib Lib.Prog Function Finset

/-- What the source of a transfer has for bytes `tot ..< tot + k`, and whether that is all. -/
def Src.fetch (src : Src) (m : Nat → Option UChar) (tot k : Nat) : List UChar × Bool :=
  match src with
  | .user va => copyin m (va + tot) k
  | .kernel bs => ((bs.drop tot).take k, true)

namespace Vol

/-- The loop of `writei`. The bytes in front of a fault are in the block, which is not logged
for them. -/
def writeiLoop (sb : Superblock) (src : Nat → Nat → List UChar × Bool) (n : Nat) :
    Nat → Nat → Nat → Vol → InodeData → (Nat × Nat) × Vol × InodeData
  | 0, tot, off, v, i => ((tot, off), v, i)
  | fuel + 1, tot, off, v, i =>
    if tot < n then
      let r := v.bmap sb i (off / bsize)
      if r.1 = 0 then ((tot, off), r.2)
      else
        let m := min (n - tot) (bsize - off % bsize)
        let x := putBytes (r.2.1.blk r.1) (off % bsize) (src tot m).1
        if (src tot m).2 then writeiLoop sb src n fuel (tot + m) (off + m) (r.2.1.put r.1 x) r.2.2
        else ((tot, off), r.2.1.set r.1 x, r.2.2)
    else ((tot, off), v, i)

/-- `iupdate`: the inode goes to its place on the volume. -/
def iupdate (sb : Superblock) (v : Vol) (n : Nat) (i : InodeData) : Vol :=
  v.put (sb.iblock n) (putBytes (v.blk (sb.iblock n)) (dinodeOff n) i.bytes)

/-- The end of `writei`: the new size. -/
def grow (i : InodeData) (off : Nat) : InodeData :=
  if i.size.toNat < off then { i with size := BitVec.ofNat 32 off } else i

def writei (sb : Superblock) (src : Nat → Nat → List UChar × Bool) (n off len : Nat) (v : Vol)
    (i : InodeData) : Int × Vol × InodeData :=
  if i.size.toNat < off ∨ 2 ^ 32 ≤ off + len ∨ maxfile * bsize < off + len then (-1, v, i)
  else
    let r := writeiLoop sb src len len 0 off v i
    (r.1.1, r.2.1.iupdate sb n (grow r.2.2 r.1.2), grow r.2.2 r.1.2)

/-- The requests that `writei` refuses. -/
def Refused (i : InodeData) (off len : Nat) : Prop :=
  i.size.toNat < off ∨ 2 ^ 32 ≤ off + len ∨ maxfile * bsize < off + len

instance {i : InodeData} {off len : Nat} : Decidable (Refused i off len) :=
  inferInstanceAs (Decidable (_ ∨ _ ∨ _))

theorem writei_refused {sb : Superblock} {src : Nat → Nat → List UChar × Bool} {n off len : Nat} {v : Vol}
    {i : InodeData} (h : Refused i off len) : writei sb src n off len v i = (-1, v, i) := if_pos h

section Loop
variable {sb : Superblock} {src : Nat → Nat → List UChar × Bool} {len fuel tot off : Nat} {v : Vol}
  {i : InodeData}

theorem writeiLoop_stop (h : ¬ tot < len) : writeiLoop sb src len fuel tot off v i = ((tot, off), v, i) := by
  cases fuel with
  | zero => rfl
  | succ fuel =>
    unfold writeiLoop
    exact if_neg h

theorem writeiLoop_full (h : tot < len) (hr : (v.bmap sb i (off / bsize)).1 = 0) :
    writeiLoop sb src len (fuel + 1) tot off v i = ((tot, off), (v.bmap sb i (off / bsize)).2) := by
  unfold writeiLoop
  rw [if_pos h, if_pos hr]

/-- The bytes of one round. -/
def chunk (len tot off : Nat) : Nat := min (len - tot) (bsize - off % bsize)

/-- The block of one round with its new bytes. -/
def chunkBlock (sb : Superblock) (src : Nat → Nat → List UChar × Bool) (len tot off : Nat) (v : Vol)
    (i : InodeData) : Block :=
  putBytes ((v.bmap sb i (off / bsize)).2.1.blk (v.bmap sb i (off / bsize)).1) (off % bsize)
    (src tot (chunk len tot off)).1

theorem writeiLoop_next (h : tot < len) (hr : (v.bmap sb i (off / bsize)).1 ≠ 0)
    (hok : (src tot (chunk len tot off)).2 = true) :
    writeiLoop sb src len (fuel + 1) tot off v i =
      writeiLoop sb src len fuel (tot + chunk len tot off) (off + chunk len tot off)
        ((v.bmap sb i (off / bsize)).2.1.put (v.bmap sb i (off / bsize)).1
          (chunkBlock sb src len tot off v i)) (v.bmap sb i (off / bsize)).2.2 := by
  conv_lhs => unfold writeiLoop
  rw [if_pos h]
  dsimp only
  rw [if_neg hr]
  exact if_pos hok

theorem writeiLoop_fault (h : tot < len) (hr : (v.bmap sb i (off / bsize)).1 ≠ 0)
    (hok : (src tot (chunk len tot off)).2 = false) :
    writeiLoop sb src len (fuel + 1) tot off v i = ((tot, off),
      (v.bmap sb i (off / bsize)).2.1.set (v.bmap sb i (off / bsize)).1 (chunkBlock sb src len tot off v i),
      (v.bmap sb i (off / bsize)).2.2) := by
  unfold writeiLoop
  rw [if_pos h]
  dsimp only
  rw [if_neg hr]
  refine if_neg ?_
  unfold chunk at hok
  rw [hok]
  exact Bool.false_ne_true

theorem writeiLoop_length : v.lh.length ≤ (writeiLoop sb src len fuel tot off v i).2.1.lh.length := by
  induction fuel generalizing tot off v i with
  | zero => exact Nat.le_refl _
  | succ fuel ih =>
    by_cases h : tot < len
    swap
    · rw [writeiLoop_stop h]
    by_cases hr : (v.bmap sb i (off / bsize)).1 = 0
    · rw [writeiLoop_full h hr]
      exact bmap_length
    · cases hok : (src tot (chunk len tot off)).2 with
      | false =>
        rw [writeiLoop_fault h hr hok]
        exact bmap_length
      | true =>
        rw [writeiLoop_next h hr hok]
        exact Nat.le_trans bmap_length (Nat.le_trans put_length ih)

end Loop
end Vol

/-! ## Stores to files -/

section Stores
variable {sb : Superblock} {v w : Vol} {I : Nat → InodeData} {n k : Nat} {x : Block} {bn : Nat}

/-- A store to a data block of a file. -/
theorem Vol.Files.store_slot (h : v.Files sb I) (hsb : sb.Ok) (hn : Live sb I n) (hk : k < nslots)
    (hkd : k ≠ ndirect) (hne : (I n).slot v.blk k ≠ 0)
    (hw : ∀ y, y ≠ (I n).slot v.blk k → w.blk y = v.blk y) : w.Files sb I ∧
      ∀ m, Live sb I m → ∀ j, (I m).slot w.blk j = (I m).slot v.blk j := by
  refine h.store hsb (h.slot_range hn hk hne).1 (fun m hm hi e => ?_) hw
  rw [← InodeData.slot_ind v.blk] at hi e
  obtain ⟨_, hj⟩ := h.slot_inj hn hk hm ndirect_lt_nslots hne e.symm
  exact hkd hj

/-- The slot of block `bn`. -/
theorem slotOf_lt (h : bn < maxfile) : (if bn < ndirect then bn else bn + 1) < nslots := by
  split
  · exact Nat.lt_trans (by assumption) ndirect_lt_nslots
  · exact Nat.succ_lt_succ h

theorem slotOf_ne : (if bn < ndirect then bn else bn + 1) ≠ ndirect := by
  split <;> omega

theorem slotOf_inj {bm : Nat} (h : (if bn < ndirect then bn else bn + 1) = if bm < ndirect then bm else bm + 1) :
    bn = bm := by
  split at h <;> split at h <;> omega

/-- A round of `writei`: the block at hand gets new contents. -/
theorem Vol.Files.round (h : v.Files sb I) (hsb : sb.Ok) (hn : Live sb I n) (hbn : bn < maxfile)
    (h0 : (v.bmap sb (I n) bn).1 ≠ 0) (x : Block) :
    ((v.bmap sb (I n) bn).2.1.put (v.bmap sb (I n) bn).1 x).Files sb
      (update I n (v.bmap sb (I n) bn).2.2) ∧
    Live sb (update I n (v.bmap sb (I n) bn).2.2) n ∧
    ∀ k < nslots, (I n).slot v.blk k ≠ 0 → (update I n (v.bmap sb (I n) bn).2.2 n).slot
      ((v.bmap sb (I n) bn).2.1.put (v.bmap sb (I n) bn).1 x).blk k = (I n).slot v.blk k := by
  obtain ⟨hg, _, haddr⟩ := Vol.bmap_grown h hsb hn hbn
  generalize v.bmap sb (I n) bn = r at h0 hg haddr
  have hlive : Live sb (update I n r.2.2) n := (hg.live n).mpr hn
  have hslot : (update I n r.2.2 n).slot r.2.1.blk (if bn < ndirect then bn else bn + 1) = r.1 := by
    rw [update_self]
    exact haddr h0
  have hstore := hg.files.store_slot (w := r.2.1.put r.1 x) hsb hlive (slotOf_lt hbn) slotOf_ne
    (by rw [hslot]; exact h0) fun y hy => by
      rw [hslot] at hy
      rw [Vol.put_blk, update_of_ne hy]
  exact ⟨hstore.1, hlive, fun k hk hne => (hstore.2 n hlive k).trans (hg.slots k hk hne)⟩

end Stores

/-! ## The code -/

namespace Carries
variable {p : ProcPtr} {D W : Finset BufPtr} {v : Vol} {s : Kernel} {b : BufPtr} {n : Nat} {d : Page}
  {i : InodeData} {ip : InodePtr} {E : Err → Kernel → Prop} {Q : Int → Kernel → Prop} {len off : Nat}
  {src : Src}

theorem eitherCopyin {Q : Bool → Kernel → Prop} {o tot m : Nat} (hQ : Q (src.fetch (s.proc p).umem tot m).2
      (s.setPage d fun x => { x with bytes := putBytes x.bytes o (src.fetch (s.proc p).umem tot m).1 })) :
    ends (eitherCopyin p d o src tot m) Q E s := by
  cases src with
  | kernel bs =>
    unfold Txv6.eitherCopyin setBfield
    rw [ends_bind, ends_update, ends_pure]
    exact hQ
  | user va =>
    unfold Txv6.eitherCopyin setBfield
    rw [ends_bind, ends_read, ends_bind, ends_update, ends_pure]
    exact hQ

/-- `iupdate` writes the inode to the volume. -/
theorem iupdate {Q : Unit → Kernel → Prop} (h : Carries p ∅ W v s) (hW : ∀ w ∈ W, s.Recent w)
    (hat : s.InodeAt ip d i) (hinum : (s.inode ip).inum = n) (hop : 1 ≤ s.log.outstanding)
    (hroom : v.lh.length < nbuf ∨ ∀ e t, E e t)
    (hQ : ∀ t, Carries p ∅ W (v.iupdate s.sb n i) t → Still ∅ s t → v.lh.length < logblocks → Q () t) :
    ends (iupdate p ip) Q E s := by
  unfold Txv6.iupdate
  rw [ends_bind]
  refine h.txActive ?_
  change ends (Prog.read (fun s => (s.inode ip).dev) >>= _) Q E s
  rw [ends_bind, ends_read, hat.dev, ends_bind, ends_read, hinum, ends_bind, ends_read, ends_bind]
  refine h.bread (by simp) (fun w hw => .inr (hW w hw)) (hroom.imp_left fun hr => .inr (by simpa using hr))
    fun b t₁ hb h₁ st₁ b₁ => ?_
  have hat₁ := hat.still st₁
  have hbD := mem_insert_self b (∅ : Finset BufPtr)
  unfold inodeData ifield
  rw [ends_bind, ends_bind, ends_read, hat₁.data]
  change ends (Prog.read (fun s => id (s.heap d).ino) >>= _) Q E t₁
  rw [ends_bind, ends_read, ends_bind]
  unfold setBufBytes
  rw [ends_update, ends_bind]
  have hino : id (t₁.heap d).ino = i := hat₁.ino
  rw [hino]
  refine h₁.put (f := fun x => putBytes x (dinodeOff n) i.bytes) hbD rfl b₁
    (by rw [st₁.outstanding]; exact hop) (hroom.imp_left fun hr => hr) fun t₂ h₂ st₂ hlen => ?_
  refine h₂.brelse (notMem_empty b) fun t₃ h₃ st₃ _ => ?_
  exact hQ t₃ h₃ (st₁.trans ((st₂.mono (empty_subset _)).trans st₃)) hlen

/-- What is logged need not be on the disk. -/
theorem forget (h : Carries p D {b} v s) (hb : (s.buf b).blockno ∈ v.lh) : Carries p D ∅ v s := by
  refine ⟨{ h.toCached with clean := fun c _ m hc hm => h.clean c (fun hcb => ?_) m hc hm }, h.log⟩
  rw [mem_singleton.mp hcb] at hc
  exact hm (hc.blockno ▸ hb)

/-- The loop of `writei` from `tot` on. A buffer that a fault leaves unlogged is the first in the
list of buffers. -/
theorem writeiLoop {f : Nat → Nat → List UChar × Bool} :
    ∀ fuel tot off {v : Vol} {I : Nat → InodeData} {s : Kernel}, Carries p ∅ ∅ v s → v.Files s.sb I →
      s.sb.Ok → Live s.sb I n → s.InodeAt ip d (I n) → src.fetch (s.proc p).umem = f →
      1 ≤ s.log.outstanding → off + (len - tot) ≤ maxfile * bsize →
      (1 + (Vol.writeiLoop s.sb f len fuel tot off v (I n)).2.1.lh.length < nbuf ∨ ∀ e t, E e t) →
      ends (writeiLoop p ip src len fuel tot off) (fun a t =>
        a = (Vol.writeiLoop s.sb f len fuel tot off v (I n)).1 ∧
        ∃ W, Carries p ∅ W (Vol.writeiLoop s.sb f len fuel tot off v (I n)).2.1 t ∧
          Still ∅ (s.setIno d (Vol.writeiLoop s.sb f len fuel tot off v (I n)).2.2) t ∧
          (∀ w ∈ W, t.lru.head? = some w) ∧ (W = ∅ ∨ ∃ tot k, tot + k ≤ len ∧ (f tot k).2 = false)) E s
  | 0, tot, off, v, I, s, h, _, _, _, hat, _, _, _, _ => by
    refine ⟨rfl, ∅, h, ?_, by simp, .inl rfl⟩
    unfold Vol.writeiLoop
    rw [setIno_self hat.ino]
    exact .refl ∅ s
  | fuel + 1, tot, off, v, I, s, h, hfiles, hsb, hn, hat, hf, hop, hmax, hroom => by
    unfold Txv6.writeiLoop
    by_cases hlt : tot < len
    swap
    · rw [if_neg hlt, Vol.writeiLoop_stop hlt, ends_pure]
      refine ⟨rfl, ∅, h, ?_, by simp, .inl rfl⟩
      rw [setIno_self hat.ino]
      exact .refl ∅ s
    have hbn : off / bsize < maxfile := index_lt (by omega)
    have hround := hfiles.round hsb hn hbn
    have hrun := h.bmap (E := E) (Q := fun a t => a = (v.bmap s.sb (I n) (off / bsize)).1 ∧
      Carries p ∅ ∅ (v.bmap s.sb (I n) (off / bsize)).2.1 t ∧
      Still ∅ (s.setIno d (v.bmap s.sb (I n) (off / bsize)).2.2) t) hfiles hsb hn hbn hat.dev hat.data
      hat.apart hat.ino hop
    rw [if_pos hlt, ends_bind]
    have hnext : _ → _ → Vol.writeiLoop s.sb f len (fuel + 1) tot off v (I n) = _ := Vol.writeiLoop_next hlt
    have hfault : _ → _ → Vol.writeiLoop s.sb f len (fuel + 1) tot off v (I n) = _ := Vol.writeiLoop_fault hlt
    have hstop : _ → Vol.writeiLoop s.sb f len (fuel + 1) tot off v (I n) = _ := Vol.writeiLoop_full hlt
    have hcb : Vol.chunkBlock s.sb f len tot off v (I n) = putBytes ((v.bmap s.sb (I n) (off / bsize)).2.1.blk
      (v.bmap s.sb (I n) (off / bsize)).1) (off % bsize) (f tot (Vol.chunk len tot off)).1 := rfl
    generalize v.bmap s.sb (I n) (off / bsize) = r at hround hrun hnext hfault hstop hcb
    by_cases h0 : r.1 = 0
    · -- the disk is full
      rw [hstop h0] at hroom ⊢
      refine ends_mono (hrun hroom fun t ht hst => ⟨rfl, ht, hst⟩) fun a t ht => ?_
      obtain ⟨rfl, ht, hst⟩ := ht
      rw [if_pos h0, ends_pure]
      exact ⟨rfl, ∅, ht, hst, by simp, .inl rfl⟩
    have hlen : r.2.1.lh.length ≤ (Vol.writeiLoop s.sb f len (fuel + 1) tot off v (I n)).2.1.lh.length := by
      cases hok : (f tot (Vol.chunk len tot off)).2 with
      | false => rw [hfault h0 hok]; exact Nat.le_refl _
      | true => rw [hnext h0 hok]; exact Nat.le_trans Vol.put_length Vol.writeiLoop_length
    have hroom₁ : 1 + r.2.1.lh.length < nbuf ∨ ∀ e t, E e t := hroom.imp_left fun hr => by omega
    have hroom₂ : r.2.1.lh.length < nbuf ∨ ∀ e t, E e t := hroom₁.imp_left fun hr => by omega
    refine ends_mono (hrun hroom₁ fun t ht hst => ⟨rfl, ht, hst⟩) fun a t₁ ht₁ => ?_
    obtain ⟨rfl, h₁, st₁⟩ := ht₁
    have hat₁ : t₁.InodeAt ip d r.2.2 := hat.setIno.still st₁
    rw [if_neg h0, ends_bind, ends_read, hat₁.dev, ends_bind]
    refine h₁.bread (by simp) (by simp) (hroom₂.imp_left fun hr => .inr (by simpa using hr))
      fun b t₂ hb h₂ st₂ b₂ => ?_
    have hbD := mem_insert_self b (∅ : Finset BufPtr)
    rw [ends_bind]
    refine h₂.bdata ?_
    rw [ends_bind]
    have hf₂ : src.fetch (t₂.proc p).umem = f := by
      rw [st₂.proc, st₁.proc]
      exact hf
    refine eitherCopyin ?_
    rw [hf₂]
    have hchunk : min (len - tot) (bsize - off % bsize) = Vol.chunk len tot off := rfl
    rw [hchunk]
    have hsb₁ : t₁.sb = s.sb := st₁.sb
    cases hok : (f tot (Vol.chunk len tot off)).2 with
    | false =>
      rw [hfault h0 hok] at hroom ⊢
      rw [if_neg Bool.false_ne_true, ends_bind]
      obtain ⟨h₃, st₃⟩ := h₂.store hbD rfl b₂ fun x => putBytes x (off % bsize) (f tot (Vol.chunk len tot off)).1
      rw [← hcb] at h₃
      have st₂₃ := st₁.trans (st₂.trans (st₃.mono (empty_subset _)))
      have hb₃ : ((t₂.setPage (t₂.buf b).data fun x => { x with
        bytes := putBytes x.bytes (off % bsize) (f tot (Vol.chunk len tot off)).1 }).buf b).blockno = r.1 := b₂
      by_cases hmem : r.1 ∈ r.2.1.lh
      · refine (h₃.forget (by rw [hb₃]; exact hmem)).brelse (notMem_empty b) fun t₄ h₄ st₄ _ => ?_
        exact ⟨rfl, ∅, h₄, st₂₃.trans st₄, by simp, .inl rfl⟩
      · refine h₃.brelse (notMem_empty b) fun t₄ h₄ st₄ hhead => ?_
        have hle : tot + Vol.chunk len tot off ≤ len := by
          unfold Vol.chunk
          omega
        refine ⟨rfl, {b}, h₄, st₂₃.trans st₄, fun w hw => ?_, .inr ⟨tot, _, hle, hok⟩⟩
        rw [mem_singleton.mp hw]
        refine hhead ?_
        rw [hb₃]
        exact hmem
    | true =>
      rw [hnext h0 hok] at hroom ⊢
      rw [if_pos rfl, ends_bind]
      have hop₂ : 1 ≤ t₂.log.outstanding := by rw [st₂.outstanding, st₁.outstanding]; exact hop
      refine h₂.put (f := fun x => putBytes x (off % bsize) (f tot (Vol.chunk len tot off)).1) hbD rfl b₂ hop₂
        (hroom₂.imp_left fun hr => hr) fun t₃ h₃ st₃ _ => ?_
      rw [← hcb] at h₃
      rw [ends_bind]
      refine h₃.brelse (notMem_empty b) fun t₄ h₄ st₄ _ => ?_
      have st := st₁.trans (st₂.trans ((st₃.mono (empty_subset _)).trans st₄))
      have hsb₄ : t₄.sb = s.sb := st.sb
      -- the files are in order again, and the loop goes on
      obtain ⟨hfiles₄, hlive, _⟩ := hround h0 (Vol.chunkBlock s.sb f len tot off v (I n))
      have hat₄ : t₄.InodeAt ip d (update I n r.2.2 n) := by
        rw [update_self]
        exact hat.setIno.still st
      have hf₄ : src.fetch (t₄.proc p).umem = f := by
        rw [st.proc]
        exact hf
      have hmax₄ : off + Vol.chunk len tot off + (len - (tot + Vol.chunk len tot off)) ≤ maxfile * bsize := by
        unfold Vol.chunk
        omega
      have ih := writeiLoop fuel (tot + Vol.chunk len tot off) (off + Vol.chunk len tot off) h₄
        (by rw [hsb₄]; exact hfiles₄) (by rw [hsb₄]; exact hsb) (by rw [hsb₄]; exact hlive) hat₄
        hf₄ (by rw [st.outstanding]; exact hop) hmax₄
        (by rw [hsb₄, update_self]; exact hroom)
      rw [hsb₄, update_self] at ih
      refine ends_mono ih fun a u hu => ?_
      obtain ⟨rfl, W, hu, hst', hW⟩ := hu
      refine ⟨rfl, W, hu, ?_, hW⟩
      have := st.setIno (i := (Vol.writeiLoop s.sb f len fuel (tot + Vol.chunk len tot off)
        (off + Vol.chunk len tot off) (r.2.1.put r.1 (Vol.chunkBlock s.sb f len tot off v (I n))) r.2.2).2.2)
        (show (s.setIno d r.2.2).Apart d from hat.apart)
      rw [setIno_setIno] at this
      exact this.trans hst'

/-- The buffer in front is not the next one that `bget` recycles. -/
theorem recent (h : Carries p ∅ W v s) (hb : s.lru.head? = some b) (hroom : 1 + v.lh.length < nbuf) :
    s.Recent b := by
  obtain ⟨c, hc, h0⟩ := h.exists_free (empty_subset {b}) (by rw [card_singleton]; exact hroom)
  exact ⟨hb, c, fun e => hc (mem_singleton.mpr e), h0⟩

/-- A request that is refused changes nothing. -/
theorem writei_refused (h : Carries p D W v s)
    (hat : s.InodeAt ip d i) (hoff : off < 2 ^ 32) (hlen : len < 2 ^ 32) (hr : Vol.Refused i off len)
    (hQ : Q (-1) s) : ends (writei p ip src off len) Q E s := by
  unfold Txv6.writei
  rw [ends_bind]
  refine h.idata hat.data ?_
  unfold ifield
  rw [ends_bind, ends_read, hat.ino]
  have hwrap : (off + len) % 2 ^ 32 < off ↔ 2 ^ 32 ≤ off + len := by omega
  simp only [hwrap]
  by_cases hout : i.size.toNat < off ∨ 2 ^ 32 ≤ off + len
  · rw [if_pos hout, ends_pure]
    exact hQ
  · have hbig : maxfile * bsize < off + len := by
      unfold Vol.Refused at hr
      tauto
    rw [if_neg hout, Nat.mod_eq_of_lt (by omega), if_pos hbig, ends_pure]
    exact hQ

/-- **The code of `writei`** computes `Vol.writei`. -/
theorem writei {I : Nat → InodeData} (h : Carries p ∅ ∅ v s) (hfiles : v.Files s.sb I) (hsb : s.sb.Ok)
    (hn : Live s.sb I n) (hat : s.InodeAt ip d (I n)) (hinum : (s.inode ip).inum = n)
    (hop : 1 ≤ s.log.outstanding) (hoff : off < 2 ^ 32) (hlen : len < 2 ^ 32)
    (hroom : 1 + (Vol.writei s.sb (src.fetch (s.proc p).umem) n off len v (I n)).2.1.lh.length < nbuf ∨
      (∀ e t, E e t) ∧ ∀ tot k, tot + k ≤ len → (src.fetch (s.proc p).umem tot k).2 = true)
    (hQ : ∀ W t, Carries p ∅ W (Vol.writei s.sb (src.fetch (s.proc p).umem) n off len v (I n)).2.1 t →
      Still ∅ (s.setIno d (Vol.writei s.sb (src.fetch (s.proc p).umem) n off len v (I n)).2.2) t →
      (W = ∅ ∨ ∃ tot k, tot + k ≤ len ∧ (src.fetch (s.proc p).umem tot k).2 = false) →
      Q (Vol.writei s.sb (src.fetch (s.proc p).umem) n off len v (I n)).1 t) :
    ends (writei p ip src off len) Q E s := by
  generalize hf : src.fetch (s.proc p).umem = f at hroom hQ
  by_cases hr : Vol.Refused (I n) off len
  · rw [Vol.writei_refused hr, setIno_self hat.ino] at hQ
    exact h.writei_refused hat hoff hlen hr (hQ ∅ s h (.refl ∅ s) (.inl rfl))
  have hwritei : Vol.writei s.sb f n off len v (I n) = _ := if_neg hr
  rw [hwritei] at hroom hQ
  unfold Vol.Refused at hr
  have hbig : ¬ maxfile * bsize < off + len := by tauto
  unfold Txv6.writei
  rw [ends_bind]
  refine h.idata hat.data ?_
  unfold ifield
  rw [ends_bind, ends_read, hat.ino, Nat.mod_eq_of_lt (by omega)]
  dsimp only
  rw [if_neg (by omega)]
  rw [if_neg hbig, ends_bind]
  dsimp only at hroom hQ
  have hmax : off + (len - 0) ≤ maxfile * bsize := Nat.le_of_not_lt hbig
  have hloop := writeiLoop (E := E) len 0 off h hfiles hsb hn hat hf hop hmax
  generalize Vol.writeiLoop s.sb f len len 0 off v (I n) = r at hroom hQ hloop
  have hle : r.2.1.lh.length ≤ (Vol.iupdate s.sb r.2.1 n (Vol.grow r.2.2 r.1.2)).lh.length := Vol.put_length
  have hroom₁ : 1 + r.2.1.lh.length < nbuf ∨ (∀ e t, E e t) ∧ ∀ tot k, tot + k ≤ len → (f tot k).2 = true :=
    hroom.imp_left fun hr => Nat.lt_of_le_of_lt (Nat.add_le_add_left hle 1) hr
  refine ends_mono (hloop (hroom₁.imp_right fun hE => hE.1)) fun a t ht => ?_
  obtain ⟨rfl, W, ht, hst, hW, hclean⟩ := ht
  have hatt : t.InodeAt ip d r.2.2 := hat.setIno.still hst
  rw [ends_bind, ends_read, hatt.ino, ends_bind, ends_when]
  -- the new size, if there is one
  have hsize : ∀ R : Unit → Kernel → Prop, R () (t.setIno d (Vol.grow r.2.2 r.1.2)) →
      if decide (r.2.2.size.toNat < r.1.2) = true then
        ends (setIfield d fun x => { x with size := BitVec.ofNat 32 r.1.2 }) R E t else R () t := by
    intro R hR
    unfold Vol.grow at hR
    by_cases hg : r.2.2.size.toNat < r.1.2
    · rw [if_pos hg] at hR
      rw [if_pos (decide_eq_true hg)]
      unfold setIfield
      rw [ends_update]
      convert hR using 1
      unfold Kernel.setIno
      rw [← hatt.ino]
      rfl
    · rw [if_neg hg, setIno_self hatt.ino] at hR
      rw [if_neg (by simpa using hg)]
      exact hR
  refine hsize _ ?_
  have h₁ := ht.setIno (i := Vol.grow r.2.2 r.1.2) hatt.apart
  have st₁ := hst.setIno (i := Vol.grow r.2.2 r.1.2) hat.apart
  rw [setIno_setIno] at st₁
  have hsb₁ : (t.setIno d (Vol.grow r.2.2 r.1.2)).sb = s.sb := st₁.sb
  rw [ends_bind]
  refine h₁.iupdate (n := n) (fun w hw => ?_) hatt.setIno ?_ ?_ ?_ fun u hu st₂ _ => ?_
  · rcases hroom₁ with hr | ⟨_, hf⟩
    · exact h₁.recent (hW w hw) hr
    · -- without a fault there is no such buffer
      rcases hclean with rfl | ⟨tot, k, hk, hbad⟩
      · exact absurd hw (notMem_empty w)
      · rw [hf tot k hk] at hbad
        cases hbad
  · rw [st₁.inode]
    exact hinum
  · rw [st₁.outstanding]
    exact hop
  · exact hroom₁.imp (fun hr => Nat.lt_of_le_of_lt (Nat.le_add_left _ 1) hr) fun hE => hE.1
  · rw [ends_pure]
    rw [hsb₁] at hu
    exact hQ W u hu (st₁.trans st₂) hclean

end Carries
end Txv6
