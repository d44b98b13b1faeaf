import Txv6.Volume.Bmap

/-! # Reading files

`readi` delivers a piece of the contents of a file, block by block, to a kernel buffer or to
the memory of the process.
-/
namespace Txv6
open Lib Lib.Prog List

variable {dst : Dst} {k n o off : Nat} {blk : Nat → Block}

/-! ## Pieces of files -/

theorem getBytes_length (b : Block) (o n : Nat) : (getBytes b o n).length = n := by simp [getBytes]

theorem getBytes_getElem? {b : Block} (h : k < n) : (getBytes b o n)[k]? = some (b (o + k)) := by
  simp [getBytes, h]

/-- A position within the block of another position. -/
theorem div_add_bsize (h : o % bsize + k < bsize) : (o + k) / bsize = o / bsize := by
  rw [← Nat.div_add_mod o bsize, Nat.add_assoc, Nat.mul_add_div (by decide), Nat.div_eq_of_lt h,
    Nat.mul_add_div (by decide), Nat.div_eq_of_lt (Nat.mod_lt o (by decide))]

theorem mod_add_bsize (h : o % bsize + k < bsize) : (o + k) % bsize = o % bsize + k := by
  conv_lhs => rw [← Nat.div_add_mod o bsize, Nat.add_assoc, Nat.mul_add_mod, Nat.mod_eq_of_lt h]

/-- A piece of one block of a file. -/
theorem content_slice {i : InodeData} {m : Nat} (hsize : off + m ≤ i.size.toNat)
    (hm : off % bsize + m ≤ bsize) :
    getBytes (blk (i.addr blk (off / bsize))) (off % bsize) m = ((i.content blk).drop off).take m := by
  apply ext_getElem?
  intro k
  by_cases hk : k < m
  · rw [getBytes_getElem? hk, List.getElem?_take_of_lt hk, List.getElem?_drop,
      InodeData.content_getElem? (by omega)]
    unfold InodeData.byte
    rw [div_add_bsize (by omega), mod_add_bsize (by omega)]
  · rw [List.getElem?_eq_none (by rw [getBytes_length]; omega),
      List.getElem?_eq_none (by rw [length_take]; omega)]

/-! ## User memory -/

theorem copyout_append (m : Nat → Option UChar) (va : Nat) (xs ys : List UChar) :
    copyout m va (xs ++ ys) = if (copyout m va xs).1 then
      copyout (copyout m va xs).2 (va + xs.length) ys else copyout m va xs := by
  induction xs generalizing m va with
  | nil => rfl
  | cons x xs ih =>
    cases hm : m va with
    | none => simp [copyout, hm]
    | some y =>
      simp only [cons_append, copyout, hm, length_cons]
      rw [ih, show va + 1 + xs.length = va + (xs.length + 1) by omega]

/-- What the destination of a transfer does with the bytes: whether it takes them all, and the
user memory afterwards. -/
def Dst.store (dst : Dst) (m : Nat → Option UChar) (bs : List UChar) : Bool × (Nat → Option UChar) :=
  match dst with
  | .user va => copyout m va bs
  | .kernel => (true, m)

theorem Dst.store_nil (dst : Dst) (m : Nat → Option UChar) : dst.store m [] = (true, m) := by
  cases dst <;> rfl

/-- New user memory for a process. -/
def Kernel.setUmem (s : Kernel) (p : ProcPtr) (m : Nat → Option UChar) : Kernel :=
  s.setProc p fun x => { x with umem := m }

section SetUmem
variable {s t : Kernel} {p q : ProcPtr} {m m' : Nat → Option UChar} {D W : Finset BufPtr} {v : Vol}

theorem setUmem_self : s.setUmem p (s.proc p).umem = s := by
  unfold Kernel.setUmem Kernel.setProc
  rw [Function.update_eq_self]

theorem setUmem_setUmem : (s.setUmem p m).setUmem p m' = s.setUmem p m' := by
  simp [Kernel.setUmem, Kernel.setProc]

@[simp] theorem setUmem_umem : ((s.setUmem p m).proc p).umem = m := by simp [Kernel.setUmem, Kernel.setProc]

theorem setUmem_pid : ((s.setUmem p m).proc q).pid = (s.proc q).pid := by
  by_cases e : q = p
  · subst e
    simp [Kernel.setUmem, Kernel.setProc]
  · simp [Kernel.setUmem, Kernel.setProc, e]

theorem setUmem_txActive : (s.setUmem p m).txActive q = s.txActive q := by
  unfold Kernel.txActive
  by_cases e : q = p
  · subst e
    simp [Kernel.setUmem, Kernel.setProc]
  · simp [Kernel.setUmem, Kernel.setProc, e]

theorem Still.setUmem (h : Still D s t) : Still D (s.setUmem p m) (t.setUmem p m) where
  rest := by
    have hr := h.rest
    generalize t.disk = d, t.buf = b, t.lru = l, t.log.lh = lh, t.heap = hp at *
    subst hr
    rfl
  page := h.page
  heap := h.heap
  held := h.held

theorem Carries.setUmem (h : Carries q D W v s) : Carries q D W v (s.setUmem p m) := by
  refine ⟨⟨⟨h.cache.pages, h.cache.listed, h.cache.unique⟩, h.order, ?_, h.blk, h.refs, h.free, fun b hb => ?_,
    fun b hb => ⟨(h.held b hb).valid, (h.held b hb).dev, rfl⟩,
    fun b hb n hn => h.clean b hb n ⟨hn.valid, hn.dev, hn.blockno⟩,
    fun n hn => (h.logged n hn).elim fun b hb => ⟨b, hb.valid, hb.dev, hb.blockno⟩, h.distinct⟩, h.log⟩
  · rw [setUmem_txActive]
    exact h.inactive
  · have := h.mine b hb
    unfold Kernel.holdingsleep at this ⊢
    rw [setUmem_pid]
    exact this

end SetUmem

/-- The inode `ip` is in page `d`, with value `i`. -/
structure Kernel.InodeAt (s : Kernel) (ip : InodePtr) (d : Page) (i : InodeData) : Prop where
  dev : (s.inode ip).dev = rootdev
  data : (s.inode ip).data = some d
  apart : s.Apart d
  ino : (s.heap d).ino = i

theorem Kernel.InodeAt.still {s t : Kernel} {ip : InodePtr} {d : Page} {i : InodeData} {D : Finset BufPtr}
    (h : s.InodeAt ip d i) (hst : Still D s t) : t.InodeAt ip d i where
  dev := by rw [hst.inode]; exact h.dev
  data := by rw [hst.inode]; exact h.data
  apart := hst.apart h.apart
  ino := by rw [hst.heap d h.apart]; exact h.ino

theorem Kernel.InodeAt.setUmem {s : Kernel} {ip : InodePtr} {d : Page} {i : InodeData}
    (h : s.InodeAt ip d i) {p : ProcPtr} {m : Nat → Option UChar} : (s.setUmem p m).InodeAt ip d i :=
  ⟨h.dev, h.data, h.apart, h.ino⟩

theorem Kernel.InodeAt.setIno {s : Kernel} {ip : InodePtr} {d : Page} {i j : InodeData}
    (h : s.InodeAt ip d i) : (s.setIno d j).InodeAt ip d j :=
  ⟨h.dev, h.data, h.apart, setIno_ino⟩

/-- Up to its size the file has all its blocks. -/
structure InodeData.Whole (blk : Nat → Block) (i : InodeData) : Prop where
  small : i.size.toNat ≤ maxfile * bsize
  filled : ∀ bn, bn * bsize < i.size.toNat → i.addr blk bn ≠ 0

theorem InodeData.Whole.block {i : InodeData} (h : i.Whole blk) {j : Nat}
    (hj : j < i.size.toNat) : j / bsize < maxfile ∧ i.addr blk (j / bsize) ≠ 0 := by
  constructor
  · have := h.small
    exact index_lt (by omega)
  · refine h.filled _ (Nat.lt_of_le_of_lt ?_ hj)
    exact Nat.div_mul_le_self j bsize

/-- What a read of `n` bytes at `off` delivers: nothing if `off` is behind the end or the range
wraps around. -/
def InodeData.piece (blk : Nat → Block) (i : InodeData) (off n : Nat) : List UChar :=
  if i.size.toNat < off ∨ 2 ^ 32 ≤ off + n then [] else ((i.content blk).drop off).take n

/-! ## The code -/

namespace Carries
variable {p : ProcPtr} {v : Vol} {s : Kernel} {d : Page} {i : InodeData} {ip : InodePtr}
  {E : Err → Kernel → Prop}

/-- `bmap` of a block that the file has changes nothing. -/
theorem bmap_present {Q : Nat → Kernel → Prop} {bn : Nat} (h : Carries p ∅ ∅ v s) (hbn : bn < maxfile)
    (hdev : (s.inode ip).dev = rootdev) (hdp : (s.inode ip).data = some d) (hi : (s.heap d).ino = i)
    (hne : i.addr v.blk bn ≠ 0) (hroom : v.lh.length < nbuf)
    (hQ : ∀ t, Carries p ∅ ∅ v t → Still ∅ s t → Q (i.addr v.blk bn) t) : ends (Txv6.bmap p ip bn) Q E s := by
  unfold Txv6.bmap
  rw [ends_bind]
  refine h.idata hdp ?_
  rw [ends_bind, ends_read, hdev]
  unfold InodeData.addr at hne hQ
  have slot : ∀ {R : Nat → Kernel → Prop} (k : Fin (ndirect + 1)), i.slot v.blk k ≠ 0 →
      R (i.slot v.blk k) s → ends (Txv6.bmapSlot p rootdev d k) R E s := by
    intro R k hk hR
    rw [InodeData.slot_direct k.2, Fin.eta] at hk hR
    unfold Txv6.bmapSlot ifield
    rw [ends_bind, ends_read, hi, if_pos, ends_pure]
    · exact hR
    · exact fun e => hk (congrArg BitVec.toNat e)
  by_cases hdir : bn < ndirect
  · simp only [dif_pos hdir, if_pos hdir] at hne hQ ⊢
    exact slot ⟨bn, by omega⟩ hne (hQ s h (.refl ∅ s))
  have he : bn - ndirect < nindirect := by
    have : maxfile = ndirect + nindirect := rfl
    omega
  simp only [dif_neg hdir, if_neg hdir, if_pos he] at hne hQ ⊢
  have hbig : ¬ bn + 1 < ndirect + 1 := by omega
  have hind : i.ind ≠ 0 := fun h0 => hne (InodeData.slot_no_ind hbig h0)
  rw [InodeData.slot_entry hbig hind, show bn + 1 - (ndirect + 1) = bn - ndirect by omega] at hne hQ
  rw [ends_bind]
  have hlast : i.slot v.blk (Fin.last ndirect) = i.ind := InodeData.slot_ind v.blk
  refine slot (Fin.last ndirect) (by rw [hlast]; exact hind) ?_
  rw [hlast, if_neg hind, ends_bind]
  refine h.bread (by simp) (by simp) (.inl (.inr (by simpa using hroom))) fun b t₁ hb h₁ st₁ b₁ => ?_
  have hbD := Finset.mem_insert_self b (∅ : Finset BufPtr)
  have hbytes : ((t₁.heap (t₁.buf b).data).bytes : Block) = v.blk i.ind := by
    rw [← b₁]
    exact h₁.bytes hbD
  rw [ends_bind]
  refine h₁.bdata ?_
  unfold Txv6.bmapEntry bfield
  rw [ends_bind, ends_bind, ends_read, hbytes, if_pos, ends_pure, ends_bind]
  · refine h₁.brelse (Finset.notMem_empty b) fun t₂ h₂ st₂ _ => ?_
    exact hQ t₂ h₂ (st₁.trans st₂)
  · exact fun e => hne (congrArg BitVec.toNat e)

/-- `either_copyout`. -/
theorem eitherCopyout {Q : Bool → Kernel → Prop} {tot : Nat} {l bs : List UChar} {m : Nat → Option UChar}
    (hlen : l.length = tot) (hok : (dst.store m l).1 = true) (hm : (s.proc p).umem = (dst.store m l).2)
    (hQ : Q (dst.store m (l ++ bs)).1 (s.setUmem p (dst.store m (l ++ bs)).2)) :
    ends (eitherCopyout p dst tot bs) Q E s := by
  cases dst with
  | kernel =>
    have hm : (s.proc p).umem = m := hm
    change Q true (s.setUmem p m) at hQ
    rw [← hm, setUmem_self] at hQ
    exact hQ
  | user va =>
    change (copyout m va l).1 = true at hok
    change (s.proc p).umem = (copyout m va l).2 at hm
    change Q (copyout m va (l ++ bs)).1 (s.setUmem p (copyout m va (l ++ bs)).2) at hQ
    rw [copyout_append, if_pos hok, hlen, ← hm] at hQ
    change ends (copyoutTo p (va + tot) bs) Q E s
    unfold copyoutTo
    rw [ends_atom]
    exact hQ

/-- The loop of `readi`, with `tot` bytes behind it. -/
theorem readiLoop (dst : Dst) (hat : s.InodeAt ip d i) (hw : i.Whole v.blk) (hroom : v.lh.length < nbuf)
    (hn : off + n ≤ i.size.toNat) {all : List UChar} (hall : all = ((i.content v.blk).drop off).take n) :
    ∀ fuel tot t, n ≤ tot + fuel → tot ≤ n → (dst.store (s.proc p).umem (all.take tot)).1 = true →
      Carries p ∅ ∅ v t → Still ∅ (s.setUmem p (dst.store (s.proc p).umem (all.take tot)).2) t →
      ends (readiLoop p ip dst n fuel tot (off + tot) (all.take tot)) (fun r u =>
        Carries p ∅ ∅ v u ∧ Still ∅ (s.setUmem p (dst.store (s.proc p).umem all).2) u ∧
        r.1 = (if (dst.store (s.proc p).umem all).1 then (n : Int) else -1) ∧
        ((dst.store (s.proc p).umem all).1 = true → r.2 = all)) E t := by
  have hlen : all.length = n := by
    rw [hall, length_take, length_drop, InodeData.content_length]
    omega
  -- all bytes have been moved
  have done : ∀ tot t, n ≤ tot → tot ≤ n → (dst.store (s.proc p).umem (all.take tot)).1 = true →
      Carries p ∅ ∅ v t → Still ∅ (s.setUmem p (dst.store (s.proc p).umem (all.take tot)).2) t →
      Carries p ∅ ∅ v t ∧ Still ∅ (s.setUmem p (dst.store (s.proc p).umem all).2) t ∧
        (tot : Int) = (if (dst.store (s.proc p).umem all).1 then (n : Int) else -1) ∧
        ((dst.store (s.proc p).umem all).1 = true → all.take tot = all) := by
    intro tot t h1 h2 hok ht hst
    have htot : tot = n := Nat.le_antisymm h2 h1
    rw [htot, ← hlen, take_length] at hok hst ⊢
    rw [if_pos hok]
    exact ⟨ht, hst, rfl, fun _ => rfl⟩
  intro fuel
  induction fuel with
  | zero =>
    intro tot t hfuel htot hok ht hst
    unfold Txv6.readiLoop
    exact done tot t (by omega) htot hok ht hst
  | succ fuel ih =>
    intro tot t hfuel htot hok ht hst
    unfold Txv6.readiLoop
    by_cases hlt : tot < n
    swap
    · rw [if_neg hlt, ends_pure]
      exact done tot t (by omega) htot hok ht hst
    have hatt : t.InodeAt ip d i := hat.setUmem.still hst
    obtain ⟨hbn, hne⟩ := hw.block (show off + tot < i.size.toNat by omega)
    rw [if_pos hlt, ends_bind]
    refine ht.bmap_present hbn hatt.dev hatt.data hatt.ino hne hroom fun t₁ h₁ st₁ => ?_
    rw [if_neg hne, ends_bind, ends_read, (hatt.still st₁).dev, ends_bind]
    refine h₁.bread (by simp) (by simp) (.inl (.inr (by simpa using hroom))) fun b t₂ hb h₂ st₂ b₂ => ?_
    have hbD := Finset.mem_insert_self b (∅ : Finset BufPtr)
    rw [ends_bind]
    refine h₂.bdata ?_
    unfold bfield
    rw [ends_bind, ends_read]
    have hbytes : ((t₂.heap (t₂.buf b).data).bytes : Block) = v.blk (i.addr v.blk ((off + tot) / bsize)) := by
      rw [← b₂]
      exact h₂.bytes hbD
    rw [hbytes]
    have hmod : (off + tot) % bsize < bsize := Nat.mod_lt _ (by decide)
    generalize hm : min (n - tot) (bsize - (off + tot) % bsize) = m
    have hm0 : 0 < m := by omega
    have hmn : tot + m ≤ n := by omega
    have hbs : getBytes (v.blk (i.addr v.blk ((off + tot) / bsize))) ((off + tot) % bsize) m =
        (all.drop tot).take m := by
      rw [content_slice (by omega) (by omega), hall, drop_take, take_take, drop_drop,
        Nat.min_eq_left (by omega)]
    dsimp only
    rw [hbs]
    have happ : all.take tot ++ (all.drop tot).take m = all.take (tot + m) := (take_add ..).symm
    have hst₂ := hst.trans (st₁.trans st₂)
    have hum : (t₂.proc p).umem = (dst.store (s.proc p).umem (all.take tot)).2 := by
      rw [hst₂.proc]
      exact setUmem_umem
    rw [ends_bind]
    refine eitherCopyout (l := all.take tot) (by rw [length_take]; omega) hok hum ?_
    rw [happ]
    have h₃ := h₂.setUmem (p := p) (m := (dst.store (s.proc p).umem (all.take (tot + m))).2)
    have st₃ : Still ∅ (s.setUmem p (dst.store (s.proc p).umem (all.take (tot + m))).2)
        (t₂.setUmem p (dst.store (s.proc p).umem (all.take (tot + m))).2) := by
      have := hst₂.setUmem (p := p) (m := (dst.store (s.proc p).umem (all.take (tot + m))).2)
      rwa [setUmem_setUmem] at this
    cases hok' : (dst.store (s.proc p).umem (all.take (tot + m))).1 with
    | true =>
      rw [if_pos rfl, ends_bind]
      refine h₃.brelse (Finset.notMem_empty b) fun t₄ h₄ st₄ _ => ?_
      rw [Nat.add_assoc]
      exact ih (tot + m) t₄ (by omega) hmn hok' h₄ (st₃.trans st₄)
    | false =>
      rw [if_neg Bool.false_ne_true, ends_bind]
      refine h₃.brelse (Finset.notMem_empty b) fun t₄ h₄ st₄ _ => ?_
      -- what follows the fault is not copied
      have hfail : dst.store (s.proc p).umem all = dst.store (s.proc p).umem (all.take (tot + m)) := by
        cases dst with
        | kernel => cases hok'
        | user va =>
          change copyout _ va all = copyout _ va (all.take (tot + m))
          change (copyout _ va (all.take (tot + m))).1 = false at hok'
          conv_lhs => rw [← take_append_drop (tot + m) all, copyout_append, hok']
          rfl
      rw [ends_pure, hfail, hok']
      exact ⟨h₄, st₃.trans st₄, rfl, fun hf => nomatch hf⟩

/-- **`readi`** delivers a piece of the file. -/
theorem readi {Q : Int × List UChar → Kernel → Prop} (h : Carries p ∅ ∅ v s) (hat : s.InodeAt ip d i)
    (hw : i.Whole v.blk) (hroom : v.lh.length < nbuf) (hoff : off < 2 ^ 32) (hn : n < 2 ^ 32)
    (hQ : ∀ r t, Carries p ∅ ∅ v t →
      Still ∅ (s.setUmem p (dst.store (s.proc p).umem (i.piece v.blk off n)).2) t →
      r.1 = (if (dst.store (s.proc p).umem (i.piece v.blk off n)).1 then
        ((i.piece v.blk off n).length : Int) else -1) →
      ((dst.store (s.proc p).umem (i.piece v.blk off n)).1 = true → r.2 = i.piece v.blk off n) → Q r t) :
    ends (readi p ip dst off n) Q E s := by
  unfold Txv6.readi
  rw [ends_bind]
  refine h.idata hat.data ?_
  unfold ifield
  rw [ends_bind, ends_read, hat.ino]
  have hwrap : (off + n) % 2 ^ 32 < off ↔ 2 ^ 32 ≤ off + n := by omega
  simp only [hwrap]
  unfold InodeData.piece at hQ
  by_cases hout : i.size.toNat < off ∨ 2 ^ 32 ≤ off + n
  · rw [if_pos hout] at hQ ⊢
    rw [Dst.store_nil, setUmem_self] at hQ
    exact hQ _ s h (.refl ∅ s) rfl fun _ => rfl
  rw [if_neg hout] at hQ ⊢
  rw [not_or] at hout
  rw [Nat.mod_eq_of_lt (by omega)]
  generalize hn' : (if i.size.toNat < off + n then i.size.toNat - off else n) = n'
  have hle : off + n' ≤ i.size.toNat := by split at hn' <;> omega
  have htake : ((i.content v.blk).drop off).take n' = ((i.content v.blk).drop off).take n := by
    split at hn'
    · rw [take_of_length_le, take_of_length_le]
      · rw [length_drop, InodeData.content_length]
        omega
      · rw [length_drop, InodeData.content_length]
        omega
    · rw [hn']
  have hlen : (((i.content v.blk).drop off).take n).length = n' := by
    rw [← htake, length_take, length_drop, InodeData.content_length]
    omega
  have hloop := readiLoop (p := p) (E := E) dst hat hw hroom hle htake.symm n' 0 s (by omega)
    (Nat.zero_le _) (by rw [take_zero, Dst.store_nil]) h
    (by rw [take_zero, Dst.store_nil, setUmem_self]; exact .refl ∅ s)
  rw [take_zero, Nat.add_zero] at hloop
  refine ends_mono hloop fun r t ht => ?_
  obtain ⟨ht, hst, hr, hr2⟩ := ht
  exact hQ r t ht hst (by rw [hlen]; exact hr) hr2

end Carries
end Txv6
