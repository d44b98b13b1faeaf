import Txv6.Volume.DirMap

/-! # Reading and writing through descriptors

`fileread` and `filewrite`: how many bytes they move for a count, and what they do to the offset of
the file. A write goes in chunks, each in an operation of its own.
-/
namespace Txv6
open Lib Lib.Prog Function List

variable {x : InodeData} {len off : Nat} {blk : Nat → Block} {J : Nat → InodeData} {w : Vol}

/-! ## Memory -/

/-- Nothing has changed outside of the `k` bytes at `va`. -/
def Within (va k : Nat) (m m' : Nat → Option UChar) : Prop := ∀ x, ¬ (va ≤ x ∧ x < va + k) → m' x = m x

theorem Within.refl (va k : Nat) (m : Nat → Option UChar) : Within va k m m := fun _ _ => rfl

theorem Within.mono {va k l : Nat} {m m' : Nat → Option UChar} (h : Within va k m m') (hkl : k ≤ l) :
    Within va l m m' := fun x hx => h x (by omega)

/-- A device or a pipe that moves no more bytes than it is asked for. -/
structure DevOps.Honest (d : DevOps) : Prop where
  read : ∀ m va n, (d.read m va n).1 ≤ max n 0 ∧ Within va n.toNat m (d.read m va n).2
  write : ∀ m va n, d.write m va n ≤ max n 0

/-! ## Writes one after the other -/

theorem Vol.splice_splice {c xs ys : List UChar} (h : off ≤ c.length) :
    Vol.splice (Vol.splice c off xs) (off + xs.length) ys = Vol.splice c off (xs ++ ys) := by
  have hlen : off + xs.length ≤ (Vol.splice c off xs).length := by
    rw [Vol.splice_length h]
    omega
  apply ext_getElem?
  intro j
  by_cases hnew : off + xs.length ≤ j ∧ j < off + xs.length + ys.length
  · rw [Vol.splice_new hlen hnew.1 hnew.2, Vol.splice_new h (by omega) (by rw [length_append]; omega),
      List.getElem?_append_right (by omega)]
    congr 1
    omega
  · rw [Vol.splice_old hlen hnew]
    by_cases hold : off ≤ j ∧ j < off + xs.length
    · rw [Vol.splice_new h hold.1 hold.2, Vol.splice_new h hold.1 (by rw [length_append]; omega),
        List.getElem?_append_left (by omega)]
    · rw [Vol.splice_old h hold, Vol.splice_old h (by rw [length_append]; omega)]

/-! ## States with other user memory and other files -/

namespace Fsys
variable {p : ProcPtr} {k : Int} {L : Finset InodePtr} {v : Vol} {I : Nat → InodeData} {s : Kernel} {n : Nat}
  {ip : InodePtr} {E : Err → Kernel → Prop}

theorem setUmem {q : ProcPtr} {m : Nat → Option UChar} (h : Fsys p k L v I s) : Fsys p k L v I (s.setUmem q m) := by
  have ht := h.table
  refine h.of_table h.carries.setUmem ⟨fun ip => ?_, ht.unique, ht.apart, ht.distinct, ht.fresh, ht.nodup, ht.pages⟩
    rfl rfl
  rw [setUmem_pid]
  exact ht.entry ip

theorem setFile {f : FilePtr} {g : File → File} (h : Fsys p k L v I s) : Fsys p k L v I (s.setFile f g) := by
  have ht := h.table
  exact h.of_table (h.carries.congr rfl rfl rfl rfl rfl rfl fun _ => rfl)
    ⟨ht.entry, ht.unique, ht.apart, ht.distinct, ht.fresh, ht.nodup, ht.pages⟩ rfl rfl

end Fsys

/-! ## Open files -/

/-- Process `p` runs alone, outside of operations and transactions, on a consistent file system. File
`f` is open; if it is a file on the disk, this is inode `n`. The devices and the pipes are honest. -/
structure Descriptor (p : ProcPtr) (f : FilePtr) (n : Nat) (v : Vol) (I : Nat → InodeData) (s : Kernel) : Prop where
  fsys : Fsys p 0 ∅ v I s
  logged : v.lh = []
  typed : (s.file f).type ≠ .none
  off : (s.file f).off < 2 ^ 32
  inode : (s.file f).type = .inode →
    ∃ ip, (s.file f).ip = some ip ∧ 0 < (s.inode ip).ref ∧ (s.inode ip).inum = n ∧ Live s.sb I n
  pipe : (s.pipeOps (s.file f).pipe).Honest
  device : ∀ dev, s.device (s.file f).major = some dev → dev.Honest

/-- What a read with count `n` may do. -/
structure ReadHonours (p : ProcPtr) (f : FilePtr) (va : Nat) (n : Int) (s : Kernel) (r : Int) (t : Kernel) : Prop where
  count : r ≤ max n 0
  memory : Within va n.toNat (s.proc p).umem (t.proc p).umem
  off : (s.file f).type = .inode → (t.file f).off = (s.file f).off + r.toNat

/-- What a write of `data` with count `n` may do; inode `m` is that of the file. -/
structure WriteHonours (f : FilePtr) (m : Nat) (data : List UChar) (n : Int) (s : Kernel) (r : Int) (t : Kernel) :
    Prop where
  count : r ≤ max n 0
  inode : (s.file f).type = .inode → ∃ k ≤ n.toNat, (t.file f).off = (s.file f).off + k ∧
    (r = n → k = n.toNat) ∧
    (t.dinode m).content t.blk = Vol.splice ((s.dinode m).content s.blk) (s.file f).off (data.take k)

/-! ## Reads -/

/-- What a read of a file on the disk delivers: the count is taken as an unsigned number. -/
def InodeData.delivered (blk : Nat → Block) (i : InodeData) (off : Nat) (n : Int) : List UChar :=
  i.piece blk off (n % 2 ^ 32).toNat

namespace Descriptor
variable {p : ProcPtr} {f : FilePtr} {m : Nat} {v : Vol} {I : Nat → InodeData} {s : Kernel} {va : Nat} {n : Int}
  {E : Err → Kernel → Prop}

theorem devRead {dev : DevOps} (hdev : dev.Honest) (hf : (s.file f).type ≠ .inode) :
    ends (devRead p dev va n) (fun r t => ReadHonours p f va n s r t) E s := by
  unfold Txv6.devRead
  rw [ends_atom]
  obtain ⟨hr, hw⟩ := hdev.read (s.proc p).umem va n
  refine ⟨hr, ?_, fun hc => absurd hc hf⟩
  have hm : (((s.setProc p fun x => { x with umem := (dev.read (s.proc p).umem va n).2 }).proc p).umem) =
      (dev.read (s.proc p).umem va n).2 := by simp [Kernel.setProc]
  rw [hm]
  exact hw

end Descriptor

/-! ## Writes -/

/-- The bytes of a chunk: a few blocks, so that the log has room for them. -/
abbrev chunkMax : Nat := 3072

/-- `filewrite`, which was called in state `s`, has written the first `i` bytes of `data` to inode `m`. -/
structure Writing (p : ProcPtr) (f : FilePtr) (ip : InodePtr) (m : Nat) (data : List UChar) (s : Kernel) (i : Nat)
    (t : Kernel) : Prop where
  fsys : ∃ w J, Fsys p 0 ∅ w J t ∧ w.lh = [] ∧ Live s.sb J m ∧
    (J m).content w.blk = Vol.splice ((s.dinode m).content s.blk) (s.file f).off (data.take i)
  sb : t.sb = s.sb
  proc : t.proc = s.proc
  file : t.file f = { s.file f with off := (s.file f).off + i }
  ref : 0 < (t.inode ip).ref
  inum : (t.inode ip).inum = m
  start : i = 0 ∨ (s.file f).off ≤ ((s.dinode m).content s.blk).length
  off : (s.file f).off + i < 2 ^ 32

namespace Writing
variable {p : ProcPtr} {f : FilePtr} {ip : InodePtr} {m : Nat} {data : List UChar} {s t : Kernel} {i : Nat} {va : Nat}
  {α : Type} {Q : α → Kernel → Prop} {E : Err → Kernel → Prop}

/-- The commit at the end of a chunk. -/
theorem commit {u : Kernel} {j : Nat} {k : K α}
    (hu : Fsys p 1 {ip} w J u) (hlen : w.lh.length < nbuf) (hlive : Live s.sb J m) (hsb : u.sb = s.sb)
    (hproc : u.proc = s.proc) (hfile : u.file f = { s.file f with off := (s.file f).off + j })
    (href : 0 < (u.inode ip).ref) (hinum : (u.inode ip).inum = m)
    (hcontent : (J m).content w.blk = Vol.splice ((s.dinode m).content s.blk) (s.file f).off (data.take j))
    (hstart : j = 0 ∨ (s.file f).off ≤ ((s.dinode m).content s.blk).length) (hoff : (s.file f).off + j < 2 ^ 32)
    (hk : ∀ u', Writing p f ip m data s j u' → ends k Q E u') :
    ends (do
      iunlock p ip
      endOp p
      k) Q E u := by
  rw [ends_bind]
  refine hu.iunlock (Finset.mem_singleton_self ip) fun t₁ h₁ m₁ => ?_
  rw [Finset.erase_singleton] at h₁
  rw [ends_bind]
  refine h₁.endOp hlen fun w' t₂ h₂ hlh hblk m₂ => hk t₂ ?_
  have m₁₂ := m₁.after m₂
  have hsb₁ : t₁.sb = s.sb := m₁.sb.trans hsb
  have hlow : t₁.sb.inodestart ≤ t₁.sb.bmapstart :=
    Nat.le_trans (Nat.le_add_right _ _) (Nat.le_of_lt h₁.layout.inodes)
  have hsame : (J m).content w'.blk = (J m).content w.blk :=
    h₁.files.content_above h₁.layout (fun x hx => hblk x (Nat.le_trans hlow hx)) (by rw [hsb₁]; exact hlive)
  have href₂ : 0 < (t₂.inode ip).ref := by
    rw [m₁₂.ref]
    simpa using href
  refine ⟨⟨w', J, h₂, hlh, hlive, hsame.trans hcontent⟩, m₁₂.sb.trans hsb, m₁₂.proc.trans hproc, ?_, href₂, ?_, hstart, hoff⟩
  · rw [m₁₂.file]
    exact hfile
  · rw [(m₁₂.kept ip href href₂).1]
    exact hinum

/-- A chunk that is not refused begins inside of the file. -/
theorem start_chunk (h : Writing p f ip m data s i t) (hr : ¬ Vol.Refused x ((s.file f).off + i) len)
    (hcontent : x.content w.blk = Vol.splice ((s.dinode m).content s.blk) (s.file f).off (data.take i)) :
    (s.file f).off ≤ ((s.dinode m).content s.blk).length ∧ (s.file f).off + i ≤ (x.content w.blk).length ∧
      (s.file f).off + i + len ≤ maxfile * bsize := by
  unfold Vol.Refused at hr
  have hlen : (x.content w.blk).length = x.size.toNat := InodeData.content_length
  refine ⟨?_, by omega, by omega⟩
  rcases h.start with h0 | h0
  · rw [h0, take_zero, Vol.splice_nil] at hcontent
    rw [← hcontent]
    omega
  · exact h0

/-- The chunks of a write are one write. -/
theorem content_chunk {w' : Vol} {sb : Superblock} {tot : Nat}
    (h : Writing p f ip m data s i t) (hr : ¬ Vol.Refused (J m) ((s.file f).off + i) len)
    (hcontent : (J m).content w.blk = Vol.splice ((s.dinode m).content s.blk) (s.file f).off (data.take i))
    (hdata : i + len ≤ data.length)
    (hout : Vol.Outcome sb m w J ((s.file f).off + i) len ((data.drop i).take len) tot [] w' x) :
    x.content w'.blk = Vol.splice ((s.dinode m).content s.blk) (s.file f).off (data.take (i + tot)) := by
  obtain ⟨hstart, hinside, _⟩ := h.start_chunk hr hcontent
  have hshort := hout.short
  have hchunk : ((data.drop i).take len).take tot = (data.drop i).take tot := by
    rw [take_take]
    congr 1
    rw [length_take] at hshort
    omega
  have hlen : (data.take i).length = i := by
    rw [length_take]
    omega
  have hall := hout.content
  rw [append_nil, take_of_length_le, hcontent, hchunk] at hall
  · have hsplice : Vol.splice (Vol.splice ((s.dinode m).content s.blk) (s.file f).off (data.take i))
        ((s.file f).off + (data.take i).length) ((data.drop i).take tot) = _ := Vol.splice_splice hstart
    rw [hlen] at hsplice
    rw [hall, hsplice, ← take_add]
  · rw [Vol.splice_length hinside, InodeData.content_length, length_take]
    omega

/-- A chunk of `len` bytes: nothing if it is refused, otherwise as much as the disk takes. -/
theorem chunk (va len : Nat) {k : Int → K α} (h : Writing p f ip m data s i t) (hlen : len ≤ chunkMax)
    (hdata : i + len ≤ data.length) (hsrc : copyin (s.proc p).umem va data.length = (data, true))
    (hk : ∀ (r : Int) u, (r = -1 ∧ Writing p f ip m data s i u) ∨
      (∃ tot : Nat, tot ≤ len ∧ r = tot ∧ Writing p f ip m data s (i + tot) u) → ends (k r) Q E u) :
    ends (do
      beginOp p
      ilock p ip
      let off ← .read fun s => (s.file f).off
      let r ← writei p ip (.user (va + i)) off len
      Prog.when (decide (0 < r)) do
        .update fun s => s.setFile f fun x => { x with off := x.off + r.toNat }
      iunlock p ip
      endOp p
      k r) Q E t := by
  obtain ⟨w, J, hf, hlh, hlive, hcontent⟩ := h.fsys
  rw [ends_bind]
  refine hf.beginOp hlh fun t₁ h₁ m₁ => ?_
  have href₁ : 0 < (t₁.inode ip).ref := by
    rw [m₁.ref]
    simpa using h.ref
  have hinum₁ : (t₁.inode ip).inum = m := (m₁.kept ip h.ref href₁).1.trans h.inum
  rw [ends_bind]
  refine h₁.ilock (Finset.notMem_empty ip) href₁ ?_ (.inl (by rw [hlh]; decide)) fun t₂ h₂ m₂ hl₂ => ?_
  · rw [m₁.sb, h.sb, hinum₁]
    exact hlive
  rw [hinum₁] at hl₂
  rw [insert_empty_eq] at h₂
  have m₁₂ := m₁.after m₂
  have hsb₂ : t₂.sb = s.sb := m₁₂.sb.trans h.sb
  have hproc₂ : t₂.proc = s.proc := m₁₂.proc.trans h.proc
  have hfile₂ : t₂.file f = { s.file f with off := (s.file f).off + i } := by
    rw [m₁₂.file]
    exact h.file
  have hlive₂ : Live t₂.sb J m := by
    rw [hsb₂]
    exact hlive
  have hlen32 : len < 2 ^ 32 := Nat.lt_of_le_of_lt hlen (by decide)
  rw [ends_bind, ends_read, hfile₂, ends_bind]
  by_cases hr : Vol.Refused (J m) ((s.file f).off + i) len
  · refine h₂.writei_refused hl₂ hlive₂ h.off hlen32 hr ?_
    rw [ends_bind, ends_when, if_neg (by decide)]
    exact commit h₂ (by rw [hlh]; decide) hlive hsb₂ hproc₂ hfile₂ hl₂.ref hl₂.inum hcontent h.start h.off
      fun u hu => hk (-1) u (.inl ⟨rfl, hu⟩)
  · have hfetch : (Src.user (va + i)).fetch (t₂.proc p).umem 0 len = ((data.drop i).take len, true) := by
      have hlen' : (copyin (s.proc p).umem va data.length).1.length = data.length := by rw [hsrc]
      have hpart : copyin (s.proc p).umem (va + i) len = (((copyin (s.proc p).umem va data.length).1.drop i).take len,
          decide (i + len ≤ (copyin (s.proc p).umem va data.length).1.length)) :=
        copyin_drop (by rw [hlen']; omega) hdata
      change copyin (t₂.proc p).umem (va + i + 0) len = _
      rw [Nat.add_zero, hproc₂, hpart, hsrc, decide_eq_true hdata]
    have hdrop : ((data.drop i).take len).length = len := by
      rw [length_take, length_drop]
      omega
    refine h₂.writei (Int.le_refl 1) hl₂ hlive₂ h.off hlen32 hfetch hdrop ?_ hr fun tot w' j t₃ htot hout hlen' h₃ m₃ hin => ?_
    · rw [hlh]
      have : len / 1024 ≤ 3 := Nat.div_le_of_le_mul hlen
      change 0 + 2 * (len / 1024) + 8 < 30
      omega
    have hshort := hout.short
    rw [hdrop] at hshort
    have hcontent' := h.content_chunk hr hcontent hdata hout
    obtain ⟨hstart, _, hend⟩ := h.start_chunk hr hcontent
    have hmax := Vol.maxfile_lt
    have hlive' : Live s.sb (update J m j) m := Fsys.live_update hlive (by rw [hout.same])
    have href₃ : 0 < (t₃.inode ip).ref := by
      rw [hin]
      exact hl₂.ref
    have hinum₃ : (t₃.inode ip).inum = m := by
      rw [hin]
      exact hl₂.inum
    have hlog₃ : w'.lh.length < nbuf := by
      have : len / 1024 ≤ 3 := Nat.div_le_of_le_mul hlen
      rw [hlh] at hlen'
      change w'.lh.length ≤ 0 + 2 * (len / 1024) + 7 at hlen'
      change w'.lh.length < 30
      omega
    have hdone : ∀ u, Writing p f ip m data s (i + tot) u → ends (k tot) Q E u := fun u hu =>
      hk tot u (.inr ⟨tot, hshort, rfl, hu⟩)
    rw [← update_self m j J] at hcontent'
    rw [ends_bind, ends_when]
    by_cases hpos : (0 : Int) < tot
    · rw [if_pos (decide_eq_true hpos), ends_update]
      refine commit h₃.setFile hlog₃ hlive' (m₃.sb.trans hsb₂) (m₃.proc.trans hproc₂) ?_ href₃ hinum₃ hcontent'
        (.inr hstart) (by omega) hdone
      have hfile₃ : t₃.file f = { s.file f with off := (s.file f).off + i } := by
        rw [m₃.file]
        exact hfile₂
      simp [Kernel.setFile, hfile₃, Nat.add_assoc]
    · rw [if_neg (by simpa using hpos)]
      refine commit h₃ hlog₃ hlive' (m₃.sb.trans hsb₂) (m₃.proc.trans hproc₂) ?_ href₃ hinum₃ hcontent'
        (.inr hstart) (by omega) hdone
      have hzero : tot = 0 := by omega
      rw [m₃.file, hfile₂, hzero, Nat.add_zero]

/-- The chunks from byte `i` on. -/
theorem loop (hsrc : copyin (s.proc p).umem va data.length = (data, true)) : ∀ fuel {i : Nat} {t : Kernel},
    Writing p f ip m data s i t → i ≤ data.length → data.length ≤ i + fuel →
    ends (filewriteLoop p f ip va data.length fuel i) (fun r u => ∃ k ≤ data.length, Writing p f ip m data s k u ∧
      (r = data.length → k = data.length)) E t := by
  intro fuel
  induction fuel with
  | zero =>
    intro i t h hle hfuel
    unfold filewriteLoop
    rw [ends_pure]
    exact ⟨i, hle, h, fun _ => by omega⟩
  | succ fuel ih =>
    intro i t h hle hfuel
    unfold filewriteLoop
    by_cases hlt : (i : Int) < data.length
    swap
    · rw [if_neg hlt, ends_pure]
      exact ⟨i, hle, h, fun _ => by omega⟩
    rw [if_pos hlt]
    have hmax : ((maxopblocks - 1 - 1 - 2 : Int) / 2 * bsize : Int) = chunkMax := by decide
    have hlen : (min ((data.length : Int) - i) chunkMax).toNat = min (data.length - i) chunkMax := by
      change (min ((data.length : Int) - i) 3072).toNat = min (data.length - i) 3072
      omega
    dsimp only
    rw [hmax, hlen]
    have hround := h.chunk va (min (data.length - i) chunkMax) (Q := fun (r : Int) u =>
      ∃ k ≤ data.length, Writing p f ip m data s k u ∧ (r = data.length → k = data.length)) (E := E)
      (k := fun r => if r ≠ min ((data.length : Int) - i) chunkMax then return (i : Int)
        else filewriteLoop p f ip va data.length fuel (i + r)) (Nat.min_le_right _ _) (by omega) hsrc ?_
    · exact hround
    · rintro r u (⟨rfl, hu⟩ | ⟨tot, htot, rfl, hu⟩)
      · rw [if_pos (by change (-1 : Int) ≠ min ((data.length : Int) - i) 3072; omega), ends_pure]
        exact ⟨i, hle, hu, fun _ => by omega⟩
      · by_cases hall : (tot : Int) = min ((data.length : Int) - i) chunkMax
        · rw [if_neg (not_not.mpr hall), ← Int.natCast_add]
          have hpos : 0 < tot := by
            change (tot : Int) = min ((data.length : Int) - i) 3072 at hall
            omega
          exact ih hu (by omega) (by omega)
        · rw [if_pos hall, ends_pure]
          exact ⟨i + tot, by omega, hu, fun _ => by omega⟩

end Writing

namespace Descriptor
variable {p : ProcPtr} {f : FilePtr} {m : Nat} {v : Vol} {I : Nat → InodeData} {s : Kernel} {dst src : Nat} {n : Int}
  {data : List UChar} {E : Err → Kernel → Prop}

/-- Nothing has happened. -/
theorem writeHonours_self (r : Int) (hr : r ≤ max n 0) (hrn : r = n → n ≤ 0) : WriteHonours f m data n s r s := by
  refine ⟨hr, fun _ => ⟨0, Nat.zero_le _, rfl, fun e => ?_, ?_⟩⟩
  · have := hrn e
    omega
  · rw [take_zero, Vol.splice_nil]

/-- How `filewrite` ends: in the state it began in, or after some of the bytes. -/
theorem filewrite_ends {Q : Int → Kernel → Prop} (h : Descriptor p f m v I s) (hlen : data.length = n.toNat)
    (hsrc : copyin (s.proc p).umem src data.length = (data, true))
    (hstay : ∀ r, WriteHonours f m data n s r s → Q r s)
    (hwrote : ∀ r u k ip, Writing p f ip m data s k u → WriteHonours f m data n s r u → Q r u) :
    ends (filewrite p f src n) Q E s := by
  have hno : Q (-1) s := hstay _ (writeHonours_self (-1) (by omega) (by omega))
  have hother : ∀ r, r ≤ max n 0 → (s.file f).type ≠ .inode → Q r s :=
    fun r hr hf => hstay r ⟨hr, fun hc => absurd hc hf⟩
  unfold Txv6.filewrite
  rw [ends_bind, ends_read]
  by_cases hw : (s.file f).writable = true
  swap
  · rw [if_pos (by simpa using hw), ends_pure]
    exact hno
  rw [if_neg (by simp [hw])]
  cases hft : (s.file f).type with
  | none => exact absurd hft h.typed
  | pipe =>
    change ends (Prog.read _) _ E s
    rw [ends_read]
    exact hother _ (h.pipe.write _ _ _) (by rw [hft]; exact nofun)
  | device =>
    rw [ends_bind, ends_read]
    cases hd : s.device (s.file f).major with
    | none => exact hno
    | some dev =>
      change ends (Prog.read _) _ E s
      rw [ends_read]
      exact hother _ ((h.device dev hd).write _ _ _) (by rw [hft]; exact nofun)
  | inode =>
    obtain ⟨ip, hip, href, hinum, hlive⟩ := h.inode hft
    change ends (fileInode (s.file f) >>= _) _ E s
    unfold fileInode
    rw [hip]
    change ends (filewriteLoop p f ip src n n.toNat 0 >>= _) _ E s
    have hcontent : (I m).content v.blk = (s.dinode m).content s.blk := by
      rw [h.fsys.dinode_eq hlive, show s.blk = v.blk from funext h.fsys.carries.blk]
    rw [ends_bind]
    by_cases hneg : n < 0
    · -- the loop is not entered
      have hzero : n.toNat = 0 := by omega
      rw [hzero]
      unfold filewriteLoop
      rw [ends_pure, ends_pure, if_neg (by omega)]
      exact hno
    · have hn : n = (data.length : Int) := by omega
      have hstart : Writing p f ip m data s 0 s := by
        refine ⟨⟨v, I, h.fsys, h.logged, hlive, ?_⟩, rfl, rfl, rfl, href, hinum, .inl rfl, h.off⟩
        rw [take_zero, Vol.splice_nil]
        exact hcontent
      rw [hn]
      refine ends_mono (hstart.loop hsrc data.length (Nat.zero_le _) (by omega)) fun r u hu => ?_
      obtain ⟨k, hk, hwr, hall⟩ := hu
      obtain ⟨w, J, hf, _, hliveJ, hc⟩ := hwr.fsys
      have hlive' : Live u.sb J m := by
        rw [hwr.sb]
        exact hliveJ
      have hread : (u.dinode m).content u.blk = (J m).content w.blk := by
        rw [hf.dinode_eq hlive', show u.blk = w.blk from funext hf.carries.blk]
      rw [ends_pure]
      refine hwrote _ u k ip hwr ⟨by split <;> omega, fun _ => ⟨k, by omega, by rw [hwr.file], fun e => ?_, by rw [hread, hc]⟩⟩
      by_cases hr : r = data.length
      · have := hall hr
        omega
      · rw [if_neg hr] at e
        omega

theorem filewrite (h : Descriptor p f m v I s) (hlen : data.length = n.toNat)
    (hsrc : copyin (s.proc p).umem src data.length = (data, true)) :
    ends (filewrite p f src n) (fun r t => WriteHonours f m data n s r t) E s :=
  h.filewrite_ends hlen hsrc (fun _ hr => hr) fun _ _ _ _ _ hr => hr

end Descriptor

namespace Sample

end Sample

end Txv6
