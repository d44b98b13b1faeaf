import Txv6.Deadlock.Held

/-! # The locks of inode operations

No operation asks for a buffer with more than one other in hand: the one it keeps is the
indirect block, while it looks for a block in the free map, zeroes a new one or frees one.
-/
namespace Txv6
open Lib Lib.Prog Finset
open TameStep (refl setPage setProc)
open Kernel (setBuf)

/-- The buffers among some locks. -/
def bufs (L : Finset Header) : Finset BufPtr := Finset.univ.filter fun b => .buf b ∈ L

@[simp] theorem mem_bufs {L : Finset Header} {b : BufPtr} : b ∈ bufs L ↔ .buf b ∈ L := by
  simp [bufs]

theorem bufs_insert_buf (L : Finset Header) (b : BufPtr) : bufs (insert (.buf b) L) = insert b (bufs L) := by
  ext x
  simp

theorem bufs_insert_inode (L : Finset Header) (ip : InodePtr) : bufs (insert (.inode ip) L) = bufs L := by
  ext x
  simp

theorem bufs_erase_inode (L : Finset Header) (ip : InodePtr) : bufs (L.erase (.inode ip)) = bufs L := by
  ext x
  simp

/-- At most one buffer is locked. -/
def OneBuf (L : Finset Header) : Prop := ∀ x y, .buf x ∈ L → .buf y ∈ L → y = x

def NoBuf (L : Finset Header) : Prop := ∀ b, .buf b ∉ L

theorem NoBuf.one {L : Finset Header} (h : NoBuf L) : OneBuf L := fun x _ hx => absurd hx (h x)

theorem NoBuf.insert_buf {L : Finset Header} (h : NoBuf L) (b : BufPtr) : OneBuf (insert (.buf b) L) := by
  intro x y hx hy
  have hb : ∀ z, Header.buf z ∈ insert (.buf b) L → z = b := by
    intro z hz
    rcases mem_insert.mp hz with e | hz
    · exact Header.buf.inj e
    · exact absurd hz (h z)
  rw [hb x hx, hb y hy]

theorem NoBuf.insert_inode {L : Finset Header} (h : NoBuf L) (ip : InodePtr) :
    NoBuf (insert (.inode ip) L) := by
  intro b hb
  rcases mem_insert.mp hb with e | hb
  · cases e
  · exact h b hb

/-- The account of a process in an operation: every buffer it has is locked. -/
abbrev OpInv (p : ProcPtr) (v : Option Transaction) (L : Finset Header) : Kernel × Held → Prop :=
  HeldInv p v L none (bufs L)

namespace HeldInv
variable {p : ProcPtr} {v : Option Transaction} {L : Finset Header} {x : Kernel × Held}

/-! ## Buffers -/

/-- The critical section of `bget`: from now on the buffer is counted and asked for. -/
theorem bgetStep (dev blockno : Nat) (h : OpInv p v L x) :
    heldWp p (.atom fun s => s.bget dev blockno) (fun o y => ∀ b, o = some b →
      HeldInv p v L (some (.buf b)) (insert b (bufs L)) y) x := by
  refine h.act fun t ht _ _ => ?_
  have hmem : ∀ b y, y ≠ b → (y ∈ insert b (bufs L) ↔ y ∈ bufs L) := by
    intro b y e
    simp [e]
  have hres := bget_result t dev blockno
  dsimp only
  generalize t.bget dev blockno = res at hres ⊢
  cases hres with
  | @found b _ _ _ =>
    obtain ⟨hG, hI⟩ := ht.countStep (t := t.setBuf b fun x => { x with refcnt := x.refcnt + 1 })
      (o := some (.buf b)) (D := insert b (bufs L)) (Quiet.setBuf rfl) (fun _ => rfl) rfl
      (fun y e => ⟨by simp [setBuf, e], hmem b y e⟩) (.inl (by simp [setBuf]))
      (by simp [setBuf]; split <;> omega)
    refine ⟨_, hG, fun b' hb' => ?_⟩
    cases hb'
    exact hI
  | @recycled b _ _ hzero =>
    obtain ⟨hG, hI⟩ := ht.countStep (t := t.setBuf b fun x =>
        { x with dev := dev, blockno := blockno, valid := false, refcnt := 1 })
      (o := some (.buf b)) (D := insert b (bufs L)) (Quiet.setBuf rfl) (fun _ => rfl) rfl
      (fun y e => ⟨by simp [setBuf, e], hmem b y e⟩) (.inr hzero)
      (by simp [setBuf, hzero]; split <;> omega)
    refine ⟨_, hG, fun b' hb' => ?_⟩
    cases hb'
    exact hI
  | full =>
    obtain ⟨hG, hI⟩ := ht.tame (refl p t) none
    exact ⟨_, hG, fun b hb => by cases hb⟩

theorem bget (dev blockno : Nat) (hone : OneBuf L) (h : OpInv p v L x) :
    heldWp p (Txv6.bget p dev blockno)
      (fun b y => .buf b ∉ L ∧ OpInv p v (insert (.buf b) L) y) x := by
  refine gwp_seq (h.bgetStep dev blockno) fun o y hy => ?_
  cases o with
  | none => exact ⟨_, rfl⟩
  | some b =>
    have hask : (⟨L, some (.buf b), insert b (bufs L)⟩ : Held).MayAsk (.buf b) := by
      intro z hz
      refine ⟨fun w hw => hone z w hz hw, ?_, mem_insert_self _ _⟩
      exact mem_insert_of_mem (mem_bufs.mpr hz)
    refine gwp_seq ((hy b rfl).acquiresleep hask) fun _ y hy => ?_
    rw [← bufs_insert_buf] at hy
    exact hy

theorem bread (dev blockno : Nat) (hone : OneBuf L) (h : OpInv p v L x) :
    heldWp p (Txv6.bread p dev blockno)
      (fun b y => .buf b ∉ L ∧ OpInv p v (insert (.buf b) L) y) x := by
  refine gwp_seq (h.bget dev blockno hone) fun b y hy => ?_
  obtain ⟨hb, h⟩ := hy
  refine gwp_seq h.read fun valid y h => ?_
  refine gwp_seq (h.when ?_) fun _ _ h => ⟨hb, h⟩
  refine gwp_seq (h.update fun t => setPage _ _ _) fun _ y h => ?_
  exact h.update fun t => TameStep.setBuf rfl rfl le_rfl

theorem brelse (b : BufPtr) (h : OpInv p v L x) :
    heldWp p (Txv6.brelse p b) (fun _ => OpInv p v (L.erase (.buf b))) x := by
  refine gwp_seq h.kassert fun _ y hy => ?_
  have hb : Header.buf b ∈ L := (hy.2.holds _).mp hy.1
  refine gwp_seq (hy.2.releasesleep hb) fun _ y h => ?_
  refine h.act fun t ht _ _ => ?_
  have hbuf : (t.brelse b).sb = t.sb ∧ (t.brelse b).proc = t.proc ∧
      (t.brelse b).buf = (t.setBuf b fun x => { x with refcnt := x.refcnt - 1 }).buf := by
    unfold Kernel.brelse
    dsimp only
    split <;> exact ⟨rfl, rfl, rfl⟩
  obtain ⟨hG, hI⟩ := ht.countStep (t := t.brelse b) (b := b) (o := none)
    (D := bufs (L.erase (.buf b))) (Quiet.brelse t b) (fun q => by rw [hbuf.2.1]) hbuf.1
    (fun z e => ⟨by rw [hbuf.2.2]; simp [setBuf, e], by simp [e]⟩)
    (.inl (by rw [hbuf.2.2]; simp [setBuf]))
    (by rw [hbuf.2.2]; simp [setBuf, hb])
  exact ⟨_, hG, hI⟩

/-- Giving back the buffer that was taken last. -/
theorem brelseTop {b : BufPtr} (hb : .buf b ∉ L) (h : OpInv p v (insert (.buf b) L) x) :
    heldWp p (Txv6.brelse p b) (fun _ => OpInv p v L) x := by
  have := h.brelse b
  rwa [erase_insert hb] at this

theorem bdata (b : BufPtr) (h : OpInv p none L x) :
    heldWp p (Txv6.bdata p b) (fun _ => OpInv p none L) x := by
  refine gwp_seq (M := fun _ => OpInv p none L) (h.atomOrPanic ?_) fun r y h => ?_
  · intro t r ht _ hr
    exact ⟨OwnStep.bdataShadow ht.sorted hr, fun _ hv => (nomatch hv), fun _ _ hy => hy⟩
  refine gwp_seq (h.when ?_) fun _ _ h => h
  refine gwp_seq (h.update fun t => TameStep.setBuf rfl rfl ?_) fun _ y h => ?_
  · dsimp only
    omega
  · exact h.updateOwn fun t => OwnStep.markNew t b

theorem logWrite (b : BufPtr) (h : OpInv p v L x) :
    heldWp p (Txv6.logWrite p b) (fun _ => OpInv p v L) x := by
  refine gwp_seq h.read fun active y h => ?_
  cases active with
  | true => exact h
  | false =>
    refine h.atomOrPanic fun t r ht _ hr => ?_
    have htame : TameStep p t (t.logWrite b).2 := by
      have hpin : TameStep p t (t.bpin b) := TameStep.setBuf rfl rfl (by dsimp only; omega)
      unfold Kernel.logWrite
      split
      · exact refl p t
      split
      · exact refl p t
      split
      · exact refl p t
      · refine hpin.trans (TameStep.of_quiet ?_ (fun _ => rfl) rfl rfl)
        exact Quiet.rest _ _ _ _ _ _ _
    exact ⟨htame.toOwnStep, fun _ _ => htame.same, fun _ _ hy => hy⟩

theorem setBfield (d : Page) (f : Block → Block) (h : OpInv p v L x) :
    heldWp p (Txv6.setBfield d f) (fun _ => OpInv p v L) x :=
  h.update fun _ => setPage _ _ _

theorem setIfield (d : Page) (f : InodeData → InodeData) (h : OpInv p v L x) :
    heldWp p (Txv6.setIfield d f) (fun _ => OpInv p v L) x :=
  h.update fun _ => setPage _ _ _

section
variable (h : OpInv p none L x)
include h

theorem bzero (dev bno : Nat) (hone : OneBuf L) :
    heldWp p (Txv6.bzero p dev bno) (fun _ => OpInv p none L) x := by
  refine gwp_seq (h.bread dev bno hone) fun b y hy => ?_
  obtain ⟨hb, h⟩ := hy
  refine gwp_seq (h.bdata b) fun d y h => ?_
  refine gwp_seq (h.setBfield d _) fun _ y h => ?_
  refine gwp_seq (h.logWrite b) fun _ y h => ?_
  exact h.brelseTop hb

theorem ballocScan (size b : Nat) (bp : BufPtr) (fuel bi : Nat) :
    heldWp p (Txv6.ballocScan p size b bp fuel bi) (fun _ => OpInv p none L) x := by
  induction fuel generalizing bi x with
  | zero => exact h
  | succ fuel ih =>
    unfold Txv6.ballocScan
    split
    · refine gwp_seq (h.bdata bp) fun d y h => ?_
      refine gwp_seq h.read fun free y h => ?_
      split
      · refine gwp_seq (h.bdata bp) fun d y h => ?_
        refine gwp_seq (h.setBfield d _) fun _ y h => ?_
        exact gwp_seq (h.logWrite bp) fun _ y h => h
      · exact ih h _
    · exact h

theorem ballocLoop (dev size : Nat) (hone : OneBuf L) (fuel b : Nat) :
    heldWp p (Txv6.ballocLoop p dev size fuel b) (fun _ => OpInv p none L) x := by
  induction fuel generalizing b x with
  | zero => exact h
  | succ fuel ih =>
    unfold Txv6.ballocLoop
    split
    · refine gwp_seq h.read fun blk y h => ?_
      refine gwp_seq (h.bread dev blk hone) fun bp y hy => ?_
      obtain ⟨hb, h⟩ := hy
      refine gwp_seq (h.ballocScan _ _ bp _ _) fun o y h => ?_
      cases o with
      | none => exact gwp_seq (h.brelseTop hb) fun _ y h => ih h _
      | some bi =>
        refine gwp_seq (h.brelseTop hb) fun _ y h => ?_
        exact gwp_seq (h.bzero dev (b + bi) hone) fun _ y h => h
    · exact h

theorem balloc (dev : Nat) (hone : OneBuf L) :
    heldWp p (Txv6.balloc p dev) (fun _ => OpInv p none L) x :=
  gwp_seq h.read fun _ _ h => h.ballocLoop dev _ hone _ _

theorem bfree (dev b : Nat) (hone : OneBuf L) :
    heldWp p (Txv6.bfree p dev b) (fun _ => OpInv p none L) x := by
  refine gwp_seq h.read fun blk y h => ?_
  refine gwp_seq (h.bread dev blk hone) fun bp y hy => ?_
  obtain ⟨hb, h⟩ := hy
  refine gwp_seq (h.bdata bp) fun d y h => ?_
  refine gwp_seq h.kassert fun _ y hy => ?_
  refine gwp_seq (hy.2.bdata bp) fun d y h => ?_
  refine gwp_seq (h.setBfield d _) fun _ y h => ?_
  refine gwp_seq (h.logWrite bp) fun _ y h => ?_
  exact h.brelseTop hb
end

/-! ## Inodes -/

theorem inodeData (ip : InodePtr) (h : OpInv p v L x) :
    heldWp p (Txv6.inodeData ip) (fun _ => OpInv p v L) x := by
  refine gwp_seq h.read fun o y h => ?_
  cases o with
  | none => exact ⟨_, rfl⟩
  | some d => exact h

theorem iupdate (ip : InodePtr) (hone : OneBuf L) (h : OpInv p v L x) :
    heldWp p (Txv6.iupdate p ip) (fun _ => OpInv p v L) x := by
  refine gwp_seq h.read fun active y h => ?_
  cases active with
  | true => exact h
  | false =>
    refine gwp_seq h.read fun dev y h => ?_
    refine gwp_seq h.read fun inum y h => ?_
    refine gwp_seq h.read fun blk y h => ?_
    refine gwp_seq (h.bread dev blk hone) fun bp y hy => ?_
    obtain ⟨hb, h⟩ := hy
    refine gwp_seq (h.inodeData ip) fun d y h => ?_
    refine gwp_seq h.read fun data y h => ?_
    refine gwp_seq (h.update fun t => setPage _ _ _) fun _ y h => ?_
    refine gwp_seq (h.logWrite bp) fun _ y h => ?_
    exact h.brelseTop hb

/-- `ilock` above all inodes that are locked already. -/
theorem ilock (ip : InodePtr) {a : Option Header} (hlow : ∀ h ∈ L, ∃ ip' < ip, h = .inode ip')
    (h : HeldInv p v L a (bufs L) x) :
    heldWp p (Txv6.ilock p ip) (fun _ y => .inode ip ∉ L ∧ OpInv p v (insert (.inode ip) L) y) x := by
  have hno : NoBuf L := by
    intro b hb
    obtain ⟨ip', _, e⟩ := hlow _ hb
    cases e
  refine gwp_seq (h.kassertAsk (some (.inode ip))) fun _ y hy => ?_
  refine gwp_seq (hy.2.acquiresleep hlow) fun _ y hy => ?_
  obtain ⟨hnew, h⟩ := hy
  rw [← bufs_insert_inode L ip] at h
  refine gwp_seq h.read fun valid y h => ?_
  refine gwp_mono (fun _ _ h => ⟨hnew, h⟩) (fun _ _ h => h) (h.when ?_)
  refine gwp_seq h.read fun dev y h => ?_
  refine gwp_seq h.read fun inum y h => ?_
  refine gwp_seq h.read fun blk y h => ?_
  refine gwp_seq (h.bread dev blk (hno.insert_inode ip).one) fun bp y hy => ?_
  obtain ⟨hb, h⟩ := hy
  refine gwp_seq (h.inodeData ip) fun d y h => ?_
  refine gwp_seq h.read fun bytes y h => ?_
  refine gwp_seq (h.setIfield d _) fun _ y h => ?_
  refine gwp_seq (h.brelseTop hb) fun _ y h => ?_
  refine gwp_seq (h.update fun t => TameStep.setInode rfl) fun _ y h => ?_
  exact gwp_mono (fun _ _ h => h.2) (fun _ _ h => h) h.kassert

theorem iunlock {F : Finset BufPtr} (ip : InodePtr) (h : HeldInv p v L none F x) :
    heldWp p (Txv6.iunlock p ip) (fun _ => HeldInv p v (L.erase (.inode ip)) none F) x := by
  refine gwp_seq h.kassert fun _ y hy => ?_
  have hc : y.1.holdingsleep p (.inode ip) = true := by
    have := hy.1
    simp only [Bool.and_eq_true] at this
    exact this.1
  exact hy.2.releasesleep ((hy.2.holds _).mp hc)

/-- Where no transaction is active, `tx_abort_now` panics. -/
theorem txAbortNow {α : Type} {Q : α → Kernel × Held → Prop} {r : Transaction} (c : Site)
    (hr : r.status ≠ .active) (h : OpInv p (some r) L x) : heldWp p (Txv6.txAbortNow p c) Q x := by
  refine gwp_seq h.kassert fun _ y hy => ?_
  have hact := txActive_iff_status.mp hy.1
  rw [hy.2.known r rfl] at hact
  exact absurd hact hr

theorem txdata (ip : InodePtr) (ro : Bool) (hip : .inode ip ∈ L) (h : OpInv p none L x) :
    heldWp p (Txv6.txdata p (.inode ip) ro) (fun o y => OpInv p none L y ∧
      (o = none → ∃ r : Transaction, r.status ≠ .active ∧ OpInv p (some r) L y)) x := by
  refine h.atomOrPanic fun t o ht hun ho => ?_
  -- outside of a transaction the answer is `ip->data`
  have hout : (t.txOf p).status ≠ .active → OwnStep p t t ∧
      (∀ r : Transaction, none = some r → t.txOf p = t.txOf p) ∧
      ∀ y, y.1 = t → OpInv p none L y → OpInv p none L y ∧
        (o = none → ∃ r : Transaction, r.status ≠ .active ∧ OpInv p (some r) L y) := by
    intro hst
    refine ⟨(refl p t).toOwnStep, fun _ _ => rfl, fun y hy h => ⟨h, fun _ => ?_⟩⟩
    exact ⟨_, hy ▸ hst, h.know⟩
  unfold Kernel.txdata at ho ⊢
  cases ha : (t.proc p).tx with
  | none =>
    have hst : (t.txOf p).status ≠ .active := by
      unfold Kernel.txOf
      rw [ha]
      exact TxStatus.noConfusion
    exact hout hst
  | some a =>
    rw [ha] at ho
    dsimp only at ho ⊢
    split at ho
    next hact =>
      rw [if_pos hact]
      have hsort : WsSorted (t.tx a).workset := txOf_eq ha ▸ ht.sorted
      refine ⟨OwnStep.txshadow ha _ ro hsort ho, fun _ hv => (nomatch hv),
        fun y _ hy => ⟨hy, fun hnone => ?_⟩⟩
      subst hnone
      have hheld : t.holdingsleep p (.inode ip) = true := (ht.holds _).mpr hip
      have hres := txshadow_result t a (.inode ip) ro
      generalize t.txshadow a (.inode ip) ro = res at hres ho
      cases hres with
      | found => cases ho
      | refused hfresh hwhy =>
        exfalso
        rcases hun p a ip ha hact hheld with hin | hmay
        · exact (findWorksetEntry_eq_none hsort).mp hfresh hin
        · rcases hwhy with hfull | ⟨hw, hw'⟩
          · exact absurd hmay.room (by omega)
          · exact hmay.owner.elim hw hw'
      | granted => cases ho
      | noMemory => cases ho
      | fault => cases ho
    next hact =>
      rw [if_neg hact]
      exact hout (by rwa [txOf_eq ha])

theorem idata (c : Site) (ip : InodePtr) (hip : .inode ip ∈ L) (h : OpInv p none L x) :
    heldWp p (Txv6.idata c p ip) (fun _ => OpInv p none L) x := by
  refine gwp_seq (h.txdata ip false hip) fun o y hy => ?_
  cases o with
  | some d => exact hy.1
  | none =>
    obtain ⟨r, hr, h⟩ := hy.2 rfl
    refine gwp_seq (h.iunlock ip) fun _ y h => ?_
    rw [← bufs_erase_inode L ip] at h
    exact h.txAbortNow c hr

/-! ## Contents -/

theorem eitherCopyout (dst : Dst) (tot : Nat) (bs : List UChar) (h : OpInv p v L x) :
    heldWp p (Txv6.eitherCopyout p dst tot bs) (fun _ => OpInv p v L) x := by
  cases dst with
  | user va =>
    refine h.atom fun t => ?_
    dsimp only
    exact setProc rfl rfl rfl
  | kernel => exact h

theorem eitherCopyin (d : Page) (o : Nat) (src : Src) (tot m : Nat) (h : OpInv p v L x) :
    heldWp p (Txv6.eitherCopyin p d o src tot m) (fun _ => OpInv p v L) x := by
  cases src with
  | user va =>
    refine gwp_seq h.read fun r y h => ?_
    exact gwp_seq (h.setBfield d _) fun _ y h => h
  | kernel bs => exact gwp_seq (h.setBfield d _) fun _ y h => h

section
variable (h : OpInv p none L x)
include h

theorem itruncDirect (dev : Nat) (d : Page) (active : Bool) (hone : OneBuf L)
    (slots : List (Fin (ndirect + 1))) :
    heldWp p (Txv6.itruncDirect p dev d active slots) (fun _ => OpInv p none L) x := by
  induction slots generalizing x with
  | nil => exact h
  | cons i rest ih =>
    refine gwp_seq h.read fun a y h => ?_
    refine gwp_seq (h.when ?_) fun _ y h => ih h
    refine gwp_seq (h.when (h.bfree dev a.toNat hone)) fun _ y h => ?_
    exact h.setIfield d _

theorem itruncIndirect (dev : Nat) (a : Page) (hone : OneBuf L) (l : List Nat) :
    heldWp p (Txv6.itruncIndirect p dev a l) (fun _ => OpInv p none L) x := by
  induction l generalizing x with
  | nil => exact h
  | cons j rest ih =>
    refine gwp_seq h.read fun b y h => ?_
    exact gwp_seq (h.when (h.bfree dev b.toNat hone)) fun _ y h => ih h

theorem itrunc (ip : InodePtr) (hip : .inode ip ∈ L) (hno : NoBuf L) :
    heldWp p (Txv6.itrunc p ip) (fun _ => OpInv p none L) x := by
  refine gwp_seq (h.idata .itrunc ip hip) fun d y h => ?_
  refine gwp_seq h.read fun active y h => ?_
  refine gwp_seq h.read fun dev y h => ?_
  refine gwp_seq (h.itruncDirect dev d active hno.one _) fun _ y h => ?_
  refine gwp_seq h.read fun ind y h => ?_
  refine gwp_seq (h.when ?_) fun _ y h => ?_
  · refine gwp_seq (h.when ?_) fun _ y h => h.setIfield d _
    refine gwp_seq (h.bread dev ind.toNat hno.one) fun bp y hy => ?_
    obtain ⟨hb, h⟩ := hy
    refine gwp_seq (h.bdata bp) fun a y h => ?_
    refine gwp_seq (h.itruncIndirect dev a (hno.insert_buf bp) _) fun _ y h => ?_
    refine gwp_seq (h.brelseTop hb) fun _ y h => ?_
    exact h.bfree dev ind.toNat hno.one
  · refine gwp_seq (h.setIfield d _) fun _ y h => ?_
    exact h.iupdate ip hno.one

theorem bmapSlot (dev : Nat) (d : Page) (slot : Fin (ndirect + 1)) (hone : OneBuf L) :
    heldWp p (Txv6.bmapSlot p dev d slot) (fun _ => OpInv p none L) x := by
  refine gwp_seq h.read fun addr y h => ?_
  split
  · exact h
  · refine gwp_seq (h.balloc dev hone) fun addr y h => ?_
    split
    · exact h
    · exact gwp_seq (h.setIfield d _) fun _ y h => h

theorem bmapEntry (dev : Nat) (bp : BufPtr) (a : Page) (bn : Nat) (hone : OneBuf L) :
    heldWp p (Txv6.bmapEntry p dev bp a bn) (fun _ => OpInv p none L) x := by
  refine gwp_seq h.read fun addr y h => ?_
  split
  · exact h
  · refine gwp_seq (h.balloc dev hone) fun addr y h => ?_
    split
    · exact h
    · refine gwp_seq (h.setBfield a _) fun _ y h => ?_
      exact gwp_seq (h.logWrite bp) fun _ y h => h

theorem bmap (ip : InodePtr) (bn : Nat) (hip : .inode ip ∈ L) (hno : NoBuf L) :
    heldWp p (Txv6.bmap p ip bn) (fun _ => OpInv p none L) x := by
  refine gwp_seq (h.idata .bmap ip hip) fun d y h => ?_
  refine gwp_seq h.read fun dev y h => ?_
  split
  · exact h.bmapSlot dev d _ hno.one
  split
  · refine gwp_seq (h.bmapSlot dev d _ hno.one) fun ind y h => ?_
    split
    · exact h
    · refine gwp_seq (h.bread dev ind hno.one) fun bp y hy => ?_
      obtain ⟨hb, h⟩ := hy
      refine gwp_seq (h.bdata bp) fun a y h => ?_
      refine gwp_seq (h.bmapEntry dev bp a _ (hno.insert_buf bp)) fun addr y h => ?_
      exact gwp_seq (h.brelseTop hb) fun _ y h => h
  · exact ⟨_, rfl⟩

theorem readiLoop (ip : InodePtr) (dst : Dst) (n fuel tot off : Nat) (acc : List UChar)
    (hip : .inode ip ∈ L) (hno : NoBuf L) :
    heldWp p (Txv6.readiLoop p ip dst n fuel tot off acc) (fun _ => OpInv p none L) x := by
  induction fuel generalizing tot off acc x with
  | zero => exact h
  | succ fuel ih =>
    unfold Txv6.readiLoop
    split
    · refine gwp_seq (h.bmap ip _ hip hno) fun addr y h => ?_
      split
      · exact h
      · refine gwp_seq h.read fun dev y h => ?_
        refine gwp_seq (h.bread dev addr hno.one) fun bp y hy => ?_
        obtain ⟨hb, h⟩ := hy
        refine gwp_seq (h.bdata bp) fun d y h => ?_
        refine gwp_seq h.read fun bs y h => ?_
        refine gwp_seq (h.eitherCopyout dst tot bs) fun ok y h => ?_
        split
        · exact gwp_seq (h.brelseTop hb) fun _ y h => ih h _ _ _
        · exact gwp_seq (h.brelseTop hb) fun _ y h => h
    · exact h

theorem readi (ip : InodePtr) (dst : Dst) (off n : Nat) (hip : .inode ip ∈ L) (hno : NoBuf L) :
    heldWp p (Txv6.readi p ip dst off n) (fun _ => OpInv p none L) x := by
  refine gwp_seq (h.idata .readi ip hip) fun d y h => ?_
  refine gwp_seq h.read fun size y h => ?_
  dsimp only
  split
  · exact h
  · exact h.readiLoop ip dst _ _ _ _ _ hip hno

theorem writeiLoop (ip : InodePtr) (src : Src) (n fuel tot off : Nat) (hip : .inode ip ∈ L)
    (hno : NoBuf L) :
    heldWp p (Txv6.writeiLoop p ip src n fuel tot off) (fun _ => OpInv p none L) x := by
  induction fuel generalizing tot off x with
  | zero => exact h
  | succ fuel ih =>
    unfold Txv6.writeiLoop
    split
    · refine gwp_seq (h.bmap ip _ hip hno) fun addr y h => ?_
      split
      · exact h
      · refine gwp_seq h.read fun dev y h => ?_
        refine gwp_seq (h.bread dev addr hno.one) fun bp y hy => ?_
        obtain ⟨hb, h⟩ := hy
        refine gwp_seq (h.bdata bp) fun d y h => ?_
        refine gwp_seq (h.eitherCopyin d _ src tot _) fun ok y h => ?_
        split
        · refine gwp_seq (h.logWrite bp) fun _ y h => ?_
          exact gwp_seq (h.brelseTop hb) fun _ y h => ih h _ _
        · exact gwp_seq (h.brelseTop hb) fun _ y h => h
    · exact h

theorem writei (ip : InodePtr) (src : Src) (off n : Nat) (hip : .inode ip ∈ L) (hno : NoBuf L) :
    heldWp p (Txv6.writei p ip src off n) (fun _ => OpInv p none L) x := by
  refine gwp_seq (h.idata .writei ip hip) fun d y h => ?_
  refine gwp_seq h.read fun size y h => ?_
  dsimp only
  split
  · exact h
  split
  · exact h
  refine gwp_seq (h.writeiLoop ip src _ _ _ _ hip hno) fun r y h => ?_
  refine gwp_seq h.read fun size y h => ?_
  refine gwp_seq (h.when (h.setIfield d _)) fun _ y h => ?_
  exact gwp_seq (h.iupdate ip hno.one) fun _ y h => h

theorem dirlookupLoop (dp : InodePtr) (d : Page) (name : Name) (fuel off : Nat)
    (hdp : .inode dp ∈ L) (hno : NoBuf L) :
    heldWp p (Txv6.dirlookupLoop p dp d name fuel off) (fun _ => OpInv p none L) x := by
  induction fuel generalizing off x with
  | zero => exact h
  | succ fuel ih =>
    unfold Txv6.dirlookupLoop
    refine gwp_seq h.read fun size y h => ?_
    split
    · refine gwp_seq (h.readi dp .kernel off direntSize hdp hno) fun r y h => ?_
      split
      · exact ⟨_, rfl⟩
      dsimp only
      split
      · exact ih h _
      split
      · refine gwp_seq h.read fun dev y h => ?_
        refine gwp_seq (M := fun _ => OpInv p none L) (h.atomOrPanic ?_) fun ip y h => h
        intro t r _ _ _
        exact ⟨(TameStep.iget t _ _).toOwnStep, fun _ hv => (by cases hv), fun _ _ hy => hy⟩
      · exact ih h _
    · exact h

theorem dirlookup (dp : InodePtr) (name : Name) (hdp : .inode dp ∈ L) (hno : NoBuf L) :
    heldWp p (Txv6.dirlookup p dp name) (fun _ => OpInv p none L) x := by
  refine gwp_seq (h.idata .dirlookup dp hdp) fun d y h => ?_
  refine gwp_seq h.kassert fun _ y hy => ?_
  exact hy.2.dirlookupLoop dp d name _ _ hdp hno
end

end HeldInv
end Txv6
