import Txv6.Logic.Calls
import Txv6.Frame
import Txv6.Image
import Mathlib.Data.Multiset.Filter

/-! # Locks of a call that runs in a transaction

The sleep locks that a process with an active transaction holds, at every point of a
file system call and among any other processes, are the ones the code has taken and not
given back. The other processes are what `Rely` says: they leave this process's
identity and transaction alone and neither release its locks nor take any in its name;
the steps of a process that runs in a transaction are such steps for all others (`Guar`).
-/
namespace Txv6
open Lib Lib.Prog Function
open Quiet (refl rest setBuf setInode setPage setProc)
open Kernel (holdingsleep lock setTx txOf)

variable {b : BufPtr} {x : Header} {o : Option Page} {a : Page} {r' : Res} {α : Type} {Q : α → Kernel → Prop}

/-- What the processes other than `p` may do. -/
structure Rely (p : ProcPtr) (s t : Kernel) : Prop where
  pid : (t.proc p).pid = (s.proc p).pid
  txPtr : (t.proc p).tx = (s.proc p).tx
  tx : ∀ a, (s.proc p).tx = some a → t.tx a = s.tx a
  holding : ∀ h, t.holdingsleep p h = s.holdingsleep p h

/-- What a process that runs in a transaction does, for every other process. -/
def Guar (p : ProcPtr) (s t : Kernel) : Prop :=
  ∀ q, (s.proc q).pid ≠ (s.proc p).pid →
    (∀ a, (s.proc q).tx = some a → (s.proc p).tx ≠ some a) → Rely q s t

/-- Process `p` has an active transaction and holds the locks `r.locks`. -/
structure LockInv (p : ProcPtr) (r : Res) (s : Kernel) : Prop where
  active : s.txActive p = true
  undo : (s.txOf p).undo = []
  sorted : WsSorted (s.txOf p).workset
  granted : ∀ ip ∈ r.granted, InWorkset (s.txOf p).workset (.inode ip)
  nodup : r.locks.Nodup
  holds : ∀ h, s.holdingsleep p h = true ↔ h ∈ r.locks

theorem Quiet.rely {s t : Kernel} (h : Quiet s t) (p : ProcPtr) : Rely p s t where
  pid := h.pid p
  txPtr := h.txPtr p
  tx _ _ := by rw [h.tx]
  holding x := by simp only [holdingsleep, h.lock, h.pid]

/-- The judgement of this file. -/
abbrev lockWp (p : ProcPtr) {α : Type} (m : K α) (Q : α → Kernel → Prop) (E : Err → Kernel → Prop)
    (s : Kernel) : Prop := wp (Rely p) (Guar p) m Q E s

namespace LockInv
variable {p : ProcPtr} {r : Res} {s t : Kernel} {E : Err → Kernel → Prop}

theorem stable (h : LockInv p r s) (hR : Rely p s t) : LockInv p r t := by
  obtain ⟨a, ha, hact⟩ := txActive_iff.mp h.active
  have ha' : (t.proc p).tx = some a := by rw [hR.txPtr, ha]
  have htx : t.txOf p = s.txOf p := by rw [txOf_eq ha, txOf_eq ha', hR.tx a ha]
  exact {
    active := txActive_iff.mpr ⟨a, ha', by rw [hR.tx a ha, hact]⟩
    undo := by rw [htx, h.undo]
    sorted := by rw [htx]; exact h.sorted
    granted := by rw [htx]; exact h.granted
    nodup := h.nodup
    holds := fun x => by rw [hR.holding x]; exact h.holds x }

theorem weaken (hle : r.Le r') (h : LockInv p r' s) : LockInv p r s :=
  { h with
    granted := fun ip hip => h.granted ip (hle.granted hip)
    nodup := hle.locks ▸ h.nodup
    holds := fun x => hle.locks ▸ h.holds x }

section
variable (h : LockInv p r s)
include h

theorem quiet (hq : Quiet s t) : Guar p s t ∧ LockInv p r t :=
  ⟨fun q _ _ => hq.rely q, h.stable (hq.rely p)⟩

/-- References and pages play no part. -/
theorem congr (hl : r'.locks = r.locks) (hg : r'.granted = r.granted) : LockInv p r' s :=
  { h with
    granted := hg ▸ h.granted
    nodup := hl ▸ h.nodup
    holds := fun x => hl ▸ h.holds x }

/-! ## Steps -/

theorem update {f : Kernel → Kernel} (hf : ∀ t, Quiet t (f t)) :
    lockWp p (.update f) (fun _ => LockInv p r) E s :=
  wp_update fun t hR => (h.stable hR).quiet (hf t)

theorem read {f : Kernel → α} :
    lockWp p (.read f) (fun _ => LockInv p r) E s :=
  wp_read fun t hR => (h.stable hR).quiet (refl t)

theorem atom {f : Kernel → α × Kernel} (hf : ∀ t, Quiet t (f t).2) :
    lockWp p (.atom f) (fun _ => LockInv p r) E s :=
  wp_atom fun t hR => (h.stable hR).quiet (hf t)

theorem atomOrPanic {f : Kernel → Except String α × Kernel} (hE : ErrOk True (fun _ => True) E)
    (hf : ∀ t, Quiet t (f t).2) :
    lockWp p (atomOrPanic f) (fun _ => LockInv p r) E s :=
  wp_atomOrPanic (fun m s => hE.panic m s trivial) fun t hR _ _ => (h.stable hR).quiet (hf t)

theorem kassert {c : Kernel → Bool} {m : String} (hE : ErrOk True (fun _ => True) E) :
    lockWp p (kassert c m)
      (fun _ t => c t = true ∧ LockInv p r t) E s :=
  wp_check fun t hR => by
    have h := (h.stable hR).quiet (refl t)
    exact ⟨h.1, fun hc => ⟨hc, h.2⟩, fun _ => hE.panic _ _ trivial⟩

theorem when {c : Bool} {k : K Unit}
    (hk : lockWp p k (fun _ => LockInv p r) E s) :
    lockWp p (Prog.when c k) (fun _ => LockInv p r) E s :=
  wp_when (fun _ => hk) fun _ => h

/-- The test for an active transaction succeeds. -/
theorem ifActive {f : Bool → K α}
    (hf : ∀ t, LockInv p r t → lockWp p (f true) Q E t) :
    lockWp p (txActive p >>= f) Q E s := by
  refine wp_seq (M := fun b t => b = true ∧ LockInv p r t) (wp_read fun t hR => ?_) ?_
  · have h := (h.stable hR).quiet (refl t)
    exact ⟨h.1, h.2.active, h.2⟩
  · rintro _ t ⟨rfl, h⟩
    exact hf t h

theorem acquiresleep :
    lockWp p (acquiresleep p x) (fun _ => LockInv p (r.lock x)) E s := by
  refine wp_await fun t hR hfree => ?_
  have h := h.stable hR
  have hfree : (t.lock x).locked = false := by simpa using hfree
  have hnot : x ∉ r.locks := fun hx => by
    have := (h.holds x).mpr hx
    simp [holdingsleep, hfree] at this
  refine ⟨fun q hpid _ => ⟨by simp, by simp, by simp, fun y => ?_⟩, ?_⟩
  · by_cases e : y = x
    · subst e
      simp [holdingsleep, lock_setLock, hfree, Ne.symm hpid]
    · simp [holdingsleep, lock_setLock, e]
  · refine ⟨by simpa [Kernel.txActive] using h.active, by simpa [txOf] using h.undo,
      by simpa [txOf] using h.sorted, by simpa [txOf] using h.granted,
      Multiset.nodup_cons.mpr ⟨hnot, h.nodup⟩, fun y => ?_⟩
    by_cases e : y = x
    · subst e
      simp [holdingsleep, lock_setLock]
    · simpa [holdingsleep, lock_setLock, e] using h.holds y

theorem releasesleep (hx : x ∈ r.locks) :
    lockWp p (releasesleep x) (fun _ => LockInv p (r.unlock x)) E s := by
  refine wp_update fun t hR => ?_
  have h := h.stable hR
  have hheld : (t.lock x).locked = true ∧ (t.lock x).pid = (t.proc p).pid := by
    simpa [holdingsleep] using (h.holds x).mpr hx
  refine ⟨fun q hpid _ => ⟨by simp, by simp, by simp, fun y => ?_⟩, ?_⟩
  · by_cases e : y = x
    · subst e
      simp [holdingsleep, lock_setLock, hheld, Ne.symm hpid]
    · simp [holdingsleep, lock_setLock, e]
  · refine ⟨by simpa [Kernel.txActive] using h.active, by simpa [txOf] using h.undo,
      by simpa [txOf] using h.sorted, by simpa [txOf] using h.granted,
      h.nodup.erase x, fun y => ?_⟩
    have hmem : y ∈ (r.unlock x).locks ↔ y ≠ x ∧ y ∈ r.locks := Multiset.Nodup.mem_erase_iff h.nodup
    rw [hmem]
    by_cases e : y = x
    · subst e
      simp [holdingsleep, lock_setLock]
    · simpa [holdingsleep, lock_setLock, e] using h.holds y
end

/-! ## Steps on the own transaction -/

section
variable (h : LockInv p r s) (ha : (s.proc p).tx = some a)
include h ha

theorem ownTx {tr : Transaction} (hproc : t.proc = s.proc)
    (hlock : ∀ x, t.lock x = s.lock x) (htx : t.tx = Function.update s.tx a tr) (hst : tr.status = .active)
    (hu : tr.undo = []) (hs : WsSorted tr.workset)
    (hw : ∀ x, InWorkset (s.tx a).workset x → InWorkset tr.workset x) : Guar p s t ∧ LockInv p r t := by
  have ha' : (t.proc p).tx = some a := by rw [hproc, ha]
  have htr : t.txOf p = tr := by rw [txOf_eq ha', htx, update_self]
  refine ⟨fun q _ hne => ?_, ?_⟩
  · refine ⟨by rw [hproc], by rw [hproc], fun b hb => ?_, fun x => ?_⟩
    · have : b ≠ a := by
        rintro rfl
        exact hne b hb ha
      rw [htx, update_of_ne this]
    · simp only [holdingsleep, hlock, hproc]
  · refine ⟨txActive_iff.mpr ⟨a, ha', by rw [htx, update_self, hst]⟩, by rw [htr, hu],
      by rw [htr]; exact hs, fun ip hip => ?_, h.nodup, fun x => ?_⟩
    · rw [htr]
      exact hw _ (txOf_eq ha ▸ h.granted ip hip)
    · simpa only [holdingsleep, hlock, hproc] using h.holds x

theorem grantShadow (hm : s.MayGrant a x) (ro : Bool) (pg src : Page) (rest : List Page) :
    Guar p s (s.grantShadow a x ro pg src rest) ∧ LockInv p r (s.grantShadow a x ro pg src rest) ∧
      InWorkset ((s.grantShadow a x ro pg src rest).txOf p).workset x := by
  have hsort : WsSorted (s.tx a).workset := txOf_eq ha ▸ h.sorted
  have hfresh := (findWorksetEntry_eq_none hsort).mp hm.fresh
  have hact : (s.tx a).status = .active := by
    obtain ⟨b, hb, hact⟩ := txActive_iff.mp h.active
    rw [ha] at hb
    cases hb
    exact hact
  have hproc : (s.grantShadow a x ro pg src rest).proc = s.proc := setWriter_proc s _ x
  have htx : (s.grantShadow a x ro pg src rest).tx = Function.update s.tx a
      { s.tx a with workset := insertEntry (s.tx a).workset ⟨x, pg, ro, false⟩ } := by
    simp [Kernel.grantShadow, setTx, Kernel.setPage]
  have key := h.ownTx ha hproc (setWriter_lock s _ x) htx hact (txOf_eq ha ▸ h.undo)
    (insertEntry_sorted hsort hfresh) (fun y hy => inWorkset_insertEntry.mpr (.inr hy))
  refine ⟨key.1, key.2, ?_⟩
  rw [txOf_eq (by rw [hproc, ha]), htx, update_self]
  exact inWorkset_insertEntry.mpr (.inl rfl)

/-- `txshadow` in the own transaction: an object that is returned is in the workset, one
that is in the workset is returned. -/
theorem txshadow (x : Header)
    (ro : Bool) (ho : (s.txshadow a x ro).1 = .ok o) :
    Guar p s (s.txshadow a x ro).2 ∧ LockInv p r (s.txshadow a x ro).2 ∧
      (o = none → ∀ ip ∈ r.granted, x ≠ .inode ip) ∧
      (o ≠ none → InWorkset ((s.txshadow a x ro).2.txOf p).workset x) := by
  have hsort : WsSorted (s.tx a).workset := txOf_eq ha ▸ h.sorted
  have hq := h.quiet (refl s)
  have hres := txshadow_result s a x ro
  generalize s.txshadow a x ro = res at hres ho ⊢
  cases hres with
  | found he hx =>
    cases ho
    refine ⟨hq.1, hq.2, fun hn => (nomatch hn), fun _ => ?_⟩
    rw [txOf_eq ha]
    exact ⟨_, he, hx⟩
  | refused hn _ =>
    cases ho
    refine ⟨hq.1, hq.2, fun _ ip hip hx => ?_, fun hn => absurd rfl hn⟩
    subst hx
    exact (findWorksetEntry_eq_none hsort).mp hn (txOf_eq ha ▸ h.granted ip hip)
  | @granted pg rest src hm _ _ =>
    cases ho
    have hg := h.grantShadow ha hm ro pg src rest
    exact ⟨hg.1, hg.2.1, fun hn => (nomatch hn), fun _ => hg.2.2⟩
  | noMemory _ _ => cases ho
  | fault hm _ _ => cases ho
end

theorem markNew (h : LockInv p r s) :
    lockWp p (.update fun s => s.markNew p b) (fun _ => LockInv p r) E s := by
  refine wp_update fun t hR => ?_
  have h := h.stable hR
  obtain ⟨a, ha, hact⟩ := txActive_iff.mp h.active
  unfold Kernel.markNew
  rw [ha]
  dsimp only
  split
  · exact h.quiet (refl t)
  next i _ =>
    have hsort : WsSorted (t.tx a).workset := txOf_eq ha ▸ h.sorted
    exact h.ownTx ha rfl (fun _ => rfl) rfl hact (txOf_eq ha ▸ h.undo) (wsSorted_mark.mpr hsort) fun x hx =>
      inWorkset_mark.mpr hx

theorem logWrite (b : BufPtr) (h : LockInv p r s) :
    lockWp p (logWrite p b) (fun _ => LockInv p r) E s :=
  h.ifActive fun _ h => h

section
variable (dev n : Nat) (bp : BufPtr) (ip : InodePtr) (hE : ErrOk True (fun _ => True) E) (h : LockInv p r s)
include hE h

theorem txdata {ro : Bool} :
    lockWp p (txdata p x ro) (fun o t => LockInv p r t ∧
      (o = none → ∀ ip ∈ r.granted, x ≠ .inode ip) ∧
      (o ≠ none → InWorkset (t.txOf p).workset x)) E s := by
  refine wp_atomOrPanic (fun m s => hE.panic m s trivial) fun t hR o ho => ?_
  have h := h.stable hR
  obtain ⟨a, ha, hact⟩ := txActive_iff.mp h.active
  rw [txdata_eq ha hact] at ho ⊢
  exact h.txshadow ha x ro ho

theorem bdataShadow :
    lockWp p (Txv6.atomOrPanic fun s => s.bdataShadow p b)
      (fun _ => LockInv p r) E s := by
  refine wp_atomOrPanic (fun m s => hE.panic m s trivial) fun t hR x hx => ?_
  have h := h.stable hR
  obtain ⟨a, ha, hact⟩ := txActive_iff.mp h.active
  have key := fun o => h.txshadow (o := o) ha (.buf b) false
  unfold Kernel.bdataShadow at hx ⊢
  rw [ha] at hx ⊢
  simp only [hact, if_true] at hx ⊢
  generalize t.txshadow a (.buf b) false = res at key hx ⊢
  obtain ⟨o, u⟩ := res
  cases o with
  | error m => cases hx
  | ok o =>
    cases o with
    | none => cases hx
    | some pg => exact ⟨(key _ rfl).1, (key _ rfl).2.1⟩

theorem bdata :
    lockWp p (bdata p b) (fun d => LockInv p (r.bpage d)) E s := by
  refine wp_seq (h.bdataShadow hE) fun x s h => ?_
  refine wp_seq (h.when ?_) fun _ s h => h.congr rfl rfl
  refine wp_seq (h.update fun t => ?_) fun _ s h => h.markNew
  exact setBuf rfl

/-! ## Buffers -/

theorem bget :
    lockWp p (bget p dev n) (fun b => LockInv p (r.lock (.buf b))) E s := by
  refine wp_seq (h.atom fun t => Quiet.bget t dev n) fun o s h => ?_
  cases o with
  | none => exact hE.panic _ _ trivial
  | some b => exact wp_seq h.acquiresleep fun _ _ h => h

theorem bread :
    lockWp p (bread p dev n) (fun b => LockInv p (r.lock (.buf b))) E s := by
  refine wp_seq (h.bget dev n hE) fun b s h => ?_
  refine wp_seq h.read fun valid s h => ?_
  refine wp_seq (h.when ?_) fun _ _ h => h
  refine wp_seq (h.update fun t => setPage _ _ _) fun _ s h => ?_
  exact h.update fun t => setBuf rfl

theorem brelse :
    lockWp p (brelse p bp) (fun _ => LockInv p (r.unlock (.buf bp))) E s := by
  refine wp_seq (h.kassert hE) fun _ s hs => ?_
  have hb : Header.buf bp ∈ r.locks := (hs.2.holds _).mp hs.1
  refine wp_seq (hs.2.releasesleep hb) fun _ s h => ?_
  exact h.update fun t => Quiet.brelse t bp

theorem bfree :
    lockWp p (bfree p dev n) (fun _ => LockInv p r) E s := by
  refine wp_seq h.read fun blk s h => ?_
  refine wp_seq (h.bread dev blk hE) fun bp s h => ?_
  refine wp_seq (h.bdata hE) fun d s h => ?_
  refine wp_seq (h.kassert hE) fun _ s h => ?_
  refine wp_seq (h.2.bdata hE) fun d s h => ?_
  refine wp_seq (h.update fun t => setPage _ _ _) fun _ s h => ?_
  refine wp_seq (h.logWrite bp) fun _ s h => ?_
  exact wp_mono (fun _ _ h => h.congr (by simp [Res.unlock]) rfl) (fun _ _ => id) (h.brelse bp hE)

/-! ## Inodes -/

theorem iget :
    lockWp p (iget dev n) (fun _ => LockInv p r) E s :=
  h.atomOrPanic hE fun t => Quiet.iget t dev n

theorem inodeData :
    lockWp p (inodeData ip) (fun _ => LockInv p r) E s := by
  refine wp_seq h.read fun o s h => ?_
  cases o with
  | none => exact hE.panic _ _ trivial
  | some d => exact h

theorem ilock :
    lockWp p (ilock p ip) (fun _ => LockInv p (r.lock (.inode ip))) E s := by
  refine wp_seq (h.kassert hE) fun _ s h => ?_
  refine wp_seq h.2.acquiresleep fun _ s h => ?_
  refine wp_seq h.read fun valid s h => ?_
  refine h.when ?_
  refine wp_seq h.read fun dev s h => ?_
  refine wp_seq h.read fun inum s h => ?_
  refine wp_seq h.read fun blk s h => ?_
  refine wp_seq (h.bread dev blk hE) fun bp s h => ?_
  refine wp_seq (h.inodeData ip hE) fun d s h => ?_
  refine wp_seq h.read fun bytes s h => ?_
  refine wp_seq (h.update fun t => setPage _ _ _) fun _ s h => ?_
  refine wp_seq (h.brelse bp hE) fun _ s h => ?_
  refine wp_seq (h.update fun t => setInode rfl) fun _ s h => ?_
  refine wp_mono (fun _ _ h => ?_) (fun _ _ => id) (h.kassert hE)
  simpa using h.2

theorem iunlock :
    lockWp p (iunlock p ip) (fun _ => LockInv p (r.unlock (.inode ip))) E s := by
  refine wp_seq (h.kassert hE) fun _ s hs => ?_
  have hc : s.holdingsleep p (.inode ip) = true := by
    have := hs.1
    simp only [Bool.and_eq_true] at this
    exact this.1
  exact hs.2.releasesleep ((hs.2.holds _).mp hc)
end

section
variable (h : LockInv p r s)
include h

theorem idup (ip : InodePtr) :
    lockWp p (idup ip) (fun q t => q = ip ∧ LockInv p (r.ref ip) t) E s := by
  refine wp_atom fun t hR => ?_
  have hq : Quiet t (t.setInode ip fun x => { x with ref := x.ref + 1 }) := setInode rfl
  have h := (h.stable hR).quiet hq
  exact ⟨h.1, rfl, h.2.congr rfl rfl⟩

theorem iallocLoop (dev : Nat) (type : Short) (ninodes : Nat) (hE : ErrOk True (fun _ => True) E)
    (fuel inum : Nat) :
    lockWp p (iallocLoop p dev type ninodes fuel inum)
      (fun _ => LockInv p r) E s := by
  induction fuel generalizing inum s with
  | zero => exact h
  | succ fuel ih =>
    unfold Txv6.iallocLoop
    split
    · refine wp_seq h.read fun blk s h => ?_
      refine wp_seq (h.bread dev blk hE) fun bp s h => ?_
      refine wp_seq h.read fun dip s h => ?_
      split
      · refine wp_seq (h.update fun t => rest _ _ _ _ _ _ _) fun _ s h => ?_
        refine wp_seq (h.logWrite bp) fun _ s h => ?_
        refine wp_seq (h.brelse bp hE) fun _ s h => ?_
        refine wp_seq (h.iget dev inum hE) fun ip s h => ?_
        exact h.congr (by simp [Res.unlock]) rfl
      · refine wp_seq (h.brelse bp hE) fun _ s h => ?_
        exact ih (h.congr (by simp [Res.unlock]) rfl) _
    · exact h

theorem iputWith {k : K Page} (ip : InodePtr) :
    lockWp p (iputWith k p ip) (fun _ => LockInv p r) E s :=
  h.ifActive fun _ h => wp_seq (h.update fun _ => rest _ _ _ _ _ _ _) fun _ _ h => h

theorem iupdate (ip : InodePtr) :
    lockWp p (iupdate p ip) (fun _ => LockInv p r) E s := h.ifActive fun _ h => h

theorem beginOp :
    lockWp p (beginOp p) (fun _ => LockInv p r) E s := h.ifActive fun _ h => h

theorem endOp :
    lockWp p (endOp p) (fun _ => LockInv p r) E s := h.ifActive fun _ h => h

/-! ## Conflict aborts -/

theorem abortFn (e : WorksetEntry) (hE : ErrOk True (fun _ => True) E) :
    lockWp p (abortFn p e) (fun _ => LockInv p r) E s := by
  unfold Txv6.abortFn
  split
  · refine wp_seq (h.when ?_) fun _ s h => ?_
    · refine wp_seq h.beginOp fun _ s h => ?_
      refine wp_seq h.read fun dev s h => ?_
      refine wp_seq h.read fun blockno s h => ?_
      exact wp_seq (h.bfree dev blockno hE) fun _ s h => h.endOp
    · refine wp_seq (h.update fun t => Quiet.kfree _ _) fun _ s h => ?_
      exact h.update fun t => setBuf rfl
  · refine wp_seq (h.update fun t => Quiet.kfree _ _) fun _ s h => ?_
    exact h.iputWith _

theorem forWorksetFrom {f : WorksetEntry → K Unit}
    (hf : ∀ e s, LockInv p r s → lockWp p (f e) (fun _ => LockInv p r) E s)
    (fuel i : Nat) :
    lockWp p (forWorksetFrom p f fuel i) (fun _ => LockInv p r) E s := by
  induction fuel generalizing i s with
  | zero => exact h
  | succ fuel ih =>
    refine wp_seq h.read fun o s h => ?_
    cases o with
    | none => exact h
    | some e => exact wp_seq (hf e s h) fun _ s h => ih h _

/-- A conflict abort gives no lock back: the undo list is empty. -/
theorem txAbortNow (c : Site) (hE : ErrOk True (fun _ => True) E)
    (hj : ∀ t, LockInv p r t → E (.jump c) t) :
    lockWp p (txAbortNow p c) Q E s := by
  refine wp_seq (h.kassert hE) fun _ s hs => ?_
  refine wp_seq (M := fun undo t => undo = [] ∧ LockInv p r t) (wp_read fun t hR => ?_) ?_
  · have h := (hs.2.stable hR).quiet (refl t)
    exact ⟨h.1, h.2.undo, h.2⟩
  · rintro _ s ⟨rfl, h⟩
    refine wp_seq (M := fun _ => LockInv p r) h fun _ s h => ?_
    refine wp_seq (wp_seq h.read fun n s h =>
      h.forWorksetFrom (fun e s h => h.abortFn e hE) _ _) fun _ s h => ?_
    refine wp_seq h.read fun valid s h => ?_
    split
    · exact hj s h
    · exact hE.panic _ _ trivial

theorem idataOf {c : Site} {ip : InodePtr} (hE : ErrOk True (fun _ => True) E)
    (hj : o = none → ∀ t, LockInv p (r.unlock (.inode ip)) t → E (.jump c) t)
    (hw : o ≠ none → InWorkset (s.txOf p).workset (.inode ip)) :
    lockWp p (idataOf c p ip o) (fun d => LockInv p (r.grant ip d)) E s := by
  cases o with
  | some d =>
    refine { h with granted := fun ip' hip => ?_ }
    rcases Set.mem_insert_iff.mp hip with rfl | hip
    · exact hw (by simp)
    · exact h.granted ip' hip
  | none =>
    refine wp_seq (h.iunlock ip hE) fun _ s h => ?_
    exact h.txAbortNow c hE (hj rfl)

theorem idata (c : Site) (ip : InodePtr) (hE : ErrOk True (fun _ => True) E)
    (hj : ip ∉ r.granted → ∀ t, LockInv p (r.unlock (.inode ip)) t → E (.jump c) t) :
    lockWp p (idata c p ip) (fun d => LockInv p (r.grant ip d)) E s := by
  refine wp_seq (h.txdata hE) fun o s ⟨h, hn, hw⟩ => ?_
  exact h.idataOf hE (fun ho => hj fun hip => hn ho ip hip rfl) hw

theorem idataRo (c : Site) (ip : InodePtr) (hE : ErrOk True (fun _ => True) E) (hg : ip ∈ r.granted) :
    lockWp p (idataRo c p ip) (fun _ => LockInv p r) E s := by
  refine wp_seq (h.txdata hE) fun o s ⟨h, hn, hw⟩ => ?_
  cases o with
  | none => exact absurd rfl (hn rfl ip hg)
  | some d => exact h

theorem itruncDirect (dev : Nat) (d : Page) (slots : List (Fin (ndirect + 1))) :
    lockWp p (itruncDirect p dev d true slots) (fun _ => LockInv p r) E s := by
  induction slots generalizing s with
  | nil => exact h
  | cons i rest ih =>
    refine wp_seq h.read fun a s h => ?_
    refine wp_seq (h.when ?_) fun _ s h => ih h
    exact wp_seq (M := fun _ => LockInv p r) h fun _ s h => h.update fun t => setPage _ _ _

theorem itrunc (ip : InodePtr) (hE : ErrOk True (fun _ => True) E) (hg : ip ∈ r.granted) :
    lockWp p (itrunc p ip) (fun _ => LockInv p r) E s := by
  refine wp_seq (h.idata _ ip hE fun hn => absurd hg hn) fun d s h => ?_
  have h := h.weaken (Res.le_grant _ _ _)
  refine h.ifActive fun s h => ?_
  refine wp_seq h.read fun dev s h => ?_
  refine wp_seq (h.itruncDirect dev d _) fun _ s h => ?_
  refine wp_seq h.read fun ind s h => ?_
  refine wp_seq (h.when ?_) fun _ s h => ?_
  · exact wp_seq (M := fun _ => LockInv p r) h fun _ s h => h.update fun t => setPage _ _ _
  refine wp_seq (h.update fun t => setPage _ _ _) fun _ s h => ?_
  exact h.iupdate ip

/-! ## Files and processes -/

theorem filedup (f : FilePtr) (hE : ErrOk True (fun _ => True) E) :
    lockWp p (filedup f) (fun _ => LockInv p r) E s := by
  refine h.atomOrPanic hE fun t => ?_
  split
  · exact refl t
  · dsimp only
    exact Quiet.setFile _ _ _

theorem changeCwd (ip : InodePtr) (hE : ErrOk True (fun _ => True) E) :
    lockWp p (changeCwd p ip) (fun _ => LockInv p r) E s := by
  refine wp_seq (M := fun _ => LockInv p r) ?_ fun cwd s h => ?_
  · refine wp_seq h.read fun o s h => ?_
    cases o with
    | none => exact hE.panic _ _ trivial
    | some ip => exact h
  refine wp_seq (h.iputWith cwd) fun _ s h => ?_
  refine wp_seq h.endOp fun _ s h => ?_
  exact wp_seq (h.update fun t => setProc rfl rfl) fun _ _ h => h
end

end LockInv

/-- The locks of a process that runs in a transaction. -/
def lockLogic (p : ProcPtr) : FsLogic p where
  X := Kernel
  wp := Prog.wp (Rely p) (Guar p)
  J := LockInv p
  sure := True
  mild _ := True
  raised _ _ := trivial
  ret h := h
  fail h := h
  seq := wp_seq
  mono hQ := wp_mono hQ fun _ _ => id
  weaken := LockInv.weaken
  read _ h := h.read
  kassert _ _ _ hE h := wp_mono (fun _ _ h => h.2) (fun _ _ => id) (h.kassert hE)
  bread dev blockno hE h := h.bread dev blockno hE
  brelse b hE h := h.brelse b hE
  bdata b hE _ h := h.bdata hE
  logWrite b _ _ h := h.logWrite b
  setBfield d f _ h := h.update fun _ => Quiet.setPage _ _ _
  iget dev inum hE h := wp_mono (fun _ _ h => h.congr rfl rfl) (fun _ _ => id) (h.iget dev inum hE)
  idup ip h := h.idup ip
  ialloc dev type hE h := wp_seq h.read fun ninodes s h =>
    wp_mono (fun o _ h => by cases o <;> exact h.congr rfl rfl) (fun _ _ => id)
      (h.iallocLoop dev type ninodes hE _ _)
  ilock ip hE h := h.ilock ip hE
  iunlock ip hE h := h.iunlock ip hE
  iput ip _ h := wp_mono (fun _ _ h => h.congr rfl rfl) (fun _ _ => id) (h.iputWith ip)
  idata c ip hE _ hj h := h.idata c ip hE hj
  idataRo c ip hE hg h := h.idataRo c ip hE hg
  setIfield d f _ h := h.update fun _ => Quiet.setPage _ _ _
  iupdate ip _ h := h.iupdate ip
  itrunc ip hE hg h := h.itrunc ip hE hg
  beginOp h := h.beginOp
  endOp _ h := h.endOp
  copyoutTo va bs h := h.atom fun _ => by
    dsimp only
    exact Quiet.setProc rfl rfl
  devRead dev va n h := h.atom fun _ => by
    dsimp only
    exact Quiet.setProc rfl rfl
  fileOff f n h := h.update fun _ => Quiet.setFile _ _ _
  openFile ip omode type major h :=
    wp_mono (fun o _ h => by cases o <;> exact h.congr rfl rfl) (fun _ _ => id)
      (h.atom fun t => Quiet.openFile t _ _ _ _ _)
  filecloseStep f hE h :=
    wp_mono (fun o _ h => by
      cases o with
      | none => exact h
      | some ff =>
        dsimp only
        split <;> exact h.congr rfl rfl) (fun _ _ => id)
      (h.atomOrPanic hE fun t => Quiet.fileclose t f)
  filedup f hE h := h.filedup f hE
  setOfile fd f h := h.update fun _ => Quiet.setProc rfl rfl
  changeCwd ip hE h := wp_mono (fun _ _ h => h.congr rfl rfl) (fun _ _ => id) (h.changeCwd ip hE)

/-! ## Back in `syscall()` -/

/-- What a refused `idata` leaves behind, in a call that was entered with the locks `m`. -/
def JumpLocks (p : ProcPtr) (m : Multiset Header) : Err → Kernel → Prop
  | .panic _, _ => True
  | .jump c, t => ∃ r, LockInv p r t ∧
      if c = .unlink ∨ c = .createNew then ∃ dp, r.locks = .inode dp ::ₘ m else r.locks = m

theorem jumpLocks_ok (p : ProcPtr) (m : Multiset Header) :
    (lockLogic p).JumpOk m (JumpLocks p m) where
  err := ⟨fun _ _ _ => trivial, fun h => absurd trivial h⟩
  free hu hc hl h := ⟨_, h, by simp [hu, hc, hl]⟩
  held _ hc hl h := ⟨_, h, by rw [if_pos hc]; exact ⟨_, hl⟩⟩

theorem LockInv.setjmp {p : ProcPtr} {r : Res} {s : Kernel} (h : LockInv p r s) :
    Guar p s (s.setjmp p) ∧ LockInv p r (s.setjmp p) := by
  obtain ⟨a, ha, hact⟩ := txActive_iff.mp h.active
  unfold Kernel.setjmp
  split
  · unfold Kernel.setTxOf
    rw [ha]
    exact h.ownTx ha rfl (fun _ => rfl) rfl hact (txOf_eq ha ▸ h.undo) (txOf_eq ha ▸ h.sorted)
      fun _ hx => hx
  · exact h.quiet (refl s)

/-- A system call inside a transaction: if it comes back by its return, the locks are
what they were; if it comes back by `klongjmp`, they are those of `JumpLocks`. -/
theorem syscall_locks {p : ProcPtr} (c : FsCall) {r : Res} {s : Kernel} (h : LockInv p r s) :
    lockWp p (syscall p (c.body p))
      (fun x t => match x.2 with
        | none => LockInv p r t
        | some site => JumpLocks p r.locks (.jump site) t) (fun _ _ => True) s := by
  refine wp_seq (M := fun _ => LockInv p r) (wp_update fun t hR => (h.stable hR).setjmp)
    fun _ s h => ?_
  refine wp_handle (fun e he => by cases e <;> first | rfl | cases he)
    (wp_seq (M := fun _ => LockInv p r) ?_ fun x s h => ?_)
  · refine wp_mono (fun _ _ => id) ?_ ((lockLogic p).fsCall (jumpLocks_ok p r.locks) c h)
    rintro (m | site) t ht
    · trivial
    · obtain ⟨r', hr, hl⟩ := ht
      refine wp_seq (hr.update fun t => ?_) fun _ t hr => ⟨r', hr, hl⟩
      unfold Kernel.longjmp
      exact setProc rfl rfl
  · exact wp_seq (h.update fun t => setProc rfl rfl) fun _ _ h => h

/-- **Which locks outlive a conflict abort.** Process `p`, with an active transaction and
no lock, makes a file system call among other processes and comes back through
`klongjmp`. It then holds no lock exactly when the refused `idata` was neither the one on
the victim of `sys_unlink` nor the one on the new inode of `create`. -/
theorem locks_free_after_jump_iff {p : ProcPtr} (c : FsCall) {s t : Kernel} {r : Int} {site : Site}
    (hs : LockInv p {} s) (he : Exec (Rely p) (syscall p (c.body p)) s (.ok (r, some site)) t) :
    (∀ h, t.holdingsleep p h = false) ↔ site ≠ .unlink ∧ site ≠ .createNew := by
  obtain ⟨r', hr, hl⟩ : JumpLocks p 0 (.jump site) t := wp_exec (syscall_locks c hs) he
  constructor
  · intro hfree
    by_contra hsite
    rw [if_pos (by tauto)] at hl
    obtain ⟨dp, hl⟩ := hl
    have := (hr.holds (.inode dp)).mpr (by rw [hl]; exact Multiset.mem_cons_self _ _)
    rw [hfree] at this
    cases this
  · intro hsite h
    rw [if_neg (by tauto)] at hl
    have := hr.holds h
    rw [hl] at this
    simpa using this

/-- Process 0 in a transaction, with an open file that transaction 301 writes. -/
def contended : Kernel :=
  { Image.booted with
    inode := Function.update Image.booted.inode 1
      { dev := rootdev, inum := 2, ref := 1, valid := true, writer := some 301, data := some 201 }
    file := Function.update Image.booted.file 0
      { type := .inode, ref := 1, readable := true, ip := some 1 }
    proc := Function.update Image.booted.proc 0
      { Image.process 1 300 with ofile := Function.update (fun _ => none) 0 (some 0) }
    tx := Function.update Image.booted.tx 300 { status := .active } }

theorem contended_enters : LockInv 0 {} contended where
  active := rfl
  undo := rfl
  sorted := List.Pairwise.nil
  granted _ h := absurd h (Set.notMem_empty _)
  nodup := Multiset.nodup_zero
  holds h := by
    cases h with
    | buf b => simp [holdingsleep, lock, contended, Image.booted]
    | inode ip =>
      have : ((contended.inode ip).lock).locked = false := by
        by_cases h1 : ip = 1
        · subst h1; rfl
        · by_cases h0 : ip = 0
          · subst h0; rfl
          · simp [contended, Image.booted, Function.update, h1, h0]
      simp [holdingsleep, lock, this]

/-- A refused `fstat` holds nothing. -/
theorem locks_free_after_fstat_jump :
    ∃ t, Exec (Rely 0) (syscall 0 ((FsCall.fstat 0 0).body 0)) contended
        (.ok (-1, some .stati)) t ∧ ∀ h, t.holdingsleep 0 h = false := by
  have hrun : (syscall 0 ((FsCall.fstat 0 0).body 0)).run contended =
      (some (.ok (-1, some .stati)), ((syscall 0 ((FsCall.fstat 0 0).body 0)).run contended).2) := rfl
  have hexec := exec_of_run (fun s => (Quiet.refl s).rely 0) hrun
  exact ⟨_, hexec, (locks_free_after_jump_iff _ contended_enters hexec).mpr (by decide)⟩

/-- Process 1 has `/a` in its transaction when process 0 unlinks it. -/
def unlinkConflict : List (ProcPtr × K Int) :=
  [(1, sysOpen 1 (Image.path Image.a) oRdonly), (1, sysTxbegin 1), (1, sysFstat 1 0 0),
    (0, sysTxbegin 0), (0, sysUnlink 0 (Image.path Image.a))]

/-- The refused `unlink` comes back with the lock of the root directory. -/
theorem unlink_jump_keeps_lock :
    (Image.results (Image.after unlinkConflict).1).getLast? = some (-1, some .unlink) ∧
      (Image.after unlinkConflict).2.holdingsleep 0 (.inode 0) = true := by
  decide +kernel

end Txv6
