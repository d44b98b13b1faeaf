import Txv6.Writers.Owners
import Txv6.Logic.Low
import Txv6.Logic.Calls
import Txv6.System
import Txv6.TxLayer.Results

/-! # What system calls do to the owners of objects

Every atomic step of every call is one of the operations of `OwnerOp`.
-/
namespace Txv6
open Lib Function
open Kernel (owners setPage setTxOf)
open Lib.Prog hiding update

variable {ip : InodePtr} {f : Proc → Proc} {p : ProcPtr} {α : Type} {m : K α}

def OwnerStep (s t : Kernel) : Prop :=
  ∃ o : OwnerOp, o.Guard s.owners ∧ t.owners = o.apply s.owners

namespace OwnerStep
variable {s t : Kernel}

theorem of_eq (h : t.owners = s.owners) : OwnerStep s t := ⟨.rest, trivial, h⟩

theorem refl (s : Kernel) : OwnerStep s s := of_eq rfl

theorem owners_of_calm (h : Calm s t) : t.owners = s.owners := by
  unfold owners
  rw [h.writer, h.tx, h.proc]

theorem of_calm (h : Calm s t) : OwnerStep s t := of_eq (owners_of_calm h)

theorem of_steps (h : Steps Calm m) : Steps OwnerStep m :=
  h.mono fun _ _ => of_calm

theorem owners_setInodeWriter {f : Inode → Inode} : (s.setInode ip f).owners =
    { s.owners with writer := update s.owners.writer (.inode ip) (f (s.inode ip)).writer } := by
  refine Owners.ext (funext fun x => ?_) rfl rfl rfl rfl
  cases x with
  | buf b => rfl
  | inode ip' =>
    by_cases e : ip' = ip
    · subst e; simp [owners, Kernel.writer, Kernel.setInode]
    · simp [owners, Kernel.writer, Kernel.setInode, update, e]

theorem owners_setInode {f : Inode → Inode}
    (hw : (f (s.inode ip)).writer = (s.inode ip).writer) : (s.setInode ip f).owners = s.owners := by
  rw [owners_setInodeWriter, hw]
  exact Owners.ext (update_eq_self _ s.owners.writer) rfl rfl rfl rfl

theorem owners_setProc : (s.setProc p f).owners = { s.owners with
    tx := update s.owners.tx p (f (s.proc p)).tx
    unused := { q | (update s.proc p (f (s.proc p)) q).state = .unused } } :=
  Owners.ext rfl rfl rfl (funext fun q => apply_update (fun _ => Proc.tx) s.proc p _ q) rfl

theorem setProc (htx : (f (s.proc p)).tx = (s.proc p).tx)
    (hst : (f (s.proc p)).state = (s.proc p).state) : OwnerStep s (s.setProc p f) := by
  refine of_eq (owners_setProc.trans (Owners.ext rfl rfl rfl ?_ (Set.ext fun q => ?_)))
  · rw [htx]
    exact update_eq_self p s.owners.tx
  · by_cases e : q = p
    · subst e; simp [owners, hst]
    · simp [owners, update, e]

/-- A process that is not unused any more. -/
theorem occupy (htx : (f (s.proc p)).tx = (s.proc p).tx)
    (hst : (f (s.proc p)).state ≠ .unused) : OwnerStep s (s.setProc p f) := by
  refine ⟨.occupy p, trivial, owners_setProc.trans (Owners.ext rfl rfl rfl ?_ (Set.ext fun q => ?_))⟩
  · rw [htx]
    exact update_eq_self p s.owners.tx
  · by_cases e : q = p
    · subst e; simp [owners, OwnerOp.apply, hst]
    · simp [owners, OwnerOp.apply, update, e]

theorem owners_setTx {a : Page} {f : Transaction → Transaction} : (s.setTx a f).owners = { s.owners with
    status := update s.owners.status a (f (s.tx a)).status
    objects := update s.owners.objects a { h | InWorkset (f (s.tx a)).workset h } } :=
  Owners.ext rfl (funext fun b => apply_update (fun _ => Transaction.status) s.tx a _ b)
    (funext fun b => apply_update (fun _ (x : Transaction) => { h | InWorkset x.workset h }) s.tx a _ b) rfl rfl

/-- A change of a transaction that leaves its status and its objects. -/
theorem setTx {a : Page} {f : Transaction → Transaction} (hst : (f (s.tx a)).status = (s.tx a).status)
    (hws : ∀ h, InWorkset (f (s.tx a)).workset h ↔ InWorkset (s.tx a).workset h) : OwnerStep s (s.setTx a f) := by
  refine of_eq (owners_setTx.trans (Owners.ext rfl ?_ ?_ rfl rfl))
  · rw [hst]
    exact update_eq_self a s.owners.status
  · simp only [hws]
    exact update_eq_self a s.owners.objects

/-! ## Objects -/

theorem iget {dev inum : Nat} (h : (s.iget dev inum).1 = .ok ip) : OwnerStep s (s.iget dev inum).2 := by
  unfold Kernel.iget at h ⊢
  split at h
  · dsimp only
    exact of_eq (owners_setInode rfl)
  · split at h
    · cases h
    next ip' _ =>
      have hrec : (s.setInode ip' fun x => { x with
          dev := dev, inum := inum, ref := 1, valid := false, writer := none }).owners =
          (OwnerOp.recycle ip').apply s.owners := owners_setInodeWriter
      refine ⟨.recycle ip', trivial, ?_⟩
      rw [← hrec]
      dsimp only at h ⊢
      split at h
      · rfl
      · have hk := Calm.kalloc (s.setInode ip' fun x => { x with
          dev := dev, inum := inum, ref := 1, valid := false, writer := none })
        split at h
        · cases h
        next pg u hu =>
          rw [hu] at hk
          have hd : ((u.setPage pg fun d => { d with ino := .zero }).setInode ip' fun x =>
              { x with data := some pg }).owners = u.owners := owners_setInode rfl
          exact hd.trans (owners_of_calm hk)

theorem grantShadow {a pg src : Page} {x : Header} {rest : List Page} {ro : Bool}
    (ha : (s.proc p).tx = some a) (hact : (s.tx a).status = .active) (hm : s.MayGrant a x) :
    OwnerStep s (s.grantShadow a x ro pg src rest) := by
  refine ⟨.shadow a x, ⟨⟨p, ha⟩, hact, hm.owner⟩, ?_⟩
  unfold Kernel.grantShadow
  refine owners_setTx.trans (Owners.ext (funext fun y => ?_) ?_ ?_ ?_ ?_)
  · change (s.setWriter (some a) x).writer y = _
    rw [writer_setWriter]
    by_cases e : y = x
    · subst e; simp [OwnerOp.apply]
    · simp [OwnerOp.apply, update, e, owners]
  · simp [owners, OwnerOp.apply, setPage]
  · simp only [owners, OwnerOp.apply, setPage, setWriter_tx]
    exact congrArg (update _ a) (Set.ext fun y => by simp [inWorkset_insertEntry, eq_comm])
  · simp [owners, OwnerOp.apply, setPage]
  · simp [owners, OwnerOp.apply, setPage]

theorem markNew (s : Kernel) (p : ProcPtr) (b : BufPtr) : OwnerStep s (s.markNew p b) := by
  unfold Kernel.markNew
  split
  · exact refl s
  next a _ =>
    split
    · exact refl s
    · exact setTx rfl fun _ => inWorkset_mark

theorem of_txCalm (h : TxCalm p s t) : OwnerStep s t := by
  cases h with
  | calm h => exact of_calm h
  | grant ha hact hm _ _ => exact grantShadow ha hact hm
  | mark => exact markNew s p _

theorem of_txSteps (h : Steps (TxCalm p) m) : Steps OwnerStep m :=
  h.mono fun _ _ => of_txCalm

/-! ## Transactions and processes -/

theorem txbegin {r : Int} (h : (s.txbegin p).1 = .ok r) : OwnerStep s (s.txbegin p).2 := by
  cases ha : (s.proc p).tx with
  | none =>
    have : (s.txbegin p).2 = s := by
      unfold Kernel.txbegin
      rw [ha]
    rw [this]
    exact refl s
  | some a =>
    have hr : r = 0 := by
      unfold Kernel.txbegin at h
      rw [ha] at h
      dsimp only at h
      split at h
      · cases h
      · exact (Except.ok.inj h).symm
    subst hr
    obtain ⟨a, pg, hb⟩ := txbegin_result (Prod.ext h rfl : s.txbegin p = (.ok 0, (s.txbegin p).2))
    refine ⟨.start a, trivial, Owners.ext (funext hb.writer) ?_ ?_ ?_ ?_⟩
    · funext b
      by_cases e : b = a
      · subst e; simp [owners, OwnerOp.apply, hb.own]
      · simp [owners, OwnerOp.apply, update, e, hb.other b e]
    · funext b
      by_cases e : b = a
      · subst e; ext x; simp [owners, OwnerOp.apply, hb.own, InWorkset]
      · simp [owners, OwnerOp.apply, update, e, hb.other b e]
    · simp [owners, OwnerOp.apply, hb.proc]
    · simp [owners, OwnerOp.apply, hb.proc]

theorem setTxStatus (s : Kernel) (p : ProcPtr) {st : TxStatus} (hst : st ≠ .active) :
    OwnerStep s (s.setTxOf p fun x => { x with status := st }) := by
  unfold setTxOf
  split
  · exact refl s
  next a _ =>
    refine ⟨.finish a st, hst, owners_setTx.trans (Owners.ext rfl rfl ?_ rfl rfl)⟩
    exact update_eq_self a s.owners.objects

theorem endTx (s : Kernel) (p : ProcPtr) : OwnerStep s (s.endTx p) := by
  unfold Kernel.endTx setTxOf
  split
  · exact refl s
  next a _ =>
    refine ⟨.clear a, trivial, owners_setTx.trans (Owners.ext rfl ?_ ?_ rfl rfl)⟩
    · exact update_eq_self a s.owners.status
    · simp [InWorkset, OwnerOp.apply]

theorem setjmp (s : Kernel) (p : ProcPtr) : OwnerStep s (s.setjmp p) := by
  unfold Kernel.setjmp setTxOf
  split
  · split
    · exact refl s
    · exact setTx rfl fun _ => .rfl
  · exact refl s

theorem freeproc (s : Kernel) (p : ProcPtr) : OwnerStep s (s.freeproc p) := by
  unfold Kernel.freeproc
  split
  · refine ⟨.discard p, trivial, Owners.ext rfl rfl rfl (funext fun q => ?_) (Set.ext fun q => ?_)⟩ <;>
      by_cases e : q = p <;>
      simp [owners, OwnerOp.apply, Kernel.setProc, update, e]
  · refine ⟨.discard p, trivial, Owners.ext rfl rfl rfl (funext fun q => ?_) (Set.ext fun q => ?_)⟩ <;>
      by_cases e : q = p <;>
      simp [owners, OwnerOp.apply, Kernel.setProc, Kernel.kfree, setPage,
        update, e]

theorem allocproc (s : Kernel) : OwnerStep s s.allocproc.2 := by
  cases hnp : s.allocproc.1 with
  | none =>
    have : s.allocproc.2 = s := by
      unfold Kernel.allocproc at hnp ⊢
      split at hnp
      · rfl
      · cases hnp
    rw [this]
    exact refl s
  | some np =>
    have hr := allocproc_result (Prod.ext hnp rfl : s.allocproc = (some np, s.allocproc.2))
    have hother : ∀ {o : Option Page}, (s.allocproc.2.proc np).tx = o →
        s.allocproc.2.owners.tx = update s.owners.tx np o := by
      intro o ho
      funext q
      by_cases e : q = np
      · subst e; simp [owners, ho]
      · simp [owners, update, e, hr.other q e]
    have hunused : s.allocproc.2.owners.unused = s.owners.unused \ {np} := by
      ext q
      by_cases e : q = np
      · subst e; simp [owners, hr.state]
      · simp [owners, e, hr.other q e]
    rcases hr.page with ⟨htx, htxs, _⟩ | ⟨a, htx, htxs, _⟩
    · refine ⟨.reuse np none, hr.unused, Owners.ext (funext hr.writer) ?_ ?_ (hother htx) hunused⟩
      · simp [owners, OwnerOp.apply, htxs]
      · simp [owners, OwnerOp.apply, htxs]
    · refine ⟨.reuse np (some a), hr.unused,
        Owners.ext (funext hr.writer) ?_ ?_ (hother htx) hunused⟩ <;>
        funext b <;> by_cases e : b = a
      · subst e; simp [owners, OwnerOp.apply, htxs]
      · simp [owners, OwnerOp.apply, htxs, update, e]
      · subst e; ext x; simp [owners, OwnerOp.apply, htxs, InWorkset]
      · simp [owners, OwnerOp.apply, htxs, update, e]

/-! ## Programs -/

theorem steps_read {f : Kernel → α} : Steps OwnerStep (.read f : K α) := .read refl

theorem openFile (s : Kernel) (p : ProcPtr) (ip : InodePtr) (omode : Nat) (type major : Short) :
    OwnerStep s (s.openFile p ip omode type major).2 := by
  unfold Kernel.openFile
  split
  next f fd _ _ =>
    obtain ⟨o, ho, h⟩ := setProc (s := s.setFile f _) (p := p) (f := fun x => { x with
      ofile := update x.ofile fd (some f) }) rfl rfl
    exact ⟨o, ho, h⟩
  next => exact refl s

end OwnerStep
end Txv6
