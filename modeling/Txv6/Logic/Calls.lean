import Txv6.Logic.Fs

/-! # File system calls give back what they take -/
namespace Txv6.FsLogic
open Lib

variable {dp ip : InodePtr}

variable {p : ProcPtr} (L : FsLogic p) {r : Res} {s : L.X} {E : Err → L.X → Prop}

/-! ## Open files -/

/-- `iput` of a file's inode, in an operation of its own. -/
theorem filePut (hE : ErrOk L.sure L.mild E) (ff : File) (h : match ff.type, ff.ip with
      | .inode, some ip | .device, some ip => L.J (r.ref ip) s
      | _, _ => L.J r s) :
    L.wp (filePut p ff) (fun _ => L.J r) E s := by
  have put : ∀ {ip s}, L.J (r.ref ip) s →
      L.wp (do Txv6.beginOp p; Txv6.iput p ip; Txv6.endOp p) (fun _ => L.J r) E s := by
    intro ip s h
    refine L.seq (L.beginOp h) fun _ s h => ?_
    refine L.seq (L.iput ip hE h) fun _ s h => ?_
    exact L.endOp hE (by simpa using h)
  unfold Txv6.filePut fileInode
  cases hip : ff.ip <;> cases ht : ff.type <;> simp only [hip, ht] at h ⊢
  all_goals first
    | exact L.ret h
    | exact L.panics hE (by simp [fsPanics])
    | exact put h

theorem fileclose (hE : ErrOk L.sure L.mild E) (f : FilePtr) (h : L.J r s) :
    L.wp (fileclose p f) (fun _ => L.J r) E s := by
  refine L.seq (L.filecloseStep f hE h) fun o s h => ?_
  cases o with
  | none => exact L.ret h
  | some ff => exact L.filePut hE ff h

theorem fileInode (hE : ErrOk L.sure L.mild E) (ff : File) (h : L.J r s) :
    L.wp (fileInode ff) (fun _ => L.J r) E s := by
  unfold Txv6.fileInode
  split
  · exact L.panics hE (by simp [fsPanics])
  · exact L.ret h

section
variable (hJ : L.JumpOk r.locks E)
include hJ

theorem filestat (f : FilePtr) (addr : Nat) (h : L.J r s) :
    L.wp (filestat p f addr) (fun _ => L.J r) E s := by
  have hE := hJ.err
  refine L.seq (L.read _ h) fun ff s h => ?_
  split
  · refine L.seq (L.fileInode hE ff h) fun ip s h => ?_
    refine L.seq (L.ilock ip hE h) fun _ s h => ?_
    refine L.seq (L.stati hE (by simp)
      (fun _ _ ht => hJ.free (by simp) (by simp) (by simp) ht) h) fun st s h => ?_
    refine L.seq (L.iunlock ip hE h) fun _ s h => ?_
    refine L.seq (L.copyoutTo _ _ (by simpa using h)) fun ok s h => ?_
    split
    · exact L.ret h
    · exact L.ret h
  · exact L.ret h

theorem fileread (f : FilePtr) (addr : Nat) (n : Int) (h : L.J r s) :
    L.wp (fileread p f addr n) (fun _ => L.J r) E s := by
  have hE := hJ.err
  refine L.seq (L.read _ h) fun ff s h => ?_
  split
  · exact L.ret h
  split
  · exact L.seq (L.read _ h) fun dev s h => L.devRead dev addr n h
  · refine L.seq (L.read _ h) fun o s h => ?_
    cases o with
    | none => exact L.ret h
    | some dev => exact L.devRead dev addr n h
  · refine L.seq (L.fileInode hE ff h) fun ip s h => ?_
    refine L.seq (L.ilock ip hE h) fun _ s h => ?_
    refine L.seq (L.read _ h) fun off s h => ?_
    refine L.seq (L.readi hE _ _ _ (by simp)
      (fun _ _ ht => hJ.free (by simp) (by simp) (by simp) ht) h) fun x s h => ?_
    refine L.seq (L.when h fun _ => L.fileOff f _ h) fun _ s h => ?_
    exact L.seq (L.iunlock ip hE h) fun _ s h => L.ret (by simpa using h)
  · exact L.panics hE (by simp [fsPanics])

theorem filewriteLoop (f : FilePtr) (ip : InodePtr) (addr : Nat)
    (n : Int) (fuel : Nat) (i : Int) (h : L.J r s) :
    L.wp (filewriteLoop p f ip addr n fuel i) (fun _ => L.J r) E s := by
  have hE := hJ.err
  induction fuel generalizing i s with
  | zero => exact L.ret h
  | succ fuel ih =>
    unfold Txv6.filewriteLoop
    split
    · refine L.seq (L.beginOp h) fun _ s h => ?_
      refine L.seq (L.ilock ip hE h) fun _ s h => ?_
      refine L.seq (L.read _ h) fun off s h => ?_
      refine L.seq (L.writei hE _ _ _ (by simp)
        (fun _ _ ht => hJ.free (by simp) (by simp) (by simp) ht) h) fun x s h => ?_
      refine L.seq (L.when h fun _ => L.fileOff f _ h) fun _ s h => ?_
      refine L.seq (L.iunlock ip hE h) fun _ s h => ?_
      refine L.seq (L.endOp hE (by simpa using h)) fun _ s h => ?_
      split
      · exact L.ret h
      · exact ih _ h
    · exact L.ret h

theorem filewrite (f : FilePtr) (addr : Nat) (n : Int) (h : L.J r s) :
    L.wp (filewrite p f addr n) (fun _ => L.J r) E s := by
  have hE := hJ.err
  refine L.seq (L.read _ h) fun ff s h => ?_
  split
  · exact L.ret h
  split
  · exact L.read _ h
  · refine L.seq (L.read _ h) fun o s h => ?_
    cases o with
    | none => exact L.ret h
    | some dev => exact L.read _ h
  · refine L.seq (L.fileInode hE ff h) fun ip s h => ?_
    exact L.seq (L.filewriteLoop hJ f ip addr n _ _ h) fun _ _ h => L.ret h
  · exact L.panics hE (by simp [fsPanics])
end

/-! ## Links -/

theorem linkBad (hE : ErrOk L.sure L.mild E) (hg : ip ∈ r.granted) (h : L.J (r.ref ip) s) :
    L.wp (linkBad p ip) (fun _ => L.J r) E s := by
  refine L.seq (L.ilock ip hE h) fun _ s h => ?_
  refine L.seq (L.idataGranted hE _ (by simp) (by simpa using hg) h) fun d s h => ?_
  refine L.seq (L.setIfield d _ (by simp) h) fun _ s h => ?_
  refine L.seq (L.iupdate ip hE h) fun _ s h => ?_
  refine L.seq (L.iunlockput hE ip h) fun _ s h => ?_
  refine L.seq (L.endOp hE (r := r) ?_) fun _ s h => L.ret h
  exact L.drop ip d (by simpa using h)

theorem endOpReturn {α : Type} (hE : ErrOk L.sure L.mild E) (a : α) (h : L.J r s) :
    L.wp (do Txv6.endOp p; return a) (fun _ => L.J r) E s :=
  L.seq (L.endOp hE h) fun _ _ h => L.ret h

theorem sysLink (hJ : L.JumpOk r.locks E) (old new : Option Path) (h : L.J r s) :
    L.wp (sysLink p old new) (fun _ => L.J r) E s := by
  have hE := hJ.err
  unfold Txv6.sysLink
  split
  · refine L.seq (L.beginOp h) fun _ s h => ?_
    refine L.seq (L.namei hJ _ h) fun o s h => ?_
    cases o with
    | none => exact L.endOpReturn hE _ h
    | some ip =>
      refine L.seq (L.ilock ip hE h) fun _ s h => ?_
      refine L.seq (L.idata _ ip hE (by simp)
        (fun _ _ ht => hJ.free (by simp) (by simp) (by simp) ht) h) fun ipd s h => ?_
      refine L.seq (L.ifield ipd _ h) fun type s h => ?_
      split
      · refine L.seq (L.iunlockput hE ip h) fun _ s h => ?_
        exact L.endOpReturn hE _ (L.drop ip ipd (by simpa using h))
      refine L.seq (L.setIfield ipd _ (by simp) h) fun _ s h => ?_
      refine L.seq (L.iupdate ip hE h) fun _ s h => ?_
      refine L.seq (L.iunlock ip hE h) fun _ s h => ?_
      -- from here on: the reference of `ip`, and that `ip` has been granted
      have h : L.J ((r.grant ip ipd).ref ip) s := by simpa using h
      have drop : ∀ {s}, L.J (r.grant ip ipd) s → L.J r s := L.drop _ _
      refine L.seq (L.nameiparent (by simpa using hJ) _ h) fun o s h => ?_
      cases o with
      | none =>
        exact L.mono (fun _ _ => drop) (L.linkBad hE (by simp) h)
      | some x =>
        obtain ⟨dp, name⟩ := x
        obtain ⟨d, h⟩ := h
        refine L.seq (L.ilock dp hE h) fun _ s h => ?_
        refine L.seq (L.read _ h) fun sameDev s h => ?_
        refine L.seq (L.read _ h) fun inum s h => ?_
        refine L.seq (L.ite (L.dirlink hE name _ (by simp) (by simp) h) (L.ret h)) fun x s h => ?_
        have unlockDp : ∀ {s}, L.J (((((r.grant ip ipd).ref ip).ref dp).grant dp d).lock (.inode dp)) s →
            L.wp (Txv6.iunlockput p dp) (fun _ => L.J ((r.grant ip ipd).ref ip)) E s := by
          intro s h
          refine L.mono (fun _ _ ht => ?_) (L.iunlockput hE dp h)
          exact L.drop dp d (by simpa using ht)
        split
        · refine L.seq (unlockDp h) fun _ s h => ?_
          exact L.mono (fun _ _ => drop) (L.linkBad hE (by simp) h)
        · refine L.seq (unlockDp h) fun _ s h => ?_
          refine L.seq (L.iput ip hE h) fun _ s h => ?_
          exact L.endOpReturn hE _ (drop (by simpa using h))
  · exact L.ret h

theorem isdiremptyLoop (hE : ErrOk L.sure L.mild E) (fuel off : Nat)
    (hl : .inode dp ∈ r.locks) (hg : dp ∈ r.granted) (h : L.J r s) :
    L.wp (isdiremptyLoop p dp fuel off) (fun _ => L.J r) E s := by
  induction fuel generalizing off s with
  | zero => exact L.ret h
  | succ fuel ih =>
    unfold Txv6.isdiremptyLoop
    refine L.seq (L.idataGranted hE _ hl hg h) fun d s h => ?_
    refine L.seq (L.ifield d _ h) fun size s h => ?_
    have h := L.drop _ _ h
    split
    · refine L.seq (L.readiGranted hE _ _ _ hl hg h) fun x s h => ?_
      split
      · exact L.panics hE (by simp [fsPanics])
      split
      · exact L.ret h
      · exact ih _ h
    · exact L.ret h

theorem unlinkBad (hE : ErrOk L.sure L.mild E) (h : L.J ((r.ref dp).lock (.inode dp)) s) :
    L.wp (unlinkBad p dp) (fun _ => L.J r) E s := by
  refine L.seq (L.iunlockput hE dp h) fun _ s h => ?_
  exact L.endOpReturn hE _ (by simpa using h)

/-- A refused victim leaves the lock of its directory behind. -/
theorem unlinkEntry (hJ : L.JumpOk r.locks E) (off : Nat)
    (hg : dp ∈ r.granted) (h : L.J (((r.ref dp).lock (.inode dp)).ref ip) s) :
    L.wp (unlinkEntry p dp ip off) (fun _ => L.J r) E s := by
  have hE := hJ.err
  refine L.seq (L.ilock ip hE h) fun _ s h => ?_
  refine L.seq (L.idata _ ip hE (by simp)
    (fun _ _ ht => hJ.held dp (.inl rfl) (by simp) ht) h) fun ipd s h => ?_
  refine L.seq (L.kassert _ _ (L.raised _ (by simp [fsPanics])) hE h) fun _ s h => ?_
  refine L.seq (L.ifield ipd _ h) fun type s h => ?_
  refine L.seq (L.ite (L.isdiremptyLoop hE _ _ (by simp) (by simp) h) (L.ret h)) fun empty s h => ?_
  split
  · refine L.seq (L.iunlockput hE ip h) fun _ s h => ?_
    exact L.unlinkBad hE (L.drop ip ipd (by simpa using h))
  refine L.seq (L.writeiGranted hE _ _ _ (by simp) (by simp [hg]) h) fun x s h => ?_
  split
  · exact L.panics hE (by simp [fsPanics])
  refine L.seq (L.ifield ipd _ h) fun type s h => ?_
  refine L.seq (L.when h fun _ => ?_) fun _ s h => ?_
  · refine L.seq (L.idataGranted hE _ (by simp) (by simp [hg]) h) fun dpd s h => ?_
    refine L.seq (L.setIfield dpd _ (by simp) h) fun _ s h => ?_
    exact L.iupdate dp hE (L.drop _ _ h)
  refine L.seq (L.iunlockput hE dp h) fun _ s h => ?_
  have h : L.J (((r.ref ip).lock (.inode ip)).grant ip ipd) s := by simpa using h
  refine L.seq (L.setIfield ipd _ (by simp) h) fun _ s h => ?_
  refine L.seq (L.iupdate ip hE h) fun _ s h => ?_
  refine L.seq (L.iunlockput hE ip h) fun _ s h => ?_
  exact L.endOpReturn hE _ (L.drop ip ipd (by simpa using h))

theorem sysUnlink (hJ : L.JumpOk r.locks E) (path : Option Path) (h : L.J r s) :
    L.wp (sysUnlink p path) (fun _ => L.J r) E s := by
  have hE := hJ.err
  unfold Txv6.sysUnlink
  split
  · exact L.ret h
  refine L.seq (L.beginOp h) fun _ s h => ?_
  refine L.seq (L.nameiparent hJ _ h) fun o s h => ?_
  cases o with
  | none => exact L.endOpReturn hE _ h
  | some x =>
    obtain ⟨dp, name⟩ := x
    obtain ⟨d, h⟩ := h
    have h : L.J ((r.grant dp d).ref dp) s := h
    have drop : ∀ {s}, L.J (r.grant dp d) s → L.J r s := L.drop _ _
    refine L.mono (fun _ _ => drop) ?_
    refine L.seq (L.ilock dp hE h) fun _ s h => ?_
    split
    · exact L.unlinkBad hE h
    refine L.seq (L.dirlookup hE name (by simp) (by simp) h) fun o s h => ?_
    cases o with
    | none => exact L.unlinkBad hE h
    | some y => exact L.unlinkEntry (by simpa using hJ) y.2 (by simp) h

/-! ## Creating -/

theorem createFail (hE : ErrOk L.sure L.mild E) {ipd : Page} (hd : ipd ∈ r.ipages)
    (h : L.J ((((r.ref dp).lock (.inode dp)).ref ip).lock (.inode ip)) s) :
    L.wp (createFail p dp ip ipd) (fun o t => o = none ∧ L.J r t) E s := by
  refine L.seq (L.setIfield ipd _ (by simpa using hd) h) fun _ s h => ?_
  refine L.seq (L.iupdate ip hE h) fun _ s h => ?_
  refine L.seq (L.iunlockput hE ip h) fun _ s h => ?_
  refine L.seq (L.iunlockput hE dp h) fun _ s h => ?_
  exact L.ret ⟨rfl, by simpa using h⟩

theorem createDots (hE : ErrOk L.sure L.mild E) (dp : InodePtr)
    (hl : .inode ip ∈ r.locks) (hg : ip ∈ r.granted) (h : L.J r s) :
    L.wp (createDots p dp ip) (fun _ => L.J r) E s := by
  refine L.seq (L.read _ h) fun inum s h => ?_
  refine L.seq (L.dirlink hE _ _ hl hg h) fun x s h => ?_
  split
  · exact L.ret h
  · exact L.seq (L.read _ h) fun dinum s h => L.dirlink hE _ _ hl hg h

/-- The inode `create` returns is locked, has a reference and has been looked at. -/
def Created (r : Res) (o : Option InodePtr) (s : L.X) : Prop :=
  o.elim (L.J r s) fun ip => ∃ d, L.J (((r.ref ip).lock (.inode ip)).grant ip d) s

/-- A new inode that is refused leaves the lock of its directory behind. -/
theorem createNew (hJ : L.JumpOk r.locks E) (name : Name) (type major minor : Short) (hg : dp ∈ r.granted)
    (h : L.J (((r.ref dp).lock (.inode dp)).ref ip) s) :
    L.wp (createNew p dp ip name type major minor) (L.Created r) E s := by
  have hE := hJ.err
  refine L.seq (L.ilock ip hE h) fun _ s h => ?_
  refine L.seq (L.idata _ ip hE (by simp)
    (fun _ _ ht => hJ.held dp (.inr rfl) (by simp) ht) h) fun ipd s h => ?_
  refine L.seq (L.setIfield ipd _ (by simp) h) fun _ s h => ?_
  refine L.seq (L.iupdate ip hE h) fun _ s h => ?_
  have fail : ∀ {s}, L.J (((((r.ref dp).lock (.inode dp)).ref ip).lock (.inode ip)).grant ip ipd) s →
      L.wp (Txv6.createFail p dp ip ipd) (L.Created r) E s := by
    intro s h
    refine L.mono ?_ (L.createFail (r := r.grant ip ipd) hE (by simp) h)
    rintro o t ⟨rfl, ht⟩
    exact L.drop _ _ ht
  refine L.seq (L.ite (L.createDots hE dp (by simp) (by simp) h) (L.ret h)) fun x s h => ?_
  split
  · exact fail h
  refine L.seq (L.read _ h) fun inum s h => ?_
  refine L.seq (L.dirlink hE name inum (by simp) (by simp [hg]) h) fun x s h => ?_
  split
  · exact fail h
  refine L.seq (L.when h fun _ => ?_) fun _ s h => ?_
  · refine L.seq (L.idataGranted hE _ (by simp) (by simp [hg]) h) fun dpd s h => ?_
    refine L.seq (L.setIfield dpd _ (by simp) h) fun _ s h => ?_
    exact L.iupdate dp hE (L.drop _ _ h)
  refine L.seq (L.iunlockput hE dp h) fun _ s h => ?_
  exact L.ret ⟨ipd, by simpa using h⟩

theorem createFound (hJ : L.JumpOk r.locks E) (type : Short)
    (h : L.J (((r.ref dp).lock (.inode dp)).ref ip) s) :
    L.wp (createFound p dp ip type) (L.Created r) E s := by
  have hE := hJ.err
  refine L.seq (L.iunlockput hE dp h) fun _ s h => ?_
  have h : L.J (r.ref ip) s := by simpa using h
  refine L.seq (L.ilock ip hE h) fun _ s h => ?_
  refine L.seq (L.idata _ ip hE (by simp)
    (fun _ _ ht => hJ.free (by simp) (by simp) (by simp) ht) h) fun ipd s h => ?_
  refine L.seq (L.ifield ipd _ h) fun t s h => ?_
  split
  · exact L.ret ⟨ipd, h⟩
  · refine L.seq (L.iunlockput hE ip h) fun _ s h => ?_
    exact L.ret (L.drop ip ipd (by simpa using h))

theorem create (hJ : L.JumpOk r.locks E) (path : Path) (type major minor : Short) (h : L.J r s) :
    L.wp (create p path type major minor) (L.Created r) E s := by
  have hE := hJ.err
  refine L.seq (L.nameiparent hJ _ h) fun o s h => ?_
  cases o with
  | none => exact L.ret h
  | some x =>
    obtain ⟨dp, name⟩ := x
    obtain ⟨d, h⟩ := h
    have h : L.J ((r.grant dp d).ref dp) s := h
    have drop : ∀ o t, L.Created (r.grant dp d) o t → L.Created r o t := by
      rintro (_ | ip) t ht
      · exact L.drop _ _ ht
      · obtain ⟨d', ht⟩ := ht
        exact ⟨d', L.weaken ((Res.le_grant _ dp d).grant ip d') ht⟩
    refine L.mono drop ?_
    refine L.seq (L.ilock dp hE h) fun _ s h => ?_
    refine L.seq (L.dirlookup hE name (by simp) (by simp) h) fun o s h => ?_
    cases o with
    | some y => exact L.createFound (by simpa using hJ) type h
    | none =>
      refine L.seq (L.read _ h) fun dev s h => ?_
      refine L.seq (L.ialloc dev type hE h) fun o s h => ?_
      cases o with
      | none =>
        refine L.seq (L.iunlockput hE dp h) fun _ s h => ?_
        exact L.ret (by simpa using h : L.J (r.grant dp d) s)
      | some ip => exact L.createNew (by simpa using hJ) name type major minor (by simp) h

/-! ## Opening -/

theorem openInode (hE : ErrOk L.sure L.mild E) (omode : Nat) (hg : ip ∈ r.granted)
    (h : L.J ((r.ref ip).lock (.inode ip)) s) : L.wp (openInode p ip omode) (fun _ => L.J r) E s := by
  refine L.seq (L.idataGranted hE _ (by simp) (by simpa using hg) h) fun ipd s h => ?_
  refine L.seq (L.ifield ipd _ h) fun type s h => ?_
  refine L.seq (L.ifield ipd _ h) fun major s h => ?_
  have h := L.drop _ _ h
  have drop : ∀ {s}, L.J ((r.ref ip).lock (.inode ip)) s →
      L.wp (do Txv6.iunlockput p ip; Txv6.endOp p; return (-1 : Int)) (fun _ => L.J r) E s := by
    intro s h
    refine L.seq (L.iunlockput hE ip h) fun _ s h => ?_
    exact L.endOpReturn hE _ (by simpa using h)
  split
  · exact drop h
  refine L.seq (L.openFile ip omode type major h) fun o s h => ?_
  cases o with
  | none => exact drop h
  | some fd =>
    have h : L.J (r.lock (.inode ip)) s := by simpa using h
    refine L.seq (L.ifield ipd _ h) fun type s h => ?_
    refine L.seq (L.when h fun _ => L.itrunc ip hE (by simpa using hg) h) fun _ s h => ?_
    refine L.seq (L.iunlock ip hE h) fun _ s h => ?_
    exact L.endOpReturn hE _ (by simpa using h)

/-- `openInode` on an inode that has just been looked at. -/
theorem openGranted (hE : ErrOk L.sure L.mild E) {d : Page} (omode : Nat)
    (h : L.J (((r.ref ip).lock (.inode ip)).grant ip d) s) :
    L.wp (Txv6.openInode p ip omode) (fun _ => L.J r) E s :=
  L.mono (fun _ _ => L.drop ip d)
    (L.openInode (r := r.grant ip d) hE omode (by simp) h)

section
variable (hJ : L.JumpOk r.locks E) (path : Option Path)
include hJ path

theorem sysOpen (omode : Nat) (h : L.J r s) :
    L.wp (sysOpen p path omode) (fun _ => L.J r) E s := by
  have hE := hJ.err
  unfold Txv6.sysOpen
  split
  · exact L.ret h
  refine L.seq (L.beginOp h) fun _ s h => ?_
  split
  · refine L.seq (L.create hJ _ _ _ _ h) fun o s h => ?_
    cases o with
    | none => exact L.endOpReturn hE _ h
    | some ip =>
      obtain ⟨d, h⟩ := h
      exact L.openGranted hE omode h
  · refine L.seq (L.namei hJ _ h) fun o s h => ?_
    cases o with
    | none => exact L.endOpReturn hE _ h
    | some ip =>
      refine L.seq (L.ilock ip hE h) fun _ s h => ?_
      refine L.seq (L.idata _ ip hE (by simp)
        (fun _ _ ht => hJ.free (by simp) (by simp) (by simp) ht) h) fun ipd s h => ?_
      refine L.seq (L.ifield ipd _ h) fun type s h => ?_
      split
      · refine L.seq (L.iunlockput hE ip h) fun _ s h => ?_
        exact L.endOpReturn hE _ (L.drop ip ipd (by simpa using h))
      · exact L.openGranted hE omode h

theorem makeNode (type major minor : Short)
    (h : L.J r s) : L.wp (makeNode p path type major minor) (fun _ => L.J r) E s := by
  have hE := hJ.err
  refine L.seq (L.beginOp h) fun _ s h => ?_
  split
  · exact L.endOpReturn hE _ h
  refine L.seq (L.create hJ _ _ _ _ h) fun o s h => ?_
  cases o with
  | none => exact L.endOpReturn hE _ h
  | some ip =>
    obtain ⟨d, h⟩ := h
    refine L.seq (L.iunlockput hE ip (L.drop _ _ h)) fun _ s h => ?_
    exact L.endOpReturn hE _ (by simpa using h)

theorem sysChdir (h : L.J r s) :
    L.wp (sysChdir p path) (fun _ => L.J r) E s := by
  have hE := hJ.err
  refine L.seq (L.beginOp h) fun _ s h => ?_
  split
  · exact L.endOpReturn hE _ h
  refine L.seq (L.namei hJ _ h) fun o s h => ?_
  cases o with
  | none => exact L.endOpReturn hE _ h
  | some ip =>
    refine L.seq (L.ilock ip hE h) fun _ s h => ?_
    refine L.seq (L.idata _ ip hE (by simp)
      (fun _ _ ht => hJ.free (by simp) (by simp) (by simp) ht) h) fun d s h => ?_
    refine L.seq (L.ifield d _ h) fun type s h => ?_
    have h := L.drop _ _ h
    split
    · refine L.seq (L.iunlockput hE ip h) fun _ s h => ?_
      exact L.endOpReturn hE _ (by simpa using h)
    · refine L.seq (L.iunlock ip hE h) fun _ s h => ?_
      have h : L.J (r.ref ip) s := by simpa using h
      simpa using L.changeCwd ip hE h
end

/-! ## All calls -/

theorem sysDup (hE : ErrOk L.sure L.mild E) (fd : Int) (h : L.J r s) :
    L.wp (sysDup p fd) (fun _ => L.J r) E s := by
  refine L.seq (L.read _ h) fun o s h => ?_
  cases o with
  | none => exact L.ret h
  | some f =>
    refine L.seq (L.read _ h) fun o s h => ?_
    cases o with
    | none => exact L.ret h
    | some nfd =>
      refine L.seq (L.setOfile nfd (some f) h) fun _ s h => ?_
      exact L.seq (L.filedup f hE h) fun _ s h => L.ret h

/-- A call on the file behind a descriptor. -/
theorem withFd {fd : Int} {k : FilePtr → K Int} (h : L.J r s)
    (hk : ∀ f s, L.J r s → L.wp (k f) (fun _ => L.J r) E s) :
    L.wp (do
      match ← .read fun s => s.argfd p fd with
      | none => return -1
      | some f => k f) (fun _ => L.J r) E s := by
  refine L.seq (L.read _ h) fun o s h => ?_
  cases o with
  | none => exact L.ret h
  | some f => exact hk f s h

/-- **File system calls keep every invariant.** A call that returns has given back every
lock and reference it took; one that jumps out leaves only what `JumpOk` says. -/
theorem fsCall (hJ : L.JumpOk r.locks E) (c : FsCall) (h : L.J r s) :
    L.wp (c.body p) (fun _ => L.J r) E s := by
  have hE := hJ.err
  cases c with
  | «open» path omode => exact L.sysOpen hJ path omode h
  | read fd va n => exact L.withFd h fun f s h => L.fileread hJ f va n h
  | write fd va n => exact L.withFd h fun f s h => L.filewrite hJ f va n h
  | close fd =>
    refine L.withFd h fun f s h => ?_
    refine L.seq (L.setOfile _ none h) fun _ s h => ?_
    exact L.seq (L.fileclose hE f h) fun _ s h => L.ret h
  | dup fd => exact L.sysDup hE fd h
  | fstat fd va => exact L.withFd h fun f s h => L.filestat hJ f va h
  | link old new => exact L.sysLink hJ old new h
  | unlink path => exact L.sysUnlink hJ path h
  | mkdir path => exact L.makeNode hJ path _ _ _ h
  | mknod path major minor => exact L.makeNode hJ path _ _ _ h
  | chdir path => exact L.sysChdir hJ path h

end Txv6.FsLogic
