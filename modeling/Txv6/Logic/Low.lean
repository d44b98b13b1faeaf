import Txv6.Frame
import Txv6.Lib.Parallel

/-! # Buffers, the log and locks

The code below inode references and transactions touches buffers, pages, locks, the log and
the disk. Everything else is the same after each of its steps.
-/
namespace Txv6
open Lib Lib.Prog

variable {k : K Page} {G : Kernel → Kernel → Prop} {o : Option Page} {α : Type} {m : K α}

/-- The step changes no owner of an object, no transaction, no process, no reference to an
inode and no open file. -/
structure Calm (s t : Kernel) : Prop where
  writer : t.writer = s.writer
  tx : t.tx = s.tx
  proc : t.proc = s.proc
  ref : ∀ ip, (t.inode ip).ref = (s.inode ip).ref
  file : t.file = s.file
  trace : t.trace = s.trace

namespace Calm

theorem refl (s : Kernel) : Calm s s := ⟨rfl, rfl, rfl, fun _ => rfl, rfl, rfl⟩

theorem trans {s t u : Kernel} (a : Calm s t) (b : Calm t u) : Calm s u :=
  ⟨b.writer.trans a.writer, b.tx.trans a.tx, b.proc.trans a.proc,
    fun ip => (b.ref ip).trans (a.ref ip), b.file.trans a.file, b.trace.trans a.trace⟩

theorem setBuf {s : Kernel} {b : BufPtr} {f : Buf → Buf}
    (hf : (f (s.buf b)).writer = (s.buf b).writer) : Calm s (s.setBuf b f) := by
  refine ⟨funext fun h => ?_, rfl, rfl, fun _ => rfl, rfl, rfl⟩
  cases h with
  | buf b' => by_cases e : b' = b <;> simp [Kernel.writer, Kernel.setBuf, Function.update, e, hf]
  | inode ip => rfl

theorem setInode {s : Kernel} {ip : InodePtr} {f : Inode → Inode}
    (hw : (f (s.inode ip)).writer = (s.inode ip).writer)
    (hr : (f (s.inode ip)).ref = (s.inode ip).ref) : Calm s (s.setInode ip f) := by
  refine ⟨funext fun h => ?_, rfl, rfl, fun ip' => ?_, rfl, rfl⟩
  · cases h with
    | buf b => rfl
    | inode ip' =>
      by_cases e : ip' = ip
      · subst e; simp [Kernel.writer, Kernel.setInode, hw]
      · simp [Kernel.writer, Kernel.setInode, Function.update, e]
  · by_cases e : ip' = ip
    · subst e; simp [Kernel.setInode, hr]
    · simp [Kernel.setInode, Function.update, e]

theorem setLock (s : Kernel) (l : Sleeplock) (h : Header) : Calm s (s.setLock l h) := by
  cases h with
  | buf b => exact setBuf (f := fun x => { x with lock := l }) rfl
  | inode ip => exact setInode (f := fun x => { x with lock := l }) rfl rfl

theorem rest (s : Kernel) (disk : Nat → Block) (lru : List BufPtr) (heap : Page → PageData)
    (freelist : List Page) (log : Log) :
    Calm s { s with disk := disk, lru := lru, heap := heap, freelist := freelist, log := log } :=
  ⟨rfl, rfl, rfl, fun _ => rfl, rfl, rfl⟩

theorem setPage (s : Kernel) (pg : Page) (f : PageData → PageData) : Calm s (s.setPage pg f) :=
  rest s _ _ _ _ _

theorem kfree (s : Kernel) (pg : Page) : Calm s (s.kfree pg) := rest s _ _ _ _ _

theorem kalloc (s : Kernel) : Calm s s.kalloc.2 := by
  unfold Kernel.kalloc
  split
  · exact refl s
  · exact rest s _ _ _ _ _

theorem setDataPtr (s : Kernel) (pg : Page) (h : Header) : Calm s (s.setDataPtr pg h) := by
  cases h with
  | buf b => exact setBuf (f := fun x => { x with data := pg }) rfl
  | inode ip => exact setInode (f := fun x => { x with data := some pg }) rfl rfl

theorem swapData {s : Kernel} {e : WorksetEntry} (h : (s.swapData e).1 = .ok ()) :
    Calm s (s.swapData e).2 := by
  unfold Kernel.swapData at h ⊢
  split at h
  · cases h
  next d _ => exact (kfree s d).trans (setDataPtr _ _ _)

theorem bget (s : Kernel) (dev blockno : Nat) : Calm s (s.bget dev blockno).2 := by
  unfold Kernel.bget
  split
  · dsimp only
    exact setBuf rfl
  split
  · dsimp only
    exact setBuf rfl
  · exact refl s

theorem brelse (s : Kernel) (b : BufPtr) : Calm s (s.brelse b) := by
  have h : Calm s (s.setBuf b fun x => { x with refcnt := x.refcnt - 1 }) := setBuf rfl
  unfold Kernel.brelse
  dsimp only
  split
  · exact h.trans (rest _ _ _ _ _ _)
  · exact h

theorem logWrite (s : Kernel) (b : BufPtr) : Calm s (s.logWrite b).2 := by
  have h : Calm s (s.bpin b) := setBuf rfl
  unfold Kernel.logWrite
  split
  · exact refl s
  split
  · exact refl s
  split
  · exact refl s
  · exact h.trans (rest _ _ _ _ _ _)

theorem endOp (s : Kernel) : Calm s s.endOp.2 := by
  unfold Kernel.endOp
  dsimp only
  split
  · exact rest s _ _ _ _ _
  split
  · exact rest s _ _ _ _ _
  · exact rest s _ _ _ _ _

end Calm

/-! ## Code that is calm -/
namespace Calm

theorem atomOrPanic {f : Kernel → Except String α × Kernel} (h : ∀ s a, (f s).1 = .ok a → G s (f s).2) :
    Steps G (Txv6.atomOrPanic f) := by
  intro s _
  dsimp only
  split
  next a ha => exact ⟨fun _ => h s a ha, trivial⟩
  next => exact ⟨fun hn => (nomatch hn), trivial⟩

theorem steps_read {f : Kernel → α} : Steps Calm (.read f : K α) := .read refl

theorem steps_kassert (c : Kernel → Bool) (m : String) : Steps Calm (kassert c m) := .check refl

theorem steps_acquiresleep (p : ProcPtr) (h : Header) : Steps Calm (acquiresleep p h) :=
  .await fun s _ => setLock s _ h

theorem steps_releasesleep (h : Header) : Steps Calm (releasesleep h) := .update fun s => setLock s _ h

theorem steps_setBufBytes (b : BufPtr) (f : Block → Block) : Steps Calm (setBufBytes b f) :=
  .update fun _ => setPage _ _ _

theorem steps_bread (p : ProcPtr) (dev blockno : Nat) : Steps Calm (bread p dev blockno) := by
  refine .seq (.seq (.atom fun s => bget s dev blockno) fun o => ?_) fun b => ?_
  · cases o with
    | none => exact .fail _
    | some b => exact .seq (steps_acquiresleep p _) fun _ => .pure _
  · refine .seq steps_read fun valid => .seq (.when ?_) fun _ => .pure _
    refine .seq (.update fun s => setPage _ _ _) fun _ => .update fun s => ?_
    exact setBuf rfl

theorem steps_brelse (p : ProcPtr) (b : BufPtr) : Steps Calm (Txv6.brelse p b) :=
  .seq (steps_kassert _ _) fun _ => .seq (steps_releasesleep _) fun _ => .update fun s => brelse s b

theorem steps_bwrite (p : ProcPtr) (b : BufPtr) : Steps Calm (bwrite p b) :=
  .seq (steps_kassert _ _) fun _ => .update fun s => rest s _ _ _ _ _

theorem steps_bunpin (b : BufPtr) : Steps Calm (bunpin b) := .update fun _ => setBuf rfl

theorem steps_bpin (b : BufPtr) : Steps Calm (bpin b) := .update fun _ => setBuf rfl

theorem steps_installTransLoop (p : ProcPtr) (recovering : Bool) (tail : Nat) (lh : List Nat) :
    Steps Calm (installTransLoop p recovering tail lh) := by
  induction lh generalizing tail with
  | nil => exact .pure _
  | cons dst rest ih =>
    refine .seq steps_read fun start => .seq (steps_bread _ _ _) fun lbuf => ?_
    refine .seq (steps_bread _ _ _) fun dbuf => .seq steps_read fun bytes => ?_
    refine .seq (steps_setBufBytes _ _) fun _ => .seq (steps_bwrite _ _) fun _ => ?_
    refine .seq (.when (steps_bunpin _)) fun _ => ?_
    exact .seq (steps_brelse _ _) fun _ => .seq (steps_brelse _ _) fun _ => ih _

theorem steps_writeLogLoop (p : ProcPtr) (tail : Nat) (lh : List Nat) :
    Steps Calm (writeLogLoop p tail lh) := by
  induction lh generalizing tail with
  | nil => exact .pure _
  | cons blk rest ih =>
    refine .seq steps_read fun start => .seq (steps_bread _ _ _) fun dst => ?_
    refine .seq (steps_bread _ _ _) fun src => .seq steps_read fun bytes => ?_
    refine .seq (steps_setBufBytes _ _) fun _ => .seq (steps_bwrite _ _) fun _ => ?_
    exact .seq (steps_brelse _ _) fun _ => .seq (steps_brelse _ _) fun _ => ih _

theorem steps_writeHead (p : ProcPtr) : Steps Calm (writeHead p) := by
  refine .seq steps_read fun start => .seq (steps_bread _ _ _) fun buf => ?_
  refine .seq steps_read fun lh => .seq (steps_setBufBytes _ _) fun _ => ?_
  exact .seq (steps_bwrite _ _) fun _ => steps_brelse _ _

theorem steps_commit (p : ProcPtr) : Steps Calm (commit p) := by
  refine .seq steps_read fun b => ?_
  split
  · refine .seq (.seq steps_read fun lh => steps_writeLogLoop _ _ _) fun _ => ?_
    refine .seq (steps_writeHead p) fun _ => ?_
    refine .seq (.seq steps_read fun lh => steps_installTransLoop _ _ _ _) fun _ => ?_
    exact .seq (.update fun s => rest s _ _ _ _ _) fun _ => steps_writeHead p
  · exact .pure _

/-- Code that first looks whether the process runs in a transaction. -/
theorem steps_unlessActive {p : ProcPtr} {k : K Unit} (h : Steps Calm k) :
    Steps Calm (do if ← txActive p then return else k) := by
  refine .seq steps_read fun b => ?_
  cases b with
  | true => exact .pure _
  | false => exact h

theorem steps_beginOp (p : ProcPtr) : Steps Calm (beginOp p) :=
  steps_unlessActive (.await fun s _ => rest s _ _ _ _ _)

theorem steps_endOp (p : ProcPtr) : Steps Calm (Txv6.endOp p) := by
  refine steps_unlessActive (.seq (atomOrPanic fun s _ _ => endOp s) fun b => ?_)
  cases b with
  | true => exact .seq (steps_commit p) fun _ => .update fun s => rest s _ _ _ _ _
  | false => exact .pure _

theorem steps_logWrite (p : ProcPtr) (b : BufPtr) : Steps Calm (Txv6.logWrite p b) :=
  steps_unlessActive (atomOrPanic fun s _ _ => logWrite s b)

theorem steps_setBfield (d : Page) (f : Block → Block) : Steps Calm (setBfield d f) :=
  .update fun s => setPage s _ _

theorem steps_setIfield (d : Page) (f : InodeData → InodeData) : Steps Calm (setIfield d f) :=
  .update fun s => setPage s _ _

theorem steps_inodeData (ip : InodePtr) : Steps Calm (inodeData ip) := by
  refine .seq steps_read fun o => ?_
  cases o with
  | none => exact .fail _
  | some d => exact .pure _

theorem steps_iupdate (p : ProcPtr) (ip : InodePtr) : Steps Calm (iupdate p ip) := by
  refine steps_unlessActive ?_
  refine .seq steps_read fun dev => .seq steps_read fun inum => .seq steps_read fun blk => ?_
  refine .seq (steps_bread _ _ _) fun bp => .seq (steps_inodeData ip) fun d => ?_
  refine .seq steps_read fun data => .seq (steps_setBufBytes _ _) fun _ => ?_
  exact .seq (steps_logWrite _ _) fun _ => steps_brelse _ _

theorem steps_iunlock (p : ProcPtr) (ip : InodePtr) : Steps Calm (iunlock p ip) :=
  .seq (steps_kassert _ _) fun _ => steps_releasesleep _

end Calm

/-! ## Code that makes shadow copies -/

/-- A calm step, or a step of `txdata` or `bdata` on the transaction of process `p`. -/
inductive TxCalm (p : ProcPtr) (s : Kernel) : Kernel → Prop
  | calm {t} : Calm s t → TxCalm p s t
  | grant {a x ro pg src rest} : (s.proc p).tx = some a → (s.tx a).status = .active →
      s.MayGrant a x → s.freelist = pg :: rest → s.dataPtr x = some src →
      TxCalm p s (s.grantShadow a x ro pg src rest)
  | mark {b} : TxCalm p s (s.markNew p b)

namespace TxCalm
variable {p : ProcPtr} {s : Kernel}

theorem refl (s : Kernel) : TxCalm p s s := .calm (Calm.refl s)

theorem of_steps (h : Steps Calm m) : Steps (TxCalm p) m :=
  h.mono fun _ _ => .calm

theorem txshadow {a : Page} {x : Header} {ro : Bool}
    (ha : (s.proc p).tx = some a) (hact : (s.tx a).status = .active)
    (h : (s.txshadow a x ro).1 = .ok o) : TxCalm p s (s.txshadow a x ro).2 := by
  have hres := txshadow_result s a x ro
  generalize s.txshadow a x ro = res at hres h ⊢
  cases hres with
  | found _ _ => exact refl s
  | refused _ _ => exact refl s
  | granted hm hf hd => exact .grant ha hact hm hf hd
  | noMemory _ _ => cases h
  | fault _ _ _ => cases h

theorem txdata {x : Header} {ro : Bool} (h : (s.txdata p x ro).1 = .ok o) :
    TxCalm p s (s.txdata p x ro).2 := by
  unfold Kernel.txdata at h ⊢
  split at h
  · exact refl s
  next a ha =>
    by_cases hact : (s.tx a).status = .active
    · rw [if_pos hact] at h ⊢
      exact txshadow ha hact h
    · rw [if_neg hact]
      exact refl s

theorem bdataShadow {b : BufPtr} {r : Page × Bool} (h : (s.bdataShadow p b).1 = .ok r) :
    TxCalm p s (s.bdataShadow p b).2 := by
  unfold Kernel.bdataShadow at h ⊢
  cases ha : (s.proc p).tx with
  | none => exact refl s
  | some a =>
    rw [ha] at h
    dsimp only at h ⊢
    by_cases hact : (s.tx a).status = .active
    · simp only [hact, if_true] at h ⊢
      have key : ∀ {o}, (s.txshadow a (.buf b) false).1 = .ok o →
          TxCalm p s (s.txshadow a (.buf b) false).2 := txshadow ha hact
      generalize s.txshadow a (.buf b) false = res at key h ⊢
      obtain ⟨o, u⟩ := res
      cases o with
      | error m => cases h
      | ok o =>
        cases o with
        | none => cases h
        | some pg => exact key rfl
    · rw [if_neg hact]
      exact refl s

theorem steps_bdata (p : ProcPtr) (b : BufPtr) : Steps (TxCalm p) (bdata p b) := by
  refine .seq (Calm.atomOrPanic fun s r h => bdataShadow h) fun r => ?_
  refine .seq (.when ?_) fun _ => .pure _
  exact .seq (of_steps (Calm.steps_bpin b)) fun _ => .update fun s => .mark

theorem steps_bfree (p : ProcPtr) (dev b : Nat) : Steps (TxCalm p) (bfree p dev b) := by
  refine .seq (.read refl) fun blk => .seq (of_steps (Calm.steps_bread _ _ _)) fun bp => ?_
  refine .seq (steps_bdata p bp) fun d => .seq (.check refl) fun _ => ?_
  refine .seq (steps_bdata p bp) fun d => .seq (of_steps (Calm.steps_setBfield _ _)) fun _ => ?_
  exact of_steps (.seq (Calm.steps_logWrite _ _) fun _ => Calm.steps_brelse _ _)

theorem steps_itruncDirect (p : ProcPtr) (dev : Nat) (d : Page) (active : Bool)
    (slots : List (Fin (ndirect + 1))) : Steps (TxCalm p) (itruncDirect p dev d active slots) := by
  induction slots with
  | nil => exact .pure _
  | cons i rest ih =>
    refine .seq (.read refl) fun a => .seq (.when ?_) fun _ => ih
    exact .seq (.when (steps_bfree _ _ _)) fun _ => of_steps (Calm.steps_setIfield _ _)

theorem steps_itruncIndirect (p : ProcPtr) (dev : Nat) (a : Page) (l : List Nat) :
    Steps (TxCalm p) (itruncIndirect p dev a l) := by
  induction l with
  | nil => exact .pure _
  | cons j rest ih => exact .seq (.read refl) fun x => .seq (.when (steps_bfree _ _ _)) fun _ => ih

/-- `itrunc` after its `idata`. -/
theorem steps_itruncData (p : ProcPtr) (ip : InodePtr) (d : Page) :
    Steps (TxCalm p) (itruncWith (pure d) p ip) := by
  refine .seq (.pure d) fun d => .seq (.read refl) fun active => .seq (.read refl) fun dev => ?_
  refine .seq (steps_itruncDirect _ _ _ _ _) fun _ => .seq (.read refl) fun ind => ?_
  refine .seq (.when (.seq (.when ?_) fun _ => of_steps (Calm.steps_setIfield _ _))) fun _ => ?_
  · refine .seq (of_steps (Calm.steps_bread _ _ _)) fun bp => .seq (steps_bdata _ _) fun a => ?_
    refine .seq (steps_itruncIndirect _ _ _ _) fun _ => ?_
    exact .seq (of_steps (Calm.steps_brelse _ _)) fun _ => steps_bfree _ _ _
  · exact of_steps (.seq (Calm.steps_setIfield _ _) fun _ => Calm.steps_iupdate _ _)

theorem steps_bufAbort (p : ProcPtr) (e : WorksetEntry) (b : BufPtr) : Steps (TxCalm p) (bufAbort p e b) := by
  refine .seq (.when ?_) fun _ => ?_
  · refine .seq (of_steps (Calm.steps_beginOp p)) fun _ => ?_
    refine .seq (.read refl) fun dev => .seq (.read refl) fun blockno => ?_
    exact .seq (steps_bfree _ _ _) fun _ => of_steps (Calm.steps_endOp p)
  · exact of_steps (.seq (.update fun s => Calm.kfree s _) fun _ => Calm.steps_bunpin _)

end TxCalm

/-! ## Code that drops references and aborts -/

/-- A step of `iput`, of an abort hook or of a refused `idata`: it makes shadow copies,
changes an inode but not its owner, or notes an `iput` that is skipped. -/
inductive AbortStep (p : ProcPtr) (s : Kernel) : Kernel → Prop
  | tx {t} : TxCalm p s t → AbortStep p s t
  | inode {ip f} : (f (s.inode ip)).writer = (s.inode ip).writer → AbortStep p s (s.setInode ip f)
  | skip {ip} : AbortStep p s { s with trace := .skippedIput p ip :: s.trace }

/-- A loop over the workset does what its body does. -/
theorem steps_forWorkset (hG : ∀ s, G s s) (p : ProcPtr)
    {f : WorksetEntry → K Unit} (hf : ∀ e, Steps G (f e)) : Steps G (forWorkset p f) := by
  have loop : ∀ fuel i, Steps G (forWorksetFrom p f fuel i) := by
    intro fuel
    induction fuel with
    | zero => exact fun _ => .pure _
    | succ fuel ih =>
      intro i
      refine .seq (.read hG) fun o => ?_
      cases o with
      | none => exact .pure _
      | some e => exact .seq (hf e) fun _ => ih _
  exact .seq (.read hG) fun n => loop _ _

namespace AbortStep
variable {p : ProcPtr} {s : Kernel}

theorem refl (s : Kernel) : AbortStep p s s := .tx (.refl s)

theorem of_calm {t : Kernel} (h : Calm s t) : AbortStep p s t := .tx (.calm h)

theorem of_steps (h : Steps Calm m) : Steps (AbortStep p) m :=
  h.mono fun _ _ => of_calm

theorem of_txSteps (h : Steps (TxCalm p) m) : Steps (AbortStep p) m :=
  h.mono fun _ _ => .tx

theorem steps_read {f : Kernel → α} : Steps (AbortStep p) (.read f : K α) := .read refl

theorem steps_itruncWith (hk : Steps (AbortStep p) k) (ip : InodePtr) :
    Steps (AbortStep p) (itruncWith k p ip) :=
  .seq hk fun d => of_txSteps (TxCalm.steps_itruncData p ip d)

theorem steps_iputWith (hk : Steps (AbortStep p) k) (ip : InodePtr) :
    Steps (AbortStep p) (iputWith k p ip) := by
  refine .seq steps_read fun active => ?_
  cases active with
  | true => exact .seq (.update fun s => .skip) fun _ => .pure _
  | false =>
    refine .seq ?_ fun last => ?_
    · refine fun s _ => ⟨fun _ => ?_, trivial⟩
      dsimp only
      split
      · exact of_calm (Calm.setLock s _ _)
      · exact .inode rfl
    cases last with
    | false => exact .pure _
    | true =>
      refine .seq (steps_itruncWith hk ip) fun _ => ?_
      refine .seq (of_steps (Calm.steps_inodeData ip)) fun d => ?_
      refine .seq (of_steps (Calm.steps_setIfield _ _)) fun _ => ?_
      refine .seq (of_steps (Calm.steps_iupdate _ _)) fun _ => ?_
      refine .seq (.update fun s => .inode rfl) fun _ => ?_
      refine .seq (of_steps (Calm.steps_inodeData ip)) fun d => ?_
      refine .seq (.update fun s => of_calm (Calm.kfree s d)) fun _ => ?_
      refine .seq (.update fun s => .inode rfl) fun _ => ?_
      refine .seq (of_steps (Calm.steps_releasesleep _)) fun _ => ?_
      exact .update fun s => .inode rfl

theorem steps_stableData (p : ProcPtr) (ip : InodePtr) : Steps (AbortStep p) (stableData p ip) := by
  refine .seq (Calm.atomOrPanic fun _ _ h => .tx (TxCalm.txdata h)) fun o => ?_
  cases o with
  | none => exact .fail _
  | some d => exact .pure _

theorem steps_abortFn (p : ProcPtr) (e : WorksetEntry) : Steps (AbortStep p) (abortFn p e) := by
  unfold abortFn
  split
  · exact of_txSteps (TxCalm.steps_bufAbort p e _)
  · refine .seq (.update fun s => of_calm (Calm.kfree s _)) fun _ => ?_
    exact steps_iputWith (steps_stableData _ _) _

theorem steps_runUndo (p : ProcPtr) (l : List UndoOp) : Steps Calm (runUndo p l) := by
  induction l with
  | nil => exact .pure _
  | cons op rest ih =>
    refine .seq ?_ fun _ => ih
    cases op with
    | iunlock ip => exact Calm.steps_iunlock _ _
    | bufUnlock b => exact Calm.steps_releasesleep _
    | nop => exact .pure _

end AbortStep
end Txv6
