import Txv6.Sysfile

/-! # Transaction calls, processes and the system call entry

`systx.c`, the life cycle of a process as far as it touches files and transactions
(`proc.c`), and `syscall()`.
-/
namespace Txv6
open Lib

/-! ## systx.c -/

/-- `sys_txbegin`. It does not look at the current status. -/
def Kernel.txbegin (s : Kernel) (p : ProcPtr) : Except String Int × Kernel :=
  match (s.proc p).tx with
  | none => (.ok (-1), s)
  | some t =>
    let s := s.setTx t fun x =>
      { x with status := .active, workset := [], startTime := s.ticks, retryCount := 0 }
    let (saved, s) :=
      match (s.tx t).savedTf with
      | some pg => (some pg, s)
      | none => s.kalloc
    match saved with
    | none => (.error "kerneltrap", s)
    | some pg =>
      let tf := (s.proc p).trapframe
      let s := (s.setPage pg fun d => { d with tf := tf }).setTx t fun x =>
        { x with savedTf := some pg, kjmpValid := false }
      (.ok 0, { s with trace := .txbegin p :: s.trace })

def sysTxbegin (p : ProcPtr) : K Int := atomOrPanic fun s => s.txbegin p

def Kernel.setTxOf (s : Kernel) (p : ProcPtr) (f : Transaction → Transaction) : Kernel :=
  match (s.proc p).tx with
  | none => s
  | some t => s.setTx t f

def setTxStatus (p : ProcPtr) (st : TxStatus) : K Unit :=
  .update fun s => s.setTxOf p fun x => { x with status := st }

/-- The last assignments of `sys_txcommit` and `sys_txabort`. -/
def Kernel.endTx (s : Kernel) (p : ProcPtr) : Kernel :=
  s.setTxOf p fun x => { x with workset := [], kjmpValid := false }

/-- `kfree(*data_ptr); *data_ptr = e->shadow_data;` -/
def Kernel.swapData (s : Kernel) (e : WorksetEntry) : Except String Unit × Kernel :=
  match s.dataPtr e.header with
  | none => (.error "kfree", s)
  | some d => (.ok (), (s.kfree d).setDataPtr e.shadowData e.header)

def swapData (e : WorksetEntry) : K Unit := atomOrPanic fun s => s.swapData e

def sysTxcommit (p : ProcPtr) : K Int := do
  if !(← txActive p) then return -1
  else
    setTxStatus p .committed
    forWorkset p (lockFn p)
    forWorkset p swapData
    forWorkset p (unlockFn p)
    forWorkset p (commitFn p)
    .update fun s => s.endTx p
    return 0

def sysTxabort (p : ProcPtr) : K Int := do
  if !(← txActive p) then return -1
  else
    setTxStatus p .aborted
    forWorkset p (lockFn p)
    forWorkset p (unlockFn p)
    forWorkset p (abortFn p)
    .update fun s => s.endTx p
    return 0

/-! ## proc.c -/

abbrev nproc : Nat := 64

/-- `allocproc`: an unused slot gets a pid and a transaction from `txalloc`, which is
null when there is no page left. -/
def Kernel.allocproc (s : Kernel) : Option ProcPtr × Kernel :=
  match (List.range nproc).find? fun np => (s.proc np).state == .unused with
  | none => (none, s)
  | some np =>
    let (tx, s) := s.kalloc
    let s := match tx with
      | none => s
      | some t => s.setTx t fun _ => {}
    (some np, { s.setProc np (fun x => { x with state := .used, pid := s.nextpid, tx := tx }) with
      nextpid := s.nextpid + 1 })

/-- `freeproc`, with `txfree`. -/
def Kernel.freeproc (s : Kernel) (np : ProcPtr) : Kernel :=
  let s' := match (s.proc np).tx with
    | none => s
    | some t => s.kfree t
  s'.setProc np fun x => { x with pid := 0, parent := none, state := .unused, tx := none }

def forkFiles (p np : ProcPtr) : List Nat → K Unit
  | [] => return
  | i :: rest => do
    match ← .read fun s => (s.proc p).ofile i with
    | none => forkFiles p np rest
    | some f =>
      filedup f
      .update fun s => s.setOfile np i (some f)
      forkFiles p np rest

/-- `kfork`; `copied` tells whether `uvmcopy` found enough memory. -/
def kfork (p : ProcPtr) (copied : Bool) : K Int := do
  match ← .atom fun s => s.allocproc with
  | none => return -1
  | some np =>
    if !copied then
      .update fun s => s.freeproc np
      return -1
    else
      .update fun s => s.setProc np fun x =>
        { x with umem := (s.proc p).umem, trapframe := { (s.proc p).trapframe with a0 := 0 } }
      forkFiles p np (List.range nofile)
      let cwd ← cwdOf p
      let cwd ← idup cwd
      .update fun s => s.setProc np fun x => { x with cwd := some cwd }
      .update fun s => s.setProc np fun x => { x with parent := some p, state := .runnable }
      let pid ← .read fun s => (s.proc np).pid
      return pid

def closeFiles (p : ProcPtr) : List Nat → K Unit
  | [] => return
  | fd :: rest => do
    match ← .read fun s => (s.proc p).ofile fd with
    | none => closeFiles p rest
    | some f =>
      fileclose p f
      .update fun s => s.setOfile p fd none
      closeFiles p rest

/-- `kexit`, up to the switch into the scheduler. -/
def kexit (p : ProcPtr) : K Unit := do
  closeFiles p (List.range nofile)
  beginOp p
  let cwd ← cwdOf p
  iput p cwd
  endOp p
  .update fun s => s.setProc p fun x => { x with cwd := none }
  .update fun s => s.setProc p fun x => { x with state := .zombie }

/-- `kwait` when it finds the child `np` dead, under `wait_lock` and the child's lock:
returns its pid and frees the slot. Whose child it is (`reparent` included) is left open. -/
def reap (np : ProcPtr) : K Int :=
  .act (fun s => (s.proc np).state == .zombie) (fun s => s.freeproc np)
    fun s => .ret (s.proc np).pid

/-! ## syscall() -/

/-- `ksetjmp`, if it is needed. -/
def Kernel.setjmp (s : Kernel) (p : ProcPtr) : Kernel :=
  if s.txActive p && !(s.txOf p).kjmpValid then
    s.setTxOf p fun x => { x with kjmpValid := true }
  else s

/-- The branch of `syscall()` that `klongjmp` reaches. -/
def Kernel.longjmp (s : Kernel) (p : ProcPtr) : Kernel :=
  let saved := match (s.txOf p).savedTf with
    | none => (s.proc p).trapframe
    | some pg => (s.heap pg).tf
  s.setProc p fun x => { x with trapframe := { saved with a0 := -1 } }

/-- `syscall()` around the function of one call. The result is what user code finds in
`a0`, and whether it came back through `klongjmp`. -/
def syscall (p : ProcPtr) (body : K Int) : K (Int × Option Site) := do
  .update fun s => s.setjmp p
  Prog.handle
    (do
      let r ← body
      .update fun s => s.setProc p fun x => { x with trapframe := { x.trapframe with a0 := r } }
      return (r, none))
    fun
      | .panic m => kpanic m
      | .jump c => do
        .update fun s => s.longjmp p
        return (-1, some c)

end Txv6
