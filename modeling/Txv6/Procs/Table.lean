import Txv6.Systx
import Txv6.Lib.Parallel
import Txv6.Lib.Rounds

/-! # The process table

`proc.c` as far as it decides when a process starts, sleeps, dies and is reaped. A critical
section under a `p->lock` is one step; `wait_lock` is part of the state, since it is held over
many of them. The steps of a process are taken while it is running; the processors make
runnable processes run and take the processor away from running ones.

Beside the state of the source a trace is kept of the processes that are created, killed, exit
and are reaped.
-/
namespace Txv6.Procs
open Lib

abbrev Slot := Fin nproc
/-- An `int` that counts up and wraps. -/
abbrev Pid := BitVec 32

inductive State where
  | unused | used | sleeping | runnable | running | zombie
  deriving DecidableEq, Repr

/-- The addresses that processes sleep on: a process, or something else. -/
inductive Chan where
  | proc (p : Slot)
  | other (n : Nat)
  deriving DecidableEq, Repr

/-- `struct proc`. -/
structure Proc where
  state : State := .unused
  chan : Option Chan := none
  killed : Bool := false
  xstate : Int := 0
  pid : Pid := 0
  parent : Option Slot := none

inductive Event where
  /-- `allocproc`, called by `p`, has taken slot `np`, whose `killed` it has left as it was. -/
  | alloc (np p : Slot) (pid : Pid) (killed : Bool)
  /-- `kfork` has given the slot back, for want of memory. -/
  | undo (np : Slot)
  | exit (p : Slot) (pid : Pid) (status : Int)
  /-- `kwait`, called by `p`, has freed slot `pp` and returned the pid; `status` is what it
  has copied out, if it was asked to. -/
  | reap (pp p : Slot) (pid : Pid) (status : Option Int)
  /-- `kkill` has set `killed` of a slot in state `state`. -/
  | kill (pid : Pid) (q : Slot) (state : State)
  deriving DecidableEq, Repr

structure Table where
  proc : Slot → Proc
  waitLock : Option Slot := none
  nextpid : Pid
  trace : List Event := []

def initproc : Slot := 0

namespace Table

def set (s : Table) (p : Slot) (f : Proc → Proc) : Table :=
  { s with proc := Function.update s.proc p (f (s.proc p)) }

def note (s : Table) (e : Event) : Table := { s with trace := e :: s.trace }

def freeproc (s : Table) (p : Slot) : Table :=
  s.set p fun x => { x with pid := 0, parent := none, chan := none, killed := false, xstate := 0, state := .unused }

/-- The end of `allocproc`, and what follows in `kfork` until it releases `np->lock`. `ok` tells
whether there was memory for all of it. -/
def create (s : Table) (p np : Slot) (ok : Bool) : Table :=
  let s' := { s.set np (fun x => { x with pid := s.nextpid, state := .used }) with nextpid := s.nextpid + 1 }
  let s' := s'.note (.alloc np p s.nextpid (s.proc np).killed)
  if ok then s' else (s'.freeproc np).note (.undo np)

/-- `if(p->state == SLEEPING && p->chan == chan) p->state = RUNNABLE`. -/
def wake (s : Table) (q : Slot) (ch : Option Chan) : Table :=
  if (s.proc q).state = .sleeping ∧ (s.proc q).chan = ch then s.set q fun x => { x with state := .runnable }
  else s

/-- The critical section of `sleep`, without the condition lock. -/
def fallAsleep (s : Table) (p : Slot) (ch : Chan) : Table :=
  s.set p fun x => { x with chan := some ch, state := .sleeping }

/-- The last critical section of `kexit`. -/
def die (s : Table) (p : Slot) (status : Int) : Table :=
  { s.set p (fun x => { x with xstate := status, state := .zombie }) with waitLock := none }.note
    (.exit p (s.proc p).pid status)

/-- The critical section of `kwait` under `pp->lock`: what `kwait` returns, if the child is dead.
`addr` tells whether the status is wanted and `ok` whether `copyout` succeeds. -/
def tryReap (s : Table) (p pp : Slot) (addr ok : Bool) : Option Int × Table :=
  if (s.proc pp).state = .zombie then
    if addr && !ok then (some (-1), s)
    else (some (s.proc pp).pid.toInt, (s.freeproc pp).note
      (.reap pp p (s.proc pp).pid (if addr then some (s.proc pp).xstate else none)))
  else (none, s)

/-- The critical section of `kkill`: whether this was the process. -/
def kill (s : Table) (pid : Pid) (q : Slot) : Bool × Table :=
  if (s.proc q).pid = pid then
    (true, (s.set q fun x =>
      { x with killed := true, state := if x.state = .sleeping then .runnable else x.state }).note
        (.kill pid q (s.proc q).state))
  else (false, s)

end Table

/-! ## Code -/

abbrev PM := Prog Table Err

/-- A step of the code of process `p`. -/
def step {α : Type} (p : Slot) (en : Table → Bool) (f : Table → α × Table) : PM α :=
  .act (fun s => (s.proc p).state == .running && en s) (fun s => (f s).2) fun s => .ret (f s).1

def get {α : Type} (p : Slot) (f : Table → α) : PM α := step p (fun _ => true) fun s => (f s, s)

def modify (p : Slot) (f : Table → Table) : PM Unit := step p (fun _ => true) fun s => ((), f s)

/-- All of `proc[]`. -/
def slots : List Slot := List.finRange nproc

def acquireWait (p : Slot) : PM Unit :=
  step p (fun s => s.waitLock.isNone) fun s => ((), { s with waitLock := some p })

def releaseWait (p : Slot) : PM Unit := modify p fun s => { s with waitLock := none }

def wakeup (p : Slot) (ch : Option Chan) : List Slot → PM Unit
  | [] => return
  | q :: rest => do
    Prog.when (decide (q ≠ p)) (modify p fun s => s.wake q ch)
    wakeup p ch rest

/-- `sleep(p, &wait_lock)`. -/
def sleepWait (p : Slot) : PM Unit := do
  modify p fun s => { s.fallAsleep p (.proc p) with waitLock := none }
  modify p fun s => s.set p fun x => { x with chan := none }
  acquireWait p

/-- `sleep(chan, lk)` with a lock of another part of the kernel. -/
def sleepOn (p : Slot) (n : Nat) : PM Unit := do
  modify p fun s => s.fallAsleep p (.other n)
  modify p fun s => s.set p fun x => { x with chan := none }

def allocproc (p : Slot) (ok : Bool) : List Slot → PM (Option (Slot × Pid))
  | [] => return none
  | np :: rest => do
    match ← step p (fun _ => true) fun s =>
        if (s.proc np).state = .unused then (some s.nextpid, s.create p np ok) else (none, s) with
    | some pid => return if ok then some (np, pid) else none
    | none => allocproc p ok rest

def kfork (p : Slot) (ok : Bool) : PM Int := do
  match ← allocproc p ok slots with
  | none => return -1
  | some (np, pid) =>
    step p (fun s => s.waitLock.isNone) fun s => ((), s.set np fun x => { x with parent := some p })
    modify p fun s => s.set np fun x => { x with state := .runnable }
    return pid.toInt

/-- Pass p's abandoned children to init. -/
def reparent (p : Slot) : List Slot → PM Unit
  | [] => return
  | pp :: rest => do
    let mine ← get p fun s => (s.proc pp).parent == some p
    Prog.when mine do
      modify p fun s => s.set pp fun x => { x with parent := some initproc }
      wakeup p (some (.proc initproc)) slots
    reparent p rest

/-- `kexit`, once the files and the directory are closed. -/
def kexit (p : Slot) (status : Int) : PM Int :=
  if p = initproc then .fail (.panic "init exiting")
  else do
    acquireWait p
    reparent p slots
    let parent ← get p fun s => (s.proc p).parent
    wakeup p (parent.map .proc) slots
    modify p fun s => s.die p status
    return 0

/-- The scan of `kwait`: its result, or whether there are children. -/
def waitScan (p : Slot) (addr ok : Bool) : List Slot → Bool → PM (Bool ⊕ Int)
  | [], havekids => return .inl havekids
  | pp :: rest, havekids => do
    if ← get p fun s => (s.proc pp).parent == some p then
      match ← step p (fun _ => true) fun s => s.tryReap p pp addr ok with
      | some r => return .inr r
      | none => waitScan p addr ok rest true
    else waitScan p addr ok rest havekids

def kwaitRound (p : Slot) (addr ok : Bool) (_ : Unit) : PM (Unit ⊕ Int) := do
  match ← waitScan p addr ok slots false with
  | .inr r =>
    releaseWait p
    return .inr r
  | .inl havekids =>
    let dead ← get p fun s => (s.proc p).killed
    if !havekids || dead then
      releaseWait p
      return .inr (-1)
    else
      sleepWait p
      return .inl ()

def kwait (p : Slot) (addr ok : Bool) (fuel : Nat) : PM Int := do
  acquireWait p
  .rounds (.panic "out of rounds") (kwaitRound p addr ok) fuel ()

def kkill (p : Slot) (pid : Pid) : List Slot → PM Int
  | [] => return -1
  | q :: rest => do
    if ← step p (fun _ => true) fun s => s.kill pid q then return 0
    else kkill p pid rest

/-- What `usertrap` does with a process that has made a mistake. -/
def setkilled (p : Slot) : PM Unit := modify p fun s => s.set p fun x => { x with killed := true }

/-! ## The system -/

inductive Thread where
  | proc (p : Slot)
  | cpu (n : Nat)
  deriving DecidableEq, Repr

inductive Call where
  | fork (ok : Bool)
  | exit (status : Int)
  | wait (addr ok : Bool) (fuel : Nat)
  | kill (pid : Pid)
  | fault
  | sleep (n : Nat)
  | wakeup (n : Nat)
  /-- `scheduler` chooses a process. -/
  | run (q : Slot)
  /-- A timer interrupt takes the processor away from a process that holds no spin lock. -/
  | preempt (q : Slot)

def Call.prog : Thread → Call → PM Int
  | .proc p, .fork ok => kfork p ok
  | .proc p, .exit status => kexit p status
  | .proc p, .wait addr ok fuel => kwait p addr ok fuel
  | .proc p, .kill pid => kkill p pid slots
  | .proc p, .fault => do
    setkilled p
    return 0
  | .proc p, .sleep n => do
    sleepOn p n
    return 0
  | .proc p, .wakeup n => do
    Procs.wakeup p (some (.other n)) slots
    return 0
  | .cpu _, .run q => do
    .await (fun s => (s.proc q).state == .runnable) fun s => s.set q fun x => { x with state := .running }
    return 0
  | .cpu _, .preempt q => do
    .await (fun s => (s.proc q).state == .running && decide (s.waitLock ≠ some q)) fun s =>
      s.set q fun x => { x with state := .runnable }
    return 0
  | _, _ => return 0

abbrev Sys := Pool Thread Table Err Int

/-- The table after `userinit`. -/
def booted : Table where
  proc := Function.update (fun _ => {}) initproc { state := .runnable, pid := 1 }
  nextpid := 2

end Txv6.Procs
