import Txv6.Kernel
import Txv6.Lib.Parallel
import Txv6.Lib.Ring
import Txv6.Lib.Rounds

/-! # Pipes

`pipe.c`, with any number of threads inside one pipe. The spin lock of the pipe is part of the
state, since `sleep` gives it up in the middle of a call; user memory is what `copyin` finds at
each offset of the source, and whether `copyout` succeeds at each offset of the destination.

Beside the state of the source a history is kept: the bytes that were ever put into the ring
and taken out of it, what each call has put and taken, and the calls that have returned.
-/
namespace Txv6
open Lib

abbrev pipesize : Nat := 512

/-- `struct pipe`. -/
structure Pipe extends Ring UChar 32 where
  readopen : Bool := true
  writeopen : Bool := true

namespace Pipe

/-- `pi->nread == pi->nwrite`. -/
def empty (pi : Pipe) : Bool := pi.nread == pi.nwrite

/-- `pi->nwrite == pi->nread + PIPESIZE`. -/
def full (pi : Pipe) : Bool := pi.nwrite == pi.nread + BitVec.ofNat 32 pipesize

/-- `pi->data[pi->nwrite++ % PIPESIZE] = ch`. -/
def push (pi : Pipe) (ch : UChar) : Pipe := { pi with toRing := pi.toRing.put pipesize ch }

/-- `pi->data[pi->nread % PIPESIZE]`. -/
def front (pi : Pipe) : UChar := pi.data (pi.nread.toNat % pipesize)

/-- `pi->nread++`. -/
def drop (pi : Pipe) : Pipe := { pi with toRing := pi.toRing.pop }

end Pipe

/-- What a thread sleeps on. -/
inductive PipeChan where
  | nread | nwrite
  deriving DecidableEq, Repr

/-- The calls, with what `copyin` and `copyout` do at each offset of the user's buffer. -/
inductive PipeCall (ι : Type) where
  | write (src : Nat → Option UChar) (n : Int) (fuel : Nat)
  | read (ok : Nat → Bool) (n : Int) (fuel : Nat)
  | close (writable : Bool)
  | kill (i : ι)

/-- A call that has returned. -/
structure PipeRet (ι : Type) where
  call : PipeCall ι
  result : Int
  /-- The bytes that it put into the ring and that it took out. -/
  put : List UChar
  got : List UChar
  /-- How many bytes had been taken out before its first one. -/
  first : Nat
  /-- The user's buffer. -/
  dst : Nat → UChar
  /-- The pipe when the call released its lock. -/
  left : Pipe

structure PipeSys (ι : Type) where
  pipe : Pipe
  /-- The page of the pipe has been given back. -/
  freed : Bool := false
  lock : Option ι := none
  /-- What a thread is asleep on. -/
  chan : ι → Option PipeChan := fun _ => none
  killed : ι → Bool := fun _ => false
  /-- The buffers that `copyout` writes to. -/
  umem : ι → Nat → UChar
  accepted : List UChar := []
  consumed : List UChar := []
  put : ι → List UChar := fun _ => []
  got : ι → List UChar := fun _ => []
  first : ι → Nat := fun _ => 0
  rets : List (PipeRet ι) := []

abbrev PipeM (ι : Type) := Prog (PipeSys ι) Err

namespace PipeSys
variable {ι : Type} [DecidableEq ι]

/-- Have the lock; what is taken from now on comes behind what was taken so far. -/
def acquire (s : PipeSys ι) (i : ι) : PipeSys ι :=
  { s with lock := some i, first := Function.update s.first i s.consumed.length }

/-- The first `acquire` of a call. -/
def enter (s : PipeSys ι) (i : ι) : PipeSys ι :=
  { s.acquire i with put := Function.update s.put i [], got := Function.update s.got i [] }

def wakeup (s : PipeSys ι) (ch : PipeChan) : PipeSys ι :=
  { s with chan := fun i => if s.chan i = some ch then none else s.chan i }

def fallAsleep (s : PipeSys ι) (i : ι) (ch : PipeChan) : PipeSys ι :=
  { s with lock := none, chan := Function.update s.chan i (some ch) }

def accept (s : PipeSys ι) (i : ι) (ch : UChar) : PipeSys ι :=
  { s with
    pipe := s.pipe.push ch
    accepted := s.accepted ++ [ch]
    put := Function.update s.put i (s.put i ++ [ch]) }

/-- `copyout(pr->pagetable, addr + k, &ch, 1)`. -/
def copyout (s : PipeSys ι) (i : ι) (k : Nat) (ch : UChar) : PipeSys ι :=
  { s with umem := Function.update s.umem i (Function.update (s.umem i) k ch) }

def consume (s : PipeSys ι) (i : ι) (ch : UChar) : PipeSys ι :=
  { s with
    pipe := s.pipe.drop
    consumed := s.consumed ++ [ch]
    got := Function.update s.got i (s.got i ++ [ch]) }

/-- The last release of a call. -/
def leave (s : PipeSys ι) (i : ι) (call : PipeCall ι) (r : Int) : PipeSys ι :=
  { s with
    lock := none
    rets := ⟨call, r, s.put i, s.got i, s.first i, s.umem i, s.pipe⟩ :: s.rets }

def kill (s : PipeSys ι) (i : ι) : PipeSys ι :=
  { s with killed := Function.update s.killed i true, chan := Function.update s.chan i none }

end PipeSys

section
variable {ι : Type} [DecidableEq ι]

def pipeEnter (i : ι) : PipeM ι Unit := .await (fun s => s.lock.isNone) fun s => s.enter i

def pipeWakeup (ch : PipeChan) : PipeM ι Unit := .update fun s => s.wakeup ch

/-- `sleep(chan, &pi->lock)`. -/
def pipeSleep (i : ι) (ch : PipeChan) : PipeM ι Unit := do
  .update fun s => s.fallAsleep i ch
  .await (fun s => (s.chan i).isNone) id
  .await (fun s => s.lock.isNone) fun s => s.acquire i

def stalled : Err := .panic "out of rounds"

/-- One round of the loop of `pipewrite`, with `k` bytes written. -/
def pipewriteRound (i : ι) (src : Nat → Option UChar) (n : Int) (k : Nat) : PipeM ι (Nat ⊕ Int) := do
  if (k : Int) < n then
    if ← .read fun s => !s.pipe.readopen || s.killed i then return .inr (-1)
    else if ← .read fun s => s.pipe.full then
      pipeWakeup .nread
      pipeSleep i .nwrite
      return .inl k
    else
      match src k with
      | none =>
        pipeWakeup .nread
        return .inr k
      | some ch =>
        .update fun s => s.accept i ch
        return .inl (k + 1)
  else
    pipeWakeup .nread
    return .inr k

def pipewrite (i : ι) (src : Nat → Option UChar) (n : Int) (fuel : Nat) : PipeM ι Int := do
  pipeEnter i
  let r ← .rounds stalled (pipewriteRound i src n) fuel 0
  .update fun s => s.leave i (.write src n fuel) r
  return r

/-- One round of the loop of `piperead` that waits for a byte: whether there is something to
do, or the thread has been killed. -/
def pipereadRound (i : ι) (_ : Unit) : PipeM ι (Unit ⊕ Bool) := do
  if ← .read fun s => s.pipe.empty && s.pipe.writeopen then
    if ← .read fun s => s.killed i then return .inr false
    else
      pipeSleep i .nread
      return .inl ()
  else return .inr true

/-- The `for` loop of `piperead`: so many bytes to go, with `k` bytes read. -/
def pipereadLoop (i : ι) (ok : Nat → Bool) : Nat → Nat → PipeM ι Int
  | 0, k => return k
  | m + 1, k => do
    if ← .read fun s => s.pipe.empty then return k
    else
      let ch ← .read fun s => s.pipe.front
      if ok k then
        .update fun s => s.copyout i k ch
        .update fun s => s.consume i ch
        pipereadLoop i ok m (k + 1)
      else return if k = 0 then -1 else k

/-- `piperead` once it has stopped waiting. -/
def pipereadCopy (i : ι) (ok : Nat → Bool) (n : Int) (go : Bool) : PipeM ι Int := do
  if go then
    let r ← pipereadLoop i ok n.toNat 0
    pipeWakeup .nwrite
    return r
  else return -1

def piperead (i : ι) (ok : Nat → Bool) (n : Int) (fuel : Nat) : PipeM ι Int := do
  pipeEnter i
  let go ← .rounds stalled (pipereadRound i) fuel ()
  let r ← pipereadCopy i ok n go
  .update fun s => s.leave i (.read ok n fuel) r
  return r

/-- The end that `pipeclose` closes. -/
def pipeShut (writable : Bool) : PipeM ι Unit :=
  if writable then do
    .update fun s => { s with pipe := { s.pipe with writeopen := false } }
    pipeWakeup .nread
  else do
    .update fun s => { s with pipe := { s.pipe with readopen := false } }
    pipeWakeup .nwrite

def pipeclose (i : ι) (writable : Bool) : PipeM ι Unit := do
  pipeEnter i
  pipeShut writable
  if ← .read fun s => !s.pipe.readopen && !s.pipe.writeopen then
    .update fun s => { s with lock := none }
    .update fun s => { s with freed := true }
  else .update fun s => { s with lock := none }

def PipeCall.prog (i : ι) : PipeCall ι → PipeM ι Int
  | .write src n fuel => pipewrite i src n fuel
  | .read ok n fuel => piperead i ok n fuel
  | .close writable => do
    pipeclose i writable
    return 0
  | .kill j => do
    .update fun s => s.kill j
    return 0

/-- Threads inside one pipe. -/
def pipeSystem (ι : Type) [DecidableEq ι] : Machine ι (PipeCall ι) (PipeSys ι) Err Int where
  prog i c := c.prog i
  ready _ _ := True
  user _ _ _ := False

/-- The pipe that `pipealloc` makes, in a page with anything in it. -/
def pipealloc (data : Nat → UChar) (umem : ι → Nat → UChar) : PipeSys ι where
  pipe := { data := data, nread := 0, nwrite := 0 }
  umem := umem

/-- The file table closes an end of a pipe with its last descriptor, so nobody is inside the
pipe when its page is given back. -/
def PipeAlive : Label ι (PipeCall ι) Err Int → PipeSys ι → PipeSys ι → Prop
  | .act _, s, _ => s.freed = false
  | _, _, _ => True

end
end Txv6
