import Txv6.Systx
import Txv6.Lib.Parallel

/-! # The running system

Any number of processes make system calls; the atomic steps of the calls come in any order.
Between two calls a process does what it likes with its own memory and registers.
-/
namespace Txv6
open Lib

/-- The calls that touch files, transactions or processes. -/
inductive Call where
  | fs (c : FsCall)
  | txbegin
  | txcommit
  | txabort
  | fork (copied : Bool)
  | exit
  | wait (np : ProcPtr)

/-- What `syscall()` runs for a call. `kexit` does not come back. -/
def Call.prog (p : ProcPtr) : Call → K (Int × Option Site)
  | .fs c => syscall p (c.body p)
  | .txbegin => syscall p (sysTxbegin p)
  | .txcommit => syscall p (sysTxcommit p)
  | .txabort => syscall p (sysTxabort p)
  | .fork copied => syscall p (kfork p copied)
  | .wait np => syscall p (reap np)
  | .exit => do
    .update fun s => s.setjmp p
    kexit p
    return (0, none)

def system : Machine ProcPtr Call Kernel Err (Int × Option Site) where
  prog p c := c.prog p
  ready p s := p < nproc ∧ (s.proc p).state = .runnable
  user p s t := ∃ m tf, t = s.setProc p fun x => { x with umem := m, trapframe := tf }

abbrev Sys := Pool ProcPtr Kernel Err (Int × Option Site)

/-- No process is inside a call. -/
def Lib.Pool.Idle (c : Sys) : Prop := ∀ p, c.run p = none

end Txv6
