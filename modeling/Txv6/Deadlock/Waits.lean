import Txv6.System
import Txv6.Workset

/-! # Processes that wait for each other

The lock loops of `sys_txcommit` and `sys_txabort` beside operations on inodes under `ilock`.
`acquiresleep` is one step, enabled while the lock is free; a process whose next step is an
`acquiresleep` of a lock that is taken waits for the process that holds it.
-/
namespace Txv6
open Lib Relation

/-- What a process of this system may run. -/
inductive LockOp where
  | txbegin
  | txcommit
  | txabort
  | readi (ip : InodePtr) (dst : Dst) (off n : Nat)
  | writei (ip : InodePtr) (src : Src) (off n : Nat)
  | itrunc (ip : InodePtr)
  | dirlookup (dp : InodePtr) (name : Name)

/-- `sys_txcommit` up to the end of its unlock loop. -/
def commitLoops (p : ProcPtr) : K Unit := do
  if !(← txActive p) then return
  else
    setTxStatus p .committed
    forWorkset p (lockFn p)
    forWorkset p swapData
    forWorkset p (unlockFn p)

/-- `sys_txabort` up to the end of its unlock loop. -/
def abortLoops (p : ProcPtr) : K Unit := do
  if !(← txActive p) then return
  else
    setTxStatus p .aborted
    forWorkset p (lockFn p)
    forWorkset p (unlockFn p)

/-- `ilock(ip)`, some work on the inode, `iunlock(ip)`. -/
def underIlock {α : Type} (p : ProcPtr) (ip : InodePtr) (work : K α) : K Unit := do
  ilock p ip
  let _ ← work
  iunlock p ip

def LockOp.prog (p : ProcPtr) : LockOp → K Unit
  | .txbegin => do
    let _ ← sysTxbegin p
  | .txcommit => commitLoops p
  | .txabort => abortLoops p
  | .readi ip dst off n => underIlock p ip (Txv6.readi p ip dst off n)
  | .writei ip src off n => underIlock p ip (Txv6.writei p ip src off n)
  | .itrunc ip => underIlock p ip (Txv6.itrunc p ip)
  | .dirlookup dp name => underIlock p dp (Txv6.dirlookup p dp name)

def lockSystem : Machine ProcPtr LockOp Kernel Err Unit where
  prog p c := c.prog p
  ready p s := p < nproc ∧ (s.proc p).state = .runnable
  user _ s t := t = s

abbrev LockSys := Pool ProcPtr Kernel Err Unit

/-! ## Waiting -/

/-- The next step of process `p` is `acquiresleep` of `h`. -/
def AtLock (c : LockSys) (p : ProcPtr) (h : Header) : Prop :=
  ∃ k : Unit → K Unit, c.run p = some (acquiresleep p h >>= k)

/-- A workset with a buffer in it has nothing else in it. -/
def BufAlone (ws : List WorksetEntry) : Prop := ∀ b, InWorkset ws (.buf b) → ws.length ≤ 1

/-- No `idata` would be refused: an inode that a process has locked inside its transaction
is in the workset or can become part of it. -/
def Kernel.Unrefused (s : Kernel) : Prop :=
  ∀ p t ip, (s.proc p).tx = some t → (s.tx t).status = .active →
    s.holdingsleep p (.inode ip) = true →
      InWorkset (s.tx t).workset (.inode ip) ∨ s.MayGrant t (.inode ip)

/-- The buffer is that of a block of the free map. -/
def Kernel.OnBitmap (s : Kernel) (b : BufPtr) : Prop :=
  ∃ blk < s.sb.size, (s.buf b).blockno = s.sb.bblock blk

/-- Where process `p` comes to lock a buffer `b` with a buffer `x` locked already, `x` is not
that of the free map, as an indirect block is not, and `b` is that of the free map or nobody
has it, as nobody has a block that `balloc` has just handed out. -/
def SoundAsk (c : LockSys) (p : ProcPtr) : Prop :=
  ∀ b x, AtLock c p (.buf b) → c.state.holdingsleep p (.buf x) = true →
    ¬ c.state.OnBitmap x ∧ (c.state.OnBitmap b ∨ (c.state.buf b).lock.locked = false)

/-- What is asked of the calls and of the states in which steps are taken. -/
def OrderOk : Label ProcPtr LockOp Err Unit → Kernel → Kernel → Prop
  | .call p .txcommit, s, _ => s.txActive p = true → BufAlone (s.txOf p).workset
  | .call p .txabort, s, _ => s.txActive p = true → BufAlone (s.txOf p).workset
  | .act _, s, _ => s.Unrefused
  | _, _, _ => True

/-- A step of the system that is `OrderOk` and after which what the process asks for next is
a `SoundAsk`. -/
def OrderStep (c c' : LockSys) : Prop :=
  ∃ l, lockSystem.Step l c c' ∧ OrderOk l c.state c'.state ∧
    ∀ p, (l = .act p ∨ ∃ k, l = .call p k) → SoundAsk c' p

end Txv6
