import Txv6.Frame
import Txv6.Lib.Ownership
import Txv6.Lib.Separation

/-! # The transaction layer as a system of its own

Processes that begin, shadow, write, commit, abort, exit and are created, in any order.
A step is one call of the functions of `Txv6.Tx` and `Txv6.Systx` on the kernel's state:
a commit takes one step for every object it swaps, an abort one for every shadow it
frees. Beside the kernel's state a world records where in `sys_txcommit` or
`sys_txabort` a process is, what the running transactions found in the objects they
touched, and the transactions that have committed.
-/
namespace Txv6
open Lib Txv6.Lib.Ownership

/-- The data of an object. -/
inductive Payload where
  | block (b : Block)
  | inode (d : InodeData)

/-- What a page holds as the data of an object. -/
def PageData.payload (d : PageData) : Header → Payload
  | .buf _ => .block d.bytes
  | .inode _ => .inode d.ino

/-- The stable data of an object, if it has a page. -/
def Kernel.stable (s : Kernel) (h : Header) : Option Payload :=
  (s.dataPtr h).map fun pg => (s.heap pg).payload h

/-- The entry of an object. -/
def entryOf (ws : List WorksetEntry) (h : Header) : Option WorksetEntry :=
  ws.find? fun e => e.header = h

/-- The shadow copies that some workset entries point to. -/
def Kernel.shadows (s : Kernel) (ws : List WorksetEntry) (h : Header) : Option (Option Payload) :=
  (entryOf ws h).map fun e => some ((s.heap e.shadowData).payload h)

/-- A write to the shadow copy of an entry. -/
def Kernel.writeShadow (s : Kernel) (e : WorksetEntry) (f : InodeData → InodeData)
    (g : Block → Block) : Kernel :=
  s.setPage e.shadowData fun d =>
    match e.header with
    | .buf _ => { d with bytes := g d.bytes }
    | .inode _ => { d with ino := f d.ino }

/-- Where a process is: in its own code, or in the loop over the workset that
`sys_txcommit` or `sys_txabort` has. -/
inductive Phase where
  | user
  | swapping (i : Nat)
  | freeing (i : Nat)
  deriving DecidableEq

structure TxWorld where
  k : Kernel
  phase : ProcPtr → Phase
  /-- What the running transaction of a process found in an object. -/
  first : ProcPtr → Header → Option (Option Payload)
  hist : List (Commit Header (Option Payload))

namespace TxWorld

/-- The entries whose shadow pages belong to the process. -/
def entries (w : TxWorld) (p : ProcPtr) : List WorksetEntry :=
  match w.phase p with
  | .user => if w.k.txActive p then (w.k.txOf p).workset else []
  | .swapping i => (w.k.txOf p).workset.drop i
  | .freeing i => (w.k.txOf p).workset.drop i

/-- The copies of a transaction that has not committed. -/
def work (w : TxWorld) (p : ProcPtr) : Header → Option (Option Payload) :=
  match w.phase p with
  | .user => w.k.shadows (w.entries p)
  | .swapping 0 => w.k.shadows (w.entries p)
  | _ => fun _ => none

/-- The copies that a commit has still to install. -/
def pend (w : TxWorld) (p : ProcPtr) : Header → Option (Option Payload) :=
  match w.phase p with
  | .swapping (_ + 1) => w.k.shadows (w.entries p)
  | _ => fun _ => none

/-- The first access to an object, if this is one. -/
def firstAfter (w : TxWorld) (p : ProcPtr) (h : Header) (o : Option Page) :
    Header → Option (Option Payload) :=
  if w.first p h = none ∧ o ≠ none then Function.update (w.first p) h (some (w.k.stable h))
  else w.first p

/-- The record of a commit, which is made with its first swap. -/
def histAfter (w : TxWorld) (p : ProcPtr) (i : Nat) : List (Commit Header (Option Payload)) :=
  if i = 0 then w.hist ++ [⟨w.first p, w.work p⟩] else w.hist

def setPhase (w : TxWorld) (p : ProcPtr) (ph : Phase) : ProcPtr → Phase :=
  Function.update w.phase p ph

def clearFirst (w : TxWorld) (p : ProcPtr) : ProcPtr → Header → Option (Option Payload) :=
  Function.update w.first p fun _ => none

inductive Step : TxWorld → TxWorld → Prop
  /-- `sys_txbegin`, in whatever status the transaction is. -/
  | begin {w p k} : w.phase p = .user → w.k.txbegin p = (.ok 0, k) →
      Step w { w with k := k, first := w.clearFirst p }
  /-- `txshadow`, granted or refused. -/
  | shadow {w p h readOnly o k} : w.phase p = .user → w.k.txActive p = true →
      w.k.txdata p h readOnly = (.ok o, k) →
      Step w { w with k := k, first := Function.update w.first p (w.firstAfter p h o) }
  | write {w p e} (f : InodeData → InodeData) (g : Block → Block) : w.phase p = .user →
      w.k.txActive p = true → e ∈ (w.k.txOf p).workset →
      Step w { w with k := w.k.writeShadow e f g }
  /-- `sys_txcommit` up to its loops. -/
  | commit {w p} : w.phase p = .user → w.k.txActive p = true →
      Step w { w with
        k := w.k.setTxOf p fun x => { x with status := .committed }
        phase := w.setPhase p (.swapping 0) }
  | swap {w p i e k} : w.phase p = .swapping i → (w.k.txOf p).workset[i]? = some e →
      w.k.swapData e = (.ok (), k) →
      Step w {
        k := k
        phase := w.setPhase p (.swapping (i + 1))
        first := w.clearFirst p
        hist := w.histAfter p i }
  | commitEnd {w p i} : w.phase p = .swapping i → (w.k.txOf p).workset[i]? = none →
      Step w {
        k := w.k.endTx p
        phase := w.setPhase p .user
        first := w.clearFirst p
        hist := w.histAfter p i }
  /-- `sys_txabort` up to its loops. -/
  | abort {w p} : w.phase p = .user → w.k.txActive p = true →
      Step w { w with
        k := w.k.setTxOf p fun x => { x with status := .aborted }
        phase := w.setPhase p (.freeing 0)
        first := w.clearFirst p }
  | free {w p i e} : w.phase p = .freeing i → (w.k.txOf p).workset[i]? = some e →
      Step w { w with k := w.k.kfree e.shadowData, phase := w.setPhase p (.freeing (i + 1)) }
  | abortEnd {w p i} : w.phase p = .freeing i → (w.k.txOf p).workset[i]? = none →
      Step w { w with k := w.k.endTx p, phase := w.setPhase p .user }
  /-- The process is gone and its slot and transaction page are free. -/
  | exit {w p} : w.phase p = .user →
      Step w { w with k := w.k.freeproc p, first := w.clearFirst p }
  /-- A new process, with any free page for its transaction. -/
  | alloc {w p k} : w.k.allocproc = (some p, k) →
      Step w { w with k := k, first := w.clearFirst p }

/-! ## Who holds which page -/

inductive Role where
  | data (h : Header)
  | tx (p : ProcPtr)
  | saved (p : ProcPtr)
  | shadow (p : ProcPtr) (h : Header)

def holds (w : TxWorld) : Role → Option Page
  | .data h => w.k.dataPtr h
  | .tx p => (w.k.proc p).tx
  | .saved p => (w.k.txOf p).savedTf
  | .shadow p h => (entryOf (w.entries p) h).map (·.shadowData)

/-- The order that the steps keep in the tables. -/
structure Ok (w : TxWorld) : Prop where
  pages : Separated w.holds w.k.freelist
  sorted : ∀ p, WsSorted (w.k.txOf p).workset
  unused : ∀ p, (w.k.proc p).state = .unused → (w.k.proc p).tx = none
  busy : ∀ p, w.phase p ≠ .user → (w.k.proc p).tx ≠ none

end TxWorld
end Txv6
