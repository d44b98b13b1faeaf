import Txv6.Workset
import Mathlib.Data.Set.Insert

/-! # Owners of objects

The part of the kernel's state that decides whether `txshadow` grants an object: which
transaction is written into it (`xobj.writer`), which transactions are active, what is in
their worksets and to which processes they belong. `OwnerOp` lists what kernel code does to
it.
-/
namespace Txv6

@[ext] structure Owners where
  writer : Header → Option Page
  status : Page → TxStatus
  objects : Page → Set Header
  tx : ProcPtr → Option Page
  unused : Set ProcPtr

def Kernel.owners (s : Kernel) : Owners where
  writer := s.writer
  status a := (s.tx a).status
  objects a := { h | InWorkset (s.tx a).workset h }
  tx q := (s.proc q).tx
  unused := { q | (s.proc q).state = .unused }

inductive OwnerOp where
  /-- Anything else. -/
  | rest
  /-- `iget` gives a slot of the inode table to another inode. -/
  | recycle (ip : InodePtr)
  /-- `txshadow` grants an object. -/
  | shadow (a : Page) (h : Header)
  /-- `sys_txbegin`. -/
  | start (a : Page)
  /-- The status changes of `sys_txcommit` and `sys_txabort`. -/
  | finish (a : Page) (st : TxStatus)
  /-- `workset_size = 0` at the end of `sys_txcommit` and `sys_txabort`. -/
  | clear (a : Page)
  /-- `freeproc`. -/
  | discard (p : ProcPtr)
  /-- `allocproc`, with the transaction that `txalloc` initialised. -/
  | reuse (np : ProcPtr) (a : Option Page)
  /-- Any other state change of a process. -/
  | occupy (p : ProcPtr)

namespace Owners

/-- An active transaction with something in its workset. -/
def Live (v : Owners) (a : Page) : Prop := v.status a = .active ∧ (v.objects a).Nonempty

/-- A writer is an active transaction of some process, with the object in its workset. -/
def WriterOk (v : Owners) : Prop :=
  ∀ h a, v.writer h = some a → (∃ q, v.tx q = some a) ∧ v.status a = .active ∧ h ∈ v.objects a

structure Inv (v : Owners) : Prop where
  writer : v.WriterOk
  unused : ∀ q ∈ v.unused, v.tx q = none

end Owners

namespace OwnerOp
open Owners Function

def apply (v : Owners) : OwnerOp → Owners
  | rest => v
  | recycle ip => { v with writer := Function.update v.writer (.inode ip) none }
  | shadow a h => { v with
      writer := Function.update v.writer h (some a)
      objects := Function.update v.objects a (insert h (v.objects a)) }
  | start a => { v with
      status := Function.update v.status a .active
      objects := Function.update v.objects a ∅ }
  | finish a st => { v with status := Function.update v.status a st }
  | clear a => { v with objects := Function.update v.objects a ∅ }
  | discard p => { v with tx := Function.update v.tx p none, unused := insert p v.unused }
  | reuse np none => { v with tx := Function.update v.tx np none, unused := v.unused \ {np} }
  | reuse np (some a) => {
      writer := v.writer
      status := Function.update v.status a .inactive
      objects := Function.update v.objects a ∅
      tx := Function.update v.tx np (some a)
      unused := v.unused \ {np} }
  | occupy p => { v with unused := v.unused \ {p} }

/-- When the code does it. -/
def Guard (v : Owners) : OwnerOp → Prop
  | shadow a h => (∃ q, v.tx q = some a) ∧ v.status a = .active ∧
      (v.writer h = none ∨ v.writer h = some a)
  | finish _ st => st ≠ .active
  | reuse np _ => np ∈ v.unused
  | _ => True

/-- The operation does not end a transaction that has something in its workset. -/
def Spares (v : Owners) : OwnerOp → Prop
  | start a => ¬ v.Live a
  | finish a _ => ¬ v.Live a
  | clear a => ¬ v.Live a
  | reuse _ (some a) => ¬ v.Live a
  | discard p => ∀ a, v.tx p = some a → ¬ v.Live a
  | _ => True

end OwnerOp
end Txv6
