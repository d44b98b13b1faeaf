import Txv6.Crash.Recover
import Txv6.Lib.Parallel

/-! # Operations on the logged disk

Any number of processes that read and modify blocks between `begin_op` and `end_op`, with the
code of `bio.c` and `log.c`, no transaction being active. Beside the state of the kernel a
history is kept: what the blocks would hold if every modification went straight to them, and
what they held whenever a group of operations went into `commit`.
-/
namespace Txv6
open Lib Lib.Prog

/-- The contents at a moment, and the processes that were within an operation. -/
structure Group where
  contents : Nat → Block
  inside : ProcPtr → Bool

structure Hist where
  /-- The blocks with all modifications so far. -/
  contents : Nat → Block
  /-- The groups that have gone into `commit`, the newest one first; the last one is the disk
  as it was found. -/
  groups : List Group
  /-- The processes between the return of `begin_op` and the call of `end_op`. -/
  inside : ProcPtr → Bool
  /-- The buffers a process has got from `bread` and not given to `brelse`. -/
  bufs : ProcPtr → Finset BufPtr
  /-- Those of them that it has modified since its last `log_write` of them. -/
  dirty : ProcPtr → Finset BufPtr

namespace Hist

def start (d : Nat → Block) : Hist where
  contents := d
  groups := [⟨d, fun _ => false⟩]
  inside _ := false
  bufs _ := ∅
  dirty _ := ∅

/-- A group goes into `commit` when `end_op` sets `log.committing`. -/
def see (s t : Kernel) (h : Hist) : Hist :=
  if s.log.committing = false ∧ t.log.committing = true then
    { h with groups := ⟨h.contents, h.inside⟩ :: h.groups }
  else h

def setInside (h : Hist) (p : ProcPtr) (v : Bool) : Hist :=
  { h with inside := Function.update h.inside p v }

def take (h : Hist) (p : ProcPtr) (b : BufPtr) : Hist :=
  { h with bufs := Function.update h.bufs p (insert b (h.bufs p)) }

def give (h : Hist) (p : ProcPtr) (b : BufPtr) : Hist :=
  { h with bufs := Function.update h.bufs p ((h.bufs p).erase b) }

def modify (h : Hist) (p : ProcPtr) (b : BufPtr) (blk : Nat) (f : Block → Block) : Hist :=
  { h with
    contents := Function.update h.contents blk (f (h.contents blk))
    dirty := Function.update h.dirty p (insert b (h.dirty p)) }

def logged (h : Hist) (p : ProcPtr) (b : BufPtr) : Hist :=
  { h with dirty := Function.update h.dirty p ((h.dirty p).erase b) }

end Hist

/-! ## The system -/

inductive LogCall where
  | beginOp
  | bread (blockno : Nat)
  | modify (b : BufPtr) (f : Block → Block)
  | logWrite (b : BufPtr)
  | brelse (b : BufPtr)
  | endOp

/-- Code of the kernel, with the history kept. -/
abbrev watch {α : Type} (m : K α) : Prog (Kernel × Hist) Err α := track Hist.see m

/-- A note in the history. -/
def note (f : Hist → Hist) : Prog (Kernel × Hist) Err Unit := .update fun x => (x.1, f x.2)

def LogCall.prog (p : ProcPtr) : LogCall → Prog (Kernel × Hist) Err Unit
  | .beginOp => do
    watch (Txv6.beginOp p)
    note fun h => h.setInside p true
  | .bread blockno => do
    let b ← watch (Txv6.bread p rootdev blockno)
    note fun h => h.take p b
  | .modify b f => .update fun x =>
      (x.1.setBytes b f, x.2.modify p b (x.1.buf b).blockno f)
  | .logWrite b => do
    watch (Txv6.logWrite p b)
    note fun h => h.logged p b
  | .brelse b => do
    note fun h => h.give p b
    watch (Txv6.brelse p b)
  | .endOp => do
    note fun h => h.setInside p false
    watch (Txv6.endOp p)

/-- A buffer that a process may modify: it has locked it, and the block is not of the log. -/
structure Writable (x : Kernel × Hist) (p : ProcPtr) (b : BufPtr) : Prop where
  inside : x.2.inside p = true
  mine : b ∈ x.2.bufs p
  home : x.1.sb.log.Home (x.1.buf b).blockno
  word : (x.1.buf b).blockno < 2 ^ 32

/-- How operations use the cache: they modify blocks between `begin_op` and `end_op`, under
the lock that `bread` has taken, and call `log_write` before they release them. -/
def Disciplined : Label ProcPtr LogCall Err Unit → Kernel × Hist → Kernel × Hist → Prop
  | .call p .beginOp, x, _ => x.2.inside p = false
  | .call p (.modify b _), x, _ => Writable x p b
  | .call p (.logWrite b), x, _ => Writable x p b
  | .call p (.brelse b), x, _ => b ∈ x.2.bufs p ∧ b ∉ x.2.dirty p
  | .call p .endOp, x, _ => x.2.inside p = true ∧ x.2.dirty p = ∅
  | _, _, _ => True

/-! ## Starts and crashes -/

/-- The kernel after `binit`, with whatever is on the disk. -/
structure Booted (s : Kernel) : Prop where
  pages : ∀ b c, (s.buf b).data = (s.buf c).data → b = c
  listed : ∀ b, b ∈ s.lru
  fresh : ∀ b, s.buf b = { data := (s.buf b).data }
  log : s.log = {}
  inactive : ∀ p, s.txActive p = false

/-- The disk after a crash and any number of recoveries that were cut off in turn. -/
inductive Crashed (sb : Superblock) (d : Nat → Block) : (Nat → Block) → Prop
  | first : Crashed sb d d
  | again {s t : Kernel} {p : ProcPtr} : Crashed sb d s.disk → Booted s → s.sb = sb →
      t ∈ (recoverFromLog p).visited s → Crashed sb d t.disk

end Txv6
