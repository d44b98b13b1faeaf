import Txv6.Bio

/-! # Worksets and shadow copies

The part of `tx.c` that is the same for every kind of object: the sorted workset, the
shadow copies and who may make one. What is special to inodes and buffers is in
`Txv6.Inode`.
-/
namespace Txv6
open Lib

/-- The binary search of `find_workset_entry` between two slots, both included. -/
def searchWorkset (ws : List WorksetEntry) (h : Header) : Nat → Int → Int → Option Nat
  | 0, _, _ => none
  | fuel + 1, left, right =>
    if left ≤ right then
      let mid := left + (right - left) / 2
      match ws[mid.toNat]? with
      | none => none
      | some e =>
        if e.header = h then some mid.toNat
        else if e.header.addr < h.addr then searchWorkset ws h fuel (mid + 1) right
        else searchWorkset ws h fuel left (mid - 1)
    else none

/-- `find_workset_entry`: the slot of a header. Each round of the search at least
halves the range, so `length + 1` rounds are more than enough. -/
def findWorksetEntry (ws : List WorksetEntry) (h : Header) : Option Nat :=
  searchWorkset ws h (ws.length + 1) 0 (ws.length - 1)

/-- The swap loop of `txshadow`, on the slots below the new entry, nearest first. -/
def sinkEntry (e : WorksetEntry) : List WorksetEntry → List WorksetEntry
  | [] => [e]
  | x :: rest => if e.header.addr < x.header.addr then x :: sinkEntry e rest else e :: x :: rest

/-- Append an entry and move it down to its place by header address. -/
def insertEntry (ws : List WorksetEntry) (e : WorksetEntry) : List WorksetEntry :=
  (sinkEntry e ws.reverse).reverse

/-- `memmove(dst, src, ops->data_size)`. -/
def PageData.copyFrom (h : Header) (src dst : PageData) : PageData :=
  match h with
  | .buf _ => { dst with bytes := src.bytes }
  | .inode _ => { dst with ino := src.ino }

/-- The tail of `txshadow`, once the object is owned: a new shadow page, a copy of the
stable data and a workset entry. Reading through a null data pointer is a fault.
`newly_allocated` is left to `bdata`; nothing reads it in the entry of an inode. -/
def Kernel.newShadow (s : Kernel) (t : Page) (h : Header) (readOnly : Bool) :
    Except String Page × Kernel :=
  match s.kalloc with
  | (none, s) => (.error "txshadow: out of memory", s)
  | (some pg, s) =>
    match s.dataPtr h with
    | none => (.error "kerneltrap", s)
    | some src =>
      (.ok pg, (s.setPage pg ((s.heap src).copyFrom h)).setTx t fun x =>
        { x with workset := insertEntry x.workset ⟨h, pg, readOnly, false⟩ })

/-- `txshadow` for the transaction `t`: the shadow page, or none when the workset is
full or another transaction is the object's writer. -/
def Kernel.txshadow (s : Kernel) (t : Page) (h : Header) (readOnly : Bool) :
    Except String (Option Page) × Kernel :=
  match findWorksetEntry (s.tx t).workset h with
  | some i => (.ok ((s.tx t).workset[i]?.map (·.shadowData)), s)
  | none =>
    if maxWorkset ≤ (s.tx t).workset.length then (.ok none, s)
    else if s.writer h ≠ none ∧ s.writer h ≠ some t then (.ok none, s)
    else
      match (s.setWriter (some t) h).newShadow t h readOnly with
      | (.ok pg, s) => (.ok (some pg), s)
      | (.error m, s) => (.error m, s)

/-- `txdata`: the shadow copy inside an active transaction, the stable data otherwise. -/
def Kernel.txdata (s : Kernel) (p : ProcPtr) (h : Header) (readOnly : Bool) :
    Except String (Option Page) × Kernel :=
  match (s.proc p).tx with
  | none => (.ok (s.dataPtr h), s)
  | some t =>
    if (s.tx t).status = .active then s.txshadow t h readOnly
    else (.ok (s.dataPtr h), s)

def txdata (p : ProcPtr) (h : Header) (readOnly : Bool) : K (Option Page) :=
  atomOrPanic fun s => s.txdata p h readOnly

/-! ## Fields of the objects, through the pointers the code has -/

/-- Read a field of `struct inode_data`. -/
def ifield {α : Type} (d : Page) (f : InodeData → α) : K α := .read fun s => f (s.heap d).ino

def setIfield (d : Page) (f : InodeData → InodeData) : K Unit :=
  .update fun s => s.setPage d fun x => { x with ino := f x.ino }

/-- Read from the bytes of a `struct buf_data`. -/
def bfield {α : Type} (d : Page) (f : Block → α) : K α := .read fun s => f (s.heap d).bytes

def setBfield (d : Page) (f : Block → Block) : K Unit :=
  .update fun s => s.setPage d fun x => { x with bytes := f x.bytes }

/-! ## Buffers -/

/-- `txshadow` as `bdata` calls it: also tells whether the workset has grown. -/
def Kernel.bdataShadow (s : Kernel) (p : ProcPtr) (b : BufPtr) :
    Except String (Page × Bool) × Kernel :=
  match (s.proc p).tx with
  | none => (.ok ((s.buf b).data, false), s)
  | some t =>
    if (s.tx t).status = .active then
      match s.txshadow t (.buf b) false with
      | (.ok (some pg), s') =>
        (.ok (pg, decide ((s.tx t).workset.length < (s'.tx t).workset.length)), s')
      | (.ok none, s') => (.error "bdata: txshadow failed", s')
      | (.error m, s') => (.error m, s')
    else (.ok ((s.buf b).data, false), s)

/-- `e->newly_allocated = (bp->refcnt == 1)` on the entry found for the buffer. -/
def Kernel.markNew (s : Kernel) (p : ProcPtr) (b : BufPtr) : Kernel :=
  match (s.proc p).tx with
  | none => s
  | some t =>
    match findWorksetEntry (s.tx t).workset (.buf b) with
    | none => s
    | some i =>
      let isNew := decide ((s.buf b).refcnt = 1)
      s.setTx t fun x =>
        { x with workset := x.workset.modify i fun e => { e with newlyAllocated := isNew } }

/-- `bdata`: a new shadow is pinned, so that the buffer is not recycled under it. -/
def bdata (p : ProcPtr) (b : BufPtr) : K Page := do
  let (pg, grown) ← atomOrPanic fun s => s.bdataShadow p b
  Prog.when grown do
    bpin b
    .update fun s => s.markNew p b
  return pg

/-! ## Worksets as loops see them -/

/-- `for (i = 0; i < p->tx->workset_size; i++) f(&p->tx->workset[i])`. The size is read
again in every round. -/
def forWorksetFrom (p : ProcPtr) (f : WorksetEntry → K Unit) : Nat → Nat → K Unit
  | 0, _ => return
  | fuel + 1, i => do
    match ← .read fun s => (s.txOf p).workset[i]? with
    | none => return
    | some e =>
      f e
      forWorksetFrom p f fuel (i + 1)

def forWorkset (p : ProcPtr) (f : WorksetEntry → K Unit) : K Unit := do
  let n ← .read fun s => (s.txOf p).workset.length
  forWorksetFrom p f (n + maxWorkset) 0

end Txv6
