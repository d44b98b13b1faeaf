import Txv6.Tx

/-! # Blocks, inodes and the hooks of transactions

The block allocator and the inode layer of `fs.c`, and the inode and buffer specific
part of `tx.c`. In the source `iput`, `itrunc`, `idata`, `tx_abort_now` and the abort
hooks call each other in a circle. Here `iputWith` and `itruncWith` take the `idata`
they call: the hooks get one that cannot jump (`stableData`), the rest of the file
system the real one. An `iput` that goes past its first test is outside an active
transaction, where the two are the same.
-/
namespace Txv6
open Lib

/-! ## Blocks -/

/-- Zero a block. -/
def bzero (p : ProcPtr) (dev bno : Nat) : K Unit := do
  let bp ← bread p dev bno
  let d ← bdata p bp
  setBfield d fun _ _ => 0
  logWrite p bp
  brelse p bp

/-- The inner loop of `balloc`: the first clear bit of a free map block, which it sets. -/
def ballocScan (p : ProcPtr) (size b : Nat) (bp : BufPtr) : Nat → Nat → K (Option Nat)
  | 0, _ => return none
  | fuel + 1, bi => do
    if bi < bpb ∧ b + bi < size then
      let d ← bdata p bp
      if !(← bfield d fun x => bitAt x bi) then
        let d ← bdata p bp
        setBfield d fun x => setBit x bi
        logWrite p bp
        return some bi
      else ballocScan p size b bp fuel (bi + 1)
    else return none

def ballocLoop (p : ProcPtr) (dev size : Nat) : Nat → Nat → K Nat
  | 0, _ => return 0
  | fuel + 1, b => do
    if b < size then
      let blk ← .read fun s => s.sb.bblock b
      let bp ← bread p dev blk
      match ← ballocScan p size b bp bpb 0 with
      | some bi =>
        brelse p bp
        bzero p dev (b + bi)
        return b + bi
      | none =>
        brelse p bp
        ballocLoop p dev size fuel (b + bpb)
    else return 0

/-- Allocate a zeroed disk block. Returns 0 if out of disk space. -/
def balloc (p : ProcPtr) (dev : Nat) : K Nat := do
  let size ← .read fun s => s.sb.size
  ballocLoop p dev size (size + 1) 0

/-- Free a disk block. -/
def bfree (p : ProcPtr) (dev b : Nat) : K Unit := do
  let blk ← .read fun s => s.sb.bblock b
  let bp ← bread p dev blk
  let bi := b % bpb
  let d ← bdata p bp
  kassert (fun s => bitAt (s.heap d).bytes bi) "freeing free block"
  let d ← bdata p bp
  setBfield d fun x => clearBit x bi
  logWrite p bp
  brelse p bp

/-! ## Inodes -/

/-- The part of `iget` under `itable.lock`. -/
def Kernel.iget (s : Kernel) (dev inum : Nat) : Except String InodePtr × Kernel :=
  match (List.finRange ninode).find? fun ip =>
      decide (0 < (s.inode ip).ref) && (s.inode ip).dev == dev && (s.inode ip).inum == inum with
  | some ip => (.ok ip, s.setInode ip fun x => { x with ref := x.ref + 1 })
  | none =>
    match (List.finRange ninode).find? fun ip => (s.inode ip).ref == 0 with
    | none => (.error "iget: no inodes", s)
    | some ip =>
      let s := s.setInode ip fun x =>
        { x with dev := dev, inum := inum, ref := 1, valid := false, writer := none }
      match (s.inode ip).data with
      | some _ => (.ok ip, s)
      | none =>
        match s.kalloc with
        | (none, s) => (.error "iget: kalloc inode_data failed", s)
        | (some pg, s) =>
          (.ok ip, (s.setPage pg fun d => { d with ino := .zero }).setInode ip fun x =>
            { x with data := some pg })

def iget (dev inum : Nat) : K InodePtr := atomOrPanic fun s => s.iget dev inum

def idup (ip : InodePtr) : K InodePtr :=
  .atom fun s => (ip, s.setInode ip fun x => { x with ref := x.ref + 1 })

/-- `memset(dip, 0, sizeof(*dip)); dip->type = type;` on the cached inode block. -/
def Kernel.markInode (s : Kernel) (p : ProcPtr) (bp : BufPtr) (inum : Nat) (type : Short) : Kernel :=
  let dip := { InodeData.zero with type := type }
  let s' := s.setPage (s.buf bp).data fun d =>
    { d with bytes := putBytes d.bytes (dinodeOff inum) dip.bytes }
  { s' with trace := .ialloc p inum :: s'.trace }

def iallocLoop (p : ProcPtr) (dev : Nat) (type : Short) (ninodes : Nat) :
    Nat → Nat → K (Option InodePtr)
  | 0, _ => return none
  | fuel + 1, inum => do
    if inum < ninodes then
      let blk ← .read fun s => s.sb.iblock inum
      let bp ← bread p dev blk
      let dip ← .read fun s => dinodeAt (s.heap (s.buf bp).data).bytes (dinodeOff inum)
      if dip.type = 0 then
        .update fun s => s.markInode p bp inum type
        logWrite p bp
        brelse p bp
        return some (← iget dev inum)
      else
        brelse p bp
        iallocLoop p dev type ninodes fuel (inum + 1)
    else return none

/-- Allocate an inode: the first with type 0 on disk gets `type`. -/
def ialloc (p : ProcPtr) (dev : Nat) (type : Short) : K (Option InodePtr) := do
  let ninodes ← .read fun s => s.sb.ninodes
  iallocLoop p dev type ninodes ninodes 1

/-- Dereference `ip->data`; a null pointer is a fault. -/
def inodeData (ip : InodePtr) : K Page := do
  match ← .read fun s => (s.inode ip).data with
  | none => kpanic "kerneltrap"
  | some d => return d

/-- Copy a modified in-memory inode to disk, except inside an active transaction. -/
def iupdate (p : ProcPtr) (ip : InodePtr) : K Unit := do
  if ← txActive p then
    return
  let dev ← .read fun s => (s.inode ip).dev
  let inum ← .read fun s => (s.inode ip).inum
  let blk ← .read fun s => s.sb.iblock inum
  let bp ← bread p dev blk
  let d ← inodeData ip
  let data ← ifield d id
  setBufBytes bp fun b => putBytes b (dinodeOff inum) data.bytes
  logWrite p bp
  brelse p bp

/-- Lock the given inode. Reads the inode from disk if necessary. -/
def ilock (p : ProcPtr) (ip : InodePtr) : K Unit := do
  kassert (fun s => decide (1 ≤ (s.inode ip).ref)) "ilock"
  acquiresleep p (.inode ip)
  let valid ← .read fun s => (s.inode ip).valid
  Prog.when (!valid) do
    let dev ← .read fun s => (s.inode ip).dev
    let inum ← .read fun s => (s.inode ip).inum
    let blk ← .read fun s => s.sb.iblock inum
    let bp ← bread p dev blk
    let d ← inodeData ip
    let bytes ← bufBytes bp
    setIfield d fun _ => dinodeAt bytes (dinodeOff inum)
    brelse p bp
    .update fun s => s.setInode ip fun x => { x with valid := true }
    kassert (fun s => (s.heap d).ino.type != 0) "ilock: no type"

def iunlock (p : ProcPtr) (ip : InodePtr) : K Unit := do
  kassert (fun s => s.holdingsleep p (.inode ip) && decide (1 ≤ (s.inode ip).ref)) "iunlock"
  releasesleep (.inode ip)

/-! ## Truncating and dropping inodes -/

def itruncDirect (p : ProcPtr) (dev : Nat) (d : Page) (active : Bool) :
    List (Fin (ndirect + 1)) → K Unit
  | [] => return
  | i :: rest => do
    let a ← ifield d (·.addrs i)
    Prog.when (a != 0) do
      Prog.when (!active) (bfree p dev a.toNat)
      setIfield d fun x => { x with addrs := Function.update x.addrs i 0 }
    itruncDirect p dev d active rest

def itruncIndirect (p : ProcPtr) (dev : Nat) (a : Page) : List Nat → K Unit
  | [] => return
  | j :: rest => do
    let x ← bfield a fun b => le32 b (4 * j)
    Prog.when (x != 0) (bfree p dev x.toNat)
    itruncIndirect p dev a rest

/-- The slots `0 .. NDIRECT-1` of `addrs`. -/
def directSlots : List (Fin (ndirect + 1)) := (List.finRange ndirect).map Fin.castSucc

/-- Truncate inode (discard contents). Inside an active transaction the addresses are
dropped and the blocks stay allocated. -/
def itruncWith (idata : K Page) (p : ProcPtr) (ip : InodePtr) : K Unit := do
  let d ← idata
  let active ← txActive p
  let dev ← .read fun s => (s.inode ip).dev
  itruncDirect p dev d active directSlots
  let ind ← ifield d (·.addrs (Fin.last ndirect))
  Prog.when (ind != 0) do
    Prog.when (!active) do
      let bp ← bread p dev ind.toNat
      let a ← bdata p bp
      itruncIndirect p dev a (List.range nindirect)
      brelse p bp
      bfree p dev ind.toNat
    setIfield d fun x => { x with addrs := Function.update x.addrs (Fin.last ndirect) 0 }
  setIfield d fun x => { x with size := 0 }
  iupdate p ip

/-- `ip->ref == 1 && ip->valid && ip->data->nlink == 0`. -/
def Kernel.lastUnlinked (s : Kernel) (ip : InodePtr) : Bool :=
  decide ((s.inode ip).ref = 1) && (s.inode ip).valid &&
    match (s.inode ip).data with
    | none => false
    | some d => (s.heap d).ino.nlink == 0

def Kernel.decRef (s : Kernel) (ip : InodePtr) : Kernel :=
  s.setInode ip fun x => { x with ref := x.ref - 1 }

/-- Drop a reference to an in-memory inode; the last reference to an inode without
links frees it on disk. Inside an active transaction nothing happens. -/
def iputWith (idata : K Page) (p : ProcPtr) (ip : InodePtr) : K Unit := do
  if ← txActive p then
    .update fun s => { s with trace := .skippedIput p ip :: s.trace }
    return
  -- under `itable.lock`: either take the sleep lock to free the inode, or decrement
  if ← .act (fun s => !s.lastUnlinked ip || !(s.inode ip).lock.locked)
      (fun s => if s.lastUnlinked ip then s.setLock ⟨true, (s.proc p).pid⟩ (.inode ip)
        else s.decRef ip)
      (fun s => .ret (s.lastUnlinked ip)) then
    itruncWith idata p ip
    let d ← inodeData ip
    setIfield d fun x => { x with type := 0 }
    iupdate p ip
    .update fun s => s.setInode ip fun x => { x with valid := false }
    let d ← inodeData ip
    kfree d
    .update fun s => s.setInode ip fun x => { x with data := none }
    releasesleep (.inode ip)
    .update fun s => s.decRef ip

/-! ## Abort -/

/-- `idata` where `txdata` cannot refuse. -/
def stableData (p : ProcPtr) (ip : InodePtr) : K Page := do
  match ← txdata p (.inode ip) false with
  | none => kpanic "tx_abort_now: no active transaction"
  | some d => return d

def inodeAbort (p : ProcPtr) (e : WorksetEntry) (ip : InodePtr) : K Unit := do
  kfree e.shadowData
  iputWith (stableData p ip) p ip

def bufAbort (p : ProcPtr) (e : WorksetEntry) (b : BufPtr) : K Unit := do
  Prog.when e.newlyAllocated do
    beginOp p
    let dev ← .read fun s => (s.buf b).dev
    let blockno ← .read fun s => (s.buf b).blockno
    bfree p dev blockno
    endOp p
  kfree e.shadowData
  bunpin b

/-- `entry->ops->abort_fn(entry)`. -/
def abortFn (p : ProcPtr) (e : WorksetEntry) : K Unit :=
  match e.header with
  | .buf b => bufAbort p e b
  | .inode ip => inodeAbort p e ip

/-- `undo_iunlock`, `undo_buf_unlock` and the empty ones. -/
def undoOp (p : ProcPtr) : UndoOp → K Unit
  | .iunlock ip => iunlock p ip
  | .bufUnlock b => releasesleep (.buf b)
  | .nop => return

def runUndo (p : ProcPtr) : List UndoOp → K Unit
  | [] => return
  | op :: rest => do
    undoOp p op
    runUndo p rest

/-- `tx_abort_now`: run the undo functions, last one first, and the abort hooks of the
workset, then jump back into `syscall()`. -/
def txAbortNow {α : Type} (p : ProcPtr) (c : Site) : K α := do
  kassert (fun s => s.txActive p) "tx_abort_now: no active transaction"
  let undo ← .read fun s => (s.txOf p).undo
  runUndo p undo.reverse
  forWorkset p (abortFn p)
  if ← .read fun s => (s.txOf p).kjmpValid then .fail (.jump c)
  else kpanic "tx_abort_now: no kjmp set"

/-! ## The data of an inode in the current context -/

/-- What `idata` and `idata_ro` do with what `txdata` returns. -/
def idataOf (c : Site) (p : ProcPtr) (ip : InodePtr) : Option Page → K Page
  | some d => return d
  | none => do
    iunlock p ip
    txAbortNow p c

/-- `idata`: shadow copy inside an active transaction, stable data otherwise. -/
def idata (c : Site) (p : ProcPtr) (ip : InodePtr) : K Page := do
  idataOf c p ip (← txdata p (.inode ip) false)

def idataRo (c : Site) (p : ProcPtr) (ip : InodePtr) : K Page := do
  idataOf c p ip (← txdata p (.inode ip) true)

def itrunc (p : ProcPtr) (ip : InodePtr) : K Unit := itruncWith (idata .itrunc p ip) p ip

def iput (p : ProcPtr) (ip : InodePtr) : K Unit := iputWith (idata .itrunc p ip) p ip

def iunlockput (p : ProcPtr) (ip : InodePtr) : K Unit := do
  iunlock p ip
  iput p ip

/-- The loop of `ireclaim` over the inodes from `inum` on. -/
def ireclaimLoop (p : ProcPtr) (dev ninodes : Nat) : Nat → Nat → K Unit
  | 0, _ => return
  | fuel + 1, inum => do
    if inum < ninodes then
      let blk ← .read fun s => s.sb.iblock inum
      let bp ← bread p dev blk
      let dip ← .read fun s => dinodeAt (s.heap (s.buf bp).data).bytes (dinodeOff inum)
      let ip ← (if dip.type ≠ 0 ∧ dip.nlink = 0 then some <$> iget dev inum else pure none)
      brelse p bp
      match ip with
      | none => pure ()
      | some ip =>
        beginOp p
        ilock p ip
        iunlock p ip
        iput p ip
        endOp p
      ireclaimLoop p dev ninodes fuel (inum + 1)
    else return

/-- Free the inodes that have no links any more: nobody has them open at boot. -/
def ireclaim (p : ProcPtr) (dev : Nat) : K Unit := do
  let ninodes ← .read fun s => s.sb.ninodes
  ireclaimLoop p dev ninodes ninodes 1

/-! ## Commit, lock and unlock -/

def inodeCommit (p : ProcPtr) (e : WorksetEntry) (ip : InodePtr) : K Unit := do
  beginOp p
  Prog.when (!e.readOnly) (iupdate p ip)
  iput p ip
  endOp p

def bufCommit (p : ProcPtr) (b : BufPtr) : K Unit := do
  beginOp p
  logWrite p b
  endOp p
  bunpin b

/-- `entry->ops->commit_fn(entry)`. -/
def commitFn (p : ProcPtr) (e : WorksetEntry) : K Unit :=
  match e.header with
  | .buf b => bufCommit p b
  | .inode ip => inodeCommit p e ip

/-- `e->ops->lock_fn(e)`. -/
def lockFn (p : ProcPtr) (e : WorksetEntry) : K Unit :=
  match e.header with
  | .buf b => acquiresleep p (.buf b)
  | .inode ip => ilock p ip

/-- `e->ops->unlock_fn(e)`. -/
def unlockFn (p : ProcPtr) (e : WorksetEntry) : K Unit :=
  match e.header with
  | .buf b => releasesleep (.buf b)
  | .inode ip => iunlock p ip

end Txv6
