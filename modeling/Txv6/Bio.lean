import Txv6.Kernel

/-! # Buffer cache and log

`bio.c`, the disk transfer of `virtio_disk.c` and `log.c`. The doubly linked buffer
list is the list of its buffers from the most to the least recently used one.
-/
namespace Txv6
open Lib

/-! ## bio.c -/

/-- The part of `bget` under `bcache.lock`: a buffer of the block, or the least
recently used one without references. -/
def Kernel.bget (s : Kernel) (dev blockno : Nat) : Option BufPtr × Kernel :=
  match s.lru.find? fun b => (s.buf b).dev == dev && (s.buf b).blockno == blockno with
  | some b => (some b, s.setBuf b fun x => { x with refcnt := x.refcnt + 1 })
  | none =>
    match s.lru.reverse.find? fun b => (s.buf b).refcnt == 0 with
    | some b => (some b, s.setBuf b fun x =>
        { x with dev := dev, blockno := blockno, valid := false, refcnt := 1 })
    | none => (none, s)

def bget (p : ProcPtr) (dev blockno : Nat) : K BufPtr := do
  match ← .atom fun s => s.bget dev blockno with
  | none => kpanic "bget: no buffers"
  | some b =>
    acquiresleep p (.buf b)
    return b

/-- `virtio_disk_rw(b, 0)`. -/
def Kernel.diskRead (s : Kernel) (b : BufPtr) : Kernel :=
  s.setPage (s.buf b).data fun d => { d with bytes := s.disk (s.buf b).blockno }

/-- `virtio_disk_rw(b, 1)`. -/
def Kernel.diskWrite (s : Kernel) (b : BufPtr) : Kernel :=
  { s with disk := Function.update s.disk (s.buf b).blockno (s.heap (s.buf b).data).bytes }

def bread (p : ProcPtr) (dev blockno : Nat) : K BufPtr := do
  let b ← bget p dev blockno
  let valid ← .read fun s => (s.buf b).valid
  Prog.when (!valid) do
    .update fun s => s.diskRead b
    .update fun s => s.setBuf b fun x => { x with valid := true }
  return b

def bwrite (p : ProcPtr) (b : BufPtr) : K Unit := do
  kassert (fun s => s.holdingsleep p (.buf b)) "bwrite"
  .update fun s => s.diskWrite b

/-- The part of `brelse` under `bcache.lock`. -/
def Kernel.brelse (s : Kernel) (b : BufPtr) : Kernel :=
  let s := s.setBuf b fun x => { x with refcnt := x.refcnt - 1 }
  if (s.buf b).refcnt = 0 then { s with lru := b :: s.lru.erase b } else s

def brelse (p : ProcPtr) (b : BufPtr) : K Unit := do
  kassert (fun s => s.holdingsleep p (.buf b)) "brelse"
  releasesleep (.buf b)
  .update fun s => s.brelse b

def Kernel.bpin (s : Kernel) (b : BufPtr) : Kernel :=
  s.setBuf b fun x => { x with refcnt := x.refcnt + 1 }

def bpin (b : BufPtr) : K Unit := .update fun s => s.bpin b

def bunpin (b : BufPtr) : K Unit :=
  .update fun s => s.setBuf b fun x => { x with refcnt := x.refcnt - 1 }

/-- `bp->data->bytes`. -/
def bufBytes (b : BufPtr) : K Block := .read fun s => (s.heap (s.buf b).data).bytes

def setBufBytes (b : BufPtr) (f : Block → Block) : K Unit :=
  .update fun s => s.setPage (s.buf b).data fun d => { d with bytes := f d.bytes }

/-! ## log.c -/

/-- An atomic step that may panic. -/
def atomOrPanic {α : Type} (f : Kernel → Except String α × Kernel) : K α :=
  .act (fun _ => true) (fun s => (f s).2) fun s =>
    match (f s).1 with
    | .ok a => .ret a
    | .error m => kpanic m

def installTransLoop (p : ProcPtr) (recovering : Bool) : Nat → List Nat → K Unit
  | _, [] => return
  | tail, dst :: rest => do
    let start ← .read fun s => s.sb.logstart
    let lbuf ← bread p rootdev (start + tail + 1)
    let dbuf ← bread p rootdev dst
    let bytes ← bufBytes lbuf
    setBufBytes dbuf fun _ => bytes
    bwrite p dbuf
    Prog.when (!recovering) (bunpin dbuf)
    brelse p lbuf
    brelse p dbuf
    installTransLoop p recovering (tail + 1) rest

/-- Copy committed blocks from the log to their home locations. -/
def installTrans (p : ProcPtr) (recovering : Bool) : K Unit := do
  let lh ← .read fun s => s.log.lh
  installTransLoop p recovering 0 lh

def readHead (p : ProcPtr) : K Unit := do
  let start ← .read fun s => s.sb.logstart
  let buf ← bread p rootdev start
  .update fun s => { s with log := { s.log with lh := logheaderAt (s.heap (s.buf buf).data).bytes } }
  brelse p buf

def writeHead (p : ProcPtr) : K Unit := do
  let start ← .read fun s => s.sb.logstart
  let buf ← bread p rootdev start
  let lh ← .read fun s => s.log.lh
  setBufBytes buf fun b => putLogheader b lh
  bwrite p buf
  brelse p buf

def setLh (lh : List Nat) : K Unit := .update fun s => { s with log := { s.log with lh := lh } }

def recoverFromLog (p : ProcPtr) : K Unit := do
  readHead p
  installTrans p true
  setLh []
  writeHead p

/-- Whether `begin_op` goes on instead of sleeping. -/
def Log.hasRoom (l : Log) : Bool :=
  !l.committing && decide (l.lh.length + (l.outstanding + 1) * maxopblocks ≤ (logblocks : Int))

def beginOp (p : ProcPtr) : K Unit := do
  if ← txActive p then
    return
  .await (fun s => s.log.hasRoom) fun s =>
    { s with log := { s.log with outstanding := s.log.outstanding + 1 } }

def writeLogLoop (p : ProcPtr) : Nat → List Nat → K Unit
  | _, [] => return
  | tail, blk :: rest => do
    let start ← .read fun s => s.sb.logstart
    let dst ← bread p rootdev (start + tail + 1)
    let src ← bread p rootdev blk
    let bytes ← bufBytes src
    setBufBytes dst fun _ => bytes
    bwrite p dst
    brelse p src
    brelse p dst
    writeLogLoop p (tail + 1) rest

/-- Copy modified blocks from the cache to the log. -/
def writeLog (p : ProcPtr) : K Unit := do
  let lh ← .read fun s => s.log.lh
  writeLogLoop p 0 lh

def commit (p : ProcPtr) : K Unit := do
  if ← .read fun s => decide (0 < s.log.lh.length) then
    writeLog p
    writeHead p
    installTrans p false
    setLh []
    writeHead p

/-- The first critical section of `end_op`; tells whether this operation commits. -/
def Kernel.endOp (s : Kernel) : Except String Bool × Kernel :=
  let out := s.log.outstanding - 1
  if s.log.committing then
    (.error "log.committing", { s with log := { s.log with outstanding := out } })
  else if out = 0 then
    (.ok true, { s with log := { s.log with outstanding := out, committing := true } })
  else
    (.ok false, { s with log := { s.log with outstanding := out } })

def endOp (p : ProcPtr) : K Unit := do
  if ← txActive p then
    return
  if ← atomOrPanic Kernel.endOp then
    commit p
    .update fun s => { s with log := { s.log with committing := false } }

/-- The critical section of `log_write`, with log absorption. -/
def Kernel.logWrite (s : Kernel) (b : BufPtr) : Except String Unit × Kernel :=
  if logblocks ≤ s.log.lh.length then
    (.error "too big a transaction", s)
  else if s.log.outstanding < 1 then
    (.error "log_write outside of trans", s)
  else if (s.buf b).blockno ∈ s.log.lh then
    (.ok (), s)
  else
    (.ok (), { s.bpin b with log := { s.log with lh := s.log.lh ++ [(s.buf b).blockno] } })

def logWrite (p : ProcPtr) (b : BufPtr) : K Unit := do
  if ← txActive p then
    return
  atomOrPanic fun s => s.logWrite b

end Txv6
