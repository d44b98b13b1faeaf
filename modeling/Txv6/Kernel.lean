import Txv6.Param
import Txv6.Lib.Prog

/-! # The kernel's state

The tables of the file system and transaction code in one record: buffer cache,
inode table, open files, processes, transactions, the pages handed out by `kalloc`,
the log and the disk. Kernel code is a program of atomic steps over it (`K`): a step
is a critical section of the source, or an access to data that only the running
process can reach.

Three things are kept beside the state of the source. Spin locks are not there: what
they protect is one step. Reference counts are unbounded integers instead of 32-bit
ones. `trace` records a few kinds of event for statements about runs; no code reads it.
-/
namespace Txv6
open Lib

/-- Address of a page from `kalloc`. -/
abbrev Page := Nat
abbrev BufPtr := Fin nbuf
abbrev InodePtr := Fin ninode
abbrev FilePtr := Fin nfile
/-- Slot of the process table. -/
abbrev ProcPtr := Nat

/-- A pointer to the header of a transactional object. -/
inductive Header where
  | buf (b : BufPtr)
  | inode (ip : InodePtr)
  deriving DecidableEq, Repr

/-- Header addresses. `bio.o` is linked before `fs.o`, so all of `bcache` lies below
`itable`. -/
def Header.addr : Header → Nat
  | .buf b => b
  | .inode ip => nbuf + ip

structure Sleeplock where
  locked : Bool := false
  pid : Nat := 0
  deriving DecidableEq, Repr

/-- `struct buf`; `writer` is `xobj.writer`. -/
structure Buf where
  valid : Bool := false
  dev : Nat := 0
  blockno : Nat := 0
  lock : Sleeplock := {}
  refcnt : Int := 0
  writer : Option Page := none
  data : Page

/-- `struct inode`; `writer` is `xobj.writer`. -/
structure Inode where
  dev : Nat := 0
  inum : Nat := 0
  ref : Int := 0
  lock : Sleeplock := {}
  valid : Bool := false
  writer : Option Page := none
  data : Option Page := none

inductive FileType where
  | none | pipe | inode | device
  deriving DecidableEq, Repr

/-- `struct file`. -/
structure File where
  type : FileType := .none
  ref : Int := 0
  readable : Bool := false
  writable : Bool := false
  pipe : Nat := 0
  ip : Option InodePtr := none
  off : Nat := 0
  major : Short := 0

inductive TxStatus where
  | inactive | active | aborted | committed
  deriving DecidableEq, Repr

/-- `struct workset_entry`. Which operations belong to it is told by its header. -/
structure WorksetEntry where
  header : Header
  shadowData : Page
  readOnly : Bool
  newlyAllocated : Bool
  deriving DecidableEq, Repr

/-- The saved user registers that matter here: where the process resumes and its
return value. -/
structure Trapframe where
  epc : Nat := 0
  a0 : Int := 0
  deriving DecidableEq, Repr

/-- The undo functions of `tx.c`, with their arguments. -/
inductive UndoOp where
  | iunlock (ip : InodePtr)
  | bufUnlock (b : BufPtr)
  | nop
  deriving DecidableEq, Repr

/-- `struct transaction`. The workset is the first `workset_size` slots of the array. -/
structure Transaction where
  status : TxStatus := .inactive
  retryCount : Nat := 0
  startTime : Nat := 0
  savedTf : Option Page := none
  kjmpValid : Bool := false
  workset : List WorksetEntry := []
  undo : List UndoOp := []

inductive ProcState where
  | unused | used | runnable | zombie
  deriving DecidableEq, Repr

/-- `struct proc`. `umem` is the user memory that can be copied from and to; an
address without a mapping has no byte. -/
structure Proc where
  state : ProcState := .unused
  pid : Nat := 0
  parent : Option ProcPtr := none
  trapframe : Trapframe := {}
  ofile : Nat → Option FilePtr := fun _ => none
  cwd : Option InodePtr := none
  tx : Option Page := none
  umem : Nat → Option UChar := fun _ => none

/-- What a page holds, seen through each of the pointer types that can point to it. -/
structure PageData where
  ino : InodeData
  bytes : Block
  tf : Trapframe := {}

/-- `struct log`. The header list `lh` has `lh.n` elements. -/
structure Log where
  outstanding : Int := 0
  committing : Bool := false
  lh : List Nat := []

/-- A device's (or pipe's) `read` and `write`, on user memory. -/
structure DevOps where
  read : (Nat → Option UChar) → Nat → Int → Int × (Nat → Option UChar)
  write : (Nat → Option UChar) → Nat → Int → Int

inductive Event where
  /-- `sys_txbegin` returned 0. -/
  | txbegin (p : ProcPtr)
  /-- `ialloc` marked inode `inum`. -/
  | ialloc (p : ProcPtr) (inum : Nat)
  /-- `iput` returned at its `TX_ACTIVE` test. -/
  | skippedIput (p : ProcPtr) (ip : InodePtr)
  deriving DecidableEq, Repr

structure Kernel where
  sb : Superblock
  disk : Nat → Block
  buf : BufPtr → Buf
  /-- The buffer list from `head.next` to `head.prev`. -/
  lru : List BufPtr
  inode : InodePtr → Inode
  file : FilePtr → File
  proc : ProcPtr → Proc
  tx : Page → Transaction
  heap : Page → PageData
  /-- Free pages, the next one first. -/
  freelist : List Page
  log : Log := {}
  ticks : Nat := 0
  nextpid : Nat := 1
  devsw : Nat → Option DevOps := fun _ => none
  pipeOps : Nat → DevOps
  trace : List Event := []

/-- The `idata` and `idata_ro` calls of the source, by the function they stand in. -/
inductive Site where
  | bmap | itrunc | stati | readi | writei | dirlookup | dirlink
  | namex | namexRo | link | linkBad | isdirempty | unlink | unlinkParent
  | createFound | createNew | createParent | openFound | openAny | chdir
  deriving DecidableEq, Repr

/-- How kernel code can leave a function other than by returning: a panic stops the
machine, a `klongjmp` goes back to `syscall()`. The jump names the refused call. -/
inductive Err where
  | panic (msg : String)
  | jump (c : Site)
  deriving DecidableEq, Repr

/-- Only a panic stops the machine. -/
instance : Fatal Err where
  fatal
    | .panic _ => true
    | .jump _ => false

abbrev K := Prog Kernel Err

def kpanic {α : Type} (msg : String) : K α := .fail (.panic msg)

/-- Panic unless the state satisfies a condition. -/
def kassert (c : Kernel → Bool) (msg : String) : K Unit := .check c (.panic msg)

/-! ## Headers -/
namespace Kernel

def setBuf (s : Kernel) (b : BufPtr) (f : Buf → Buf) : Kernel :=
  { s with buf := Function.update s.buf b (f (s.buf b)) }

def setInode (s : Kernel) (ip : InodePtr) (f : Inode → Inode) : Kernel :=
  { s with inode := Function.update s.inode ip (f (s.inode ip)) }

def setFile (s : Kernel) (fp : FilePtr) (f : File → File) : Kernel :=
  { s with file := Function.update s.file fp (f (s.file fp)) }

def setProc (s : Kernel) (p : ProcPtr) (f : Proc → Proc) : Kernel :=
  { s with proc := Function.update s.proc p (f (s.proc p)) }

def setTx (s : Kernel) (t : Page) (f : Transaction → Transaction) : Kernel :=
  { s with tx := Function.update s.tx t (f (s.tx t)) }

def setPage (s : Kernel) (pg : Page) (f : PageData → PageData) : Kernel :=
  { s with heap := Function.update s.heap pg (f (s.heap pg)) }

/-- `ops->get_xobj(header)->writer`. -/
def writer (s : Kernel) : Header → Option Page
  | .buf b => (s.buf b).writer
  | .inode ip => (s.inode ip).writer

def setWriter (s : Kernel) (w : Option Page) : Header → Kernel
  | .buf b => s.setBuf b fun x => { x with writer := w }
  | .inode ip => s.setInode ip fun x => { x with writer := w }

/-- `*ops->get_data_ptr(header)`. -/
def dataPtr (s : Kernel) : Header → Option Page
  | .buf b => some (s.buf b).data
  | .inode ip => (s.inode ip).data

def setDataPtr (s : Kernel) (pg : Page) : Header → Kernel
  | .buf b => s.setBuf b fun x => { x with data := pg }
  | .inode ip => s.setInode ip fun x => { x with data := some pg }

def lock (s : Kernel) : Header → Sleeplock
  | .buf b => (s.buf b).lock
  | .inode ip => (s.inode ip).lock

def setLock (s : Kernel) (l : Sleeplock) : Header → Kernel
  | .buf b => s.setBuf b fun x => { x with lock := l }
  | .inode ip => s.setInode ip fun x => { x with lock := l }

/-- `p->tx && p->tx->status == TX_ACTIVE`. -/
def txActive (s : Kernel) (p : ProcPtr) : Bool :=
  match (s.proc p).tx with
  | none => false
  | some t => (s.tx t).status == .active

/-- The transaction `p->tx` points to, where it does. -/
def txOf (s : Kernel) (p : ProcPtr) : Transaction :=
  match (s.proc p).tx with
  | none => {}
  | some t => s.tx t

end Kernel

def txActive (p : ProcPtr) : K Bool := .read fun s => s.txActive p

/-! ## Pages -/

/-- What `memset(pa, c, PGSIZE)` leaves in a page. -/
def PageData.fill (c : UChar) : PageData where
  ino := ⟨c ++ c, c ++ c, c ++ c, c ++ c, c ++ c ++ c ++ c, fun _ => c ++ c ++ c ++ c⟩
  bytes := fun _ => c

def Kernel.kfree (s : Kernel) (pa : Page) : Kernel :=
  { s.setPage pa (fun _ => .fill 1) with freelist := pa :: s.freelist }

def Kernel.kalloc (s : Kernel) : Option Page × Kernel :=
  match s.freelist with
  | [] => (none, s)
  | r :: rest => (some r, { s.setPage r (fun _ => .fill 5) with freelist := rest })

def kfree (pa : Page) : K Unit := .update fun s => s.kfree pa
def kalloc : K (Option Page) := .atom fun s => s.kalloc

/-! ## Sleep locks -/

def acquiresleep (p : ProcPtr) (h : Header) : K Unit :=
  .await (fun s => !(s.lock h).locked) fun s => s.setLock ⟨true, (s.proc p).pid⟩ h

def releasesleep (h : Header) : K Unit := .update fun s => s.setLock ⟨false, 0⟩ h

def Kernel.holdingsleep (s : Kernel) (p : ProcPtr) (h : Header) : Bool :=
  (s.lock h).locked && (s.lock h).pid == (s.proc p).pid

end Txv6
