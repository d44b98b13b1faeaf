import Txv6.Inode

/-! # File contents, directories and paths

The upper half of `fs.c`. Offsets and lengths are natural numbers below `2^32`; where
the source adds two of them in 32 bits and tests for wrap-around, so does the model.
-/
namespace Txv6
open Lib

/-! ## Copies to and from user memory -/

/-- Where `readi` puts bytes: a user address, or a kernel buffer (its result). -/
inductive Dst where
  | user (va : Nat)
  | kernel

/-- Where `writei` takes bytes from. -/
inductive Src where
  | user (va : Nat)
  | kernel (bs : List UChar)

/-- `copyout`: byte after byte until an address without a mapping. -/
def copyout (m : Nat → Option UChar) (va : Nat) : List UChar → Bool × (Nat → Option UChar)
  | [] => (true, m)
  | b :: bs =>
    match m va with
    | none => (false, m)
    | some _ => copyout (Function.update m va (some b)) (va + 1) bs

/-- `copyin`: the bytes up to the first address without a mapping, and whether that
was all of them. -/
def copyin (m : Nat → Option UChar) (va : Nat) : Nat → List UChar × Bool
  | 0 => ([], true)
  | n + 1 =>
    match m va with
    | none => ([], false)
    | some b => let (bs, ok) := copyin m (va + 1) n; (b :: bs, ok)

/-- `copyout` to the running process. -/
def copyoutTo (p : ProcPtr) (va : Nat) (bs : List UChar) : K Bool :=
  .atom fun s =>
    let r := copyout (s.proc p).umem va bs
    (r.1, s.setProc p fun x => { x with umem := r.2 })

/-- `either_copyout` of bytes `tot ..` of a transfer. -/
def eitherCopyout (p : ProcPtr) (dst : Dst) (tot : Nat) (bs : List UChar) : K Bool :=
  match dst with
  | .user va => copyoutTo p (va + tot) bs
  | .kernel => return true

/-- `either_copyin` of `m` bytes to offset `o` of the page `d`. What precedes a fault
has been copied. -/
def eitherCopyin (p : ProcPtr) (d : Page) (o : Nat) (src : Src) (tot m : Nat) : K Bool :=
  match src with
  | .user va => do
    let (bs, ok) ← .read fun s => copyin (s.proc p).umem (va + tot) m
    setBfield d fun x => putBytes x o bs
    return ok
  | .kernel bs => do
    setBfield d fun x => putBytes x o ((bs.drop tot).take m)
    return true

/-! ## Inode content -/

/-- An address slot of the inode: what it holds, or a new block if it is empty. -/
def bmapSlot (p : ProcPtr) (dev : Nat) (d : Page) (slot : Fin (ndirect + 1)) : K Nat := do
  let addr ← ifield d (·.addrs slot)
  if addr ≠ 0 then return addr.toNat
  else
    let addr ← balloc p dev
    if addr = 0 then return 0
    else
      setIfield d fun x => { x with addrs := Function.update x.addrs slot (BitVec.ofNat 32 addr) }
      return addr

/-- An entry of the indirect block: what it holds, or a new block if it is empty. -/
def bmapEntry (p : ProcPtr) (dev : Nat) (bp : BufPtr) (a : Page) (bn : Nat) : K Nat := do
  let addr ← bfield a fun b => le32 b (4 * bn)
  if addr ≠ 0 then return addr.toNat
  else
    let addr ← balloc p dev
    if addr = 0 then return 0
    else
      setBfield a fun b => put32 b (4 * bn) (BitVec.ofNat 32 addr)
      logWrite p bp
      return addr

/-- The disk block address of block `bn` of an inode, allocated if there is none. -/
def bmap (p : ProcPtr) (ip : InodePtr) (bn : Nat) : K Nat := do
  let d ← idata .bmap p ip
  let dev ← .read fun s => (s.inode ip).dev
  if h : bn < ndirect then bmapSlot p dev d ⟨bn, by omega⟩
  else if bn - ndirect < nindirect then
    let ind ← bmapSlot p dev d (Fin.last ndirect)
    if ind = 0 then return 0
    else
      let bp ← bread p dev ind
      let a ← bdata p bp
      let addr ← bmapEntry p dev bp a (bn - ndirect)
      brelse p bp
      return addr
  else kpanic "bmap: out of range"

structure Stat where
  dev : Nat
  ino : Nat
  type : Short
  nlink : Short
  size : Uint

def stati (p : ProcPtr) (ip : InodePtr) : K Stat := do
  let d ← idata .stati p ip
  .read fun s => {
    dev := (s.inode ip).dev
    ino := (s.inode ip).inum
    type := (s.heap d).ino.type
    nlink := (s.heap d).ino.nlink
    size := (s.heap d).ino.size }

/-- The loop of `readi`. Every round moves at least one byte, so `n` rounds are enough. -/
def readiLoop (p : ProcPtr) (ip : InodePtr) (dst : Dst) (n : Nat) :
    Nat → Nat → Nat → List UChar → K (Int × List UChar)
  | 0, tot, _, acc => return (tot, acc)
  | fuel + 1, tot, off, acc => do
    if tot < n then
      let addr ← bmap p ip (off / bsize)
      if addr = 0 then return (tot, acc)
      else
        let dev ← .read fun s => (s.inode ip).dev
        let bp ← bread p dev addr
        let m := min (n - tot) (bsize - off % bsize)
        let d ← bdata p bp
        let bs ← bfield d fun b => getBytes b (off % bsize) m
        if ← eitherCopyout p dst tot bs then
          brelse p bp
          readiLoop p ip dst n fuel (tot + m) (off + m) (acc ++ bs)
        else
          brelse p bp
          return (-1, acc)
    else return (tot, acc)

/-- Read data from inode: the result of the source and the bytes for a kernel buffer. -/
def readi (p : ProcPtr) (ip : InodePtr) (dst : Dst) (off n : Nat) : K (Int × List UChar) := do
  let d ← idata .readi p ip
  let size := (← ifield d (·.size)).toNat
  if size < off ∨ (off + n) % 2 ^ 32 < off then return (0, [])
  else
    let n := if size < (off + n) % 2 ^ 32 then size - off else n
    readiLoop p ip dst n n 0 off []

/-- The loop of `writei`: the bytes written and the offset it stops at. -/
def writeiLoop (p : ProcPtr) (ip : InodePtr) (src : Src) (n : Nat) :
    Nat → Nat → Nat → K (Nat × Nat)
  | 0, tot, off => return (tot, off)
  | fuel + 1, tot, off => do
    if tot < n then
      let addr ← bmap p ip (off / bsize)
      if addr = 0 then return (tot, off)
      else
        let dev ← .read fun s => (s.inode ip).dev
        let bp ← bread p dev addr
        let m := min (n - tot) (bsize - off % bsize)
        let d ← bdata p bp
        if ← eitherCopyin p d (off % bsize) src tot m then
          logWrite p bp
          brelse p bp
          writeiLoop p ip src n fuel (tot + m) (off + m)
        else
          brelse p bp
          return (tot, off)
    else return (tot, off)

/-- Write data to inode. Returns the number of bytes written, or -1. -/
def writei (p : ProcPtr) (ip : InodePtr) (src : Src) (off n : Nat) : K Int := do
  let d ← idata .writei p ip
  let size := (← ifield d (·.size)).toNat
  if size < off ∨ (off + n) % 2 ^ 32 < off then return -1
  else if maxfile * bsize < (off + n) % 2 ^ 32 then return -1
  else
    let r ← writeiLoop p ip src n n 0 off
    let size ← ifield d (·.size)
    Prog.when (decide (size.toNat < r.2)) do
      setIfield d fun x => { x with size := BitVec.ofNat 32 r.2 }
    iupdate p ip
    return r.1

/-! ## Directories -/

/-- Sizes are below `2^32`, so no loop over the entries of a directory takes more rounds. -/
abbrev direntRounds : Nat := 2 ^ 32 / direntSize + 1

def dirlookupLoop (p : ProcPtr) (dp : InodePtr) (d : Page) (name : Name) :
    Nat → Nat → K (Option (InodePtr × Nat))
  | 0, _ => return none
  | fuel + 1, off => do
    let size ← ifield d (·.size)
    if off < size.toNat then
      let r ← readi p dp .kernel off direntSize
      if r.1 ≠ direntSize then kpanic "dirlookup read"
      else
        let de := Dirent.ofBytes r.2
        if de.inum = 0 then dirlookupLoop p dp d name fuel (off + direntSize)
        else if namecmp name de.name = 0 then
          let dev ← .read fun s => (s.inode dp).dev
          let ip ← iget dev de.inum
          return some (ip, off)
        else dirlookupLoop p dp d name fuel (off + direntSize)
    else return none

/-- Look for a directory entry: the inode and the byte offset of the entry. -/
def dirlookup (p : ProcPtr) (dp : InodePtr) (name : Name) : K (Option (InodePtr × Nat)) := do
  let d ← idata .dirlookup p dp
  kassert (fun s => (s.heap d).ino.type == tDir) "dirlookup not DIR"
  dirlookupLoop p dp d name direntRounds 0

/-- The offset of the first empty entry, or the end of the directory. -/
def emptySlotLoop (p : ProcPtr) (dp : InodePtr) (d : Page) : Nat → Nat → K Nat
  | 0, off => return off
  | fuel + 1, off => do
    let size ← ifield d (·.size)
    if off < size.toNat then
      let r ← readi p dp .kernel off direntSize
      if r.1 ≠ direntSize then kpanic "dirlink read"
      else if (Dirent.ofBytes r.2).inum = 0 then return off
      else emptySlotLoop p dp d fuel (off + direntSize)
    else return off

/-- Write a new directory entry (name, inum) into the directory dp. -/
def dirlink (p : ProcPtr) (dp : InodePtr) (name : Name) (inum : Nat) : K Int := do
  match ← dirlookup p dp name with
  | some r =>
    iput p r.1
    return -1
  | none =>
    let d ← idata .dirlink p dp
    let off ← emptySlotLoop p dp d direntRounds 0
    let de : Dirent := ⟨inum, strncpy name dirsiz⟩
    let r ← writei p dp (.kernel de.bytes) off direntSize
    if r ≠ direntSize then return -1 else return 0

/-! ## Paths -/

/-- The loop of `namex`. The path gets shorter in every round. -/
def namexLoop (p : ProcPtr) (parent : Bool) :
    Nat → InodePtr → Path → Name → K (Option (InodePtr × Name))
  | 0, _, _, _ => return none
  | fuel + 1, ip, path, name =>
    match skipelem path with
    | none => do
      if parent then
        iput p ip
        return none
      else return some (ip, name)
    | some (path, name) => do
      ilock p ip
      let d ← idata .namex p ip
      let type ← ifield d (·.type)
      if type ≠ tDir then
        let _ ← idataRo .namexRo p ip
        iunlockput p ip
        return none
      else if parent ∧ path = [] then
        iunlock p ip
        return some (ip, name)
      else
        match ← dirlookup p ip name with
        | none =>
          let _ ← idataRo .namexRo p ip
          iunlockput p ip
          return none
        | some next =>
          let _ ← idataRo .namexRo p ip
          iunlockput p ip
          namexLoop p parent fuel next.1 path name

/-- Dereference `myproc()->cwd`. -/
def cwdOf (p : ProcPtr) : K InodePtr := do
  match ← .read fun s => (s.proc p).cwd with
  | none => kpanic "kerneltrap"
  | some ip => return ip

/-- Where `namex` starts. -/
def startOf (p : ProcPtr) (path : Path) : K InodePtr := do
  if path.head? = some slash then iget rootdev rootino
  else
    let cwd ← cwdOf p
    idup cwd

/-- Look up the inode for a path name, or its parent and the last element. -/
def namex (p : ProcPtr) (path : Path) (parent : Bool) : K (Option (InodePtr × Name)) := do
  let ip ← startOf p path
  namexLoop p parent (path.length + 1) ip path []

def namei (p : ProcPtr) (path : Path) : K (Option InodePtr) := do
  let r ← namex p path false
  return r.map (·.1)

def nameiparent (p : ProcPtr) (path : Path) : K (Option (InodePtr × Name)) := namex p path true

end Txv6
