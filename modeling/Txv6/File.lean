import Mathlib.Algebra.Ring.Int.Defs
import Txv6.Fs

/-! # Open files

`file.c`. Pipes and devices are reached through their read and write functions only;
what these do to user memory is part of the state (`pipeOps`, `devsw`).
-/
namespace Txv6
open Lib

/-- `filealloc`: a free slot of the file table. -/
def Kernel.filealloc (s : Kernel) : Option FilePtr :=
  (List.finRange nfile).find? fun f => (s.file f).ref == 0

def filedup (f : FilePtr) : K Unit := do
  atomOrPanic fun s =>
    if (s.file f).ref < 1 then (.error "filedup", s)
    else (.ok (), s.setFile f fun x => { x with ref := x.ref + 1 })

/-- Dereference `f->ip`. -/
def fileInode (f : File) : K InodePtr :=
  match f.ip with
  | none => kpanic "kerneltrap"
  | some ip => return ip

/-- The part of `fileclose` under `ftable.lock`: the file, if this was the last
reference to it. -/
def Kernel.fileclose (s : Kernel) (f : FilePtr) : Except String (Option File) × Kernel :=
  if (s.file f).ref < 1 then (.error "fileclose", s)
  else if 1 < (s.file f).ref then
    (.ok none, s.setFile f fun x => { x with ref := x.ref - 1 })
  else (.ok (some (s.file f)), s.setFile f fun x => { x with ref := 0, type := .none })

/-- What `fileclose` does with the file that is gone. Closing a pipe end changes
nothing that is modelled here. -/
def filePut (p : ProcPtr) (ff : File) : K Unit :=
  match ff.type with
  | .inode | .device => do
    let ip ← fileInode ff
    beginOp p
    iput p ip
    endOp p
  | _ => return

def fileclose (p : ProcPtr) (f : FilePtr) : K Unit := do
  match ← atomOrPanic fun s => s.fileclose f with
  | none => return
  | some ff => filePut p ff

def bytes32 (x : Uint) : List UChar := [byteOf x 0, byteOf x 1, byteOf x 2, byteOf x 3]

/-- `struct stat` in memory; the four bytes of padding are zero. -/
def Stat.bytes (st : Stat) : List UChar :=
  bytes32 (BitVec.ofNat 32 st.dev) ++ bytes32 (BitVec.ofNat 32 st.ino) ++
  [byteOf st.type 0, byteOf st.type 1, byteOf st.nlink 0, byteOf st.nlink 1] ++
  bytes32 0 ++ bytes32 st.size ++ bytes32 0

/-- Get metadata about file f. -/
def filestat (p : ProcPtr) (f : FilePtr) (addr : Nat) : K Int := do
  let ff ← .read fun s => s.file f
  if ff.type = .inode ∨ ff.type = .device then
    let ip ← fileInode ff
    ilock p ip
    let st ← stati p ip
    iunlock p ip
    if ← copyoutTo p addr st.bytes then return 0 else return -1
  else return -1

/-- A device's or pipe's read, into the memory of the running process. -/
def devRead (p : ProcPtr) (dev : DevOps) (addr : Nat) (n : Int) : K Int :=
  .atom fun s =>
    let r := dev.read (s.proc p).umem addr n
    (r.1, s.setProc p fun x => { x with umem := r.2 })

/-- `devsw[f->major]`, where the major number is in range. -/
def Kernel.device (s : Kernel) (major : Short) : Option DevOps :=
  if major.toInt < 0 ∨ (ndev : Int) ≤ major.toInt then none else s.devsw major.toInt.toNat

/-- Read from file f. -/
def fileread (p : ProcPtr) (f : FilePtr) (addr : Nat) (n : Int) : K Int := do
  let ff ← .read fun s => s.file f
  if !ff.readable then return -1
  else
    match ff.type with
    | .pipe =>
      let dev ← .read fun s => s.pipeOps ff.pipe
      devRead p dev addr n
    | .device =>
      match ← .read fun s => s.device ff.major with
      | none => return -1
      | some dev => devRead p dev addr n
    | .inode =>
      let ip ← fileInode ff
      ilock p ip
      let off ← .read fun s => (s.file f).off
      let r ← readi p ip (.user addr) off (n % 2 ^ 32).toNat
      Prog.when (decide (0 < r.1)) do
        .update fun s => s.setFile f fun x => { x with off := x.off + r.1.toNat }
      iunlock p ip
      return r.1
    | .none => kpanic "fileread"

/-- The loop of `filewrite`: a few blocks at a time. Returns the bytes written. -/
def filewriteLoop (p : ProcPtr) (f : FilePtr) (ip : InodePtr) (addr : Nat) (n : Int) :
    Nat → Int → K Int
  | 0, i => return i
  | fuel + 1, i => do
    if i < n then
      let max : Int := ((maxopblocks - 1 - 1 - 2) / 2) * bsize
      let n1 := min (n - i) max
      beginOp p
      ilock p ip
      let off ← .read fun s => (s.file f).off
      let r ← writei p ip (.user (addr + i.toNat)) off n1.toNat
      Prog.when (decide (0 < r)) do
        .update fun s => s.setFile f fun x => { x with off := x.off + r.toNat }
      iunlock p ip
      endOp p
      if r ≠ n1 then return i
      else filewriteLoop p f ip addr n fuel (i + r)
    else return i

/-- Write to file f. -/
def filewrite (p : ProcPtr) (f : FilePtr) (addr : Nat) (n : Int) : K Int := do
  let ff ← .read fun s => s.file f
  if !ff.writable then return -1
  else
    match ff.type with
    | .pipe => .read fun s => (s.pipeOps ff.pipe).write (s.proc p).umem addr n
    | .device =>
      match ← .read fun s => s.device ff.major with
      | none => return -1
      | some dev => .read fun s => dev.write (s.proc p).umem addr n
    | .inode =>
      let ip ← fileInode ff
      let i ← filewriteLoop p f ip addr n n.toNat 0
      return if i = n then n else -1
    | .none => kpanic "filewrite"

end Txv6
