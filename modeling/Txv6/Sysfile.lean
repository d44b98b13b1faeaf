import Txv6.File

/-! # File system calls

`sysfile.c`. A call takes its arguments as `argint`, `argaddr` and `argstr` deliver
them; a path that `argstr` cannot fetch is `none`.
-/
namespace Txv6
open Lib

/-- `argfd`. -/
def Kernel.argfd (s : Kernel) (p : ProcPtr) (fd : Int) : Option FilePtr :=
  if fd < 0 ∨ (nofile : Int) ≤ fd then none else (s.proc p).ofile fd.toNat

/-- `fdalloc`: the first free descriptor. -/
def Kernel.fdalloc (s : Kernel) (p : ProcPtr) : Option Nat :=
  (List.range nofile).find? fun fd => (s.proc p).ofile fd == none

def Kernel.setOfile (s : Kernel) (p : ProcPtr) (fd : Nat) (f : Option FilePtr) : Kernel :=
  s.setProc p fun x => { x with ofile := Function.update x.ofile fd f }

def sysDup (p : ProcPtr) (fd : Int) : K Int := do
  match ← .read fun s => s.argfd p fd with
  | none => return -1
  | some f =>
    match ← .read fun s => s.fdalloc p with
    | none => return -1
    | some nfd =>
      .update fun s => s.setOfile p nfd (some f)
      filedup f
      return nfd

def sysRead (p : ProcPtr) (fd : Int) (va : Nat) (n : Int) : K Int := do
  match ← .read fun s => s.argfd p fd with
  | none => return -1
  | some f => fileread p f va n

def sysWrite (p : ProcPtr) (fd : Int) (va : Nat) (n : Int) : K Int := do
  match ← .read fun s => s.argfd p fd with
  | none => return -1
  | some f => filewrite p f va n

def sysClose (p : ProcPtr) (fd : Int) : K Int := do
  match ← .read fun s => s.argfd p fd with
  | none => return -1
  | some f =>
    .update fun s => s.setOfile p fd.toNat none
    fileclose p f
    return 0

def sysFstat (p : ProcPtr) (fd : Int) (va : Nat) : K Int := do
  match ← .read fun s => s.argfd p fd with
  | none => return -1
  | some f => filestat p f va

/-! ## Links -/

/-- The label `bad` of `sys_link`. -/
def linkBad (p : ProcPtr) (ip : InodePtr) : K Int := do
  ilock p ip
  let ipd ← idata .linkBad p ip
  setIfield ipd fun x => { x with nlink := x.nlink - 1 }
  iupdate p ip
  iunlockput p ip
  endOp p
  return -1

/-- Create the path new as a link to the same inode as old. -/
def sysLink (p : ProcPtr) (old new : Option Path) : K Int := do
  match old, new with
  | some old, some new =>
    beginOp p
    match ← namei p old with
    | none =>
      endOp p
      return -1
    | some ip =>
      ilock p ip
      let ipd ← idata .link p ip
      let type ← ifield ipd (·.type)
      if type = tDir then
        iunlockput p ip
        endOp p
        return -1
      else
        setIfield ipd fun x => { x with nlink := x.nlink + 1 }
        iupdate p ip
        iunlock p ip
        match ← nameiparent p new with
        | none => linkBad p ip
        | some (dp, name) =>
          ilock p dp
          let sameDev ← .read fun s => (s.inode dp).dev == (s.inode ip).dev
          let inum ← .read fun s => (s.inode ip).inum
          let r ← (if sameDev then dirlink p dp name inum else pure (-1))
          if r < 0 then
            iunlockput p dp
            linkBad p ip
          else
            iunlockput p dp
            iput p ip
            endOp p
            return 0
  | _, _ => return -1

def isdiremptyLoop (p : ProcPtr) (dp : InodePtr) : Nat → Nat → K Bool
  | 0, _ => return true
  | fuel + 1, off => do
    let d ← idata .isdirempty p dp
    let size ← ifield d (·.size)
    if off < size.toNat then
      let r ← readi p dp .kernel off direntSize
      if r.1 ≠ direntSize then kpanic "isdirempty: readi"
      else if (Dirent.ofBytes r.2).inum ≠ 0 then return false
      else isdiremptyLoop p dp fuel (off + direntSize)
    else return true

/-- Is the directory dp empty except for "." and ".." ? -/
def isdirempty (p : ProcPtr) (dp : InodePtr) : K Bool :=
  isdiremptyLoop p dp direntRounds (2 * direntSize)

def dot : Name := [0x2e]
def dotdot : Name := [0x2e, 0x2e]

/-- The label `bad` of `sys_unlink`. -/
def unlinkBad (p : ProcPtr) (dp : InodePtr) : K Int := do
  iunlockput p dp
  endOp p
  return -1

/-- `sys_unlink` from the check of the entry's inode on: the entry at `off` of `dp`
is the one of `ip`. -/
def unlinkEntry (p : ProcPtr) (dp ip : InodePtr) (off : Nat) : K Int := do
  ilock p ip
  let ipd ← idata .unlink p ip
  kassert (fun s => decide (1 ≤ (s.heap ipd).ino.nlink.toInt)) "unlink: nlink < 1"
  let type ← ifield ipd (·.type)
  let empty ← (if type = tDir then isdirempty p ip else pure true)
  if !empty then
    iunlockput p ip
    unlinkBad p dp
  else
    let r ← writei p dp (.kernel (List.replicate direntSize 0)) off direntSize
    if r ≠ direntSize then kpanic "unlink: writei"
    else
      let type ← ifield ipd (·.type)
      Prog.when (type == tDir) do
        let dpd ← idata .unlinkParent p dp
        setIfield dpd fun x => { x with nlink := x.nlink - 1 }
        iupdate p dp
      iunlockput p dp
      setIfield ipd fun x => { x with nlink := x.nlink - 1 }
      iupdate p ip
      iunlockput p ip
      endOp p
      return 0

def sysUnlink (p : ProcPtr) (path : Option Path) : K Int := do
  match path with
  | none => return -1
  | some path =>
    beginOp p
    match ← nameiparent p path with
    | none =>
      endOp p
      return -1
    | some (dp, name) =>
      ilock p dp
      if namecmp name dot = 0 ∨ namecmp name dotdot = 0 then unlinkBad p dp
      else
        match ← dirlookup p dp name with
        | none => unlinkBad p dp
        | some (ip, off) => unlinkEntry p dp ip off

/-! ## Creating -/

/-- The label `fail` of `create`. -/
def createFail (p : ProcPtr) (dp ip : InodePtr) (ipd : Page) : K (Option InodePtr) := do
  setIfield ipd fun x => { x with nlink := 0 }
  iupdate p ip
  iunlockput p ip
  iunlockput p dp
  return none

/-- The "." and ".." entries of a new directory; -1 if one of them cannot be made. -/
def createDots (p : ProcPtr) (dp ip : InodePtr) : K Int := do
  let inum ← .read fun s => (s.inode ip).inum
  let r ← dirlink p ip dot inum
  if r < 0 then return -1
  else
    let dinum ← .read fun s => (s.inode dp).inum
    dirlink p ip dotdot dinum

/-- `create` once `ialloc` has returned `ip`. -/
def createNew (p : ProcPtr) (dp ip : InodePtr) (name : Name) (type major minor : Short) :
    K (Option InodePtr) := do
  ilock p ip
  let ipd ← idata .createNew p ip
  setIfield ipd fun x => { x with major := major, minor := minor, nlink := 1 }
  iupdate p ip
  let r ← (if type = tDir then createDots p dp ip else pure 0)
  if r < 0 then createFail p dp ip ipd
  else
    let inum ← .read fun s => (s.inode ip).inum
    let r ← dirlink p dp name inum
    if r < 0 then createFail p dp ip ipd
    else
      Prog.when (type == tDir) do
        let dpd ← idata .createParent p dp
        setIfield dpd fun x => { x with nlink := x.nlink + 1 }
        iupdate p dp
      iunlockput p dp
      return some ip

/-- `create` when the name exists. -/
def createFound (p : ProcPtr) (dp ip : InodePtr) (type : Short) : K (Option InodePtr) := do
  iunlockput p dp
  ilock p ip
  let ipd ← idata .createFound p ip
  let t ← ifield ipd (·.type)
  if type = tFile ∧ (t = tFile ∨ t = tDevice) then return some ip
  else
    iunlockput p ip
    return none

/-- Returns the inode locked. -/
def create (p : ProcPtr) (path : Path) (type major minor : Short) : K (Option InodePtr) := do
  match ← nameiparent p path with
  | none => return none
  | some (dp, name) =>
    ilock p dp
    match ← dirlookup p dp name with
    | some r => createFound p dp r.1 type
    | none =>
      let dev ← .read fun s => (s.inode dp).dev
      match ← ialloc p dev type with
      | none =>
        iunlockput p dp
        return none
      | some ip => createNew p dp ip name type major minor

/-! ## Opening -/

/-- `filealloc`, `fdalloc` and the initialisation of the new `struct file`, which no
other process can reach yet. Nothing remains of a failed attempt. -/
def Kernel.openFile (s : Kernel) (p : ProcPtr) (ip : InodePtr) (omode : Nat) (type major : Short) :
    Option Nat × Kernel :=
  match s.filealloc, s.fdalloc p with
  | some f, some fd =>
    let ff : File := {
      type := if type = tDevice then .device else .inode
      ref := 1
      readable := omode &&& oWronly == 0
      writable := omode &&& oWronly != 0 || omode &&& oRdwr != 0
      pipe := (s.file f).pipe
      ip := some ip
      off := if type = tDevice then (s.file f).off else 0
      major := if type = tDevice then major else (s.file f).major }
    (some fd, (s.setFile f fun _ => ff).setOfile p fd (some f))
  | _, _ => (none, s)

/-- `sys_open` from the point where the two ways to find the inode meet. -/
def openInode (p : ProcPtr) (ip : InodePtr) (omode : Nat) : K Int := do
  let ipd ← idata .openAny p ip
  let type ← ifield ipd (·.type)
  let major ← ifield ipd (·.major)
  if type = tDevice ∧ (major.toInt < 0 ∨ (ndev : Int) ≤ major.toInt) then
    iunlockput p ip
    endOp p
    return -1
  else
    match ← .atom fun s => s.openFile p ip omode type major with
    | none =>
      iunlockput p ip
      endOp p
      return -1
    | some fd =>
      let type ← ifield ipd (·.type)
      Prog.when (omode &&& oTrunc != 0 && type == tFile) (itrunc p ip)
      iunlock p ip
      endOp p
      return fd

def sysOpen (p : ProcPtr) (path : Option Path) (omode : Nat) : K Int := do
  match path with
  | none => return -1
  | some path =>
    beginOp p
    if omode &&& oCreate ≠ 0 then
      match ← create p path tFile 0 0 with
      | none =>
        endOp p
        return -1
      | some ip => openInode p ip omode
    else
      match ← namei p path with
      | none =>
        endOp p
        return -1
      | some ip =>
        ilock p ip
        let ipd ← idata .openFound p ip
        let type ← ifield ipd (·.type)
        if type = tDir ∧ omode ≠ oRdonly then
          iunlockput p ip
          endOp p
          return -1
        else openInode p ip omode

/-- `sys_mkdir` and `sys_mknod` after their arguments: make the node and drop it. -/
def makeNode (p : ProcPtr) (path : Option Path) (type major minor : Short) : K Int := do
  beginOp p
  match path with
  | none =>
    endOp p
    return -1
  | some path =>
    match ← create p path type major minor with
    | none =>
      endOp p
      return -1
    | some ip =>
      iunlockput p ip
      endOp p
      return 0

def sysMkdir (p : ProcPtr) (path : Option Path) : K Int := makeNode p path tDir 0 0

def sysMknod (p : ProcPtr) (path : Option Path) (major minor : Short) : K Int :=
  makeNode p path tDevice major minor

/-- The last lines of `sys_chdir`. -/
def changeCwd (p : ProcPtr) (ip : InodePtr) : K Int := do
  let cwd ← cwdOf p
  iput p cwd
  endOp p
  .update fun s => s.setProc p fun x => { x with cwd := some ip }
  return 0

def sysChdir (p : ProcPtr) (path : Option Path) : K Int := do
  beginOp p
  match path with
  | none =>
    endOp p
    return -1
  | some path =>
    match ← namei p path with
    | none =>
      endOp p
      return -1
    | some ip =>
      ilock p ip
      let d ← idata .chdir p ip
      let type ← ifield d (·.type)
      if type ≠ tDir then
        iunlockput p ip
        endOp p
        return -1
      else
        iunlock p ip
        changeCwd p ip

/-- The file system calls. -/
inductive FsCall where
  | open (path : Option Path) (omode : Nat)
  | read (fd : Int) (va : Nat) (n : Int)
  | write (fd : Int) (va : Nat) (n : Int)
  | close (fd : Int)
  | dup (fd : Int)
  | fstat (fd : Int) (va : Nat)
  | link (old new : Option Path)
  | unlink (path : Option Path)
  | mkdir (path : Option Path)
  | mknod (path : Option Path) (major minor : Short)
  | chdir (path : Option Path)

/-- `syscalls[num]()`. -/
def FsCall.body (p : ProcPtr) : FsCall → K Int
  | .open path omode => sysOpen p path omode
  | .read fd va n => sysRead p fd va n
  | .write fd va n => sysWrite p fd va n
  | .close fd => sysClose p fd
  | .dup fd => sysDup p fd
  | .fstat fd va => sysFstat p fd va
  | .link old new => sysLink p old new
  | .unlink path => sysUnlink p path
  | .mkdir path => sysMkdir p path
  | .mknod path major minor => sysMknod p path major minor
  | .chdir path => sysChdir p path

end Txv6
