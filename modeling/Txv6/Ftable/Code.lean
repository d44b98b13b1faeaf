import Txv6.Systx
import Txv6.Lib.Ghost

/-! # The table of open files

`file.c`, the descriptors of the processes and the two ends of the pipes, with everything that
`sys_open`, `sys_dup`, `sys_close`, `sys_pipe`, `kfork` and `kexit` do to them. Of the file system
code in between, of `kalloc` and of `copyout` only the outcome matters here, and it is left open:
a call comes with it. Inside of a transaction the file system code may jump out of the call.
-/
namespace Txv6.Ftable
open Lib

/-- `readopen` and `writeopen` of `struct pipe`. -/
structure Ends where
  readopen : Bool
  writeopen : Bool

namespace Ends

def isOpen (e : Ends) (writable : Bool) : Bool := if writable then e.writeopen else e.readopen

def close (e : Ends) (writable : Bool) : Ends :=
  if writable then { e with writeopen := false } else { e with readopen := false }

end Ends

structure State where
  file : FilePtr → File := fun _ => {}
  ofile : ProcPtr → Nat → Option FilePtr := fun _ _ => none
  state : ProcPtr → ProcState := fun _ => .unused
  /-- The pages that are used for a pipe. -/
  pipe : Page → Option Ends := fun _ => none

namespace State

def setFile (s : State) (f : FilePtr) (g : File → File) : State :=
  { s with file := Function.update s.file f (g (s.file f)) }

def setOfile (s : State) (p : ProcPtr) (fd : Nat) (f : Option FilePtr) : State :=
  { s with ofile := Function.update s.ofile p (Function.update (s.ofile p) fd f) }

def setState (s : State) (p : ProcPtr) (st : ProcState) : State :=
  { s with state := Function.update s.state p st }

def setPipe (s : State) (pi : Page) (e : Option Ends) : State :=
  { s with pipe := Function.update s.pipe pi e }

end State

abbrev F := Prog State Err

/-! ## file.c and pipe.c -/

def filealloc : F (Option FilePtr) :=
  .atom fun s =>
    match (List.finRange nfile).find? fun f => (s.file f).ref == 0 with
    | none => (none, s)
    | some f => (some f, s.setFile f fun x => { x with ref := 1 })

def filedup (f : FilePtr) : F Unit :=
  .attempt fun s =>
    if (s.file f).ref < 1 then (.error (.panic "filedup"), s)
    else (.ok (), s.setFile f fun x => { x with ref := x.ref + 1 })

/-- The part of `pipeclose` under the lock of the pipe: whether both ends are closed now. -/
def State.pipeclose (s : State) (pi : Page) (writable : Bool) : Bool × State :=
  match s.pipe pi with
  | none => (false, s)
  | some e =>
    let e := e.close writable
    (!e.readopen && !e.writeopen, s.setPipe pi (some e))

def pipeclose (pi : Page) (writable : Bool) : F Unit := do
  let last ← .atom fun s => s.pipeclose pi writable
  -- kfree
  Prog.when last (.update fun s => s.setPipe pi none)

/-- The part of `fileclose` under `ftable.lock`. -/
def State.fileclose (s : State) (f : FilePtr) : Except Err (Option File) × State :=
  if (s.file f).ref < 1 then (.error (.panic "fileclose"), s)
  else if 1 < (s.file f).ref then (.ok none, s.setFile f fun x => { x with ref := x.ref - 1 })
  else (.ok (some (s.file f)), s.setFile f fun x => { x with ref := 0, type := .none })

def fileclose (f : FilePtr) : F Unit := do
  match ← .attempt fun s => s.fileclose f with
  | none => return
  -- of an inode or a device, `iput` in an operation of its own
  | some ff => Prog.when (ff.type == .pipe) (pipeclose ff.pipe ff.writable)

/-- `kalloc`: a page that is not in use, full of junk. -/
def kalloc (mem : Option Page) : F (Option Page) :=
  match mem with
  | none => return none
  | some pi => do
    .await (fun s => (s.pipe pi).isNone) fun s => s.setPipe pi (some ⟨true, true⟩)
    return some pi

def pipealloc (mem : Option Page) : F (Option (FilePtr × FilePtr)) := do
  match ← filealloc with
  | none => return none
  | some f0 =>
    match ← filealloc with
    | none =>
      fileclose f0
      return none
    | some f1 =>
      match ← kalloc mem with
      | none =>
        fileclose f0
        fileclose f1
        return none
      | some pi =>
        .update fun s => s.setPipe pi (some ⟨true, true⟩)
        -- no other process can reach the new files yet
        .update fun s => s.setFile f0 fun x =>
          { x with type := .pipe, readable := true, writable := false, pipe := pi }
        .update fun s => s.setFile f1 fun x =>
          { x with type := .pipe, readable := false, writable := true, pipe := pi }
        return some (f0, f1)

/-! ## sysfile.c -/

def State.argfd (s : State) (p : ProcPtr) (fd : Int) : Option FilePtr :=
  if fd < 0 ∨ (nofile : Int) ≤ fd then none else s.ofile p fd.toNat

def fdalloc (p : ProcPtr) (f : FilePtr) : F (Option Nat) :=
  .atom fun s =>
    match (List.range nofile).find? fun fd => s.ofile p fd == none with
    | none => (none, s)
    | some fd => (some fd, s.setOfile p fd (some f))

def sysDup (p : ProcPtr) (fd : Int) : F Int := do
  match ← .read fun s => s.argfd p fd with
  | none => return -1
  | some f =>
    match ← fdalloc p f with
    | none => return -1
    | some nfd =>
      filedup f
      return nfd

def sysClose (p : ProcPtr) (fd : Int) : F Int := do
  match ← .read fun s => s.argfd p fd with
  | none => return -1
  | some f =>
    .update fun s => s.setOfile p fd.toNat none
    fileclose f
    return 0

/-- How the file system code of `sys_open` ends: it finds no inode that can be opened, or jumps
out of the call, or has one, and may still jump out of the call in `itrunc`. -/
inductive Found where
  | fails
  | jumps (c : Site)
  | inode (device : Bool) (late : Option Site)

def sysOpen (p : ProcPtr) (omode : Nat) : Found → F Int
  | .fails => return -1
  | .jumps c => .fail (.jump c)
  | .inode device late => do
    match ← filealloc with
    | none => return -1
    | some f =>
      match ← fdalloc p f with
      | none =>
        fileclose f
        return -1
      | some fd =>
        .update fun s => s.setFile f fun x => { x with
          type := if device then .device else .inode
          readable := omode &&& oWronly == 0
          writable := omode &&& oWronly != 0 || omode &&& oRdwr != 0 }
        match late with
        | none => return fd
        | some c => .fail (.jump c)

/-- `sys_pipe`; `copied` tells whether the two calls of `copyout` succeed. -/
def sysPipe (p : ProcPtr) (mem : Option Page) (copied : Bool) : F Int := do
  match ← pipealloc mem with
  | none => return -1
  | some (rf, wf) =>
    match ← fdalloc p rf with
    | none =>
      fileclose rf
      fileclose wf
      return -1
    | some fd0 =>
      match ← fdalloc p wf with
      | none =>
        .update fun s => s.setOfile p fd0 none
        fileclose rf
        fileclose wf
        return -1
      | some fd1 =>
        if copied then return 0
        else
          .update fun s => s.setOfile p fd0 none
          .update fun s => s.setOfile p fd1 none
          fileclose rf
          fileclose wf
          return -1

/-! ## proc.c -/

def allocproc : F (Option ProcPtr) :=
  .atom fun s =>
    match (List.range nproc).find? fun np => s.state np == .unused with
    | none => (none, s)
    | some np => (some np, s.setState np .used)

def forkFiles (p np : ProcPtr) : List Nat → F Unit
  | [] => return
  | i :: rest => do
    match ← .read fun s => s.ofile p i with
    | none => forkFiles p np rest
    | some f =>
      filedup f
      .update fun s => s.setOfile np i (some f)
      forkFiles p np rest

/-- `kfork`; `memory` tells whether there is enough of it for the child. -/
def kfork (p : ProcPtr) (memory : Bool) : F Int := do
  match ← allocproc with
  | none => return -1
  | some np =>
    if memory then
      forkFiles p np (List.range nofile)
      .update fun s => s.setState np .runnable
      return np
    else
      -- freeproc
      .update fun s => s.setState np .unused
      return -1

def closeFiles (p : ProcPtr) : List Nat → F Unit
  | [] => return
  | fd :: rest => do
    match ← .read fun s => s.ofile p fd with
    | none => closeFiles p rest
    | some f =>
      fileclose f
      .update fun s => s.setOfile p fd none
      closeFiles p rest

def kexit (p : ProcPtr) : F Int := do
  closeFiles p (List.range nofile)
  .update fun s => s.setState p .zombie
  return 0

/-- `kwait` when it finds the child `np` dead. Whose child it is is left open. -/
def reap (np : ProcPtr) : F Int := do
  .await (fun s => s.state np == .zombie) fun s => s.setState np .unused
  return np

/-! ## The system -/

inductive Call where
  | open (omode : Nat) (found : Found)
  | dup (fd : Int)
  | close (fd : Int)
  | pipe (mem : Option Page) (copied : Bool)
  | fork (memory : Bool)
  | exit
  | wait (np : ProcPtr)

def Call.prog (p : ProcPtr) : Call → F Int
  | .open omode found => sysOpen p omode found
  | .dup fd => sysDup p fd
  | .close fd => sysClose p fd
  | .pipe mem copied => sysPipe p mem copied
  | .fork memory => kfork p memory
  | .exit => kexit p
  | .wait np => reap np

def system : Machine ProcPtr Call State Err Int where
  prog p c := c.prog p
  ready p s := p < nproc ∧ s.state p = .runnable
  user _ s t := t = s

abbrev Sys := Pool ProcPtr State Err Int

/-- The first process runs, and no file is open. -/
def boot : State where
  state p := if p = 0 then .runnable else .unused

end Txv6.Ftable
