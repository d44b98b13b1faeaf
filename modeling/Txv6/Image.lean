import Txv6.Systx

/-! # A small running system

A file system as `mkfs` would lay it out with two empty files, `/a` and `/b`, and a
kernel with two processes on it. Runs from this state show what can happen.
-/
namespace Txv6.Image
open Lib

def superblock : Superblock := ⟨2000, 1954, 200, 31, 2, 33, 46⟩

def rootInode : InodeData := ⟨tDir, 0, 0, 1, 64, fun i => if i = 0 then 47 else 0⟩
def emptyFile : InodeData := ⟨tFile, 0, 0, 1, 0, fun _ => 0⟩

/-- The first inode block: the root directory and the two files. -/
def inodeBlock : Block :=
  putBytes (putBytes (putBytes (fun _ => 0) (dinodeOff 1) rootInode.bytes)
    (dinodeOff 2) emptyFile.bytes) (dinodeOff 3) emptyFile.bytes

def a : Name := [0x61]
def b : Name := [0x62]

def rootBlock : Block :=
  putBytes (fun _ => 0) 0
    (Dirent.bytes ⟨1, strncpy dot dirsiz⟩ ++ Dirent.bytes ⟨1, strncpy dotdot dirsiz⟩ ++
      Dirent.bytes ⟨2, strncpy a dirsiz⟩ ++ Dirent.bytes ⟨3, strncpy b dirsiz⟩)

/-- Blocks 0 to 47 are in use. -/
def bitmap : Block := fun i => if i < 6 then 0xff else 0

def disk : Nat → Block
  | 33 => inodeBlock
  | 46 => bitmap
  | 47 => rootBlock
  | _ => fun _ => 0

/-- A process that sleeps in its working directory `/`. -/
def process (pid : Nat) (tx : Page) : Proc where
  state := .runnable
  pid := pid
  cwd := some 0
  tx := some tx
  umem := fun _ => some 0

/-- Two processes; the root directory is in slot 0 of the inode table. -/
def booted : Kernel where
  sb := superblock
  disk := disk
  buf b := { data := 100 + b }
  lru := List.finRange nbuf
  inode ip := if ip = 0 then { dev := rootdev, inum := rootino, ref := 2, data := some 200 } else {}
  file _ := {}
  proc p := if p = 0 then process 1 300 else if p = 1 then process 2 301 else {}
  tx _ := {}
  heap _ := { ino := .zero, bytes := fun _ => 0 }
  freelist := List.range' 400 50
  nextpid := 3
  pipeOps _ := ⟨fun m _ _ => (0, m), fun _ _ _ => 0⟩

theorem booted_cases (p : ProcPtr) :
    booted.proc p = process 1 300 ∧ p = 0 ∨ booted.proc p = process 2 301 ∧ p = 1 ∨
      booted.proc p = {} := by
  by_cases e0 : p = 0
  · exact .inl ⟨by simp [booted, e0], e0⟩
  · by_cases e1 : p = 1
    · exact .inr (.inl ⟨by simp [booted, e1], e1⟩)
    · exact .inr (.inr (by simp [booted, e0, e1]))

theorem booted_inactive (p : ProcPtr) : booted.txActive p = false := by
  unfold Kernel.txActive
  rcases booted_cases p with ⟨h, _⟩ | ⟨h, _⟩ | h <;> rw [h] <;> rfl

def path (name : Name) : Option Path := some (slash :: name)

/-- Some calls one after the other, each by the process named with it. -/
def calls : List (ProcPtr × K Int) → K (List (Int × Option Site))
  | [] => return []
  | (p, body) :: rest => do
    let r ← syscall p body
    return r :: (← calls rest)

/-- The results of some calls and the state after them. -/
def after (l : List (ProcPtr × K Int)) : Option (Except Err (List (Int × Option Site))) × Kernel :=
  (calls l).run booted

/-- The results of a run in which every call came back. -/
def results (o : Option (Except Err (List (Int × Option Site)))) : List (Int × Option Site) :=
  match o with
  | some (.ok l) => l
  | _ => []

/-- The value a run returned. -/
def returned {α : Type} : Option (Except Err α) → Option α
  | some (.ok a) => some a
  | _ => none

theorem returned_eq_some {α : Type} {o : Option (Except Err α)} {a : α} :
    returned o = some a ↔ o = some (.ok a) := by
  rcases o with _ | _ | _ <;> simp [returned]

end Txv6.Image
