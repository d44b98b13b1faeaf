import Txv6.Systx
import Txv6.Lib.Ghost

/-! # Physical pages and address spaces

`kalloc.c`, `vm.c`, and what `proc.c` and `sysproc.c` do to the memory of one process: `sbrk`
and the page faults that follow it. The kernel's own page table, which never changes after boot,
is left out, and so are `uvmcopy` and `kexec`, which make new address spaces.
-/
namespace Txv6.Vm
open Lib

abbrev pgsize : Nat := 4096
abbrev maxva : Nat := 2 ^ 38
abbrev trampoline : Nat := maxva - pgsize
abbrev trapframe : Nat := trampoline - pgsize
/-- The number of the page at `PHYSTOP`. -/
abbrev phystop : Page := 0x88000
abbrev maxpath : Nat := 128

def pgroundup (sz : Nat) : Nat := (sz + pgsize - 1) / pgsize * pgsize
def pgrounddown (a : Nat) : Nat := a / pgsize * pgsize

/-- `PX(level, va)`. -/
def px (level va : Nat) : Nat := va / 2 ^ (12 + 9 * level) % 512

/-- A signed sum as a `uint64`. -/
def u64 (x : Int) : Nat := (x % 2 ^ 64).toNat

structure Perm where
  r : Bool := false
  w : Bool := false
  x : Bool := false
  u : Bool := false
  deriving DecidableEq, Repr

/-- A page-table entry, with the number of the page in place of its address. -/
structure Pte where
  v : Bool := false
  perm : Perm := {}
  pa : Page := 0
  deriving DecidableEq, Repr

/-- The entry that a 64-bit word is. -/
def Pte.ofWord (w : Nat) : Pte where
  v := w.testBit 0
  perm := { r := w.testBit 1, w := w.testBit 2, x := w.testBit 3, u := w.testBit 4 }
  pa := w >>> 10

/-- The contents of a page, which is used as a table or for bytes. No page is used as both without
a `memset` in between. -/
structure Frame where
  pte : Nat → Pte
  byte : Nat → UChar

/-- `memset` of a whole page. -/
def Frame.fill (c : UChar) : Frame where
  pte _ := .ofWord (c.toNat * 0x0101010101010101)
  byte _ := c

structure Proc where
  lock : Bool := false
  state : ProcState := .unused
  xstate : Uint := 0
  sz : Nat := 0
  pagetable : Option Page := none
  trapframe : Option Page := none
  tx : Option Page := none

structure State where
  frame : Page → Frame
  freelist : List Page
  proc : ProcPtr → Proc := fun _ => {}
  initproc : Option ProcPtr := none
  /-- Whether the n-th call of `kalloc` may have a page, and how many calls there have been. -/
  luck : Nat → Bool := fun _ => true
  asked : Nat := 0
  /-- A call of `kalloc` has failed. No code reads it. -/
  oom : Bool := false
  /-- The first page after the kernel, and the page of the trampoline: fixed by the linker. -/
  kend : Page
  trampoline : Page

namespace State

def setFrame (s : State) (a : Page) (f : Frame) : State := { s with frame := Function.update s.frame a f }

def setPte (s : State) (a : Page) (i : Nat) (e : Pte) : State :=
  s.setFrame a { s.frame a with pte := Function.update (s.frame a).pte i e }

/-- `memmove` into a page. -/
def store (s : State) (a : Page) (o : Nat) (bs : List UChar) : State :=
  s.setFrame a { s.frame a with byte := putBytes (s.frame a).byte o bs }

def setProc (s : State) (p : ProcPtr) (f : Proc → Proc) : State :=
  { s with proc := Function.update s.proc p (f (s.proc p)) }

end State

abbrev V := Prog State Err

def vpanic {α : Type} (msg : String) : V α := .fail (.panic msg)

/-- A pointer that the code does not expect to be null. -/
def deref (o : Option Page) : V Page :=
  match o with
  | none => vpanic "kerneltrap"
  | some a => return a

/-! ## kalloc.c -/

namespace State

def refuse (s : State) : State := { s with asked := s.asked + 1, oom := true }

/-- The page `a` is taken from the free list, and `rest` is left. It is filled with junk. -/
def take (s : State) (a : Page) (rest : List Page) : State :=
  { s.setFrame a (.fill 5) with freelist := rest, asked := s.asked + 1 }

def give (s : State) (a : Page) : State := { s.setFrame a (.fill 1) with freelist := a :: s.freelist }

def kalloc (s : State) : Option Page × State :=
  match s.freelist with
  | [] => (none, s.refuse)
  | a :: rest => if s.luck s.asked then (some a, s.take a rest) else (none, s.refuse)

end State

def kalloc : V (Option Page) := .atom State.kalloc

def kfree (a : Page) : V Unit :=
  .attempt fun s =>
    if a < s.kend ∨ phystop ≤ a then (.error (.panic "kfree"), s) else (.ok (), s.give a)

def memset (a : Page) (c : UChar) : V Unit := .update fun s => s.setFrame a (.fill c)

/-! ## vm.c -/

def walkFrom (va : Nat) (alloc : Bool) : Nat → Page → V (Option (Page × Nat))
  | 0, pt => return some (pt, px 0 va)
  | level + 1, pt => do
    let pte ← .read fun s => (s.frame pt).pte (px (level + 1) va)
    if pte.v then walkFrom va alloc level pte.pa
    else if !alloc then return none
    else
      match ← kalloc with
      | none => return none
      | some a =>
        memset a 0
        .update fun s => s.setPte pt (px (level + 1) va) { v := true, pa := a }
        walkFrom va alloc level a

/-- The entry for an address is given by its page and its index. -/
def walk (pt : Page) (va : Nat) (alloc : Bool) : V (Option (Page × Nat)) :=
  if maxva ≤ va then vpanic "walk" else walkFrom va alloc 2 pt

def walkaddr (pt : Page) (va : Nat) : V (Option Page) := do
  if maxva ≤ va then return none
  else
    match ← walk pt va false with
    | none => return none
    | some (a, i) =>
      let pte ← .read fun s => (s.frame a).pte i
      if !pte.v then return none
      else if !pte.perm.u then return none
      else return some pte.pa

def mapLoop (pt : Page) (perm : Perm) : Nat → Nat → Page → V Int
  | 0, _, _ => return 0
  | n + 1, a, pa => do
    match ← walk pt a true with
    | none => return -1
    | some (q, i) =>
      let pte ← .read fun s => (s.frame q).pte i
      if pte.v then vpanic "mappages: remap"
      else
        .update fun s => s.setPte q i { v := true, perm := perm, pa := pa }
        mapLoop pt perm n (a + pgsize) (pa + 1)

def mappages (pt : Page) (va size : Nat) (pa : Page) (perm : Perm) : V Int :=
  if va % pgsize ≠ 0 then vpanic "mappages: va not aligned"
  else if size % pgsize ≠ 0 then vpanic "mappages: size not aligned"
  else if size = 0 then vpanic "mappages: size"
  else mapLoop pt perm (size / pgsize) va pa

def uvmcreate : V (Option Page) := do
  match ← kalloc with
  | none => return none
  | some pt =>
    memset pt 0
    return some pt

def unmapLoop (pt : Page) (doFree : Bool) : Nat → Nat → V Unit
  | 0, _ => return
  | n + 1, a => do
    match ← walk pt a false with
    | none => unmapLoop pt doFree n (a + pgsize)
    | some (q, i) =>
      let pte ← .read fun s => (s.frame q).pte i
      if !pte.v then unmapLoop pt doFree n (a + pgsize)
      else
        Prog.when doFree (kfree pte.pa)
        .update fun s => s.setPte q i {}
        unmapLoop pt doFree n (a + pgsize)

def uvmunmap (pt : Page) (va npages : Nat) (doFree : Bool) : V Unit :=
  if va % pgsize ≠ 0 then vpanic "uvmunmap: not aligned" else unmapLoop pt doFree npages va

def uvmdealloc (pt : Page) (oldsz newsz : Nat) : V Nat := do
  if oldsz ≤ newsz then return oldsz
  else
    Prog.when (pgroundup newsz < pgroundup oldsz)
      (uvmunmap pt (pgroundup newsz) ((pgroundup oldsz - pgroundup newsz) / pgsize) true)
    return newsz

/-- The loop of `uvmalloc`, with the number of rounds left. -/
def allocLoop (pt : Page) (oldsz newsz : Nat) (xperm : Perm) : Nat → Nat → V Nat
  | 0, _ => return newsz
  | n + 1, a => do
    match ← kalloc with
    | none =>
      let _ ← uvmdealloc pt a oldsz
      return 0
    | some mem =>
      memset mem 0
      let r ← mappages pt a pgsize mem { xperm with r := true, u := true }
      if r ≠ 0 then
        kfree mem
        let _ ← uvmdealloc pt a oldsz
        return 0
      else allocLoop pt oldsz newsz xperm n (a + pgsize)

def uvmalloc (pt : Page) (oldsz newsz : Nat) (xperm : Perm) : V Nat :=
  if newsz < oldsz then return oldsz
  else
    allocLoop pt (pgroundup oldsz) newsz xperm ((newsz - pgroundup oldsz + (pgsize - 1)) / pgsize)
      (pgroundup oldsz)

def freeEntries (freewalk : Page → V Unit) (pt : Page) : Nat → V Unit
  | 0 => return
  | n + 1 => do
    let i := 512 - (n + 1)
    let pte ← .read fun s => (s.frame pt).pte i
    if pte.v && !(pte.perm.r || pte.perm.w || pte.perm.x) then
      freewalk pte.pa
      .update fun s => s.setPte pt i {}
      freeEntries freewalk pt n
    else if pte.v then vpanic "freewalk: leaf"
    else freeEntries freewalk pt n

/-- `freewalk` of a table with at most so many levels. Deeper ones are not made by `walk`. -/
def freewalk : Nat → Page → V Unit
  | 0, _ => vpanic "freewalk"
  | n + 1, pt => do
    freeEntries (freewalk n) pt 512
    kfree pt

def uvmfree (pt : Page) (sz : Nat) : V Unit := do
  Prog.when (0 < sz) (uvmunmap pt 0 (pgroundup sz / pgsize) true)
  freewalk 3 pt

def uvmclear (pt : Page) (va : Nat) : V Unit := do
  match ← walk pt va false with
  | none => vpanic "uvmclear"
  | some (a, i) =>
    .update fun s =>
      let e := (s.frame a).pte i
      s.setPte a i { e with perm := { e.perm with u := false } }

def ismapped (pt : Page) (va : Nat) : V Bool := do
  match ← walk pt va false with
  | none => return false
  | some (a, i) => .read fun s => ((s.frame a).pte i).v

/-- `vmfault` in the process `p`. -/
def vmfault (p : ProcPtr) (pt : Page) (va : Nat) : V (Option Page) := do
  let sz ← .read fun s => (s.proc p).sz
  if sz ≤ va then return none
  else
    let va := pgrounddown va
    let mapped ← ismapped pt va
    if mapped then return none
    else
      match ← kalloc with
      | none => return none
      | some mem =>
        memset mem 0
        let own ← .read fun s => (s.proc p).pagetable
        let own ← deref own
        let r ← mappages own va pgsize mem { r := true, w := true, u := true }
        if r ≠ 0 then
          kfree mem
          return none
        else return some mem

/-- The page behind a user address, brought in if need be. -/
def userPage (p : ProcPtr) (pt : Page) (va : Nat) : V (Option Page) := do
  match ← walkaddr pt va with
  | some pa => return some pa
  | none => vmfault p pt va

/-- `copyin`, with the bytes that it transfers; the rounds are bounded by the length. -/
def copyinLoop (p : ProcPtr) (pt : Page) : Nat → Nat → Nat → List UChar → V (Int × List UChar)
  | 0, _, _, dst => return (0, dst)
  | fuel + 1, va, len, dst =>
    if len = 0 then return (0, dst)
    else do
      let va0 := pgrounddown va
      match ← userPage p pt va0 with
      | none => return (-1, dst)
      | some pa0 =>
        let n := min (pgsize - (va - va0)) len
        let bs ← .read fun s => getBytes (s.frame pa0).byte (va - va0) n
        copyinLoop p pt fuel (va0 + pgsize) (len - n) (dst ++ bs)

def copyin (p : ProcPtr) (pt : Page) (srcva len : Nat) : V (Int × List UChar) :=
  copyinLoop p pt len srcva len []

def copyoutLoop (p : ProcPtr) (pt : Page) : Nat → Nat → List UChar → V Int
  | 0, _, _ => return 0
  | fuel + 1, va, src =>
    if src.length = 0 then return 0
    else do
      let va0 := pgrounddown va
      if maxva ≤ va0 then return -1
      else
        match ← userPage p pt va0 with
        | none => return -1
        | some pa0 =>
          match ← walk pt va0 false with
          | none => vpanic "kerneltrap"
          | some (a, i) =>
            let pte ← .read fun s => (s.frame a).pte i
            if !pte.perm.w then return -1
            else
              let n := min (pgsize - (va - va0)) src.length
              .update fun s => s.store pa0 (va - va0) (src.take n)
              copyoutLoop p pt fuel (va0 + pgsize) (src.drop n)

def copyout (p : ProcPtr) (pt : Page) (dstva : Nat) (src : List UChar) : V Int :=
  copyoutLoop p pt src.length dstva src

/-- The bytes up to and including the first zero, and whether there is one. -/
def untilNul : List UChar → List UChar × Bool
  | [] => ([], false)
  | b :: bs => if b = 0 then ([0], true) else (b :: (untilNul bs).1, (untilNul bs).2)

/-- `copyinstr`, with the bytes that it transfers. -/
def copyinstrLoop (pt : Page) : Nat → Nat → Nat → List UChar → V (Int × List UChar)
  | 0, _, _, dst => return (-1, dst)
  | fuel + 1, va, max, dst =>
    if max = 0 then return (-1, dst)
    else do
      let va0 := pgrounddown va
      match ← walkaddr pt va0 with
      | none => return (-1, dst)
      | some pa0 =>
        let n := min (pgsize - (va - va0)) max
        let bs ← .read fun s => getBytes (s.frame pa0).byte (va - va0) n
        if (untilNul bs).2 then return (0, dst ++ (untilNul bs).1)
        else copyinstrLoop pt fuel (va0 + pgsize) (max - n) (dst ++ bs)

def copyinstr (pt : Page) (srcva max : Nat) : V (Int × List UChar) := copyinstrLoop pt max srcva max []

/-! ## proc.c -/

/-- `proc_pagetable` for a process with its trapframe page. -/
def procPagetable (tf : Page) : V (Option Page) := do
  match ← uvmcreate with
  | none => return none
  | some pt =>
    let code ← .read fun s => s.trampoline
    let r ← mappages pt trampoline pgsize code { r := true, x := true }
    if r < 0 then
      uvmfree pt 0
      return none
    else
      let r ← mappages pt trapframe pgsize tf { r := true, w := true }
      if r < 0 then
        uvmunmap pt trampoline 1 false
        uvmfree pt 0
        return none
      else return some pt

def growproc (p : ProcPtr) (n : Int) : V Int := do
  let sz ← .read fun s => (s.proc p).sz
  let pt ← .read fun s => (s.proc p).pagetable
  let pt ← deref pt
  if 0 < n then
    if trapframe < u64 (sz + n) then return -1
    else
      let sz' ← uvmalloc pt sz (u64 (sz + n)) { w := true }
      if sz' = 0 then return -1
      else
        .update fun s => s.setProc p fun r => { r with sz := sz' }
        return 0
  else if n < 0 then
    let sz' ← uvmdealloc pt sz (u64 (sz + n))
    .update fun s => s.setProc p fun r => { r with sz := sz' }
    return 0
  else
    .update fun s => s.setProc p fun r => { r with sz := sz }
    return 0

/-! ## System calls -/

def sysSbrk (p : ProcPtr) (n t : Int) : V Int := do
  let addr ← .read fun s => (s.proc p).sz
  if t = 1 ∨ n < 0 then
    let r ← growproc p n
    if r < 0 then return -1 else return addr
  else if u64 (addr + n) < addr then return -1
  else if trapframe < u64 (addr + n) then return -1
  else
    .update fun s => s.setProc p fun r => { r with sz := u64 (r.sz + n) }
    return addr

/-! ## The hardware -/

/-- The entry that the hardware finds for an address, with the table of a process. -/
def State.translate (s : State) (pt : Page) (va : Nat) : Option Pte :=
  let e2 := (s.frame pt).pte (px 2 va)
  let e1 := (s.frame e2.pa).pte (px 1 va)
  let e0 := (s.frame e1.pa).pte (px 0 va)
  if va < maxva ∧ e2.v ∧ e1.v ∧ e0.v then some e0 else none

end Txv6.Vm
