import Txv6.Kernel
import Txv6.Lib.Parallel
import Txv6.Lib.Ring
import Txv6.Lib.Rounds

/-! # The console

`console.c`: an interrupt for every byte that is typed, and any number of readers. What is done under
`cons.lock` is one step: an interrupt as a whole, and a read from where it has the lock to where it returns
or sleeps. Whether a copy to the reader's buffer succeeds is given for each offset.

Beside the state of the source there is a log of what happened, and a record of the reads that have returned.
-/
namespace Txv6.Console
open Lib

abbrev inputBufSize : Nat := 128

abbrev ctrlP : UChar := 0x10
abbrev ctrlU : UChar := 0x15
abbrev ctrlH : UChar := 0x08
abbrev ctrlD : UChar := 0x04
abbrev delete : UChar := 0x7f
abbrev newline : UChar := 0x0a
abbrev carriageReturn : UChar := 0x0d

/-- `BACKSPACE`, which is no byte. -/
abbrev backspace : BitVec 32 := 0x100

/-- `cons`, but for its lock. -/
structure Cons where
  buf : Nat → UChar
  r : BitVec 32
  w : BitVec 32
  e : BitVec 32

namespace Cons

/-- The bytes between the read and the edit index. -/
def ring (c : Cons) : Ring UChar 32 := ⟨c.buf, c.r, c.e⟩

/-- `cons.buf[cons.r % INPUT_BUF_SIZE]`. -/
def front (c : Cons) : UChar := c.buf (c.r.toNat % inputBufSize)

/-- `cons.buf[(cons.e - 1) % INPUT_BUF_SIZE]`. -/
def last (c : Cons) : UChar := c.buf ((c.e - 1).toNat % inputBufSize)

/-- `cons.buf[cons.e++ % INPUT_BUF_SIZE] = b`. -/
def put (c : Cons) (b : UChar) : Cons :=
  { c with buf := Function.update c.buf (c.e.toNat % inputBufSize) b, e := c.e + 1 }

end Cons

inductive Event (ι : Type) where
  | typed (c : UChar)
  /-- A reader has taken a byte for its buffer. -/
  | took (i : ι) (b : UChar)
  /-- A reader has taken a `^D`. -/
  | ended (i : ι)

/-- A read that has returned. -/
structure Ret (ι : Type) where
  who : ι
  n : Int
  result : Int
  killed : Bool
  /-- The log at the end of the call, and how long it was at the beginning. -/
  log : List (Event ι)
  since : Nat
  dst : Nat → UChar

structure Sys (ι : Type) where
  cons : Cons
  /-- Who sleeps on `cons.r`. -/
  asleep : ι → Bool := fun _ => false
  killed : ι → Bool := fun _ => false
  umem : ι → Nat → UChar
  /-- What has been sent to the uart. -/
  uart : List UChar := []
  log : List (Event ι) := []
  since : ι → Nat := fun _ => 0
  rets : List (Ret ι) := []

namespace Sys
variable {ι : Type}

/-! ## consoleintr -/

def consputc (s : Sys ι) (c : BitVec 32) : Sys ι :=
  { s with uart := s.uart ++ if c = backspace then [0x08, 0x20, 0x08] else [c.setWidth 8] }

/-- `cons.e--`, on the screen too. -/
def rubOut (s : Sys ι) : Sys ι := consputc { s with cons := { s.cons with e := s.cons.e - 1 } } backspace

/-- The loop of `^U`, which ends at the latest when the line has ended. -/
def killLine : Nat → Sys ι → Sys ι
  | 0, s => s
  | n + 1, s => if s.cons.e ≠ s.cons.w ∧ s.cons.last ≠ newline then killLine n s.rubOut else s

/-- `cons.w = cons.e` and `wakeup(&cons.r)`. -/
def commit (s : Sys ι) : Sys ι := { s with cons := { s.cons with w := s.cons.e }, asleep := fun _ => false }

/-- A byte for the buffer. -/
def store (s : Sys ι) (c : UChar) : Sys ι :=
  let t : Sys ι := { s.consputc (c.setWidth 32) with cons := s.cons.put c }
  if c = newline ∨ c = ctrlD ∨ t.cons.e - t.cons.r = BitVec.ofNat 32 inputBufSize then t.commit else t

/-- The `switch` of `consoleintr`. -/
def stroke (s : Sys ι) (c : UChar) : Sys ι :=
  if c = ctrlP then
    -- `procdump` prints the processes
    s
  else if c = ctrlU then s.killLine (s.cons.e - s.cons.w).toNat
  else if c = ctrlH ∨ c = delete then if s.cons.e ≠ s.cons.w then s.rubOut else s
  else if c ≠ 0 ∧ s.cons.e - s.cons.r < BitVec.ofNat 32 inputBufSize then
    s.store (if c = carriageReturn then newline else c)
  else s

def consoleintr (s : Sys ι) (c : UChar) : Sys ι :=
  let t := s.stroke c
  { t with log := t.log ++ [.typed c] }

/-! ## consoleread -/

/-- What it means that a reader with `k` bytes takes the next byte. -/
def taken (i : ι) (k : Nat) (c : UChar) : List (Event ι) :=
  if c = ctrlD then if k = 0 then [.ended i] else [] else [.took i c]

/-- `cons.r++`. -/
def take (s : Sys ι) (i : ι) (k : Nat) : Sys ι :=
  { s with cons := { s.cons with r := s.cons.r + 1 }, log := s.log ++ taken i k s.cons.front }

/-- `cons.r--`. -/
def untake (s : Sys ι) : Sys ι := { s with cons := { s.cons with r := s.cons.r - 1 } }

def ret (s : Sys ι) (i : ι) (n r : Int) : Ret ι := ⟨i, n, r, s.killed i, s.log, s.since i, s.umem i⟩

variable [DecidableEq ι]

/-- `either_copyout(user_dst, dst + k, &c, 1)`. -/
def copyout (s : Sys ι) (i : ι) (k : Nat) (c : UChar) : Sys ι :=
  { s with umem := Function.update s.umem i (Function.update (s.umem i) k c) }

/-- The loops of `consoleread` with `m` bytes to go and `k` bytes read, up to where the process sleeps or
the call returns. -/
def readLoop (i : ι) (ok : Nat → Bool) : Nat → Nat → Sys ι → (Nat ⊕ Int) × Sys ι
  | 0, k, s => (.inr k, s)
  | m + 1, k, s =>
    if s.cons.r = s.cons.w then
      if s.killed i then (.inr (-1), s) else (.inl k, { s with asleep := Function.update s.asleep i true })
    else
      let c := s.cons.front
      let t := s.take i k
      if c = ctrlD then
        -- saved for the next read, unless this one has read nothing
        (.inr k, if 0 < k then t.untake else t)
      else if ok k then
        let t := t.copyout i k c
        if c = newline then (.inr (k + 1), t) else readLoop i ok m (k + 1) t
      else (.inr k, t)

/-- The same, with the return recorded. -/
def read (i : ι) (ok : Nat → Bool) (n : Int) (k : Nat) (s : Sys ι) : (Nat ⊕ Int) × Sys ι :=
  match readLoop i ok (n.toNat - k) k s with
  | (.inl k, t) => (.inl k, t)
  | (.inr r, t) => (.inr r, { t with rets := t.ret i n r :: t.rets })

def kill (s : Sys ι) (j : ι) : Sys ι :=
  { s with killed := Function.update s.killed j true, asleep := Function.update s.asleep j false }

end Sys

/-! ## Interrupts and readers, side by side -/

/-- The calls; a read is given how often it may sleep. -/
inductive Call (ι : Type) where
  | intr (c : UChar)
  | read (ok : Nat → Bool) (n : Int) (fuel : Nat)
  | kill (j : ι)

abbrev M (ι : Type) := Prog (Sys ι) Err

section
variable {ι : Type} [DecidableEq ι]

/-- From one sleep to the next, with `k` bytes read. -/
def readRound (i : ι) (ok : Nat → Bool) (n : Int) (k : Nat) : M ι (Nat ⊕ Int) := do
  match ← .atom fun s => s.read i ok n k with
  | .inl k =>
    .await (fun s => !s.asleep i) id
    return .inl k
  | .inr r => return .inr r

def consoleread (i : ι) (ok : Nat → Bool) (n : Int) (fuel : Nat) : M ι Int := do
  .update fun s => { s with since := Function.update s.since i s.log.length }
  .rounds (.panic "out of rounds") (readRound i ok n) fuel 0

def Call.prog (i : ι) : Call ι → M ι Int
  | .intr c => do
    .update fun s => s.consoleintr c
    return 0
  | .read ok n fuel => consoleread i ok n fuel
  | .kill j => do
    .update fun s => s.kill j
    return 0

def system (ι : Type) [DecidableEq ι] : Machine ι (Call ι) (Sys ι) Err Int where
  prog i c := c.prog i
  ready _ _ := True
  user _ _ _ := False

/-- A console with nothing in it; its indices may be anywhere. -/
def blank (buf : Nat → UChar) (at0 : BitVec 32) (umem : ι → Nat → UChar) : Sys ι where
  cons := ⟨buf, at0, at0, at0⟩
  umem := umem

/-- The copies to the readers' buffers succeed. -/
def Copies : Label ι (Call ι) Err Int → Sys ι → Sys ι → Prop
  | .call _ (.read ok _ _), _, _ => ∀ k, ok k = true
  | _, _, _ => True

end
end Txv6.Console
