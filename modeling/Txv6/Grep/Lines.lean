import Txv6.Grep.Match

/-! # grep's lines

`grep` of `grep.c` with its buffer of 1024 bytes. A read of the input gives some of the bytes that
are left, at least one and at most as many as were asked for; how many is a parameter. Every access
to the buffer is checked, and the result is `none` after one outside of it.
-/
namespace Txv6.Grep

open Shell (Str chr)

def nl : UChar := 0x0a

/-- `sizeof(buf)`. -/
abbrev bufSize : Nat := 1024

theorem bufSize_eq : bufSize = 1024 := rfl

/-! ## The code -/

def store (buf : Str) (i : Nat) (c : UChar) : Option Str :=
  if i < buf.length then some (buf.set i c) else none

/-- How far the first `c` is away, or that there is none before the NUL. -/
def strchr (c : UChar) : Str → Option (Option Nat)
  | [] => none
  | d :: s => if d = 0 then some none else if d = c then some (some 0) else (strchr c s).map (·.map (· + 1))

/-- `memmove`, from the first byte on. -/
def moveUp : Nat → Nat → Nat → Str → Option Str
  | _, _, 0, buf => some buf
  | dst, src, n + 1, buf => do
    let c ← buf[src]?
    let buf ← store buf dst c
    moveUp (dst + 1) (src + 1) n buf

/-- `memmove`, from the last byte on. -/
def moveDown (dst src : Nat) : Nat → Str → Option Str
  | 0, buf => some buf
  | n + 1, buf => do
    let c ← buf[src + n]?
    let buf ← store buf (dst + n) c
    moveDown dst src n buf

def memmove (buf : Str) (dst src n : Nat) : Option Str :=
  if src > dst then moveUp dst src n buf else moveDown dst src n buf

/-- What `read` returns when it is asked for `n` bytes, and what is left. -/
def read (split : Nat) (n : Int) (input : Str) : Str × Str :=
  if n ≤ 0 then ([], input) else input.splitAt (max 1 (min split n.toNat))

/-- The bytes that `read` puts into the buffer. -/
def fill (buf : Str) (m : Nat) (chunk : Str) : Option Str :=
  if m + chunk.length ≤ buf.length then some (buf.take m ++ chunk ++ buf.drop (m + chunk.length)) else none

/-- The inner loop: where the last line ends, the buffer, and what was written. -/
def scan (re : Str) : Nat → Nat → Str → Str → Option (Nat × Str × Str)
  | 0, _, _, _ => none
  | fuel + 1, p, buf, out => do
    match ← strchr nl (buf.drop p) with
    | none => return (p, buf, out)
    | some d =>
      let q := p + d
      let buf ← store buf q 0
      if ← matchRe re (buf.drop p) then
        let buf ← store buf q nl
        scan re fuel (q + 1) buf (out ++ (buf.drop p).take (q + 1 - p))
      else scan re fuel (q + 1) buf out

/-- The outer loop; `split i` is what the `i`th read would like to return. -/
def grepLoop (re : Str) (split : Nat → Nat) : Nat → Nat → Nat → Str → Str → Str → Option Str
  | 0, _, _, _, _, _ => none
  | fuel + 1, i, m, buf, out, input => do
    let (chunk, rest) := read (split i) ((bufSize : Int) - m - 1) input
    if chunk.length = 0 then return out
    else
      let buf ← fill buf m chunk
      let m := m + chunk.length
      let buf ← store buf m 0
      let (p, buf, out) ← scan re (bufSize + 1) 0 buf out
      if m > 0 then
        let m := m - p
        let buf ← memmove buf 0 p m
        grepLoop re split fuel (i + 1) m buf out rest
      else grepLoop re split fuel (i + 1) m buf out rest

/-- `grep(pattern, fd)` with what is in the buffer before: what it writes to file descriptor 1. -/
def grep (re : Str) (split : Nat → Nat) (buf : Vector UChar bufSize) (input : Str) : Option Str :=
  grepLoop re split (input.length + 1) 0 0 buf.toList [] input

/-! ## Moving bytes -/

section Lines
open List

theorem store_eq {buf : Str} {i : Nat} {c : UChar} (h : i < buf.length) : store buf i c = some (buf.set i c) :=
  if_pos h

structure Moved (dst src n : Nat) (buf buf' : Str) : Prop where
  length : buf'.length = buf.length
  get : ∀ i, buf'[i]? = if dst ≤ i ∧ i < dst + n then buf[src + (i - dst)]? else buf[i]?

theorem moveUp_moved : ∀ {n dst src : Nat} {buf : Str}, dst < src → src + n ≤ buf.length →
    ∃ buf', moveUp dst src n buf = some buf' ∧ Moved dst src n buf buf'
  | 0, dst, _, buf, _, _ => ⟨buf, rfl, rfl, fun i => (if_neg (by omega)).symm⟩
  | n + 1, dst, src, buf, hlt, hlen => by
    have hsrc : src < buf.length := by omega
    have hget : buf[src]? = some buf[src] := List.getElem?_eq_getElem hsrc
    have hlen' : src + 1 + n ≤ (buf.set dst buf[src]).length := by rw [length_set]; omega
    obtain ⟨buf', hrun, hmoved⟩ := moveUp_moved (Nat.succ_lt_succ hlt) hlen'
    refine ⟨buf', ?_, by rw [hmoved.length, length_set], fun i => ?_⟩
    · rw [moveUp, hget]
      change (store buf dst buf[src] >>= _) = _
      rw [store_eq (by omega)]
      exact hrun
    · rw [hmoved.get]
      by_cases hi : i = dst
      · subst hi
        rw [if_neg (by omega), if_pos (by omega), List.getElem?_set_self (by omega), Nat.sub_self, Nat.add_zero, hget]
      · by_cases hin : dst ≤ i ∧ i < dst + (n + 1)
        · rw [if_pos (by omega), if_pos hin, List.getElem?_set_ne (by omega)]
          congr 1
          omega
        · rw [if_neg (by omega), if_neg hin, List.getElem?_set_ne (by omega)]

theorem moveDown_moved {dst src : Nat} (hle : src ≤ dst) : ∀ {n : Nat} {buf : Str}, dst + n ≤ buf.length →
    ∃ buf', moveDown dst src n buf = some buf' ∧ Moved dst src n buf buf'
  | 0, buf, _ => ⟨buf, rfl, rfl, fun i => (if_neg (by omega)).symm⟩
  | n + 1, buf, hlen => by
    have hsrc : src + n < buf.length := by omega
    have hget : buf[src + n]? = some buf[src + n] := List.getElem?_eq_getElem hsrc
    have hlen' : dst + n ≤ (buf.set (dst + n) buf[src + n]).length := by rw [length_set]; omega
    obtain ⟨buf', hrun, hmoved⟩ := moveDown_moved hle hlen'
    refine ⟨buf', ?_, by rw [hmoved.length, length_set], fun i => ?_⟩
    · rw [moveDown, hget]
      change (store buf (dst + n) buf[src + n] >>= _) = _
      rw [store_eq (by omega)]
      exact hrun
    · rw [hmoved.get]
      by_cases hi : i = dst + n
      · subst hi
        rw [if_neg (by omega), if_pos (by omega), List.getElem?_set_self (by omega), Nat.add_sub_cancel_left, hget]
      · by_cases hin : dst ≤ i ∧ i < dst + (n + 1)
        · rw [if_pos (by omega), if_pos hin, List.getElem?_set_ne (by omega)]
        · rw [if_neg (by omega), if_neg hin, List.getElem?_set_ne (by omega)]

/-- To the start of the buffer. -/
theorem memmove_start {buf : Str} {p n : Nat} (h : p + n ≤ buf.length) :
    ∃ buf', memmove buf 0 p n = some buf' ∧ buf'.length = buf.length ∧ buf'.take n = (buf.drop p).take n := by
  have hmove : ∃ buf', memmove buf 0 p n = some buf' ∧ Moved 0 p n buf buf' := by
    rw [memmove]
    split
    · exact moveUp_moved (by omega) h
    · exact moveDown_moved (by omega) (by omega)
  obtain ⟨buf', hrun, hmoved⟩ := hmove
  refine ⟨buf', hrun, hmoved.length, ext_getElem? fun i => ?_⟩
  rw [List.getElem?_take, List.getElem?_take, List.getElem?_drop, hmoved.get]
  split
  · rw [if_pos (by omega), Nat.sub_zero]
  · rfl

/-! ## Lines -/

/-- A line that grep can hold, without its newline. -/
structure Line (l : Str) : Prop where
  no_nul : 0 ∉ l
  no_nl : nl ∉ l
  short : l.length ≤ bufSize - 2

/-- Lines with their newlines, one after the other. -/
def joined (ls : List Str) : Str := ls.flatMap fun l => l ++ [nl]

@[simp] theorem joined_nil : joined [] = [] := rfl

@[simp] theorem joined_cons (l : Str) (ls : List Str) : joined (l :: ls) = l ++ nl :: joined ls := by
  simp [joined]

@[simp] theorem joined_append (ls ls' : List Str) : joined (ls ++ ls') = joined ls ++ joined ls' :=
  flatMap_append

/-- No newline comes before the first NUL. -/
def Partial (s : Str) : Prop := nl ∉ cstr s

/-- What begins with a line that has its newline. -/
def Ends (s l r : Str) : Prop := s = l ++ nl :: r ∧ 0 ∉ l ∧ nl ∉ l

theorem partial_or_ends (s : Str) : Partial s ∨ ∃ l r, Ends s l r := by
  induction s with
  | nil => exact .inl (by simp [Partial, cstr])
  | cons c s ih =>
    by_cases hnul : c = 0
    · subst hnul
      exact .inl not_mem_nil
    by_cases hnl : c = nl
    · subst hnl
      exact .inr ⟨[], s, rfl, not_mem_nil, not_mem_nil⟩
    rcases ih with h | ⟨l, r, rfl, hl, hl'⟩
    · refine .inl ?_
      rw [Partial, cstr_cons hnul]
      exact fun hm => h (mem_of_ne_of_mem (Ne.symm hnl) hm)
    · refine .inr ⟨c :: l, r, rfl, ?_, ?_⟩
      · exact fun hm => hl (mem_of_ne_of_mem (Ne.symm hnul) hm)
      · exact fun hm => hl' (mem_of_ne_of_mem (Ne.symm hnl) hm)

theorem Partial.not_line {s l r : Str} (h : Partial s) (hl : 0 ∉ l) : s ≠ l ++ nl :: r := by
  rintro rfl
  refine h ?_
  rw [cstr, takeWhile_append_of_pos fun c hc => by simpa using ne_of_mem_of_not_mem hc hl]
  exact mem_append_right _ (mem_cons_self)

theorem strchr_partial {s : Str} (h : Partial s) (junk : Str) : strchr nl (s ++ 0 :: junk) = some none := by
  induction s with
  | nil => rfl
  | cons c s ih =>
    rw [cons_append, strchr]
    by_cases hnul : c = 0
    · rw [if_pos hnul]
    rw [Partial, cstr_cons hnul] at h
    have hnl : c ≠ nl := fun hc => h (hc ▸ mem_cons_self)
    rw [if_neg hnul, if_neg hnl, ih fun hm => h (mem_cons_of_mem _ hm)]
    rfl

theorem strchr_line {l : Str} (hnul : 0 ∉ l) (hnl : nl ∉ l) (r : Str) :
    strchr nl (l ++ nl :: r) = some (some l.length) := by
  induction l with
  | nil => rfl
  | cons c l ih =>
    have hc : c ≠ 0 := fun h => hnul (h ▸ mem_cons_self)
    have hc' : c ≠ nl := fun h => hnl (h ▸ mem_cons_self)
    have hrest := ih (fun h => hnul (mem_cons_of_mem _ h)) fun h => hnl (mem_cons_of_mem _ h)
    rw [cons_append, strchr, if_neg hc, if_neg hc', hrest]
    rfl

/-! ## A buffer full of lines -/

open Classical in
/-- The lines that match, in their order. -/
noncomputable def shown (re : Str) (ls : List Str) : List Str := ls.filter fun l => Matches (cstr re) l

theorem shown_append (re : Str) (ls ls' : List Str) : shown re (ls ++ ls') = shown re ls ++ shown re ls' :=
  filter_append ls ls'

section At

variable {buf l rest : Str} {p : Nat} {x : UChar}

theorem line_lt (h : buf.drop p = l ++ x :: rest) : p + l.length < buf.length := by
  have hlen := congrArg List.length h
  simp only [length_drop, length_append, length_cons] at hlen
  omega

theorem set_line (h : buf.drop p = l ++ x :: rest) (c : UChar) :
    (buf.set (p + l.length) c).drop p = l ++ c :: rest := by
  rw [← set_drop, h, set_append_right _ _ (Nat.le_refl _), Nat.sub_self]
  rfl

theorem next_line (h : buf.drop p = l ++ x :: rest) : buf.drop (p + l.length + 1) = rest := by
  rw [Nat.add_assoc, ← drop_drop, h, drop_length_add_append]
  rfl

/-- One pass of the inner loop. -/
theorem scan_line {re : Str} (hre : 0 ∈ re) (fuel : Nat) (out : Str) (h : buf.drop p = l ++ nl :: rest)
    (hnul : 0 ∉ l) (hnl : nl ∉ l) : ∃ buf', buf'.length = buf.length ∧ buf'.drop (p + l.length + 1) = rest ∧
      scan re (fuel + 1) p buf out = scan re fuel (p + l.length + 1) buf' (out ++ joined (shown re [l])) := by
  have hlt := line_lt h
  have hcut := set_line h 0
  have hmem : 0 ∈ (buf.set (p + l.length) 0).drop p := by rw [hcut]; exact mem_append_right _ mem_cons_self
  obtain ⟨b, hrun, hiff⟩ := matchRe_answers hre hmem
  rw [hcut, cstr_append hnul] at hiff
  have hstep : scan re (fuel + 1) p buf out = (if b = true then (do
      let buf' ← store (buf.set (p + l.length) 0) (p + l.length) nl
      scan re fuel (p + l.length + 1) buf' (out ++ (buf'.drop p).take (p + l.length + 1 - p)))
      else scan re fuel (p + l.length + 1) (buf.set (p + l.length) 0) out) := by
    rw [scan, h, strchr_line hnul hnl]
    change (store buf (p + l.length) 0 >>= _) = _
    rw [store_eq hlt]
    change (matchRe re ((buf.set (p + l.length) 0).drop p) >>= _) = _
    rw [hrun]
    rfl
  cases b with
  | true =>
    have hlt' : p + l.length < (buf.set (p + l.length) 0).length := by rwa [length_set]
    have hback := set_line hcut nl
    have hsub : p + l.length + 1 - p = l.length + 1 := by omega
    refine ⟨_, by rw [length_set, length_set], next_line hback, hstep.trans ?_⟩
    rw [if_pos rfl, store_eq hlt']
    have hshown : joined (shown re [l]) = l ++ [nl] := by
      rw [shown, filter_cons_of_pos (by simpa using hiff.mp rfl), filter_nil, joined_cons, joined_nil]
    have hout : (l ++ nl :: rest).take (l.length + 1) = l ++ [nl] := by
      rw [take_length_add_append]
      rfl
    change scan re fuel _ _ (out ++ List.take _ (List.drop p _)) = _
    rw [hback, hsub, hout, hshown]
  | false =>
    refine ⟨_, length_set, next_line hcut, hstep.trans ?_⟩
    have hshown : shown re [l] = [] :=
      filter_cons_of_neg (by simpa using fun h => nomatch hiff.mpr h)
    rw [if_neg nofun, hshown, joined_nil, append_nil]

end At

/-- The lines of the buffer from `p` on, up to the first that has a NUL or no newline yet. -/
structure Scanned (re s : Str) (p : Nat) (buf junk : Str) (out : Str) (r : Option (Nat × Str × Str)) (ls : List Str)
    (s' buf' : Str) : Prop where
  split : s = joined ls ++ s'
  lines : ∀ l ∈ ls, Line l
  left : Partial s'
  returns : r = some (p + (joined ls).length, buf', out ++ joined (shown re ls))
  length : buf'.length = buf.length
  drop : buf'.drop (p + (joined ls).length) = s' ++ 0 :: junk

theorem scan_scanned {re : Str} (hre : 0 ∈ re) : ∀ {fuel p : Nat} {s junk buf : Str} (out : Str),
    s.length < fuel → s.length ≤ bufSize - 1 → buf.drop p = s ++ 0 :: junk →
    ∃ ls s' buf', Scanned re s p buf junk out (scan re fuel p buf out) ls s' buf'
  | 0, _, _, _, _, _, h, _, _ => nomatch h
  | fuel + 1, p, s, junk, buf, out, hfuel, hsize, hbuf => by
    rcases partial_or_ends s with hpart | ⟨l, r, rfl, hnul, hnl⟩
    · refine ⟨[], s, buf, rfl, nofun, hpart, ?_, rfl, hbuf⟩
      rw [scan, hbuf, strchr_partial hpart]
      exact congrArg some (by simp [shown])
    · rw [length_append, length_cons] at hfuel hsize
      have hline : Line l := ⟨hnul, hnl, by omega⟩
      have hrest : buf.drop p = l ++ nl :: (r ++ 0 :: junk) := by rw [hbuf, append_assoc]; rfl
      obtain ⟨buf₁, hlen₁, hdrop₁, hrun₁⟩ := scan_line hre fuel out hrest hnul hnl
      have hfuel' : r.length < fuel := by omega
      obtain ⟨ls, s', buf', h⟩ := scan_scanned hre (out ++ joined (shown re [l])) hfuel' (by omega) hdrop₁
      have hend : p + l.length + 1 + (joined ls).length = p + (joined (l :: ls)).length := by
        rw [joined_cons, length_append, length_cons]
        omega
      refine ⟨l :: ls, s', buf', ?_, ?_, h.left, ?_, h.length.trans hlen₁, hend ▸ h.drop⟩
      · rw [h.split, joined_cons, append_assoc]
        rfl
      · intro l' hl'
        rcases mem_cons.mp hl' with rfl | hl'
        · exact hline
        · exact h.lines l' hl'
      · have hshown : shown re (l :: ls) = shown re [l] ++ shown re ls := shown_append re [l] ls
        rw [hrun₁, h.returns, hend, hshown, joined_append, append_assoc]

/-! ## All of the input -/

/-- What grep makes of a text: the lines up to the first that it cannot hold, and what it writes. -/
structure Filtered (re text out : Str) (r : Option Str) (ls : List Str) (rest : Str) : Prop where
  split : text = joined ls ++ rest
  lines : ∀ l ∈ ls, Line l
  longest : ∀ l r, Line l → rest ≠ l ++ nl :: r
  returns : r = some (out ++ joined (shown re ls))

theorem read_spec {split : Nat} {n : Int} {input chunk rest : Str} (h : read split n input = (chunk, rest)) :
    input = chunk ++ rest ∧ chunk.length ≤ n.toNat ∧ (chunk.length = 0 → n ≤ 0 ∨ input = []) := by
  rw [read] at h
  split at h
  case isTrue hn =>
    obtain ⟨rfl, rfl⟩ := Prod.mk.inj h
    exact ⟨rfl, Nat.zero_le _, fun _ => .inl hn⟩
  case isFalse hn =>
    rw [splitAt_eq] at h
    obtain ⟨rfl, rfl⟩ := Prod.mk.inj h
    refine ⟨(take_append_drop _ _).symm, ?_, fun hz => .inr ?_⟩
    · rw [length_take]
      omega
    · rw [length_take] at hz
      exact length_eq_zero_iff.mp (by omega)

/-- The bytes that were read, with a NUL behind them. -/
theorem fill_store {buf chunk : Str} {m : Nat} (hlen : buf.length = bufSize) (hm : (buf.take m).length = m)
    (hsize : m + chunk.length ≤ bufSize - 1) : ∃ buf' junk, buf'.length = bufSize ∧
      buf'.drop 0 = (buf.take m ++ chunk) ++ 0 :: junk ∧
      ∀ {α} (k : Str → Option α), (fill buf m chunk >>= fun b => store b (m + chunk.length) 0 >>= k) = k buf' := by
  have hk : m + chunk.length < buf.length := by have hb := bufSize_eq; omega
  have hdrop := drop_eq_getElem_cons hk
  have hread : (buf.take m ++ chunk ++ buf.drop (m + chunk.length)).drop 0 =
      (buf.take m ++ chunk) ++ buf[m + chunk.length] :: buf.drop (m + chunk.length + 1) := by
    rw [← hdrop]
    rfl
  have hend : 0 + (buf.take m ++ chunk).length = m + chunk.length := by rw [length_append, hm, Nat.zero_add]
  have hlen' : (buf.take m ++ chunk ++ buf.drop (m + chunk.length)).length = bufSize := by
    rw [length_append, length_append, hm, length_drop]
    omega
  have hset := set_line hread 0
  rw [hend] at hset
  refine ⟨_, _, length_set.trans hlen', hset, fun k => ?_⟩
  rw [fill, if_pos hk.le]
  change (store _ _ _ >>= k) = _
  rw [store_eq (by omega)]
  rfl

theorem Partial.longest {s : Str} (h : Partial s) (input : Str) (hfull : input = [] ∨ s.length = bufSize - 1)
    {l r : Str} (hl : Line l) : s ++ input ≠ l ++ nl :: r := by
  intro heq
  have hb := bufSize_eq
  rcases append_eq_append_iff.mp heq with ⟨a, hla, hinput⟩ | ⟨a, hs, hr⟩
  · have hlen := congrArg List.length hla
    have hshort := hl.short
    rw [length_append] at hlen
    rcases hfull with rfl | hfull
    · exact nomatch (append_eq_nil_iff.mp hinput.symm).2
    · omega
  · cases a with
    | nil =>
      have hlen := congrArg List.length hs
      have hshort := hl.short
      rw [append_nil] at hlen
      rcases hfull with rfl | hfull
      · exact nomatch hr
      · omega
    | cons c a =>
      obtain ⟨rfl, _⟩ := List.cons.inj hr
      exact h.not_line hl.no_nul hs

theorem grepLoop_filtered {re : Str} (hre : 0 ∈ re) {split : Nat → Nat} :
    ∀ {fuel i m : Nat} {buf input : Str} (out : Str), input.length < fuel → buf.length = bufSize →
    (buf.take m).length = m → m ≤ bufSize - 1 → Partial (buf.take m) →
    ∃ ls rest, Filtered re (buf.take m ++ input) out (grepLoop re split fuel i m buf out input) ls rest
  | 0, _, _, _, _, _, h, _, _, _, _ => nomatch h
  | fuel + 1, i, m, buf, input, out, hfuel, hlen, hm, hsize, hpart => by
    obtain ⟨chunk, left, hread⟩ : ∃ chunk left, read (split i) ((bufSize : Int) - m - 1) input = (chunk, left) :=
      ⟨_, _, rfl⟩
    obtain ⟨hinput, hcount, hstop⟩ := read_spec hread
    rw [grepLoop, hread]
    dsimp only
    by_cases hz : chunk.length = 0
    · have hfull : input = [] ∨ (buf.take m).length = bufSize - 1 := by
        rcases hstop hz with h | h
        · exact .inr (by omega)
        · exact .inl h
      rw [if_pos hz]
      refine ⟨[], buf.take m ++ input, rfl, nofun, fun l r hl => hpart.longest input hfull hl, ?_⟩
      exact congrArg some (append_nil out).symm
    · have hsize' : m + chunk.length ≤ bufSize - 1 := by omega
      obtain ⟨buf₁, junk, hlen₁, hbuf₁, hk⟩ := fill_store hlen hm hsize'
      have htotal : (buf.take m ++ chunk).length = m + chunk.length := by rw [length_append, hm]
      obtain ⟨ls, s', buf₂, h⟩ := scan_scanned hre out (by omega : _ < bufSize + 1) (by omega) hbuf₁
      have hleft : m + chunk.length - (joined ls).length = s'.length := by
        rw [← htotal, h.split, length_append, Nat.add_sub_cancel_left]
      have hlen₂ := h.length.trans hlen₁
      have hfit : (joined ls).length + s'.length ≤ bufSize - 1 := by
        rw [← length_append, ← h.split]
        omega
      have hfit₂ : (joined ls).length + s'.length ≤ buf₂.length := by omega
      obtain ⟨buf₃, hmove, hlen₃, htake₃⟩ := memmove_start hfit₂
      have hdrop := h.drop
      rw [Nat.zero_add] at hdrop
      rw [hdrop, take_left] at htake₃
      have hinput' := congrArg List.length hinput
      rw [length_append] at hinput'
      obtain ⟨ls', rest, h'⟩ : ∃ ls' rest, Filtered re (buf₃.take s'.length ++ left) (out ++ joined (shown re ls))
          (grepLoop re split fuel (i + 1) s'.length buf₃ (out ++ joined (shown re ls)) left) ls' rest :=
        grepLoop_filtered hre _ (by omega) (hlen₃.trans hlen₂) (by rw [htake₃]) (by omega) (htake₃.symm ▸ h.left)
      have hsplit := h'.split
      rw [htake₃] at hsplit
      refine ⟨ls ++ ls', rest, ?_, ?_, h'.longest, ?_⟩
      · rw [hinput, ← append_assoc, h.split, append_assoc, hsplit, joined_append, append_assoc]
      · intro l hl
        rcases mem_append.mp hl with hl | hl
        · exact h.lines l hl
        · exact h'.lines l hl
      · rw [if_neg hz, hk, h.returns]
        change (if m + chunk.length > 0 then _ else _) = _
        rw [if_pos (by omega), Nat.zero_add, hleft, hmove]
        change grepLoop _ _ _ _ _ _ _ _ = _
        rw [h'.returns, shown_append, joined_append, append_assoc]

end Lines

/-- Whatever the reads return, grep writes the matching lines of the longest start of the input
that consists of lines it can hold, and stays within its buffer. -/
theorem grep_output {re : Str} (hre : 0 ∈ re) (split : Nat → Nat) (buf : Vector UChar bufSize) (input : Str) :
    ∃ ls rest, input = joined ls ++ rest ∧ (∀ l ∈ ls, Line l) ∧ (∀ l r, Line l → rest ≠ l ++ nl :: r) ∧
      grep re split buf input = some (joined (shown re ls)) := by
  have hnone : Partial (buf.toList.take 0) := List.not_mem_nil
  obtain ⟨ls, rest, h⟩ : ∃ ls rest, Filtered re (buf.toList.take 0 ++ input) [] (grep re split buf input) ls rest :=
    grepLoop_filtered hre [] (Nat.lt_succ_self input.length) buf.length_toList rfl (by decide) hnone
  exact ⟨ls, rest, h.split, h.lines, h.longest, h.returns⟩

/-- The pattern `a`, one byte at a time, and an input without a last newline. -/
theorem grep_output_bytewise : 0 ∈ [chr 'a', 0] ∧ ∃ ls rest, [chr 'a', nl, chr 'b'] = joined ls ++ rest ∧
    (∀ l ∈ ls, Line l) ∧ (∀ l r, Line l → rest ≠ l ++ nl :: r) ∧
    grep [chr 'a', 0] (fun _ => 1) (Vector.replicate bufSize 0) [chr 'a', nl, chr 'b'] =
      some (joined (shown [chr 'a', 0] ls)) :=
  ⟨by decide, grep_output (by decide) _ _ _⟩

end Txv6.Grep
