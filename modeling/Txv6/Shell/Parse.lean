import Txv6.Param

/-! # The shell's parser

`gettoken`, `peek` and the recursive descent parser of `sh.c`, on the bytes that are left of the
line. The tokens are cut out where the source remembers where they start and end, so
`nulterminate` has nothing left to do. Recursion is bounded by a number that the length of the
line is shown to be enough for.
-/
namespace Txv6.Shell

abbrev Str := List UChar

def chr (c : Char) : UChar := BitVec.ofNat 8 c.toNat

structure Redir where
  file : Name
  mode : Nat
  fd : Nat
  deriving DecidableEq

/-- `struct cmd`. -/
inductive Cmd where
  | exec (argv : List Name)
  | redir (cmd : Cmd) (r : Redir)
  | pipe (left right : Cmd)
  | list (left right : Cmd)
  | back (cmd : Cmd)
  deriving DecidableEq

abbrev maxargs : Nat := 10

def str (s : List Char) : Str := s.map chr

/-! ## Tokens -/

/-- `" \t\r\n\v"`. -/
def whitespace : Str := [0x20, 0x09, 0x0d, 0x0a, 0x0b]

/-- `"<|>&;()"`. -/
def symbols : Str := [chr '<', chr '|', chr '>', chr '&', chr ';', chr '(', chr ')']

def skip (s : Str) : Str := s.dropWhile fun c => whitespace.contains c

/-- Whether `gettoken` goes on within a word. -/
def inWord (c : UChar) : Bool := !whitespace.contains c && !symbols.contains c

/-- The kind of the next token, the token, and what follows it. -/
def tokenOf (s : Str) : UChar × Name × Str :=
  match skip s with
  | [] => (0, [], [])
  | c :: rest =>
    if c = 0 then (0, [], c :: rest)
    else if c = chr '>' then
      match rest with
      | d :: rest' => if d = chr '>' then (chr '+', [c, d], skip rest') else (c, [c], skip rest)
      | [] => (c, [c], [])
    else if symbols.contains c then (c, [c], skip rest)
    else (chr 'a', (c :: rest).takeWhile inWord, skip ((c :: rest).dropWhile inWord))

inductive ParseErr where
  /-- The shell's own `panic`, which exits. -/
  | panic (msg : String)
  | fuel
  deriving DecidableEq

abbrev Parser := StateT Str (Except ParseErr)

def gettoken : Parser (UChar × Name) := fun s =>
  .ok (((tokenOf s).1, (tokenOf s).2.1), (tokenOf s).2.2)

def peek (toks : Str) : Parser Bool := fun s =>
  match skip s with
  | [] => .ok (false, [])
  | c :: rest => .ok (c != 0 && toks.contains c, c :: rest)

/-! ## Commands -/

def redirOf (tok : UChar) (file : Name) : Redir :=
  if tok = chr '<' then ⟨file, oRdonly, 0⟩
  else if tok = chr '>' then ⟨file, oWronly ||| oCreate ||| oTrunc, 1⟩
  else ⟨file, oWronly ||| oCreate, 1⟩

def wrap (cmd : Cmd) (rs : List Redir) : Cmd := rs.foldl .redir cmd

def parseredirs : Nat → Parser (List Redir)
  | 0 => throw .fuel
  | n + 1 => do
    if ← peek [chr '<', chr '>'] then
      let tok ← gettoken
      let file ← gettoken
      if file.1 ≠ chr 'a' then throw (.panic "missing file for redirection")
      else
        let rs ← parseredirs n
        return redirOf tok.1 file.2 :: rs
    else return []

/-- The loop of `parseexec`. -/
def parseargs : Nat → List Name → List Redir → Parser (List Name × List Redir)
  | 0, _, _ => throw .fuel
  | n + 1, argv, rs => do
    if ← peek [chr '|', chr ')', chr '&', chr ';'] then return (argv, rs)
    else
      let tok ← gettoken
      if tok.1 = 0 then return (argv, rs)
      else if tok.1 ≠ chr 'a' then throw (.panic "syntax")
      else if maxargs ≤ argv.length + 1 then throw (.panic "too many args")
      else
        let more ← parseredirs n
        parseargs n (argv ++ [tok.2]) (rs ++ more)

/-- The loop of `parseline`. -/
def parseback : Nat → Cmd → Parser Cmd
  | 0, _ => throw .fuel
  | n + 1, cmd => do
    if ← peek [chr '&'] then
      let _ ← gettoken
      parseback n (.back cmd)
    else return cmd

mutual

def parseline : Nat → Parser Cmd
  | 0 => throw .fuel
  | n + 1 => do
    let cmd ← parsepipe n
    let cmd ← parseback n cmd
    if ← peek [chr ';'] then
      let _ ← gettoken
      let right ← parseline n
      return .list cmd right
    else return cmd

def parsepipe : Nat → Parser Cmd
  | 0 => throw .fuel
  | n + 1 => do
    let cmd ← parseexec n
    if ← peek [chr '|'] then
      let _ ← gettoken
      let right ← parsepipe n
      return .pipe cmd right
    else return cmd

def parseexec : Nat → Parser Cmd
  | 0 => throw .fuel
  | n + 1 => do
    if ← peek [chr '('] then parseblock n
    else
      let rs ← parseredirs n
      let (argv, rs) ← parseargs n [] rs
      return wrap (.exec argv) rs

def parseblock : Nat → Parser Cmd
  | 0 => throw .fuel
  | n + 1 => do
    if ← peek [chr '('] then
      let _ ← gettoken
      let cmd ← parseline n
      if ← peek [chr ')'] then
        let _ ← gettoken
        let rs ← parseredirs n
        return wrap cmd rs
      else throw (.panic "syntax - missing )")
    else throw (.panic "parseblock")

end

/-- `parsecmd`: nothing may be left over. -/
def parsecmd (s : Str) : Except ParseErr Cmd :=
  match (do
    let cmd ← parseline (4 * s.length + 4)
    let _ ← peek []
    return cmd : Parser Cmd) s with
  | .ok (cmd, []) => .ok cmd
  | .ok (_, _ :: _) => .error (.panic "syntax")
  | .error e => .error e

end Txv6.Shell
