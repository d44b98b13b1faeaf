import Txv6.ExitInTx
import Txv6.Lib.Faults
import Txv6.Logic.Low
import Txv6.Shell.Parse
import Txv6.TxLayer.Results

/-! # What a line with the `tx` prefix leaves behind

The shell forks a child, which begins a transaction and calls `runcmd`. `runcmd` never returns: it
ends in `exec` or in `exit` in every case, so the call of `txcommit` after it is not reached. What
the child and the processes below it leave behind is up to the programs they run.
-/
namespace Txv6.Shell
open Lib Lib.Prog

/-! ## Processes as their system calls -/

/-- What a process does up to its exit: the calls that change the file system, those of `systx.c`
that succeed, and its forks. -/
inductive Life where
  | exit (status : Int)
  | change (rest : Life)
  | txbegin (rest : Life)
  | txcommit (rest : Life)
  | txabort (rest : Life)
  | fork (child rest : Life)

/-- The status that a process exits with. -/
def Life.status : Life → Int
  | .exit status => status
  | .change rest | .txbegin rest | .txcommit rest | .txabort rest | .fork _ rest => rest.status

/-- The transaction of a process, the number of changes made in it since it was begun, and the
number of the changes that no committed transaction has made. -/
structure Account where
  tx : TxStatus := .inactive
  inside : Nat := 0
  outside : Nat := 0
  deriving DecidableEq

namespace Account

def change (x : Account) : Account :=
  if x.tx = .active then { x with inside := x.inside + 1 } else { x with outside := x.outside + 1 }

/-- `sys_txbegin` forgets the workset of a transaction that is active already. -/
def txbegin (x : Account) : Account :=
  { tx := .active, inside := 0, outside := x.outside + x.inside }

def txcommit (x : Account) : Account :=
  if x.tx = .active then { x with tx := .committed, inside := 0 } else x

def txabort (x : Account) : Account :=
  if x.tx = .active then { tx := .aborted, inside := 0, outside := x.outside + x.inside } else x

end Account

/-- The accounts with which the process and those below it exit. A child starts with a transaction
of its own, which is inactive. -/
def Life.exits : Life → Account → List Account
  | .exit _, x => [x]
  | .change rest, x => rest.exits x.change
  | .txbegin rest, x => rest.exits x.txbegin
  | .txcommit rest, x => rest.exits x.txcommit
  | .txabort rest, x => rest.exits x.txabort
  | .fork child rest, x => child.exits {} ++ rest.exits x

/-! ## The shell -/

/-- Where in the command a part of it stands. -/
abbrev Path := List Bool

/-- How the calls end that the shell makes: by part of the command, the life of the program that
`exec` starts, whether `open` changes the file system, and whether `pipe` and `fork` succeed. -/
structure World where
  begins : Bool
  exec : Path → List Name → Option Life
  opens : Path → Redir → Option Bool
  pipes : Path → Bool
  forks : Path → Bool

variable {W : World} {x : Account} {l : Life}

def runcmd (W : World) : Path → Cmd → Life
  | _, .exec [] => .exit 1
  | i, .exec argv =>
    match W.exec i argv with
    | some program => program
    | none => .exit 0
  | i, .redir cmd r =>
    match W.opens i r with
    | none => .exit 1
    | some true => .change (runcmd W (false :: i) cmd)
    | some false => runcmd W (false :: i) cmd
  | i, .list left right =>
    if W.forks (false :: i) then .fork (runcmd W (false :: i) left) (runcmd W (true :: i) right)
    else .exit 1
  | i, .pipe left right =>
    if !W.pipes i then .exit 1
    else if !W.forks (false :: i) then .exit 1
    else .fork (runcmd W (false :: i) left) <|
      if !W.forks (true :: i) then .exit 1 else .fork (runcmd W (true :: i) right) (.exit 0)
  | i, .back cmd =>
    if W.forks (false :: i) then .fork (runcmd W (false :: i) cmd) (.exit 0) else .exit 1

/-- The child of `main` that a line with the prefix is run in. -/
def txLine (W : World) (s : Str) : Life :=
  if !W.begins then .exit 1
  else .txbegin <|
    match parsecmd s with
    | .ok cmd => runcmd W [] cmd
    | .error _ => .exit 1

/-- Every change was made by a transaction that was committed, and no process has exited in one. -/
def Life.Committed (l : Life) (x : Account) : Prop :=
  ∀ y ∈ l.exits x, y.tx ≠ .active ∧ y.outside = 0

/-! ## Programs that end their transactions -/

/-- The process ends every transaction before its exit, commits those with changes in them and
makes no changes outside. `active` tells whether it starts in a transaction, and `changed` whether
there are changes in that. -/
def Life.Settles : Life → (active changed : Bool) → Prop
  | .exit _, active, _ => active = false
  | .change rest, active, _ => active = true ∧ rest.Settles true true
  | .txbegin rest, _, changed => changed = false ∧ rest.Settles true false
  | .txcommit rest, _, _ => rest.Settles false false
  | .txabort rest, _, changed => changed = false ∧ rest.Settles false false
  | .fork child rest, active, changed => child.Settles false false ∧ rest.Settles active changed

/-- The account of a process of which nothing is lost so far. -/
structure Account.Clean (x : Account) (active changed : Bool) : Prop where
  tx : x.tx = .active ↔ active = true
  inside : x.inside = 0 ↔ changed = false
  idle : active = false → changed = false
  outside : x.outside = 0

theorem Account.Clean.fresh : Account.Clean {} false false := by
  refine ⟨⟨fun h => ?_, fun h => ?_⟩, ⟨fun _ => rfl, fun _ => rfl⟩, fun _ => rfl, rfl⟩
  · cases h
  · cases h

/-- What is lost once stays lost. -/
theorem Life.outside_le_exits (l : Life) (x : Account) : ∃ y ∈ l.exits x, x.outside ≤ y.outside := by
  induction l generalizing x with
  | exit st => exact ⟨x, List.mem_cons_self, Nat.le_refl _⟩
  | change rest ih =>
    obtain ⟨y, hy, hle⟩ := ih x.change
    refine ⟨y, hy, Nat.le_trans ?_ hle⟩
    unfold Account.change
    split
    · exact Nat.le_refl _
    · exact Nat.le_succ _
  | txbegin rest ih =>
    obtain ⟨y, hy, hle⟩ := ih x.txbegin
    exact ⟨y, hy, Nat.le_trans (Nat.le_add_right _ _) hle⟩
  | txcommit rest ih =>
    obtain ⟨y, hy, hle⟩ := ih x.txcommit
    refine ⟨y, hy, Nat.le_trans ?_ hle⟩
    unfold Account.txcommit
    split <;> exact Nat.le_refl _
  | txabort rest ih =>
    obtain ⟨y, hy, hle⟩ := ih x.txabort
    refine ⟨y, hy, Nat.le_trans ?_ hle⟩
    unfold Account.txabort
    split
    · exact Nat.le_add_right _ _
    · exact Nat.le_refl _
  | fork child rest _ ih =>
    obtain ⟨y, hy, hle⟩ := ih x
    exact ⟨y, List.mem_append_right _ hy, hle⟩

theorem Life.not_committed (h : 0 < x.outside) : ¬ l.Committed x := by
  intro hc
  obtain ⟨y, hy, hle⟩ := l.outside_le_exits x
  have := (hc y hy).2
  omega

/-- A process leaves everything committed exactly when it settles. -/
theorem Life.committed_iff {active changed : Bool}
    (h : x.Clean active changed) : l.Committed x ↔ l.Settles active changed := by
  induction l generalizing x active changed with
  | exit st =>
    refine ⟨fun hc => ?_, fun hs y hy => ?_⟩
    · have hne := (hc x List.mem_cons_self).1
      exact Bool.eq_false_iff.mpr fun ha => hne (h.tx.mpr ha)
    · obtain rfl := List.mem_singleton.mp hy
      have hs : active = false := hs
      refine ⟨fun ha => ?_, h.outside⟩
      rw [h.tx.mp ha] at hs
      cases hs
  | change rest ih =>
    change rest.Committed x.change ↔ active = true ∧ rest.Settles true true
    by_cases ha : active = true
    · have hact := h.tx.mpr ha
      have hclean : x.change.Clean true true := by
        unfold Account.change
        rw [if_pos hact]
        refine ⟨⟨fun _ => rfl, fun _ => hact⟩, ⟨fun h0 => ?_, fun h0 => ?_⟩, fun h0 => ?_, h.outside⟩
        · exact absurd h0 (Nat.succ_ne_zero _)
        · cases h0
        · cases h0
      rw [ih hclean]
      exact ⟨fun hs => ⟨ha, hs⟩, fun hs => hs.2⟩
    · have hlost : 0 < x.change.outside := by
        unfold Account.change
        rw [if_neg (fun hact => ha (h.tx.mp hact))]
        exact Nat.succ_pos _
      exact ⟨fun hc => absurd hc (not_committed hlost), fun hs => absurd hs.1 ha⟩
  | txbegin rest ih =>
    change rest.Committed x.txbegin ↔ changed = false ∧ rest.Settles true false
    by_cases hc : changed = false
    · have h0 := h.inside.mpr hc
      have hclean : x.txbegin.Clean true false :=
        ⟨⟨fun _ => rfl, fun _ => rfl⟩, ⟨fun _ => rfl, fun _ => rfl⟩, fun _ => rfl,
          show x.outside + x.inside = 0 by rw [h.outside, h0]⟩
      rw [ih hclean]
      exact ⟨fun hs => ⟨hc, hs⟩, fun hs => hs.2⟩
    · have hlost : 0 < x.txbegin.outside := by
        have : x.inside ≠ 0 := fun h0 => hc (h.inside.mp h0)
        change 0 < x.outside + x.inside
        omega
      exact ⟨fun hd => absurd hd (not_committed hlost), fun hs => absurd hs.1 hc⟩
  | txcommit rest ih =>
    change rest.Committed x.txcommit ↔ rest.Settles false false
    refine ih ?_
    unfold Account.txcommit
    split
    · refine ⟨⟨fun ha => ?_, fun ha => ?_⟩, ⟨fun _ => rfl, fun _ => rfl⟩, fun _ => rfl, h.outside⟩
      · cases ha
      · cases ha
    next hact =>
      have ha : active = false := Bool.eq_false_iff.mpr fun ha => hact (h.tx.mpr ha)
      have hc := h.idle ha
      subst ha hc
      exact h
  | txabort rest ih =>
    change rest.Committed x.txabort ↔ changed = false ∧ rest.Settles false false
    by_cases hc : changed = false
    · have h0 := h.inside.mpr hc
      have hclean : x.txabort.Clean false false := by
        unfold Account.txabort
        split
        · refine ⟨⟨fun ha => ?_, fun ha => ?_⟩, ⟨fun _ => rfl, fun _ => rfl⟩, fun _ => rfl, ?_⟩
          · cases ha
          · cases ha
          · show x.outside + x.inside = 0
            rw [h.outside, h0]
        next hact =>
          have ha : active = false := Bool.eq_false_iff.mpr fun ha => hact (h.tx.mpr ha)
          subst ha hc
          exact h
      rw [ih hclean]
      exact ⟨fun hs => ⟨hc, hs⟩, fun hs => hs.2⟩
    · have hact : x.tx = .active := h.tx.mpr <| Bool.of_not_eq_false fun ha => hc (h.idle ha)
      have hlost : 0 < x.txabort.outside := by
        have : x.inside ≠ 0 := fun h0 => hc (h.inside.mp h0)
        unfold Account.txabort
        rw [if_pos hact]
        change 0 < x.outside + x.inside
        omega
      exact ⟨fun hd => absurd hd (not_committed hlost), fun hs => absurd hs.1 hc⟩
  | fork child rest ihc ihr =>
    change (∀ y ∈ child.exits {} ++ rest.exits x, y.tx ≠ .active ∧ y.outside = 0) ↔
      child.Settles false false ∧ rest.Settles active changed
    rw [List.forall_mem_append]
    exact and_congr (ihc .fresh) (ihr h)

/-! ## Commands -/

/-- A command that is run by a process which is in no transaction: no redirection changes the file
system, and the programs settle. -/
def Cmd.Apart (W : World) : Path → Cmd → Prop
  | _, .exec [] => True
  | i, .exec argv => ∀ program, W.exec i argv = some program → program.Settles false false
  | i, .redir cmd r => W.opens i r ≠ some true ∧ (W.opens i r = some false → cmd.Apart W (false :: i))
  | i, .list left right => W.forks (false :: i) = true →
      left.Apart W (false :: i) ∧ right.Apart W (true :: i)
  | i, .pipe left right => W.pipes i = true → W.forks (false :: i) = true →
      left.Apart W (false :: i) ∧ (W.forks (true :: i) = true → right.Apart W (true :: i))
  | i, .back cmd => W.forks (false :: i) = true → cmd.Apart W (false :: i)

/-- A command that is run in a transaction: all but the last command of a list settle by
themselves, and the last one is a program that ends the transaction it has got from the shell. -/
def Cmd.Commits (W : World) : Path → (changed : Bool) → Cmd → Prop
  | _, _, .exec [] => False
  | i, changed, .exec argv => ∃ program, W.exec i argv = some program ∧ program.Settles true changed
  | i, changed, .redir cmd r => ∃ b, W.opens i r = some b ∧ cmd.Commits W (false :: i) (changed || b)
  | i, changed, .list left right => W.forks (false :: i) = true ∧ left.Apart W (false :: i) ∧
      right.Commits W (true :: i) changed
  | _, _, .pipe _ _ => False
  | _, _, .back _ => False

theorem settles_runcmd_apart (c : Cmd) (i : Path) : (runcmd W i c).Settles false false ↔ c.Apart W i := by
  induction c generalizing i with
  | exec argv =>
    cases argv with
    | nil => exact ⟨fun _ => trivial, fun _ => rfl⟩
    | cons a argv =>
      unfold runcmd Cmd.Apart
      cases W.exec i (a :: argv) with
      | none => exact ⟨fun _ _ h => (nomatch h), fun _ => rfl⟩
      | some program => exact ⟨fun h _ he => Option.some.inj he ▸ h, fun h => h program rfl⟩
  | redir cmd r ih =>
    unfold runcmd Cmd.Apart
    cases W.opens i r with
    | none => exact ⟨fun _ => ⟨fun h => (nomatch h), fun h => (nomatch h)⟩, fun _ => rfl⟩
    | some b =>
      cases b with
      | true => exact ⟨fun h => (nomatch h.1), fun h => absurd rfl h.1⟩
      | false =>
        exact (ih _).trans ⟨fun h => ⟨fun he => (nomatch he), fun _ => h⟩, fun h => h.2 rfl⟩
  | list left right ihl ihr =>
    unfold runcmd Cmd.Apart
    split
    next hf => exact (and_congr (ihl _) (ihr _)).trans ⟨fun h _ => h, fun h => h hf⟩
    next hf => exact ⟨fun _ h => absurd h hf, fun _ => rfl⟩
  | pipe left right ihl ihr =>
    unfold runcmd Cmd.Apart
    cases W.pipes i with
    | false => exact ⟨fun _ h => (nomatch h), fun _ => rfl⟩
    | true =>
      cases W.forks (false :: i) with
      | false => exact ⟨fun _ _ h => (nomatch h), fun _ => rfl⟩
      | true =>
        have hright : (if !W.forks (true :: i) then Life.exit 1
              else .fork (runcmd W (true :: i) right) (.exit 0)).Settles false false ↔
            (W.forks (true :: i) = true → right.Apart W (true :: i)) := by
          cases W.forks (true :: i) with
          | false => exact ⟨fun _ h => (nomatch h), fun _ => rfl⟩
          | true => exact ⟨fun h _ => (ihr _).mp h.1, fun h => ⟨(ihr _).mpr (h rfl), rfl⟩⟩
        exact (and_congr (ihl _) hright).trans ⟨fun h _ _ => h, fun h => h rfl rfl⟩
  | back cmd ih =>
    unfold runcmd Cmd.Apart
    split
    next hf => exact ⟨fun h _ => (ih _).mp h.1, fun h => ⟨(ih _).mpr (h hf), rfl⟩⟩
    next hf => exact ⟨fun _ h => absurd h hf, fun _ => rfl⟩

theorem settles_runcmd (c : Cmd) (i : Path) (changed : Bool) :
    (runcmd W i c).Settles true changed ↔ c.Commits W i changed := by
  induction c generalizing i changed with
  | exec argv =>
    cases argv with
    | nil => exact ⟨fun h => (nomatch h), False.elim⟩
    | cons a argv =>
      unfold runcmd Cmd.Commits
      cases W.exec i (a :: argv) with
      | none => exact ⟨fun h => (nomatch h), fun ⟨_, h, _⟩ => (nomatch h)⟩
      | some program =>
        exact ⟨fun h => ⟨program, rfl, h⟩, fun ⟨_, he, h⟩ => Option.some.inj he ▸ h⟩
  | redir cmd r ih =>
    unfold runcmd Cmd.Commits
    cases W.opens i r with
    | none => exact ⟨fun h => (nomatch h), fun ⟨_, h, _⟩ => (nomatch h)⟩
    | some b =>
      have hopen : (∃ b', some b = some b' ∧ cmd.Commits W (false :: i) (changed || b')) ↔
          cmd.Commits W (false :: i) (changed || b) :=
        ⟨fun ⟨_, he, h⟩ => Option.some.inj he ▸ h, fun h => ⟨b, rfl, h⟩⟩
      rw [hopen, ← ih]
      cases b with
      | true =>
        rw [Bool.or_true]
        exact ⟨fun h => h.2, fun h => ⟨rfl, h⟩⟩
      | false => rw [Bool.or_false]
  | list left right ihl ihr =>
    unfold runcmd Cmd.Commits
    split
    next hf =>
      exact (and_congr (settles_runcmd_apart left _) (ihr _ _)).trans
        ⟨fun h => ⟨hf, h⟩, fun h => h.2⟩
    next hf => exact ⟨fun h => (nomatch h), fun h => absurd h.1 hf⟩
  | pipe left right _ _ =>
    unfold runcmd Cmd.Commits
    -- whichever calls fail, it is the shell's own process that exits
    refine ⟨fun h => ?_, False.elim⟩
    split at h
    · exact nomatch h
    · split at h
      · exact nomatch h
      · have h := h.2
        split at h
        · exact nomatch h
        · exact nomatch h.2
  | back cmd _ =>
    unfold runcmd Cmd.Commits
    refine ⟨fun h => ?_, False.elim⟩
    split at h
    · exact nomatch h.2
    · exact nomatch h

/-- A line with the prefix commits what it does exactly when the shell's child has got no
transaction at all, or the command is a list whose last part is a program that commits by itself. -/
theorem tx_line_commits_iff (W : World) {s : Str} {c : Cmd} (h : parsecmd s = .ok c) :
    (txLine W s).Committed {} ↔ W.begins = false ∨ c.Commits W [] false := by
  rw [Life.committed_iff .fresh]
  unfold txLine
  rw [h]
  cases W.begins with
  | false => exact ⟨fun _ => .inl rfl, fun _ => rfl⟩
  | true =>
    have hrun : (Life.txbegin (runcmd W [] c)).Settles false false ↔ c.Commits W [] false :=
      Iff.trans ⟨fun hs => hs.2, fun hs => ⟨rfl, hs⟩⟩ (settles_runcmd c [] false)
    exact hrun.trans ⟨.inr, fun hs => hs.resolve_left Bool.noConfusion⟩

/-- All calls succeed, and every program does the same. -/
def World.of (program : Life) : World where
  begins := true
  exec _ _ := some program
  opens _ r := some (r.fd == 1)
  pipes _ := true
  forks _ := true

/-- `echo > f`. -/
def echoLine : Str := str ['e', 'c', 'h', 'o', '>', 'f'] ++ [0x0a]

def echoCmd : Cmd :=
  .redir (.exec [str ['e', 'c', 'h', 'o']]) ⟨str ['f'], oWronly ||| oCreate ||| oTrunc, 1⟩

/-- If `echo` committed the transaction it is started in. -/
theorem tx_line_commits_iff_echo :
    parsecmd echoLine = .ok echoCmd ∧
      (txLine (.of (.change (.txcommit (.exit 0)))) echoLine).Committed {} := by
  have hparse : parsecmd echoLine = .ok echoCmd := by decide +kernel
  refine ⟨hparse, (tx_line_commits_iff _ hparse).mpr (.inr ⟨true, rfl, ?_⟩)⟩
  exact ⟨_, rfl, rfl, rfl⟩

/-- But `echo` has no transaction calls: its process exits with 0, and in the transaction, with the
changes of `open` and `write` in its workset. -/
theorem tx_line_not_committed :
    parsecmd echoLine = .ok echoCmd ∧ chr '&' ∉ echoLine ∧
      (∀ i argv program, (World.of (.change (.exit 0))).exec i argv = some program → program.status = 0) ∧
      (txLine (.of (.change (.exit 0))) echoLine).exits {} = [⟨.active, 2, 0⟩] ∧
      ¬ (txLine (.of (.change (.exit 0))) echoLine).Committed {} := by
  have hexits : (txLine (.of (.change (.exit 0))) echoLine).exits {} = [⟨.active, 2, 0⟩] := by
    decide +kernel
  refine ⟨by decide +kernel, by decide, fun i argv program he => ?_, hexits, fun hc => ?_⟩
  · obtain rfl := Option.some.inj he
    rfl
  · unfold Life.Committed at hc
    rw [hexits] at hc
    exact (hc _ List.mem_cons_self).1 rfl

end Txv6.Shell

/-! ## The kernel's side -/
namespace Txv6
open Lib Lib.Prog Shell

section Status
variable {p : ProcPtr} {s t : Kernel} {x : Shell.Account} {st : Option TxStatus}

def Kernel.txStatus (s : Kernel) (p : ProcPtr) : Option TxStatus :=
  (s.proc p).tx.map fun a => (s.tx a).status

theorem LeavesAlone.txStatus (h : LeavesAlone p s t) : t.txStatus p = s.txStatus p := by
  unfold Kernel.txStatus
  rw [h.proc]
  cases ha : (s.proc p).tx with
  | none => rfl
  | some a => rw [Option.map_some, Option.map_some, h.tx a ha]

theorem AbortStep.txStatus (h : AbortStep p s t) : t.txStatus p = s.txStatus p := by
  unfold Kernel.txStatus
  cases h with
  | inode _ => rfl
  | skip => rfl
  | tx h =>
    cases h with
    | calm hc => rw [hc.proc, hc.tx]
    | @grant a y ro pg src rest ha _ _ _ _ =>
      have hproc : (s.grantShadow a y ro pg src rest).proc = s.proc := by
        cases y <;> rfl
      rw [hproc, ha]
      cases y <;> simp [Kernel.grantShadow, Kernel.setTx, Kernel.setPage, Kernel.setWriter,
        Kernel.setBuf, Kernel.setInode]
    | @mark b =>
      unfold Kernel.markNew
      cases ha : (s.proc p).tx with
      | none => rw [ha]
      | some a =>
        dsimp only
        split
        · rw [ha]
        · simp [Kernel.setTx, ha]

end Status

end Txv6
