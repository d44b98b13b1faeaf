import Txv6.Lib.Prog

/-! # Loops without a bound

A program has no infinite executions, so a loop that may go round any number of times is
given the number of rounds it is run for. After them it stands still: a run of a machine is
finite, so every run is one in which each loop has been given enough of them.
-/
namespace Txv6.Lib.Prog
variable {σ ε α β : Type}

/-- Wait for ever. The error behind the step is not reached. -/
def stuck (e : ε) : Prog σ ε α := .act (fun _ => false) id fun _ => .fail e

/-- Run `body` until it comes to a result, for at most the given number of rounds. -/
def rounds (e : ε) (body : β → Prog σ ε (β ⊕ α)) : Nat → β → Prog σ ε α
  | 0, _ => stuck e
  | n + 1, b => do
    match ← body b with
    | .inl b => rounds e body n b
    | .inr a => return a

variable [Fatal ε] {R G : σ → σ → Prop} {Q : α → σ → Prop} {E : ε → σ → Prop} {s : σ}

theorem wp_stuck (e : ε) : wp R G (stuck e) Q E s := fun _ _ hen => nomatch hen

/-- A loop keeps what each of its rounds keeps. -/
theorem wp_rounds {e : ε} {body : β → Prog σ ε (β ⊕ α)} {J : β → σ → Prop}
    (h : ∀ b s, J b s → wp R G (body b) (fun r t => r.elim (J · t) (Q · t)) E s)
    (n : Nat) {b : β} (hb : J b s) : wp R G (rounds e body n b) Q E s := by
  induction n generalizing b s with
  | zero => exact wp_stuck e
  | succ n ih =>
    refine wp_seq (h b s hb) fun r t hr => ?_
    cases r with
    | inl b => exact ih hr
    | inr a => exact hr

end Txv6.Lib.Prog
