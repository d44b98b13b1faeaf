import Mathlib.Logic.Basic

/-! # Programs of atomic steps

A `Prog σ ε α` is code over shared states `σ`: it returns an `α`, leaves with an
error `ε`, or takes one atomic step. A step carries the condition it waits for, so
a lock acquisition is a step that is enabled only while the lock is free. What runs
between two steps of a program is left to the judgements below: nothing (`run`),
or the steps of other programs, as far as a rely relation lets them (`Exec`, `wp`).
-/
namespace Txv6.Lib

inductive Prog (σ ε α : Type) where
  | ret (a : α)
  | fail (e : ε)
  | act (en : σ → Bool) (upd : σ → σ) (next : σ → Prog σ ε α)

/-- Errors after which nothing runs any more. -/
class Fatal (ε : Type) where
  fatal : ε → Bool

namespace Prog
variable {σ ε α β : Type} {p : Prog σ ε α} {f : α → Prog σ ε β} {Q' : β → σ → Prop} {h : ε → Prog σ ε α}
  {E' : ε → σ → Prop}

protected def bind (p : Prog σ ε α) (f : α → Prog σ ε β) : Prog σ ε β :=
  match p with
  | .ret a => f a
  | .fail e => .fail e
  | .act en upd next => .act en upd fun s => (next s).bind f

instance : Monad (Prog σ ε) where
  pure := .ret
  bind := Prog.bind

/-- Read the state: a step that changes nothing. -/
def read (f : σ → α) : Prog σ ε α := .act (fun _ => true) id fun s => .ret (f s)

/-- One atomic step that changes the state and returns a value. -/
def atom (f : σ → α × σ) : Prog σ ε α :=
  .act (fun _ => true) (fun s => (f s).2) fun s => .ret (f s).1

def update (f : σ → σ) : Prog σ ε Unit := .act (fun _ => true) f fun _ => .ret ()

/-- An atomic step that waits for a condition. -/
def await (en : σ → Bool) (f : σ → σ) : Prog σ ε Unit := .act en f fun _ => .ret ()

/-- Check the state, or leave with an error. -/
def check (c : σ → Bool) (e : ε) : Prog σ ε Unit :=
  .act (fun _ => true) id fun s => if c s then .ret () else .fail e

/-- Run a program only under a condition. -/
def when (c : Bool) (p : Prog σ ε Unit) : Prog σ ε Unit := if c then p else .ret ()

/-- Replace the errors of a program by what a handler does with them. -/
def handle (p : Prog σ ε α) (h : ε → Prog σ ε α) : Prog σ ε α :=
  match p with
  | .ret a => .ret a
  | .fail e => h e
  | .act en upd next => .act en upd fun s => (next s).handle h

/-- Whether the program has come to an error that stops the system. -/
def isFatal [Fatal ε] : Prog σ ε α → Bool
  | .fail e => Fatal.fatal e
  | _ => false

theorem isFatal_of_bind [Fatal ε] (h : (p.bind f).isFatal = false) : p.isFatal = false := by
  cases p with
  | ret a => rfl
  | fail e => exact h
  | act en upd next => rfl

theorem isFatal_of_handle [Fatal ε] (hh : ∀ e, Fatal.fatal e = true → (h e).isFatal = true)
    (hn : (p.handle h).isFatal = false) : p.isFatal = false := by
  cases p with
  | ret a => rfl
  | fail e =>
    refine Bool.eq_false_iff.mpr fun hc => ?_
    rw [show (Prog.fail e : Prog σ ε α).handle h = h e from rfl, hh e hc] at hn
    cases hn
  | act en upd next => rfl

theorem bind_assoc {γ : Type} (p : Prog σ ε α) (f : α → Prog σ ε β) (g : β → Prog σ ε γ) :
    p >>= f >>= g = p >>= fun a => f a >>= g := by
  change (p.bind f).bind g = p.bind fun a => (f a).bind g
  induction p with
  | ret a => rfl
  | fail e => rfl
  | act en upd next ih => exact congrArg (Prog.act en upd) (funext ih)

/-! ## Runs without interference -/

/-- Run a program alone. The outcome is `none` when it waits for a condition that
nobody will establish. -/
def run : Prog σ ε α → σ → Option (Except ε α) × σ
  | .ret a, s => (some (.ok a), s)
  | .fail e, s => (some (.error e), s)
  | .act en upd next, s => if en s then (next s).run (upd s) else (none, s)

/-- The states a program passes through when it runs alone, first and last included. -/
def visited : Prog σ ε α → σ → List σ
  | .ret _, s => [s]
  | .fail _, s => [s]
  | .act en upd next, s => s :: if en s then (next s).visited (upd s) else []

/-! ## Runs among other programs -/

/-- `Exec R p s o t`: started in `s`, and with the other programs free to take any
`R`-step before each of its own, `p` ends with outcome `o`, its last step leading
to `t`. -/
inductive Exec (R : σ → σ → Prop) : Prog σ ε α → σ → Except ε α → σ → Prop
  | ret {a s} : Exec R (.ret a) s (.ok a) s
  | fail {e s} : Exec R (.fail e) s (.error e) s
  | act {en upd next s t o u} : R s t → en t = true → Exec R (next t) (upd t) o u →
      Exec R (.act en upd next) s o u

/-- A run without interference is an execution among programs that may do nothing. -/
theorem exec_of_run {R : σ → σ → Prop} (hR : ∀ s, R s s) {s t : σ}
    {o : Except ε α} (h : p.run s = (some o, t)) : Exec R p s o t := by
  induction p generalizing s with
  | ret a => cases h; exact .ret
  | fail e => cases h; exact .fail
  | act en upd next ih =>
    simp only [run] at h
    split at h
    next hen => exact .act (hR s) hen (ih s h)
    next => cases h

/-- Weakest precondition under a rely `R` and a guarantee `G`: every step the program
takes is a `G`-step, unless it stops the system; it returns only in `Q` and leaves
with an error only in `E`. -/
def wp [Fatal ε] (R G : σ → σ → Prop) : Prog σ ε α → (α → σ → Prop) → (ε → σ → Prop) → σ → Prop
  | .ret a, Q, _, s => Q a s
  | .fail e, _, E, s => E e s
  | .act en upd next, Q, E, s =>
    ∀ t, R s t → en t = true →
      ((next t).isFatal = false → G t (upd t)) ∧ wp R G (next t) Q E (upd t)

variable [Fatal ε] {R G : σ → σ → Prop} {Q : α → σ → Prop} {E : ε → σ → Prop} {s : σ}

@[simp] theorem wp_pure (a : α) :
    wp R G (pure a : Prog σ ε α) Q E s ↔ Q a s := Iff.rfl

theorem wp_mono {Q' : α → σ → Prop}
    (hQ : ∀ a s, Q a s → Q' a s) (hE : ∀ e s, E e s → E' e s) (h : wp R G p Q E s) : wp R G p Q' E' s := by
  induction p generalizing s with
  | ret a => exact hQ a s h
  | fail e => exact hE e s h
  | act en upd next ih =>
    intro t hR hen
    exact ⟨(h t hR hen).1, ih t (h t hR hen).2⟩

theorem wp_bind (h : wp R G p (fun a => wp R G (f a) Q' E) E s) : wp R G (p >>= f) Q' E s := by
  change wp R G (p.bind f) Q' E s
  induction p generalizing s with
  | ret a => exact h
  | fail e => exact h
  | act en upd next ih =>
    intro t hR hen
    exact ⟨fun hn => (h t hR hen).1 (isFatal_of_bind hn), ih t (h t hR hen).2⟩

/-- Sequencing with a stated midpoint. -/
theorem wp_seq {M : α → σ → Prop} (h : wp R G p M E s) (hf : ∀ a t, M a t → wp R G (f a) Q' E t) :
    wp R G (p >>= f) Q' E s :=
  wp_bind (wp_mono hf (fun _ _ he => he) h)

theorem wp_read {f : σ → α} (h : ∀ t, R s t → G t t ∧ Q (f t) t) : wp R G (.read f) Q E s :=
  fun t hR _ => ⟨fun _ => (h t hR).1, (h t hR).2⟩

theorem wp_update {f : σ → σ} {Q : Unit → σ → Prop} (h : ∀ t, R s t → G t (f t) ∧ Q () (f t)) :
    wp R G (.update f) Q E s := fun t hR _ => ⟨fun _ => (h t hR).1, (h t hR).2⟩

theorem wp_atom {f : σ → α × σ} (h : ∀ t, R s t → G t (f t).2 ∧ Q (f t).1 (f t).2) :
    wp R G (.atom f) Q E s := fun t hR _ => ⟨fun _ => (h t hR).1, (h t hR).2⟩

theorem wp_await {en : σ → Bool} {f : σ → σ} {Q : Unit → σ → Prop}
    (h : ∀ t, R s t → en t = true → G t (f t) ∧ Q () (f t)) : wp R G (.await en f) Q E s :=
  fun t hR hen => ⟨fun _ => (h t hR hen).1, (h t hR hen).2⟩

theorem wp_check {c : σ → Bool} {e : ε} {Q : Unit → σ → Prop}
    (h : ∀ t, R s t → G t t ∧ (c t = true → Q () t) ∧ (c t = false → E e t)) : wp R G (.check c e) Q E s := by
  intro t hR _
  refine ⟨fun _ => (h t hR).1, ?_⟩
  dsimp only
  split
  next hc => exact (h t hR).2.1 hc
  next hc => exact (h t hR).2.2 (Bool.eq_false_iff.mpr hc)

theorem wp_when {c : Bool} {p : Prog σ ε Unit} {Q : Unit → σ → Prop}
    (hp : c = true → wp R G p Q E s) (hn : c = false → Q () s) : wp R G (when c p) Q E s := by
  cases c with
  | false => exact hn rfl
  | true => exact hp rfl

/-- A handler that lets the fatal errors through. -/
theorem wp_handle (hh : ∀ e, Fatal.fatal e = true → (h e).isFatal = true)
    (hp : wp R G p Q (fun e => wp R G (h e) Q E') s) : wp R G (p.handle h) Q E' s := by
  induction p generalizing s with
  | ret a => exact hp
  | fail e => exact hp
  | act en upd next ih =>
    intro t hR hen
    exact ⟨fun hn => (hp t hR hen).1 (isFatal_of_handle hh hn), ih t (hp t hR hen).2⟩

/-- One of two postconditions, as an outcome selects it. -/
def Ends (Q : α → σ → Prop) (E : ε → σ → Prop) : Except ε α → σ → Prop
  | .ok a, s => Q a s
  | .error e, s => E e s

/-- A weakest precondition says what every execution under the same rely ends in. -/
theorem wp_exec {o : Except ε α} {t : σ} (h : wp R G p Q E s) (he : Exec R p s o t) : Ends Q E o t := by
  induction he with
  | ret => exact h
  | fail => exact h
  | act hR hen _ ih => exact ih (h _ hR hen).2

/-! ## Executions with the own steps in them -/

/-- `Path R p s l o t`: an execution as in `Exec`, with the list `l` of the steps that `p`
takes, each given by the states before and after it. -/
inductive Path (R : σ → σ → Prop) : Prog σ ε α → σ → List (σ × σ) → Except ε α → σ → Prop
  | ret {a s} : Path R (.ret a) s [] (.ok a) s
  | fail {e s} : Path R (.fail e) s [] (.error e) s
  | act {en upd next s t l o u} : R s t → en t = true → Path R (next t) (upd t) l o u →
      Path R (.act en upd next) s ((t, upd t) :: l) o u

omit [Fatal ε] in
theorem Path.exec {l : List (σ × σ)} {o : Except ε α} {t : σ} (h : Path R p s l o t) : Exec R p s o t := by
  induction h with
  | ret => exact .ret
  | fail => exact .fail
  | act hR hen _ ih => exact .act hR hen ih

theorem Path.not_fatal {l : List (σ × σ)} {a : α} {t : σ}
    (h : Path R p s l (.ok a) t) : p.isFatal = false := by
  cases h with
  | ret => rfl
  | act => rfl

/-- What a weakest precondition says of the own steps of an execution that returns. -/
theorem wp_path {l : List (σ × σ)} {a : α} {t : σ} (h : wp R G p Q E s)
    (hp : Path R p s l (.ok a) t) : ∀ x ∈ l, G x.1 x.2 := by
  generalize ho : (Except.ok a : Except ε α) = o at hp
  induction hp with
  | ret => simp
  | fail => simp
  | @act en upd next s t l o u hR hen hrest ih =>
    subst ho
    obtain ⟨hG, hn⟩ := h t hR hen
    intro x hx
    rcases List.mem_cons.mp hx with rfl | hx
    · exact hG hrest.not_fatal
    · exact ih hn rfl x hx

omit [Fatal ε] in
/-- A run without interference, with its steps. -/
theorem path_of_run (hR : ∀ s, R s s) {o : Except ε α}
    (h : (p.run s).1 = some o) : ∃ l, Path R p s l o (p.run s).2 := by
  induction p generalizing s with
  | ret a => cases h; exact ⟨[], .ret⟩
  | fail e => cases h; exact ⟨[], .fail⟩
  | act en upd next ih =>
    simp only [run] at h ⊢
    split at h
    next hen =>
      obtain ⟨l, hl⟩ := ih s h
      rw [if_pos hen]
      exact ⟨_, .act (hR s) hen hl⟩
    next => cases h

end Prog
end Txv6.Lib
