import Txv6.Lib.Prog
import Mathlib.Algebra.BigOperators.Group.Finset.Basic
import Mathlib.Tactic.Ring

/-! # Programs side by side

A machine runs any number of threads over one state. A thread is idle, or it runs the
program of a call that it has made; the programs take their atomic steps in any order. An
error that stops the system has no step after it.

Two kinds of statement about all runs of a machine follow from facts about single
programs: what every step does (`Steps`), and invariants that speak of an account kept for
every thread (`gwp`, `Accounts`). The account is not part of the state and no program sees
it; it changes only with the own steps of the thread.
-/
namespace Txv6.Lib
open Relation Function

namespace Prog
variable {σ ε α β : Type} [Fatal ε] {p : Prog σ ε α} {τ : Type} {f : α → Prog σ ε β} {h : ε → Prog σ ε α}
  {s : σ}

/-! ## All steps of a program -/

/-- Every step that the program can take, in any state, is a `G`-step. -/
def Steps (G : σ → σ → Prop) : Prog σ ε α → Prop
  | .ret _ => True
  | .fail _ => True
  | .act en upd next =>
    ∀ s, en s = true → ((next s).isFatal = false → G s (upd s)) ∧ Steps G (next s)

namespace Steps
variable {G : σ → σ → Prop} {E : ε → σ → Prop} {R : σ → σ → Prop}

theorem seq (h : Steps G p) (hf : ∀ a, Steps G (f a)) : Steps G (p >>= f) := by
  change Steps G (p.bind f)
  induction p with
  | ret a => exact hf a
  | fail e => trivial
  | act en upd next ih =>
    intro s hen
    exact ⟨fun hn => (h s hen).1 (isFatal_of_bind hn), ih s (h s hen).2⟩

theorem mono {G' : σ → σ → Prop} (hG : ∀ s t, G s t → G' s t) (h : Steps G p) : Steps G' p := by
  induction p with
  | ret a => trivial
  | fail e => trivial
  | act en upd next ih =>
    exact fun s hen => ⟨fun hn => hG _ _ ((h s hen).1 hn), ih s (h s hen).2⟩

theorem pure (a : α) : Steps G (Pure.pure a : Prog σ ε α) := trivial

theorem fail (e : ε) : Steps G (.fail e : Prog σ ε α) := trivial

theorem read {f : σ → α} (h : ∀ s, G s s) : Steps G (.read f : Prog σ ε α) :=
  fun s _ => ⟨fun _ => h s, trivial⟩

theorem update {f : σ → σ} (h : ∀ s, G s (f s)) : Steps G (.update f : Prog σ ε Unit) :=
  fun s _ => ⟨fun _ => h s, trivial⟩

theorem atom {f : σ → α × σ} (h : ∀ s, G s (f s).2) : Steps G (.atom f : Prog σ ε α) :=
  fun s _ => ⟨fun _ => h s, trivial⟩

theorem await {en : σ → Bool} {f : σ → σ} (h : ∀ s, en s = true → G s (f s)) :
    Steps G (.await en f : Prog σ ε Unit) :=
  fun s hen => ⟨fun _ => h s hen, trivial⟩

theorem check {c : σ → Bool} {e : ε} (h : ∀ s, G s s) : Steps G (.check c e : Prog σ ε Unit) := by
  refine fun s _ => ⟨fun _ => h s, ?_⟩
  dsimp only
  split <;> trivial

theorem when {c : Bool} {p : Prog σ ε Unit} (h : Steps G p) : Steps G (when c p) := by
  cases c with
  | false => trivial
  | true => exact h

theorem handle (hh : ∀ e, Fatal.fatal e = true → (h e).isFatal = true) (hp : Steps G p)
    (hs : ∀ e, Steps G (h e)) : Steps G (p.handle h) := by
  induction p with
  | ret a => trivial
  | fail e => exact hs e
  | act en upd next ih =>
    intro s hen
    exact ⟨fun hn => (hp s hen).1 (isFatal_of_handle hh hn), ih s (hp s hen).2⟩

/-- A program whose steps are all known satisfies every judgement that asks for no more. -/
theorem wp (hE : ∀ e t, E e t) (h : Steps G p) : Prog.wp R G p (fun _ _ => True) E s := by
  induction p generalizing s with
  | ret a => trivial
  | fail e => exact hE e s
  | act en upd next ih => exact fun t _ hen => ⟨(h t hen).1, ih t (h t hen).2⟩

end Steps

/-! ## Programs with an account -/

/-- `wp` with an account beside the state. The rely speaks of the account, which the other
programs leave alone; an own step comes with the account after it. `W` is what the account
says wherever the program is before a step, with the condition that the step waits for. -/
def gwp {Γ : Type} (W : Γ → (σ → Bool) → Prop) (R : Γ → σ → σ → Prop)
    (G : σ × Γ → σ × Γ → Prop) :
    Prog σ ε α → (α → σ × Γ → Prop) → (ε → σ × Γ → Prop) → σ × Γ → Prop
  | .ret a, Q, _, x => Q a x
  | .fail e, _, E, x => E e x
  | .act en upd next, Q, E, x =>
    W x.2 en ∧ ∀ t, R x.2 x.1 t → en t = true → (next t).isFatal = false →
      ∃ g, G (t, x.2) (upd t, g) ∧ gwp W R G (next t) Q E (upd t, g)

section Gwp
variable {Γ : Type} {W : Γ → (σ → Bool) → Prop} {R : Γ → σ → σ → Prop} 
  {G : σ × Γ → σ × Γ → Prop} {Q : α → σ × Γ → Prop} {E : ε → σ × Γ → Prop} {x : σ × Γ} {E' : ε → σ × Γ → Prop}

theorem gwp_mono {Q' : α → σ × Γ → Prop}
    (hQ : ∀ a x, Q a x → Q' a x) (hE : ∀ e x, E e x → E' e x) (h : gwp W R G p Q E x) :
    gwp W R G p Q' E' x := by
  induction p generalizing x with
  | ret a => exact hQ a x h
  | fail e => exact hE e x h
  | act en upd next ih =>
    refine ⟨h.1, fun t hR hen hf => ?_⟩
    obtain ⟨g, hG, hn⟩ := h.2 t hR hen hf
    exact ⟨g, hG, ih t hn⟩

theorem gwp_seq {M : α → σ × Γ → Prop} {Q' : β → σ × Γ → Prop} (h : gwp W R G p M E x)
    (hf : ∀ a y, M a y → gwp W R G (f a) Q' E y) : gwp W R G (p >>= f) Q' E x := by
  change gwp W R G (p.bind f) Q' E x
  induction p generalizing x with
  | ret a => exact hf a x h
  | fail e => exact h
  | act en upd next ih =>
    refine ⟨h.1, fun t hR hen hn => ?_⟩
    obtain ⟨g, hG, hg⟩ := h.2 t hR hen (isFatal_of_bind hn)
    exact ⟨g, hG, ih t hg⟩

/-- A judgement holds for every state that the other programs may go on to. -/
theorem gwp_stable {S : Γ → σ → σ → Prop} (htr : ∀ g s t u, S g s t → R g t u → R g s u) {t : σ}
    (hQ : ∀ a s t g, S g s t → Q a (s, g) → Q a (t, g)) (hE : ∀ e s t g, S g s t → E e (s, g) → E e (t, g))
    (h : gwp W R G p Q E x) (hR : S x.2 x.1 t) : gwp W R G p Q E (t, x.2) := by
  cases p with
  | ret a => exact hQ a _ _ _ hR h
  | fail e => exact hE e _ _ _ hR h
  | act en upd next => exact ⟨h.1, fun u hu hen hn => h.2 u (htr _ _ _ _ hR hu) hen hn⟩

/-- Code whose steps keep an invariant, with some account after each of them. -/
theorem gwp_of_steps {G₀ : σ → σ → Prop} {J : σ × Γ → Prop}
    (hW : ∀ g en, W g en) (hR : ∀ s t g, R g s t → J (s, g) → J (t, g))
    (hJ : ∀ s t g, G₀ s t → J (s, g) → ∃ g', G (s, g) (t, g') ∧ J (t, g'))
    (hE : ∀ e x, J x → E e x) (h : Steps G₀ p) (hx : J x) : gwp W R G p (fun _ => J) E x := by
  induction p generalizing x with
  | ret a => exact hx
  | fail e => exact hE e x hx
  | act en upd next ih =>
    refine ⟨hW _ _, fun t ht hen hf => ?_⟩
    obtain ⟨g', hG, hJ'⟩ := hJ t (upd t) x.2 ((h t hen).1 hf) (hR x.1 t x.2 ht hx)
    exact ⟨g', hG, ih t (h t hen).2 hJ'⟩

/-- A stronger rely, as long as a property of the own states holds. -/
theorem gwp_rely {R' : Γ → σ → σ → Prop} {J : σ → Prop} (hR : ∀ g s t, J s → R' g s t → R g s t ∧ J t)
    (hG : ∀ x y, J x.1 → G x y → J y.1) (h : gwp W R G p Q E x) (hx : J x.1) : gwp W R' G p Q E x := by
  induction p generalizing x with
  | ret a => exact h
  | fail e => exact h
  | act en upd next ih =>
    refine ⟨h.1, fun t ht hen hf => ?_⟩
    obtain ⟨hRt, hJt⟩ := hR _ _ _ hx ht
    obtain ⟨g, hstep, hg⟩ := h.2 t hRt hen hf
    exact ⟨g, hstep, ih t hg (hG _ _ hJt hstep)⟩

/-! ## Programs beside which something is recorded -/

/-- Run a program on the first part of the state and keep a record of its steps in the
second. -/
def track {τ : Type} (f : σ → σ → τ → τ) : Prog σ ε α → Prog (σ × τ) ε α
  | .ret a => .ret a
  | .fail e => .fail e
  | .act en upd next => .act (fun x => en x.1) (fun x => (upd x.1, f x.1 (upd x.1) x.2))
      fun x => track f (next x.1)

theorem isFatal_track {f : σ → σ → τ → τ} (p : Prog σ ε α) :
    (track f p).isFatal = p.isFatal := by cases p <;> rfl

/-- A judgement about a program holds where a record is kept. -/
theorem gwp_track {f : σ → σ → τ → τ} {S : Γ → σ × τ → σ × τ → Prop} {H : (σ × τ) × Γ → (σ × τ) × Γ → Prop}
    {J : τ → Prop} {r : τ} (hS : ∀ g x y, S g x y → J x.2 → R g x.1 y.1 ∧ J y.2)
    (hH : ∀ s t g g' r, G (s, g) (t, g') → J r →
      H ((s, r), g) ((t, f s t r), g') ∧ J (f s t r)) (h : gwp W R G p Q E x) (hr : J r) :
    gwp (fun _ _ => True) S H (track f p) (fun a y => J y.1.2 ∧ Q a (y.1.1, y.2))
      (fun e y => J y.1.2 ∧ E e (y.1.1, y.2)) ((x.1, r), x.2) := by
  induction p generalizing x r with
  | ret a => exact ⟨hr, h⟩
  | fail e => exact ⟨hr, h⟩
  | act en upd next ih =>
    refine ⟨trivial, fun t hR hen hn => ?_⟩
    obtain ⟨hRt, hJt⟩ := hS _ _ _ hR hr
    rw [isFatal_track] at hn
    obtain ⟨g, hG, hg⟩ := h.2 t.1 hRt hen hn
    obtain ⟨hH', hJ'⟩ := hH _ _ _ _ t.2 hG hJt
    exact ⟨g, hH', ih t.1 hg hJ'⟩

end Gwp
end Prog

/-! ## Machines -/

/-- Threads `ι` that make calls `κ` over states `σ`. -/
structure Machine (ι κ σ ε α : Type) where
  prog : ι → κ → Prog σ ε α
  /-- The thread exists and can make a call. -/
  ready : ι → σ → Prop
  /-- What a thread does outside of calls. -/
  user : ι → σ → σ → Prop

/-- The state, and the programs of the threads that are in a call. -/
structure Pool (ι σ ε α : Type) where
  state : σ
  run : ι → Option (Prog σ ε α)

inductive Label (ι κ ε α : Type) where
  | call (i : ι) (k : κ)
  | act (i : ι)
  | done (i : ι) (o : Except ε α)
  | user (i : ι)

namespace Machine
variable {ι κ σ ε α : Type} [DecidableEq ι] [Fatal ε] (M : Machine ι κ σ ε α) {o : Option (Prog σ ε α)}
  {i : ι} {run : ι → Option (Prog σ ε α)} {s t : σ}

inductive Step : Label ι κ ε α → Pool ι σ ε α → Pool ι σ ε α → Prop
  | call {c : Pool ι σ ε α} {i k} : c.run i = none → M.ready i c.state →
      Step (.call i k) c { c with run := Function.update c.run i (some (M.prog i k)) }
  | act {c : Pool ι σ ε α} {i en upd next} : c.run i = some (.act en upd next) →
      en c.state = true → (next c.state).isFatal = false →
      Step (.act i) c ⟨upd c.state, Function.update c.run i (some (next c.state))⟩
  | ret {c : Pool ι σ ε α} {i a} : c.run i = some (.ret a) →
      Step (.done i (.ok a)) c { c with run := Function.update c.run i none }
  | fail {c : Pool ι σ ε α} {i e} : c.run i = some (.fail e) → Fatal.fatal e = false →
      Step (.done i (.error e)) c { c with run := Function.update c.run i none }
  | user {c : Pool ι σ ε α} {i t} : c.run i = none → M.ready i c.state → M.user i c.state t →
      Step (.user i) c { c with state := t }

/-- Runs whose steps all satisfy a condition. -/
def Run (P : Label ι κ ε α → σ → σ → Prop) : Pool ι σ ε α → Pool ι σ ε α → Prop :=
  ReflTransGen fun c c' => ∃ l, M.Step l c c' ∧ P l c.state c'.state

variable {M} {c c₀ : Pool ι σ ε α} {P : Label ι κ ε α → σ → σ → Prop}

/-- **Invariants of runs.** Something is kept of the state, and something of each thread outside of a call or
with the rest of one to run, both with a ghost that changes along with the steps. -/
theorem Run.keeps {Δ : Type} {T : σ → Δ → Prop} {L : ι → σ → Δ → Option (Prog σ ε α) → Prop} (d₀ : Δ)
    (hcall : ∀ {i k s d}, P (.call i k) s s → M.ready i s → T s d → L i s d none → L i s d (some (M.prog i k)))
    (hact : ∀ {i en upd next s d}, P (.act i) s (upd s) → en s = true → (next s).isFatal = false → T s d →
      L i s d (some (.act en upd next)) → ∃ d', T (upd s) d' ∧ L i (upd s) d' (some (next s)) ∧
        ∀ j, j ≠ i → ∀ o, L j s d o → L j (upd s) d' o)
    (hret : ∀ {i a s d}, P (.done i (.ok a)) s s → T s d → L i s d (some (.ret a)) → L i s d none)
    (hfail : ∀ {i e s d}, P (.done i (.error e)) s s → Fatal.fatal e = false → L i s d (some (.fail e)) → L i s d none)
    (huser : ∀ {i s t d}, P (.user i) s t → M.ready i s → M.user i s t → T s d → L i s d none →
      ∃ d', T t d' ∧ L i t d' none ∧ ∀ j, j ≠ i → ∀ o, L j s d o → L j t d' o)
    (h₀ : ∀ i, c₀.run i = none) (hT : T c₀.state d₀) (hL : ∀ i, L i c₀.state d₀ none) (hr : M.Run P c₀ c) :
    ∃ d, T c.state d ∧ ∀ i, L i c.state d (c.run i) := by
  -- the thread that takes a step, and the others
  have put : ∀ {run : ι → Option (Prog σ ε α)} {s : σ} {d : Δ} {i : ι} {o : Option (Prog σ ε α)},
      (∀ j, j ≠ i → L j s d (run j)) → L i s d o → ∀ j, L j s d (update run i o j) := by
    intro run s d i o hrun ho j
    by_cases e : j = i
    · rwa [e, update_self]
    · rw [update_of_ne e]
      exact hrun j e
  induction hr with
  | refl =>
    refine ⟨d₀, hT, fun i => ?_⟩
    rw [h₀ i]
    exact hL i
  | tail _ hstep ih =>
    obtain ⟨d, hT, hL⟩ := ih
    obtain ⟨l, hstep, hP⟩ := hstep
    cases hstep with
    | @call b i k hidle hready => exact ⟨d, hT, put (fun j _ => hL j) (hcall hP hready hT (hidle ▸ hL i))⟩
    | @act b i en upd next hrun hen hf =>
      obtain ⟨d', hT', hi, hj⟩ := hact hP hen hf hT (hrun ▸ hL i)
      exact ⟨d', hT', put (fun j e => hj j e _ (hL j)) hi⟩
    | @ret b i a hrun => exact ⟨d, hT, put (fun j _ => hL j) (hret hP hT (hrun ▸ hL i))⟩
    | @fail b i e hrun hmild => exact ⟨d, hT, put (fun j _ => hL j) (hfail hP hmild (hrun ▸ hL i))⟩
    | @user b i t hidle hready hu =>
      obtain ⟨d', hT', hi, hj⟩ := huser hP hready hu hT (hidle ▸ hL i)
      refine ⟨d', hT', fun j => ?_⟩
      by_cases e : j = i
      · rw [e]
        exact hidle.symm ▸ hi
      · exact hj j e _ (hL j)

/-- A machine that runs only programs of `G`-steps takes only `G`-steps. -/
theorem Run.steps {G : σ → σ → Prop} {I : σ → Prop} (hprog : ∀ i k, Prog.Steps G (M.prog i k))
    (huser : ∀ i s t, M.user i s t → G s t) (hI : ∀ l s t, P l s t → G s t → I s → I t)
    (h₀ : ∀ i, c₀.run i = none) (hI₀ : I c₀.state) (hr : M.Run P c₀ c) : I c.state := by
  have key := Run.keeps () (T := fun s _ => I s) (L := fun _ _ _ o => ∀ p, o = some p → Prog.Steps G p)
    (fun {i k _ _} _ _ _ _ p hp => Option.some.inj hp ▸ hprog i k) ?_ (fun _ _ _ p hp => (nomatch hp))
    (fun _ _ _ p hp => (nomatch hp)) ?_ h₀ hI₀ (fun _ p hp => (nomatch hp)) hr
  · exact key.choose_spec.1
  · intro i en upd next s _ hP hen hf hs hi
    have h := hi _ rfl s hen
    exact ⟨(), hI _ _ _ hP (h.1 hf) hs, fun p hp => Option.some.inj hp ▸ h.2, fun _ _ _ hj => hj⟩
  · intro i s t _ hP _ hu hs hi
    exact ⟨(), hI _ _ _ hP (huser _ _ _ hu) hs, hi, fun _ _ _ hj => hj⟩

/-- A proof method for machines with accounts. `I` is what holds of a thread outside of
calls, `Tot` ties the accounts of all threads to the state, and `ok` is what the run
condition and `Tot` say of the states in which a thread takes a step of a call. -/
structure Accounts (M : Machine ι κ σ ε α) (P : Label ι κ ε α → σ → σ → Prop) (Γ : Type) where
  W : ι → Γ → (σ → Bool) → Prop
  R : ι → Γ → σ → σ → Prop
  G : ι → σ × Γ → σ × Γ → Prop
  I : ι → σ × Γ → Prop
  Tot : σ → (ι → Γ) → Prop
  ok : ι → Γ → σ → Prop
  /-- The results after which a thread goes on. -/
  go : Except ε α → Prop
  refl : ∀ i g s, R i g s s
  trans : ∀ {i g s t u}, R i g s t → R i g t u → R i g s u
  stable : ∀ {i g s t}, R i g s t → I i (s, g) → I i (t, g)
  call : ∀ {i k g s}, P (.call i k) s s → M.ready i s → I i (s, g) →
    Prog.gwp (W i) (fun g s t => R i g s t ∧ ok i g t) (G i) (M.prog i k) (fun a x => go (.ok a) → I i x)
      (fun e x => go (.error e) → I i x) (s, g)
  act : ∀ {i g s t}, P (.act i) s t → Tot s g → ok i (g i) s
  done : ∀ {i o s}, P (.done i o) s s → (∀ e, o = .error e → Fatal.fatal e = false) → go o
  user : ∀ {i g s t}, M.ready i s → M.user i s t → I i (s, g) →
    ∃ g', G i (s, g) (t, g') ∧ I i (t, g')
  step : ∀ {i g g' s t}, P (.act i) s t ∨ P (.user i) s t → Tot s g → G i (s, g i) (t, g') →
    Tot t (Function.update g i g') ∧ ∀ j, j ≠ i → R j (g j) s t

namespace Accounts
variable {Γ : Type} (A : Accounts M P Γ)

/-- What holds of a thread, outside of a call or with the rest of one to run. -/
def Local (i : ι) (s : σ) (g : Γ) : Option (Prog σ ε α) → Prop
  | none => A.I i (s, g)
  | some p => Prog.gwp (A.W i) (fun g s t => A.R i g s t ∧ A.ok i g t) (A.G i) p
      (fun a x => A.go (.ok a) → A.I i x) (fun e x => A.go (.error e) → A.I i x) (s, g)

/-- Other threads' steps keep it. -/
theorem local_stable {g : Γ} (h : A.Local i s g o) (hR : A.R i g s t) : A.Local i t g o := by
  cases o with
  | none => exact A.stable hR h
  | some p =>
    have h : Prog.gwp (A.W i) (fun g s t => A.R i g s t ∧ A.ok i g t) (A.G i) p
        (fun a x => A.go (.ok a) → A.I i x) (fun e x => A.go (.error e) → A.I i x) (s, g) := h
    refine Prog.gwp_stable (S := A.R i) (fun _ _ _ _ h h' => ⟨A.trans h h'.1, h'.2⟩) ?_ ?_ h hR
    · intro a s t g hR h hgo
      exact A.stable hR (h hgo)
    · intro e s t g hR h hgo
      exact A.stable hR (h hgo)

/-- **Soundness.** If every call of every thread satisfies its judgement, then along every
run there are accounts that fit the state and the threads. -/
theorem sound (h₀ : ∀ i, c₀.run i = none) {g₀ : ι → Γ} (hI : ∀ i, A.I i (c₀.state, g₀ i))
    (hT : A.Tot c₀.state g₀) (hr : M.Run P c₀ c) :
    ∃ g, A.Tot c.state g ∧ ∀ i, A.Local i c.state (g i) (c.run i) := by
  -- the account of one thread changes, and the others rely on the step
  have put : ∀ {g : ι → Γ} {g' : Γ} {s t : σ} {i : ι}, (∀ j, j ≠ i → A.R j (g j) s t) → ∀ j, j ≠ i → ∀ o,
      A.Local j s (g j) o → A.Local j t (update g i g' j) o := by
    intro g g' s t i hR j hj o ho
    rw [update_of_ne hj]
    exact A.local_stable ho (hR j hj)
  refine Run.keeps g₀ (L := fun i s g => A.Local i s (g i)) (fun hP hready _ hi => A.call hP hready hi) ?_
    (fun hP _ hi => hi (A.done hP fun e he => (nomatch he))) (fun hP hmild hi => hi (A.done hP fun e' he => ?_)) ?_
    h₀ hT hI hr
  · intro i en upd next s g hP hen hf hT hi
    obtain ⟨g', hG, hn⟩ := hi.2 _ ⟨A.refl _ _ _, A.act hP hT⟩ hen hf
    obtain ⟨hT', hR⟩ := A.step (.inl hP) hT hG
    exact ⟨_, hT', by rwa [update_self], put hR⟩
  · cases he
    exact hmild
  · intro i s t g hP hready hu hT hi
    obtain ⟨g', hG, hi'⟩ := A.user hready hu hi
    obtain ⟨hT', hR⟩ := A.step (.inr hP) hT hG
    exact ⟨_, hT', by rwa [update_self], put hR⟩

end Accounts

/-- Changing one account changes a sum over the accounts by as much. -/
theorem sum_update {Γ : Type} {S : Finset ι} (f : Γ → Int) (g : ι → Γ) (hi : i ∈ S) (g' : Γ) :
    ∑ j ∈ S, f (update g i g' j) = ∑ j ∈ S, f (g j) + (f g' - f (g i)) := by
  have hnew := Finset.add_sum_erase _ (fun j => f (update g i g' j)) hi
  have hold := Finset.add_sum_erase _ (fun j => f (g j)) hi
  have hrest : ∑ j ∈ S.erase i, f (update g i g' j) = ∑ j ∈ S.erase i, f (g j) := by
    refine Finset.sum_congr rfl fun j hj => ?_
    rw [update_of_ne (Finset.ne_of_mem_erase hj)]
  rw [hrest, update_self] at hnew
  rw [← hnew, ← hold]
  ring

/-- The program a thread is left with at the end of a call. -/
def ended : Except ε α → Prog σ ε α
  | .ok a => .ret a
  | .error e => .fail e

/-- A program that runs alone, as part of a run of the machine. -/
theorem Run.alone {p : Prog σ ε α} {o : Except ε α} (h : p.run s = (some o, t))
    (hok : (ended o : Prog σ ε α).isFatal = false) (hP : ∀ u ∈ p.visited s, ∀ v, P (.act i) u v) :
    M.Run P ⟨s, update run i (some p)⟩ ⟨t, update run i (some (ended o))⟩ := by
  induction p generalizing s with
  | ret a => cases h; exact .refl
  | fail e => cases h; exact .refl
  | act en upd next ih =>
    simp only [Prog.run] at h
    split at h
    next hen =>
      have hvis : Prog.visited (.act en upd next : Prog σ ε α) s =
          s :: (next s).visited (upd s) := by
        simp [Prog.visited, hen]
      rw [hvis] at hP
      have hfatal : (next s).isFatal = false := by
        cases hn : next s with
        | ret a => rfl
        | fail e =>
          rw [hn] at h
          cases h
          exact hok
        | act en upd next => rfl
      have hstep : M.Step (.act i) ⟨s, update run i (some (.act en upd next))⟩
          ⟨upd s, update (update run i (some (.act en upd next))) i
            (some (next s))⟩ :=
        .act (update_self i _ _) hen hfatal
      rw [update_idem] at hstep
      refine ReflTransGen.head ⟨_, hstep, hP s List.mem_cons_self _⟩ ?_
      exact ih s h fun u hu => hP u (List.mem_cons_of_mem _ hu)
    next => cases h

/-- The first part of a program, as part of a run of the machine. -/
theorem Run.part {β : Type} {m : Prog σ ε β} {f : β → Prog σ ε α} {a : β} (h : (m.run s).1 = some (.ok a))
    (hf : (f a).isFatal = false) (hP : ∀ s t, P (.act i) s t) :
    M.Run P ⟨s, update run i (some (m >>= f))⟩
      ⟨(m.run s).2, update run i (some (f a))⟩ := by
  change M.Run P ⟨s, update run i (some (m.bind f))⟩ _
  induction m generalizing s with
  | ret b => cases h; exact .refl
  | fail e => cases h
  | act en upd next ih =>
    simp only [Prog.run] at h ⊢
    split at h
    next hen =>
      rw [if_pos hen]
      have hfatal : ((next s).bind f).isFatal = false := by
        cases hn : next s with
        | ret b =>
          rw [hn] at h
          cases h
          exact hf
        | fail e =>
          rw [hn] at h
          cases h
        | act en upd next => rfl
      have hstep : M.Step (.act i) ⟨s, update run i (some ((Prog.act en upd next).bind f))⟩
          ⟨upd s, update (update run i (some ((Prog.act en upd next).bind f))) i
            (some ((next s).bind f))⟩ := by
        have hrun : update run i (some ((Prog.act en upd next).bind f)) i =
            some (.act en upd fun s => (next s).bind f) := update_self i _ _
        exact .act (c := ⟨s, update run i (some ((Prog.act en upd next).bind f))⟩)
          hrun hen hfatal
      rw [update_idem] at hstep
      exact .head ⟨_, hstep, hP _ _⟩ (ih s h)
    next => cases h

/-- A whole call, with all other threads idle. -/
theorem Run.call {k : κ} {o : Except ε α} (hready : M.ready i s)
    (hrun : (M.prog i k).run s = (some o, t)) (hok : (ended o : Prog σ ε α).isFatal = false)
    (hcall : P (.call i k) s s) (hact : ∀ u ∈ (M.prog i k).visited s, ∀ v, P (.act i) u v)
    (hdone : P (.done i o) t t) : M.Run P ⟨s, fun _ => none⟩ ⟨t, fun _ => none⟩ := by
  have hend : M.Step (.done i o)
      ⟨t, update (fun _ => none) i (some (ended o))⟩ ⟨t, fun _ => none⟩ := by
    have hidle : update (update (fun _ => none) i (some (ended o))) i none =
        (fun _ => none : ι → Option (Prog σ ε α)) := by
      rw [update_idem]
      exact update_eq_self i _
    cases o with
    | ok a =>
      have h := Step.ret (M := M) (c := ⟨t, update (fun _ => none) i (some (.ret a))⟩)
        (i := i) (a := a) (by simp)
      rw [show Machine.ended (.ok a) = (.ret a : Prog σ ε α) from rfl] at hidle ⊢
      rw [hidle] at h
      exact h
    | error e =>
      have h := Step.fail (M := M) (c := ⟨t, update (fun _ => none) i (some (.fail e))⟩)
        (i := i) (by simp) hok
      rw [show Machine.ended (.error e) = (.fail e : Prog σ ε α) from rfl] at hidle ⊢
      rw [hidle] at h
      exact h
  refine .head ⟨_, .call rfl hready, hcall⟩ (.tail (Run.alone hrun hok hact) ⟨_, hend, hdone⟩)

end Machine
end Txv6.Lib
