import Txv6.Procs.Table
import Txv6.Lib.Faults

/-! # The lives of a slot

What the trace of the process table may say of one slot: it is taken by a process that forks,
its process exits once, and it is freed once, by the process that the child was left to, before
it is taken again. The invariant of the table ties the fields of every slot to where it is in
its life.
-/
namespace Txv6.Procs
open Lib Lib.Prog Function

/-- Where a slot is in its life. `orphan` tells whether the creator has exited since. -/
inductive Stage where
  | unused
  | live (creator : Slot) (pid : Pid) (orphan : Bool)
  | dead (creator : Slot) (pid : Pid) (status : Int) (orphan : Bool)
  deriving DecidableEq, Repr

namespace Stage

/-- The creator, and whether it has exited since. -/
def origin : Stage → Option (Slot × Bool)
  | .unused => none
  | .live p _ o => some (p, o)
  | .dead p _ _ o => some (p, o)

/-- Who a child is left to: its creator, and init once the creator has exited. -/
def guardian (st : Stage) : Option Slot := st.origin.map fun x => if x.2 then initproc else x.1

/-- Process `p` exits. -/
def orphaned (p : Slot) : Stage → Stage
  | .unused => .unused
  | .live q pid o => .live q pid (o || decide (q = p))
  | .dead q pid status o => .dead q pid status (o || decide (q = p))

/-- **The protocol.** How an event changes the stage of slot `c`; there is none for an event that
may not happen. -/
def next (c : Slot) (st : Stage) : Event → Option Stage
  | .alloc np p pid _ =>
    if np = c then
      match st with
      | .unused => some (.live p pid false)
      | _ => none
    else some st
  | .undo np =>
    if np = c then
      match st with
      | .live _ _ _ => some .unused
      | _ => none
    else some st
  | .exit p pid status =>
    if p = c then
      match st with
      | .live q pid' o => if pid = pid' then some (.dead q pid status o) else none
      | _ => none
    else some (st.orphaned p)
  | .reap pp p pid status =>
    if pp = c then
      match st with
      | .dead q pid' status' o =>
        if pid = pid' ∧ (status = none ∨ status = some status') ∧
            p = if o then initproc else q then some .unused
        else none
      | _ => none
    else some st
  | .kill _ _ _ => some st

end Stage

/-- The stage of a slot after all that has happened. -/
def life (c : Slot) : List Event → Option Stage
  | [] => some .unused
  | e :: rest => (life c rest).bind fun st => st.next c e

def Table.stage (s : Table) (c : Slot) : Option Stage := life c s.trace

/-! ## The invariant -/

def State.alive : State → Bool
  | .sleeping | .runnable | .running => true
  | _ => false

/-- `kfork` of the process has completed. -/
def State.forked : State → Bool
  | .unused | .used => false
  | _ => true

/-- Asleep in `kwait`. -/
def Table.asleep (s : Table) (q : Slot) : Prop :=
  (s.proc q).state = .sleeping ∧ (s.proc q).chan = some (.proc q)

/-- The fields of a slot agree with its stage. -/
def Fits (c : Slot) (x : Proc) (st : Option Stage) : Prop :=
  match x.state with
  | .unused => st = some .unused ∧ x.parent = none
  | .used => ∃ p, p ≠ c ∧ st = some (.live p x.pid false) ∧ (x.parent = none ∨ x.parent = some p)
  | .zombie => ∃ p o, p ≠ c ∧ st = some (.dead p x.pid x.xstate o)
  | _ => ∃ p o, p ≠ c ∧ st = some (.live p x.pid o)

/-- What holds at every moment. -/
structure Table.Lives (s : Table) : Prop where
  fits : ∀ c, c ≠ initproc → Fits c (s.proc c) (s.stage c)
  init : (s.proc initproc).state.alive = true
  creators : ∀ c p, c ≠ initproc → (s.stage c).bind (·.origin) = some (p, false) →
    (s.proc p).state.alive = true

/-- What holds when nobody has `wait_lock`. -/
structure Table.Settled (s : Table) : Prop where
  parents : ∀ c, c ≠ initproc → (s.proc c).state.forked = true →
    (s.proc c).parent = (s.stage c).bind (·.guardian)
  awake : ∀ q c, s.asleep q → (s.proc c).state = .zombie → (s.proc c).parent ≠ some q

structure Table.Sound (s : Table) : Prop where
  lives : s.Lives
  settled : s.waitLock = none → s.Settled

/-- A slot that `p` has taken and not yet made runnable. -/
def Table.newborn (s : Table) (p c : Slot) : Prop :=
  c ≠ initproc ∧ (s.proc c).state = .used ∧ (s.stage c).bind (·.origin) = some (p, false)

/-- What others do while a process has `wait_lock`. -/
structure Quietly (s t : Table) : Prop where
  parent : ∀ c, (t.proc c).parent = (s.proc c).parent
  zombie : ∀ c, (t.proc c).state = .zombie ↔ (s.proc c).state = .zombie
  asleep : ∀ q, t.asleep q → s.asleep q
  forked : ∀ c, (s.proc c).state.forked = true →
    (t.proc c).state.forked = true ∧ t.stage c = s.stage c
  fresh : ∀ c, c ≠ initproc → (t.proc c).state.forked = true →
    (s.proc c).state.forked = true ∨ (t.proc c).parent = (t.stage c).bind (·.guardian)

/-- What a process knows of the others. -/
structure Rely (p : Slot) (s t : Table) : Prop where
  newborn : ∀ c, s.newborn p c → t.newborn p c ∧ (t.proc c).parent = (s.proc c).parent
  noNew : ∀ c, t.newborn p c → s.newborn p c
  lock : s.waitLock = some p → t.waitLock = some p
  held : s.waitLock = some p → Quietly s t

def RelyOf : Thread → Table → Table → Prop
  | .proc p => Rely p
  | .cpu _ => fun _ _ => True

abbrev Guar (i : Thread) : Table → Table → Prop := Machine.Guards Table.Sound RelyOf i

/-! ## Rules for them -/

variable {s t u : Table} {p c : Slot} {i : Thread} {f : Proc → Proc} {q : Slot}

theorem set_proc (s : Table) (q : Slot) (f : Proc → Proc) (c : Slot) :
    (s.set q f).proc c = if c = q then f (s.proc q) else s.proc c := update_apply _ _ _ _

theorem set_proc_same (s : Table) (q : Slot) (f : Proc → Proc) : (s.set q f).proc q = f (s.proc q) :=
  update_self _ _ _

theorem set_proc_ne (h : c ≠ q) (f : Proc → Proc) : (s.set q f).proc c = s.proc c :=
  update_of_ne h _ _

theorem Quietly.refl (s : Table) : Quietly s s :=
  ⟨fun _ => rfl, fun _ => Iff.rfl, fun _ h => h, fun _ h => ⟨h, rfl⟩, fun _ _ h => .inl h⟩

theorem Quietly.trans (h : Quietly s t) (h' : Quietly t u) : Quietly s u where
  parent c := (h'.parent c).trans (h.parent c)
  zombie c := (h'.zombie c).trans (h.zombie c)
  asleep q hq := h.asleep q (h'.asleep q hq)
  forked c hc := by
    obtain ⟨h1, h2⟩ := h.forked c hc
    obtain ⟨h3, h4⟩ := h'.forked c h1
    exact ⟨h3, h4.trans h2⟩
  fresh c hc hu := by
    rcases h'.fresh c hc hu with ht | hg
    · rcases h.fresh c hc ht with hs | hg
      · exact .inl hs
      · right
        rw [h'.parent, (h'.forked c ht).2]
        exact hg
    · exact .inr hg

theorem Rely.refl (p : Slot) (s : Table) : Rely p s s :=
  ⟨fun _ h => ⟨h, rfl⟩, fun _ h => h, id, fun _ => .refl s⟩

theorem Rely.trans (h : Rely p s t) (h' : Rely p t u) : Rely p s u where
  newborn c hc := by
    obtain ⟨h1, h2⟩ := h.newborn c hc
    obtain ⟨h3, h4⟩ := h'.newborn c h1
    exact ⟨h3, h4.trans h2⟩
  noNew c hc := h.noNew c (h'.noNew c hc)
  lock hl := h'.lock (h.lock hl)
  held hl := (h.held hl).trans (h'.held (h.lock hl))

/-- A table stays settled while somebody else has `wait_lock`. -/
theorem Table.Settled.quietly (h : s.Settled) (hq : Quietly s t) : t.Settled where
  parents c hc ht := by
    rcases hq.fresh c hc ht with hs | hg
    · rw [hq.parent, (hq.forked c hs).2]
      exact h.parents c hc hs
    · exact hg
  awake q c ha hz := by
    rw [hq.parent]
    exact h.awake q c (hq.asleep q ha) ((hq.zombie c).mp hz)

/-- A step of the process that has `wait_lock`, or of one that takes it. -/
theorem Guar.of_lock (hl : ∀ q, q ≠ p → s.waitLock ≠ some q) (hT : t.Sound)
    (hnew : ∀ q c, q ≠ p → s.newborn q c → t.newborn q c ∧ (t.proc c).parent = (s.proc c).parent)
    (hno : ∀ q c, q ≠ p → t.newborn q c → s.newborn q c) : Guar (.proc p) s t := by
  refine ⟨fun _ => hT, fun j hj => ?_⟩
  cases j with
  | cpu n => trivial
  | proc q =>
    have hq : q ≠ p := fun e => hj (by rw [e])
    exact ⟨fun c => hnew q c hq, fun c => hno q c hq, fun h => absurd h (hl q hq),
      fun h => absurd h (hl q hq)⟩

/-! ## Steps that move processes between sleeping, runnable and running -/

/-- The step changes no more than which live processes run. -/
structure Mild (s t : Table) : Prop where
  parent : ∀ c, (t.proc c).parent = (s.proc c).parent
  pid : ∀ c, (t.proc c).pid = (s.proc c).pid
  xstate : ∀ c, (t.proc c).xstate = (s.proc c).xstate
  state : ∀ c, (t.proc c).state = (s.proc c).state ∨
    (t.proc c).state.alive = true ∧ (s.proc c).state.alive = true
  stage : ∀ c, t.stage c = s.stage c

/-- Neither does it let anybody fall asleep in `kwait`, nor touch `wait_lock`. -/
structure Soft (s t : Table) : Prop extends Mild s t where
  asleep : ∀ q, t.asleep q → s.asleep q
  lock : t.waitLock = s.waitLock

namespace Mild

theorem alive (h : Mild s t) (c : Slot) : (t.proc c).state.alive = (s.proc c).state.alive := by
  rcases h.state c with e | ⟨h1, h2⟩
  · rw [e]
  · rw [h1, h2]

theorem state_iff (h : Mild s t) (c : Slot) {st : State} (hst : st.alive = false) :
    (t.proc c).state = st ↔ (s.proc c).state = st := by
  rcases h.state c with e | ⟨h1, h2⟩
  · rw [e]
  · constructor
    · intro e
      rw [e, hst] at h1
      cases h1
    · intro e
      rw [e, hst] at h2
      cases h2

theorem forked_eq (h : Mild s t) (c : Slot) : (t.proc c).state.forked = (s.proc c).state.forked := by
  have key : ∀ st : State, st.forked = false ↔ st = .unused ∨ st = .used := by
    intro st
    cases st <;> simp [State.forked]
  have : (t.proc c).state.forked = false ↔ (s.proc c).state.forked = false := by
    rw [key, key, h.state_iff c rfl, h.state_iff c rfl]
  cases h1 : (t.proc c).state.forked with
  | false => exact (this.mp h1).symm
  | true =>
    cases h2 : (s.proc c).state.forked with
    | true => rfl
    | false => rw [this.mpr h2] at h1; cases h1

theorem fits_of_alive {x : Proc} {st : Option Stage} (h : x.state.alive = true) :
    Fits c x st ↔ ∃ p o, p ≠ c ∧ st = some (.live p x.pid o) := by
  unfold Fits
  cases hx : x.state <;> simp_all [State.alive]

theorem fits (h : Mild s t) (hf : Fits c (s.proc c) (s.stage c)) : Fits c (t.proc c) (t.stage c) := by
  rw [h.stage]
  rcases h.state c with e | ⟨h1, h2⟩
  · unfold Fits at hf ⊢
    rw [e, h.parent, h.pid, h.xstate]
    exact hf
  · rw [fits_of_alive h1, h.pid]
    exact (fits_of_alive h2).mp hf

theorem lives (h : Mild s t) (hs : s.Lives) : t.Lives where
  fits c hc := h.fits (hs.fits c hc)
  init := by rw [h.alive]; exact hs.init
  creators c p hc ho := by
    rw [h.stage] at ho
    rw [h.alive]
    exact hs.creators c p hc ho

theorem newborn_iff (h : Mild s t) : t.newborn p c ↔ s.newborn p c := by
  unfold Table.newborn
  rw [h.state_iff c rfl, h.stage]

theorem set (hpar : (f (s.proc q)).parent = (s.proc q).parent) (hpid : (f (s.proc q)).pid = (s.proc q).pid)
    (hx : (f (s.proc q)).xstate = (s.proc q).xstate) (hst : (f (s.proc q)).state = (s.proc q).state ∨
      (f (s.proc q)).state.alive = true ∧ (s.proc q).state.alive = true) : Mild s (s.set q f) := by
  refine ⟨fun n => ?_, fun n => ?_, fun n => ?_, fun n => ?_, fun _ => rfl⟩
  all_goals
    rw [set_proc]
    split
  · next e => rw [e]; exact hpar
  · rfl
  · next e => rw [e]; exact hpid
  · rfl
  · next e => rw [e]; exact hx
  · rfl
  · next e => rw [e]; exact hst
  · exact .inl rfl

end Mild

namespace Soft

theorem quietly (h : Soft s t) : Quietly s t where
  parent := h.parent
  zombie c := h.state_iff c rfl
  asleep := h.asleep
  forked c hc := ⟨by rw [h.forked_eq]; exact hc, h.stage c⟩
  fresh c _ hc := .inl (by rw [← h.forked_eq]; exact hc)

theorem sound (h : Soft s t) (hs : s.Sound) : t.Sound :=
  ⟨h.lives hs.lives, fun hl => (hs.settled (by rw [← h.lock]; exact hl)).quietly h.quietly⟩

theorem rely (h : Soft s t) (p : Slot) : Rely p s t :=
  ⟨fun c hc => ⟨h.newborn_iff.mpr hc, h.parent c⟩, fun c hc => h.newborn_iff.mp hc,
    fun hl => by rw [h.lock]; exact hl, fun _ => h.quietly⟩

theorem guar (h : Soft s t) (i : Thread) : Guar i s t := by
  refine ⟨h.sound, fun j _ => ?_⟩
  cases j with
  | proc p => exact h.rely p
  | cpu n => trivial

theorem refl (s : Table) : Soft s s :=
  ⟨⟨fun _ => rfl, fun _ => rfl, fun _ => rfl, fun _ => .inl rfl, fun _ => rfl⟩, fun _ h => h, rfl⟩

/-- A change of one slot. -/
theorem set (hpar : (f (s.proc q)).parent = (s.proc q).parent) (hpid : (f (s.proc q)).pid = (s.proc q).pid)
    (hx : (f (s.proc q)).xstate = (s.proc q).xstate) (hst : (f (s.proc q)).state = (s.proc q).state ∨
      (f (s.proc q)).state.alive = true ∧ (s.proc q).state.alive = true)
    (hsl : (f (s.proc q)).state = .sleeping → (f (s.proc q)).chan = some (.proc q) → s.asleep q) :
    Soft s (s.set q f) := by
  refine ⟨.set hpar hpid hx hst, fun n hn => ?_, rfl⟩
  unfold Table.asleep at hn
  rw [set_proc] at hn
  split at hn
  next e =>
    subst e
    exact hsl hn.1 hn.2
  next => exact hn

theorem wake (s : Table) (q : Slot) (ch : Option Chan) : Soft s (s.wake q ch) := by
  unfold Table.wake
  split
  next h => exact set rfl rfl rfl (.inr ⟨rfl, by rw [h.1]; rfl⟩) fun hc => nomatch hc
  next => exact refl s

theorem kill (s : Table) (pid : Pid) (q : Slot) : Soft s (s.kill pid q).2 := by
  unfold Table.kill
  split
  · have h : Soft s (s.set q fun x =>
        { x with killed := true, state := if x.state = .sleeping then .runnable else x.state }) := by
      refine set rfl rfl rfl ?_ fun hc => ?_
      · dsimp only
        split
        next e => exact .inr ⟨rfl, by rw [e]; rfl⟩
        next => exact .inl rfl
      · dsimp only at hc
        split at hc
        · cases hc
        next hn => exact absurd hc hn
    refine ⟨⟨h.parent, h.pid, h.xstate, h.state, fun n => ?_⟩, h.asleep, h.lock⟩
    change (life n s.trace).bind (fun st => some st) = life n s.trace
    cases life n s.trace <;> rfl
  · exact refl s

end Soft
end Txv6.Procs
