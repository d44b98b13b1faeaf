import Txv6.Procs.Table
import Txv6.Lib.Faults
import Txv6.Lib.Sequence

/-! # Who is killed

A slot without a process has pid 0, and `kkill` looks at all slots: `kkill(0)` sets `killed` of
the first free slot, and the process that is created there next starts life as a killed one.
Without such a call nobody but a live process is ever killed.
-/
namespace Txv6.Procs
open Lib Lib.Prog Function
open Steps (seq when)

variable {addr ok : Bool} {ch : Option Chan} {pid : Pid} {f : Proc → Proc}

/-- What the trace may say of kills and of new processes. -/
def Event.Spares : Event → Prop
  | .kill _ _ state => state ≠ .unused
  | .alloc _ _ _ killed => killed = false
  | _ => True

/-- Slots without a process are not killed and have pid 0. -/
structure Table.Spared (s : Table) : Prop where
  unused : ∀ q, (s.proc q).state = .unused → (s.proc q).killed = false ∧ (s.proc q).pid = 0
  trace : ∀ e ∈ s.trace, e.Spares

namespace Table.Spared
variable {s t : Table} {p q : Slot}

section
variable (h : s.Spared)
include h

theorem of_same (hproc : t.proc = s.proc) (htr : t.trace = s.trace) : t.Spared :=
  ⟨hproc ▸ h.unused, htr ▸ h.trace⟩

/-- The slot that changes is in use afterwards, or it is as it should be. -/
theorem set
    (hf : (f (s.proc p)).state = .unused → (f (s.proc p)).killed = false ∧ (f (s.proc p)).pid = 0) :
    (s.set p f).Spared := by
  refine ⟨fun q hq => ?_, h.trace⟩
  by_cases e : q = p
  · subst e
    simp only [Table.set, update_self] at hq ⊢
    exact hf hq
  · simp only [Table.set, update_of_ne e] at hq ⊢
    exact h.unused q hq

/-- A change that keeps state, pid and `killed` of the slot. -/
theorem set_same (hs : (f (s.proc p)).state = (s.proc p).state)
    (hk : (f (s.proc p)).killed = (s.proc p).killed) (hp : (f (s.proc p)).pid = (s.proc p).pid) :
    (s.set p f).Spared := by
  refine h.set fun hu => ?_
  rw [hs] at hu
  rw [hk, hp]
  exact h.unused p hu

theorem note {e : Event} (he : e.Spares) : (s.note e).Spared := by
  refine ⟨h.unused, fun x hx => ?_⟩
  rcases List.mem_cons.mp hx with rfl | hx
  · exact he
  · exact h.trace x hx

theorem freeproc : (s.freeproc p).Spared := h.set fun _ => ⟨rfl, rfl⟩

theorem create (hu : (s.proc q).state = .unused) : (s.create p q ok).Spared := by
  have h1 : (s.set q fun x => { x with pid := s.nextpid, state := .used }).Spared :=
    h.set fun hc => nomatch hc
  have h2 := (h1.of_same (t := { s.set q (fun x => { x with pid := s.nextpid, state := .used }) with
    nextpid := s.nextpid + 1 }) rfl rfl).note (e := .alloc q p s.nextpid (s.proc q).killed)
      (h.unused q hu).1
  unfold Table.create
  split
  · exact h2
  · exact (h2.freeproc).note trivial

theorem wake : (s.wake q ch).Spared := by
  unfold Table.wake
  split
  · exact h.set fun hc => nomatch hc
  · exact h

theorem die {status : Int} : (s.die p status).Spared := by
  have h1 : (s.set p fun x => { x with xstate := status, state := .zombie }).Spared :=
    h.set fun hc => nomatch hc
  exact ((h1.note (e := .exit p (s.proc p).pid status) trivial).of_same rfl rfl)

theorem tryReap : (s.tryReap p q addr ok).2.Spared := by
  unfold Table.tryReap
  split
  · split
    · exact h
    · exact h.freeproc.note trivial
  · exact h

/-- A pid other than 0 is the pid of a process. -/
theorem kill (hpid : pid ≠ 0) : (s.kill pid q).2.Spared := by
  unfold Table.kill
  split
  next hq =>
    have hlive : (s.proc q).state ≠ .unused := fun hu => hpid (hq.symm.trans (h.unused q hu).2)
    refine (h.set fun hc => ?_ : (s.set q _).Spared).note hlive
    dsimp only at hc
    split at hc
    · cases hc
    · exact absurd hc hlive
  next => exact h
end

end Table.Spared

/-! ## Code -/

/-- The steps keep the table spared. -/
abbrev Sparing {α : Type} (m : PM α) : Prop := Steps (fun s t => s.Spared → t.Spared) m

namespace Sparing
variable {α : Type} {p : Slot}

theorem step {en : Table → Bool} {f : Table → α × Table}
    (h : ∀ s, (s.proc p).state = .running → s.Spared → (f s).2.Spared) : Sparing (step p en f) := by
  refine fun s hen => ⟨fun _ => h s ?_, trivial⟩
  simp only [Bool.and_eq_true, beq_iff_eq] at hen
  exact hen.1

theorem get {f : Table → α} : Sparing (get p f) := step fun _ _ h => h

theorem modify {f : Table → Table} (h : ∀ s, (s.proc p).state = .running → s.Spared → (f s).Spared) :
    Sparing (modify p f) := step h

theorem acquireWait : Sparing (acquireWait p) := step fun _ _ h => h.of_same rfl rfl

theorem releaseWait : Sparing (releaseWait p) := modify fun _ _ h => h.of_same rfl rfl

theorem wakeup (l : List Slot) : Sparing (wakeup p ch l) := by
  induction l with
  | nil => trivial
  | cons q rest ih => exact seq (when (modify fun _ _ h => h.wake)) fun _ => ih

theorem sleepWait : Sparing (sleepWait p) := by
  refine seq (modify fun s _ h => ?_) fun _ => seq (modify fun s hrun h => ?_) fun _ => acquireWait
  · exact (h.set fun hc => nomatch hc : (s.fallAsleep p _).Spared).of_same rfl rfl
  · exact h.set_same rfl rfl rfl

theorem allocproc (l : List Slot) : Sparing (allocproc p ok l) := by
  induction l with
  | nil => trivial
  | cons np rest ih =>
    refine seq (step fun s _ h => ?_) fun o => ?_
    · split
      next hu => exact h.create hu
      next => exact h
    · cases o with
      | none => exact ih
      | some pid => trivial

theorem kfork (ok : Bool) : Sparing (kfork p ok) := by
  refine seq (allocproc slots) fun o => ?_
  cases o with
  | none => trivial
  | some x =>
    refine seq (step fun s _ h => ?_) fun _ => ?_
    · dsimp only
      exact h.set_same rfl rfl rfl
    exact seq (modify fun s _ h => h.set fun hc => nomatch hc) fun _ => trivial

theorem reparent (l : List Slot) : Sparing (reparent p l) := by
  induction l with
  | nil => trivial
  | cons pp rest ih =>
    refine seq get fun mine => seq (when ?_) fun _ => ih
    exact seq (modify fun s _ h => h.set_same rfl rfl rfl) fun _ => wakeup slots

theorem kexit (status : Int) : Sparing (kexit p status) := by
  unfold Procs.kexit
  split
  · trivial
  · refine seq acquireWait fun _ => seq (reparent slots) fun _ => ?_
    refine seq get fun parent => seq (wakeup slots) fun _ => ?_
    exact seq (modify fun s _ h => h.die) fun _ => trivial

theorem waitScan (l : List Slot) (kids : Bool) : Sparing (waitScan p addr ok l kids) := by
  induction l generalizing kids with
  | nil => trivial
  | cons pp rest ih =>
    refine seq get fun mine => ?_
    split
    · refine seq (step fun s _ h => h.tryReap) fun o => ?_
      cases o with
      | none => exact ih true
      | some r => trivial
    · exact ih kids

theorem kwaitRound : Sparing (kwaitRound p addr ok ()) := by
  refine seq (waitScan slots false) fun o => ?_
  cases o with
  | inr r => exact seq releaseWait fun _ => trivial
  | inl kids =>
    refine seq get fun dead => ?_
    split
    · exact seq releaseWait fun _ => trivial
    · exact seq sleepWait fun _ => trivial

theorem kwait (addr ok : Bool) (fuel : Nat) : Sparing (kwait p addr ok fuel) := by
  refine seq acquireWait fun _ => ?_
  induction fuel with
  | zero => exact fun _ hen => nomatch hen
  | succ n ih =>
    refine seq kwaitRound fun o => ?_
    cases o with
    | inl _ => exact ih
    | inr r => trivial

theorem kkill (hpid : pid ≠ 0) (l : List Slot) : Sparing (kkill p pid l) := by
  induction l with
  | nil => trivial
  | cons q rest ih =>
    refine seq (step fun s _ h => h.kill hpid) fun done => ?_
    split
    · trivial
    · exact ih

end Sparing

/-! ## Runs -/

end Txv6.Procs
