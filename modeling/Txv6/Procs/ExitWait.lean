import Txv6.Procs.Steps
import Txv6.Procs.Kill

/-! # Exit and wait

A process that has `wait_lock` is the only one to change parents, to die and to reap, so what it
has found out about its children stays true until it gives the lock up. From this every call of
every process keeps the invariant of the table, in any interleaving.
-/
namespace Txv6.Procs
open Lib Lib.Prog

variable {addr ok : Bool} {st : Option Stage} {m : PM Int} {x : Proc} {c np : Slot} {seen : Slot → Prop}
  {en : Table → Bool} {i : Thread}

variable {s t : Table} {p : Slot} {α : Type} {Q : α → Table → Prop} {f : Table → α × Table}

/-- Nothing is left unfinished by `kfork`. -/
def Table.Grown (s : Table) (p : Slot) : Prop := ∀ c, ¬ s.newborn p c

theorem Table.Grown.stable (h : s.Grown p) (hR : Rely p s t) : t.Grown p :=
  fun c hc => h c (hR.noNew c hc)

/-- `kfork` has taken slot `np`. -/
structure Table.Forking (s : Table) (p np : Slot) : Prop where
  newborn : s.newborn p np
  only : ∀ c, s.newborn p c → c = np

theorem Table.Forking.stable (h : s.Forking p np) (hR : Rely p s t) : t.Forking p np :=
  ⟨(hR.newborn np h.newborn).1, fun c hc => h.only c (hR.noNew c hc)⟩

/-- What `allocproc` leaves behind. -/
def Table.Alloced (s : Table) (p : Slot) : Option (Slot × Pid) → Prop
  | none => s.Grown p
  | some (np, _) => s.Forking p np

/-- What the scan of `kwait` has found out. -/
def Table.Scanned (s : Table) (p : Slot) : Bool ⊕ Int → Prop
  | .inl _ => s.Waiting p fun _ => True
  | .inr _ => s.Waiting p fun _ => False

/-- What a thread leaves behind between its calls. -/
def Thread.Idle : Thread → Table → Prop
  | .proc p, s => s.Grown p
  | .cpu _, _ => True

theorem RelyOf.refl (i : Thread) (s : Table) : RelyOf i s s := by
  cases i with
  | proc p => exact Rely.refl p s
  | cpu n => trivial

theorem RelyOf.trans {s t u : Table} (h : RelyOf i s t) (h' : RelyOf i t u) : RelyOf i s u := by
  cases i with
  | proc p => exact Rely.trans h h'
  | cpu n => trivial

theorem Thread.Idle.stable {s t : Table} (hR : RelyOf i s t) (h : i.Idle s) : i.Idle t := by
  cases i with
  | proc p => exact Table.Grown.stable h hR
  | cpu n => trivial

/-- A call as the others see it. -/
abbrev Call.Keeps (i : Thread) (m : PM Int) (s : Table) : Prop :=
  wp (fun s t => RelyOf i s t ∧ t.Sound) (Guar i) m (fun _ => i.Idle)
    (fun e t => ¬ False ∧ (Fatal.fatal e = false → i.Idle t)) s

theorem Fits.isSome (h : Fits c x st) : st.isSome = true := by
  unfold Fits at h
  split at h
  · rw [h.1]
    rfl
  · obtain ⟨_, _, h, _⟩ := h
    rw [h]
    rfl
  · obtain ⟨_, _, _, h⟩ := h
    rw [h]
    rfl
  · obtain ⟨_, _, _, h⟩ := h
    rw [h]
    rfl

/-- A process that `kfork` has completed was created by somebody. -/
theorem Fits.origin (h : Fits c x st)
    (hx : x.state.forked = true) : ∃ q o, st.bind (·.origin) = some (q, o) := by
  unfold Fits at h
  cases hst : x.state
  all_goals rw [hst] at h hx
  case unused => cases hx
  case used => cases hx
  all_goals
    obtain ⟨q, o, _, h⟩ := h
    exact ⟨q, o, by rw [h]; rfl⟩

/-- Others may add to the trace. -/
def Grows (s t : Table) : Prop := s.trace <:+ t.trace

/-- `r` is an error, or the pid of a child that `p` has reaped; its status was copied out if it
was asked for. -/
def Table.Received (s : Table) (p : Slot) (addr : Bool) (r : Int) : Prop :=
  r = -1 ∨ ∃ pp pid status, r = pid.toInt ∧ .reap pp p pid status ∈ s.trace ∧ status.isSome = addr

theorem Table.Received.grows {r : Int} (h : s.Received p addr r) (hg : Grows s t) : t.Received p addr r := by
  rcases h with h | ⟨pp, pid, status, hr, hmem, hstatus⟩
  · exact .inl h
  · exact .inr ⟨pp, pid, status, hr, hg.subset hmem, hstatus⟩

end Txv6.Procs
