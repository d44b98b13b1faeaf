import Txv6.Procs.Lives

/-! # The steps of fork, exit and wait

Each critical section of `kfork`, `kexit` and `kwait`, as a change of the table, keeps what holds
of the table at every moment, and what the processes at other points of their code rely on.
-/
namespace Txv6.Procs
open Lib Lib.Prog
open Table (asleep freeproc newborn note)

variable {o ok : Bool} {np q : Slot}

variable {s t u : Table} {p c : Slot}

/-! ## Events -/

theorem stage_note (s : Table) (e : Event) (c : Slot) :
    (s.note e).stage c = (s.stage c).bind fun st => st.next c e := rfl

/-- An event that is not about the slot. -/
theorem stage_note_same {e : Event} (h : ∀ st : Stage, st.next c e = some st) :
    (s.note e).stage c = s.stage c := by
  rw [stage_note]
  cases s.stage c with
  | none => rfl
  | some st => exact h st

/-- `np->parent = q`. -/
def Table.setParent (s : Table) (c q : Slot) : Table := s.set c fun x => { x with parent := some q }

theorem setParent_state (q n : Slot) : ((s.setParent c q).proc n).state = (s.proc n).state := by
  unfold Table.setParent
  rw [set_proc]
  split
  next e => rw [e]
  next => rfl

theorem setParent_chan (q n : Slot) : ((s.setParent c q).proc n).chan = (s.proc n).chan := by
  unfold Table.setParent
  rw [set_proc]
  split
  next e => rw [e]
  next => rfl

theorem setParent_asleep (q n : Slot) : (s.setParent c q).asleep n ↔ s.asleep n := by
  unfold asleep
  rw [setParent_state, setParent_chan]

theorem setParent_newborn (q p' n : Slot) : (s.setParent c q).newborn p' n ↔ s.newborn p' n := by
  unfold newborn
  rw [setParent_state]
  rfl

theorem setParent_same (q : Slot) : ((s.setParent c q).proc c).parent = some q := by
  unfold Table.setParent
  rw [set_proc_same]

theorem setParent_ne {n : Slot} (h : n ≠ c) : (s.setParent c q).proc n = s.proc n := set_proc_ne h _

/-- `np->state = RUNNABLE`. -/
def Table.start (s : Table) (np : Slot) : Table := s.set np fun x => { x with state := .runnable }

/-- Where `p` is in `kexit`. `todo` are the slots that `reparent` has yet to look at, and `late`
those that have a dead child and have yet to be woken. -/
structure Table.Exiting (s : Table) (p : Slot) (todo late : Slot → Prop) : Prop where
  lock : s.waitLock = some p
  grown : ∀ c, ¬ s.newborn p c
  parents : ∀ c, c ≠ initproc → (s.proc c).state.forked = true →
    (s.proc c).parent = (s.stage c).bind (·.guardian) ∨
    (s.proc c).parent = some initproc ∧ (s.stage c).bind (·.origin) = some (p, false)
  mine : ∀ c, (s.proc c).parent = some p → todo c
  awake : ∀ q c, s.asleep q → (s.proc c).state = .zombie → (s.proc c).parent = some q → late q

variable {todo late : Slot → Prop}

section
variable (h : s.Exiting p todo late)
include h

theorem Table.Exiting.stable (hR : Rely p s t) : t.Exiting p todo late := by
  have hq := hR.held h.lock
  refine ⟨hR.lock h.lock, fun c hc => h.grown c (hR.noNew c hc), fun c hc hfork => ?_, fun c hc => ?_,
    fun q c ha hz hpar => ?_⟩
  · rcases hq.fresh c hc hfork with hs | hg
    · rw [hq.parent, (hq.forked c hs).2]
      exact h.parents c hc hs
    · exact .inl hg
  · rw [hq.parent] at hc
    exact h.mine c hc
  · rw [hq.parent] at hpar
    exact h.awake q c (hq.asleep q ha) ((hq.zombie c).mp hz) hpar

theorem Table.Exiting.mono {todo' late' : Slot → Prop}
    (ht : ∀ c, (s.proc c).parent = some p → todo c → todo' c) (hl : ∀ q, s.asleep q → late q → late' q) :
    s.Exiting p todo' late' :=
  ⟨h.lock, h.grown, h.parents, fun c hc => ht c hc (h.mine c hc),
    fun q c ha hz hpar => hl q ha (h.awake q c ha hz hpar)⟩

theorem Table.Exiting.others (q : Slot) (hq : q ≠ p) : s.waitLock ≠ some q := by
  rw [h.lock]
  exact fun e => hq (Option.some.inj e).symm

/-- `reparent` finds a child of `p`. -/
theorem Table.Exiting.forked (hs : s.Lives) (hc : c ≠ initproc)
    (hpar : (s.proc c).parent = some p) : (s.proc c).state.forked = true := by
  have hf := hs.fits c hc
  unfold Fits at hf
  cases hst : (s.proc c).state with
  | unused =>
    rw [hst] at hf
    rw [hf.2] at hpar
    cases hpar
  | used =>
    rw [hst] at hf
    obtain ⟨q, _, hstage, hq⟩ := hf
    rcases hq with hq | hq
    · rw [hq] at hpar
      cases hpar
    · rw [hq] at hpar
      cases hpar
      refine absurd ⟨hc, hst, ?_⟩ (h.grown c)
      rw [hstage]
      rfl
  | sleeping => rfl
  | runnable => rfl
  | running => rfl
  | zombie => rfl
end

theorem guardian_eq (o : Option Stage) :
    o.bind (·.guardian) = (o.bind (·.origin)).map fun x => if x.2 then initproc else x.1 := by
  cases o <;> rfl

/-- A guardian other than init is the creator. -/
theorem origin_of_guardian {o : Option Stage} {r : Slot} (h : o.bind (·.guardian) = some r)
    (hr : r ≠ initproc) : o.bind (·.origin) = some (r, false) := by
  rw [guardian_eq, Option.map_eq_some_iff] at h
  obtain ⟨⟨q, orphan⟩, ho, he⟩ := h
  cases orphan with
  | true => exact absurd he.symm hr
  | false =>
    cases he
    exact ho

theorem Table.Exiting.reparent (h : s.Exiting p todo late) (hp : p ≠ initproc)
    (hpar : (s.proc c).parent = some p) :
    (s.setParent c initproc).Exiting p (fun n => todo n ∧ n ≠ c) (fun q => late q ∨ q = initproc) := by
  refine ⟨h.lock, fun n hn => h.grown n ((setParent_newborn _ _ _).mp hn), fun n hn hfork => ?_,
    fun n hn => ?_, fun q n ha hz hq => ?_⟩
  · by_cases e : n = c
    · subst e
      right
      rw [setParent_same]
      refine ⟨rfl, ?_⟩
      change (s.stage n).bind _ = _
      rw [setParent_state] at hfork
      -- the parent was `p`, and `p` is not init
      rcases h.parents n hn hfork with hg | ⟨hi, _⟩
      · rw [hpar] at hg
        exact origin_of_guardian hg.symm hp
      · rw [hpar] at hi
        exact absurd (Option.some.inj hi) hp
    · rw [setParent_ne e] at hfork ⊢
      exact h.parents n hn hfork
  · by_cases e : n = c
    · subst e
      rw [setParent_same] at hn
      exact absurd (Option.some.inj hn).symm hp
    · rw [setParent_ne e] at hn
      exact ⟨h.mine n hn, e⟩
  · by_cases e : n = c
    · subst e
      rw [setParent_same] at hq
      exact .inr (Option.some.inj hq).symm
    · rw [setParent_ne e] at hz hq
      exact .inl (h.awake q n ((setParent_asleep _ _).mp ha) hz hq)

variable {status : Int}

/-- The slot of a dead child is free again. -/
def Table.reap (s : Table) (p pp : Slot) (addr : Bool) : Table :=
  (s.freeproc pp).note (.reap pp p (s.proc pp).pid (if addr then some (s.proc pp).xstate else none))

variable {pp : Slot} {addr : Bool}

theorem reap_ne (h : c ≠ pp) : (s.reap p pp addr).proc c = s.proc c :=
  set_proc_ne (s := s) h fun x =>
    { x with pid := 0, parent := none, chan := none, killed := false, xstate := 0, state := .unused }

theorem reap_same : ((s.reap p pp addr).proc pp).state = .unused ∧
    ((s.reap p pp addr).proc pp).parent = none := by
  simp [Table.reap, freeproc, note, Table.set]

theorem reap_stage_ne (h : c ≠ pp) : (s.reap p pp addr).stage c = s.stage c :=
  stage_note_same fun _ => if_neg (Ne.symm h)

/-- Where `p` is in `kwait`. `seen` are the slots that the scan has found to be no dead child. -/
structure Table.Waiting (s : Table) (p : Slot) (seen : Slot → Prop) : Prop where
  lock : s.waitLock = some p
  grown : ∀ c, ¬ s.newborn p c
  settled : s.Settled
  seen : ∀ c, seen c → (s.proc c).parent = some p → (s.proc c).state ≠ .zombie

variable {seen : Slot → Prop}

theorem Table.Waiting.mono {seen' : Slot → Prop} (h : s.Waiting p seen)
    (hs : ∀ c, seen' c → (s.proc c).parent = some p → seen c ∨ (s.proc c).state ≠ .zombie) :
    s.Waiting p seen' := by
  refine ⟨h.lock, h.grown, h.settled, fun c hc hpar => ?_⟩
  rcases hs c hc hpar with hseen | hz
  · exact h.seen c hseen hpar
  · exact hz

theorem Table.Waiting.stable (h : s.Waiting p seen) (hR : Rely p s t) : t.Waiting p seen := by
  have hq := hR.held h.lock
  refine ⟨hR.lock h.lock, fun c hc => h.grown c (hR.noNew c hc), h.settled.quietly hq, fun c hc hpar hz => ?_⟩
  rw [hq.parent] at hpar
  exact h.seen c hc hpar ((hq.zombie c).mp hz)

theorem Table.Waiting.others (h : s.Waiting p seen) (q : Slot) (hq : q ≠ p) : s.waitLock ≠ some q := by
  rw [h.lock]
  exact fun e => hq (Option.some.inj e).symm

section Reap
variable (h : s.Sound) (hw : s.Waiting p seen) (hpar : (s.proc pp).parent = some p)
  (hz : (s.proc pp).state = .zombie)
include h hw hpar hz

omit h hpar in
theorem reap_settled : (s.reap p pp addr).Settled := by
  refine ⟨fun c hc hfork => ?_, fun q c ha hzc => ?_⟩
  · have e : c ≠ pp := by
      rintro rfl
      rw [reap_same.1] at hfork
      cases hfork
    rw [reap_ne e] at hfork ⊢
    rw [reap_stage_ne e]
    exact hw.settled.parents c hc hfork
  · have e : c ≠ pp := by
      rintro rfl
      rw [reap_same.1] at hzc
      cases hzc
    have eq : q ≠ pp := by
      rintro rfl
      have := ha.1
      rw [reap_same.1] at this
      cases this
    rw [reap_ne e] at hzc ⊢
    refine hw.settled.awake q c ?_ hzc
    unfold asleep at ha ⊢
    rwa [reap_ne eq] at ha

omit h hw hpar in
theorem reap_newborn : (s.reap p pp addr).newborn q c ↔ s.newborn q c := by
  by_cases e : c = pp
  · subst e
    constructor
    · rintro ⟨_, hused, _⟩
      rw [reap_same.1] at hused
      cases hused
    · rintro ⟨_, hused, _⟩
      rw [hz] at hused
      cases hused
  · unfold newborn
    rw [reap_ne e, reap_stage_ne e]

omit h hpar in
theorem Table.Waiting.reap : (s.reap p pp addr).Waiting p fun _ => False :=
  ⟨hw.lock, fun c hc => hw.grown c ((reap_newborn hz).mp hc), reap_settled hw hz, fun _ hc => hc.elim⟩

end Reap

end Txv6.Procs
