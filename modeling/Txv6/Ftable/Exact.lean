import Txv6.Ftable.Steps
import Txv6.Lib.Sequence

/-! # The reference counts of open files are exact -/
namespace Txv6.Ftable
open Lib Function
open Lib.Prog hiding update

variable {g : Ghost} {fd : Nat} {s : State}

variable {p np : ProcPtr} {o : Own} {x y : State × Ghost} {O C : Nat → Option FilePtr} {f : FilePtr}

/-! ## Counting descriptors -/

theorem fds_add (hfd : fd < nofile) (hO : O fd = none) (f : FilePtr) :
    fds (update O fd (some f)) = update (fds O) f (fds O f + 1) := by
  funext f'
  have h := fds_update (o := O) hfd (some f) f'
  rw [hO, if_neg (fun h => nomatch h)] at h
  by_cases e : f' = f
  · subst e
    rw [if_pos rfl] at h
    rw [update_self]
    omega
  · rw [if_neg (fun h => e (Option.some.inj h).symm)] at h
    rw [update_of_ne e]
    omega

theorem fds_del (hfd : fd < nofile) (hO : O fd = some f) :
    fds (update O fd none) = update (fds O) f (fds O f - 1) := by
  funext f'
  have h := fds_update (o := O) hfd none f'
  rw [hO, if_neg (show ¬ none = some f' from fun h => nomatch h)] at h
  by_cases e : f' = f
  · subst e
    rw [if_pos rfl] at h
    rw [update_self]
    omega
  · rw [if_neg (fun h => e (Option.some.inj h).symm)] at h
    rw [update_of_ne e]
    omega

theorem argfd_eq {fd : Int} (h : s.argfd p fd = some f) :
    fd.toNat < nofile ∧ s.ofile p fd.toNat = some f := by
  unfold State.argfd at h
  split at h
  · cases h
  next hfd =>
    refine ⟨?_, h⟩
    have hr : ¬ fd < 0 ∧ ¬ (16 : Int) ≤ fd := not_or.mp hfd
    change fd.toNat < 16
    omega

theorem Has.idle (h : Has p (.idle O) x) : Idle p x := fun _ => ⟨O, h⟩

/-- A process that has its descriptors and nothing else. -/
theorem Has.settle (h : Has p o x) (hofile : o.ofile = O) (hhold : o.hold = fds O) (hfresh : o.fresh = ∅)
    (hends : o.ends = fun _ => 0) (hdying : o.dying = none) (hchild : o.child = none) :
    Has p (.idle O) x := by
  obtain ⟨_, _, _, _, _, _⟩ := o
  dsimp only at hofile hhold hfresh hends hdying hchild
  subst hofile hhold hfresh hends hdying hchild
  exact h

/-! ## The calls on files -/

theorem fileWp_sysDup (fd : Int) (h : Has p (.idle O) x) : fileWp p (sysDup p fd) (fun _ => Idle p) x := by
  refine fwp_seq (fileWp_read h) fun r y hy => ?_
  obtain ⟨hy, hr⟩ := hy
  cases r with
  | none => exact hy.idle
  | some f =>
    obtain ⟨hfd, hf⟩ := argfd_eq hr.symm
    have hpos : 1 ≤ fds O f := by
      rw [hy.ofile] at hf
      exact fds_pos hfd hf
    refine fwp_seq (fileWp_fdalloc hy rfl f) fun r y hy => ?_
    cases r with
    | none => exact hy.idle
    | some nfd =>
      obtain ⟨hlt, hnone, hy⟩ := hy
      have hnone : O nfd = none := hnone
      refine fwp_seq (fileWp_filedup hy hpos (Set.notMem_empty f)) fun _ y hy => ?_
      exact (hy.settle rfl (fds_add hlt hnone f).symm rfl rfl rfl rfl).idle

theorem fileWp_sysClose (fd : Int) (h : Has p (.idle O) x) : fileWp p (sysClose p fd) (fun _ => Idle p) x := by
  refine fwp_seq (fileWp_read h) fun r y hy => ?_
  obtain ⟨hy, hr⟩ := hy
  cases r with
  | none => exact hy.idle
  | some f =>
    obtain ⟨hfd, hf⟩ := argfd_eq hr.symm
    rw [hy.ofile] at hf
    refine fwp_seq (fileWp_setOfile hy rfl _ none) fun _ y hy => ?_
    refine fwp_seq (fileWp_fileclose hy rfl (fds_pos hfd hf)) fun _ y hy => ?_
    exact (hy.settle rfl (fds_del hfd hf).symm (Set.empty_sdiff _) rfl rfl rfl).idle

/-- A reference from `filealloc` is given back. -/
theorem update_pred_self {h : FilePtr → Nat} (h0 : h f = 0) :
    update (update h f 1) f (update h f 1 f - 1) = h := by
  rw [update_self, update_idem]
  change update h f 0 = h
  rw [← h0, update_eq_self]

theorem single_diff (f : FilePtr) : insert f ∅ \ {f} = (∅ : Set FilePtr) := by
  rw [Set.insert_sdiff_of_mem _ (Set.mem_singleton f), Set.empty_sdiff]

theorem fileWp_sysOpen (omode : Nat) (found : Found) (h : Has p (.idle O) x) :
    fileWp p (sysOpen p omode found) (fun _ => Idle p) x := by
  cases found with
  | fails => exact h.idle
  | jumps c => exact ⟨⟨c, rfl⟩, h.idle⟩
  | inode device late =>
    refine fwp_seq (fileWp_filealloc h) fun r y hy => ?_
    cases r with
    | none => exact hy.idle
    | some f =>
      obtain ⟨hzero, hy⟩ := hy
      have hzero : fds O f = 0 := hzero
      refine fwp_seq (fileWp_fdalloc hy rfl f) fun r y hy => ?_
      cases r with
      | none =>
        refine fwp_seq (fileWp_fileclose (f := f) hy rfl ?_) fun _ y hy => ?_
        · dsimp only
          rw [update_self]
        · exact (hy.settle rfl (update_pred_self hzero) (single_diff f) rfl rfl rfl).idle
      | some fd =>
        obtain ⟨hlt, hnone, hy⟩ := hy
        have hnone : O fd = none := hnone
        refine fwp_seq (fileWp_setNew (m := fun _ => 0) hy (Set.mem_insert f ∅) (fun _ => rfl) ?_ ?_)
          fun _ y hy => ?_
        · intro a ha
          cases device <;> cases ha
        · intro a e
          rw [if_neg]
          · rfl
          · intro he
            cases device <;> cases he.1
        · have hhold : update (fds O) f 1 = fds (update O fd (some f)) := by
            rw [fds_add hlt hnone, hzero]
          have hopen := hy.settle (O := update O fd (some f)) rfl hhold (single_diff f) rfl rfl rfl
          cases late with
          | none => exact hopen.idle
          | some c => exact ⟨⟨c, rfl⟩, hopen.idle⟩

/-! ## Pipes -/
section Pipe
variable {rf wf : FilePtr}

/-- The two files of a pipe are closed again. -/
theorem fileWp_closeBoth {α : Type} {k : F α} {Q : α → State × Ghost → Prop} (h : Has p o x)
    (hofile : o.ofile = O) (hhold : o.hold = update (update (fds O) rf 1) wf 1)
    (hne : wf ≠ rf) (hr : fds O rf = 0) (hw : fds O wf = 0) (hfresh : o.fresh ⊆ {rf, wf})
    (hends : o.ends = fun _ => 0) (hdying : o.dying = none) (hchild : o.child = none)
    (hk : ∀ y, Has p (.idle O) y → fileWp p k Q y) : fileWp p (do fileclose rf; fileclose wf; k) Q x := by
  have hrf : o.hold rf = 1 := by rw [hhold, update_of_ne hne.symm, update_self]
  have hwf : o.hold wf = 1 := by rw [hhold, update_self]
  refine fwp_seq (fileWp_fileclose h hdying (Nat.le_of_eq hrf.symm)) fun _ y hy => ?_
  have hwf' : update o.hold rf (o.hold rf - 1) wf = 1 := by
    rw [update_of_ne hne, hwf]
  refine fwp_seq (fileWp_fileclose hy hdying (Nat.le_of_eq hwf'.symm)) fun _ y hy => ?_
  refine hk y (hy.settle hofile ?_ ?_ hends hdying hchild)
  · dsimp only
    rw [hwf', hrf]
    funext f
    by_cases e : f = wf
    · rw [e, update_self, hw]
    · rw [update_of_ne e]
      by_cases e' : f = rf
      · rw [e', update_self, hr]
      · rw [update_of_ne e', hhold, update_of_ne e, update_of_ne e']
  · refine Set.eq_empty_of_forall_notMem fun f hf => ?_
    obtain ⟨⟨hf, hfr⟩, hfw⟩ := hf
    obtain e | e := hfresh hf
    · exact hfr e
    · exact hfw e

theorem fileWp_pipealloc (mem : Option Page) (h : Has p (.idle O) x) :
    fileWp p (pipealloc mem) (fun r y => match r with
      | none => Has p (.idle O) y
      | some (rf, wf) => wf ≠ rf ∧ fds O rf = 0 ∧ fds O wf = 0 ∧
          Has p { Own.idle O with hold := update (update (fds O) rf 1) wf 1 } y) x := by
  refine fwp_seq (fileWp_filealloc h) fun r y hy => ?_
  cases r with
  | none => exact hy
  | some rf =>
    obtain ⟨hr, hy⟩ := hy
    have hr : fds O rf = 0 := hr
    refine fwp_seq (fileWp_filealloc hy) fun r y hy => ?_
    cases r with
    | none =>
      refine fwp_seq (fileWp_fileclose (f := rf) hy rfl ?_) fun _ y hy => ?_
      · dsimp only
        rw [update_self]
      · exact hy.settle rfl (update_pred_self hr) (single_diff rf) rfl rfl rfl
    | some wf =>
      obtain ⟨hw, hy⟩ := hy
      have hw : update (fds O) rf 1 wf = 0 := hw
      have hne : wf ≠ rf := by
        intro e
        rw [e, update_self] at hw
        cases hw
      rw [update_of_ne hne] at hw
      refine fwp_seq (fileWp_kalloc hy rfl mem) fun r y hy => ?_
      cases r with
      | none =>
        refine fileWp_closeBoth hy rfl rfl hne hr hw ?_ rfl rfl rfl fun z hz => hz
        intro f hf
        obtain e | e | e := hf
        · exact .inr e
        · exact .inl e
        · cases e
      | some pi =>
        refine fwp_seq (fileWp_openPipe hy) fun _ y hy => ?_
        -- the reading end goes to the first file, the writing end to the second
        refine fwp_seq (fileWp_setNew (f := rf) (m := fun e => if e = (pi, true) then 1 else 0) hy ?_
          (fun _ => rfl) (fun _ _ => rfl) ?_) fun _ y hy => ?_
        · exact Set.mem_insert_of_mem _ (Set.mem_insert _ _)
        · intro a e
          obtain ⟨pg, w⟩ := e
          unfold isEnd
          dsimp only
          by_cases e : pg = pi
          · subst e
            cases w <;> simp
          · simp [e, Ne.symm e]
        · refine fwp_seq (fileWp_setNew (f := wf) (m := fun _ => 0) hy ?_ (fun _ => rfl) (fun _ _ => rfl) ?_)
            fun _ y hy => ?_
          · exact ⟨Set.mem_insert _ _, hne⟩
          · intro a e
            obtain ⟨pg, w⟩ := e
            unfold isEnd
            dsimp only
            by_cases e : pg = pi
            · subst e
              cases w <;> simp
            · simp [e, Ne.symm e]
          · refine ⟨hne, hr, hw, ?_⟩
            have hfresh : (insert wf (insert rf ∅) \ {rf}) \ {wf} = (∅ : Set FilePtr) := by
              refine Set.eq_empty_of_forall_notMem fun f hf => ?_
              obtain ⟨⟨hf, hfr⟩, hfw⟩ := hf
              obtain e | e | e := hf
              · exact hfw e
              · exact hfr e
              · exact e
            have hy : Has p { Own.idle O with
                hold := update (update (fds O) rf 1) wf 1
                fresh := (insert wf (insert rf ∅) \ {rf}) \ {wf} } y := hy
            rw [hfresh] at hy
            exact hy

theorem fileWp_sysPipe (mem : Option Page) (copied : Bool) (h : Has p (.idle O) x) :
    fileWp p (sysPipe p mem copied) (fun _ => Idle p) x := by
  refine fwp_seq (fileWp_pipealloc mem h) fun r y hy => ?_
  cases r with
  | none => exact hy.idle
  | some fs =>
    obtain ⟨rf, wf⟩ := fs
    obtain ⟨hne, hr, hw, hy⟩ := hy
    refine fwp_seq (fileWp_fdalloc hy rfl rf) fun r y hy => ?_
    cases r with
    | none =>
      exact fileWp_closeBoth hy rfl rfl hne hr hw (Set.empty_subset _) rfl rfl rfl fun z hz => hz.idle
    | some fd0 =>
      obtain ⟨hlt, hnone, hy⟩ := hy
      have hnone : O fd0 = none := hnone
      refine fwp_seq (fileWp_fdalloc hy rfl wf) fun r y hy => ?_
      cases r with
      | none =>
        refine fwp_seq (fileWp_setOfile hy rfl fd0 none) fun _ y hy => ?_
        refine fileWp_closeBoth hy ?_ rfl hne hr hw (Set.empty_subset _) rfl rfl rfl fun z hz => hz.idle
        change update (update O fd0 (some rf)) fd0 none = O
        rw [update_idem, ← hnone, update_eq_self]
      | some fd1 =>
        obtain ⟨hlt', hnone', hy⟩ := hy
        have hnone' : update O fd0 (some rf) fd1 = none := hnone'
        have hfd : fd1 ≠ fd0 := by
          intro e
          rw [e, update_self] at hnone'
          cases hnone'
        dsimp only
        split
        · refine (hy.settle rfl ?_ rfl rfl rfl rfl).idle
          change update (update (fds O) rf 1) wf 1 =
            fds (update (update O fd0 (some rf)) fd1 (some wf))
          rw [fds_add hlt' hnone', fds_add hlt hnone, update_of_ne hne, hr, hw]
        · refine fwp_seq (fileWp_setOfile hy rfl fd0 none) fun _ y hy => ?_
          refine fwp_seq (fileWp_setOfile hy rfl fd1 none) fun _ y hy => ?_
          refine fileWp_closeBoth hy ?_ rfl hne hr hw (Set.empty_subset _) rfl rfl rfl fun z hz => hz.idle
          change update (update (update (update O fd0 (some rf)) fd1
            (some wf)) fd0 none) fd1 none = O
          rw [update_of_ne hfd] at hnone'
          funext d
          by_cases e : d = fd1
          · rw [e, update_self, hnone']
          · by_cases e' : d = fd0
            · rw [update_of_ne e, e', update_self, hnone]
            · rw [update_of_ne e, update_of_ne e', update_of_ne e,
                update_of_ne e']

end Pipe

/-! ## Processes -/
section Process
variable {st : ProcState} {b : Option ProcPtr}

/-- A slot of the process table that no process runs in is changed. -/
theorem FileStep.slot (ho : Has p o y) (hdead : y.1.state np ≠ .runnable) (hst : st ≠ .runnable)
    (hwas : ∀ q, y.2.builder np = some q → q = p) (hb : b = if st = .used then some p else none)
    (hclear : st = .unused ∨ st = .zombie → ∀ fd < nofile, y.1.ofile np fd = none) :
    FileStep p y (y.1.setState np st, y.2.setBuilder np b) := by
  have hstate : ∀ q, q ≠ np → (y.1.setState np st).state q = y.1.state q := by
    intro q hq
    exact update_of_ne hq _ _
  have hself : (y.1.setState np st).state np = st := update_self ..
  have hbp : ∀ q, b = some q → q = p := by
    intro q hq
    rw [hb] at hq
    split at hq
    · exact (Option.some.inj hq).symm
    · cases hq
  intro hy
  refine ⟨⟨⟨hy.refs.ref, hy.refs.free⟩, ⟨hy.pipes.oneWay, hy.pipes.ends, hy.pipes.dying⟩,
    ⟨?_, ?_, ?_, ?_⟩⟩, ?_⟩
  · intro q hq
    by_cases e : q = np
    · rw [e, hself]
      exact hst
    · rw [hstate q e]
      exact hy.slots.bound q hq
  · intro q hq
    have hq : y.1.state q ≠ .runnable := by
      by_cases e : q = np
      · rw [e]
        exact hdead
      · rwa [hstate q e] at hq
    have he := hy.slots.empty q hq
    refine ⟨he.hold, he.ends, he.dying, fun q' => ?_⟩
    change update y.2.builder np b q' ≠ some q
    by_cases e : q' = np
    · rw [e, update_self]
      intro h
      rw [hbp q h] at hq
      exact hq ho.alive
    · rw [update_of_ne e]
      exact he.builder q'
  · intro q hq
    by_cases e : q = np
    · rw [e, hself] at hq
      rw [e]
      exact hclear hq
    · rw [hstate q e] at hq
      exact hy.slots.clear q hq
  · intro q
    change update y.2.builder np b q ≠ none ↔ _
    by_cases e : q = np
    · rw [e, update_self, hself, hb]
      by_cases h : st = .used
      · rw [if_pos h]
        exact ⟨fun _ => h, fun _ h' => nomatch h'⟩
      · rw [if_neg h]
        exact ⟨fun h' => absurd rfl h', fun h' => absurd h' h⟩
    · rw [update_of_ne e, hstate q e]
      exact hy.slots.built q
  · intro q hq
    by_cases e : q = np
    · refine .dead (e ▸ hdead) ?_
      rw [e, hself]
      exact hst
    · have hmine : ∀ q', q' = q ∨ y.2.builder q' = some q → q' ≠ np := by
        intro q' hq' e'
        obtain h | h := hq'
        · exact e (h.symm.trans e')
        · rw [e'] at h
          exact hq (hwas q h)
      refine .spared (fun q' hq' => hstate q' (hmine q' hq')) (fun _ _ => rfl) rfl rfl (fun _ => Iff.rfl)
        (fun q' => ?_) fun _ _ _ hnew => hnew
      change update y.2.builder np b q' = some q ↔ y.2.builder q' = some q
      by_cases e' : q' = np
      · rw [e', update_self]
        exact ⟨fun h => absurd (hbp q h) hq, fun h => absurd (hwas q h) hq⟩
      · rw [update_of_ne e']

/-- A slot that is not being filled. -/
theorem Exact.not_built (hy : Exact y) (h : y.1.state np ≠ .used) : y.2.builder np = none := by
  by_contra hc
  exact h ((hy.slots.built np).mp hc)

theorem fileWp_allocproc (h : Has p o x) (hchild : o.child = none) :
    fileWp p allocproc (fun r y => match r with
      | none => Has p o y
      | some np => np ≠ p ∧ np < nproc ∧ ∃ C, (∀ fd < nofile, C fd = none) ∧
          Has p { o with child := some (np, C) } y) x := by
  refine fwp_atom fun y hR => ?_
  have hy := hR.1.keeps o h
  cases hfind : (List.range nproc).find? fun np => y.1.state np == .unused with
  | none => exact ⟨y.2, FileStep.refl p y, hy⟩
  | some np =>
    have hlt : np < nproc := List.mem_range.mp (List.mem_of_find?_eq_some hfind)
    have hun : y.1.state np = .unused := by simpa using List.find?_some hfind
    have hne : np ≠ p := by
      intro e
      rw [e, hy.alive] at hun
      cases hun
    have hnot : y.2.builder np = none := hR.2.not_built (by rw [hun]; exact fun h => nomatch h)
    refine ⟨y.2.setBuilder np (some p), FileStep.slot hy ?_ ?_ ?_ ?_ ?_, hne, hlt, y.1.ofile np,
      hR.2.slots.clear np (.inl hun), ?_⟩
    · rw [hun]
      exact fun h => nomatch h
    · exact fun h => nomatch h
    · intro q hq
      rw [hnot] at hq
      cases hq
    · rfl
    · intro h
      obtain h | h := h
      · cases h
      · cases h
    · refine ⟨?_, hy.ofile, hy.hold, hy.fresh, hy.ends, hy.dying, fun q => ?_, fun q c hc => ?_⟩
      · exact (update_of_ne hne.symm _ _).trans hy.alive
      · change update y.2.builder np (some p) q = some p ↔ some np = some q
        by_cases e : q = np
        · rw [e, update_self]
          exact ⟨fun _ => rfl, fun _ => rfl⟩
        · rw [update_of_ne e, hy.builder, hchild]
          exact ⟨fun h => (nomatch h), fun h => absurd (Option.some.inj h).symm e⟩
      · cases hc
        exact ⟨rfl, update_self ..⟩

/-- `freeproc` of a child that has got nothing yet. -/
theorem fileWp_freeChild (h : Has p { o with child := some (np, C) } x) (hchild : o.child = none)
    (hne : np ≠ p) (hC : ∀ fd < nofile, C fd = none) :
    fileWp p (.update fun s => s.setState np .unused) (fun _ => Has p o) x := by
  refine fwp_update fun y hR => ?_
  have hy := hR.1.keeps _ h
  obtain ⟨hofile, hused⟩ := hy.child np C rfl
  have hmine : y.2.builder np = some p := (hy.builder np).mpr rfl
  refine ⟨y.2.setBuilder np none, FileStep.slot hy ?_ ?_ ?_ ?_ ?_, ?_⟩
  · rw [hused]
    exact fun h => nomatch h
  · exact fun h => nomatch h
  · intro q hq
    rw [hmine] at hq
    exact (Option.some.inj hq).symm
  · rfl
  · intro _
    rw [hofile]
    exact hC
  · refine ⟨?_, hy.ofile, hy.hold, hy.fresh, hy.ends, hy.dying, fun q => ?_, fun q c hc => ?_⟩
    · exact (update_of_ne hne.symm _ _).trans hy.alive
    · change update y.2.builder np none q = some p ↔ _
      rw [hchild]
      by_cases e : q = np
      · rw [e, update_self]
        exact ⟨fun h => (nomatch h), fun h => (nomatch h)⟩
      · rw [update_of_ne e, hy.builder]
        refine ⟨fun h => ?_, fun h => (nomatch h)⟩
        exact absurd (Option.some.inj h).symm e
    · rw [hchild] at hc
      cases hc

/-- A descriptor of the child is set. -/
theorem fileWp_setChild (h : Has p { o with child := some (np, C) } x) (hne : np ≠ p) (fd : Nat)
    (v : Option FilePtr) : fileWp p (.update fun s => s.setOfile np fd v)
      (fun _ => Has p { o with child := some (np, update C fd v) }) x := by
  refine fwp_update fun y hR => ?_
  have hy := hR.1.keeps _ h
  obtain ⟨hofile, hused⟩ := hy.child np C rfl
  have hmine : y.2.builder np = some p := (hy.builder np).mpr rfl
  have hdead : y.1.state np ≠ .runnable := by
    rw [hused]
    exact fun h => nomatch h
  have hother : ∀ q, q ≠ np → (y.1.setOfile np fd v).ofile q = y.1.ofile q := by
    intro q hq
    exact update_of_ne hq _ _
  refine ⟨y.2, fun hy' => ⟨⟨⟨hy'.refs.ref, hy'.refs.free⟩, ⟨hy'.pipes.oneWay, hy'.pipes.ends,
    hy'.pipes.dying⟩, ⟨hy'.slots.bound, hy'.slots.empty, fun q hq => ?_, hy'.slots.built⟩⟩, fun q hq => ?_⟩, ?_⟩
  · rw [hother q]
    · exact hy'.slots.clear q hq
    · intro e
      rw [e, show (y.1.setOfile np fd v).state np = .used from hused] at hq
      obtain hq | hq := hq
      · cases hq
      · cases hq
  · by_cases e : q = np
    · exact .dead (e ▸ hdead) (e ▸ hdead)
    · refine .spared (fun _ _ => rfl) (fun q' hq' => hother q' ?_) rfl rfl (fun _ => Iff.rfl)
        (fun _ => Iff.rfl) fun _ _ _ hnew => hnew
      intro e'
      obtain h | h := hq'
      · exact e (h.symm.trans e')
      · rw [e', hmine] at h
        exact hq (Option.some.inj h).symm
  · refine ⟨hy.alive, ?_, hy.hold, hy.fresh, hy.ends, hy.dying, hy.builder, fun q c hc => ?_⟩
    · exact (hother p hne.symm).trans hy.ofile
    · cases hc
      refine ⟨?_, hused⟩
      change update y.1.ofile np _ np = _
      rw [update_self, hofile]

/-- A process with a child that has got copies of some of its descriptors. -/
def Own.parent (O : Nat → Option FilePtr) (np : ProcPtr) (C : Nat → Option FilePtr) : Own where
  ofile := O
  hold f := fds O f + fds C f
  child := some (np, C)

theorem fileWp_forkFiles (hne : np ≠ p) (l : List Nat) (hl : ∀ i ∈ l, i < nofile ∧ C i = none)
    (hnodup : l.Nodup) (h : Has p (.parent O np C) x) :
    fileWp p (forkFiles p np l) (fun _ y => ∃ C, Has p (.parent O np C) y) x := by
  induction l generalizing x C with
  | nil => exact ⟨C, h⟩
  | cons i rest ih =>
    obtain ⟨hi, hC⟩ := hl i List.mem_cons_self
    obtain ⟨hnot, hnodup⟩ := List.nodup_cons.mp hnodup
    refine fwp_seq (fileWp_read h) fun r y hy => ?_
    obtain ⟨hy, hr⟩ := hy
    cases r with
    | none => exact ih (fun j hj => hl j (List.mem_cons_of_mem _ hj)) hnodup hy
    | some f =>
      have hO : O i = some f := by
        rw [hy.ofile] at hr
        exact hr.symm
      have hpos := fds_pos hi hO
      refine fwp_seq (fileWp_filedup hy ?_ (Set.notMem_empty f)) fun _ y hy => ?_
      · change 1 ≤ fds O f + fds C f
        omega
      have hhold : update (Own.parent O np C).hold f ((Own.parent O np C).hold f + 1) =
          (Own.parent O np (update C i (some f))).hold := by
        funext f'
        change _ = fds O f' + fds (update C i (some f)) f'
        rw [fds_add hi hC]
        by_cases e : f' = f
        · rw [e, update_self, update_self]
          exact Nat.add_assoc _ _ _
        · rw [update_of_ne e, update_of_ne e]
          rfl
      have hy : Has p { Own.parent O np (update C i (some f)) with child := some (np, C) } y := by
        rw [hhold] at hy
        exact hy
      refine fwp_seq (fileWp_setChild hy hne i (some f)) fun _ y hy => ?_
      refine ih (fun j hj => ?_) hnodup hy
      obtain ⟨hj', hCj⟩ := hl j (List.mem_cons_of_mem _ hj)
      refine ⟨hj', ?_⟩
      rw [update_of_ne]
      · exact hCj
      · intro e
        exact hnot (e ▸ hj)

/-- The child begins to run, with the references of its descriptors. -/
theorem fileWp_startChild (h : Has p (.parent O np C) x) (hne : np ≠ p) (hlt : np < nproc) :
    fileWp p (.update fun s => s.setState np .runnable) (fun _ => Has p (.idle O)) x := by
  refine fwp_update fun y hR => ?_
  have hy := hR.1.keeps _ h
  obtain ⟨hofile, hused⟩ := hy.child np C rfl
  have hmine : y.2.builder np = some p := (hy.builder np).mpr rfl
  have hdead : y.1.state np ≠ .runnable := by
    rw [hused]
    exact fun h => nomatch h
  have hempty := hR.2.slots.empty np hdead
  have hp := hR.2.lt_nproc hy.alive
  let g := ((y.2.setHold p (fds O)).setHold np (fds C)).setBuilder np none
  have hstate : ∀ q, q ≠ np → (y.1.setState np .runnable).state q = y.1.state q := by
    intro q hq
    exact update_of_ne hq _ _
  have hhold : ∀ q, q ≠ np → q ≠ p → g.hold q = y.2.hold q := by
    intro q hq hqp
    change update (update y.2.hold p (fds O)) np (fds C) q = _
    rw [update_of_ne hq, update_of_ne hqp]
  have hbuilder : ∀ q, g.builder q = if q = np then none else y.2.builder q := by
    intro q
    change update y.2.builder np none q = _
    by_cases e : q = np
    · rw [e, update_self, if_pos rfl]
    · rw [update_of_ne e, if_neg e]
  refine ⟨g, fun hy' => ⟨⟨⟨fun f => ?_, hy'.refs.free⟩, ⟨hy'.pipes.oneWay, hy'.pipes.ends,
    hy'.pipes.dying⟩, ⟨?_, ?_, ?_, ?_⟩⟩, fun q hq => ?_⟩, ?_⟩
  · have h1 := y.2.held_setHold hp (fds O) f
    have h2 := (y.2.setHold p (fds O)).held_setHold hlt (fds C) f
    have h3 : (y.2.setHold p (fds O)).hold np f = 0 := by
      change update y.2.hold p (fds O) np f = 0
      rw [update_of_ne hne]
      exact hempty.hold f
    have h4 : y.2.hold p f = fds O f + fds C f := congrFun hy.hold f
    have h5 := hy'.refs.ref f
    change (y.1.file f).ref = (((y.2.setHold p (fds O)).setHold np (fds C)).held f : Int)
    omega
  · intro q hq
    have e : q ≠ np := Nat.ne_of_gt (Nat.lt_of_lt_of_le hlt hq)
    rw [hstate q e]
    exact hy'.slots.bound q hq
  · intro q hq
    have e : q ≠ np := by
      intro e
      rw [e] at hq
      exact hq (update_self ..)
    rw [hstate q e] at hq
    have e' : q ≠ p := by
      intro e'
      rw [e'] at hq
      exact hq hy.alive
    have he := hy'.slots.empty q hq
    refine ⟨fun f => ?_, he.ends, he.dying, fun q' => ?_⟩
    · dsimp only
      rw [hhold q e e']
      exact he.hold f
    · dsimp only
      rw [hbuilder]
      split
      · exact fun h => nomatch h
      · exact he.builder q'
  · intro q hq
    have e : q ≠ np := by
      intro e
      rw [e, show (y.1.setState np .runnable).state np = .runnable from update_self ..] at hq
      obtain hq | hq := hq
      · cases hq
      · cases hq
    rw [hstate q e] at hq
    exact hy'.slots.clear q hq
  · intro q
    dsimp only
    rw [hbuilder]
    by_cases e : q = np
    · rw [if_pos e, e, show (y.1.setState np .runnable).state np = .runnable from update_self ..]
      exact ⟨fun h => absurd rfl h, fun h => (nomatch h)⟩
    · rw [if_neg e, hstate q e]
      exact hy'.slots.built q
  · by_cases e : q = np
    · -- the new process has what its descriptors say
      subst e
      refine ⟨fun _ hq' => absurd hq'.alive hdead, fun _ _ => ⟨C, update_self .., hofile,
        update_self .., fun f hf => absurd hf (Set.notMem_empty f), funext hempty.ends, fun pg => ?_,
        fun q' => ?_, fun _ _ hc => (nomatch hc)⟩⟩
      · exact ⟨fun h => absurd h (hempty.dying pg), fun h => (nomatch h)⟩
      · dsimp only
        rw [hbuilder]
        refine ⟨fun h => ?_, fun h => (nomatch h)⟩
        split at h
        · cases h
        · exact absurd h (hempty.builder q')
    · have hnp : ∀ q', q' = q ∨ y.2.builder q' = some q → q' ≠ np := by
        intro q' hq' e'
        obtain h | h := hq'
        · exact e (h.symm.trans e')
        · rw [e', hmine] at h
          exact hq (Option.some.inj h).symm
      refine .spared (fun q' hq' => hstate q' (hnp q' hq')) (fun _ _ => rfl) (hhold q e hq) rfl
        (fun _ => Iff.rfl) (fun q' => ?_) fun _ _ _ hnew => hnew
      dsimp only
      rw [hbuilder]
      split
      next e' =>
        rw [e', hmine]
        exact ⟨fun h => (nomatch h), fun h => absurd (Option.some.inj h).symm hq⟩
      next => exact Iff.rfl
  · refine ⟨(hstate p hne.symm).trans hy.alive, hy.ofile, ?_, fun f hf => absurd hf (Set.notMem_empty f),
      hy.ends, hy.dying, fun q => ?_, fun _ _ hc => (nomatch hc)⟩
    · change update (update y.2.hold p (fds O)) np (fds C) p = fds O
      rw [update_of_ne hne.symm, update_self]
    · dsimp only
      rw [hbuilder]
      refine ⟨fun h => ?_, fun h => (nomatch h)⟩
      split at h
      · cases h
      next e => exact absurd (Option.some.inj ((hy.builder q).mp h)).symm e

theorem fileWp_kfork (memory : Bool) (h : Has p (.idle O) x) : fileWp p (kfork p memory) (fun _ => Idle p) x := by
  refine fwp_seq (fileWp_allocproc h rfl) fun r y hy => ?_
  cases r with
  | none => exact hy.idle
  | some np =>
    obtain ⟨hne, hlt, C, hC, hy⟩ := hy
    dsimp only
    cases memory with
    | false =>
      rw [if_neg Bool.false_ne_true]
      exact fwp_seq (fileWp_freeChild hy rfl hne hC) fun _ y hy => hy.idle
    | true =>
      rw [if_pos rfl]
      have hparent : Has p (.parent O np C) y := by
        unfold Own.parent
        rw [show (fun f => fds O f + fds C f) = fds O from funext fun f => by rw [fds_of_none hC, Nat.add_zero]]
        exact hy
      refine fwp_seq (fileWp_forkFiles hne _ ?_ List.nodup_range hparent) fun _ y hy => ?_
      · intro i hi
        have hi := List.mem_range.mp hi
        exact ⟨hi, hC i hi⟩
      · obtain ⟨C', hy⟩ := hy
        exact fwp_seq (fileWp_startChild hy hne hlt) fun _ y hy => hy.idle

theorem fileWp_closeFiles (l : List Nat) (hl : ∀ fd ∈ l, fd < nofile) (h : Has p (.idle O) x) :
    fileWp p (closeFiles p l) (fun _ y => ∃ O', Has p (.idle O') y ∧ (∀ fd ∈ l, O' fd = none) ∧
      ∀ fd, O fd = none → O' fd = none) x := by
  induction l generalizing x O with
  | nil => exact ⟨O, h, fun fd hfd => absurd hfd List.not_mem_nil, fun _ h => h⟩
  | cons fd rest ih =>
    have hfd := hl fd List.mem_cons_self
    have hrest : ∀ d ∈ rest, d < nofile := fun d hd => hl d (List.mem_cons_of_mem _ hd)
    -- once this descriptor is closed
    have next : ∀ {O₁ : Nat → Option FilePtr} {y : State × Ghost}, Has p (.idle O₁) y → O₁ fd = none →
        (∀ d, O d = none → O₁ d = none) →
        fileWp p (closeFiles p rest) (fun _ y => ∃ O', Has p (.idle O') y ∧
          (∀ d ∈ fd :: rest, O' d = none) ∧ ∀ d, O d = none → O' d = none) y := by
      intro O₁ y hy hnone hmono
      refine fwp_post (fun _ z hz => ?_) (ih hrest hy)
      obtain ⟨O', hO', hclosed, hkept⟩ := hz
      refine ⟨O', hO', fun d hd => ?_, fun d hd => hkept d (hmono d hd)⟩
      obtain e | hd := List.mem_cons.mp hd
      · rw [e]
        exact hkept fd hnone
      · exact hclosed d hd
    refine fwp_seq (fileWp_read h) fun r y hy => ?_
    obtain ⟨hy, hr⟩ := hy
    rw [hy.ofile] at hr
    cases r with
    | none => exact next hy hr.symm fun _ h => h
    | some f =>
      have hO : O fd = some f := hr.symm
      refine fwp_seq (fileWp_fileclose hy rfl (fds_pos hfd hO)) fun _ y hy => ?_
      refine fwp_seq (fileWp_setOfile hy rfl fd none) fun _ y hy => ?_
      have hidle : Has p (.idle (update O fd none)) y :=
        hy.settle rfl (fds_del hfd hO).symm (Set.empty_sdiff _) rfl rfl rfl
      refine next hidle (update_self ..) fun d hd => ?_
      by_cases e : d = fd
      · rw [e, update_self]
      · rw [update_of_ne e]
        exact hd

/-- A process with no descriptors left becomes a zombie. -/
theorem fileWp_zombie (h : Has p (.idle O) x) (hO : ∀ fd < nofile, O fd = none) :
    fileWp p (.update fun s => s.setState p .zombie) (fun _ => Idle p) x := by
  refine fwp_update fun y hR => ?_
  have hy := hR.1.keeps _ h
  have hstate : ∀ q, q ≠ p → (y.1.setState p .zombie).state q = y.1.state q := by
    intro q hq
    exact update_of_ne hq _ _
  have hself : (y.1.setState p .zombie).state p = .zombie := update_self ..
  have hnot : y.2.builder p = none := hR.2.not_built (by rw [hy.alive]; exact fun h => nomatch h)
  refine ⟨y.2, fun hy' => ⟨⟨⟨hy'.refs.ref, hy'.refs.free⟩, ⟨hy'.pipes.oneWay, hy'.pipes.ends,
    hy'.pipes.dying⟩, ⟨?_, ?_, ?_, ?_⟩⟩, fun q hq => ?_⟩, fun halive => ?_⟩
  · intro q hq
    by_cases e : q = p
    · rw [e, hself]
      exact fun h => nomatch h
    · rw [hstate q e]
      exact hy'.slots.bound q hq
  · intro q hq
    by_cases e : q = p
    · subst e
      refine ⟨fun f => ?_, fun e => ?_, fun pg hd => ?_, fun q' hb => ?_⟩
      · rw [hy.hold]
        exact fds_of_none hO f
      · rw [hy.ends]
        rfl
      · cases (hy.dying pg).mp hd
      · cases (hy.builder q').mp hb
    · rw [hstate q e] at hq
      exact hy'.slots.empty q hq
  · intro q hq
    by_cases e : q = p
    · rw [e]
      change ∀ fd < nofile, y.1.ofile p fd = none
      rw [hy.ofile]
      exact hO
    · rw [hstate q e] at hq
      exact hy'.slots.clear q hq
  · intro q
    by_cases e : q = p
    · rw [e, hself]
      exact ⟨fun h => absurd hnot h, fun h => (nomatch h)⟩
    · rw [hstate q e]
      exact hy'.slots.built q
  · have hne : ∀ q', q' = q ∨ y.2.builder q' = some q → q' ≠ p := by
      intro q' hq' e
      obtain h | h := hq'
      · exact hq (h.symm.trans e)
      · rw [e, hnot] at h
        cases h
    exact .spared (fun q' hq' => hstate q' (hne q' hq')) (fun _ _ => rfl) rfl rfl (fun _ => Iff.rfl)
      (fun _ => Iff.rfl) fun _ _ _ hnew => hnew
  · rw [hself] at halive
    cases halive

theorem fileWp_kexit (h : Has p (.idle O) x) : fileWp p (kexit p) (fun _ => Idle p) x := by
  refine fwp_seq (fileWp_closeFiles _ (fun fd hfd => List.mem_range.mp hfd) h) fun _ y hy => ?_
  obtain ⟨O', hy, hclosed, _⟩ := hy
  refine fwp_seq (fileWp_zombie hy fun fd hfd => hclosed fd (List.mem_range.mpr hfd)) fun _ y hy => hy

theorem fileWp_reap (np : ProcPtr) (h : Has p (.idle O) x) : fileWp p (reap np) (fun _ => Idle p) x := by
  refine fwp_seq (M := fun _ => Idle p) (fwp_await fun y hR hen => ?_) fun _ y hy => hy
  have hy := hR.1.keeps _ h
  have hz : y.1.state np = .zombie := by simpa using hen
  have hne : np ≠ p := by
    intro e
    rw [e, hy.alive] at hz
    cases hz
  have hnot : y.2.builder np = none := hR.2.not_built (by rw [hz]; exact fun h => nomatch h)
  have hsame : y.2.setBuilder np none = y.2 := by
    unfold Ghost.setBuilder
    rw [← hnot, update_eq_self]
  have hstep : FileStep p y (y.1.setState np .unused, y.2.setBuilder np none) :=
    FileStep.slot hy ?_ ?_ ?_ rfl ?_
  · rw [hsame] at hstep
    refine ⟨y.2, hstep, fun _ => ⟨O, ?_, hy.ofile, hy.hold, hy.fresh, hy.ends, hy.dying, hy.builder,
      fun _ _ hc => (nomatch hc)⟩⟩
    exact (update_of_ne hne.symm _ _).trans hy.alive
  · rw [hz]
    exact fun h => nomatch h
  · exact fun h => nomatch h
  · intro q hq
    rw [hnot] at hq
    cases hq
  · exact fun _ => hR.2.slots.clear np (.inr hz)

end Process

/-! ## The system -/

def anyRun : Label ProcPtr Call Err Int → State → State → Prop := fun _ _ _ => True

theorem fileWp_prog (k : Call) (h : Has p (.idle O) x) : fileWp p (k.prog p) (fun _ => Idle p) x := by
  cases k with
  | «open» omode found => exact fileWp_sysOpen omode found h
  | dup fd => exact fileWp_sysDup fd h
  | close fd => exact fileWp_sysClose fd h
  | pipe mem copied => exact fileWp_sysPipe mem copied h
  | fork memory => exact fileWp_kfork memory h
  | exit => exact fileWp_kexit h
  | wait np => exact fileWp_reap np h

def haunted : Machine.Haunted system anyRun Ghost where
  R := Others
  I := Idle
  Tot := Exact
  bad e := ∃ m, e = .panic m
  refl := Others.refl
  trans := Others.trans
  stable := Others.stable
  call := by
    intro p k x _ hready _ hI
    obtain ⟨o, ho⟩ := hI hready.2
    refine fwp_mono (fun _ _ h => h) (fun e y he => ?_) (fileWp_prog k ho)
    obtain ⟨⟨c, hc⟩, hidle⟩ := he
    refine ⟨fun hbad => ?_, fun _ => hidle⟩
    obtain ⟨m, hm⟩ := hbad
    rw [hc] at hm
    cases hm
  user := by
    intro p x t _ hu _ hI
    have hu : t = x.1 := hu
    subst hu
    exact ⟨x.2, FileStep.refl p x, hI⟩

theorem boot_exact : Exact (boot, {}) := by
  have hstate : ∀ p, boot.state p ≠ .runnable → boot.state p = .unused := by
    intro p hp
    change (if p = 0 then ProcState.runnable else .unused) = .unused
    change (if p = 0 then ProcState.runnable else .unused) ≠ .runnable at hp
    split at hp
    next => exact absurd rfl hp
    next e => rw [if_neg e]
  refine ⟨⟨fun f => ?_, fun _ _ => rfl⟩, ⟨fun f hf => (nomatch hf), fun e => ?_, fun pg p hd => (nomatch hd)⟩,
    ⟨fun p hp => ?_, fun p _ => ⟨fun _ => rfl, fun _ => rfl, fun _ h => (nomatch h), fun _ h => (nomatch h)⟩,
      fun _ _ _ _ => rfl, fun p => ⟨fun h => absurd rfl h, fun h => ?_⟩⟩⟩
  · simp [Ghost.held, boot]
  · have hfiles : boot.files e = 0 := by
      refine Finset.sum_eq_zero fun f _ => if_neg fun h => ?_
      cases h.1
    have hloose : ({} : Ghost).loose e = 0 := by simp [Ghost.loose]
    rw [hfiles, hloose]
    rfl
  · have e : p ≠ 0 := Nat.ne_of_gt (Nat.lt_of_lt_of_le (by decide) hp)
    change (if p = 0 then ProcState.runnable else .unused) ≠ .runnable
    rw [if_neg e]
    exact fun h => nomatch h
  · by_cases hr : boot.state p = .runnable
    · rw [hr] at h
      cases h
    · rw [hstate p hr] at h
      cases h

theorem boot_idle (p : ProcPtr) : Idle p (boot, {}) := by
  intro halive
  refine ⟨fun _ => none, halive, rfl, ?_, fun f hf => absurd hf (Set.notMem_empty f), rfl,
    fun _ => ⟨fun h => (nomatch h), fun h => (nomatch h)⟩,
    fun _ => ⟨fun h => (nomatch h), fun h => (nomatch h)⟩, fun _ _ h => (nomatch h)⟩
  funext f
  exact (fds_of_none (fun _ _ => rfl) f).symm

section
variable (hx : Exact (s, g)) (hidle : ∀ p, Idle p (s, g))
include hx hidle

/-- While no process is in a call, each accounts for its descriptors. -/
theorem Exact.hold_eq (p : ProcPtr)
    (f : FilePtr) : g.hold p f = fds (s.ofile p) f := by
  by_cases halive : s.state p = .runnable
  · obtain ⟨o, ho⟩ := hidle p halive
    have hofile : s.ofile p = o := ho.ofile
    rw [hofile]
    exact congrFun ho.hold f
  · rw [(hx.slots.empty p halive).hold f]
    refine (fds_of_none (hx.slots.clear p ?_) f).symm
    cases hst : s.state p with
    | unused => exact .inl rfl
    | zombie => exact .inr rfl
    | runnable => exact absurd hst halive
    | used =>
      -- a slot that is being filled is in the hands of a process that is not idle
      obtain ⟨q, hq⟩ := Option.ne_none_iff_exists'.mp ((hx.slots.built p).mpr hst)
      by_cases hqa : s.state q = .runnable
      · obtain ⟨o, ho⟩ := hidle q hqa
        cases (ho.builder p).mp hq
      · exact absurd hq ((hx.slots.empty q hqa).builder p)

theorem Exact.loose_eq (e : Page × Bool) : g.loose e = 0 := by
  refine Finset.sum_eq_zero fun p _ => ?_
  by_cases halive : s.state p = .runnable
  · obtain ⟨o, ho⟩ := hidle p halive
    exact congrFun ho.ends e
  · exact (hx.slots.empty p halive).ends e

/-- An end of a pipe is open exactly when there is a file for it. -/
theorem Exact.end_iff {pi : Page}
    {x : Ends} (hpi : s.pipe pi = some x) (w : Bool) :
    x.isOpen w = true ↔ ∃ f, (s.file f).type = .pipe ∧ (s.file f).pipe = pi ∧ (s.file f).writable = w := by
  have hends := hx.pipes.ends (pi, w)
  have hloose := hx.loose_eq hidle (pi, w)
  have hopen : s.openEnd (pi, w) = if x.isOpen w then 1 else 0 := by
    unfold State.openEnd Ends.number
    dsimp only
    rw [hpi]
  dsimp only at hends hloose
  rw [hopen, hloose, Nat.add_zero] at hends
  constructor
  · intro h
    rw [if_pos h] at hends
    by_contra hnone
    have hzero : s.files (pi, w) = 0 := by
      refine Finset.sum_eq_zero fun f _ => if_neg fun hf => hnone ⟨f, hf⟩
    omega
  · intro h
    obtain ⟨f, hf⟩ := h
    have hle : (if isEnd (s.file f) (pi, w) then 1 else 0) ≤ s.files (pi, w) :=
      Finset.single_le_sum (f := fun f => if isEnd (s.file f) (pi, w) then 1 else 0)
        (fun _ _ => Nat.zero_le _) (Finset.mem_univ f)
    rw [if_pos (show isEnd (s.file f) (pi, w) from hf)] at hle
    by_contra hc
    rw [if_neg hc] at hends
    omega
end

/-- **Open files are counted exactly.** In every run of any number of processes a file that nobody
refers to has no type, and neither `filedup` nor `fileclose` panics. While no call is in progress,
the reference count of a file is the number of descriptors that point to it, and the flags of a pipe
tell which of its ends have a file. -/
theorem file_refs_exact {c : Sys} (hr : system.Run anyRun ⟨boot, fun _ => none⟩ c) :
    (∀ f, (c.state.file f).ref = 0 → (c.state.file f).type = .none) ∧
    (∀ p en upd next m, c.run p = some (.act en upd next) → en c.state = true →
      next c.state ≠ .fail (.panic m)) ∧
    ((∀ p, c.run p = none) →
      (∀ f, (c.state.file f).ref = ((∑ p ∈ Finset.range nproc, fds (c.state.ofile p) f : Nat) : Int)) ∧
      ∀ pi x, c.state.pipe pi = some x →
        (x.readopen = true ↔ ∃ f, (c.state.file f).type = .pipe ∧ (c.state.file f).pipe = pi ∧
          (c.state.file f).readable = true) ∧
        (x.writeopen = true ↔ ∃ f, (c.state.file f).type = .pipe ∧ (c.state.file f).pipe = pi ∧
          (c.state.file f).writable = true)) := by
  have hidle₀ : ∀ p, (⟨boot, fun _ => none⟩ : Sys).run p = none := fun _ => rfl
  obtain ⟨g, hx, hlocal⟩ := haunted.sound hidle₀ boot_idle boot_exact hr
  refine ⟨hx.refs.free, fun p en upd next m hrun hen he => ?_, fun hnone => ?_⟩
  · exact haunted.not_bad hidle₀ boot_idle boot_exact hr hrun hen he ⟨m, rfl⟩
  have hidle : ∀ p, Idle p (c.state, g) := by
    intro p
    have h := hlocal p
    rw [hnone p] at h
    exact h
  refine ⟨fun f => ?_, fun pi x hpi => ⟨?_, ?_⟩⟩
  · rw [hx.refs.ref f]
    unfold Ghost.held
    rw [Finset.sum_congr rfl fun p _ => hx.hold_eq hidle p f]
  · refine (hx.end_iff hidle hpi false).trans (exists_congr fun f => ?_)
    refine and_congr_right fun ht => and_congr_right fun _ => ?_
    rw [hx.pipes.oneWay f ht]
    simp
  · exact hx.end_iff hidle hpi true

/-- A process makes a pipe and forks, and its child closes the reading end. -/
theorem file_refs_exact_pipe : ∃ c : Sys, system.Run anyRun ⟨boot, fun _ => none⟩ c ∧
    (c.state.file 0).ref = 1 ∧ (c.state.file 1).ref = 2 ∧
    ((∑ p ∈ Finset.range nproc, fds (c.state.ofile p) 1 : Nat) : Int) = 2 := by
  have hval : (system.sequence (fun p _ s => decide (p < nproc) && s.state p == .runnable) (fun _ _ => true)
      [(0, .pipe (some 7) true), (0, .fork true), (1, .close 0)] boot).map
      (fun s => ((s.file 0).ref, (s.file 1).ref)) = some (1, 2) := by decide +kernel
  obtain ⟨t, ht, hv⟩ := Option.map_eq_some_iff.mp hval
  have hrun : system.Run anyRun ⟨boot, fun _ => none⟩ ⟨t, fun _ => none⟩ := by
    refine Machine.Run.sequence (fun p k s hok => ?_) (fun _ _ _ _ => trivial) (fun _ _ _ => trivial) ht
    rw [Bool.and_eq_true, decide_eq_true_eq, beq_iff_eq] at hok
    exact ⟨hok, trivial⟩
  obtain ⟨h0, h1⟩ := Prod.mk.inj hv
  refine ⟨_, hrun, h0, h1, ?_⟩
  rw [← ((file_refs_exact hrun).2.2 fun _ => rfl).1 1]
  exact h1

end Txv6.Ftable
