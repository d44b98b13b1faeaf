import Txv6.TxLayer.Ok
import Txv6.Image

/-! # Transactions are serializable in commit order

The transaction layer refines the transactions over owned objects of
`Txv6.Lib.Ownership`: the owner of an object is its `xobj.writer`, which `txshadow` sets
and nothing resets, and the name of a transaction is the address of its page.
-/
namespace Txv6
open Lib Txv6.Lib.Ownership Function
open Kernel (setPage endTx shadows)

variable {x : Header} {k k' : Kernel} {i : Nat} {o : Option Page} {a pg : Page} {r : Role}
  {f : Transaction → Transaction} {e : WorksetEntry}

namespace TxWorld
variable {w w' : TxWorld} {p q : ProcPtr} {s s' : State Header (Option Payload) Page}

/-- The abstract state that a world stands for. -/
structure Sim (w : TxWorld) (s : State Header (Option Payload) Page) : Prop where
  stable : ∀ h, s.stable h = w.k.stable h
  owner : ∀ h, s.owner h = w.k.writer h
  hist : s.hist = w.hist
  live : ∀ p a, (w.k.proc p).tx = some a →
    s.work a = w.work p ∧ s.first a = w.first p ∧ s.pend a = w.pend p
  dead : ∀ a, (∀ p, (w.k.proc p).tx ≠ some a) →
    (∀ h, s.work a h = none) ∧ (∀ h, s.first a h = none) ∧ ∀ h, s.pend a h = none

/-! ## Copies depend on the pages that hold them -/

theorem stable_congr {h : Header} (hd : k'.dataPtr h = k.dataPtr h)
    (hheap : ∀ pg, k.dataPtr h = some pg → (k'.heap pg).payload h = (k.heap pg).payload h) :
    k'.stable h = k.stable h := by
  unfold Kernel.stable
  rw [hd]
  cases hp : k.dataPtr h with
  | none => rfl
  | some pg => exact congrArg some (hheap pg hp)

theorem shadows_congr {ws : List WorksetEntry}
    (hheap : ∀ e ∈ ws, (k'.heap e.shadowData).payload e.header = (k.heap e.shadowData).payload e.header) :
    k'.shadows ws = k.shadows ws := by
  funext h
  unfold shadows
  cases he : entryOf ws h with
  | none => rfl
  | some e =>
    have hmem := List.mem_of_find?_eq_some he
    have hhead : e.header = h := by simpa using List.find?_some he
    subst hhead
    exact congrArg (fun x => some (some x)) (hheap e hmem)

/-- What concerns process `q` is as before, the contents of its shadows included. -/
structure SameData (w w' : TxWorld) (q : ProcPtr) : Prop extends Same w w' q where
  first : w'.first q = w.first q
  heap : ∀ e ∈ w.entries q,
    (w'.k.heap e.shadowData).payload e.header = (w.k.heap e.shadowData).payload e.header

theorem SameData.shadows_eq (h : SameData w w' q) :
    w'.k.shadows (w'.entries q) = w.k.shadows (w.entries q) := by
  rw [entries_congr h.phase h.txOf]
  exact shadows_congr h.heap

theorem SameData.work_eq (h : SameData w w' q) : w'.work q = w.work q := by
  unfold work
  rw [h.phase, h.shadows_eq]

theorem SameData.pend_eq (h : SameData w w' q) : w'.pend q = w.pend q := by
  unfold pend
  rw [h.phase, h.shadows_eq]

/-! ## Steps of a process with a transaction -/

/-- The step of one process on the abstract side. -/
theorem Sim.own (h : w.Ok) (hs : Sim w s) (ha : (w.k.proc p).tx = some a)
    (hproc : w'.k.proc = w.k.proc) (hsame : ∀ q, q ≠ p → SameData w w' q)
    (hstable : ∀ x, s'.stable x = w'.k.stable x) (howner : ∀ x, s'.owner x = w'.k.writer x)
    (hhist : s'.hist = w'.hist) (hwork : s'.work = update s.work a (w'.work p))
    (hfirst : s'.first = update s.first a (w'.first p))
    (hpend : s'.pend = update s.pend a (w'.pend p)) : Sim w' s' where
  stable := hstable
  owner := howner
  hist := hhist
  live q b hb := by
    rw [hproc] at hb
    rw [hwork, hfirst, hpend]
    by_cases e : q = p
    · subst e
      rw [ha] at hb
      cases hb
      simp
    · have hba : b ≠ a := by
        rintro rfl
        exact e (h.tx_inj hb ha)
      obtain ⟨hw, hf, hp⟩ := hs.live q b hb
      have hd := hsame q e
      simp only [update_of_ne hba]
      rw [hd.work_eq, hd.first, hd.pend_eq]
      exact ⟨hw, hf, hp⟩
  dead b hb := by
    have hba : b ≠ a := by
      rintro rfl
      exact hb p (by rw [hproc, ha])
    rw [hproc] at hb
    rw [hwork, hfirst, hpend]
    simp only [update_of_ne hba]
    exact hs.dead b hb

theorem pend_user (h : w.phase p = .user) : w.pend p = fun _ => none := by
  unfold pend
  rw [h]

theorem work_user (h : w.phase p = .user) : w.work p = w.k.shadows (w.entries p) := by
  unfold work
  rw [h]

theorem shadows_nil (k : Kernel) : k.shadows [] = fun _ => none := rfl

theorem Sim.begin (h : w.Ok) (hs : Sim w s) (hb : BeginResult w.k w'.k p a pg) (huser : w.phase p = .user)
    (hphase : w'.phase = w.phase) (hfirst : w'.first = w.clearFirst p) (hhist : w'.hist = w.hist) :
    ∃ s', Ownership.Step s s' ∧ Sim w' s' := by
  have huser' : w'.phase p = .user := by rw [hphase, huser]
  have hnil : w'.entries p = [] := entries_user_nil huser' (by rw [hb.txOf])
  obtain ⟨hw, hf, hp⟩ := hs.live p a hb.ptr
  refine ⟨_, Ownership.Step.drop a fun o => by rw [hp, pend_user huser], ?_⟩
  refine hs.own h hb.ptr hb.proc (fun q hq => ?_) (fun x => ?_) (fun x => ?_) ?_ ?_ ?_ ?_
  · refine ⟨begin_same h hb hphase q hq, by rw [hfirst]; simp [clearFirst, update, hq],
      fun e he => hb.heap _ _ ?_⟩
    exact h.pages.notFree ((holds_shadow (h.sorted q)).mpr ⟨e, he, rfl, rfl⟩)
  · refine (hs.stable x).trans (stable_congr (hb.dataPtr x) fun y hy => hb.heap y x ?_).symm
    exact h.pages.notFree (show w.holds (.data x) = some y from hy)
  · rw [hb.writer]
    exact hs.owner x
  · rw [hhist]
    exact hs.hist
  · rw [work_user huser', hnil, shadows_nil]
  · rw [hfirst]
    simp [clearFirst]
  · rw [pend_user huser', ← pend_user huser, ← hp]
    simp

variable {init : Header → Option Payload}

/-- Objects that are not in the workset have not been looked at. -/
theorem Sim.first_none (hs : Sim w s) (hi : Inv init s) (ha : (w.k.proc p).tx = some a)
    : w.first p x = none ↔ w.work p x = none := by
  obtain ⟨hw, hf, _⟩ := hs.live p a ha
  rw [← hw, ← hf]
  exact hi.first_work

theorem Sim.grant {src : Page} (h : w.Ok) (hs : Sim w s)
    (hi : Inv init s) (hg : GrantResult w.k w'.k p a pg src x) (huser : w.phase p = .user)
    (hact : w.k.txActive p = true) (ho : o ≠ none) (hphase : w'.phase = w.phase)
    (hfirst : w'.first = update w.first p (w.firstAfter p x o))
    (hhist : w'.hist = w.hist) : ∃ s', Ownership.Step s s' ∧ Sim w' s' := by
  have huser' : w'.phase p = .user := by rw [hphase, huser]
  obtain ⟨hw, hf, hp⟩ := hs.live p a hg.ptr
  obtain ⟨ro, hentry⟩ := grant_entryOf h hg huser hphase hact
  have hnew : w.work p x = none := by
    rw [work_user huser, entries_user huser hact, txOf_eq hg.ptr]
    have : entryOf (w.k.tx a).workset x = none := by
      refine List.find?_eq_none.mpr fun e he hx => hg.fresh ⟨e, he, ?_⟩
      simpa using hx
    simp [shadows, this]
  have hsrc : src ≠ pg := by
    rintro rfl
    exact h.pages.notFree (show w.holds (.data x) = some src from hg.source)
      (by rw [hg.page]; exact List.mem_cons_self)
  -- shadow pages in use are not the new one
  have hne : ∀ q, ∀ e ∈ w.entries q, e.shadowData ≠ pg := by
    intro q e he heq
    refine h.pages.notFree ((holds_shadow (h.sorted q)).mpr ⟨e, he, rfl, heq⟩) ?_
    rw [hg.page]
    exact List.mem_cons_self
  have hstable : w.k.stable x = some ((w'.k.heap pg).payload x) := by
    rw [hg.copy hsrc]
    simp [Kernel.stable, hg.source]
  have hwork' : w'.work p = update (w.work p) x (some (w.k.stable x)) := by
    rw [work_user huser', work_user huser]
    funext y
    by_cases hy : y = x
    · subst hy
      simp [shadows, hentry, hstable]
    · rw [update_of_ne hy]
      unfold shadows
      rw [hentry, if_neg hy]
      cases he : entryOf (w.entries p) y with
      | none => rfl
      | some e =>
        have := hne p e (List.mem_of_find?_eq_some he)
        simp [hg.heap _ this]
  refine ⟨_, Ownership.Step.shadow a x (fun y => by rw [hp, pend_user huser])
    (by rw [hs.owner]; exact hg.owner) (by rw [hw, hnew]), ?_⟩
  refine hs.own h hg.ptr hg.proc (fun q hq => ?_) (fun y => ?_) (fun y => ?_) ?_ ?_ ?_ ?_
  · refine ⟨grant_same h hg hphase q hq, by rw [hfirst]; simp [update, hq], fun e he => ?_⟩
    rw [hg.heap _ (hne q e he)]
  · refine (hs.stable y).trans (stable_congr (hg.dataPtr y) fun z hz => ?_).symm
    have : z ≠ pg := by
      rintro rfl
      exact h.pages.notFree (show w.holds (.data y) = some z from hz)
        (by rw [hg.page]; exact List.mem_cons_self)
    rw [hg.heap _ this]
  · rw [hg.writer]
    by_cases hy : y = x
    · subst hy; simp
    · simpa [update, hy] using hs.owner y
  · rw [hhist]
    exact hs.hist
  · rw [hwork', hw, hs.stable]
  · rw [hfirst]
    have hnone : w.first p x = none := (hs.first_none hi hg.ptr).mpr hnew
    simp only [update_self, firstAfter, hnone, ho, ne_eq, not_false_eq_true, and_self, if_true]
    rw [hf, hs.stable]
  · rw [pend_user huser', ← pend_user huser, ← hp]
    simp

/-- A write to a shadow changes that copy and nothing else. -/
theorem Sim.write {f : PageData → PageData} (h : w.Ok) (hs : Sim w s) (ha : (w.k.proc p).tx = some a)
    (huser : w.phase p = .user) (hact : w.k.txActive p = true) (he : e ∈ (w.k.txOf p).workset)
    (hk : w'.k = w.k.setPage e.shadowData f) (hphase : w'.phase = w.phase) (hfirst : w'.first = w.first)
    (hhist : w'.hist = w.hist) : ∃ s', Ownership.Step s s' ∧ Sim w' s' := by
  have huser' : w'.phase p = .user := by rw [hphase, huser]
  obtain ⟨hw, hf, hp⟩ := hs.live p a ha
  have htxOf : ∀ q, w'.k.txOf q = w.k.txOf q := fun q => by rw [hk]; rfl
  have hsame : ∀ q, Same w w' q := fun q => ⟨by rw [hk]; rfl, htxOf q, by rw [hphase]⟩
  have hmem : e ∈ w.entries p := by rw [entries_user huser hact]; exact he
  have hheld : w.holds (.shadow p e.header) = some e.shadowData :=
    (holds_shadow (h.sorted p)).mpr ⟨e, hmem, rfl, rfl⟩
  have hheap : ∀ y, y ≠ e.shadowData → w'.k.heap y = w.k.heap y := by
    intro y hy
    rw [hk]
    simp [setPage, update, hy]
  have hent : w'.entries p = w.entries p := entries_congr (hsame p).phase (htxOf p)
  have hself : entryOf (w.entries p) e.header = some e :=
    (entryOf_eq_some (entries_sorted (h.sorted p))).mpr ⟨hmem, rfl⟩
  -- another shadow page is another page
  have hne : ∀ q, ∀ e' ∈ w.entries q, q ≠ p ∨ e'.header ≠ e.header → e'.shadowData ≠ e.shadowData := by
    intro q e' he' hor heq
    have hheld' := (holds_shadow (h.sorted q)).mpr ⟨e', he', rfl, heq⟩
    have := Role.shadow.inj (h.pages.unique hheld' hheld)
    rcases hor with hq | hh
    · exact hq this.1
    · exact hh this.2
  have hwork' : w'.work p = update (w.work p) e.header
      (some (some ((w'.k.heap e.shadowData).payload e.header))) := by
    rw [work_user huser', hent, work_user huser]
    funext y
    by_cases hy : y = e.header
    · subst hy
      simp [shadows, hself]
    · rw [update_of_ne hy]
      unfold shadows
      cases hey : entryOf (w.entries p) y with
      | none => rfl
      | some e' =>
        have hhead : e'.header = y := by simpa using List.find?_some hey
        have := hne p e' (List.mem_of_find?_eq_some hey) (.inr (by rw [hhead]; exact hy))
        simp [hheap _ this]
  refine ⟨_, Ownership.Step.write a e.header (some ((w'.k.heap e.shadowData).payload e.header)) ?_, ?_⟩
  · rw [hw, work_user huser]
    simp [shadows, hself]
  refine hs.own h ha (by rw [hk]; rfl) (fun q hq => ?_) (fun y => ?_) (fun y => ?_) ?_ ?_ ?_ ?_
  · refine ⟨hsame q, by rw [hfirst], fun e' he' => ?_⟩
    rw [hheap _ (hne q e' he' (.inl hq))]
  · refine (hs.stable y).trans (stable_congr (by rw [hk]; rfl) fun z hz => ?_).symm
    have : z ≠ e.shadowData := by
      rintro rfl
      have := h.pages.unique (show w.holds (.data y) = some e.shadowData from hz) hheld
      cases this
    rw [hheap _ this]
  · rw [hk]
    exact hs.owner y
  · rw [hhist]
    exact hs.hist
  · rw [hwork', hw]
  · rw [hfirst, ← hf]
    simp
  · rw [pend_user huser', ← pend_user huser, ← hp]
    simp

/-- Steps of one process that change no copy: the abstract state is as it was, but for
the transaction of the process. -/
theorem Sim.ofSetTx (h : w.Ok) (hs : Sim w s) (ha : (w.k.proc p).tx = some a) (hk : w'.k = w.k.setTx a f)
    (hphase : ∀ q, q ≠ p → w'.phase q = w.phase q) (hfirst : ∀ q, q ≠ p → w'.first q = w.first q)
    (hstable : s'.stable = s.stable) (howner : s'.owner = s.owner) (hhist : s'.hist = w'.hist)
    (hwork : s'.work = update s.work a (w'.work p))
    (hfirst' : s'.first = update s.first a (w'.first p))
    (hpend : s'.pend = update s.pend a (w'.pend p)) : Sim w' s' := by
  refine hs.own h ha (by rw [hk]; rfl) (fun q hq => ?_) (fun y => ?_) (fun y => ?_) hhist hwork
    hfirst' hpend
  · exact ⟨setTx_same h ha hk hphase q hq, hfirst q hq, fun e _ => by rw [hk]; rfl⟩
  · rw [hstable, hs.stable, hk]
    rfl
  · rw [howner, hs.owner, hk]
    rfl

/-! ## Commit -/

theorem work_swapping_succ (h : w.phase p = .swapping (i + 1)) : w.work p = fun _ => none := by
  unfold work
  rw [h]
  rfl

theorem work_swapping_zero (h : w.phase p = .swapping 0) : w.work p = w.k.shadows (w.entries p) := by
  unfold work
  rw [h]
  rfl

theorem pend_swapping_zero (h : w.phase p = .swapping 0) : w.pend p = fun _ => none := by
  unfold pend
  rw [h]

theorem pend_swapping_succ (h : w.phase p = .swapping (i + 1)) : w.pend p = w.k.shadows (w.entries p) := by
  unfold pend
  rw [h]

theorem work_freeing (h : w.phase p = .freeing i) : w.work p = fun _ => none := by
  unfold work
  rw [h]

theorem pend_freeing (h : w.phase p = .freeing i) : w.pend p = fun _ => none := by
  unfold pend
  rw [h]

/-- The abstract state at the point where a commit that has done `i` swaps goes on: the
commit is recorded, and the objects from the `i`-th on are to be installed. -/
theorem Sim.recorded (hs : Sim w s) (hi : Inv init s)
    (ha : (w.k.proc p).tx = some a) (hph : w.phase p = .swapping i) :
    ∃ s', Relation.ReflTransGen Ownership.Step s s' ∧ s'.stable = s.stable ∧ s'.owner = s.owner ∧
      s'.hist = w.histAfter p i ∧ s'.work = update s.work a (fun _ => none) ∧
      s'.first = update s.first a (fun _ => none) ∧
      s'.pend = update s.pend a (w.k.shadows (w.entries p)) := by
  obtain ⟨hw, hf, hp⟩ := hs.live p a ha
  cases i with
  | zero =>
    have hnone : ∀ o, s.pend a o = none := fun o => by rw [hp, pend_swapping_zero hph]
    refine ⟨_, .single (Ownership.Step.commit a hnone), rfl, rfl, ?_, rfl, rfl, ?_⟩
    · simp [histAfter, hs.hist, hw, hf]
    · rw [hw, work_swapping_zero hph]
  | succ i =>
    have hnone : s.work a = fun _ => none := by rw [hw, work_swapping_succ hph]
    have hfnone : s.first a = fun _ => none := by
      funext o
      exact hi.first_work.mpr (by rw [hnone])
    refine ⟨s, .refl, rfl, rfl, ?_, ?_, ?_, ?_⟩
    · simp [histAfter, hs.hist]
    · rw [← hnone]; simp
    · rw [← hfnone]; simp
    · rw [← pend_swapping_succ hph, ← hp]; simp

section
variable (h : w.Ok) (hs : Sim w s)
include h hs

theorem Sim.swap {d : Page} (hi : Inv init s) (hph : w.phase p = .swapping i)
    (he : (w.k.txOf p).workset[i]? = some e) (hd : w.k.dataPtr e.header = some d)
    (hk : w'.k = (w.k.kfree d).setDataPtr e.shadowData e.header)
    (hphase : w'.phase = w.setPhase p (.swapping (i + 1))) (hfirst : w'.first = w.clearFirst p)
    (hhist : w'.hist = w.histAfter p i) : ∃ s', Relation.ReflTransGen Ownership.Step s s' ∧ Sim w' s' := by
  obtain ⟨a, ha⟩ := Option.ne_none_iff_exists'.mp (h.busy p (by rw [hph]; simp))
  obtain ⟨s₁, hrun, hst, how, hhi, hwo, hfi, hpe⟩ := hs.recorded hi ha hph
  have hproc : w'.k.proc = w.k.proc := by rw [hk]; simp [Kernel.kfree, setPage]
  have htxOf : ∀ q, w'.k.txOf q = w.k.txOf q := fun q => by
    unfold Kernel.txOf
    rw [hk]
    simp [Kernel.kfree, setPage]
  have hph' : w'.phase p = .swapping (i + 1) := by rw [hphase]; simp [setPhase]
  have hheap : ∀ y, y ≠ d → w'.k.heap y = w.k.heap y := by
    intro y hy
    rw [hk]
    simp [Kernel.kfree, setPage, update, hy]
  have hdata : w.holds (.data e.header) = some d := hd
  have hent : w.entries p = e :: w'.entries p := by
    rw [entries_swapping hph, entries_swapping hph', htxOf, drop_eq_cons he]
  have hself : entryOf (w.entries p) e.header = some e := by
    rw [hent]
    simp [entryOf]
  have hgone : entryOf (w'.entries p) e.header = none := by
    rw [entries_swapping hph', htxOf]
    exact entryOf_drop_succ (h.sorted p) he
  -- shadow pages are not the data page that is freed
  have hne : ∀ q, ∀ e' ∈ w.entries q, e'.shadowData ≠ d := by
    intro q e' he' heq
    have := h.pages.unique ((holds_shadow (h.sorted q)).mpr ⟨e', he', rfl, heq⟩) hdata
    cases this
  have hmem : e ∈ w.entries p := by rw [hent]; exact List.mem_cons_self
  have hpend : s₁.pend a e.header = some (some ((w.k.heap e.shadowData).payload e.header)) := by
    rw [hpe]
    simp [shadows, hself]
  refine ⟨_, hrun.tail (Ownership.Step.install a e.header _ hpend), ?_⟩
  refine hs.own h ha hproc (fun q hq => ?_) (fun y => ?_) (fun y => ?_) ?_ ?_ ?_ ?_
  · refine ⟨⟨by rw [hproc], htxOf q, by rw [hphase]; simp [setPhase, update, hq]⟩,
      by rw [hfirst]; simp [clearFirst, update, hq], fun e' he' => ?_⟩
    rw [hheap _ (hne q e' he')]
  · by_cases hy : y = e.header
    · subst hy
      have hptr : w'.k.dataPtr e.header = some e.shadowData := by
        rw [hk, dataPtr_setDataPtr]
        simp
      simp [Kernel.stable, hptr, hheap _ (hne p e hmem)]
    · have hptr : w'.k.dataPtr y = w.k.dataPtr y := by
        rw [hk, dataPtr_setDataPtr, if_neg hy]
        rfl
      dsimp only
      rw [update_of_ne hy, hst, hs.stable]
      refine (stable_congr hptr fun z hz => ?_).symm
      have : z ≠ d := by
        rintro rfl
        have := h.pages.unique (show w.holds (.data y) = some z from hz) hdata
        exact hy (Role.data.inj this)
      rw [hheap _ this]
  · rw [how, hs.owner, hk, writer_setDataPtr]
    rfl
  · rw [hhist]
    exact hhi
  · rw [hwo, work_swapping_succ hph']
  · rw [hfi, hfirst]
    simp [clearFirst]
  · rw [hpe, pend_swapping_succ hph']
    simp only [update_self, update_idem]
    congr 1
    funext y
    by_cases hy : y = e.header
    · subst hy
      simp [shadows, hgone]
    · have hentry : entryOf (w.entries p) y = entryOf (w'.entries p) y := by
        rw [hent]
        simp [entryOf, Ne.symm hy]
      rw [update_of_ne hy]
      unfold shadows
      rw [hentry]
      cases hey : entryOf (w'.entries p) y with
      | none => rfl
      | some e' =>
        have hmem' : e' ∈ w.entries p := by
          rw [hent]
          exact List.mem_cons_of_mem _ (List.mem_of_find?_eq_some hey)
        simp [hheap _ (hne p e' hmem')]

theorem Sim.commitEnd (hi : Inv init s) (ha : (w.k.proc p).tx = some a)
    (hph : w.phase p = .swapping i) (hend : (w.k.txOf p).workset[i]? = none) (hk : w'.k = w.k.endTx p)
    (hphase : w'.phase = w.setPhase p .user) (hfirst : w'.first = w.clearFirst p)
    (hhist : w'.hist = w.histAfter p i) : ∃ s', Relation.ReflTransGen Ownership.Step s s' ∧ Sim w' s' := by
  obtain ⟨s₁, hrun, hst, how, hhi, hwo, hfi, hpe⟩ := hs.recorded hi ha hph
  have hk' : w'.k = w.k.setTx a fun x => { x with workset := [], kjmpValid := false } := by
    rw [hk, endTx, setTxOf_eq ha]
  have huser : w'.phase p = .user := by rw [hphase]; simp [setPhase]
  have hnil' : w'.entries p = [] := entries_user_nil huser (by rw [hk', txOf_setTx ha])
  have hnil : w.entries p = [] := by
    rw [entries_swapping hph]
    exact List.drop_eq_nil_iff.mpr (List.getElem?_eq_none_iff.mp hend)
  refine ⟨s₁, hrun, hs.ofSetTx h ha hk' (fun q hq => ?_) (fun q hq => ?_) hst how ?_ ?_ ?_ ?_⟩
  · rw [hphase]
    simp [setPhase, update, hq]
  · rw [hfirst]
    simp [clearFirst, update, hq]
  · rw [hhi, hhist]
  · rw [hwo, work_user huser, hnil', shadows_nil]
  · rw [hfi, hfirst]
    simp [clearFirst]
  · rw [hpe, pend_user huser, hnil, shadows_nil]

/-! ## Abort, exit and new processes -/

/-- A step on the own record after which the process has no transaction that runs or
commits, as before. -/
theorem Sim.idle (ha : (w.k.proc p).tx = some a) (hk : w'.k = w.k.setTx a f)
    (hphase : ∀ q, q ≠ p → w'.phase q = w.phase q) (hfirst : w'.first = w.first) (hhist : w'.hist = w.hist)
    (hwork : w'.work p = w.work p) (hpend : w'.pend p = w.pend p) : Sim w' s := by
  obtain ⟨hw, hf, hp⟩ := hs.live p a ha
  refine hs.ofSetTx h ha hk hphase (fun q _ => by rw [hfirst]) rfl rfl (by rw [hhist, hs.hist])
    ?_ ?_ ?_
  · rw [hwork, ← hw]
    simp
  · rw [hfirst, ← hf]
    simp
  · rw [hpend, ← hp]
    simp

/-- The begin of a commit keeps the copies. -/
theorem Sim.commit (ha : (w.k.proc p).tx = some a) (huser : w.phase p = .user)
    (hact : w.k.txActive p = true) (hk : w'.k = w.k.setTx a fun x => { x with status := .committed })
    (hphase : w'.phase = w.setPhase p (.swapping 0)) (hfirst : w'.first = w.first)
    (hhist : w'.hist = w.hist) : w'.Ok ∧ ∃ s', Relation.ReflTransGen Ownership.Step s s' ∧ Sim w' s' := by
  have hph' : w'.phase p = .swapping 0 := by rw [hphase]; simp [setPhase]
  have hother : ∀ q, q ≠ p → w'.phase q = w.phase q := fun q hq => by
    rw [hphase]
    simp [setPhase, update, hq]
  have hent : w'.entries p = w.entries p := by
    rw [entries_swapping hph', entries_user huser hact, hk, txOf_setTx ha]
    rfl
  refine ⟨h.setTx ha hk hother (fun _ => rfl) ?_ fun x e he => by rw [← hent]; exact he, s, .refl, ?_⟩
  · rw [hk, txOf_setTx ha]
    exact h.sorted p
  · refine hs.idle h ha hk hother hfirst hhist ?_ ?_
    · rw [work_swapping_zero hph', work_user huser, hent, hk]
      rfl
    · rw [pend_swapping_zero hph', pend_user huser]

theorem Sim.abort (ha : (w.k.proc p).tx = some a) (huser : w.phase p = .user) (hk : w'.k = w.k.setTx a f)
    (hphase : w'.phase = w.setPhase p (.freeing 0)) (hfirst : w'.first = w.clearFirst p)
    (hhist : w'.hist = w.hist) : ∃ s', Ownership.Step s s' ∧ Sim w' s' := by
  obtain ⟨hw, hf, hp⟩ := hs.live p a ha
  have hph' : w'.phase p = .freeing 0 := by rw [hphase]; simp [setPhase]
  refine ⟨_, Ownership.Step.drop a fun o => by rw [hp, pend_user huser], ?_⟩
  refine hs.ofSetTx h ha hk (fun q hq => ?_) (fun q hq => ?_) rfl rfl (by rw [hhist]; exact hs.hist)
    ?_ ?_ ?_
  · rw [hphase]
    simp [setPhase, update, hq]
  · rw [hfirst]
    simp [clearFirst, update, hq]
  · rw [work_freeing hph']
  · rw [hfirst]
    simp [clearFirst]
  · rw [pend_freeing hph', ← pend_user huser, ← hp]
    simp

theorem Sim.abortEnd (ha : (w.k.proc p).tx = some a) (hph : w.phase p = .freeing i)
    (hk : w'.k = w.k.endTx p) (hphase : w'.phase = w.setPhase p .user) (hfirst : w'.first = w.first)
    (hhist : w'.hist = w.hist) : Sim w' s := by
  have huser : w'.phase p = .user := by rw [hphase]; simp [setPhase]
  have hnil := endTx_entries ha hk hphase
  refine hs.idle h ha (by rw [hk, endTx, setTxOf_eq ha]) (fun q hq => ?_) hfirst hhist ?_ ?_
  · rw [hphase]
    simp [setPhase, update, hq]
  · rw [work_user huser, work_freeing hph, hnil, shadows_nil]
  · rw [pend_user huser, pend_freeing hph]

theorem Sim.free (hph : w.phase p = .freeing i) (he : (w.k.txOf p).workset[i]? = some e)
    (hk : w'.k = w.k.kfree e.shadowData) (hphase : w'.phase = w.setPhase p (.freeing (i + 1)))
    (hfirst : w'.first = w.first) (hhist : w'.hist = w.hist) : Sim w' s := by
  obtain ⟨a, ha⟩ := Option.ne_none_iff_exists'.mp (h.busy p (by rw [hph]; simp))
  obtain ⟨hw, hf, hp⟩ := hs.live p a ha
  have hph' : w'.phase p = .freeing (i + 1) := by rw [hphase]; simp [setPhase]
  have hheap : ∀ y, y ≠ e.shadowData → w'.k.heap y = w.k.heap y := by
    intro y hy
    rw [hk]
    simp [Kernel.kfree, setPage, update, hy]
  have hmem : e ∈ w.entries p := by
    rw [entries_freeing hph, drop_eq_cons he]
    exact List.mem_cons_self
  have hheld : w.holds (.shadow p e.header) = some e.shadowData :=
    (holds_shadow (h.sorted p)).mpr ⟨e, hmem, rfl, rfl⟩
  refine hs.own h ha (by rw [hk]; rfl) (fun q hq => ?_) (fun y => ?_) (fun y => ?_)
    (by rw [hhist, hs.hist]) ?_ ?_ ?_
  · refine ⟨⟨by rw [hk]; rfl, by rw [hk]; rfl, by rw [hphase]; simp [setPhase, update, hq]⟩,
      by rw [hfirst], fun e' he' => ?_⟩
    have : e'.shadowData ≠ e.shadowData := by
      intro heq
      have := h.pages.unique ((holds_shadow (h.sorted q)).mpr ⟨e', he', rfl, heq⟩) hheld
      exact hq (Role.shadow.inj this).1
    rw [hheap _ this]
  · refine (hs.stable y).trans (stable_congr (by rw [hk]; rfl) fun z hz => ?_).symm
    have : z ≠ e.shadowData := by
      rintro rfl
      have := h.pages.unique (show w.holds (.data y) = some e.shadowData from hz) hheld
      cases this
    rw [hheap _ this]
  · rw [hs.owner, hk]
    rfl
  · rw [work_freeing hph', ← work_freeing hph, ← hw]
    simp
  · rw [hfirst, ← hf]
    simp
  · rw [pend_freeing hph', ← pend_freeing hph, ← hp]
    simp
end

/-- The contents of what stays are not in the page of the process that goes. -/
theorem exit_heap (h : w.Ok) (hk : w'.k = w.k.freeproc p) {y : Page}
    (hr : w.holds r = some y) (hne : r ≠ .tx p) : w'.k.heap y = w.k.heap y := by
  rw [hk]
  refine freeproc_heap _ _ _ fun hy => ?_
  exact hne (h.pages.unique hr (show w.holds (.tx p) = some y from hy))

theorem Sim.exit (h : w.Ok) (hs : Sim w s) (huser : w.phase p = .user)
    (hk : w'.k = w.k.freeproc p) (hphase : w'.phase = w.phase) (hfirst : w'.first = w.clearFirst p)
    (hhist : w'.hist = w.hist) : ∃ s', Relation.ReflTransGen Ownership.Step s s' ∧ Sim w' s' := by
  have hnone : (w'.k.proc p).tx = none := by rw [hk]; exact (freeproc_self _ _).1
  have hsame : ∀ q, q ≠ p → SameData w w' q := fun q hq =>
    ⟨exit_same hk hphase q hq, by rw [hfirst]; simp [clearFirst, update, hq],
      fun e he => by
        rw [exit_heap h hk ((holds_shadow (h.sorted q)).mpr ⟨e, he, rfl, rfl⟩) (by simp)]⟩
  have hstable : ∀ y, s.stable y = w'.k.stable y := fun y =>
    (hs.stable y).trans (stable_congr (by rw [hk, freeproc_dataPtr]) fun z hz => by
      rw [exit_heap h hk (show w.holds (.data y) = some z from hz) (by simp)]).symm
  have howner : ∀ y, s.owner y = w'.k.writer y := fun y => by
    rw [hs.owner, hk, freeproc_writer]
  have hlive : ∀ q b, (w'.k.proc q).tx = some b → q ≠ p ∧ (w.k.proc q).tx = some b := by
    intro q b hb
    have hq : q ≠ p := by
      rintro rfl
      rw [hnone] at hb
      cases hb
    exact ⟨hq, (hsame q hq).txPtr ▸ hb⟩
  cases ha : (w.k.proc p).tx with
  | none =>
    refine ⟨s, .refl, hstable, howner, by rw [hhist, hs.hist], fun q b hb => ?_, fun b hb => ?_⟩
    · obtain ⟨hq, hb⟩ := hlive q b hb
      rw [(hsame q hq).work_eq, (hsame q hq).first, (hsame q hq).pend_eq]
      exact hs.live q b hb
    · refine hs.dead b fun q hq => ?_
      by_cases e : q = p
      · subst e
        rw [ha] at hq
        cases hq
      · exact hb q ((hsame q e).txPtr ▸ hq)
  | some a =>
    obtain ⟨hw, hf, hp⟩ := hs.live p a ha
    have hpend : ∀ o, s.pend a o = none := fun o => by rw [hp, pend_user huser]
    refine ⟨_, .single (Ownership.Step.drop a hpend), hstable, howner, by rw [hhist]; exact hs.hist,
      fun q b hb => ?_, fun b hb => ?_⟩
    · obtain ⟨hq, hb⟩ := hlive q b hb
      have hba : b ≠ a := by
        rintro rfl
        exact hq (h.tx_inj hb ha)
      simp only [update_of_ne hba]
      rw [(hsame q hq).work_eq, (hsame q hq).first, (hsame q hq).pend_eq]
      exact hs.live q b hb
    · by_cases hba : b = a
      · subst hba
        simp [hpend]
      · simp only [update_of_ne hba]
        refine hs.dead b fun q hq => ?_
        by_cases e : q = p
        · subst e
          rw [ha] at hq
          cases hq
          exact hba rfl
        · exact hb q ((hsame q e).txPtr ▸ hq)

theorem Sim.alloc (h : w.Ok) (hs : Sim w s) (hr : AllocResult w.k w'.k p) (hphase : w'.phase = w.phase)
    (hfirst : w'.first = w.clearFirst p) (hhist : w'.hist = w.hist) : Sim w' s := by
  have huser : w'.phase p = .user := by rw [hphase]; exact h.user_of_unused hr.unused
  have hnone : (w.k.proc p).tx = none := h.unused p hr.unused
  have hnil : w'.entries p = [] := entries_user_nil huser (by rw [alloc_txOf hr])
  have hsame : ∀ q, q ≠ p → SameData w w' q := fun q hq =>
    ⟨alloc_same h hr hphase q hq, by rw [hfirst]; simp [clearFirst, update, hq],
      fun e he => hr.heap _ _
        (h.pages.notFree ((holds_shadow (h.sorted q)).mpr ⟨e, he, rfl, rfl⟩))⟩
  have hold : ∀ q b, (w.k.proc q).tx = some b → q ≠ p ∧ (w'.k.proc q).tx = some b := by
    intro q b hb
    have hq : q ≠ p := by
      rintro rfl
      rw [hnone] at hb
      cases hb
    exact ⟨hq, by rw [hr.other q hq, hb]⟩
  refine ⟨fun y => ?_, fun y => by rw [hs.owner, hr.writer], by rw [hhist, hs.hist],
    fun q b hb => ?_, fun b hb => ?_⟩
  · exact (hs.stable y).trans (stable_congr (hr.dataPtr y) fun z hz => hr.heap z y
      (h.pages.notFree (show w.holds (.data y) = some z from hz))).symm
  · by_cases e : q = p
    · subst e
      -- the page of the new process was free, and so nobody's transaction
      have hfree : b ∈ w.k.freelist := by
        rcases hr.page with ⟨hnone', _, _⟩ | ⟨a, ha, _, hfree⟩
        · rw [hnone'] at hb
          cases hb
        · rw [ha] at hb
          cases hb
          rw [hfree]
          exact List.mem_cons_self
      obtain ⟨hw, hf, hp⟩ := hs.dead b (h.tx_ne_of_free hfree)
      refine ⟨?_, ?_, ?_⟩
      · rw [work_user huser, hnil, shadows_nil]
        exact funext hw
      · rw [hfirst]
        simpa [clearFirst] using funext hf
      · rw [pend_user huser]
        exact funext hp
    · rw [(hsame q e).work_eq, (hsame q e).first, (hsame q e).pend_eq]
      exact hs.live q b ((hsame q e).txPtr ▸ hb)
  · exact hs.dead b fun q hq => hb q (hold q b hq).2

/-! ## Runs -/

theorem single (h : ∃ s', Ownership.Step s s' ∧ Sim w' s') :
    ∃ s', Relation.ReflTransGen Ownership.Step s s' ∧ Sim w' s' := by
  obtain ⟨s', hstep, hsim⟩ := h
  exact ⟨s', .single hstep, hsim⟩

/-- What `txshadow` does is a grant, or nothing at all. -/
theorem Sim.shadow {ro : Bool} (h : w.Ok) (hs : Sim w s) (hi : Inv init s) (huser : w.phase p = .user)
    (hact : w.k.txActive p = true) (hd : w.k.txdata p x ro = (.ok o, k))
    (hw' : w' = { w with k := k, first := update w.first p (w.firstAfter p x o) }) :
    w'.Ok ∧ ∃ s', Relation.ReflTransGen Ownership.Step s s' ∧ Sim w' s' := by
  obtain ⟨a, ha, hst⟩ := txActive_iff.mp hact
  rw [txdata_eq ha hst] at hd
  have hsort : WsSorted (w.k.tx a).workset := txOf_eq ha ▸ h.sorted p
  have hres := txshadow_result w.k a x ro
  rw [hd] at hres
  have hunchanged : w.firstAfter p x o = w.first p → k = w.k → w' = w := by
    intro hf hk
    rw [hw', hf, hk]
    simp
  cases hres with
  | @found e he hx =>
    have hseen : w.first p x ≠ none := by
      rw [ne_eq, hs.first_none hi ha, work_user huser, entries_user huser hact, txOf_eq ha]
      have : entryOf (w.k.tx a).workset x = some e := (entryOf_eq_some hsort).mpr ⟨he, hx⟩
      simp [shadows, this]
    have := hunchanged (by simp [firstAfter, hseen]) rfl
    subst this
    exact ⟨h, s, .refl, hs⟩
  | refused _ _ =>
    have := hunchanged (by simp [firstAfter]) rfl
    subst this
    exact ⟨h, s, .refl, hs⟩
  | granted hm hfree hsrc =>
    have hg := grantShadow_result ro ha hsort hm hfree hsrc
    subst hw'
    exact ⟨h.grant hg huser rfl hact,
      single (hs.grant h hi hg huser hact (by simp) rfl rfl rfl)⟩

/-- One step of the transaction layer is at most two of the abstract system: a commit
records itself together with its first swap. -/
theorem step (h : w.Ok) (hs : Sim w s) (hi : Inv init s) (hst : Step w w') :
    w'.Ok ∧ ∃ s', Relation.ReflTransGen Ownership.Step s s' ∧ Sim w' s' := by
  cases hst with
  | begin huser hb =>
    obtain ⟨a, pg, hb⟩ := txbegin_result hb
    exact ⟨h.begin hb huser rfl, single (hs.begin h hb huser rfl rfl rfl)⟩
  | shadow huser hact hd => exact hs.shadow h hi huser hact hd rfl
  | @write p e f g huser hact he =>
    obtain ⟨a, ha, _⟩ := txActive_iff.mp hact
    have hk : w.k.writeShadow e f g = w.k.setPage e.shadowData _ := rfl
    exact ⟨h.heap _ _ hk rfl, single (hs.write h ha huser hact he hk rfl rfl rfl)⟩
  | @commit p huser hact =>
    obtain ⟨a, ha, _⟩ := txActive_iff.mp hact
    exact hs.commit h ha huser hact (setTxOf_eq ha) rfl rfl rfl
  | swap hph he hd =>
    obtain ⟨d, hptr, rfl⟩ := swapData_result hd
    exact ⟨h.swap hph he hptr rfl rfl, hs.swap h hi hph he hptr rfl rfl rfl rfl⟩
  | @commitEnd p i hph hend =>
    obtain ⟨a, ha⟩ := Option.ne_none_iff_exists'.mp (h.busy p (by rw [hph]; simp))
    refine ⟨?_, hs.commitEnd h hi ha hph hend rfl rfl rfl rfl⟩
    exact h.endTx ha rfl rfl
  | @abort p huser hact =>
    obtain ⟨a, ha, _⟩ := txActive_iff.mp hact
    have hk := setTxOf_eq (f := fun x => { x with status := .aborted }) ha
    refine ⟨h.setTx ha hk (fun q hq => by simp [setPhase, update, hq]) (fun _ => rfl) ?_
      fun x e he => ?_, single (hs.abort h ha huser hk rfl rfl rfl)⟩
    · rw [hk, txOf_setTx ha]
      exact h.sorted p
    · rw [entries_freeing (i := 0) (by simp [setPhase]), hk, txOf_setTx ha] at he
      rw [entries_user huser hact]
      exact he
  | free hph he => exact ⟨h.free hph he rfl rfl, s, .refl, hs.free h hph he rfl rfl rfl rfl⟩
  | @abortEnd p i hph hend =>
    obtain ⟨a, ha⟩ := Option.ne_none_iff_exists'.mp (h.busy p (by rw [hph]; simp))
    exact ⟨h.endTx ha rfl rfl, s, .refl, hs.abortEnd h ha hph rfl rfl rfl rfl⟩
  | exit huser => exact ⟨h.exit huser rfl rfl, hs.exit h huser rfl rfl rfl rfl⟩
  | alloc hr =>
    have hr := allocproc_result hr
    exact ⟨h.alloc hr rfl, s, .refl, hs.alloc h hr rfl rfl rfl⟩

/-- The small system, before its first transaction. -/
def booted : TxWorld where
  k := Image.booted
  phase _ := .user
  first _ _ := none
  hist := []

/-- Process 0 begins a transaction. -/
def begun : TxWorld := { booted with k := (booted.k.txbegin 0).2, first := booted.clearFirst 0 }

/-- It shadows the inode of the root directory, with the first free page. -/
def shadowed : TxWorld :=
  { begun with
    k := (begun.k.txdata 0 (.inode 0) false).2
    first := Function.update begun.first 0 (begun.firstAfter 0 (.inode 0) (some 401)) }

/-- It commits, up to the loops. -/
def committing : TxWorld :=
  { shadowed with
    k := shadowed.k.setTxOf 0 fun x => { x with status := .committed }
    phase := shadowed.setPhase 0 (.swapping 0) }

end TxWorld
end Txv6
