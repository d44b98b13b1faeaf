import Txv6.Vm.Sbrk

/-! # Lazy growth

Two processes that differ only in how they have grown: one has a page of zeros where the other has a
page below its size that has not been touched. `copyin` and `copyout` cannot tell them apart.
`copyinstr` can: it does not call `vmfault`, so a string that reaches an untouched page cannot be
read, and would end there if the page had been mapped.
-/
namespace Txv6.Vm
open Lib Lib.Prog Function

variable {h : Heap} {n r : Int} {s₁ : State}

/-! ## One process alone -/

/-- The free list is apart from the pages of the process. -/
structure Apart (x : State × Set Page × Set ProcPtr) : Prop where
  nodup : x.1.freelist.Nodup
  apart : ∀ a ∈ x.1.freelist, a ∉ x.2.1
  free : ∀ a ∈ x.1.freelist, x.1.kend ≤ a ∧ a < phystop
  range : ∀ a ∈ x.2.1, x.1.kend ≤ a ∧ a < phystop

/-- Nothing has changed but pages of the thread and free pages. -/
def Spares (x y : State × Set Page × Set ProcPtr) : Prop :=
  ∀ b, b ∉ x.2.1 → b ∉ x.1.freelist → b ∉ y.2.1 ∧ b ∉ y.1.freelist ∧ y.1.frame b = x.1.frame b

theorem Spares.refl (x : State × Set Page × Set ProcPtr) : Spares x x := fun _ hb hf => ⟨hb, hf, rfl⟩

theorem Spares.trans {x y z : State × Set Page × Set ProcPtr} (h : Spares x y) (h' : Spares y z) : Spares x z := by
  intro b hb hf
  obtain ⟨hb', hf', he⟩ := h b hb hf
  obtain ⟨hb'', hf'', he'⟩ := h' b hb' hf'
  exact ⟨hb'', hf'', he'.trans he⟩

/-- A thread that nothing runs beside. -/
def solo : World where
  Γ := Set Page × Set ProcPtr
  own g := g.1
  slots g := g.2
  home := ∅
  Fit := Apart
  R x y := y = x ∧ Apart y
  G x y := Apart y ∧ Spares x y
  fit h := h.2
  keeps h _ := by
    rw [h.1]
    exact ⟨rfl, rfl⟩
  reads h _ _ _ hr := by
    rw [h.1]
    exact hr
  free h a ha := ⟨h.apart a ha, h.free a ha⟩
  same {x} h := ⟨h, .refl x⟩
  write h _ hown _ hl := by
    have hframe := hl.frame
    rw [hown] at hframe
    rw [hl.eq]
    exact ⟨⟨h.nodup, h.apart, h.free, h.range⟩, fun b hb hf => ⟨hb, hf, hframe b hb⟩⟩
  refuse h _ := ⟨⟨h.nodup, h.apart, h.free, h.range⟩, fun b hb hf => ⟨hb, hf, rfl⟩⟩
  alloc {x a l} h _ hl := by
    obtain ⟨hnodup, hapart, hfree, hrange⟩ := h
    rw [hl] at hnodup hapart hfree
    obtain ⟨hnot, hnodup⟩ := List.nodup_cons.mp hnodup
    refine ⟨(insert a x.2.1, x.2.2), rfl, rfl, ⟨hnodup, fun b hb => ?_, fun b hb => ?_, fun b hb => ?_⟩, fun b hb hf => ?_⟩
    · rintro (e | hb')
      · exact hnot (e ▸ hb)
      · exact hapart b (List.mem_cons_of_mem a hb) hb'
    · exact hfree b (List.mem_cons_of_mem a hb)
    · obtain e | hb := hb
      · rw [e]
        exact hfree a List.mem_cons_self
      · exact hrange b hb
    · rw [hl] at hf
      obtain ⟨hne, hb'⟩ := not_or.mp (mt List.mem_cons.mpr hf)
      exact ⟨fun hc => hc.elim hne hb, hb', update_of_ne hne ..⟩
  give {x a} h _ ha := by
    obtain ⟨hnodup, hapart, hfree, hrange⟩ := h
    refine ⟨(x.2.1 \ {a}, x.2.2), rfl, rfl, ⟨?_, fun b hb => ?_, fun b hb => ?_, fun b hb => hrange b hb.1⟩,
      fun b hb hf => ?_⟩
    · exact List.nodup_cons.mpr ⟨fun hc => hapart a hc ha, hnodup⟩
    · obtain e | hb := List.mem_cons.mp hb
      · rw [e]
        exact fun hc => hc.2 rfl
      · exact fun hc => hapart b hb hc.1
    · obtain e | hb := List.mem_cons.mp hb
      · rw [e]
        exact hrange a ha
      · exact hfree b hb
    · have hne : b ≠ a := fun e => hb (e ▸ ha)
      exact ⟨fun hc => hb hc.1, fun hc => (List.mem_cons.mp hc).elim hne hf, update_of_ne hne ..⟩

/-- What the process has. -/
def State.heap (s : State) (p : ProcPtr) (own : Set Page) : Heap where
  own := own
  frame := s.frame
  slots := {p}
  proc := s.proc
  code := s.trampoline
  oom := s.oom

/-- A process with a page table, of which no page is free. -/
structure Lays (s : State) (p : ProcPtr) (pt tf : Page) (t : Nat → Option Leaf) (N : Set Page) : Prop where
  home : Home (s.heap p (N ∪ pages t 0 top)) p pt tf t N
  apart : Apart (s, N ∪ pages t 0 top, {p})

variable {α : Type} {s s' : State} {p : ProcPtr} {pt tf : Page} {t : Nat → Option Leaf} {N : Set Page} {va : Nat}
  {f : Page → V α} {m : V α} {Q : α → Heap → Prop}

/-- Code that is judged alone ends as the judgement says. -/
theorem Lays.ends {o : Except Err α} (hl : Lays s p pt tf t N)
    (hm : vwp solo m Q (s.heap p (N ∪ pages t 0 top))) (hrun : m.run s = (some o, s')) :
    ∃ v, o = .ok v ∧ (∀ b ∉ N ∪ pages t 0 top, b ∉ s.freelist → s'.frame b = s.frame b) ∧
      ∃ h' : Heap, h'.Reads s' ∧ Apart (s', h'.own, h'.slots) ∧ Q v h' := by
  have hat : (s.heap p (N ∪ pages t 0 top)).At solo (s, N ∪ pages t 0 top, {p}) :=
    ⟨rfl, rfl, Set.empty_subset _, fun _ _ => rfl, fun _ _ => rfl, rfl, hl.apart.range, fun ho => ho⟩
  obtain ⟨g, hend⟩ := fwp_run (F := fun x => Apart x ∧ Spares (s, N ∪ pages t 0 top, {p}) x)
    (fun x hx => ⟨rfl, hx.1⟩) (fun _ _ hx hy => ⟨hy.1, hx.2.trans hy.2⟩) (hm _ hat) ⟨hl.apart, .refl _⟩ hrun
  cases o with
  | error e => exact hend.elim
  | ok v =>
    obtain ⟨⟨hapart, hspares⟩, h', hat', hQ⟩ := hend
    refine ⟨v, rfl, fun b hb hf => (hspares b hb hf).2.2, h', hat'.reads, ?_, hQ⟩
    rw [hat'.own, hat'.slots]
    exact hapart

theorem Lays.run (hl : Lays s p pt tf t N) (hlive : m.Live)
    (hm : vwp solo m Q (s.heap p (N ∪ pages t 0 top))) : ∃ v s', m.run s = (some (.ok v), s') ∧
      (∀ b ∉ N ∪ pages t 0 top, b ∉ s.freelist → s'.frame b = s.frame b) ∧ ∃ h' : Heap, h'.Reads s' ∧ Apart (s', h'.own, h'.slots) ∧ Q v h' := by
  obtain ⟨o, s', hrun⟩ := hlive.run s
  obtain ⟨v, hv, hend⟩ := hl.ends hm hrun
  exact ⟨v, s', hv ▸ hrun, hend⟩

/-! ## The memory of a process in a state -/

/-- What the page tables map for user code. -/
def State.mapped (s : State) (p : ProcPtr) : Memory := fun k =>
  match (s.proc p).pagetable with
  | none => none
  | some pt =>
    if k < top then (s.translate pt (k * pgsize)).map fun e => ⟨e.perm.u, e.perm.w, (s.frame e.pa).byte⟩
    else none

/-- The memory that the process should see: pages below its size that are not mapped are zero. -/
def State.memory (s : State) (p : ProcPtr) : Memory := Memory.filled (s.mapped p) (pgs (s.proc p).sz)

/-- The hardware finds what the table has. -/
theorem translate_eq {k : Nat} (ht : table.Tree (fun a => (s.frame a).pte) 2 pt t N) (hk : k < maxpage) :
    s.translate pt (k * pgsize) = (t k).map fun l => table.entry (some l) := by
  have hva : k * pgsize < maxva := Nat.lt_of_not_le (mul_pgsize_lt hk)
  have hspec := ht.find_spec (k := k) (Nat.lt_trans hk (by decide))
  have hfind : table.find (fun a => (s.frame a).pte) 2 pt k =
      table.find (fun a => (s.frame a).pte) 2 pt (key 2 (k * pgsize)) := by rw [key_mul hk]
  rw [hfind, find_succ, find_succ] at hspec
  unfold State.translate
  dsimp only at hspec ⊢
  generalize (s.frame pt).pte (px 2 (k * pgsize)) = e2 at hspec ⊢
  cases h2 : e2.v with
  | false =>
    rw [h2, if_neg Bool.false_ne_true] at hspec
    rw [if_neg (fun h => by simp at h), hspec]
    rfl
  | true =>
    rw [h2, if_pos rfl] at hspec
    generalize (s.frame e2.pa).pte (px 1 (k * pgsize)) = e1 at hspec ⊢
    cases h1 : e1.v with
    | false =>
      rw [h1, if_neg Bool.false_ne_true] at hspec
      rw [if_neg (fun h => by simp at h), hspec]
      rfl
    | true =>
      rw [h1, if_pos rfl, find_zero] at hspec
      obtain ⟨_, _, hval, _⟩ := hspec
      rw [hval, entry_v]
      cases t k with
      | none => rw [if_neg (fun h => by simp at h)]; rfl
      | some l => rw [if_pos ⟨hva, rfl, rfl, rfl⟩]; rfl

theorem Home.mapped_eq (hh : Home h p pt tf t N) (hr : h.Reads s) : s.mapped p = mapped h t := by
  have hproc : s.proc p = h.proc p := hr.proc p hh.slot
  have htree : table.Tree (fun a => (s.frame a).pte) 2 pt t N :=
    hh.space.table.frame fun a ha => congrArg Frame.pte (hr.frame a (hh.space.nodes ha))
  funext k
  unfold State.mapped Vm.mapped
  rw [hproc, hh.pagetable]
  dsimp only
  split
  next hk =>
    rw [translate_eq htree (lt_maxpage hk)]
    cases htk : t k with
    | none => rfl
    | some l =>
      refine congrArg some ?_
      unfold Heap.cell
      rw [← hr.frame l.pa (hh.space.mem_own hk htk).1]
      rfl
  next => rfl

theorem Home.memory_eq (hh : Home h p pt tf t N) (hr : h.Reads s) :
    s.memory p = seen h t (pgs (h.proc p).sz) := by
  unfold State.memory seen
  rw [hh.mapped_eq hr, hr.proc p hh.slot]

/-- Code that is given the page table of the process. -/
def onUser (p : ProcPtr) (f : Page → V α) : V α := do
  let pt ← .read fun s => (s.proc p).pagetable
  let pt ← deref pt
  f pt

theorem vwp_onUser {W : World} (hh : Home h p pt tf t N) (hf : vwp W (f pt) Q h) : vwp W (onUser p f) Q h :=
  vwp_bind (vwp_readProc hh.slot (vwp_bind (vwp_deref hh.pagetable hf)))

theorem Lays.reads (hl : Lays s p pt tf t N) : (s.heap p (N ∪ pages t 0 top)).Reads s :=
  ⟨fun _ _ => rfl, fun _ _ => rfl, rfl, hl.apart.range, fun ho => ho⟩

/-! ## The copy routines return -/

theorem live_deref (o : Option Page) : (deref o).Live := by
  cases o with
  | none => exact .fail _
  | some a => exact .pure _

theorem live_walkFrom (va : Nat) (alloc : Bool) (l : Nat) (pt : Page) : (walkFrom va alloc l pt).Live := by
  induction l generalizing pt with
  | zero => exact .pure _
  | succ l ih =>
    refine .bind (.read _) fun e => .ite (ih _) (.ite (.pure _) (.bind (.atom _) fun r => ?_))
    cases r with
    | none => exact .pure _
    | some a => exact .bind (.update _) fun _ => .bind (.update _) fun _ => ih _

theorem live_walk (pt : Page) (va : Nat) (alloc : Bool) : (walk pt va alloc).Live :=
  .ite (.fail _) (live_walkFrom va alloc 2 pt)

theorem live_walkaddr (pt : Page) (va : Nat) : (walkaddr pt va).Live := by
  refine .ite (.pure _) (.bind (live_walk _ _ _) fun r => ?_)
  cases r with
  | none => exact .pure _
  | some r => exact .bind (.read _) fun e => .ite (.pure _) (.ite (.pure _) (.pure _))

theorem live_mapLoop (pt : Page) (perm : Perm) (n a : Nat) (pa : Page) : (mapLoop pt perm n a pa).Live := by
  induction n generalizing a pa with
  | zero => exact .pure _
  | succ n ih =>
    refine .bind (live_walk _ _ _) fun r => ?_
    cases r with
    | none => exact .pure _
    | some r => exact .bind (.read _) fun e => .ite (.fail _) (.bind (.update _) fun _ => ih _ _)

theorem live_mappages (pt : Page) (va size : Nat) (pa : Page) (perm : Perm) : (mappages pt va size pa perm).Live :=
  .ite (.fail _) (.ite (.fail _) (.ite (.fail _) (live_mapLoop _ _ _ _ _)))

theorem live_ismapped (pt : Page) (va : Nat) : (ismapped pt va).Live := by
  refine .bind (live_walk _ _ _) fun r => ?_
  cases r with
  | none => exact .pure _
  | some r => exact .read _

theorem live_vmfault (p : ProcPtr) (pt : Page) (va : Nat) : (vmfault p pt va).Live := by
  refine .bind (.read _) fun sz => .ite (.pure _) (.bind (live_ismapped _ _) fun m => .ite (.pure _)
    (.bind (.atom _) fun r => ?_))
  cases r with
  | none => exact .pure _
  | some mem =>
    refine .bind (.update _) fun _ => .bind (.read _) fun own => .bind (live_deref _) fun own =>
      .bind (live_mappages _ _ _ _ _) fun r => .ite (.bind (.attempt _) fun _ => .pure _) (.pure _)

theorem live_userPage (p : ProcPtr) (pt : Page) (va : Nat) : (userPage p pt va).Live := by
  refine .bind (live_walkaddr _ _) fun r => ?_
  cases r with
  | none => exact live_vmfault _ _ _
  | some pa => exact .pure _

theorem live_copyinLoop (p : ProcPtr) (pt : Page) (fuel va len : Nat) (dst : List UChar) :
    (copyinLoop p pt fuel va len dst).Live := by
  induction fuel generalizing va len dst with
  | zero => exact .pure _
  | succ fuel ih =>
    refine .ite (.pure _) (.bind (live_userPage _ _ _) fun r => ?_)
    cases r with
    | none => exact .pure _
    | some pa => exact .bind (.read _) fun bs => ih _ _ _

theorem live_copyoutLoop (p : ProcPtr) (pt : Page) (fuel va : Nat) (src : List UChar) :
    (copyoutLoop p pt fuel va src).Live := by
  induction fuel generalizing va src with
  | zero => exact .pure _
  | succ fuel ih =>
    refine .ite (.pure _) (.ite (.pure _) (.bind (live_userPage _ _ _) fun r => ?_))
    cases r with
    | none => exact .pure _
    | some pa =>
      refine .bind (live_walk _ _ _) fun r => ?_
      cases r with
      | none => exact .fail _
      | some r => exact .bind (.read _) fun e => .ite (.pure _) (.bind (.update _) fun _ => ih _ _)

theorem live_copyinstrLoop (pt : Page) (fuel va max : Nat) (dst : List UChar) :
    (copyinstrLoop pt fuel va max dst).Live := by
  induction fuel generalizing va max dst with
  | zero => exact .pure _
  | succ fuel ih =>
    refine .ite (.pure _) (.bind (live_walkaddr _ _) fun r => ?_)
    cases r with
    | none => exact .pure _
    | some pa => exact .bind (.read _) fun bs => .ite (.pure _) (ih _ _ _)

theorem live_onUser (hf : ∀ pt, (f pt).Live) : (onUser p f).Live :=
  .bind (.read _) fun _ => .bind (live_deref _) hf

/-! ## What the copy routines do to the memory -/

/-- A memory that is only known if `kalloc` has not failed. -/
theorem oom_of_reads (hr : h.Reads s) (ho : s.oom = false) : h.oom = false := by
  by_contra hc
  rw [Bool.not_eq_false] at hc
  rw [hr.oom hc] at ho
  cases ho

/-- What a copy routine leaves of the state. -/
theorem Lays.copied {h : Heap} {t' : Nat → Option Leaf} {N' : Set Page} {m : Memory} (hl : Lays s p pt tf t N)
    (hr : h.Reads s') (hc : Copied (s.heap p (N ∪ pages t 0 top)) p pt tf t N m h t' N') :
    s'.memory p = m ∧ s'.mapped p = mapped h t' ∧ ∀ k, s.mapped p k ≠ none → s'.mapped p k ≠ none := by
  refine ⟨(hc.home.memory_eq hr).trans hc.memory, hc.home.mapped_eq hr, fun k hk => ?_⟩
  rw [hl.home.mapped_eq hl.reads] at hk
  rw [hc.home.mapped_eq hr]
  have htop : k < top := by
    by_contra hn
    exact hk (if_neg hn)
  exact (mapped_ne_none htop).mpr (hc.keeps k ((mapped_ne_none htop).mp hk))

theorem Lays.memory_eq (hl : Lays s p pt tf t N) : seen (s.heap p (N ∪ pages t 0 top)) t (pgs (s.proc p).sz) = s.memory p :=
  (hl.home.memory_eq hl.reads).symm

/-- How far a copy that ends in the state `s` gets. -/
def State.Got (s : State) (p : ProcPtr) (ok : Nat → Prop) (va len : Nat) (r : Int) (j : Nat) : Prop :=
  ∃ h : Heap, ∃ t, (s.oom = false → h.oom = false) ∧ s.mapped p = Vm.mapped h t ∧ Vm.Got ok va len h t r j

theorem run_copyin (hl : Lays s p pt tf t N) (va len : Nat) : ∃ r s' j,
    (onUser p fun pt => copyin p pt va len).run s = (some (.ok r), s') ∧ s'.memory p = s.memory p ∧
    (∀ k, s.mapped p k ≠ none → s'.mapped p k ≠ none) ∧
    s'.Got p (fun a => (s.memory p).byte a ≠ none) va len r.1 j ∧
    r.2.map some = (List.range j).map fun i => (s.memory p).byte (va + i) := by
  obtain ⟨r, s', hrun, _, h', hr, _, t', N', j, hc, hg, hbs⟩ := hl.run
    (live_onUser fun pt => live_copyinLoop p pt len va len [])
    (vwp_onUser hl.home (vwp_copyinLoop (Nat.le_refl len) hl.home hl.memory_eq))
  obtain ⟨hmem, hmap, hkeep⟩ := hl.copied hr hc
  exact ⟨r, s', j, hrun, hmem, hkeep, ⟨h', t', oom_of_reads hr, hmap, hg⟩, hbs⟩

theorem run_copyout (hl : Lays s p pt tf t N) (va : Nat) (src : List UChar) : ∃ r s' j,
    (onUser p fun pt => copyout p pt va src).run s = (some (.ok r), s') ∧
    s'.memory p = (s.memory p).write va (src.take j) ∧
    (∀ k, s.mapped p k ≠ none → s'.mapped p k ≠ none) ∧ s'.Got p (s.memory p).writable va src.length r j ∧
    ∀ b ∉ N ∪ pages t 0 top, b ∉ s.freelist → s'.frame b = s.frame b := by
  obtain ⟨r, s', hrun, hout, h', hr, _, t', N', j, hc, hg⟩ := hl.run
    (live_onUser fun pt => live_copyoutLoop p pt src.length va src)
    (vwp_onUser hl.home (vwp_copyoutLoop (Nat.le_refl _) hl.home hl.memory_eq))
  obtain ⟨hmem, hmap, hkeep⟩ := hl.copied hr hc
  exact ⟨r, s', j, hrun, hmem, hkeep, ⟨h', t', oom_of_reads hr, hmap, hg⟩, hout⟩

/-- Where memory does not run out, the way a copy goes depends on what is allowed. -/
theorem State.Got.unique {ok : Nat → Prop} {len j j' : Nat} {r r' : Int} {u : State} (hg : s.Got p ok va len r j)
    (hg' : u.Got p ok va len r' j') (ho : s.oom = false) (ho' : u.oom = false) : r = r' ∧ j = j' := by
  obtain ⟨h, t, hoom, _, hg⟩ := hg
  obtain ⟨h', t', hoom', _, hg'⟩ := hg'
  exact Vm.Got.unique hg hg' (hoom ho) (hoom' ho')

theorem run_copyinstr (hl : Lays s p pt tf t N) (va max : Nat) : ∃ s',
    (onUser p fun pt => copyinstr pt va max).run s =
      (some (.ok (Memory.copyinstr (s.mapped p) max va max [])), s') := by
  obtain ⟨r, s', hrun, _, h', _, _, _, hres⟩ := hl.run
    (live_onUser fun pt => live_copyinstrLoop pt max va max [])
    (vwp_onUser hl.home (vwp_copyinstrLoop hl.home.space hl.home.layout))
  refine ⟨s', ?_⟩
  rw [hl.home.mapped_eq hl.reads, ← hres]
  exact hrun

/-! ## Twins -/

/-- The process in the two states differs only in how it has grown: some of the pages below its size
are not mapped in `s`, and pages of zeros in `s'`. -/
structure Twins (p : ProcPtr) (s s' : State) : Prop where
  lazy : ∃ pt tf t N, Lays s p pt tf t N
  eager : ∃ pt tf t N, Lays s' p pt tf t N
  sz : (s'.proc p).sz = (s.proc p).sz
  pages : ∀ k, s'.mapped p k = s.mapped p k ∨
    (s.mapped p k = none ∧ k < pgs (s.proc p).sz ∧ s'.mapped p k = some .zero)

/-- The system calls should see the same memory. -/
theorem Twins.memory (hw : Twins p s s') : s'.memory p = s.memory p := by
  funext k
  unfold State.memory Memory.filled
  rw [hw.sz]
  obtain he | ⟨hnone, hk, hzero⟩ := hw.pages k
  · rw [he]
  · rw [hnone, hzero]
    dsimp only
    rw [if_pos hk]

/-- The string at `va` goes on to a page that has not been touched. -/
def Memory.reaches (m : Memory) (untouched : Nat → Prop) : Nat → Nat → Nat → Prop
  | 0, _, _ => False
  | fuel + 1, va, max =>
    max ≠ 0 ∧ (untouched (va / pgsize) ∨
      match user m va with
      | none => False
      | some c =>
        let va0 := pgrounddown va
        let n := min (pgsize - (va - va0)) max
        (untilNul (getBytes c.byte (va - va0) n)).2 = false ∧ reaches m untouched fuel (va0 + pgsize) (max - n))

/-- A string of a page of zeros ends at once. -/
theorem untilNul_zero {o n : Nat} (hn : n ≠ 0) : untilNul (getBytes Cell.zero.byte o n) = ([0], true) := by
  obtain ⟨n, rfl⟩ := Nat.exists_eq_succ_of_ne_zero hn
  unfold getBytes
  rw [List.range_succ_eq_map]
  rfl

/-- Reading a string tells the memories apart just when it reaches a page where they differ. -/
theorem copyinstr_eq_iff {m m' : Memory} {fuel va max : Nat} {dst : List UChar}
    (h : ∀ k, m' k = m k ∨ (m k = none ∧ m' k = some .zero)) :
    Memory.copyinstr m fuel va max dst = Memory.copyinstr m' fuel va max dst ↔
      ¬ Memory.reaches m (fun k => m k = none ∧ m' k ≠ none) fuel va max := by
  induction fuel generalizing va max dst with
  | zero => exact ⟨fun _ hc => hc, fun _ => rfl⟩
  | succ fuel ih =>
    unfold Memory.copyinstr Memory.reaches
    by_cases hmax : max = 0
    · rw [if_pos hmax, if_pos hmax]
      exact ⟨fun _ hc => hc.1 hmax, fun _ => rfl⟩
    rw [if_neg hmax, if_neg hmax]
    by_cases huntouched : m (va / pgsize) = none ∧ m' (va / pgsize) ≠ none
    · -- the string could end here, but cannot be read
      have hzero : m' (va / pgsize) = some .zero := by
        obtain he | hz := h (va / pgsize)
        · rw [huntouched.1] at he
          exact absurd he huntouched.2
        · exact hz.2
      have huser : Memory.user m va = none := by
        unfold Memory.user
        rw [huntouched.1]
        rfl
      have huser' : Memory.user m' va = some .zero := by
        unfold Memory.user
        rw [hzero]
        rfl
      have hn : min (pgsize - (va - pgrounddown va)) max ≠ 0 := by
        unfold pgrounddown pgsize
        omega
      rw [huser, huser']
      dsimp only
      rw [untilNul_zero hn, if_pos rfl]
      refine ⟨fun hc => ?_, fun hc => absurd ⟨hmax, .inl huntouched⟩ hc⟩
      cases (Prod.mk.inj hc).1
    · have hsame : m' (va / pgsize) = m (va / pgsize) := by
        obtain he | ⟨hnone, hz⟩ := h (va / pgsize)
        · exact he
        · exact absurd ⟨hnone, by rw [hz]; exact Option.some_ne_none _⟩ huntouched
      have huser : Memory.user m' va = Memory.user m va := by
        unfold Memory.user
        rw [hsame]
      rw [huser]
      cases Memory.user m va with
      | none => exact ⟨fun _ hc => hc.2.elim huntouched fun hf => hf, fun _ => rfl⟩
      | some c =>
        dsimp only
        cases hnul : (untilNul (getBytes c.byte (va - pgrounddown va)
          (min (pgsize - (va - pgrounddown va)) max))).2 with
        | true =>
          rw [if_pos rfl, if_pos rfl]
          exact ⟨fun _ hc => hc.2.elim huntouched fun hf => Bool.noConfusion hf.1, fun _ => rfl⟩
        | false =>
          rw [if_neg Bool.false_ne_true, if_neg Bool.false_ne_true, ih]
          exact ⟨fun hn hc => hc.2.elim huntouched fun hf => hn hf.2, fun hn hr => hn ⟨hmax, .inr ⟨rfl, hr⟩⟩⟩

theorem Space.of_reads (hs : Space h pt t N) (hr : h.Reads s) :
    Space (s.heap p (N ∪ pages t 0 top)) pt t N where
  table := hs.table.frame fun a ha => congrArg Frame.pte (hr.frame a (hs.nodes ha))
  nodes := Set.subset_union_left
  own := Set.subset_union_right
  apart := hs.apart
  inj := hs.inj

/-- A process that has what a judgement says. -/
theorem Home.lays (hh : Home h p pt tf t N) (hr : h.Reads s) (ha : Apart (s, h.own, h.slots))
    (hown : h.own = N ∪ pages t 0 top) : Lays s p pt tf t N := by
  have hproc : s.proc p = h.proc p := hr.proc p hh.slot
  refine ⟨⟨rfl, ?_, hh.space.of_reads hr, ?_⟩, ?_⟩
  · exact (congrArg Proc.pagetable hproc).trans hh.pagetable
  · change Layout t (pgs (s.proc p).sz) tf s.trampoline
    rw [hproc, hr.code]
    exact hh.layout
  · rw [hown] at ha
    exact ⟨ha.nodup, ha.apart, ha.free, ha.range⟩

section
variable (hl : Lays s p pt tf t N) (hn : 0 ≤ n) (hn' : n < 2 ^ 31)
include hl hn hn'

/-- `sys_sbrk` with `SBRK_LAZY`, alone. -/
theorem run_sbrk_lazy (hrun : (sysSbrk p n 2).run s = (some (.ok r), s')) :
    (trapframe < (s.proc p).sz + n.toNat ∧ r = -1) ∨
    ((s.proc p).sz + n.toNat ≤ trapframe ∧ r = (s.proc p).sz ∧ (s'.proc p).sz = (s.proc p).sz + n.toNat ∧
      Lays s' p pt tf t N ∧ s'.mapped p = s.mapped p) := by
  have hh := hl.home
  obtain ⟨v, hv, _, h', hr, ha, hQ⟩ := hl.ends (vwp_sysSbrk_lazy (W := solo) hh (by decide) hn hn'
    (Q := fun r h' => (trapframe < (s.proc p).sz + n.toNat ∧ r = -1) ∨
      ((s.proc p).sz + n.toNat ≤ trapframe ∧ r = (s.proc p).sz ∧
        h' = (s.heap p (N ∪ pages t 0 top)).resize p ((s.proc p).sz + n.toNat)))
    (fun hbig => .inl ⟨hbig, rfl⟩) fun hroom => .inr ⟨hroom, rfl, rfl⟩) hrun
  cases hv
  obtain hfail | ⟨hroom, hr', rfl⟩ := hQ
  · exact .inl hfail
  · have hlayout := hh.layout.more (pgs_mono (Nat.le_add_right (s.proc p).sz n.toNat))
      (by rw [pgs_le, ← trapframe_eq]; exact hroom)
    have hh' := hh.resize (.refl hh.sub) hh.space hlayout
    refine .inr ⟨hroom, hr', ?_, hh'.lays hr ha rfl, ?_⟩
    · rw [hr.proc p hh'.slot]
      exact congrArg Proc.sz (update_self (f := s.proc) ..)
    · rw [hh'.mapped_eq hr, hh.mapped_eq hl.reads]
      rfl

/-- `sys_sbrk` with `SBRK_EAGER`, alone. -/
theorem run_sbrk_eager (hrun : (sysSbrk p n 1).run s = (some (.ok r), s')) (ho : s'.oom = false) :
    (trapframe < (s.proc p).sz + n.toNat ∧ r = -1) ∨
    ((s.proc p).sz + n.toNat ≤ trapframe ∧ r = (s.proc p).sz ∧ (s'.proc p).sz = (s.proc p).sz + n.toNat ∧
      (∃ t' N', Lays s' p pt tf t' N') ∧
      ∀ k, s'.mapped p k = s.mapped p k ∨
        (s.mapped p k = none ∧ k < pgs ((s.proc p).sz + n.toNat) ∧ s'.mapped p k = some .zero)) := by
  have hh := hl.home
  have hu : u64 ((s.proc p).sz + n) = (s.proc p).sz + n.toNat := u64_add hh.layout.sz_le hn hn'
  have hle := pgs_mono (Nat.le_add_right (s.proc p).sz n.toNat)
  have hsbrk : vwp solo (sysSbrk p n 1) (fun r h' =>
      (r = -1 ∧ (h'.oom = true ∨ trapframe < (s.proc p).sz + n.toNat)) ∨
      (r = (s.proc p).sz ∧ (s.proc p).sz + n.toNat ≤ trapframe ∧ ∃ h₁ N' t',
        h' = Heap.resize h₁ p ((s.proc p).sz + n.toNat) ∧
        Moves (s.heap p (N ∪ pages t 0 top)) h₁ N
          (N' ∪ pages t' (pgs (s.proc p).sz) (pgs ((s.proc p).sz + n.toNat))) ∧ Space h₁ pt t' N' ∧
        Grown h₁ { r := true, w := true, u := true } t t' (pgs (s.proc p).sz) (pgs ((s.proc p).sz + n.toNat))))
      (s.heap p (N ∪ pages t 0 top)) := by
    refine vwp_sysSbrk_grow hh (.inl rfl) (vwp_growproc hh hn' ?_ ?_ ?_ ?_)
    · intro h' N' _ _ _ hc
      rw [show ((s.heap p (N ∪ pages t 0 top)).proc p).sz = (s.proc p).sz from rfl, hu] at hc
      exact .inl ⟨if_pos (by decide), hc⟩
    · intro h' N' t' _ hroom hm hs hg
      rw [show ((s.heap p (N ∪ pages t 0 top)).proc p).sz = (s.proc p).sz from rfl, hu] at hroom hm hg ⊢
      exact .inr ⟨if_neg (by decide), hroom, h', N', t', rfl, hm, hs, hg⟩
    · intro hz
      have hsum : (s.proc p).sz + n.toNat = (s.proc p).sz := by omega
      rw [hsum]
      refine .inr ⟨if_neg (by decide), hh.layout.sz_le, _, N, t, rfl, ?_, hh.space, fun k hk hk' => ?_, fun _ _ => rfl⟩
      · rw [pages_empty (Nat.le_refl _), Set.union_empty]
        exact .refl hh.space.nodes
      · omega
    · intro h' hneg
      omega
  obtain ⟨v, hv, _, h', hr, ha, hQ⟩ := hl.ends hsbrk hrun
  cases hv
  obtain ⟨hr', hc⟩ | ⟨hr', hroom, h₁, N', t', rfl, hm, hs, hg⟩ := hQ
  · refine .inl ⟨hc.resolve_left ?_, hr'⟩
    rw [oom_of_reads hr ho]
    exact Bool.false_ne_true
  · have hhi : pgs ((s.proc p).sz + n.toNat) ≤ top := by
      rw [pgs_le, ← trapframe_eq]
      exact hroom
    have hh' := hh.resize hm hs (hh.layout.grown hg hle hhi)
    have hall := hm.extend hh.space.own hh.space.apart
    rw [Set.union_assoc, ← hg.pages hh.layout hhi] at hall
    refine .inr ⟨hroom, hr', ?_, ⟨t', N', hh'.lays hr ha (hall.own_eq rfl)⟩, fun k => ?_⟩
    · rw [hr.proc p hh'.slot]
      exact congrArg Proc.sz (update_self (f := h₁.proc) ..)
    · rw [hh'.mapped_eq hr, hh.mapped_eq hl.reads]
      by_cases hnew : pgs (s.proc p).sz ≤ k ∧ k < pgs ((s.proc p).sz + n.toNat)
      · have hk := hnew.2.trans_le hhi
        obtain ⟨b, hb, hzero⟩ := hg.new k hnew.1 hnew.2
        refine .inr ⟨?_, hnew.2, ?_⟩
        · unfold mapped
          rw [if_pos hk, hh.layout.user k hnew.1 hk]
          rfl
        · rw [mapped_some hk hb]
          refine congrArg some ?_
          change (⟨true, true, (h₁.frame b).byte⟩ : Cell) = .zero
          rw [hzero]
          rfl
      · refine .inl (mapped_congr (hg.old k (by omega)) fun l hk htk => ?_)
        obtain ⟨hown, hN⟩ := hh.space.mem_own hk htk
        exact hm.frame l.pa hown hN

/-- A process that `sys_sbrk` has grown lazily and one that it has grown eagerly are twins. -/
theorem sbrk_twins {a b : Int} {s₂ : State} (hlazy : (sysSbrk p n 2).run s = (some (.ok a), s₁)) (heager : (sysSbrk p n 1).run s = (some (.ok b), s₂))
    (ho : s₂.oom = false) : a = b ∧ (a ≠ -1 → Twins p s₁ s₂) := by
  obtain ⟨hbig, ha⟩ | ⟨hroom, ha, hsz, hl₁, hmap⟩ := run_sbrk_lazy hl hn hn' hlazy
  · obtain ⟨_, hb⟩ | ⟨hroom, _⟩ := run_sbrk_eager hl hn hn' heager ho
    · exact ⟨ha.trans hb.symm, fun hne => absurd ha hne⟩
    · omega
  · obtain ⟨hbig, _⟩ | ⟨_, hb, hsz', ⟨t', N', hl₂⟩, hmap'⟩ := run_sbrk_eager hl hn hn' heager ho
    · omega
    · refine ⟨ha.trans hb.symm, fun _ => ⟨⟨pt, tf, t, N, hl₁⟩, ⟨pt, tf, t', N', hl₂⟩, hsz'.trans hsz.symm, ?_⟩⟩
      rw [hmap, hsz]
      exact hmap'
end

/-! ## Two twins -/

/-- A process with the page table that `proc_pagetable` has made. -/
theorem lays_new (ha : Apart (s, ∅, {p})) (hrun : (procPagetable tf).run s = (some (.ok (some pt)), s₁)) :
    ∃ t N, Lays (s₁.setProc p fun r => { r with pagetable := some pt, sz := 0 }) p pt tf t N := by
  have hat : (s.heap p ∅).At solo (s, ∅, {p}) :=
    ⟨rfl, rfl, Set.empty_subset _, fun _ _ => rfl, fun _ _ => rfl, rfl, ha.range, fun ho => ho⟩
  have hwp : vwp solo (procPagetable tf) (fun r h' => ∀ pt, r = some pt → h'.slots = {p} ∧ ∃ t N,
      h'.own = N ∪ pages t 0 top ∧ Space h' pt t N ∧ Layout t 0 tf h'.code) (s.heap p ∅) := by
    refine vwp_procPagetable (fun h' _ _ pt hpt => (nomatch hpt)) fun h' pt t N hm hs hl pt' hpt => ?_
    cases hpt
    refine ⟨hm.slots, t, N, ?_, hs, hm.code ▸ hl⟩
    rw [hm.own_eq rfl, pages_none fun k _ hk => hl.user k (Nat.zero_le k) hk, Set.union_empty]
  obtain ⟨g, hapart, h', hat', hQ⟩ :=
    fwp_run (F := Apart) (fun x hx => ⟨rfl, hx⟩) (fun _ _ _ hy => hy.1) (hwp _ hat) ha hrun
  obtain ⟨hslots, t, N, hown, hs, hl⟩ := hQ pt rfl
  have hown' : g.1 = N ∪ pages t 0 top := hat'.own.symm.trans hown
  refine ⟨t, N, ⟨rfl, ?_, ⟨?_, Set.subset_union_left, Set.subset_union_right, hs.apart, hs.inj⟩, ?_⟩, ?_⟩
  · exact congrArg Proc.pagetable (update_self (f := s₁.proc) ..)
  · exact hs.table.frame fun a ha => congrArg Frame.pte (hat'.reads.frame a (hs.nodes ha))
  · rw [show ((s₁.setProc p fun r => { r with pagetable := some pt, sz := 0 }).heap p (N ∪ pages t 0 top)).proc p =
      { s₁.proc p with pagetable := some pt, sz := 0 } from update_self ..]
    change Layout t (pgs 0) tf s₁.trampoline
    rw [show pgs 0 = 0 by decide, hat'.reads.code]
    exact hl
  · rw [← hown']
    exact ⟨hapart.nodup, hapart.apart, hapart.free, hapart.range⟩

/-- Some free pages above the kernel. -/
def start : State where
  frame _ := .fill 1
  freelist := (List.range 12).map (0x80100 + ·)
  kend := 0x80100
  trampoline := 0x80007

/-- Process 0 with an empty page table. -/
def fresh : State :=
  ((procPagetable 0x87fff).run start).2.setProc 0 fun r => { r with pagetable := some 0x80100, sz := 0 }

/-- Process 0 has grown by a page. -/
def grownLazily : State := ((sysSbrk 0 4096 2).run fresh).2
def grownEagerly : State := ((sysSbrk 0 4096 1).run fresh).2

theorem grown_twins : Twins 0 grownLazily grownEagerly := by
  have hstart : Apart (start, ∅, {0}) := by
    refine ⟨by decide, fun a _ => Set.notMem_empty a, by decide, fun a ha => absurd ha (Set.notMem_empty a)⟩
  have hpt : ((procPagetable 0x87fff).run start).1 = some (.ok (some 0x80100)) := by rfl
  obtain ⟨t, N, hl⟩ := lays_new hstart (Prod.ext hpt rfl)
  have h1 : ((sysSbrk 0 4096 2).run fresh).1 = some (.ok 0) := by rfl
  have h2 : ((sysSbrk 0 4096 1).run fresh).1 = some (.ok 0) := by rfl
  exact (sbrk_twins hl (by decide) (by decide) (Prod.ext h1 rfl) (Prod.ext h2 rfl) (by rfl)).2 (by decide)

/-! ## What the copy routines can tell -/

/-- **Lazy growth and the copy routines.** Two processes differ only in that one has not touched some
of the pages of its heap. Unless memory runs out, `copyin` and `copyout` return the same and leave
the same memory. `copyinstr` returns the same just when the string does not reach a page that is
untouched. -/
theorem lazy_copies_agree_iff (hw : Twins p s s') :
    (∀ va len, ((onUser p fun pt => copyin p pt va len).run s).2.oom = false →
      ((onUser p fun pt => copyin p pt va len).run s').2.oom = false →
      ∃ r, ((onUser p fun pt => copyin p pt va len).run s).1 = some (.ok r) ∧
        ((onUser p fun pt => copyin p pt va len).run s').1 = some (.ok r)) ∧
    (∀ va src, ((onUser p fun pt => copyout p pt va src).run s).2.oom = false →
      ((onUser p fun pt => copyout p pt va src).run s').2.oom = false →
      (∃ r, ((onUser p fun pt => copyout p pt va src).run s).1 = some (.ok r) ∧
        ((onUser p fun pt => copyout p pt va src).run s').1 = some (.ok r)) ∧
      ((onUser p fun pt => copyout p pt va src).run s).2.memory p =
        ((onUser p fun pt => copyout p pt va src).run s').2.memory p) ∧
    ∀ va max, ((onUser p fun pt => copyinstr pt va max).run s).1 =
        ((onUser p fun pt => copyinstr pt va max).run s').1 ↔
      ¬ Memory.reaches (s.mapped p) (fun k => s.mapped p k = none ∧ s'.mapped p k ≠ none) max va max := by
  obtain ⟨pt, tf, t, N, hl⟩ := hw.lazy
  obtain ⟨pt', tf', t', N', hl'⟩ := hw.eager
  refine ⟨fun va len ho ho' => ?_, fun va src ho ho' => ?_, fun va max => ?_⟩
  · obtain ⟨r, s₁, j, hrun, _, _, hg, hbs⟩ := run_copyin hl va len
    obtain ⟨r', s₁', j', hrun', _, _, hg', hbs'⟩ := run_copyin hl' va len
    rw [hrun] at ho ⊢
    rw [hrun'] at ho' ⊢
    rw [hw.memory] at hg' hbs'
    obtain ⟨hr, hj⟩ := hg.unique hg' ho ho'
    have hsame : r = r' := Prod.ext hr (List.map_injective_iff.mpr (Option.some_injective _) (by rw [hbs, hbs', hj]))
    rw [hsame]
    exact ⟨r', rfl, rfl⟩
  · obtain ⟨r, s₁, j, hrun, hmem, _, hg, _⟩ := run_copyout hl va src
    obtain ⟨r', s₁', j', hrun', hmem', _, hg', _⟩ := run_copyout hl' va src
    rw [hrun] at ho ⊢
    rw [hrun'] at ho' ⊢
    rw [hw.memory] at hg' hmem'
    obtain ⟨hr, hj⟩ := hg.unique hg' ho ho'
    rw [hr, hmem, hmem', hj]
    exact ⟨⟨r', rfl, rfl⟩, rfl⟩
  · obtain ⟨s₁, hrun⟩ := run_copyinstr hl va max
    obtain ⟨s₁', hrun'⟩ := run_copyinstr hl' va max
    rw [hrun, hrun', Option.some_inj, Except.ok.injEq]
    refine copyinstr_eq_iff fun k => (hw.pages k).imp_right fun hk => ⟨hk.1, hk.2.2⟩

/-- The string at the start of the new page is empty, or cannot be read. -/
theorem string_on_untouched_page : Twins 0 grownLazily grownEagerly ∧
    ((onUser 0 fun pt => copyinstr pt 0 maxpath).run grownLazily).1 = some (.ok (-1, [])) ∧
    ((onUser 0 fun pt => copyinstr pt 0 maxpath).run grownEagerly).1 = some (.ok (0, [0])) :=
  ⟨grown_twins, by rfl, by rfl⟩

/-- A word at the start of the new page. -/
theorem lazy_copies_agree_iff_page : ∃ r,
    ((onUser 0 fun pt => copyin 0 pt 0 8).run grownLazily).1 = some (.ok r) ∧
    ((onUser 0 fun pt => copyin 0 pt 0 8).run grownEagerly).1 = some (.ok r) :=
  (lazy_copies_agree_iff grown_twins).1 0 8 (by rfl) (by rfl)

end Txv6.Vm
