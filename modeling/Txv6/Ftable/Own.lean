import Txv6.Ftable.Code
import Mathlib.Algebra.Order.BigOperators.Group.Finset

/-! # Who accounts for the references to files

Beside the file table it is kept how many references to a file each process accounts for, with its
descriptors or in the local variables of a call, and which ends of pipes it is about to close. The
reference count of a file is the sum of these numbers.
-/
namespace Txv6.Ftable
open Lib Lib.Prog Function Finset

/-- A sum of which one summand changes. -/
theorem sum_shift {ι : Type} [DecidableEq ι] {S : Finset ι} {f g : ι → Nat} {i : ι} (hi : i ∈ S)
    (h : ∀ j, j ≠ i → f j = g j) : ∑ j ∈ S, f j + g i = ∑ j ∈ S, g j + f i := by
  have hrest : ∑ j ∈ S.erase i, f j = ∑ j ∈ S.erase i, g j :=
    sum_congr rfl fun j hj => h j (ne_of_mem_erase hj)
  rw [← add_sum_erase S f hi, ← add_sum_erase S g hi, hrest]
  omega

/-- The number of descriptors that point to a file. -/
def fds (o : Nat → Option FilePtr) (f : FilePtr) : Nat :=
  ∑ fd ∈ Finset.range nofile, if o fd = some f then 1 else 0

theorem fds_update {o : Nat → Option FilePtr} {fd : Nat} (hfd : fd < nofile) (v : Option FilePtr)
    (f : FilePtr) : fds (update o fd v) f + (if o fd = some f then 1 else 0) =
      fds o f + if v = some f then 1 else 0 := by
  have h := sum_shift (S := Finset.range nofile)
    (f := fun d => if update o fd v d = some f then 1 else 0)
    (g := fun d => if o d = some f then 1 else 0) (mem_range.mpr hfd) ?_
  · rwa [update_self] at h
  · intro d hd
    rw [update_of_ne hd]

theorem fds_pos {o : Nat → Option FilePtr} {fd : Nat} {f : FilePtr} (hfd : fd < nofile)
    (h : o fd = some f) : 1 ≤ fds o f := by
  have hle : ∀ d ∈ Finset.range nofile, 0 ≤ if o d = some f then 1 else 0 := fun d _ => Nat.zero_le _
  have := single_le_sum hle (mem_range.mpr hfd)
  rwa [if_pos h] at this

theorem fds_of_none {o : Nat → Option FilePtr} (h : ∀ fd < nofile, o fd = none) (f : FilePtr) :
    fds o f = 0 := by
  refine sum_eq_zero fun fd hfd => ?_
  rw [h fd (mem_range.mp hfd), if_neg (by simp)]

attribute [irreducible] fds

/-! ## The ghost -/

structure Ghost where
  /-- The references a process accounts for. -/
  hold : ProcPtr → FilePtr → Nat := fun _ _ => 0
  /-- The ends of pipes that a process has, without a file for them. -/
  ends : ProcPtr → Page × Bool → Nat := fun _ _ => 0
  /-- The pages of pipes with no open end, by the process that frees them. -/
  dying : Page → Option ProcPtr := fun _ => none
  /-- The slots of the process table that `kfork` is about to fill, by the parent. -/
  builder : ProcPtr → Option ProcPtr := fun _ => none

namespace Ghost

def held (g : Ghost) (f : FilePtr) : Nat := ∑ p ∈ Finset.range nproc, g.hold p f
def loose (g : Ghost) (e : Page × Bool) : Nat := ∑ p ∈ Finset.range nproc, g.ends p e

def setHold (g : Ghost) (p : ProcPtr) (l : FilePtr → Nat) : Ghost :=
  { g with hold := Function.update g.hold p l }

def setEnds (g : Ghost) (p : ProcPtr) (l : Page × Bool → Nat) : Ghost :=
  { g with ends := Function.update g.ends p l }

def setDying (g : Ghost) (pg : Page) (o : Option ProcPtr) : Ghost :=
  { g with dying := Function.update g.dying pg o }

def setBuilder (g : Ghost) (q : ProcPtr) (o : Option ProcPtr) : Ghost :=
  { g with builder := Function.update g.builder q o }

variable {g : Ghost} {p q : ProcPtr}

theorem held_setHold (hp : p < nproc) (l : FilePtr → Nat) (f : FilePtr) :
    (g.setHold p l).held f + g.hold p f = g.held f + l f := by
  have h := sum_shift (S := Finset.range nproc) (f := fun q => (g.setHold p l).hold q f)
    (g := fun q => g.hold q f) (mem_range.mpr hp) ?_
  · rwa [show (g.setHold p l).hold p f = l f by simp [setHold]] at h
  · intro q hq
    simp [setHold, update_of_ne hq]

theorem loose_setEnds (hp : p < nproc) (l : Page × Bool → Nat) (e : Page × Bool) :
    (g.setEnds p l).loose e + g.ends p e = g.loose e + l e := by
  have h := sum_shift (S := Finset.range nproc) (f := fun q => (g.setEnds p l).ends q e)
    (g := fun q => g.ends q e) (mem_range.mpr hp) ?_
  · rwa [show (g.setEnds p l).ends p e = l e by simp [setEnds]] at h
  · intro q hq
    simp [setEnds, update_of_ne hq]

theorem hold_le (hp : p < nproc) (f : FilePtr) : g.hold p f ≤ g.held f :=
  single_le_sum (f := fun q => g.hold q f) (fun _ _ => Nat.zero_le _) (mem_range.mpr hp)

theorem ends_le (hp : p < nproc) (e : Page × Bool) : g.ends p e ≤ g.loose e :=
  single_le_sum (f := fun q => g.ends q e) (fun _ _ => Nat.zero_le _) (mem_range.mpr hp)

/-- Two processes account for different references. -/
theorem hold_add_le (hp : p < nproc) (hq : q < nproc) (hne : q ≠ p) (f : FilePtr) :
    g.hold p f + g.hold q f ≤ g.held f := by
  have h := held_setHold (g := g) hp (fun _ => 0) f
  have hle := hold_le (g := g.setHold p fun _ => 0) hq f
  rw [show (g.setHold p fun _ => 0).hold q f = g.hold q f by simp [setHold, update_of_ne hne]] at hle
  omega

end Ghost

/-! ## What fits the file table -/

/-- The file is an end of a pipe, and which one. -/
def isEnd (x : File) (e : Page × Bool) : Prop := x.type = .pipe ∧ x.pipe = e.1 ∧ x.writable = e.2

instance (x : File) (e : Page × Bool) : Decidable (isEnd x e) := by
  unfold isEnd
  infer_instance

/-- Whether an end of a pipe is open, as a number. -/
def Ends.number (e : Option Ends) (writable : Bool) : Nat :=
  match e with
  | none => 0
  | some x => if x.isOpen writable then 1 else 0

namespace State

/-- The number of files that are the end `e` of a pipe. -/
def files (s : State) (e : Page × Bool) : Nat := ∑ f : FilePtr, if isEnd (s.file f) e then 1 else 0

def openEnd (s : State) (e : Page × Bool) : Nat := Ends.number (s.pipe e.1) e.2

theorem files_setFile (s : State) (f : FilePtr) (ff : File) (e : Page × Bool) :
    (s.setFile f fun _ => ff).files e + (if isEnd (s.file f) e then 1 else 0) =
      s.files e + if isEnd ff e then 1 else 0 := by
  have h := sum_shift (S := Finset.univ)
    (f := fun f' => if isEnd ((s.setFile f fun _ => ff).file f') e then 1 else 0)
    (g := fun f' => if isEnd (s.file f') e then 1 else 0) (mem_univ f) ?_
  · rwa [show (s.setFile f fun _ => ff).file f = ff by simp [setFile]] at h
  · intro f' hf'
    simp [setFile, update_of_ne hf']

end State

/-- The reference counts. -/
structure Refs (x : State × Ghost) : Prop where
  ref : ∀ f, (x.1.file f).ref = (x.2.held f : Int)
  free : ∀ f, (x.1.file f).ref = 0 → (x.1.file f).type = .none

/-- The ends of pipes. -/
structure Pipes (x : State × Ghost) : Prop where
  oneWay : ∀ f, (x.1.file f).type = .pipe → (x.1.file f).readable = !(x.1.file f).writable
  ends : ∀ e, x.1.openEnd e = x.1.files e + x.2.loose e
  dying : ∀ pg p, x.2.dying pg = some p → x.1.pipe pg = some ⟨false, false⟩

/-- A process has nothing. -/
structure Empty (p : ProcPtr) (g : Ghost) : Prop where
  hold : ∀ f, g.hold p f = 0
  ends : ∀ e, g.ends p e = 0
  dying : ∀ pg, g.dying pg ≠ some p
  builder : ∀ q, g.builder q ≠ some p

/-- The slots of the process table that no process runs in. -/
structure Slots (x : State × Ghost) : Prop where
  bound : ∀ p, nproc ≤ p → x.1.state p ≠ .runnable
  empty : ∀ p, x.1.state p ≠ .runnable → Empty p x.2
  clear : ∀ p, x.1.state p = .unused ∨ x.1.state p = .zombie → ∀ fd < nofile, x.1.ofile p fd = none
  built : ∀ p, x.2.builder p ≠ none ↔ x.1.state p = .used

structure Exact (x : State × Ghost) : Prop where
  refs : Refs x
  pipes : Pipes x
  slots : Slots x

/-! ## What a process has -/

structure Own where
  ofile : Nat → Option FilePtr
  hold : FilePtr → Nat
  /-- The files from `filealloc` that have got no type yet. -/
  fresh : Set FilePtr := ∅
  ends : Page × Bool → Nat := fun _ => 0
  dying : Option Page := none
  /-- The child that is being made, with its descriptors. -/
  child : Option (ProcPtr × (Nat → Option FilePtr)) := none

/-- Outside of calls. -/
def Own.idle (o : Nat → Option FilePtr) : Own where
  ofile := o
  hold := fds o

/-- A file with one reference to it and no type. -/
def New (f : FilePtr) (x : State × Ghost) : Prop := (x.1.file f).ref = 1 ∧ (x.1.file f).type = .none

structure Has (p : ProcPtr) (o : Own) (x : State × Ghost) : Prop where
  alive : x.1.state p = .runnable
  ofile : x.1.ofile p = o.ofile
  hold : x.2.hold p = o.hold
  fresh : ∀ f ∈ o.fresh, o.hold f = 1 ∧ New f x
  ends : x.2.ends p = o.ends
  dying : ∀ pg, x.2.dying pg = some p ↔ o.dying = some pg
  builder : ∀ q, x.2.builder q = some p ↔ o.child.map Prod.fst = some q
  child : ∀ q c, o.child = some (q, c) → x.1.ofile q = c ∧ x.1.state q = .used

/-- What holds of a process outside of calls. -/
def Idle (p : ProcPtr) (x : State × Ghost) : Prop :=
  x.1.state p = .runnable → ∃ o, Has p (.idle o) x

/-- What the steps of others do: what a process has it keeps, and a process that is new has its
descriptors. -/
structure Others (p : ProcPtr) (x y : State × Ghost) : Prop where
  keeps : ∀ o, Has p o x → Has p o y
  born : x.1.state p ≠ .runnable → Idle p y

namespace Others
variable {p : ProcPtr} {x y z : State × Ghost}

theorem refl (p : ProcPtr) (x : State × Ghost) : Others p x x :=
  ⟨fun _ h => h, fun hdead halive => absurd halive hdead⟩

theorem stable (h : Others p x y) (hI : Idle p x) : Idle p y := by
  by_cases halive : x.1.state p = .runnable
  · obtain ⟨o, ho⟩ := hI halive
    exact fun _ => ⟨o, h.keeps _ ho⟩
  · exact h.born halive

theorem trans (h : Others p x y) (h' : Others p y z) : Others p x z :=
  ⟨fun o ho => h'.keeps o (h.keeps o ho), fun hdead => h'.stable (h.born hdead)⟩

/-- A slot that stays without a process. -/
theorem dead (hx : x.1.state p ≠ .runnable) (hy : y.1.state p ≠ .runnable) : Others p x y :=
  ⟨fun _ h => absurd h.alive hx, fun _ halive => absurd halive hy⟩

/-- The step changes nothing that process `p` has. -/
theorem spared (hstate : ∀ q, (q = p ∨ x.2.builder q = some p) → y.1.state q = x.1.state q)
    (hofile : ∀ q, (q = p ∨ x.2.builder q = some p) → y.1.ofile q = x.1.ofile q)
    (hhold : y.2.hold p = x.2.hold p) (hends : y.2.ends p = x.2.ends p)
    (hdying : ∀ pg, y.2.dying pg = some p ↔ x.2.dying pg = some p)
    (hbuilder : ∀ q, y.2.builder q = some p ↔ x.2.builder q = some p)
    (hfile : x.1.state p = .runnable → ∀ f, x.2.hold p f = 1 → New f x → New f y) : Others p x y := by
  refine ⟨fun o ho => ⟨?_, ?_, ?_, ?_, ?_, ?_, ?_, ?_⟩, fun hdead halive => ?_⟩
  · rw [hstate p (.inl rfl)]
    exact ho.alive
  · rw [hofile p (.inl rfl)]
    exact ho.ofile
  · rw [hhold]
    exact ho.hold
  · intro f hf
    obtain ⟨hone, hnew⟩ := ho.fresh f hf
    exact ⟨hone, hfile ho.alive f (by rw [ho.hold, hone]) hnew⟩
  · rw [hends]
    exact ho.ends
  · intro pg
    rw [hdying]
    exact ho.dying pg
  · intro q
    rw [hbuilder]
    exact ho.builder q
  · intro q c hc
    have hq : x.2.builder q = some p := (ho.builder q).mpr (by rw [hc]; rfl)
    rw [hofile q (.inr hq), hstate q (.inr hq)]
    exact ho.child q c hc
  · rw [hstate p (.inl rfl)] at halive
    exact absurd halive hdead

end Others

/-- The judgement of a process's code. -/
abbrev fileWp (p : ProcPtr) {α : Type} (m : F α) (Q : α → State × Ghost → Prop) (x : State × Ghost) : Prop :=
  fwp (Machine.Among Exact Others p) (Machine.Fair Exact Others p) m Q
    (fun e y => (∃ c, e = .jump c) ∧ Idle p y) x

abbrev FileStep (p : ProcPtr) : State × Ghost → State × Ghost → Prop := Machine.Fair Exact Others p

theorem FileStep.refl (p : ProcPtr) (x : State × Ghost) : FileStep p x x :=
  fun h => ⟨h, fun q _ => Others.refl q x⟩

end Txv6.Ftable
