import Txv6.Vm.Code

/-! # What a thread has for itself

Code that works on pages of its own, and on slots of the process table that it has for itself, can
be read as if nothing else ran: only the free list is shared. A `World` says what the other threads
may do in between, and what they allow; `vwp` is the judgement over the private part of the state.
-/
namespace Txv6.Vm
open Lib Lib.Prog Function

/-- The private part of the state: pages, and slots of the process table. -/
structure Heap where
  own : Set Page
  frame : Page → Frame
  slots : Set ProcPtr
  proc : ProcPtr → Proc
  /-- The page of the trampoline. -/
  code : Page
  /-- A call of `kalloc` has failed. -/
  oom : Bool

namespace Heap

def setFrame (h : Heap) (a : Page) (f : Frame) : Heap := { h with frame := Function.update h.frame a f }

def setPte (h : Heap) (a : Page) (i : Nat) (e : Pte) : Heap :=
  h.setFrame a { h.frame a with pte := Function.update (h.frame a).pte i e }

def setProc (h : Heap) (p : ProcPtr) (r : Proc) : Heap := { h with proc := Function.update h.proc p r }

def add (h : Heap) (a : Page) (f : Frame) : Heap :=
  { h with own := insert a h.own, frame := Function.update h.frame a f }

def drop (h : Heap) (a : Page) : Heap := { h with own := h.own \ {a} }

def fail (h : Heap) : Heap := { h with oom := true }

/-- The entries of the tables. -/
def pte (h : Heap) (a : Page) : Nat → Pte := (h.frame a).pte

/-- The heap says what is in the state. -/
structure Reads (h : Heap) (s : State) : Prop where
  frame : ∀ a ∈ h.own, s.frame a = h.frame a
  proc : ∀ p ∈ h.slots, s.proc p = h.proc p
  code : s.trampoline = h.code
  range : ∀ a ∈ h.own, s.kend ≤ a ∧ a < phystop
  oom : h.oom = true → s.oom = true

end Heap

/-- A change of a slot that is nobody else's business: the process neither starts nor ends, or it is
a slot under its lock that becomes free. Nobody waits for the lock of a slot that is being filled. -/
def Proc.Quiet (r r' : Proc) : Prop :=
  (r'.state = r.state ∧ (r'.lock = r.lock ∨ r.state = .used)) ∨
    (r.lock = true ∧ r'.lock = true ∧ r.state ≠ .runnable ∧ r'.state = .unused)

theorem Proc.Quiet.same {r r' : Proc} (hs : r'.state = r.state) (hl : r'.lock = r.lock) : r.Quiet r' :=
  .inl ⟨hs, .inl hl⟩

/-- A step that writes to pages and slots of the heap only. -/
structure Heap.Local (h : Heap) (s t : State) : Prop where
  eq : t = { s with frame := t.frame, proc := t.proc }
  frame : ∀ a, a ∉ h.own → t.frame a = s.frame a
  proc : ∀ p, p ∉ h.slots → t.proc p = s.proc p
  quiet : ∀ p ∈ h.slots, (s.proc p).Quiet (t.proc p)

/-- A thread among others. The ghost says what belongs to the thread; `R` is what the others do,
`G` what they allow, and `Fit` holds in between. The slots `home` are those that the thread does not
give up while it runs. -/
structure World where
  Γ : Type
  own : Γ → Set Page
  slots : Γ → Set ProcPtr
  home : Set ProcPtr
  R : State × Γ → State × Γ → Prop
  G : State × Γ → State × Γ → Prop
  Fit : State × Γ → Prop
  fit : ∀ {x y}, R x y → Fit y
  keeps : ∀ {x y}, R x y → home ⊆ slots x.2 → own y.2 = own x.2 ∧ slots y.2 = slots x.2
  reads : ∀ {x y} {h : Heap}, R x y → home ⊆ slots x.2 → h.own = own x.2 → h.slots = slots x.2 → h.Reads x.1 →
    h.Reads y.1
  free : ∀ {x}, Fit x → ∀ a ∈ x.1.freelist, a ∉ own x.2 ∧ x.1.kend ≤ a ∧ a < phystop
  same : ∀ {x}, Fit x → G x x
  write : ∀ {x t} {h : Heap}, Fit x → home ⊆ slots x.2 → h.own = own x.2 → h.slots = slots x.2 → h.Local x.1 t →
    G x (t, x.2)
  refuse : ∀ {x}, Fit x → home ⊆ slots x.2 → G x (x.1.refuse, x.2)
  alloc : ∀ {x a l}, Fit x → home ⊆ slots x.2 → x.1.freelist = a :: l →
    ∃ g, own g = insert a (own x.2) ∧ slots g = slots x.2 ∧ G x (x.1.take a l, g)
  give : ∀ {x a}, Fit x → home ⊆ slots x.2 → a ∈ own x.2 →
    ∃ g, own g = own x.2 \ {a} ∧ slots g = slots x.2 ∧ G x (x.1.give a, g)

variable {W : World} {α β : Type} {Q : α → Heap → Prop} {h : Heap} {a : Page} {p : ProcPtr} {i : Nat}
  {x : State × W.Γ} {m : V α} {f : α → V β}

/-- The heap is what the thread has. -/
structure Heap.At (h : Heap) (W : World) (x : State × W.Γ) : Prop where
  own : h.own = W.own x.2
  slots : h.slots = W.slots x.2
  home : W.home ⊆ h.slots
  reads : h.Reads x.1

theorem Heap.At.home_sub (hx : h.At W x) : W.home ⊆ W.slots x.2 := hx.slots ▸ hx.home

theorem Heap.At.rely {y : State × W.Γ} (hx : h.At W x) (hR : W.R x y) : h.At W y := by
  obtain ⟨hown, hslots⟩ := W.keeps hR hx.home_sub
  exact ⟨hx.own.trans hown.symm, hx.slots.trans hslots.symm, hx.home,
    W.reads hR hx.home_sub hx.own hx.slots hx.reads⟩

/-- The code runs without an error, and comes to its end in `Q`. -/
def vwp (W : World) (m : V α) (Q : α → Heap → Prop) (h : Heap) : Prop :=
  ∀ x, h.At W x → fwp W.R W.G m (fun a y => ∃ h' : Heap, h'.At W y ∧ Q a h') (fun _ _ => False) x

theorem vwp_pure {v : α} (hQ : Q v h) : vwp W (pure v) Q h := fun _ hx => ⟨h, hx, hQ⟩

theorem vwp_mono {Q' : α → Heap → Prop} (hm : vwp W m Q h) (hQ : ∀ v h', Q v h' → Q' v h') :
    vwp W m Q' h := by
  intro x hx
  refine fwp_post ?_ (hm x hx)
  rintro v y ⟨h', hy, hv⟩
  exact ⟨h', hy, hQ v h' hv⟩

theorem vwp_seq {M : α → Heap → Prop} {Q : β → Heap → Prop} (hm : vwp W m M h)
    (hf : ∀ v h', M v h' → vwp W (f v) Q h') : vwp W (m >>= f) Q h := by
  intro x hx
  refine fwp_seq (hm x hx) ?_
  rintro v y ⟨h', hy, hv⟩
  exact hf v h' hv y hy

theorem vwp_bind {Q : β → Heap → Prop} (hm : vwp W m (fun v => vwp W (f v) Q) h) :
    vwp W (m >>= f) Q h := vwp_seq hm fun _ _ hv => hv

/-- The pages of a heap are below `PHYSTOP`. -/
theorem vwp_range (hm : (∀ a ∈ h.own, a < phystop) → vwp W m Q h) : vwp W m Q h := by
  intro x hx
  exact hm (fun a ha => (hx.reads.range a ha).2) x hx

theorem vwp_read {f : State → α} (v : α) (hf : ∀ s, h.Reads s → f s = v) (hQ : Q v h) :
    vwp W (.read f) Q h := by
  intro x hx
  refine fwp_read fun y hR => ?_
  have hy := hx.rely hR
  refine ⟨W.same (W.fit hR), h, hy, ?_⟩
  rw [hf y.1 hy.reads]
  exact hQ

theorem vwp_readPte {Q : Pte → Heap → Prop} (ha : a ∈ h.own) (hQ : Q (h.pte a i) h) :
    vwp W (.read fun s => (s.frame a).pte i) Q h := by
  refine vwp_read _ (fun s hs => ?_) hQ
  rw [hs.frame a ha]
  rfl

theorem vwp_readProc {f : Proc → α} (hp : p ∈ h.slots) (hQ : Q (f (h.proc p)) h) :
    vwp W (.read fun s => f (s.proc p)) Q h := by
  refine vwp_read _ (fun s hs => ?_) hQ
  rw [hs.proc p hp]

theorem vwp_when {c : Bool} {m : V Unit} {Q : Unit → Heap → Prop} (hm : c = true → vwp W m Q h)
    (hn : c = false → Q () h) : vwp W (.when c m) Q h := by
  cases c with
  | false => exact vwp_pure (hn rfl)
  | true => exact hm rfl

/-- A write to an own page. -/
theorem vwp_setFrame {f : State → Frame} {Q : Unit → Heap → Prop} (fr : Frame) (ha : a ∈ h.own)
    (hf : ∀ s, h.Reads s → f s = fr) (hQ : Q () (h.setFrame a fr)) :
    vwp W (.update fun s => s.setFrame a (f s)) Q h := by
  intro x hx
  refine fwp_update fun y hR => ?_
  have hy := hx.rely hR
  have hother : ∀ b, b ≠ a → (y.1.setFrame a (f y.1)).frame b = y.1.frame b := by
    intro b hb
    exact update_of_ne hb _ _
  refine ⟨y.2, W.write (W.fit hR) hy.home_sub hy.own hy.slots ⟨rfl, fun b hb => hother b ?_, fun _ _ => rfl,
    fun _ _ => .same rfl rfl⟩, h.setFrame a fr, ⟨hy.own, hy.slots, hy.home, ?_⟩, hQ⟩
  · intro e
    exact hb (e ▸ ha)
  · refine ⟨fun b hb => ?_, hy.reads.proc, hy.reads.code, hy.reads.range, hy.reads.oom⟩
    change update _ _ _ b = update _ _ _ b
    by_cases e : b = a
    · rw [e, update_self, update_self, hf y.1 hy.reads]
    · rw [update_of_ne e, update_of_ne e]
      exact hy.reads.frame b hb

theorem vwp_memset {c : UChar} {Q : Unit → Heap → Prop} (ha : a ∈ h.own) (hQ : Q () (h.setFrame a (.fill c))) :
    vwp W (memset a c) Q h := vwp_setFrame _ ha (fun _ _ => rfl) hQ

theorem vwp_setPte {e : Pte} {Q : Unit → Heap → Prop} (ha : a ∈ h.own) (hQ : Q () (h.setPte a i e)) :
    vwp W (.update fun s => s.setPte a i e) Q h := by
  refine vwp_setFrame _ ha (fun s hs => ?_) hQ
  rw [hs.frame a ha]

theorem vwp_store {o : Nat} {bs : List UChar} {Q : Unit → Heap → Prop} (ha : a ∈ h.own)
    (hQ : Q () (h.setFrame a { h.frame a with byte := putBytes (h.frame a).byte o bs })) :
    vwp W (.update fun s => s.store a o bs) Q h := by
  refine vwp_setFrame _ ha (fun s hs => ?_) hQ
  rw [hs.frame a ha]

/-- A write to an own slot. -/
theorem vwp_setProc {f : Proc → Proc} {Q : Unit → Heap → Prop} (hp : p ∈ h.slots)
    (hquiet : (h.proc p).Quiet (f (h.proc p))) (hQ : Q () (h.setProc p (f (h.proc p)))) :
    vwp W (.update fun s => s.setProc p f) Q h := by
  intro x hx
  refine fwp_update fun y hR => ?_
  have hy := hx.rely hR
  have hsame := hy.reads.proc p hp
  have hother : ∀ q, q ≠ p → (y.1.setProc p f).proc q = y.1.proc q := by
    intro q hq
    exact update_of_ne hq _ _
  have hnew : (y.1.setProc p f).proc p = f (h.proc p) := by
    change update _ _ _ p = _
    rw [update_self, hsame]
  refine ⟨y.2, W.write (W.fit hR) hy.home_sub hy.own hy.slots ⟨rfl, fun _ _ => rfl, fun q hq => hother q ?_,
    fun q hq => ?_⟩, h.setProc p (f (h.proc p)), ⟨hy.own, hy.slots, hy.home, ?_⟩, hQ⟩
  · intro e
    exact hq (e ▸ hp)
  · by_cases e : q = p
    · rw [e, hnew, hsame]
      exact hquiet
    · rw [hother q e]
      exact .same rfl rfl
  · refine ⟨hy.reads.frame, fun q hq => ?_, hy.reads.code, hy.reads.range, hy.reads.oom⟩
    by_cases e : q = p
    · rw [e, hnew]
      exact (update_self (f := h.proc) ..).symm
    · rw [hother q e]
      exact (hy.reads.proc q hq).trans (update_of_ne (f := h.proc) e ..).symm

/-- `kalloc` has the first page of the free list, or none. -/
theorem State.kalloc_cases (s : State) : s.kalloc = (none, s.refuse) ∨
    ∃ a l, s.freelist = a :: l ∧ s.kalloc = (some a, s.take a l) := by
  unfold State.kalloc
  split
  next => exact .inl rfl
  next a l hl =>
    split
    next => exact .inr ⟨a, l, hl, rfl⟩
    next => exact .inl rfl

theorem vwp_kalloc {Q : Option Page → Heap → Prop} (hnone : Q none h.fail)
    (hsome : ∀ a, a ∉ h.own → Q (some a) (h.add a (.fill 5))) : vwp W kalloc Q h := by
  intro x hx
  refine fwp_atom fun y hR => ?_
  have hy := hx.rely hR
  obtain hk | ⟨a, l, hl, hk⟩ := y.1.kalloc_cases
  · rw [hk]
    refine ⟨y.2, W.refuse (W.fit hR) hy.home_sub, h.fail, ⟨hy.own, hy.slots, hy.home, ?_⟩, hnone⟩
    exact ⟨hy.reads.frame, hy.reads.proc, hy.reads.code, hy.reads.range, fun _ => rfl⟩
  · rw [hk]
    have hmem : a ∈ y.1.freelist := by
      rw [hl]
      exact List.mem_cons_self
    obtain ⟨hnew, hrange⟩ := W.free (W.fit hR) a hmem
    obtain ⟨g, hown, hslots, hG⟩ := W.alloc (W.fit hR) hy.home_sub hl
    refine ⟨g, hG, h.add a (.fill 5), ⟨?_, ?_, hy.home, ?_⟩, hsome a (hy.own ▸ hnew)⟩
    · rw [hown, ← hy.own]
      rfl
    · rw [hslots, ← hy.slots]
      rfl
    · refine ⟨fun b hb => ?_, hy.reads.proc, hy.reads.code, fun b hb => ?_, hy.reads.oom⟩
      · change update _ _ _ b = update _ _ _ b
        by_cases e : b = a
        · rw [e, update_self, update_self]
        · rw [update_of_ne e, update_of_ne e]
          exact hy.reads.frame b (hb.resolve_left e)
      · obtain e | hb := hb
        · rw [e]
          exact hrange
        · exact hy.reads.range b hb

theorem vwp_kfree {Q : Unit → Heap → Prop} (ha : a ∈ h.own) (hQ : Q () (h.drop a)) : vwp W (kfree a) Q h := by
  intro x hx
  refine fwp_attempt fun y hR => ?_
  have hy := hx.rely hR
  obtain ⟨hlow, hhigh⟩ := hy.reads.range a ha
  have hrange : ¬ (a < y.1.kend ∨ phystop ≤ a) := not_or.mpr ⟨Nat.not_lt.mpr hlow, Nat.not_le.mpr hhigh⟩
  rw [if_neg hrange]
  obtain ⟨g, hown, hslots, hG⟩ := W.give (W.fit hR) hy.home_sub (hy.own ▸ ha)
  refine ⟨(), g, rfl, hG, h.drop a, ⟨?_, ?_, hy.home, ?_⟩, hQ⟩
  · rw [hown, ← hy.own]
    rfl
  · rw [hslots, ← hy.slots]
    rfl
  · refine ⟨fun b hb => ?_, hy.reads.proc, hy.reads.code, fun b hb => hy.reads.range b hb.1, hy.reads.oom⟩
    obtain ⟨hb, hne⟩ := hb
    change update _ _ _ b = _
    rw [update_of_ne hne]
    exact hy.reads.frame b hb

theorem vwp_deref {o : Option Page} {b : Page} {Q : Page → Heap → Prop} (ho : o = some b) (hQ : Q b h) :
    vwp W (deref o) Q h := by
  rw [ho]
  exact vwp_pure hQ

end Txv6.Vm
