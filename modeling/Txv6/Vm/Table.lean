import Txv6.Vm.Heap
import Txv6.Lib.Radix
import Mathlib.Data.Set.BooleanAlgebra
import Mathlib.Order.CompletePartialOrder

/-! # Page tables

A page table is a radix tree over the numbers of virtual pages: `walk` finds the slot of a key and
makes the nodes on the way, `mappages` sets it, and `freewalk` frees the nodes of a tree with no
values. Each of them changes the nodes of the tree and no other page of the thread.
-/
namespace Txv6.Vm
open Lib Function

variable {i k n : Nat} {Q : Option (Page × Nat) → Heap → Prop} {rec : Page → V Unit}

/-! ## The pages that a piece of code touches -/

/-- From `h` to `h'`, the pages `A` of the thread have been replaced by the pages `A'`, and nothing
else has happened to what the thread has. -/
structure Moves (h h' : Heap) (A A' : Set Page) : Prop where
  sub : A ⊆ h.own
  sub' : A' ⊆ h'.own
  rest : h'.own \ A' = h.own \ A
  frame : ∀ a ∈ h.own, a ∉ A → h'.frame a = h.frame a
  slots : h'.slots = h.slots
  proc : h'.proc = h.proc
  code : h'.code = h.code
  oom : h.oom = true → h'.oom = true

namespace Moves
variable {h h' h'' : Heap} {A A' A'' B : Set Page} {a : Page}

theorem refl (hA : A ⊆ h.own) : Moves h h A A :=
  ⟨hA, hA, rfl, fun _ _ _ => rfl, rfl, rfl, rfl, fun ho => ho⟩

section
variable (m : Moves h h' A A')
include m

/-- What is not touched stays, and is apart from what is new. -/
theorem mem_of_notMem (ha : a ∈ h.own) (hn : a ∉ A) : a ∈ h'.own ∧ a ∉ A' := by
  have : a ∈ h'.own \ A' := by
    rw [m.rest]
    exact ⟨ha, hn⟩
  exact this

theorem trans (m' : Moves h' h'' A' A'') : Moves h h'' A A'' where
  sub := m.sub
  sub' := m'.sub'
  rest := m'.rest.trans m.rest
  frame a ha hn := by
    obtain ⟨ha', hn'⟩ := m.mem_of_notMem ha hn
    exact (m'.frame a ha' hn').trans (m.frame a ha hn)
  slots := m'.slots.trans m.slots
  proc := m'.proc.trans m.proc
  code := m'.code.trans m.code
  oom ho := m'.oom (m.oom ho)

/-- The frame rule: other pages of the thread stay as they are. -/
theorem extend (hB : B ⊆ h.own) (hAB : Disjoint A B) : Moves h h' (A ∪ B) (A' ∪ B) where
  sub := Set.union_subset m.sub hB
  sub' := by
    refine Set.union_subset m.sub' fun a ha => ?_
    exact (m.mem_of_notMem (hB ha) (Set.disjoint_right.mp hAB ha)).1
  rest := by
    rw [← Set.sdiff_sdiff, ← Set.sdiff_sdiff, m.rest]
  frame a ha hn := m.frame a ha fun h => hn (.inl h)
  slots := m.slots
  proc := m.proc
  code := m.code
  oom := m.oom

theorem disjoint (hB : B ⊆ h.own) (hAB : Disjoint A B) : Disjoint A' B ∧ B ⊆ h'.own := by
  refine ⟨Set.disjoint_right.mpr fun a ha => ?_, fun a ha => ?_⟩
  · exact (m.mem_of_notMem (hB ha) (Set.disjoint_right.mp hAB ha)).2
  · exact (m.mem_of_notMem (hB ha) (Set.disjoint_right.mp hAB ha)).1

/-- A thread that has nothing else has what is new. -/
theorem own_eq (hown : h.own = A) : h'.own = A' := by
  have hrest := m.rest
  rw [hown, Set.sdiff_self, Set.sdiff_eq_empty] at hrest
  exact Set.Subset.antisymm hrest m.sub'

theorem pte (ha : a ∈ h.own) (hn : a ∉ A) : h'.pte a = h.pte a :=
  congrArg Frame.pte (m.frame a ha hn)
end

theorem fail (hA : A ⊆ h.own) : Moves h h.fail A A :=
  ⟨hA, hA, rfl, fun _ _ _ => rfl, rfl, rfl, rfl, fun _ => rfl⟩

theorem setFrame (hA : A ⊆ h.own) (ha : a ∈ A) (f : Frame) : Moves h (h.setFrame a f) A A where
  sub := hA
  sub' := hA
  rest := rfl
  frame b _ hn := by
    refine update_of_ne ?_ _ _
    intro e
    exact hn (e ▸ ha)
  slots := rfl
  proc := rfl
  code := rfl
  oom ho := ho

theorem setPte (hA : A ⊆ h.own) (ha : a ∈ A) (i : Nat) (e : Pte) : Moves h (h.setPte a i e) A A :=
  setFrame hA ha _

theorem add (hA : A ⊆ h.own) (ha : a ∉ h.own) (f : Frame) : Moves h (h.add a f) A (insert a A) where
  sub := hA
  sub' := Set.insert_subset_insert hA
  rest := by
    ext b
    constructor
    · rintro ⟨hb, hn⟩
      have hne : b ≠ a := fun e => hn (.inl e)
      exact ⟨hb.resolve_left hne, fun hb => hn (.inr hb)⟩
    · rintro ⟨hb, hn⟩
      refine ⟨.inr hb, ?_⟩
      rintro (e | hb')
      · exact ha (e ▸ hb)
      · exact hn hb'
  frame b hb _ := by
    refine update_of_ne ?_ _ _
    intro e
    exact ha (e ▸ hb)
  slots := rfl
  proc := rfl
  code := rfl
  oom ho := ho

/-- A page from `kalloc`, with contents of its own. -/
theorem fresh (ha : a ∉ h.own) (f g : Frame) : Moves h ((h.add a f).setFrame a g) ∅ {a} := by
  have hadd := Moves.add (Set.empty_subset h.own) ha f
  rw [← Set.singleton_def] at hadd
  exact hadd.trans (.setFrame hadd.sub' rfl g)

theorem drop (hA : A ⊆ h.own) (ha : a ∈ A) : Moves h (h.drop a) A (A \ {a}) where
  sub := hA
  sub' := Set.sdiff_subset_sdiff_left hA
  rest := by
    ext b
    constructor
    · rintro ⟨⟨hb, hne⟩, hn⟩
      exact ⟨hb, fun hb' => hn ⟨hb', hne⟩⟩
    · rintro ⟨hb, hn⟩
      refine ⟨⟨hb, ?_⟩, fun hb' => hn hb'.1⟩
      intro e
      exact hn (e ▸ ha)
  frame _ _ _ := rfl
  slots := rfl
  proc := rfl
  code := rfl
  oom ho := ho

end Moves

/-! ## Page tables as radix trees -/

/-- A mapping of a virtual page. -/
structure Leaf where
  perm : Perm
  pa : Page
  deriving DecidableEq, Repr

def table : Radix Page Pte Leaf where
  B := 512
  pos := by decide
  link a := { v := true, pa := a }
  entry
    | none => {}
    | some l => { v := true, perm := l.perm, pa := l.pa }
  next e := if e.v then some e.pa else none
  next_link _ := rfl
  next_none := rfl

/-- The page `pt` is the root of a table with the mappings `t`, and its pages are `N`. -/
abbrev Table (h : Heap) (pt : Page) (t : Nat → Option Leaf) (N : Set Page) : Prop :=
  table.Tree h.pte 2 pt t N

/-- What is left of the number of a virtual page for the levels up to `l`. -/
def key (l va : Nat) : Nat := va / pgsize % 512 ^ (l + 1)

theorem px_eq (l va : Nat) : px l va = key l va / 512 ^ l := by
  unfold px key
  rw [show (2 : Nat) ^ (12 + 9 * l) = pgsize * 512 ^ l by
    rw [Nat.pow_add, Nat.pow_mul], ← Nat.div_div_eq_div_mul, Nat.pow_succ]
  exact (Nat.mod_mul_right_div_self ..).symm

theorem key_mod (l va : Nat) : key (l + 1) va % 512 ^ (l + 1) = key l va := by
  unfold key
  rw [Nat.pow_succ 512 (l + 1), Nat.mod_mul_right_mod]

theorem key_two {o : Nat} (hk : k < 2 ^ 26) (ho : o < pgsize) : key 2 (k * pgsize + o) = k := by
  unfold key
  rw [Nat.mul_comm, Nat.mul_add_div (by decide), Nat.div_eq_of_lt ho, Nat.add_zero]
  exact Nat.mod_eq_of_lt (by omega)

theorem px_lt (l va : Nat) : px l va < table.B := Nat.mod_lt _ (by decide)

theorem entry_v (o : Option Leaf) : (table.entry o).v = o.isSome := by
  cases o with
  | none => rfl
  | some l => rfl

section Walk
variable {W : World} {h : Heap} {pt a : Page} {t : Nat → Option Leaf} {N : Set Page} {l va : Nat}

theorem find_succ (F : Page → Nat → Pte) (l : Nat) (pt : Page) (va : Nat) :
    table.find F (l + 1) pt (key (l + 1) va) =
      if (F pt (px (l + 1) va)).v then table.find F l (F pt (px (l + 1) va)).pa (key l va) else none := by
  have hnext : table.next (F pt (px (l + 1) va)) =
      if (F pt (px (l + 1) va)).v then some (F pt (px (l + 1) va)).pa else none := rfl
  rw [Radix.find, show table.B = 512 from rfl, ← px_eq, key_mod, hnext]
  by_cases hv : (F pt (px (l + 1) va)).v = true
  · rw [if_pos hv, if_pos hv]
  · rw [if_neg hv, if_neg hv]

theorem find_zero (F : Page → Nat → Pte) (pt : Page) (va : Nat) :
    table.find F 0 pt (key 0 va) = some (pt, px 0 va) := by
  rw [px_eq, Nat.pow_zero, Nat.div_one]
  rfl

/-- `walk` that makes no nodes. -/
theorem vwp_walkFrom (ht : table.Tree h.pte l pt t N) (hN : N ⊆ h.own) :
    vwp W (walkFrom va false l pt) (fun r h' => h' = h ∧ r = table.find h.pte l pt (key l va)) h := by
  induction l generalizing pt t N with
  | zero => exact vwp_pure ⟨rfl, (find_zero _ _ _).symm⟩
  | succ l ih =>
    refine vwp_bind (vwp_readPte (hN ht.mem_root) ?_)
    rw [find_succ]
    obtain ⟨M, hM, _, hkid, _⟩ := ht.kid (px_lt (l + 1) va)
    obtain ⟨hnone, _⟩ | ⟨b, hlink, hb⟩ := hkid
    · rw [hnone]
      exact vwp_pure ⟨rfl, rfl⟩
    · rw [hlink]
      exact ih hb (hM.trans hN)

theorem pte_setPte_of_ne {e : Pte} {b : Page} (hb : b ≠ a) : (h.setPte a i e).pte b = h.pte b :=
  congrArg Frame.pte (update_of_ne hb _ _)

theorem pte_setPte_self (i : Nat) (e : Pte) : (h.setPte a i e).pte a = update (h.pte a) i e :=
  congrArg Frame.pte (update_self (f := h.frame) ..)

theorem fill_zero_pte (i : Nat) : (Frame.fill 0).pte i = {} := by
  simp [Frame.fill, Pte.ofWord]

/-- A new node. -/
theorem tree_fill (ha : h.frame a = .fill 0) : table.Tree h.pte l a (fun _ => none) {a} := by
  refine Radix.Tree.empty fun i _ => ?_
  change (h.frame a).pte i = _
  rw [ha, fill_zero_pte]
  rfl

/-- `walk` that makes the nodes on the way. -/
theorem vwp_walkFrom_alloc (ht : table.Tree h.pte l pt t N) (hN : N ⊆ h.own) :
    vwp W (walkFrom va true l pt) (fun r h' => ∃ N', Moves h h' N N' ∧ table.Tree h'.pte l pt t N' ∧
      match r with
      | none => h'.oom = true
      | some s => table.find h'.pte l pt (key l va) = some s) h := by
  induction l generalizing h pt t N with
  | zero => exact vwp_pure ⟨N, .refl hN, ht, find_zero _ _ _⟩
  | succ l ih =>
    have hpt := hN ht.mem_root
    refine vwp_bind (vwp_readPte hpt ?_)
    obtain ⟨M, hM, hroot, hkid, hput⟩ := ht.kid (px_lt (l + 1) va)
    obtain ⟨hnone, hempty, hkeys⟩ | ⟨b, hlink, hb⟩ := hkid
    · rw [hnone]
      refine vwp_bind (vwp_kalloc (vwp_pure ⟨N, .fail hN, ht, rfl⟩) fun a ha => ?_)
      have hne : pt ≠ a := fun e => ha (e ▸ hpt)
      refine vwp_bind (vwp_memset (.inl rfl) ?_)
      refine vwp_bind (vwp_setPte (.inr hpt) ?_)
      generalize hh : Heap.setPte _ _ _ _ = h₁
      have hmoves : Moves h h₁ N (insert a N) := by
        rw [← hh]
        have hsub : insert a N ⊆ insert a h.own := Set.insert_subset_insert hN
        exact ((Moves.add hN ha _).trans (.setFrame hsub (.inl rfl) _)).trans
          (.setPte hsub (.inr ht.mem_root) _ _)
      have hnew : h₁.frame a = .fill 0 := by
        rw [← hh]
        change update (update _ _ _) _ _ a = _
        rw [update_of_ne hne.symm, update_self]
      have hself : h₁.pte pt = update (h.pte pt) (px (l + 1) va) { v := true, pa := a } := by
        rw [← hh, pte_setPte_self]
        refine congrArg (update · _ _) (congrArg Frame.pte ?_)
        change update (update _ _ _) _ _ pt = _
        rw [update_of_ne hne, update_of_ne hne]
      have hother : ∀ c ∈ N, c ≠ pt → h₁.pte c = h.pte c := by
        intro c hc hcp
        have hca : c ≠ a := fun e => ha (e ▸ hN hc)
        rw [← hh, pte_setPte_of_ne hcp]
        refine congrArg Frame.pte ?_
        change update (update _ _ _) _ _ c = _
        rw [update_of_ne hca, update_of_ne hca]
      clear hh
      have hown : ∀ c ∈ N, c ∈ h₁.own ∧ c ∉ ({a} : Set Page) := by
        intro c hc
        refine ⟨hmoves.sub' (.inr hc), ?_⟩
        intro e
        exact ha (e ▸ hN hc)
      refine vwp_mono (ih (tree_fill hnew) (Set.singleton_subset_iff.mpr (hmoves.sub' (.inl rfl)))) ?_
      rintro r h' ⟨M', hmoves', htree, hr⟩
      have hmoves'' := hmoves'.extend (fun c hc => (hown c hc).1)
        (Set.disjoint_right.mpr fun c hc => (hown c hc).2)
      rw [← Set.insert_eq] at hmoves''
      have hslot : h'.pte pt = update (h.pte pt) (px (l + 1) va) { v := true, pa := a } := by
        obtain ⟨hin, hnot⟩ := hown pt ht.mem_root
        rw [hmoves'.pte hin hnot, hself]
      have hfound : h'.pte pt (px (l + 1) va) = table.link a := by
        rw [hslot, update_self]
        rfl
      rw [Set.union_comm] at hmoves''
      rw [hempty, Set.sdiff_empty] at hput
      refine ⟨N ∪ M', hmoves.trans hmoves'', ?_, ?_⟩
      · refine hput h'.pte t M' (fun c hc hcp _ => ?_) (fun j hj => ?_) (fun _ _ _ _ _ => rfl)
          (fun c hc hcN => ?_) (.inr ⟨a, hfound, htree.congr hkeys⟩)
        · rw [hmoves'.pte (hown c hc).1 (hown c hc).2, hother c hc hcp]
        · rw [hslot, update_of_ne hj]
        · exact absurd hc (hmoves'.mem_of_notMem (hown c hcN).1 (hown c hcN).2).2
      · cases r with
        | none => exact hr
        | some s =>
          dsimp only at hr ⊢
          rw [find_succ, hfound]
          exact hr
    · rw [hlink]
      refine vwp_mono (ih hb (hM.trans hN)) ?_
      rintro r h' ⟨M', hmoves, hb', hr⟩
      have hroot' := hmoves.pte hpt hroot
      have hmoves' := hmoves.extend (Set.sdiff_subset.trans hN) Set.disjoint_sdiff_right
      rw [Set.union_sdiff_cancel hM, Set.union_comm] at hmoves'
      refine ⟨N \ M ∪ M', hmoves', ?_, ?_⟩
      · refine hput h'.pte t M' (fun c hc _ hcM => hmoves.pte (hN hc) hcM) (fun j _ => by rw [hroot'])
          (fun _ _ _ _ _ => rfl) (fun c hc hcN => ?_) (.inr ⟨b, by rw [hroot', hlink], hb'⟩)
        by_contra hcM
        exact (hmoves.mem_of_notMem (hN hcN) hcM).2 hc
      · cases r with
        | none => exact hr
        | some s =>
          dsimp only at hr ⊢
          rw [find_succ, hroot', hlink]
          exact hr

/-- The number of pages below `MAXVA`. -/
abbrev maxpage : Nat := 2 ^ 26

theorem mul_pgsize_lt (hk : k < maxpage) : ¬ maxva ≤ k * pgsize := by
  unfold maxva pgsize
  unfold maxpage at hk
  omega

theorem key_mul (hk : k < maxpage) : key 2 (k * pgsize) = k := by
  have := key_two (o := 0) hk (by decide)
  rwa [Nat.add_zero] at this

theorem pte_setPte (i : Nat) (e : Pte) : (h.setPte a i e).pte = Radix.set h.pte a i e := by
  funext b
  by_cases hb : b = a
  · rw [hb, pte_setPte_self]
    exact (update_self (f := h.pte) ..).symm
  · rw [pte_setPte_of_ne hb]
    exact (update_of_ne (f := h.pte) hb ..).symm

/-- The slot of a page that is found has its mapping, and setting the slot changes it. -/
theorem Table.slot (ht : Table h pt t N) (hk : k < maxpage)
    (hf : table.find h.pte 2 pt k = some (a, i)) : a ∈ N ∧ h.pte a i = table.entry (t k) ∧
      ∀ v, Table (h.setPte a i (table.entry v)) pt (update t k v) N := by
  have hspec := ht.find_spec (k := k) (Nat.lt_trans hk (by decide))
  rw [hf] at hspec
  obtain ⟨ha, _, hval, hset⟩ := hspec
  refine ⟨ha, hval, fun v => ?_⟩
  have := hset v
  rwa [← pte_setPte] at this

section
variable (ht : Table h pt t N) (hN : N ⊆ h.own) (hk : k < maxpage)
include ht hN hk

theorem vwp_walk (hnone : t k = none → Q none h)
    (hsome : ∀ a i, a ∈ N → h.pte a i = table.entry (t k) →
      (∀ v, Table (h.setPte a i (table.entry v)) pt (update t k v) N) → Q (some (a, i)) h) :
    vwp W (walk pt (k * pgsize) false) Q h := by
  unfold walk
  rw [if_neg (mul_pgsize_lt hk)]
  refine vwp_mono (vwp_walkFrom ht hN) ?_
  rintro r h' ⟨hh, hr⟩
  rw [key_mul hk] at hr
  subst hh
  cases r with
  | none =>
    have hspec := ht.find_spec (k := k) (Nat.lt_trans hk (by decide))
    rw [← hr] at hspec
    exact hnone hspec
  | some s =>
    obtain ⟨a, i⟩ := s
    obtain ⟨ha, hval, hset⟩ := Table.slot ht hk hr.symm
    exact hsome a i ha hval hset

theorem vwp_walk_alloc (hnone : ∀ h' N', Moves h h' N N' → Table h' pt t N' → h'.oom = true → Q none h')
    (hsome : ∀ h' N' a i, Moves h h' N N' → Table h' pt t N' → a ∈ N' → h'.pte a i = table.entry (t k) →
      (∀ v, Table (h'.setPte a i (table.entry v)) pt (update t k v) N') → Q (some (a, i)) h') :
    vwp W (walk pt (k * pgsize) true) Q h := by
  unfold walk
  rw [if_neg (mul_pgsize_lt hk)]
  refine vwp_mono (vwp_walkFrom_alloc ht hN) ?_
  rintro r h' ⟨N', hmoves, ht', hr⟩
  rw [key_mul hk] at hr
  cases r with
  | none => exact hnone h' N' hmoves ht' hr
  | some s =>
    obtain ⟨a, i⟩ := s
    obtain ⟨ha, hval, hset⟩ := Table.slot ht' hk hr
    exact hsome h' N' a i hmoves ht' ha hval hset

/-- `mappages` of one page that is not mapped yet. -/
theorem vwp_mappages {pa : Page} {perm : Perm} {Q : Int → Heap → Prop}
    (hfree : t k = none)
    (hfail : ∀ h' N', Moves h h' N N' → Table h' pt t N' → h'.oom = true → Q (-1) h')
    (hok : ∀ h' N', Moves h h' N N' → Table h' pt (update t k (some ⟨perm, pa⟩)) N' → Q 0 h') :
    vwp W (mappages pt (k * pgsize) pgsize pa perm) Q h := by
  unfold mappages
  rw [if_neg (by rw [not_not]; exact Nat.mul_mod_left k pgsize), if_neg (by decide), if_neg (by decide),
    show pgsize / pgsize = 1 from rfl]
  unfold mapLoop
  refine vwp_bind (vwp_walk_alloc ht hN hk (fun h' N' hm ht' ho => vwp_pure (hfail h' N' hm ht' ho)) ?_)
  intro h' N' a i hm ht' ha hval hset
  refine vwp_bind (vwp_readPte (hm.sub' ha) ?_)
  rw [hval, hfree]
  refine vwp_bind (vwp_setPte (hm.sub' ha) ?_)
  exact vwp_pure (hok _ N' (hm.trans (.setPte hm.sub' ha _ _)) (hset (some ⟨perm, pa⟩)))
end

/-! ## Freeing a table -/

/-- The loop of `freewalk` over a node with no links. -/
theorem vwp_freeEntries_empty (hpt : pt ∈ h.own) (hnone : ∀ i < 512, h.pte pt i = {})
    : vwp W (freeEntries rec pt n) (fun _ h' => h' = h) h := by
  induction n with
  | zero => exact vwp_pure rfl
  | succ n ih =>
    refine vwp_bind (vwp_readPte hpt ?_)
    rw [hnone _ (by omega)]
    exact ih

/-- The loop of `freewalk` over the rest of the links of a node: it frees what is below. -/
theorem vwp_freeEntries
    (hrec : ∀ {h : Heap} {b : Page} {t : Nat → Option Leaf} {M : Set Page}, table.Tree h.pte l b t M → M ⊆ h.own →
      (∀ k < 512 ^ (l + 1), t k = none) → vwp W (rec b) (fun _ h' => Moves h h' M ∅) h)
    (ht : table.Tree h.pte (l + 1) pt t N) (hN : N ⊆ h.own) (hnone : ∀ k < 512 ^ (l + 2), t k = none)
    (hn : n ≤ 512) (hdone : ∀ i < 512 - n, h.pte pt i = {}) :
    vwp W (freeEntries rec pt n) (fun _ h' => Moves h h' N {pt}) h := by
  induction n generalizing h N with
  | zero =>
    have halone : N = {pt} := by
      refine ht.alone fun i hi => ?_
      rw [hdone i hi]
      rfl
    rw [halone] at hN ⊢
    exact vwp_pure (.refl hN)
  | succ n ih =>
    have hpt := hN ht.mem_root
    have hi : 512 - (n + 1) < table.B := Nat.sub_lt (by decide) (Nat.succ_pos n)
    have hlast : ∀ i < 512 - n, i ≠ 512 - (n + 1) → i < 512 - (n + 1) := by
      intro i hi hne
      omega
    refine vwp_bind (vwp_readPte hpt ?_)
    obtain ⟨M, hM, hroot, hkid, hput⟩ := ht.kid hi
    obtain ⟨hempty, _, _⟩ | ⟨b, hlink, hb⟩ := hkid
    · rw [hempty]
      refine ih ht hN (Nat.le_of_succ_le hn) fun i hi => ?_
      by_cases e : i = 512 - (n + 1)
      · rw [e, hempty]
        rfl
      · exact hdone i (hlast i hi e)
    · rw [hlink]
      have hbelow : ∀ k < 512 ^ (l + 1), t ((512 - (n + 1)) * table.B ^ (l + 1) + k) = none := by
        intro k hk
        exact hnone _ (Radix.Tree.key_lt table hi hk)
      refine vwp_seq (hrec hb (hM.trans hN) hbelow) fun _ h₁ hm => ?_
      have hroot' := hm.pte hpt hroot
      obtain ⟨hpt₁, _⟩ := hm.mem_of_notMem hpt hroot
      have hrest := hm.extend (Set.sdiff_subset.trans hN) Set.disjoint_sdiff_right
      rw [Set.union_sdiff_cancel hM, Set.empty_union] at hrest
      refine vwp_bind (vwp_setPte hpt₁ ?_)
      have hmoves := hrest.trans (.setPte hrest.sub' ⟨ht.mem_root, hroot⟩ (512 - (n + 1)) {})
      refine vwp_mono (ih (N := N \ M) ?_ hmoves.sub' (Nat.le_of_succ_le hn) fun i hi => ?_) fun _ h' hm' =>
        hmoves.trans hm'
      · have htree := hput (h₁.setPte pt (512 - (n + 1)) {}).pte t ∅ (fun c hc hcp hcM => ?_) (fun j hj => ?_)
          (fun _ _ _ _ _ => rfl) (fun c hc => absurd hc (Set.notMem_empty c)) (.inl ⟨?_, rfl, hbelow⟩)
        · rwa [Set.union_empty] at htree
        · rw [pte_setPte_of_ne hcp, hm.pte (hN hc) hcM]
        · rw [pte_setPte_self, update_of_ne hj, hroot']
        · rw [pte_setPte_self, update_self]
          rfl
      · rw [pte_setPte_self]
        by_cases e : i = 512 - (n + 1)
        · rw [e, update_self]
        · rw [update_of_ne e, hroot']
          exact hdone i (hlast i hi e)

theorem vwp_kfree_last {h' : Heap} (hm : Moves h h' N {pt}) : vwp W (kfree pt) (fun _ h' => Moves h h' N ∅) h' := by
  refine vwp_kfree (hm.sub' rfl) ?_
  have hd := hm.trans (Moves.drop hm.sub' rfl)
  rwa [Set.sdiff_self] at hd

/-- `freewalk` frees the nodes of a table without mappings. -/
theorem vwp_freewalk (ht : table.Tree h.pte l pt t N) (hN : N ⊆ h.own) (hnone : ∀ k < 512 ^ (l + 1), t k = none) :
    vwp W (freewalk (l + 1) pt) (fun _ h' => Moves h h' N ∅) h := by
  induction l generalizing h pt t N with
  | zero =>
    obtain ⟨hsingle, hentry⟩ := ht
    subst hsingle
    have hempty : ∀ i < 512, h.pte pt i = {} := by
      intro i hi
      rw [hentry i hi, hnone i hi]
      rfl
    refine vwp_seq (vwp_freeEntries_empty (hN rfl) hempty) fun _ h' e => ?_
    rw [e]
    exact vwp_kfree_last (.refl hN)
  | succ l ih =>
    refine vwp_seq (vwp_freeEntries ih ht hN hnone (Nat.le_refl 512) fun i hi => ?_)
      fun _ h' hm => vwp_kfree_last hm
    exact absurd hi (by omega)

end Walk
end Txv6.Vm
