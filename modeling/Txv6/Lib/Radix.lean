import Mathlib.Tactic.Ring

/-! # Radix trees in memory

A tree of nodes with `B` slots each, of a given height. A slot of an inner node is empty or links
to a node one level below; a slot of a node at the bottom is empty or has a value. What the tree
says is a partial map from keys below `B ^ (height + 1)` to values, and the nodes are a set of
addresses that no two places of the tree share.
-/
namespace Txv6.Lib
open Function

/-- How the slots of the nodes are written: `A` are addresses of nodes, `E` the contents of slots
and `V` the values. -/
structure Radix (A E V : Type) where
  B : Nat
  pos : 0 < B
  link : A → E
  entry : Option V → E
  next : E → Option A
  next_link : ∀ a, next (link a) = some a
  next_none : next (entry none) = none

namespace Radix
variable {A E V : Type} (R : Radix A E V) {F F' : A → Nat → E} {l i k : Nat} {a b : A} {t t' : Nat → Option V}
  {N M : Set A}

/-- The tree of height `l` below the node `a` is the map `t`, and its nodes are `N`. -/
def Tree (F : A → Nat → E) : Nat → A → (Nat → Option V) → Set A → Prop
  | 0, a, t, N => N = {a} ∧ ∀ i < R.B, F a i = R.entry (t i)
  | l + 1, a, t, N => ∃ Ns : Nat → Set A,
    N = insert a {b | ∃ i < R.B, b ∈ Ns i} ∧ (∀ i < R.B, a ∉ Ns i) ∧
    (∀ i < R.B, ∀ j < R.B, i ≠ j → Disjoint (Ns i) (Ns j)) ∧
    ∀ i < R.B, (F a i = R.entry none ∧ Ns i = ∅ ∧ ∀ k < R.B ^ (l + 1), t (i * R.B ^ (l + 1) + k) = none) ∨
      ∃ b, F a i = R.link b ∧ Tree F l b (fun k => t (i * R.B ^ (l + 1) + k)) (Ns i)

/-- The slot for a key, as far as the tree leads there. -/
def find (F : A → Nat → E) : Nat → A → Nat → Option (A × Nat)
  | 0, a, k => some (a, k)
  | l + 1, a, k =>
    match R.next (F a (k / R.B ^ (l + 1))) with
    | none => none
    | some b => find F l b (k % R.B ^ (l + 1))

/-- Memory with one slot changed. -/
def set [DecidableEq A] (F : A → Nat → E) (a : A) (i : Nat) (e : E) : A → Nat → E :=
  Function.update F a (Function.update (F a) i e)

variable {R}

namespace Tree

theorem mem_root (h : R.Tree F l a t N) : a ∈ N := by
  cases l with
  | zero =>
    rw [h.1]
    exact Set.mem_singleton a
  | succ l =>
    obtain ⟨Ns, hN, _⟩ := h
    rw [hN]
    exact Set.mem_insert a _

/-- Only the nodes matter. -/
theorem frame (h : R.Tree F l a t N) (hF : ∀ b ∈ N, F' b = F b) : R.Tree F' l a t N := by
  induction l generalizing a t N with
  | zero =>
    refine ⟨h.1, fun i hi => ?_⟩
    rw [hF a h.mem_root]
    exact h.2 i hi
  | succ l ih =>
    have hroot := h.mem_root
    obtain ⟨Ns, hN, hnot, hdisj, hkids⟩ := h
    refine ⟨Ns, hN, hnot, hdisj, fun i hi => ?_⟩
    rw [hF a hroot]
    obtain hnone | ⟨b, hlink, hb⟩ := hkids i hi
    · exact .inl hnone
    · refine .inr ⟨b, hlink, ih hb fun c hc => hF c ?_⟩
      rw [hN]
      exact Set.mem_insert_of_mem a ⟨i, hi, hc⟩

theorem key_lt (R : Radix A E V) {l i k : Nat} (hi : i < R.B) (hk : k < R.B ^ (l + 1)) :
    i * R.B ^ (l + 1) + k < R.B ^ (l + 2) := by
  have hle : (i + 1) * R.B ^ (l + 1) ≤ R.B * R.B ^ (l + 1) := Nat.mul_le_mul_right _ hi
  rw [Nat.add_mul, Nat.one_mul] at hle
  rw [Nat.pow_succ R.B (l + 1), Nat.mul_comm _ R.B]
  omega

/-- Only the keys in range matter. -/
theorem congr (h : R.Tree F l a t N) (ht : ∀ k < R.B ^ (l + 1), t' k = t k) : R.Tree F l a t' N := by
  induction l generalizing a t t' N with
  | zero =>
    refine ⟨h.1, fun i hi => ?_⟩
    rw [ht i (by rwa [Nat.zero_add, Nat.pow_one])]
    exact h.2 i hi
  | succ l ih =>
    obtain ⟨Ns, hN, hnot, hdisj, hkids⟩ := h
    refine ⟨Ns, hN, hnot, hdisj, fun i hi => ?_⟩
    obtain ⟨hnone, hempty, hkeys⟩ | ⟨b, hlink, hb⟩ := hkids i hi
    · refine .inl ⟨hnone, hempty, fun k hk => ?_⟩
      rw [ht _ (key_lt R hi hk)]
      exact hkeys k hk
    · exact .inr ⟨b, hlink, ih hb fun k hk => ht _ (key_lt R hi hk)⟩

/-- A node with empty slots is a tree with no values. -/
theorem empty (h : ∀ i < R.B, F a i = R.entry none) : R.Tree F l a (fun _ => none) {a} := by
  cases l with
  | zero => exact ⟨rfl, h⟩
  | succ l =>
    refine ⟨fun _ => ∅, ?_, fun _ _ => Set.notMem_empty a, fun _ _ _ _ _ => disjoint_bot_left,
      fun i hi => .inl ⟨h i hi, rfl, fun _ _ => rfl⟩⟩
    ext b
    simp

/-- What is below a slot of an inner node, and what becomes of the tree when it is replaced: the
nodes `M` below the slot by nodes `M'`. -/
theorem kid [DecidableEq A] (h : R.Tree F (l + 1) a t N) (hi : i < R.B) :
    ∃ M ⊆ N, a ∉ M ∧
      ((F a i = R.entry none ∧ M = ∅ ∧ ∀ k < R.B ^ (l + 1), t (i * R.B ^ (l + 1) + k) = none) ∨
        ∃ b, F a i = R.link b ∧ R.Tree F l b (fun k => t (i * R.B ^ (l + 1) + k)) M) ∧
      ∀ F' t' M', (∀ c ∈ N, c ≠ a → c ∉ M → F' c = F c) → (∀ j, j ≠ i → F' a j = F a j) →
        (∀ j < R.B, j ≠ i → ∀ k < R.B ^ (l + 1), t' (j * R.B ^ (l + 1) + k) = t (j * R.B ^ (l + 1) + k)) →
        (∀ c ∈ M', c ∈ N → c ∈ M) →
        ((F' a i = R.entry none ∧ M' = ∅ ∧ ∀ k < R.B ^ (l + 1), t' (i * R.B ^ (l + 1) + k) = none) ∨
          ∃ b, F' a i = R.link b ∧ R.Tree F' l b (fun k => t' (i * R.B ^ (l + 1) + k)) M') →
        R.Tree F' (l + 1) a t' (N \ M ∪ M') := by
  obtain ⟨Ns, hN, hnot, hdisj, hkids⟩ := h
  have hmem : ∀ {j c}, j < R.B → c ∈ Ns j → c ∈ N := by
    intro j c hj hc
    rw [hN]
    exact Set.mem_insert_of_mem a ⟨j, hj, hc⟩
  have hother : ∀ {j c}, j < R.B → j ≠ i → c ∈ Ns j → c ∉ Ns i := by
    intro j c hj hne hc hci
    exact Set.disjoint_left.mp (hdisj j hj i hi hne) hc hci
  refine ⟨Ns i, fun c hc => hmem hi hc, hnot i hi, hkids i hi, ?_⟩
  intro F' t' M' hF hslots ht hM hnew
  have ha : a ∈ N := by
    rw [hN]
    exact Set.mem_insert a _
  have haM : a ∉ M' := fun hc => hnot i hi (hM a hc ha)
  refine ⟨update Ns i M', ?_, fun j hj => ?_, fun j hj j' hj' hne => ?_, fun j hj => ?_⟩
  · ext c
    constructor
    · intro hc
      obtain ⟨hc, hci⟩ | hc := hc
      · rw [hN] at hc
        obtain hc | ⟨j, hj, hc⟩ := hc
        · exact .inl hc
        · refine .inr ⟨j, hj, ?_⟩
          rw [update_of_ne]
          · exact hc
          · intro e
            exact hci (e ▸ hc)
      · refine .inr ⟨i, hi, ?_⟩
        rw [update_self]
        exact hc
    · intro hc
      obtain hc | ⟨j, hj, hc⟩ := hc
      · rw [hc]
        exact .inl ⟨ha, hnot i hi⟩
      · by_cases e : j = i
        · rw [e, update_self] at hc
          exact .inr hc
        · rw [update_of_ne e] at hc
          exact .inl ⟨hmem hj hc, hother hj e hc⟩
  · by_cases e : j = i
    · rw [e, update_self]
      exact haM
    · rw [update_of_ne e]
      exact hnot j hj
  · refine Set.disjoint_left.mpr fun c hc hc' => ?_
    by_cases e : j = i
    · have e' : j' ≠ i := fun e' => hne (e.trans e'.symm)
      rw [e, update_self] at hc
      rw [update_of_ne e'] at hc'
      exact hother hj' e' hc' (hM c hc (hmem hj' hc'))
    · rw [update_of_ne e] at hc
      by_cases e' : j' = i
      · rw [e', update_self] at hc'
        exact hother hj e hc (hM c hc' (hmem hj hc))
      · rw [update_of_ne e'] at hc'
        exact Set.disjoint_left.mp (hdisj j hj j' hj' hne) hc hc'
  · by_cases e : j = i
    · subst e
      rw [update_self]
      exact hnew
    · rw [update_of_ne e, hslots j e]
      obtain ⟨hnone, hempty, hkeys⟩ | ⟨b, hlink, hb⟩ := hkids j hj
      · refine .inl ⟨hnone, hempty, fun k hk => ?_⟩
        rw [ht j hj e k hk]
        exact hkeys k hk
      · refine .inr ⟨b, hlink, ?_⟩
        refine (hb.frame fun c hc => hF c (hmem hj hc) ?_ (hother hj e hc)).congr fun k hk => ht j hj e k hk
        intro e'
        exact hnot j hj (e' ▸ hc)

/-- A node with no links and no values is alone. -/
theorem alone (h : R.Tree F l a t N) (hnone : ∀ i < R.B, R.next (F a i) = none) : N = {a} := by
  cases l with
  | zero => exact h.1
  | succ l =>
    obtain ⟨Ns, hN, _, _, hkids⟩ := h
    rw [hN]
    ext b
    constructor
    · intro hb
      obtain hb | ⟨i, hi, hb⟩ := hb
      · exact hb
      · obtain ⟨_, hempty, _⟩ | ⟨c, hlink, _⟩ := hkids i hi
        · rw [hempty] at hb
          exact absurd hb (Set.notMem_empty b)
        · have := hnone i hi
          rw [hlink, R.next_link] at this
          cases this
    · exact fun hb => .inl hb

theorem div_lt (R : Radix A E V) {l k : Nat} (hk : k < R.B ^ (l + 2)) : k / R.B ^ (l + 1) < R.B := by
  rw [Nat.pow_succ R.B (l + 1), Nat.mul_comm] at hk
  exact Nat.div_lt_of_lt_mul (by rwa [Nat.mul_comm] at hk)

theorem mod_lt (R : Radix A E V) (l k : Nat) : k % R.B ^ (l + 1) < R.B ^ (l + 1) :=
  Nat.mod_lt _ (Nat.pow_pos R.pos)

theorem div_mul_add_mod (k n : Nat) : k / n * n + k % n = k := by
  rw [Nat.mul_comm]
  exact Nat.div_add_mod k n

/-- A key other than `k` goes through another slot, or to another key below the same slot. -/
theorem update_below {n j x k : Nat} {v : Option V} (hx : x < n) :
    update t k v (j * n + x) =
      if j = k / n then update (fun x => t (k / n * n + x)) (k % n) v x else t (j * n + x) := by
  have hk := div_mul_add_mod k n
  by_cases e : j * n + x = k
  · have hdiv : (j * n + x) / n = j := by
      rw [Nat.mul_comm, Nat.mul_add_div (Nat.lt_of_le_of_lt (Nat.zero_le x) hx), Nat.div_eq_of_lt hx,
        Nat.add_zero]
    have hmod : (j * n + x) % n = x := by
      rw [Nat.mul_comm, Nat.mul_add_mod, Nat.mod_eq_of_lt hx]
    rw [e] at hdiv hmod
    rw [e, update_self, if_pos hdiv.symm, hmod, update_self]
  · rw [update_of_ne e]
    split
    next hj =>
      rw [update_of_ne]
      · rw [hj]
      · intro hx'
        exact e (by rw [hj, hx', hk])
    next => rfl

/-- **Finding a key.** Where the tree leads to no slot there is no value; where it does, the slot has
the value, and changing the slot changes this value and nothing else. -/
theorem find_spec [DecidableEq A] (h : R.Tree F l a t N) (hk : k < R.B ^ (l + 1)) :
    match R.find F l a k with
    | none => t k = none
    | some (b, i) => b ∈ N ∧ i < R.B ∧ F b i = R.entry (t k) ∧
        ∀ v, R.Tree (set F b i (R.entry v)) l a (update t k v) N := by
  induction l generalizing a t N k with
  | zero =>
    rw [Nat.zero_add, Nat.pow_one] at hk
    refine ⟨h.mem_root, hk, h.2 k hk, fun v => ⟨h.1, fun i hi => ?_⟩⟩
    unfold set
    rw [update_self]
    by_cases e : i = k
    · rw [e, update_self, update_self]
    · rw [update_of_ne e, update_of_ne e]
      exact h.2 i hi
  | succ l ih =>
    have hi := div_lt R hk
    have hkey := div_mul_add_mod k (R.B ^ (l + 1))
    obtain ⟨M, hMN, haM, hkid, hput⟩ := h.kid hi
    obtain ⟨hnone, _, hkeys⟩ | ⟨b, hlink, hb⟩ := hkid
    · unfold find
      rw [hnone, R.next_none]
      have := hkeys _ (mod_lt R l k)
      rwa [hkey] at this
    · have hsub := ih hb (mod_lt R l k)
      unfold find
      rw [hlink, R.next_link]
      dsimp only
      generalize R.find F l b (k % R.B ^ (l + 1)) = r at hsub ⊢
      cases r with
      | none =>
        dsimp only at hsub ⊢
        rwa [hkey] at hsub
      | some s =>
        obtain ⟨c, j⟩ := s
        obtain ⟨hc, hj, hval, hset⟩ := hsub
        rw [hkey] at hval
        refine ⟨hMN hc, hj, hval, fun v => ?_⟩
        have hsame : ∀ d, d ∉ M → set F c j (R.entry v) d = F d := by
          intro d hd
          have hdc : d ≠ c := fun e => hd (e ▸ hc)
          exact update_of_ne hdc _ _
        have hnew := hput (set F c j (R.entry v)) (update t k v) M (fun d _ _ hd => hsame d hd)
          (fun j' _ => by rw [hsame a haM])
          (fun j' _ hne x hx => by rw [update_below hx, if_neg hne]) (fun d hd _ => hd)
          (.inr ⟨b, by rw [hsame a haM, hlink], (hset v).congr fun x hx => by
            rw [update_below hx, if_pos rfl]⟩)
        rwa [Set.sdiff_union_of_subset hMN] at hnew

end Tree
end Radix
end Txv6.Lib
