import Txv6.Vm.Table

/-! # Address spaces

An address space is a page table together with the user pages that it maps, each of them once. What
`uvmalloc`, `uvmdealloc` and `uvmfree` do to it, on success and on every path that runs out of
memory.
-/
namespace Txv6.Vm
open Lib Function

variable {oldsz sz : Nat} {Q : Option Page → Heap → Prop} {perm : Perm}

/-- The number of the page at `TRAPFRAME`. User pages are below. -/
abbrev top : Nat := maxpage - 2

theorem trapframe_eq : trapframe = top * pgsize := by decide
theorem trampoline_eq : trampoline = (top + 1) * pgsize := by decide

theorem lt_maxpage {k : Nat} (hk : k < top) : k < maxpage := hk.trans (by decide)

/-- The number of pages for so many bytes. -/
def pgs (sz : Nat) : Nat := (sz + (pgsize - 1)) / pgsize

theorem pgroundup_eq (sz : Nat) : pgroundup sz = pgs sz * pgsize := by
  unfold pgroundup pgs
  rw [Nat.add_sub_assoc (by decide)]

theorem pgs_le {n : Nat} : pgs sz ≤ n ↔ sz ≤ n * pgsize := by
  unfold pgs pgsize
  omega

theorem lt_pgs {n : Nat} : n < pgs sz ↔ n * pgsize < sz := by
  rw [← Nat.not_le, pgs_le, Nat.not_le]

theorem pgs_mul (n : Nat) : pgs (n * pgsize) = n := by
  unfold pgs pgsize
  omega

theorem pgs_mono {a b : Nat} (hab : a ≤ b) : pgs a ≤ pgs b := Nat.div_le_div_right (Nat.add_le_add_right hab _)

/-! ## The pages of some mappings -/

/-- The pages that are mapped from `lo` to `hi`. -/
def pages (t : Nat → Option Leaf) (lo hi : Nat) : Set Page :=
  {a | ∃ k l, lo ≤ k ∧ k < hi ∧ t k = some l ∧ l.pa = a}

/-- The mappings without those from `lo` to `hi`. -/
def clear (t : Nat → Option Leaf) (lo hi : Nat) : Nat → Option Leaf :=
  fun k => if lo ≤ k ∧ k < hi then none else t k

section Pages
variable {t t' : Nat → Option Leaf} {lo hi k n : Nat} {l : Leaf}

theorem pages_mono {lo' hi' : Nat} (hlo : lo' ≤ lo) (hhi : hi ≤ hi') : pages t lo hi ⊆ pages t lo' hi' := by
  rintro a ⟨k, l, hk, hk', ht, ha⟩
  exact ⟨k, l, hlo.trans hk, Nat.lt_of_lt_of_le hk' hhi, ht, ha⟩

theorem pages_congr (h : ∀ k, lo ≤ k → k < hi → t' k = t k) : pages t' lo hi = pages t lo hi := by
  ext a
  constructor
  · rintro ⟨k, l, hk, hk', ht, ha⟩
    exact ⟨k, l, hk, hk', h k hk hk' ▸ ht, ha⟩
  · rintro ⟨k, l, hk, hk', ht, ha⟩
    exact ⟨k, l, hk, hk', (h k hk hk').trans ht, ha⟩

theorem pages_none (h : ∀ k, lo ≤ k → k < hi → t k = none) : pages t lo hi = ∅ := by
  refine Set.eq_empty_iff_forall_notMem.mpr ?_
  rintro a ⟨k, l, hk, hk', ht, _⟩
  rw [h k hk hk'] at ht
  cases ht

theorem pages_empty (h : hi ≤ lo) : pages t lo hi = ∅ :=
  pages_none fun _ hk hk' => absurd (hk.trans_lt hk') (Nat.not_lt.mpr h)

theorem pages_update_of_out (h : k < lo ∨ hi ≤ k) (v : Option Leaf) :
    pages (update t k v) lo hi = pages t lo hi := by
  refine pages_congr fun j hj hj' => update_of_ne ?_ _ _
  omega

/-- One more page. -/
theorem pages_update_some (hlo : lo ≤ k) (hhi : k < hi) (hfree : t k = none) :
    pages (update t k (some l)) lo hi = insert l.pa (pages t lo hi) := by
  ext a
  constructor
  · rintro ⟨j, l', hj, hj', ht, ha⟩
    by_cases e : j = k
    · rw [e, update_self] at ht
      cases ht
      exact .inl ha.symm
    · rw [update_of_ne e] at ht
      exact .inr ⟨j, l', hj, hj', ht, ha⟩
  · rintro (e | ⟨j, l', hj, hj', ht, ha⟩)
    · exact ⟨k, l, hlo, hhi, update_self .., e.symm⟩
    · refine ⟨j, l', hj, hj', ?_, ha⟩
      rw [update_of_ne]
      · exact ht
      · intro e
        rw [e, hfree] at ht
        cases ht

theorem pages_succ_none (hnone : t lo = none) : pages t lo hi = pages t (lo + 1) hi := by
  refine Set.Subset.antisymm ?_ (pages_mono (Nat.le_succ lo) (Nat.le_refl hi))
  rintro a ⟨j, l, hj, hj', htj, ha⟩
  refine ⟨j, l, Nat.lt_of_le_of_ne hj ?_, hj', htj, ha⟩
  intro e
  rw [← e, hnone] at htj
  cases htj

theorem pages_last_none (hnone : t k = none) : pages t lo (k + 1) = pages t lo k := by
  refine Set.Subset.antisymm ?_ (pages_mono (Nat.le_refl lo) (Nat.le_succ k))
  rintro a ⟨j, l, hj, hj', htj, ha⟩
  refine ⟨j, l, hj, Nat.lt_of_le_of_ne (Nat.le_of_lt_succ hj') ?_, htj, ha⟩
  intro e
  rw [e, hnone] at htj
  cases htj

theorem pages_succ_some (hlo : lo < hi) (hsome : t lo = some l) :
    pages t lo hi = insert l.pa (pages t (lo + 1) hi) := by
  have hadd := pages_update_some (t := update t lo none) (l := l) (Nat.le_refl lo) hlo
    (update_self ..)
  rw [pages_succ_none (update_self ..), pages_update_of_out (.inl (Nat.lt_succ_self lo)),
    update_idem, ← hsome, update_eq_self] at hadd
  exact hadd

theorem clear_empty (h : hi ≤ lo) : clear t lo hi = t := by
  funext k
  exact if_neg fun hk => absurd (hk.1.trans_lt hk.2) (Nat.not_lt.mpr h)

theorem clear_of_lt (h : k < lo) : clear t lo hi k = t k := if_neg fun hk => absurd hk.1 (Nat.not_le.mpr h)

theorem clear_of_le (h : hi ≤ k) : clear t lo hi k = t k := if_neg fun hk => absurd hk.2 (Nat.not_lt.mpr h)

theorem clear_mem (hlo : lo ≤ k) (hhi : k < hi) : clear t lo hi k = none := if_pos ⟨hlo, hhi⟩

theorem clear_succ (hhi : lo < hi) : clear (update t lo none) (lo + 1) hi = clear t lo hi := by
  funext k
  by_cases e : k = lo
  · rw [e, clear_of_lt (Nat.lt_succ_self lo), update_self, clear_mem (Nat.le_refl lo) hhi]
  · unfold clear
    rw [update_of_ne e]
    exact if_congr (by omega) rfl rfl

end Pages

/-! ## Spaces -/

/-- The page table at `pt` with the mappings `t` and the nodes `N`. -/
structure Space (h : Heap) (pt : Page) (t : Nat → Option Leaf) (N : Set Page) : Prop where
  table : Table h pt t N
  nodes : N ⊆ h.own
  own : pages t 0 top ⊆ h.own
  apart : Disjoint N (pages t 0 top)
  inj : ∀ {k k' l l'}, k < top → k' < top → t k = some l → t k' = some l' → l.pa = l'.pa → k = k'

variable {W : World} {h h' : Heap} {pt : Page} {t t' : Nat → Option Leaf} {N N' A A' : Set Page} {k lo hi : Nat}
  {l : Leaf}

namespace Space

section
variable (hs : Space h pt t N)
include hs

theorem mem_own (hk : k < top) (ht : t k = some l) : l.pa ∈ h.own ∧ l.pa ∉ N := by
  have hmem : l.pa ∈ pages t 0 top := ⟨k, l, Nat.zero_le k, hk, ht, rfl⟩
  exact ⟨hs.own hmem, Set.disjoint_right.mp hs.apart hmem⟩

/-- The frame rule. -/
theorem frame (hm : Moves h h' A A') (hA : Disjoint A (N ∪ pages t 0 top)) :
    Space h' pt t N where
  table := hs.table.frame fun _ hb => hm.pte (hs.nodes hb) (Set.disjoint_right.mp hA (.inl hb))
  nodes := (hm.disjoint hs.nodes (hA.mono_right Set.subset_union_left)).2
  own := (hm.disjoint hs.own (hA.mono_right Set.subset_union_right)).2
  apart := hs.apart
  inj := hs.inj

/-- The nodes change, and the user pages stay. -/
theorem change (hm : Moves h h' N N') (ht : Table h' pt t' N')
    (hsame : ∀ k < top, t' k = t k) : Space h' pt t' N' := by
  have hpages : pages t' 0 top = pages t 0 top := pages_congr fun k _ hk => hsame k hk
  obtain ⟨hapart, hown⟩ := hm.disjoint hs.own hs.apart
  refine ⟨ht, hm.sub', hpages ▸ hown, hpages ▸ hapart, fun hk hk' htk htk' e => ?_⟩
  rw [hsame _ hk] at htk
  rw [hsame _ hk'] at htk'
  exact hs.inj hk hk' htk htk' e

theorem same (hm : Moves h h' N N') (ht : Table h' pt t N') : Space h' pt t N' :=
  hs.change hm ht fun _ _ => rfl

/-- A page of the thread becomes a user page. -/
theorem map (hm : Moves h h' N N') (ht : Table h' pt (update t k (some l)) N')
    (hk : k < top) (hfree : t k = none) (hown : l.pa ∈ h.own) (hN : l.pa ∉ N) (hnew : l.pa ∉ pages t 0 top) :
    Space h' pt (update t k (some l)) N' := by
  have hpages := pages_update_some (l := l) (Nat.zero_le k) hk hfree
  have hsub : insert l.pa (pages t 0 top) ⊆ h.own := Set.insert_subset hown hs.own
  have hdisj : Disjoint N (insert l.pa (pages t 0 top)) := by
    rw [Set.disjoint_insert_right]
    exact ⟨hN, hs.apart⟩
  obtain ⟨hapart, hown'⟩ := hm.disjoint hsub hdisj
  have hother : ∀ {j l'}, j < top → t j = some l' → l'.pa ≠ l.pa := by
    intro j l' hj htj e
    exact hnew ⟨j, l', Nat.zero_le j, hj, htj, e⟩
  refine ⟨ht, hm.sub', hpages ▸ hown', hpages ▸ hapart, fun {j j' l₁ l₂} hj hj' htj htj' e => ?_⟩
  by_cases ej : j = k
  · by_cases ej' : j' = k
    · rw [ej, ej']
    · rw [ej, update_self] at htj
      cases htj
      rw [update_of_ne ej'] at htj'
      exact absurd e.symm (hother hj' htj')
  · rw [update_of_ne ej] at htj
    by_cases ej' : j' = k
    · rw [ej', update_self] at htj'
      cases htj'
      exact absurd e (hother hj htj)
    · rw [update_of_ne ej'] at htj'
      exact hs.inj hj hj' htj htj' e
end

end Space

/-! ## Unmapping -/

section
variable (hs : Space h pt t N)
include hs

/-- One user page is unmapped, and freed. -/
theorem Space.unmap (hk : k < top) (ht : t k = some l)
    (htable : Table h' pt (update t k none) N) (hm : Moves h h' (insert l.pa N) N) :
    Space h' pt (update t k none) N := by
  have hsub : pages (update t k none) 0 top ⊆ pages t 0 top \ {l.pa} := by
    rintro a ⟨j, l', hj, hj', htj, ha⟩
    have hne : j ≠ k := by
      intro e
      rw [e, update_self] at htj
      cases htj
    rw [update_of_ne hne] at htj
    refine ⟨⟨j, l', hj, hj', htj, ha⟩, fun e => hne ?_⟩
    exact hs.inj hj' hk htj ht (ha.trans e)
  have hdisj : Disjoint (insert l.pa N) (pages (update t k none) 0 top) := by
    rw [Set.disjoint_insert_left]
    exact ⟨fun hmem => (hsub hmem).2 rfl, hs.apart.mono_right (hsub.trans Set.sdiff_subset)⟩
  obtain ⟨hapart, hown⟩ := hm.disjoint ((hsub.trans Set.sdiff_subset).trans hs.own) hdisj
  refine ⟨htable, hm.sub', hown, hapart, fun {j j' l₁ l₂} hj hj' htj htj' e => ?_⟩
  by_cases ej : j = k
  · rw [ej, update_self] at htj
    cases htj
  · by_cases ej' : j' = k
    · rw [ej', update_self] at htj'
      cases htj'
    · rw [update_of_ne ej] at htj
      rw [update_of_ne ej'] at htj'
      exact hs.inj hj hj' htj htj' e

/-- `uvmunmap` with `do_free` frees the user pages from `lo` to `hi`. -/
theorem vwp_unmapLoop (hhi : hi ≤ top) {n : Nat} (hn : lo + n = hi) :
    vwp W (unmapLoop pt true n (lo * pgsize))
      (fun _ h' => Moves h h' (N ∪ pages t lo hi) N ∧ Space h' pt (clear t lo hi) N) h := by
  induction n generalizing h t lo with
  | zero =>
    have hle : hi ≤ lo := Nat.le_of_eq hn.symm
    refine vwp_pure ?_
    rw [pages_empty hle, clear_empty hle, Set.union_empty]
    exact ⟨.refl hs.nodes, hs⟩
  | succ n ih =>
    have hlo : lo < hi := by omega
    have htop : lo < top := hlo.trans_le hhi
    have hn' : lo + 1 + n = hi := by omega
    have hnext : lo * pgsize + pgsize = (lo + 1) * pgsize := (Nat.succ_mul lo pgsize).symm
    have hskip : t lo = none → vwp W (unmapLoop pt true n (lo * pgsize + pgsize))
        (fun _ h' => Moves h h' (N ∪ pages t lo hi) N ∧ Space h' pt (clear t lo hi) N) h := by
      intro hnone
      have hclear := clear_succ (t := t) hlo
      rw [← hnone, update_eq_self] at hclear
      rw [hnext, ← hclear, pages_succ_none hnone]
      exact ih hs hn'
    refine vwp_bind (vwp_walk hs.table hs.nodes (lt_maxpage htop) hskip fun a i ha hval hset => ?_)
    refine vwp_bind (vwp_readPte (hs.nodes ha) ?_)
    rw [hval]
    cases htl : t lo with
    | none => exact hskip htl
    | some l =>
      obtain ⟨hown, hN⟩ := hs.mem_own htop htl
      have hdrop := Moves.drop (Set.insert_subset hown hs.nodes) (.inl rfl)
      rw [Set.insert_sdiff_of_mem _ (Set.mem_singleton _), Set.sdiff_singleton_eq_self hN] at hdrop
      refine vwp_bind (vwp_when (fun _ => vwp_kfree hown ?_) fun hc => (nomatch hc))
      refine vwp_bind (vwp_setPte (hdrop.sub' ha) ?_)
      have hmoves := hdrop.trans (.setPte hdrop.sub' ha i {})
      have htable : Table ((h.drop l.pa).setPte a i {}) pt (update t lo none) N := hset none
      rw [hnext]
      refine vwp_mono (ih (hs.unmap htop htl htable hmoves) hn') ?_
      rintro _ h' ⟨hm, hsp⟩
      rw [clear_succ hlo] at hsp
      rw [pages_update_of_out (.inl (Nat.lt_succ_self lo))] at hm
      refine ⟨?_, hsp⟩
      have hrest : pages t (lo + 1) hi ⊆ pages t 0 top := pages_mono (Nat.zero_le _) hhi
      have hout : l.pa ∉ pages t (lo + 1) hi := by
        rintro ⟨j, l', hj, hj', htj, ha⟩
        have := hs.inj (hj'.trans_le hhi) htop htj htl ha
        omega
      have hdisj : Disjoint (insert l.pa N) (pages t (lo + 1) hi) := by
        rw [Set.disjoint_insert_left]
        exact ⟨hout, hs.apart.mono_right hrest⟩
      rw [pages_succ_some hlo htl, Set.union_insert, ← Set.insert_union]
      exact (hmoves.extend (hrest.trans hs.own) hdisj).trans hm

theorem vwp_uvmunmap (hhi : hi ≤ top) {n : Nat} (hn : lo + n = hi) :
    vwp W (uvmunmap pt (lo * pgsize) n true)
      (fun _ h' => Moves h h' (N ∪ pages t lo hi) N ∧ Space h' pt (clear t lo hi) N) h := by
  unfold uvmunmap
  rw [if_neg (by rw [not_not]; exact Nat.mul_mod_left lo pgsize)]
  exact vwp_unmapLoop hs hhi hn

/-- `uvmunmap` of one page of the kernel, which stays. -/
theorem vwp_uvmunmap_kernel (hk : top ≤ k) (hk' : k < maxpage) :
    vwp W (uvmunmap pt (k * pgsize) 1 false)
      (fun _ h' => Moves h h' N N ∧ Space h' pt (update t k none) N) h := by
  unfold uvmunmap
  rw [if_neg (by rw [not_not]; exact Nat.mul_mod_left k pgsize)]
  unfold unmapLoop
  have hskip : t k = none → Moves h h N N ∧ Space h pt (update t k none) N := by
    intro hnone
    rw [← hnone, update_eq_self]
    exact ⟨.refl hs.nodes, hs⟩
  refine vwp_bind (vwp_walk hs.table hs.nodes hk' (fun hnone => vwp_pure (hskip hnone)) ?_)
  intro a i ha hval hset
  refine vwp_bind (vwp_readPte (hs.nodes ha) ?_)
  rw [hval]
  cases htk : t k with
  | none => exact vwp_pure (hskip htk)
  | some l =>
    refine vwp_bind (vwp_when (fun hc => (nomatch hc)) fun _ => ?_)
    refine vwp_bind (vwp_setPte (hs.nodes ha) ?_)
    have hm := Moves.setPte hs.nodes ha i {}
    refine vwp_pure ⟨hm, hs.change hm (hset none) fun j hj => update_of_ne ?_ _ _⟩
    exact Nat.ne_of_lt (hj.trans_le hk)

/-- `uvmdealloc` frees the pages between the sizes. -/
theorem vwp_uvmdealloc {newsz : Nat} (hold : pgs oldsz ≤ top) :
    vwp W (uvmdealloc pt oldsz newsz) (fun r h' => r = min oldsz newsz ∧
      Moves h h' (N ∪ pages t (pgs newsz) (pgs oldsz)) N ∧ Space h' pt (clear t (pgs newsz) (pgs oldsz)) N) h := by
  have hnothing : pgs oldsz ≤ pgs newsz →
      Moves h h (N ∪ pages t (pgs newsz) (pgs oldsz)) N ∧ Space h pt (clear t (pgs newsz) (pgs oldsz)) N := by
    intro hle
    rw [pages_empty hle, clear_empty hle, Set.union_empty]
    exact ⟨.refl hs.nodes, hs⟩
  unfold uvmdealloc
  split
  next hle => exact vwp_pure ⟨(Nat.min_eq_left hle).symm, hnothing (pgs_mono hle)⟩
  next hlt =>
    have hmin : newsz = min oldsz newsz := (Nat.min_eq_right (Nat.le_of_not_le hlt)).symm
    refine vwp_seq (vwp_when (Q := fun _ h' => Moves h h' (N ∪ pages t (pgs newsz) (pgs oldsz)) N ∧
      Space h' pt (clear t (pgs newsz) (pgs oldsz)) N) ?_ ?_) fun _ h' hm => vwp_pure ⟨hmin, hm⟩
    · intro hc
      rw [decide_eq_true_eq, pgroundup_eq, pgroundup_eq] at hc
      have hpgs := Nat.lt_of_mul_lt_mul_right hc
      rw [pgroundup_eq, pgroundup_eq, ← Nat.sub_mul, Nat.mul_div_cancel _ (by decide)]
      exact vwp_uvmunmap hs hold (Nat.add_sub_cancel' (Nat.le_of_lt hpgs))
    · intro hc
      rw [decide_eq_false_iff_not, pgroundup_eq, pgroundup_eq, Nat.not_lt] at hc
      exact hnothing (Nat.le_of_mul_le_mul_right hc (by decide))
end

/-! ## Growing -/

/-- The mappings from `lo` to `hi` are new, and their pages are zero. -/
structure Grown (h : Heap) (perm : Perm) (t t' : Nat → Option Leaf) (lo hi : Nat) : Prop where
  new : ∀ k, lo ≤ k → k < hi → ∃ a, t' k = some ⟨perm, a⟩ ∧ h.frame a = .fill 0
  old : ∀ k, k < lo ∨ hi ≤ k → t' k = t k

/-- Distinct pages below `PHYSTOP` are fewer than the virtual ones: a space that maps every page so
far has not come to `TRAPFRAME`. -/
theorem Space.lt_top (hs : Space h pt t N) (hrange : ∀ a ∈ h.own, a < phystop) (hk : k ≤ top)
    (hfull : ∀ j < k, t j ≠ none) : k < top := by
  have hsome : ∀ j < k, ∃ l, t j = some l := fun j hj => Option.ne_none_iff_exists'.mp (hfull j hj)
  have hcard : (Finset.range k).card ≤ (Finset.range phystop).card := by
    refine Finset.card_le_card_of_injOn (fun j => ((t j).map Leaf.pa).getD 0) ?_ ?_
    · intro j hj
      obtain ⟨l, hl⟩ := hsome j (Finset.mem_range.mp hj)
      have hjt := (Finset.mem_range.mp hj).trans_le hk
      dsimp only
      rw [hl]
      exact Finset.mem_coe.mpr (Finset.mem_range.mpr (hrange _ (hs.mem_own hjt hl).1))
    · intro j hj j' hj' e
      have hj := Finset.mem_range.mp hj
      have hj' := Finset.mem_range.mp hj'
      obtain ⟨l, hl⟩ := hsome j hj
      obtain ⟨l', hl'⟩ := hsome j' hj'
      dsimp only at e
      rw [hl, hl'] at e
      exact hs.inj (hj.trans_le hk) (hj'.trans_le hk) hl hl' e
  rw [Finset.card_range, Finset.card_range] at hcard
  exact hcard.trans_lt (by decide)

/-- `mappages` of a new page of the thread. When it fails the page can be freed. -/
theorem vwp_mappages_new {h₁ : Heap} {a : Page} {Q : Int → Heap → Prop} (hs : Space h pt t N)
    (ha : a ∉ h.own) (hm : Moves h h₁ ∅ {a}) (hk : k < top) (hfree : t k = none)
    (hfail : ∀ h' N', a ∈ h'.own → Moves h (h'.drop a) N N' → Space (h'.drop a) pt t N' → h'.oom = true → Q (-1) h')
    (hok : ∀ h' N', Moves h h' N (N' ∪ {a}) → Space h' pt (update t k (some ⟨perm, a⟩)) N' →
      h'.frame a = h₁.frame a → Q 0 h') :
    vwp W (mappages pt (k * pgsize) pgsize a perm) Q h₁ := by
  have hs₁ := hs.frame hm (Set.empty_disjoint _)
  have ha₁ : a ∈ h₁.own := hm.sub' rfl
  have hN : a ∉ N := fun hc => ha (hs.nodes hc)
  have hstart := hm.extend hs.nodes (Set.empty_disjoint N)
  rw [Set.empty_union, Set.union_comm] at hstart
  have hmoves : ∀ {h' N'}, Moves h₁ h' N N' → Moves h h' N (N' ∪ {a}) := by
    intro h' N' hm'
    exact hstart.trans (hm'.extend (Set.singleton_subset_iff.mpr ha₁) (Set.disjoint_singleton_right.mpr hN))
  refine vwp_mappages hs₁.table hs₁.nodes (lt_maxpage hk) hfree ?_ ?_
  · intro h' N' hm' ht' ho
    obtain ⟨ha', haN'⟩ := hm'.mem_of_notMem ha₁ hN
    have hall := hmoves hm'
    have hdrop := Moves.drop hall.sub' (.inr rfl)
    have hN' : (N' ∪ {a}) \ {a} = N' := by
      rw [Set.union_sdiff_right, Set.sdiff_singleton_eq_self haN']
    rw [hN'] at hdrop
    have hrest := hall.trans hdrop
    exact hfail h' N' ha' hrest (hs.same hrest ht') ho
  · intro h' N' hm' ht'
    exact hok h' N' (hmoves hm') (hs₁.map hm' ht' hk hfree ha₁ hN fun hc => ha (hs.own hc)) (hm'.frame a ha₁ hN)

theorem Grown.clear (hg : Grown h perm t t' lo k) (hfree : ∀ j, lo ≤ j → j < k → t j = none) :
    clear t' lo k = t := by
  funext j
  by_cases hj : lo ≤ j ∧ j < k
  · rw [clear_mem hj.1 hj.2, hfree j hj.1 hj.2]
  · unfold Vm.clear
    rw [if_neg hj]
    exact hg.old j (by omega)

/-- What `uvmalloc` has come to: it has failed and the space is as before, or it has mapped the pages
from `lo` to `hi`. -/
inductive Alloced (h : Heap) (pt : Page) (t : Nat → Option Leaf) (N : Set Page) (perm : Perm)
    (lo hi newsz r : Nat) (h' : Heap) : Prop
  | fails (N' : Set Page) : r = 0 → h'.oom = true → Moves h h' N N' → Space h' pt t N' →
      Alloced h pt t N perm lo hi newsz r h'
  | grows (N' : Set Page) (t' : Nat → Option Leaf) : r = newsz → hi ≤ top →
      Moves h h' N (N' ∪ pages t' lo hi) → Space h' pt t' N' → Grown h' perm t t' lo hi →
      Alloced h pt t N perm lo hi newsz r h'

section Alloc
variable {h₀ : Heap} {t₀ : Nat → Option Leaf} {N₀ : Set Page} {newsz : Nat} {xperm : Perm}

/-- The way out of the loop of `uvmalloc`. -/
theorem vwp_allocUndo (hs : Space h pt t N) (hm : Moves h₀ h N₀ (N ∪ pages t lo k))
    (hgrown : Grown h' perm t₀ t lo k) (hk : k ≤ top) (hfree : ∀ j, lo ≤ j → j < top → t₀ j = none)
    (ho : h.oom = true) :
    vwp W (do let _ ← uvmdealloc pt (k * pgsize) (lo * pgsize); return 0)
      (Alloced h₀ pt t₀ N₀ perm lo hi newsz) h := by
  refine vwp_seq (vwp_uvmdealloc hs (by rw [pgs_mul]; exact hk)) ?_
  rintro _ h₁ ⟨_, hm₁, hs₁⟩
  rw [pgs_mul, pgs_mul] at hm₁ hs₁
  rw [hgrown.clear fun j hj hj' => hfree j hj (hj'.trans_le hk)] at hs₁
  exact vwp_pure (.fails N rfl (hm₁.oom ho) (hm.trans hm₁) hs₁)

/-- The loop of `uvmalloc`, when it has come from `lo` to `k`. The space has had the mappings `t₀`
before. -/
theorem vwp_allocLoop (hs : Space h pt t N) (hm : Moves h₀ h N₀ (N ∪ pages t lo k))
    (hgrown : Grown h { xperm with r := true, u := true } t₀ t lo k) (hlo : lo ≤ k) (hk : k ≤ top)
    (hfree : ∀ j, lo ≤ j → j < top → t₀ j = none) {n : Nat} (hn : k + n = hi)
    (hroom : hi ≤ top ∨ ∀ j < lo, t₀ j ≠ none) :
    vwp W (allocLoop pt (lo * pgsize) newsz xperm n (k * pgsize))
      (Alloced h₀ pt t₀ N₀ { xperm with r := true, u := true } lo hi newsz) h := by
  induction n generalizing h t N k with
  | zero =>
    obtain rfl : k = hi := hn
    exact vwp_pure (.grows N t rfl hk hm hs hgrown)
  | succ n ih =>
    refine vwp_range fun hrange => ?_
    have hktop : k < top := by
      obtain hhi | hfull := hroom
      · omega
      · refine hs.lt_top hrange hk fun j hj => ?_
        by_cases hjlo : j < lo
        · rw [hgrown.old j (.inl hjlo)]
          exact hfull j hjlo
        · obtain ⟨a, ha, _⟩ := hgrown.new j (Nat.le_of_not_lt hjlo) hj
          rw [ha]
          exact Option.some_ne_none _
    have htk : t k = none := (hgrown.old k (.inr (Nat.le_refl k))).trans (hfree k hlo hktop)
    have hpages : pages t lo k ⊆ pages t 0 top := pages_mono (Nat.zero_le lo) hk
    refine vwp_bind (vwp_kalloc ?_ fun a ha => ?_)
    · exact vwp_allocUndo (hs.same (.fail hs.nodes) hs.table) (hm.trans (.fail hm.sub')) hgrown hk hfree rfl
    · refine vwp_bind (vwp_memset (.inl rfl) ?_)
      refine vwp_bind (vwp_mappages_new hs ha (.fresh ha _ _) hktop htk ?_ ?_)
      · intro h' N' ha' hm' hs' ho
        have hall := hm.trans (hm'.extend (hpages.trans hs.own) (hs.apart.mono_right hpages))
        exact vwp_bind (vwp_kfree ha' (vwp_allocUndo hs' hall hgrown hk hfree ho))
      · intro h' N' hm' hs' hframe
        have hnext : k * pgsize + pgsize = (k + 1) * pgsize := (Nat.succ_mul k pgsize).symm
        have hnew : pages (update t k (some ⟨{ xperm with r := true, u := true }, a⟩)) lo (k + 1) =
            {a} ∪ pages t lo k := by
          rw [pages_update_some hlo (Nat.lt_succ_self k) htk, pages_last_none htk, Set.insert_eq]
        rw [if_neg (by decide), hnext]
        refine ih hs' ?_ ⟨fun j hj hj' => ?_, fun j hj => ?_⟩ (Nat.le_succ_of_le hlo) hktop (by omega)
        · rw [hnew, ← Set.union_assoc]
          exact hm.trans (hm'.extend (hpages.trans hs.own) (hs.apart.mono_right hpages))
        · by_cases e : j = k
          · refine ⟨a, by rw [e, update_self], hframe.trans ?_⟩
            exact update_self (f := (h.add a (.fill 5)).frame) ..
          · have hjk : j < k := by omega
            obtain ⟨b, hb, hzero⟩ := hgrown.new j hj hjk
            obtain ⟨hbown, hbN⟩ := hs.mem_own (hjk.trans hktop) hb
            exact ⟨b, by rw [update_of_ne e, hb], (hm'.frame b hbown hbN).trans hzero⟩
        · rw [update_of_ne (by omega)]
          exact hgrown.old j (by omega)

/-- `uvmalloc`. The space is to have room below `TRAPFRAME`, or to have no holes. -/
theorem vwp_uvmalloc (hs : Space h pt t N) (hle : oldsz ≤ newsz) (hold : pgs oldsz ≤ top)
    (hfree : ∀ j, pgs oldsz ≤ j → j < top → t j = none)
    (hroom : pgs newsz ≤ top ∨ ∀ j < pgs oldsz, t j ≠ none) :
    vwp W (uvmalloc pt oldsz newsz xperm)
      (Alloced h pt t N { xperm with r := true, u := true } (pgs oldsz) (pgs newsz) newsz) h := by
  unfold uvmalloc
  rw [if_neg (Nat.not_lt.mpr hle), pgroundup_eq]
  refine vwp_allocLoop hs ?_ ⟨fun j hj hj' => ?_, fun _ _ => rfl⟩ (Nat.le_refl _) hold hfree ?_ hroom
  · rw [pages_empty (Nat.le_refl _), Set.union_empty]
    exact .refl hs.nodes
  · omega
  · have := pgs_mono hle
    unfold pgs pgsize at this ⊢
    omega

end Alloc

/-! ## Freeing -/

/-- `uvmfree` of a space with user pages only. -/
theorem vwp_uvmfree (hs : Space h pt t N) (hsz : pgs sz ≤ top) (hnone : ∀ k, pgs sz ≤ k → t k = none) :
    vwp W (uvmfree pt sz) (fun _ h' => Moves h h' (N ∪ pages t 0 top) ∅) h := by
  have hpages : pages t 0 top = pages t 0 (pgs sz) := by
    refine Set.Subset.antisymm ?_ (pages_mono (Nat.le_refl 0) hsz)
    rintro a ⟨k, l, hk, hk', ht, ha⟩
    refine ⟨k, l, hk, ?_, ht, ha⟩
    by_contra hc
    rw [hnone k (Nat.le_of_not_lt hc)] at ht
    cases ht
  have hcleared : ∀ k, clear t 0 (pgs sz) k = none := by
    intro k
    by_cases hk : k < pgs sz
    · exact clear_mem (Nat.zero_le k) hk
    · rw [clear_of_le (Nat.le_of_not_lt hk)]
      exact hnone k (Nat.le_of_not_lt hk)
  rw [hpages]
  refine vwp_seq (M := fun _ h' => Moves h h' (N ∪ pages t 0 (pgs sz)) N ∧ Space h' pt (clear t 0 (pgs sz)) N)
    (vwp_when (fun _ => ?_) fun hc => ?_) ?_
  · rw [pgroundup_eq, Nat.mul_div_cancel _ (by decide)]
    have := vwp_uvmunmap (W := W) hs hsz (Nat.zero_add (pgs sz))
    rwa [Nat.zero_mul] at this
  · rw [decide_eq_false_iff_not, Nat.not_lt] at hc
    have hz : pgs sz ≤ 0 := pgs_le.mpr (by omega)
    rw [pages_empty hz, clear_empty hz, Set.union_empty]
    exact ⟨.refl hs.nodes, hs⟩
  · rintro _ h' ⟨hm, hs'⟩
    refine vwp_mono (vwp_freewalk hs'.table hs'.nodes fun k _ => hcleared k) fun _ h'' hm' => hm.trans hm'

/-- The mappings of a process: user pages below `n`, and the two pages of the kernel. -/
structure Layout (t : Nat → Option Leaf) (n : Nat) (tf code : Page) : Prop where
  room : n ≤ top
  user : ∀ k, n ≤ k → k < top → t k = none
  trapframe : t top = some ⟨{ r := true, w := true }, tf⟩
  trampoline : t (top + 1) = some ⟨{ r := true, x := true }, code⟩
  above : ∀ k, top + 1 < k → t k = none

/-! ## A new address space -/

theorem vwp_uvmcreate (hnone : Q none h.fail)
    (hsome : ∀ h' pt, Moves h h' ∅ {pt} → Space h' pt (fun _ => none) {pt} → Q (some pt) h') :
    vwp W uvmcreate Q h := by
  refine vwp_bind (vwp_kalloc (vwp_pure hnone) fun pt hpt => vwp_bind (vwp_memset (.inl rfl) (vwp_pure ?_)))
  have hm := Moves.fresh hpt (.fill 5) (.fill 0)
  have hnopages : pages (fun _ => none) 0 top = ∅ := pages_none fun _ _ _ => rfl
  refine hsome _ pt hm ⟨tree_fill (update_self (f := (h.add pt (.fill 5)).frame) ..), hm.sub', ?_, ?_,
    fun _ _ ht _ => (nomatch ht)⟩
  · rw [hnopages]
    exact Set.empty_subset _
  · rw [hnopages]
    exact Set.disjoint_empty _

/-- A space without user pages is freed. -/
theorem vwp_uvmfree_zero {h₀ : Heap} (hs : Space h pt t N) (hm : Moves h₀ h ∅ N)
    (hnone : ∀ k, t k = none) (ho : h.oom = true) (hQ : ∀ h', Moves h₀ h' ∅ ∅ → h'.oom = true → Q none h') :
    vwp W (do uvmfree pt 0; return none) Q h := by
  refine vwp_seq (vwp_uvmfree hs (Nat.zero_le top) fun k _ => hnone k) fun _ h' hm' => vwp_pure ?_
  rw [pages_none fun k _ _ => hnone k, Set.union_empty] at hm'
  exact hQ h' (hm.trans hm') (hm'.oom ho)

/-- `proc_pagetable`: a space with no user pages, or nothing. -/
theorem vwp_procPagetable {tf : Page} (hnone : ∀ h', Moves h h' ∅ ∅ → h'.oom = true → Q none h')
    (hsome : ∀ h' pt t N, Moves h h' ∅ N → Space h' pt t N → Layout t 0 tf h.code → Q (some pt) h') :
    vwp W (procPagetable tf) Q h := by
  unfold procPagetable
  refine vwp_bind (vwp_uvmcreate (vwp_pure (hnone _ (.fail (Set.empty_subset _)) rfl)) fun h₁ pt hm₁ hs₁ => ?_)
  refine vwp_bind (vwp_read h.code (fun s hr => hr.code.trans hm₁.code) ?_)
  rw [trampoline_eq, trapframe_eq]
  refine vwp_bind (vwp_mappages hs₁.table hs₁.nodes (by decide) rfl ?_ ?_)
  · intro h₂ N₂ hm₂ ht₂ ho
    rw [if_pos (by decide)]
    exact vwp_uvmfree_zero (hs₁.same hm₂ ht₂) (hm₁.trans hm₂) (fun _ => rfl) ho hnone
  · intro h₂ N₂ hm₂ ht₂
    rw [if_neg (by decide)]
    have hs₂ := hs₁.change hm₂ ht₂ fun k hk => update_of_ne (by omega) _ _
    refine vwp_bind (vwp_mappages hs₂.table hs₂.nodes (by decide) (update_of_ne (by decide) _ _) ?_ ?_)
    · intro h₃ N₃ hm₃ ht₃ ho
      rw [if_pos (by decide)]
      refine vwp_seq (vwp_uvmunmap_kernel (hs₂.same hm₃ ht₃) (Nat.le_succ top) (by decide)) ?_
      rintro _ h₄ ⟨hm₄, hs₄⟩
      refine vwp_uvmfree_zero hs₄ (((hm₁.trans hm₂).trans hm₃).trans hm₄) (fun k => ?_) (hm₄.oom ho) hnone
      rw [update_idem]
      exact congrFun (update_eq_self (top + 1) fun _ => none) k
    · intro h₃ N₃ hm₃ ht₃
      rw [if_neg (by decide)]
      have hs₃ := hs₂.change hm₃ ht₃ fun k hk => update_of_ne (Nat.ne_of_lt hk) _ _
      refine vwp_pure (hsome h₃ pt _ N₃ ((hm₁.trans hm₂).trans hm₃) hs₃ ⟨Nat.zero_le top, ?_, ?_, ?_, ?_⟩)
      · intro k _ hk
        rw [update_of_ne (Nat.ne_of_lt hk), update_of_ne (by omega)]
      · exact update_self ..
      · rw [update_of_ne (by decide), update_self]
      · intro k hk
        rw [update_of_ne (by omega), update_of_ne (by omega)]

end Txv6.Vm
