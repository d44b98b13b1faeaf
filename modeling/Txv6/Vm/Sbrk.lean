import Txv6.Vm.Copy

/-! # Growing and shrinking a process

`growproc` maps or frees the pages between the two sizes, or leaves the process as it was.
`sys_sbrk` may also change the size alone.
-/
namespace Txv6.Vm
open Lib

variable {m : Int} {Q : Int → Heap → Prop} {hi lo sz : Nat} {perm : Perm}

/-- Another size of a process. -/
def Heap.resize (h : Heap) (p : ProcPtr) (sz : Nat) : Heap := h.setProc p { h.proc p with sz := sz }

variable {W : World} {h h' : Heap} {p : ProcPtr} {pt tf code : Page} {t t' : Nat → Option Leaf} {N N' A A' : Set Page}
  {n : Nat}

theorem Layout.resize (hl : Layout t lo tf code) (hhi : hi ≤ top)
    (hout : ∀ k, k < lo ∨ top ≤ k → t' k = t k) (hnone : ∀ k, hi ≤ k → k < top → t' k = none) :
    Layout t' hi tf code := by
  refine ⟨hhi, hnone, ?_, ?_, fun k hk => ?_⟩
  · rw [hout top (.inr (Nat.le_refl top))]
    exact hl.trapframe
  · rw [hout (top + 1) (.inr (Nat.le_succ top))]
    exact hl.trampoline
  · rw [hout k (.inr (by omega))]
    exact hl.above k hk

theorem Layout.grown (hl : Layout t lo tf code) (hg : Grown h perm t t' lo hi)
    (hlo : lo ≤ hi) (hhi : hi ≤ top) : Layout t' hi tf code := by
  refine hl.resize hhi (fun k hk => hg.old k (by omega)) fun k hk hk' => ?_
  rw [hg.old k (.inr hk)]
  exact hl.user k (by omega) hk'

/-- The user pages after growing. -/
theorem Grown.pages (hg : Grown h perm t t' lo hi) (hl : Layout t lo tf code)
    (hhi : hi ≤ top) : pages t' 0 top = pages t' lo hi ∪ pages t 0 top := by
  refine Set.Subset.antisymm ?_ (Set.union_subset (pages_mono (Nat.zero_le lo) hhi) ?_)
  · rintro a ⟨k, l, hk, hk', ht, ha⟩
    by_cases hnew : lo ≤ k ∧ k < hi
    · exact .inl ⟨k, l, hnew.1, hnew.2, ht, ha⟩
    · rw [hg.old k (by omega)] at ht
      exact .inr ⟨k, l, hk, hk', ht, ha⟩
  · rintro a ⟨k, l, hk, hk', ht, ha⟩
    refine ⟨k, l, hk, hk', ?_, ha⟩
    rw [hg.old k, ht]
    by_contra hc
    rw [hl.user k (by omega) hk'] at ht
    cases ht

theorem Layout.more (hl : Layout t lo tf code) (hlo : lo ≤ hi) (hhi : hi ≤ top) : Layout t hi tf code :=
  hl.resize hhi (fun _ _ => rfl) fun k hk => hl.user k (hlo.trans hk)

/-- A process gets another size, with the mappings for it. -/
theorem Home.resize (hh : Home h p pt tf t N) (hm : Moves h h' A A') (hs : Space h' pt t' N')
    (hl : Layout t' (pgs sz) tf h.code) : Home (h'.resize p sz) p pt tf t' N' := by
  have hself : (h'.resize p sz).proc p = { h'.proc p with sz := sz } := Function.update_self ..
  refine ⟨?_, ?_, ⟨hs.table, hs.nodes, hs.own, hs.apart, hs.inj⟩, ?_⟩
  · exact hm.slots ▸ hh.slot
  · rw [hself]
    exact hm.proc ▸ hh.pagetable
  · rw [hself]
    change Layout t' (pgs sz) tf h'.code
    rw [hm.code]
    exact hl

theorem Layout.sz_le (hl : Layout t (pgs sz) tf code) : sz ≤ Vm.trapframe := by
  rw [trapframe_eq]
  exact pgs_le.mp hl.room

theorem u64_add {n : Int} (hsz : sz ≤ trapframe) (hn : 0 ≤ n) (hn' : n < 2 ^ 31) :
    u64 (sz + n) = sz + n.toNat := by
  unfold trapframe trampoline maxva pgsize at hsz
  unfold u64
  omega

theorem vwp_growproc {n : Int} (hh : Home h p pt tf t N) (hn : n < 2 ^ 31)
    (hfail : ∀ h' N', 0 < n → Moves h h' N N' → Space h' pt t N' →
      (h'.oom = true ∨ trapframe < u64 ((h.proc p).sz + n)) → Q (-1) h')
    (hgrow : ∀ h' N' t', 0 < n → u64 ((h.proc p).sz + n) ≤ trapframe →
      Moves h h' N (N' ∪ pages t' (pgs (h.proc p).sz) (pgs (u64 ((h.proc p).sz + n)))) → Space h' pt t' N' →
      Grown h' { r := true, w := true, u := true } t t' (pgs (h.proc p).sz) (pgs (u64 ((h.proc p).sz + n))) →
      Q 0 (h'.resize p (u64 ((h.proc p).sz + n)))) (hsame : n = 0 → Q 0 (h.resize p (h.proc p).sz))
    (hshrink : ∀ h', n < 0 →
      Moves h h' (N ∪ pages t (pgs (u64 ((h.proc p).sz + n))) (pgs (h.proc p).sz)) N →
      Space h' pt (clear t (pgs (u64 ((h.proc p).sz + n))) (pgs (h.proc p).sz)) N →
      Q 0 (h'.resize p (min (h.proc p).sz (u64 ((h.proc p).sz + n))))) :
    vwp W (growproc p n) Q h := by
  unfold growproc
  refine vwp_bind (vwp_readProc hh.slot ?_)
  refine vwp_bind (vwp_readProc hh.slot ?_)
  refine vwp_bind (vwp_deref hh.pagetable ?_)
  have hsz := hh.layout.sz_le
  have hresize : ∀ {h' A A'} {sz : Nat}, Moves h h' A A' → Q 0 (h'.resize p sz) →
      vwp W (do Prog.update fun s => s.setProc p fun r => { r with sz := sz }; return 0) Q h' := by
    intro h' A A' sz hm hQ
    exact vwp_bind (vwp_setProc (hm.slots ▸ hh.slot) (.same rfl rfl) (vwp_pure hQ))
  split
  next hpos =>
    have hnew := u64_add hsz (Int.le_of_lt hpos) hn
    split
    next hbig => exact vwp_pure (hfail h N hpos (.refl hh.space.nodes) hh.space (.inr hbig))
    next hroom =>
      have hroom := Nat.le_of_not_lt hroom
      have hhi : pgs (u64 ((h.proc p).sz + n)) ≤ top := by
        rw [pgs_le, ← trapframe_eq]
        exact hroom
      refine vwp_seq (vwp_uvmalloc hh.space (by omega) hh.layout.room hh.layout.user (.inl hhi)) ?_
      rintro r h' (⟨N', hr, ho, hm, hs⟩ | ⟨N', t', hr, _, hm, hs, hg⟩)
      · rw [if_pos hr]
        exact vwp_pure (hfail h' N' hpos hm hs (.inl ho))
      · rw [if_neg (by omega), hr]
        exact hresize hm (hgrow h' N' t' hpos hroom hm hs hg)
  next hpos =>
    split
    next hneg =>
      refine vwp_seq (vwp_uvmdealloc hh.space hh.layout.room) ?_
      rintro r h' ⟨hr, hm, hs⟩
      rw [hr]
      exact hresize hm (hshrink h' hneg hm hs)
    next hneg => exact hresize (.refl hh.space.nodes) (hsame (by omega))

/-- `sys_sbrk` with `SBRK_LAZY` and a number that is not negative. -/
theorem vwp_sysSbrk_lazy {n : Int} (hh : Home h p pt tf t N) (hm : m ≠ 1) (hn : 0 ≤ n)
    (hn' : n < 2 ^ 31) (hfail : trapframe < (h.proc p).sz + n.toNat → Q (-1) h)
    (hgrow : (h.proc p).sz + n.toNat ≤ trapframe → Q (h.proc p).sz (h.resize p ((h.proc p).sz + n.toNat))) :
    vwp W (sysSbrk p n m) Q h := by
  have hnew := u64_add hh.layout.sz_le hn hn'
  unfold sysSbrk
  refine vwp_bind (vwp_readProc hh.slot ?_)
  rw [if_neg (by omega), if_neg (by omega), hnew]
  split
  next hbig => exact vwp_pure (hfail hbig)
  next hroom =>
    refine vwp_bind (vwp_setProc hh.slot (.same rfl rfl) (vwp_pure ?_))
    rw [hnew]
    exact hgrow (Nat.le_of_not_lt hroom)

/-- `sys_sbrk` with `SBRK_EAGER` or a negative number. -/
theorem vwp_sysSbrk_grow {n : Int} (hh : Home h p pt tf t N) (hm : m = 1 ∨ n < 0)
    (hgrow : vwp W (growproc p n) (fun r h' => Q (if r < 0 then -1 else (h.proc p).sz) h') h) :
    vwp W (sysSbrk p n m) Q h := by
  unfold sysSbrk
  refine vwp_bind (vwp_readProc hh.slot ?_)
  rw [if_pos hm]
  refine vwp_seq hgrow fun r h' hQ => ?_
  split at hQ
  next hr =>
    rw [if_pos hr]
    exact vwp_pure hQ
  next hr =>
    rw [if_neg hr]
    exact vwp_pure hQ

end Txv6.Vm
