import Txv6.Vm.Space

/-! # Copying from and to user memory

The memory of a process as its system calls should see it: a page below the size of the process that
has not been touched is a page of zeros. `copyin` and `copyout` read and write this memory, bringing
pages in as they go; `copyinstr` reads what is mapped and brings nothing in.
-/
namespace Txv6.Vm
open Lib Function List

variable {c : Cell} {dst : List UChar} {fuel va : Nat} {b : Nat → UChar} {Q : Option Page → Heap → Prop}
  {a : Page} {ok : Prop}

/-! ## Memory -/

/-- A user page: whether user code may access and write it, and its bytes. -/
structure Cell where
  u : Bool
  w : Bool
  byte : Nat → UChar

def Cell.zero : Cell := ⟨true, true, fun _ => 0⟩

/-- User memory, by the number of the page. -/
abbrev Memory := Nat → Option Cell

namespace Memory

/-- The page at an address, if user code may access it. -/
def user (m : Memory) (va : Nat) : Option Cell := (m (va / pgsize)).filter Cell.u

/-- The byte at an address, if user code may read it. -/
def byte (m : Memory) (a : Nat) : Option UChar := (user m a).map fun c => c.byte (a % pgsize)

/-- User code may write at the address. -/
def writable (m : Memory) (a : Nat) : Prop := ∃ c, user m a = some c ∧ c.w = true

/-- The memory with the bytes `bs` at `va`. -/
def write (m : Memory) (va : Nat) (bs : List UChar) : Memory := fun k =>
  (m k).map fun c => { c with byte := fun o =>
    if o < pgsize ∧ va ≤ k * pgsize + o then bs[k * pgsize + o - va]?.getD (c.byte o) else c.byte o }

def copyinstr (m : Memory) : Nat → Nat → Nat → List UChar → Int × List UChar
  | 0, _, _, dst => (-1, dst)
  | fuel + 1, va, max, dst =>
    if max = 0 then (-1, dst)
    else
      match user m va with
      | none => (-1, dst)
      | some c =>
        let va0 := pgrounddown va
        let n := min (pgsize - (va - va0)) max
        let bs := getBytes c.byte (va - va0) n
        if (untilNul bs).2 then (0, dst ++ (untilNul bs).1)
        else copyinstr m fuel (va0 + pgsize) (max - n) (dst ++ bs)

/-- A page below `n` that is missing is a page of zeros. -/
def filled (m : Memory) (n : Nat) : Memory := fun k =>
  match m k with
  | some c => some c
  | none => if k < n then some .zero else none

end Memory

/-- What a mapping shows to user code. -/
def Heap.cell (h : Heap) (l : Leaf) : Cell := ⟨l.perm.u, l.perm.w, (h.frame l.pa).byte⟩

/-- The mapped user pages. -/
def mapped (h : Heap) (t : Nat → Option Leaf) : Memory := fun k => if k < top then (t k).map h.cell else none

/-- The memory of a process of `n` pages: what is not mapped is zero. -/
def seen (h : Heap) (t : Nat → Option Leaf) (n : Nat) : Memory := Memory.filled (mapped h t) n

/-- The process `p` has the page table at `pt`, with the trapframe page `tf`. -/
structure Home (h : Heap) (p : ProcPtr) (pt tf : Page) (t : Nat → Option Leaf) (N : Set Page) : Prop where
  slot : p ∈ h.slots
  pagetable : (h.proc p).pagetable = some pt
  space : Space h pt t N
  layout : Layout t (pgs (h.proc p).sz) tf h.code

variable {W : World} {h h' : Heap} {p : ProcPtr} {pt tf code : Page} {t t' : Nat → Option Leaf} {N N' : Set Page}
  {k n : Nat} {l : Leaf}

theorem mapped_some (hk : k < top) (ht : t k = some l) : mapped h t k = some (h.cell l) := by
  unfold mapped
  rw [if_pos hk, ht]
  rfl

theorem seen_of_mapped (hc : mapped h t k = some c) : seen h t n k = some c := by
  unfold seen Memory.filled
  rw [hc]

theorem seen_of_none (hc : mapped h t k = none) : seen h t n k = if k < n then some .zero else none := by
  unfold seen Memory.filled
  rw [hc]

/-- What is mapped depends on the entry and on the page behind it. -/
theorem mapped_congr (ht : t' k = t k) (hf : ∀ l, k < top → t k = some l → h'.frame l.pa = h.frame l.pa) :
    mapped h' t' k = mapped h t k := by
  unfold mapped
  rw [ht]
  split
  next hk =>
    cases htk : t k with
    | none => rfl
    | some l =>
      refine congrArg some ?_
      unfold Heap.cell
      rw [hf l hk htk]
  next => rfl

/-- Bringing in a page of zeros changes nothing that is seen. -/
theorem seen_update {perm : Perm} (hk : k < top) (hkn : k < n) (hfree : t k = none)
    (hperm : perm.u = true ∧ perm.w = true) (hzero : h'.frame a = .fill 0)
    (hframe : ∀ a ∈ pages t 0 top, h'.frame a = h.frame a) :
    seen h' (update t k (some ⟨perm, a⟩)) n = seen h t n := by
  funext j
  by_cases e : j = k
  · subst e
    have hnone : mapped h t j = none := by
      unfold mapped
      rw [if_pos hk, hfree]
      rfl
    rw [seen_of_none hnone, if_pos hkn, seen_of_mapped (mapped_some hk (update_self ..))]
    unfold Heap.cell Cell.zero
    dsimp only
    rw [hzero, hperm.1, hperm.2]
    rfl
  · have hsame : mapped h' (update t k (some ⟨perm, a⟩)) j = mapped h t j :=
      mapped_congr (update_of_ne e ..) fun l hj htj => hframe l.pa ⟨j, l, Nat.zero_le j, hj, htj, rfl⟩
    unfold seen Memory.filled
    rw [hsame]

/-! ## Finding a user page -/

/-- `walkaddr` in the space of a process. -/
theorem vwp_walkaddr (hs : Space h pt t N) (hl : Layout t n tf code)
    (hnone : (mapped h t k).filter Cell.u = none → Q none h)
    (hsome : ∀ l, k < top → t k = some l → l.perm.u = true → Q (some l.pa) h) :
    vwp W (walkaddr pt (k * pgsize)) Q h := by
  unfold walkaddr
  have hout : ¬ k < top → Q none h := by
    intro hk
    refine hnone ?_
    unfold mapped
    rw [if_neg hk]
    rfl
  split
  next hmax => exact vwp_pure (hout fun hk => mul_pgsize_lt (lt_maxpage hk) hmax)
  next hmax =>
    have hk' : k < maxpage := by
      unfold maxva pgsize at hmax
      unfold maxpage
      omega
    have hfree : t k = none → Q none h := by
      intro hk
      refine hnone ?_
      unfold mapped
      split
      next =>
        rw [hk]
        rfl
      next => rfl
    refine vwp_bind (vwp_walk hs.table hs.nodes hk' (fun hk => vwp_pure (hfree hk)) fun a i ha hval _ => ?_)
    refine vwp_bind (vwp_readPte (hs.nodes ha) ?_)
    rw [hval]
    cases htk : t k with
    | none => exact vwp_pure (hfree htk)
    | some l =>
      change vwp W (if !l.perm.u then pure none else pure (some l.pa)) Q h
      by_cases hk : k < top
      · cases hu : l.perm.u with
        | false =>
          refine vwp_pure (hnone ?_)
          rw [mapped_some hk htk]
          exact Option.filter_some_neg (by rw [Heap.cell, hu])
        | true => exact vwp_pure (hsome l hk htk hu)
      · have hu : l.perm.u = false := by
          by_cases e : k = top
          · rw [e, hl.trapframe] at htk
            cases htk
            rfl
          · by_cases e' : k = top + 1
            · rw [e', hl.trampoline] at htk
              cases htk
              rfl
            · rw [hl.above k (by omega)] at htk
              cases htk
        rw [hu]
        exact vwp_pure (hout hk)

theorem vwp_ismapped {Q : Bool → Heap → Prop} (hs : Space h pt t N) (hk : k < maxpage) (hQ : Q (t k).isSome h) :
    vwp W (ismapped pt (k * pgsize)) Q h := by
  refine vwp_bind (vwp_walk hs.table hs.nodes hk (fun hnone => vwp_pure ?_) fun a i ha hval _ => ?_)
  · rwa [hnone] at hQ
  · refine vwp_read (t k).isSome (fun s hr => ?_) hQ
    rw [hr.frame a (hs.nodes ha), ← entry_v, ← hval]
    rfl

theorem Home.moves {A A' : Set Page} (hh : Home h p pt tf t N) (hm : Moves h h' A A') (hs : Space h' pt t' N')
    (hl : Layout t' (pgs (h.proc p).sz) tf h.code) : Home h' p pt tf t' N' where
  slot := hm.slots ▸ hh.slot
  pagetable := hm.proc ▸ hh.pagetable
  space := hs
  layout := by
    rw [hm.proc, hm.code]
    exact hl

theorem Layout.update {v : Option Leaf} (hl : Layout t n tf code) (hk : k < n) : Layout (update t k v) n tf code := by
  have htop := hk.trans_le hl.room
  refine ⟨hl.room, fun j hj hj' => ?_, ?_, ?_, fun j hj => ?_⟩
  · rw [update_of_ne (by omega)]
    exact hl.user j hj hj'
  · rw [update_of_ne (by omega)]
    exact hl.trapframe
  · rw [update_of_ne (by omega)]
    exact hl.trampoline
  · rw [update_of_ne (by omega)]
    exact hl.above j hj

/-- `vmfault` brings in a page of zeros, or fails. -/
theorem vwp_vmfault (hh : Home h p pt tf t N) (hnone : (h.proc p).sz ≤ va ∨ t (va / pgsize) ≠ none → Q none h)
    (hoom : ∀ h' N', t (va / pgsize) = none → Moves h h' N N' → Space h' pt t N' → h'.oom = true → Q none h')
    (hsome : ∀ h' N' a, va < (h.proc p).sz → t (va / pgsize) = none → Moves h h' N (N' ∪ {a}) →
      Space h' pt (update t (va / pgsize) (some ⟨{ r := true, w := true, u := true }, a⟩)) N' →
      h'.frame a = .fill 0 → Q (some a) h') :
    vwp W (vmfault p pt va) Q h := by
  unfold vmfault
  refine vwp_bind (vwp_readProc hh.slot ?_)
  split
  next hle => exact vwp_pure (hnone (.inl hle))
  next hlt =>
    have hva := Nat.lt_of_not_le hlt
    have hk : va / pgsize < top := by
      refine Nat.lt_of_lt_of_le ?_ hh.layout.room
      rw [lt_pgs]
      exact Nat.lt_of_le_of_lt (Nat.div_mul_le_self va pgsize) hva
    unfold pgrounddown
    refine vwp_bind (vwp_ismapped hh.space (lt_maxpage hk) ?_)
    cases htk : t (va / pgsize) with
    | some l => exact vwp_pure (hnone (.inr (by rw [htk]; exact Option.some_ne_none l)))
    | none =>
      refine vwp_bind (vwp_kalloc (vwp_pure (hoom _ N htk (.fail hh.space.nodes)
        (hh.space.same (.fail hh.space.nodes) hh.space.table) rfl)) fun a ha => ?_)
      refine vwp_bind (vwp_memset (.inl rfl) ?_)
      refine vwp_bind (vwp_readProc hh.slot ?_)
      refine vwp_bind (vwp_deref hh.pagetable ?_)
      refine vwp_bind (vwp_mappages_new hh.space ha (.fresh ha _ _) hk htk ?_ ?_)
      · intro h' N' ha' hm hs ho
        exact vwp_bind (vwp_kfree ha' (vwp_pure (hoom _ N' htk hm hs ho)))
      · intro h' N' hm hs hframe
        refine vwp_pure (hsome h' N' a hva htk hm hs (hframe.trans ?_))
        exact update_self (f := (h.add a (.fill 5)).frame) ..

/-- The page behind a user address, brought in if it has not been touched. -/
theorem vwp_userPage (hh : Home h p pt tf t N)
    (hnone : Memory.user (seen h t (pgs (h.proc p).sz)) va = none → Q none h)
    (hoom : ∀ h' N', t (va / pgsize) = none → Moves h h' N N' → Space h' pt t N' → h'.oom = true → Q none h')
    (hsome : ∀ h' t' N' l, Home h' p pt tf t' N' → Moves h h' (N ∪ pages t 0 top) (N' ∪ pages t' 0 top) →
      (∀ k, t k ≠ none → t' k ≠ none) →
      seen h' t' (pgs (h.proc p).sz) = seen h t (pgs (h.proc p).sz) → va / pgsize < top →
      t' (va / pgsize) = some l → l.perm.u = true → Q (some l.pa) h') :
    vwp W (userPage p pt (pgrounddown va)) Q h := by
  have hown : N ∪ pages t 0 top ⊆ h.own := Set.union_subset hh.space.nodes hh.space.own
  have hdiv : va / pgsize * pgsize / pgsize = va / pgsize := Nat.mul_div_cancel _ (by decide)
  unfold userPage pgrounddown
  refine vwp_bind (vwp_walkaddr hh.space hh.layout (fun hfilter => ?_) fun l hk htk hu =>
    vwp_pure (hsome h t N l hh (.refl hown) (fun _ hk => hk) rfl hk htk hu))
  refine vwp_vmfault hh (fun hc => hnone ?_) (by rwa [hdiv]) ?_
  · rw [hdiv] at hc
    unfold Memory.user
    cases hmap : mapped h t (va / pgsize) with
    | some c =>
      rw [seen_of_mapped hmap]
      rwa [hmap] at hfilter
    | none =>
      rw [seen_of_none hmap, if_neg]
      · rfl
      · intro hlt
        obtain hle | hne := hc
        · exact absurd (lt_pgs.mp hlt) (Nat.not_lt.mpr hle)
        · obtain ⟨l, hl⟩ := Option.ne_none_iff_exists'.mp hne
          rw [mapped_some (hlt.trans_le hh.layout.room) hl] at hmap
          cases hmap
  · rw [hdiv]
    intro h' N' a hva htk hm hs hzero
    have hkn : va / pgsize < pgs (h.proc p).sz := lt_pgs.mpr hva
    have hk := hkn.trans_le hh.layout.room
    have hpages := pages_update_some (l := ⟨{ r := true, w := true, u := true }, a⟩) (Nat.zero_le _) hk htk
    refine hsome h' _ N' ⟨{ r := true, w := true, u := true }, a⟩ (hh.moves hm hs (hh.layout.update hkn)) ?_
      (fun j hj => ?_) ?_ hk (update_self ..) rfl
    · have hall := hm.extend hh.space.own hh.space.apart
      rwa [Set.union_assoc, ← Set.insert_eq, ← hpages] at hall
    · rw [update_of_ne]
      · exact hj
      · rintro rfl
        exact hj htk
    · refine seen_update hk hkn htk ⟨rfl, rfl⟩ hzero fun b hb => hm.frame b (hh.space.own hb) ?_
      exact Set.disjoint_right.mp hh.space.apart hb

/-! ## How far a copy gets -/

section Got
variable {ok : Nat → Prop} {len j : Nat} {r : Int}

/-- A copy of `len` bytes at `va` got as far as `j` bytes. They are allowed by `ok`, and on pages that
are mapped now. A copy stops before a byte that is not allowed, or for which there was no page. -/
structure Got (ok : Nat → Prop) (va len : Nat) (h : Heap) (t : Nat → Option Leaf) (r : Int) (j : Nat) : Prop where
  le : j ≤ len
  allowed : ∀ i < j, ok (va + i) ∧ mapped h t ((va + i) / pgsize) ≠ none
  ends : r = 0 ∧ j = len ∨ r = -1 ∧ j < len ∧
    (¬ ok (va + j) ∨ h.oom = true ∧ mapped h t ((va + j) / pgsize) = none)

/-- Nothing was asked for. -/
theorem Got.zero : Got ok va 0 h t 0 0 := ⟨Nat.le_refl 0, fun _ hi => (nomatch hi), .inl ⟨rfl, rfl⟩⟩

/-- The first byte stops it. -/
theorem Got.stop (hlen : len ≠ 0) (hstop : ¬ ok va ∨ h.oom = true ∧ mapped h t (va / pgsize) = none) :
    Got ok va len h t (-1) 0 :=
  ⟨Nat.zero_le len, fun _ hi => (nomatch hi), .inr ⟨rfl, Nat.pos_of_ne_zero hlen, hstop⟩⟩

/-- The copy ends, and is complete just when every byte is allowed and has a page. -/
theorem Got.complete_iff (hg : Got ok va len h t r j) :
    r = 0 ↔ ∀ i < len, ok (va + i) ∧ mapped h t ((va + i) / pgsize) ≠ none := by
  obtain ⟨hr, hj⟩ | ⟨hr, hj, hstop⟩ := hg.ends
  · exact ⟨fun _ i hi => hg.allowed i (hj ▸ hi), fun _ => hr⟩
  · refine ⟨fun h0 => ?_, fun hall => ?_⟩
    · rw [hr] at h0
      cases h0
    · obtain ⟨hok, hmap⟩ := hall j hj
      exact (hstop.elim (· hok) fun hn => hmap hn.2).elim

/-- With a page for everything, only `ok` decides where it stops. -/
theorem Got.unique {h' : Heap} {r' : Int} {j' : Nat} (hg : Got ok va len h t r j) (hg' : Got ok va len h' t' r' j')
    (ho : h.oom = false) (ho' : h'.oom = false) : r = r' ∧ j = j' := by
  have hle := hg.le
  have hle' := hg'.le
  rcases hg.ends with ⟨hr, hj⟩ | ⟨hr, hj, hstop⟩
  all_goals rcases hg'.ends with ⟨hr', hj'⟩ | ⟨hr', hj', hstop'⟩
  · exact ⟨hr.trans hr'.symm, hj.trans hj'.symm⟩
  · have hno := hstop'.resolve_right fun hc => by rw [ho'] at hc; cases hc.1
    exact absurd (hg.allowed j' (by omega)).1 hno
  · have hno := hstop.resolve_right fun hc => by rw [ho] at hc; cases hc.1
    exact absurd (hg'.allowed j (by omega)).1 hno
  · have hno := hstop.resolve_right fun hc => by rw [ho] at hc; cases hc.1
    have hno' := hstop'.resolve_right fun hc => by rw [ho'] at hc; cases hc.1
    have h1 : ¬ j < j' := fun hlt => hno (hg'.allowed j hlt).1
    have h2 : ¬ j' < j := fun hlt => hno' (hg.allowed j' hlt).1
    exact ⟨hr.trans hr'.symm, by omega⟩

theorem Got.congr {ok' : Nat → Prop} (hok : ∀ a, ok' a ↔ ok a) (hg : Got ok va len h t r j) : Got ok' va len h t r j := by
  rwa [show ok' = ok from funext fun a => propext (hok a)]

/-- The number of bytes of a round. -/
abbrev chunk (va len : Nat) : Nat := min (pgsize - (va - pgrounddown va)) len

theorem chunk_page {i : Nat} (hi : i < chunk va len) :
    (va + i) / pgsize = va / pgsize ∧ (va + i) % pgsize = va - pgrounddown va + i := by
  unfold chunk pgrounddown pgsize at *
  omega

theorem chunk_next (i : Nat) (hlen : chunk va len < len) : va + (chunk va len + i) = pgrounddown va + pgsize + i := by
  unfold chunk pgrounddown pgsize at *
  omega

/-- A round, and what comes after it. -/
theorem Got.round (hok : ∀ i < chunk va len, ok (va + i)) (hmap : mapped h t (va / pgsize) ≠ none)
    (hg : Got ok (pgrounddown va + pgsize) (len - chunk va len) h t r j) : Got ok va len h t r (chunk va len + j) := by
  have hle : chunk va len ≤ len := Nat.min_le_right _ _
  have hj := hg.le
  refine ⟨by omega, fun i hi => ?_, ?_⟩
  · by_cases hc : i < chunk va len
    · rw [(chunk_page hc).1]
      exact ⟨hok i hc, hmap⟩
    · obtain ⟨i, rfl⟩ := Nat.exists_eq_add_of_le (Nat.le_of_not_lt hc)
      rw [chunk_next i (by omega)]
      exact hg.allowed i (by omega)
  · obtain ⟨hr, he⟩ | ⟨hr, he, hstop⟩ := hg.ends
    · exact .inl ⟨hr, by omega⟩
    · rw [chunk_next j (by omega)]
      exact .inr ⟨hr, by omega, hstop⟩

end Got

namespace Memory
variable {m : Memory} {a len j : Nat} {bs : List UChar}

theorem user_page (h : a / pgsize = va / pgsize) : user m a = user m va := by
  unfold user
  rw [h]

/-- The bytes of a round, and those after it. -/
theorem bytes_round (hc : user m va = some c) (hj : j ≤ len - chunk va len) :
    (getBytes c.byte (va - pgrounddown va) (chunk va len)).map some ++
      (List.range j).map (fun i => byte m (pgrounddown va + pgsize + i)) =
    (List.range (chunk va len + j)).map fun i => byte m (va + i) := by
  rw [range_add, map_append]
  unfold getBytes
  rw [map_map, map_map]
  congr 1
  · refine map_congr_left fun i hi => ?_
    obtain ⟨hpage, hoff⟩ := chunk_page (mem_range.mp hi)
    unfold byte
    rw [user_page hpage, hc, hoff]
    rfl
  · refine map_congr_left fun i hi => ?_
    rw [comp_apply, chunk_next i (by have := mem_range.mp hi; omega)]

theorem writable_write : writable (write m va bs) a ↔ writable m a := by
  unfold writable user write
  cases m (a / pgsize) with
  | none => rfl
  | some x => cases hu : x.u <;> simp [Option.filter, hu]

theorem write_nil : write m va [] = m := by
  funext k
  unfold write
  cases m k <;> simp

theorem write_append (bs' : List UChar) : write (write m va bs) (va + bs.length) bs' = write m va (bs ++ bs') := by
  funext k
  unfold write
  cases m k with
  | none => rfl
  | some x =>
    refine congrArg some (congrArg (Cell.mk x.u x.w) (funext fun o => ?_))
    dsimp only
    by_cases ho : o < pgsize ∧ va ≤ k * pgsize + o
    · rw [if_pos ho, if_pos ho]
      by_cases hlt : k * pgsize + o - va < bs.length
      · rw [if_neg (by omega), List.getElem?_append_left hlt]
      · rw [if_pos ⟨ho.1, by omega⟩, List.getElem?_append_right (by omega), Nat.sub_add_eq,
          List.getElem?_eq_none (by omega : bs.length ≤ k * pgsize + o - va)]
        rfl
    · rw [if_neg ho, if_neg ho, if_neg (by omega)]

/-- What a round writes, and what comes after it. -/
theorem write_round (src : List UChar) (hj : j ≤ src.length - chunk va src.length) :
    write (write m va (src.take (chunk va src.length))) (pgrounddown va + pgsize)
        ((src.drop (chunk va src.length)).take j) = write m va (src.take (chunk va src.length + j)) := by
  have hle : chunk va src.length ≤ src.length := Nat.min_le_right _ _
  rw [take_add, ← write_append, length_take_of_le hle]
  cases j with
  | zero => rw [take_zero, write_nil, write_nil]
  | succ j =>
    have hnext : va + (chunk va src.length + 0) = pgrounddown va + pgsize + 0 := chunk_next 0 (by omega)
    rw [Nat.add_zero, Nat.add_zero] at hnext
    rw [hnext]

/-- Bytes stored in one page. -/
theorem write_page (hc : m (va / pgsize) = some c) (hbs : bs.length ≤ pgsize - (va - pgrounddown va)) :
    update m (va / pgsize) (some { c with byte := putBytes c.byte (va - pgrounddown va) bs }) =
      write m va bs := by
  funext k
  unfold write
  by_cases e : k = va / pgsize
  · rw [e, update_self, hc]
    refine congrArg some (congrArg (Cell.mk c.u c.w) (funext fun o => ?_))
    unfold putBytes
    by_cases ho : va - pgrounddown va ≤ o ∧ o < va - pgrounddown va + bs.length
    · have hi : va / pgsize * pgsize + o - va = o - (va - pgrounddown va) := by
        unfold pgrounddown pgsize at *
        omega
      rw [if_pos ho, if_pos (by unfold pgrounddown pgsize at *; omega), hi, getD_eq_getElem?_getD,
        List.getElem?_eq_getElem (by omega)]
      rfl
    · rw [if_neg ho]
      split
      next hin =>
        rw [List.getElem?_eq_none (by unfold pgrounddown pgsize at *; omega)]
        rfl
      next => rfl
  · rw [update_of_ne e]
    cases m k with
    | none => rfl
    | some x =>
      refine congrArg some (congrArg (Cell.mk x.u x.w) (funext fun o => ?_))
      split
      next hin =>
        rw [List.getElem?_eq_none (by unfold pgrounddown pgsize at *; omega)]
        rfl
      next => rfl

end Memory

/-! ## The copy routines -/

theorem user_seen (hk : va / pgsize < top) (ht : t (va / pgsize) = some l) (hu : l.perm.u = true) :
    Memory.user (seen h t n) va = some (h.cell l) := by
  unfold Memory.user
  rw [seen_of_mapped (mapped_some hk ht)]
  exact Option.filter_some_pos hu

/-- What a copy routine leaves of the process: no page is unmapped, and `m` is its memory. -/
structure Copied (h : Heap) (p : ProcPtr) (pt tf : Page) (t : Nat → Option Leaf) (N : Set Page) (m : Memory)
    (h' : Heap) (t' : Nat → Option Leaf) (N' : Set Page) : Prop where
  home : Home h' p pt tf t' N'
  moves : Moves h h' (N ∪ pages t 0 top) (N' ∪ pages t' 0 top)
  keeps : ∀ k, t k ≠ none → t' k ≠ none
  memory : seen h' t' (pgs (h'.proc p).sz) = m

theorem Home.sub (hh : Home h p pt tf t N) : N ∪ pages t 0 top ⊆ h.own :=
  Set.union_subset hh.space.nodes hh.space.own

theorem mapped_ne_none (hk : k < top) : mapped h t k ≠ none ↔ t k ≠ none := by
  unfold mapped
  rw [if_pos hk]
  cases t k <;> simp

variable {m : Memory}

/-- Nothing happened. -/
theorem Home.copied (hh : Home h p pt tf t N) (hm : seen h t (pgs (h.proc p).sz) = m) : Copied h p pt tf t N m h t N :=
  ⟨hh, .refl hh.sub, fun _ hk => hk, hm⟩

/-- There was no page. -/
theorem Home.copied_oom (hh : Home h p pt tf t N) (hseen : seen h t (pgs (h.proc p).sz) = m) (hm : Moves h h' N N')
    (hs : Space h' pt t N') : Copied h p pt tf t N m h' t N' := by
  refine ⟨hh.moves hm hs hh.layout, hm.extend hh.space.own hh.space.apart, fun _ hk => hk, ?_⟩
  rw [hm.proc, ← hseen]
  funext k
  unfold seen Memory.filled
  rw [mapped_congr rfl fun l hk htk => hm.frame l.pa (hh.space.mem_own hk htk).1 (hh.space.mem_own hk htk).2]

theorem Copied.after {h₀ : Heap} {t₀ : Nat → Option Leaf} {N₀ : Set Page} (hc : Copied h p pt tf t N m h' t' N')
    (hm : Moves h₀ h (N₀ ∪ pages t₀ 0 top) (N ∪ pages t 0 top)) (hk : ∀ k, t₀ k ≠ none → t k ≠ none) :
    Copied h₀ p pt tf t₀ N₀ m h' t' N' :=
  ⟨hc.home, hm.trans hc.moves, fun k h0 => hc.keeps k (hk k h0), hc.memory⟩

/-- A page that was mapped still is. -/
theorem Copied.mapped_ne (hc : Copied h p pt tf t N m h' t' N') (hk : k < top) (ht : t k = some l) :
    mapped h' t' k ≠ none := by
  refine (mapped_ne_none hk).mpr (hc.keeps k ?_)
  rw [ht]
  exact Option.some_ne_none l

theorem mapped_none (hk : t k = none) : mapped h t k = none := by
  unfold mapped
  rw [hk]
  split <;> rfl

theorem vwp_copyinLoop {len : Nat} (hfuel : len ≤ fuel) (hh : Home h p pt tf t N)
    (hm : seen h t (pgs (h.proc p).sz) = m) : vwp W (copyinLoop p pt fuel va len dst) (fun r h' => ∃ t' N' j,
      Copied h p pt tf t N m h' t' N' ∧ Got (fun a => Memory.byte m a ≠ none) va len h' t' r.1 j ∧
      r.2.map some = dst.map some ++ (List.range j).map fun i => Memory.byte m (va + i)) h := by
  induction fuel generalizing h t N va len dst with
  | zero =>
    obtain rfl := Nat.le_zero.mp hfuel
    exact vwp_pure ⟨t, N, 0, hh.copied hm, .zero, (append_nil _).symm⟩
  | succ fuel ih =>
    unfold copyinLoop
    split
    next hz =>
      subst hz
      exact vwp_pure ⟨t, N, 0, hh.copied hm, .zero, (append_nil _).symm⟩
    next hlen =>
      refine vwp_bind (vwp_userPage hh (fun hnone => ?_) (fun h' N' htk hm' hs ho => ?_) ?_)
      · refine vwp_pure ⟨t, N, 0, hh.copied hm, .stop hlen (.inl fun hb => hb ?_), (append_nil _).symm⟩
        unfold Memory.byte
        rw [← hm, hnone]
        rfl
      · exact vwp_pure ⟨t, N', 0, hh.copied_oom hm hm' hs, .stop hlen (.inr ⟨ho, mapped_none htk⟩),
          (append_nil _).symm⟩
      · intro h₁ t₁ N₁ l hh₁ hm₁ hkeep hseen hk htk hu
        obtain ⟨hown, _⟩ := hh₁.space.mem_own hk htk
        have hproc : h₁.proc p = h.proc p := congrFun hm₁.proc p
        have huser : Memory.user m va = some (h₁.cell l) := by
          rw [← hm, ← hseen]
          exact user_seen hk htk hu
        refine vwp_bind (vwp_read (getBytes (h₁.frame l.pa).byte (va - pgrounddown va) (chunk va len))
          (fun s hr => ?_) ?_)
        · rw [hr.frame l.pa hown]
        · refine vwp_mono (ih ?_ hh₁ (by rw [hproc, hseen, hm])) ?_
          · unfold pgrounddown pgsize
            omega
          rintro r h₂ ⟨t₂, N₂, j, hc, hg, hbs⟩
          refine ⟨t₂, N₂, _, hc.after hm₁ hkeep, hg.round (fun i hi => ?_) (hc.mapped_ne hk htk), ?_⟩
          · unfold Memory.byte
            rw [Memory.user_page (chunk_page hi).1, huser]
            exact Option.some_ne_none _
          · rw [hbs, map_append, append_assoc, ← Memory.bytes_round huser hg.le]
            rfl

/-- Bytes of a user page are written. -/
theorem Space.store (hs : Space h pt t N) (ha : a ∈ pages t 0 top) :
    Space (h.setFrame a { h.frame a with byte := b }) pt t N := by
  refine ⟨hs.table.frame fun c hc => ?_, hs.nodes, hs.own, hs.apart, hs.inj⟩
  refine congrArg Frame.pte (update_of_ne ?_ _ _)
  intro e
  exact Set.disjoint_right.mp hs.apart ha (e ▸ hc)

theorem seen_store (hs : Space h pt t N) (hk : k < top) (ht : t k = some l) :
    seen (h.setFrame l.pa { h.frame l.pa with byte := b }) t n =
      update (seen h t n) k (some { h.cell l with byte := b }) := by
  funext j
  by_cases e : j = k
  · rw [e, update_self, seen_of_mapped (mapped_some hk ht)]
    refine congrArg some ?_
    unfold Heap.cell
    rw [show (h.setFrame l.pa { h.frame l.pa with byte := b }).frame l.pa = { h.frame l.pa with byte := b } from
      update_self ..]
  · rw [update_of_ne e]
    have hsame : mapped (h.setFrame l.pa { h.frame l.pa with byte := b }) t j = mapped h t j :=
      mapped_congr rfl fun l' hj htj => update_of_ne (fun ea => e (hs.inj hj hk htj ht ea)) ..
    unfold seen Memory.filled
    rw [hsame]

theorem user_seen_of_le (hn : n ≤ top) (hva : maxva ≤ pgrounddown va) : Memory.user (seen h t n) va = none := by
  have hk : ¬ va / pgsize < top := by
    unfold pgrounddown at hva
    intro hk
    exact mul_pgsize_lt (lt_maxpage hk) hva
  have hmap : mapped h t (va / pgsize) = none := if_neg hk
  unfold Memory.user
  rw [seen_of_none hmap, if_neg]
  · rfl
  · omega

theorem vwp_copyoutLoop {src : List UChar} (hfuel : src.length ≤ fuel) (hh : Home h p pt tf t N)
    (hm : seen h t (pgs (h.proc p).sz) = m) : vwp W (copyoutLoop p pt fuel va src) (fun r h' => ∃ t' N' j,
      Copied h p pt tf t N (m.write va (src.take j)) h' t' N' ∧ Got m.writable va src.length h' t' r j) h := by
  have hnil : ∀ {m' : Memory}, m'.write va (src.take 0) = m' := fun {m'} => Memory.write_nil
  induction fuel generalizing h t N va src m with
  | zero =>
    have hlen := Nat.le_zero.mp hfuel
    rw [hlen]
    exact vwp_pure ⟨t, N, 0, hnil ▸ hh.copied hm, .zero⟩
  | succ fuel ih =>
    unfold copyoutLoop
    split
    next hlen =>
      rw [hlen]
      exact vwp_pure ⟨t, N, 0, hnil ▸ hh.copied hm, .zero⟩
    next hlen =>
      -- where the code returns -1 before it has written to the page
      have hstop : ∀ {h' : Heap} {t' N'}, Copied h p pt tf t N m h' t' N' →
          ¬ m.writable va ∨ h'.oom = true ∧ mapped h' t' (va / pgsize) = none →
          ∃ t' N' j, Copied h p pt tf t N (m.write va (src.take j)) h' t' N' ∧ Got m.writable va src.length h' t' (-1) j :=
        fun {h' t' N'} hc hs => ⟨t', N', 0, hnil.symm ▸ hc, .stop hlen hs⟩
      have hnone : Memory.user m va = none → ¬ m.writable va := by
        rintro hu ⟨c, hc, _⟩
        rw [hu] at hc
        cases hc
      dsimp only
      split
      next hmax => exact vwp_pure (hstop (hh.copied hm) (.inl (hnone (hm ▸ user_seen_of_le hh.layout.room hmax))))
      next =>
        refine vwp_bind (vwp_userPage hh (fun hu => ?_) (fun h' N' htk hm' hs ho => ?_) ?_)
        · exact vwp_pure (hstop (hh.copied hm) (.inl (hnone (hm ▸ hu))))
        · exact vwp_pure (hstop (hh.copied_oom hm hm' hs) (.inr ⟨ho, mapped_none htk⟩))
        · intro h₁ t₁ N₁ l hh₁ hm₁ hkeep hseen hk htk hu
          obtain ⟨hown, _⟩ := hh₁.space.mem_own hk htk
          have hproc : h₁.proc p = h.proc p := congrFun hm₁.proc p
          have hm' : seen h₁ t₁ (pgs (h₁.proc p).sz) = m := by rw [hproc, hseen, hm]
          have huser : Memory.user m va = some (h₁.cell l) := hm' ▸ user_seen hk htk hu
          refine vwp_bind (vwp_walk hh₁.space.table hh₁.space.nodes (lt_maxpage hk) (fun hnone => ?_) ?_)
          · rw [htk] at hnone
            cases hnone
          intro a i ha hval _
          refine vwp_bind (vwp_readPte (hh₁.space.nodes ha) ?_)
          rw [hval, htk]
          change vwp W (if !l.perm.w then pure (-1) else _) _ h₁
          split
          next hw =>
            refine vwp_pure (hstop ⟨hh₁, hm₁, hkeep, hm'⟩ (.inl ?_))
            rintro ⟨c, hc, hcw⟩
            rw [huser] at hc
            cases hc
            rw [show l.perm.w = true from hcw] at hw
            cases hw
          next hw =>
            have hpage : l.pa ∈ pages t₁ 0 top := ⟨_, l, Nat.zero_le _, hk, htk, rfl⟩
            have hmk : m (va / pgsize) = some (h₁.cell l) := hm' ▸ seen_of_mapped (mapped_some hk htk)
            refine vwp_bind (vwp_store hown ?_)
            generalize hb : putBytes (h₁.frame l.pa).byte (va - pgrounddown va)
              (src.take (chunk va src.length)) = b
            have hmem : seen (h₁.setFrame l.pa { h₁.frame l.pa with byte := b }) t₁ (pgs (h₁.proc p).sz) =
                m.write va (src.take (chunk va src.length)) := by
              rw [seen_store hh₁.space hk htk, hm', ← hb]
              exact Memory.write_page hmk (Nat.le_trans (length_take_le _ _) (Nat.min_le_left _ _))
            have hm₂ := Moves.setFrame (h := h₁) hh₁.sub (.inr hpage) { h₁.frame l.pa with byte := b }
            have hh₂ := hh₁.moves hm₂ (hh₁.space.store hpage) hh₁.layout
            refine vwp_mono (ih ?_ hh₂ hmem fun {m'} => Memory.write_nil) ?_
            · rw [length_drop]
              unfold pgrounddown pgsize
              omega
            rintro r h₂ ⟨t₂, N₂, j, hc, hg⟩
            rw [length_drop] at hg
            rw [Memory.write_round src hg.le] at hc
            refine ⟨t₂, N₂, _, hc.after (hm₁.trans hm₂) hkeep, Got.round (fun i hi => ?_) (hc.mapped_ne hk htk)
              (hg.congr fun a => Memory.writable_write.symm)⟩
            refine ⟨h₁.cell l, ?_, ?_⟩
            · rw [Memory.user_page (chunk_page hi).1, huser]
            · exact Bool.not_eq_false _ ▸ fun hf => hw (by rw [show l.perm.w = false from hf]; rfl)

/-- `copyinstr` reads what is mapped. -/
theorem vwp_copyinstrLoop {max : Nat} (hs : Space h pt t N) (hl : Layout t n tf code) :
    vwp W (copyinstrLoop pt fuel va max dst)
      (fun r h' => h' = h ∧ r = Memory.copyinstr (mapped h t) fuel va max dst) h := by
  induction fuel generalizing va max dst with
  | zero => exact vwp_pure ⟨rfl, rfl⟩
  | succ fuel ih =>
    unfold copyinstrLoop Memory.copyinstr
    split
    next => exact vwp_pure ⟨rfl, rfl⟩
    next =>
      refine vwp_bind (vwp_walkaddr (k := va / pgsize) hs hl (fun hnone => ?_) fun l hk htk hu => ?_)
      · rw [show Memory.user (mapped h t) va = none from hnone]
        exact vwp_pure ⟨rfl, rfl⟩
      · have huser : Memory.user (mapped h t) va = some (h.cell l) := by
          unfold Memory.user
          rw [mapped_some hk htk]
          exact Option.filter_some_pos hu
        obtain ⟨hown, _⟩ := hs.mem_own hk htk
        rw [huser]
        refine vwp_bind (vwp_read (getBytes (h.frame l.pa).byte (va - pgrounddown va)
          (min (pgsize - (va - pgrounddown va)) max)) (fun s hr => ?_) ?_)
        · rw [hr.frame l.pa hown]
        · dsimp only
          rw [show (h.cell l).byte = (h.frame l.pa).byte from rfl]
          split
          next => exact vwp_pure ⟨rfl, rfl⟩
          next => exact ih

end Txv6.Vm
