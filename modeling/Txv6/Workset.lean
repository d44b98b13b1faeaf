import Txv6.Systx
import Mathlib.Data.List.Pairwise

/-! # The sorted workset

`txshadow` keeps the workset sorted by header address, so that `find_workset_entry`
finds every object that is in it.
-/
namespace Txv6
open List

variable {h : Header} {l r : Int} {ws : List WorksetEntry} {fuel i : Nat} {a b : WorksetEntry}

theorem Header.addr_injective {h' : Header} (e : h.addr = h'.addr) : h = h' := by
  cases h with
  | buf b =>
    cases h' with
    | buf b' =>
      simp only [Header.addr] at e
      rw [Fin.ext e]
    | inode ip =>
      simp only [Header.addr] at e
      have := b.isLt
      omega
  | inode ip =>
    cases h' with
    | buf b =>
      simp only [Header.addr] at e
      have := b.isLt
      omega
    | inode ip' =>
      simp only [Header.addr] at e
      rw [Fin.ext (Nat.add_left_cancel e)]

/-- Strictly ascending header addresses. -/
def WsSorted (ws : List WorksetEntry) : Prop :=
  ws.Pairwise fun a b => a.header.addr < b.header.addr

/-- The object has an entry. -/
def InWorkset (ws : List WorksetEntry) (h : Header) : Prop := ∃ e ∈ ws, e.header = h

instance (ws : List WorksetEntry) (h : Header) : Decidable (InWorkset ws h) :=
  inferInstanceAs (Decidable (∃ e ∈ ws, e.header = h))

instance (ws : List WorksetEntry) : Decidable (WsSorted ws) :=
  inferInstanceAs (Decidable (ws.Pairwise _))

theorem inWorkset_iff_mem : InWorkset ws h ↔ h ∈ ws.map (·.header) := by
  simp [InWorkset]

theorem wsSorted_iff_map : WsSorted ws ↔ (ws.map (·.header)).Pairwise fun a b => a.addr < b.addr := by
  rw [pairwise_map]
  rfl

/-- The flag of an entry has no part in which objects there are. -/
theorem map_header_mark (ws : List WorksetEntry) (i : Nat) (n : Bool) :
    (ws.modify i fun e => { e with newlyAllocated := n }).map (·.header) = ws.map (·.header) := by
  refine ext_getElem? fun j => ?_
  simp only [List.getElem?_map, List.getElem?_modify]
  cases ws[j]? with
  | none => rfl
  | some e => by_cases h : i = j <;> simp [h]

theorem inWorkset_mark {n : Bool} :
    InWorkset (ws.modify i fun e => { e with newlyAllocated := n }) h ↔ InWorkset ws h := by
  rw [inWorkset_iff_mem, map_header_mark, ← inWorkset_iff_mem]

theorem wsSorted_mark {n : Bool} : WsSorted (ws.modify i fun e => { e with newlyAllocated := n }) ↔ WsSorted ws := by
  rw [wsSorted_iff_map, map_header_mark, ← wsSorted_iff_map]

theorem wsSorted_get_lt (hs : WsSorted ws) {j : Nat}
    (ha : ws[i]? = some a) (hb : ws[j]? = some b) (hij : i < j) : a.header.addr < b.header.addr := by
  obtain ⟨hi, rfl⟩ := List.getElem?_eq_some_iff.mp ha
  obtain ⟨hj, rfl⟩ := List.getElem?_eq_some_iff.mp hb
  exact pairwise_iff_getElem.mp hs i j hi hj hij

/-- A header has at most one slot. -/
theorem wsSorted_index (hs : WsSorted ws) {j : Nat} (ha : ws[i]? = some a) (hb : ws[j]? = some b)
    (h : a.header = b.header) : i = j := by
  rcases Nat.lt_trichotomy i j with hij | hij | hij
  · have := wsSorted_get_lt hs ha hb hij
    rw [h] at this
    omega
  · exact hij
  · have := wsSorted_get_lt hs hb ha hij
    rw [h] at this
    omega

theorem wsSorted_unique (hs : WsSorted ws) (ha : a ∈ ws) (hb : b ∈ ws) (h : a.header = b.header) : a = b := by
  obtain ⟨i, ha⟩ := mem_iff_getElem?.mp ha
  obtain ⟨j, hb⟩ := mem_iff_getElem?.mp hb
  obtain rfl := wsSorted_index hs ha hb h
  exact Option.some.inj (ha.symm.trans hb)

/-- Changing an entry in its place leaves the others. -/
theorem mem_modify {f : WorksetEntry → WorksetEntry} (hs : WsSorted ws) (ha : ws[i]? = some a) :
    b ∈ ws.modify i f ↔ b = f a ∨ b ∈ ws ∧ b.header ≠ a.header := by
  simp only [mem_iff_getElem?, List.getElem?_modify]
  constructor
  · rintro ⟨j, hj⟩
    by_cases e : i = j
    · subst e
      rw [ha] at hj
      exact .inl (by simpa using hj.symm)
    · have hj : ws[j]? = some b := by simpa [e] using hj
      exact .inr ⟨⟨j, hj⟩, fun heq => e (wsSorted_index hs ha hj heq.symm)⟩
  · rintro (rfl | ⟨⟨j, hj⟩, hne⟩)
    · exact ⟨i, by simp [ha]⟩
    · have e : i ≠ j := by
        rintro rfl
        rw [ha] at hj
        cases hj
        exact hne rfl
      exact ⟨j, by simp [e, hj]⟩

/-! ## Searching -/

theorem searchWorkset_some (hf : searchWorkset ws h fuel l r = some i) :
    ∃ e, ws[i]? = some e ∧ e.header = h := by
  induction fuel generalizing l r with
  | zero => cases hf
  | succ fuel ih =>
    simp only [searchWorkset] at hf
    split at hf
    · split at hf
      · cases hf
      next e he =>
        split at hf
        · cases hf
          exact ⟨e, he, by assumption⟩
        · split at hf
          · exact ih hf
          · exact ih hf
    · cases hf

/-- A search that fails has excluded every slot of its range. -/
theorem searchWorkset_none (hs : WsSorted ws) (hl : 0 ≤ l) (hr : r < ws.length) (hfuel : r - l + 1 < fuel)
    (hf : searchWorkset ws h fuel l r = none) {e : WorksetEntry} (he : ws[i]? = some e) (hli : l ≤ i)
    (hir : (i : Int) ≤ r) : e.header ≠ h := by
  induction fuel generalizing l r with
  | zero => omega
  | succ fuel ih =>
    simp only [searchWorkset] at hf
    rw [if_pos (by omega)] at hf
    split at hf
    next hmid =>
      rw [List.getElem?_eq_none_iff] at hmid
      omega
    next m hm =>
      split at hf
      · cases hf
      · rintro rfl
        split at hf
        next hlt =>
          -- the object lies above the middle
          by_cases hi : (i : Int) ≤ l + (r - l) / 2
          · rcases Nat.lt_or_eq_of_le (show i ≤ (l + (r - l) / 2).toNat by omega) with hi | hi
            · have := wsSorted_get_lt hs he hm hi
              omega
            · rw [hi, hm] at he
              cases he
              omega
          · exact ih (by omega) hr (by omega) hf (by omega) hir rfl
        next hne hge =>
          by_cases hi : l + (r - l) / 2 ≤ (i : Int)
          · rcases Nat.lt_or_eq_of_le (show (l + (r - l) / 2).toNat ≤ i by omega) with hi | hi
            · have := wsSorted_get_lt hs hm he hi
              omega
            · rw [← hi, hm] at he
              cases he
              exact hne rfl
          · exact ih hl (by omega) (by omega) hf hli (by omega) rfl

theorem findWorksetEntry_some (hf : findWorksetEntry ws h = some i) : ∃ e, ws[i]? = some e ∧ e.header = h :=
  searchWorkset_some hf

/-- **The binary search is complete.** -/
theorem findWorksetEntry_eq_none (hs : WsSorted ws) : findWorksetEntry ws h = none ↔ ¬ InWorkset ws h := by
  constructor
  · rintro hf ⟨e, he, heq⟩
    obtain ⟨i, hi⟩ := mem_iff_getElem?.mp he
    have hlt := (List.getElem?_eq_some_iff.mp hi).1
    exact searchWorkset_none hs (Int.le_refl 0) (by omega) (by omega) hf hi (by omega) (by omega) heq
  · intro hn
    cases hf : findWorksetEntry ws h with
    | none => rfl
    | some i =>
      obtain ⟨e, he, heq⟩ := findWorksetEntry_some hf
      exact absurd ⟨e, mem_of_getElem? he, heq⟩ hn

/-! ## Inserting -/

theorem sinkEntry_perm (e : WorksetEntry) (l : List WorksetEntry) : (sinkEntry e l).Perm (e :: l) := by
  induction l with
  | nil => exact List.Perm.refl _
  | cons x rest ih =>
    simp only [sinkEntry]
    split
    · exact (ih.cons x).trans (List.Perm.swap _ _ _)
    · exact List.Perm.refl _

theorem insertEntry_perm (ws : List WorksetEntry) (e : WorksetEntry) : (insertEntry ws e).Perm (e :: ws) :=
  (reverse_perm _).trans ((sinkEntry_perm e _).trans ((reverse_perm ws).cons e))

theorem mem_insertEntry {e x : WorksetEntry} : x ∈ insertEntry ws e ↔ x = e ∨ x ∈ ws := by
  rw [(insertEntry_perm ws e).mem_iff, mem_cons]

theorem inWorkset_insertEntry {e : WorksetEntry} :
    InWorkset (insertEntry ws e) h ↔ e.header = h ∨ InWorkset ws h := by
  simp [InWorkset, mem_insertEntry]

theorem sinkEntry_sorted {e : WorksetEntry} {l : List WorksetEntry}
    (hl : l.Pairwise fun a b => b.header.addr < a.header.addr) (hn : ∀ x ∈ l, x.header ≠ e.header) :
    (sinkEntry e l).Pairwise fun a b => b.header.addr < a.header.addr := by
  induction l with
  | nil => simp [sinkEntry]
  | cons x rest ih =>
    rw [pairwise_cons] at hl
    simp only [sinkEntry]
    split
    · refine pairwise_cons.mpr
        ⟨fun y hy => ?_, ih hl.2 fun y hy => hn y (mem_cons_of_mem _ hy)⟩
      rcases mem_cons.mp ((sinkEntry_perm e rest).mem_iff.mp hy) with rfl | hy
      · assumption
      · exact hl.1 y hy
    next hge =>
      have hx : x.header.addr < e.header.addr := by
        have : x.header.addr ≠ e.header.addr :=
          fun h => hn x mem_cons_self (Header.addr_injective h)
        omega
      refine pairwise_cons.mpr ⟨fun y hy => ?_, pairwise_cons.mpr hl⟩
      rcases mem_cons.mp hy with rfl | hy
      · exact hx
      · exact Nat.lt_trans (hl.1 y hy) hx

theorem insertEntry_sorted {e : WorksetEntry} (hs : WsSorted ws)
    (hn : ¬ InWorkset ws e.header) : WsSorted (insertEntry ws e) := by
  refine pairwise_reverse.mpr (sinkEntry_sorted (pairwise_reverse.mpr hs) fun x hx => ?_)
  exact fun h => hn ⟨x, mem_reverse.mp hx, h⟩

/-! ## Shadowing -/

/-- The state after a shadow of `h` has been made in the page `pg` from the data in `src`. -/
def Kernel.grantShadow (s : Kernel) (t : Page) (h : Header) (readOnly : Bool) (pg src : Page)
    (rest : List Page) : Kernel :=
  let s := { (s.setWriter (some t) h).setPage pg (fun _ => .fill 5) with freelist := rest }
  (s.setPage pg ((s.heap src).copyFrom h)).setTx t fun x =>
    { x with workset := insertEntry x.workset ⟨h, pg, readOnly, false⟩ }

/-- The object may become part of the workset of `t`. -/
structure Kernel.MayGrant (s : Kernel) (t : Page) (h : Header) : Prop where
  fresh : findWorksetEntry (s.tx t).workset h = none
  room : (s.tx t).workset.length < maxWorkset
  owner : s.writer h = none ∨ s.writer h = some t

/-- The four ways `txshadow` ends. -/
inductive ShadowResult (s : Kernel) (t : Page) (h : Header) (readOnly : Bool) :
    Except String (Option Page) × Kernel → Prop
  | found {e} : e ∈ (s.tx t).workset → e.header = h →
      ShadowResult s t h readOnly (.ok (some e.shadowData), s)
  | refused : findWorksetEntry (s.tx t).workset h = none →
      (maxWorkset ≤ (s.tx t).workset.length ∨ s.writer h ≠ none ∧ s.writer h ≠ some t) →
      ShadowResult s t h readOnly (.ok none, s)
  | granted {pg rest src} : s.MayGrant t h → s.freelist = pg :: rest → s.dataPtr h = some src →
      ShadowResult s t h readOnly (.ok (some pg), s.grantShadow t h readOnly pg src rest)
  | noMemory : s.MayGrant t h → s.freelist = [] →
      ShadowResult s t h readOnly (.error "txshadow: out of memory", s.setWriter (some t) h)
  | fault {pg rest} : s.MayGrant t h → s.freelist = pg :: rest → s.dataPtr h = none →
      ShadowResult s t h readOnly (.error "kerneltrap",
        { (s.setWriter (some t) h).setPage pg (fun _ => .fill 5) with freelist := rest })

@[simp] theorem setWriter_freelist (s : Kernel) (w : Option Page) (h : Header) :
    (s.setWriter w h).freelist = s.freelist := by cases h <;> rfl

@[simp] theorem setWriter_tx (s : Kernel) (w : Option Page) (h : Header) :
    (s.setWriter w h).tx = s.tx := by cases h <;> rfl

@[simp] theorem setWriter_heap (s : Kernel) (w : Option Page) (h : Header) :
    (s.setWriter w h).heap = s.heap := by cases h <;> rfl

@[simp] theorem setWriter_proc (s : Kernel) (w : Option Page) (h : Header) :
    (s.setWriter w h).proc = s.proc := by cases h <;> rfl

@[simp] theorem setWriter_dataPtr (s : Kernel) (w : Option Page) (h h' : Header) :
    (s.setWriter w h).dataPtr h' = s.dataPtr h' := by
  cases h with
  | buf b =>
    cases h' with
    | buf b' => by_cases e : b' = b <;> simp [Kernel.setWriter, Kernel.setBuf, Kernel.dataPtr, e]
    | inode ip => rfl
  | inode ip =>
    cases h' with
    | buf b => rfl
    | inode ip' =>
      by_cases e : ip' = ip <;> simp [Kernel.setWriter, Kernel.setInode, Kernel.dataPtr, e]

theorem txshadow_result (s : Kernel) (t : Page) (h : Header) (readOnly : Bool) :
    ShadowResult s t h readOnly (s.txshadow t h readOnly) := by
  unfold Kernel.txshadow
  split
  next i hi =>
    obtain ⟨e, he, heq⟩ := findWorksetEntry_some hi
    rw [he]
    exact .found (mem_of_getElem? he) heq
  next hnone =>
    split
    next hfull => exact .refused hnone (.inl hfull)
    next hroom =>
      split
      next hother => exact .refused hnone (.inr hother)
      next howner =>
        have hmay : s.MayGrant t h :=
          ⟨hnone, by omega, by by_cases hw : s.writer h = none <;> simp_all⟩
        unfold Kernel.newShadow Kernel.kalloc
        rw [setWriter_freelist]
        cases hfree : s.freelist with
        | nil => exact .noMemory hmay hfree
        | cons pg rest =>
          have hdata : ({ (s.setWriter (some t) h).setPage pg (fun _ => .fill 5) with
              freelist := rest } : Kernel).dataPtr h = s.dataPtr h := by
            rw [← setWriter_dataPtr s (some t) h h]
            cases h <;> rfl
          dsimp only
          rw [hdata]
          cases hsrc : s.dataPtr h with
          | none => exact .fault hmay hfree hsrc
          | some src => exact .granted hmay hfree hsrc

end Txv6
