import Txv6.Vm.Lazy

/-! # User copies and the page table

Which bytes of its memory a process can hand to the kernel or be given by it, byte by byte.
-/
namespace Txv6.Vm
open Lib List

variable {s : State} {p : ProcPtr} {pt tf : Page} {t : Nat → Option Leaf} {N : Set Page} {va a j max fuel : Nat}
  {m : Memory} {dst : List UChar}

/-- A copy may use the address: its page is mapped for user code, and for writing where that is asked,
or it has not been touched and starts below the size of the process. -/
def State.Usable (s : State) (p : ProcPtr) (write : Bool) (a : Nat) : Prop :=
  match s.mapped p (a / pgsize) with
  | some c => c.u = true ∧ (write = true → c.w = true)
  | none => pgrounddown a < (s.proc p).sz

theorem usable_read : s.Usable p false a ↔ (s.memory p).byte a ≠ none := by
  unfold State.Usable State.memory Memory.byte Memory.user Memory.filled pgrounddown
  rw [← lt_pgs]
  cases s.mapped p (a / pgsize) with
  | none => by_cases hk : a / pgsize < pgs (s.proc p).sz <;> simp [hk, Cell.zero]
  | some c => cases hu : c.u <;> simp [Option.filter, hu]

theorem usable_write : s.Usable p true a ↔ (s.memory p).writable a := by
  unfold State.Usable State.memory Memory.writable Memory.user Memory.filled pgrounddown
  rw [← lt_pgs]
  cases s.mapped p (a / pgsize) with
  | none => by_cases hk : a / pgsize < pgs (s.proc p).sz <;> simp [hk, Cell.zero]
  | some c => cases hu : c.u <;> simp [Option.filter, hu]

/-- What is known of the result and of how far the copy got. -/
theorem State.Got.result {ok : Nat → Prop} {len : Nat} {r : Int} (hg : s.Got p ok va len r j) :
    (r = 0 ↔ ∀ i < len, ok (va + i) ∧ s.mapped p ((va + i) / pgsize) ≠ none) ∧
    (s.oom = false → (r = 0 ↔ ∀ i < len, ok (va + i))) ∧ j ≤ len ∧ (r = 0 → j = len) ∧ ∀ i < j, ok (va + i) := by
  obtain ⟨h, t, hoom, hmap, hg⟩ := hg
  rw [hmap]
  refine ⟨hg.complete_iff, fun ho => ⟨fun hr i hi => (hg.complete_iff.mp hr i hi).1, fun hall => ?_⟩, hg.le,
    fun hr => ?_, fun i hi => (hg.allowed i hi).1⟩
  · obtain ⟨hr, _⟩ | ⟨_, hj, hstop⟩ := hg.ends
    · exact hr
    · obtain hn | hn := hstop
      · exact absurd (hall j hj) hn
      · rw [hoom ho] at hn
        cases hn.1
  · obtain ⟨_, hj⟩ | ⟨hr', _⟩ := hg.ends
    · exact hj
    · rw [hr'] at hr
      cases hr

/-! ## Strings -/

/-- The scan of a page stops behind the first zero. -/
theorem untilNul_true {bs : List UChar} (h : (untilNul bs).2 = true) :
    ∃ n < bs.length, (untilNul bs).1 = bs.take (n + 1) ∧ bs[n]? = some 0 ∧ ∀ i < n, bs[i]? ≠ some 0 := by
  induction bs with
  | nil => cases h
  | cons b bs ih =>
    unfold untilNul at h ⊢
    by_cases hb : b = 0
    · rw [if_pos hb, hb]
      exact ⟨0, Nat.succ_pos _, rfl, rfl, fun i hi => (nomatch hi)⟩
    · rw [if_neg hb] at h ⊢
      obtain ⟨n, hn, htake, hz, hlt⟩ := ih h
      refine ⟨n + 1, Nat.succ_lt_succ hn, congrArg (b :: ·) htake, hz, fun i hi => ?_⟩
      cases i with
      | zero => exact fun hc => hb (Option.some_inj.mp hc)
      | succ i => exact hlt i (by omega)

theorem untilNul_false {bs : List UChar} (h : (untilNul bs).2 = false) : (0 : UChar) ∉ bs := by
  induction bs with
  | nil => exact not_mem_nil
  | cons b bs ih =>
    unfold untilNul at h
    by_cases hb : b = 0
    · rw [if_pos hb] at h
      cases h
    · rw [if_neg hb] at h
      exact fun hc => (mem_cons.mp hc).elim (fun e => hb e.symm) (ih h)

theorem get_of_map {l : List UChar} {g : Nat → Option UChar} {i : Nat} (h : l.map some = (List.range j).map g)
    (hi : i < j) : g i = l[i]? ∧ g i ≠ none := by
  have hget := congrArg (·[i]?) h
  simp only [getElem?_map, getElem?_range hi, Option.map_some] at hget
  cases hx : l[i]? with
  | none => rw [hx] at hget; cases hget
  | some x =>
    rw [hx] at hget
    rw [← Option.some.inj hget]
    exact ⟨rfl, Option.some_ne_none x⟩

/-- The bytes that `copyinstr` reads, and why it stops. -/
theorem copyinstr_reads (hfuel : max ≤ fuel) : ∃ j ≤ max,
    (Memory.copyinstr m fuel va max dst).2.map some = dst.map some ++ (List.range j).map (fun i => m.byte (va + i)) ∧
    (((Memory.copyinstr m fuel va max dst).1 = 0 ∧ ∃ n, j = n + 1 ∧ m.byte (va + n) = some 0 ∧
        ∀ i < n, m.byte (va + i) ≠ some 0) ∨
      ((Memory.copyinstr m fuel va max dst).1 = -1 ∧ (∀ i < j, m.byte (va + i) ≠ some 0) ∧
        (j = max ∨ m.byte (va + j) = none))) := by
  induction fuel generalizing va max dst with
  | zero => exact ⟨0, Nat.zero_le _, (append_nil _).symm, .inr ⟨rfl, fun _ hi => (nomatch hi), .inl (by omega)⟩⟩
  | succ fuel ih =>
    unfold Memory.copyinstr
    by_cases hmax : max = 0
    · rw [if_pos hmax]
      exact ⟨0, Nat.zero_le _, (append_nil _).symm, .inr ⟨rfl, fun _ hi => (nomatch hi), .inl hmax.symm⟩⟩
    rw [if_neg hmax]
    cases hu : m.user va with
    | none =>
      refine ⟨0, Nat.zero_le _, (append_nil _).symm, .inr ⟨rfl, fun _ hi => (nomatch hi), .inr ?_⟩⟩
      unfold Memory.byte
      rw [Nat.add_zero, hu]
      rfl
    | some c =>
      dsimp only
      have hpage := Memory.bytes_round hu (Nat.zero_le (max - chunk va max))
      rw [range_zero, map_nil, append_nil, Nat.add_zero] at hpage
      have hle : chunk va max ≤ max := Nat.min_le_right _ _
      cases hnul : (untilNul (getBytes c.byte (va - pgrounddown va) (chunk va max))).2 with
      | true =>
        obtain ⟨n, hn, htake, hz, hlt⟩ := untilNul_true hnul
        have hn' : n < chunk va max := by rwa [getBytes, length_map, length_range] at hn
        rw [if_pos rfl]
        refine ⟨n + 1, by omega, ?_, .inl ⟨rfl, n, rfl, (get_of_map hpage hn').1.trans hz, fun i hi => ?_⟩⟩
        · rw [map_append, htake, map_take, hpage, ← map_take, take_range, Nat.min_eq_left hn']
        · rw [(get_of_map hpage (hi.trans hn')).1]
          exact hlt i hi
      | false =>
        have hno : ∀ i < chunk va max, m.byte (va + i) ≠ some 0 := by
          intro i hi
          rw [(get_of_map hpage hi).1]
          exact fun hc => untilNul_false hnul (mem_of_getElem? hc)
        rw [if_neg Bool.false_ne_true]
        have hfuel' : max - chunk va max ≤ fuel := by
          unfold chunk pgrounddown pgsize
          omega
        obtain ⟨j, hj, hbs, hend⟩ := @ih (pgrounddown va + pgsize) _
          (dst ++ getBytes c.byte (va - pgrounddown va) (chunk va max)) hfuel'
        have hshift : ∀ i, chunk va max < max → m.byte (pgrounddown va + pgsize + i) = m.byte (va + (chunk va max + i)) :=
          fun i hi => by rw [chunk_next i hi]
        have hbefore : ∀ n ≤ j, (∀ i < n, m.byte (pgrounddown va + pgsize + i) ≠ some 0) →
            ∀ i < chunk va max + n, m.byte (va + i) ≠ some 0 := by
          intro n hn hrest i hi
          by_cases hc : i < chunk va max
          · exact hno i hc
          · obtain ⟨i, rfl⟩ := Nat.exists_eq_add_of_le (Nat.le_of_not_lt hc)
            rw [← hshift i (by omega)]
            exact hrest i (by omega)
        refine ⟨chunk va max + j, by omega, ?_, ?_⟩
        · rw [hbs, map_append, append_assoc, Memory.bytes_round hu hj]
        · obtain ⟨hr, n, rfl, hz, hrest⟩ | ⟨hr, hrest, hstop⟩ := hend
          · refine .inl ⟨hr, chunk va max + n, rfl, ?_, hbefore n (Nat.le_succ n) hrest⟩
            rw [← hshift n (by omega)]
            exact hz
          · refine .inr ⟨hr, hbefore j (Nat.le_refl j) hrest, ?_⟩
            by_cases hc : chunk va max < max
            · rw [← hshift j hc]
              exact hstop.imp_left fun e => by omega
            · exact .inl (by omega)

/-! ## The copy routines -/

/-- **User copies respect the page table.** `copyin` and `copyout` succeed just when every byte is on a
page that user code may access, or on an untouched page below the size of the process for which there
was a page, and then transfer these bytes. `copyout` writes a part of the range from its start, on
pages that may be written, and to nothing else that is not free. `copyinstr` succeeds just when it
finds a zero on mapped pages. -/
theorem user_copies (hl : Lays s p pt tf t N) (va : Nat) :
    (∀ len, ∃ r bs s', (onUser p fun pt => copyin p pt va len).run s = (some (.ok (r, bs)), s') ∧
      (r = 0 ↔ ∀ i < len, s.Usable p false (va + i) ∧ s'.mapped p ((va + i) / pgsize) ≠ none) ∧
      (s'.oom = false → (r = 0 ↔ ∀ i < len, s.Usable p false (va + i))) ∧ s'.memory p = s.memory p ∧
      (r = 0 → bs.map some = (List.range len).map fun i => (s.memory p).byte (va + i))) ∧
    (∀ src, ∃ r s' j, (onUser p fun pt => copyout p pt va src).run s = (some (.ok r), s') ∧
      (r = 0 ↔ ∀ i < src.length, s.Usable p true (va + i) ∧ s'.mapped p ((va + i) / pgsize) ≠ none) ∧
      (s'.oom = false → (r = 0 ↔ ∀ i < src.length, s.Usable p true (va + i))) ∧
      j ≤ src.length ∧ (r = 0 → j = src.length) ∧ (∀ i < j, s.Usable p true (va + i)) ∧
      s'.memory p = (s.memory p).write va (src.take j) ∧
      ∀ b ∉ N ∪ pages t 0 top, b ∉ s.freelist → s'.frame b = s.frame b) ∧
    ∀ max, ∃ r dst s', (onUser p fun pt => copyinstr pt va max).run s = (some (.ok (r, dst)), s') ∧
      dst.length ≤ max ∧
      (r = 0 ↔ ∃ n < max, (s.mapped p).byte (va + n) = some 0 ∧ ∀ i < n, (s.mapped p).byte (va + i) ≠ none) ∧
      (r = 0 → ∃ n, (s.mapped p).byte (va + n) = some 0 ∧ (∀ i < n, (s.mapped p).byte (va + i) ≠ some 0) ∧
        dst.map some = (List.range (n + 1)).map fun i => (s.mapped p).byte (va + i)) := by
  simp only [usable_read, usable_write]
  refine ⟨fun len => ?_, fun src => ?_, fun max => ?_⟩
  · obtain ⟨⟨r, bs⟩, s', j, hrun, hmem, _, hg, hbs⟩ := run_copyin hl va len
    obtain ⟨hiff, hoom, _, hall, _⟩ := hg.result
    exact ⟨r, bs, s', hrun, hiff, hoom, hmem, fun hr => hall hr ▸ hbs⟩
  · obtain ⟨r, s', j, hrun, hmem, _, hg, hout⟩ := run_copyout hl va src
    obtain ⟨hiff, hoom, hle, hall, hok⟩ := hg.result
    exact ⟨r, s', j, hrun, hiff, hoom, hle, hall, hok, hmem, hout⟩
  · obtain ⟨s', hrun⟩ := run_copyinstr hl va max
    obtain ⟨j, hj, hbs, hend⟩ := copyinstr_reads (Nat.le_refl max)
    generalize Memory.copyinstr (s.mapped p) max va max [] = o at hrun hbs hend
    obtain ⟨r, dst⟩ := o
    dsimp only at hbs hend
    have hlen := congrArg List.length hbs
    rw [length_map, map_nil, nil_append, length_map, length_range] at hlen
    refine ⟨r, dst, s', hrun, by rw [hlen]; exact hj, ?_⟩
    obtain ⟨hr, n, rfl, hz, hlt⟩ | ⟨hr, hlt, hstop⟩ := hend
    · exact ⟨⟨fun _ => ⟨n, hj, hz, fun i hi => (get_of_map hbs (by omega)).2⟩, fun _ => hr⟩, fun _ => ⟨n, hz, hlt, hbs⟩⟩
    · have hne : r ≠ 0 := by
        rw [hr]
        decide
      refine ⟨⟨fun h0 => absurd h0 hne, ?_⟩, fun h0 => absurd h0 hne⟩
      rintro ⟨n, hn, hz, hread⟩
      have hnj : j ≤ n := Nat.le_of_not_lt fun hc => hlt n hc hz
      have hnone := hstop.resolve_left (by omega)
      obtain rfl | hlt' := Nat.eq_or_lt_of_le hnj
      · rw [hz] at hnone
        cases hnone
      · exact absurd hnone (hread j hlt')

/-- A word of a page that has not been touched. -/
theorem user_copies_untouched : ∃ s', (onUser 0 fun pt => copyin 0 pt 8 4).run grownLazily =
    (some (.ok (0, [0, 0, 0, 0])), s') ∧ s'.memory 0 = grownLazily.memory 0 := by
  obtain ⟨pt, tf, t, N, hl⟩ := grown_twins.lazy
  obtain ⟨r, bs, s', hrun, _, _, hmem, _⟩ := (user_copies hl 8).1 4
  have hres : ((onUser 0 fun pt => copyin 0 pt 8 4).run grownLazily).1 = some (.ok (0, [0, 0, 0, 0])) := by rfl
  rw [hrun] at hres
  cases hres
  exact ⟨s', hrun, hmem⟩

end Txv6.Vm
