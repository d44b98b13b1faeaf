import Txv6.Pipe.Code
import Txv6.Lib.Faults
import Txv6.Lib.Sequence

/-! # Pipes are lossless

At every point of every run the bytes that were taken out of a pipe, followed by the contents
of the ring, are the bytes that were put in. Whoever has the lock of the pipe is the only one
to change it, so what a call knows of the ring and of its own bytes stays true until it gives
the lock up.
-/
namespace Txv6
open Lib Lib.Prog Function

variable {n r : Int} {k : Nat} {ok : Nat → Bool} {src : Nat → Option UChar} {pi : Pipe} {ch : PipeChan}

variable {ι : Type}

/-! ## What is said of a pipe -/

/-- What a call did that has returned `result`. `consumed` are the bytes that were taken out
by now, by all calls. -/
def PipeRet.Ok (consumed : List UChar) (r : PipeRet ι) : Prop :=
  match r.call with
  | .write src _ _ => 0 ≤ r.result → r.put.map some = (List.range r.result.toNat).map src
  | .read _ n _ =>
    (0 ≤ r.result →
      (r.got.length : Int) = r.result ∧
      (∃ before rest, before.length = r.first ∧ consumed = before ++ r.got ++ rest) ∧
      ∀ k, k < r.got.length → r.got[k]? = some (r.dst k)) ∧
    (0 < n → r.result = 0 → r.left.empty = true ∧ r.left.writeopen = false)
  | _ => True

/-- The pipe is a lossless queue, so far. -/
structure PipeSys.Lossless (s : PipeSys ι) : Prop where
  stream : s.accepted = s.consumed ++ s.pipe.contents pipesize
  bound : s.pipe.count ≤ pipesize
  rets : ∀ r ∈ s.rets, r.Ok s.consumed

/-- What a thread knows of the others: they leave its bytes alone and, while it has the lock,
the pipe too. -/
structure PipeRely (i : ι) (s t : PipeSys ι) : Prop where
  put : t.put i = s.put i
  got : t.got i = s.got i
  first : t.first i = s.first i
  umem : t.umem i = s.umem i
  lock : s.lock = some i → t.lock = some i
  pipe : s.lock = some i → t.pipe = s.pipe
  consumed : s.lock = some i → t.consumed = s.consumed

abbrev PipeGuar (i : ι) : PipeSys ι → PipeSys ι → Prop := Machine.Guards PipeSys.Lossless PipeRely i

theorem PipeRely.refl (i : ι) (s : PipeSys ι) : PipeRely i s s :=
  ⟨rfl, rfl, rfl, rfl, id, fun _ => rfl, fun _ => rfl⟩

theorem PipeRely.trans {i : ι} {s t u : PipeSys ι} (h : PipeRely i s t) (h' : PipeRely i t u) :
    PipeRely i s u where
  put := h'.put.trans h.put
  got := h'.got.trans h.got
  first := h'.first.trans h.first
  umem := h'.umem.trans h.umem
  lock hl := h'.lock (h.lock hl)
  pipe hl := (h'.pipe (h.lock hl)).trans (h.pipe hl)
  consumed hl := (h'.consumed (h.lock hl)).trans (h.consumed hl)

/-! ## The ring -/

theorem Pipe.empty_iff : pi.empty = true ↔ pi.nread = pi.nwrite := by
  simp [Pipe.empty]

theorem Pipe.not_full (h : pi.full = false) (hb : pi.count ≤ pipesize) : pi.count < pipesize := by
  refine lt_of_le_of_ne hb fun he => ?_
  have := (Ring.count_eq_cap_iff (r := pi.toRing) (by decide)).mp he
  simp [Pipe.full, this] at h

theorem Pipe.contents_push (ch : UChar) (h : pi.count < pipesize) :
    (pi.push ch).contents pipesize = pi.contents pipesize ++ [ch] :=
  Ring.contents_put ch (by decide) h (by decide)

theorem Pipe.count_push (ch : UChar) (h : pi.count < pipesize) :
    (pi.push ch).count = pi.count + 1 := Ring.count_put ch h (by decide)

theorem Pipe.contents_drop (h : pi.empty = false) :
    pi.contents pipesize = pi.front :: pi.drop.contents pipesize := by
  refine Ring.contents_pop fun he => ?_
  rw [Pipe.empty_iff.mpr he] at h
  cases h

theorem Pipe.count_drop (h : pi.empty = false) : pi.drop.count + 1 = pi.count := by
  refine Ring.count_pop fun he => ?_
  rw [Pipe.empty_iff.mpr he] at h
  cases h

/-- Calls that have returned stay as they are when more bytes are taken out. -/
theorem PipeRet.Ok.mono {consumed : List UChar} {r : PipeRet ι} (more : List UChar)
    (h : r.Ok consumed) : r.Ok (consumed ++ more) := by
  unfold PipeRet.Ok at h ⊢
  split
  · next hc => simpa [hc] using h
  · next hc =>
    simp only [hc] at h
    refine ⟨fun hr => ?_, h.2⟩
    obtain ⟨h1, ⟨before, rest, hb, h2⟩, h3⟩ := h.1 hr
    exact ⟨h1, ⟨before, rest ++ more, hb, by rw [h2, List.append_assoc]⟩, h3⟩
  · trivial

variable {i : ι} {s t : PipeSys ι}

/-! ## What a call knows -/

/-- The thread has just got the lock. -/
structure PipeHeld (i : ι) (put got : List UChar) (s : PipeSys ι) : Prop where
  lock : s.lock = some i
  put : s.put i = put
  got : s.got i = got
  first : s.first i = s.consumed.length

/-- In `pipewrite`, with the first `k` bytes of the source accepted. -/
structure PipeWrites (i : ι) (src : Nat → Option UChar) (k : Nat) (s : PipeSys ι) : Prop where
  lock : s.lock = some i
  put : (s.put i).map some = (List.range k).map src

theorem PipeWrites.stable (s t : PipeSys ι) (hR : PipeRely i s t)
    (h : PipeWrites i src k s) : PipeWrites i src k t :=
  ⟨hR.lock h.lock, by rw [hR.put]; exact h.put⟩

/-- What is known when the loop of `pipewrite` is left with a result. -/
def PipeWrote (i : ι) (src : Nat → Option UChar) (r : Int) (s : PipeSys ι) : Prop :=
  s.lock = some i ∧ (0 ≤ r → (s.put i).map some = (List.range r.toNat).map src)

theorem PipeWrites.wrote (h : PipeWrites i src k s) :
    PipeWrote i src k s := ⟨h.lock, fun _ => by simpa using h.put⟩

/-- In the loop of `piperead`, with `k` bytes taken out and delivered. -/
structure PipeReads (i : ι) (k : Nat) (s : PipeSys ι) : Prop where
  lock : s.lock = some i
  length : (s.got i).length = k
  stream : ∃ before, before.length = s.first i ∧ s.consumed = before ++ s.got i
  dst : ∀ j, j < k → (s.got i)[j]? = some (s.umem i j)

theorem PipeHeld.reads {put : List UChar} (h : PipeHeld i put [] s) : PipeReads i 0 s where
  lock := h.lock
  length := by rw [h.got]; rfl
  stream := ⟨s.consumed, h.first.symm, by rw [h.got, List.append_nil]⟩
  dst _ hj := absurd hj (Nat.not_lt_zero _)

theorem PipeReads.stable (s t : PipeSys ι) (hR : PipeRely i s t) (h : PipeReads i k s) : PipeReads i k t := by
  refine ⟨hR.lock h.lock, by rw [hR.got]; exact h.length, ?_, ?_⟩
  · rw [hR.first, hR.consumed h.lock, hR.got]
    exact h.stream
  · rw [hR.got, hR.umem]
    exact h.dst

theorem PipeReads.wakeup (s : PipeSys ι) (h : PipeReads i k s) :
    PipeReads i k (s.wakeup ch) := ⟨h.lock, h.length, h.stream, h.dst⟩

/-- What is known when `piperead` is about to return: the bytes that it has read, and why there
are none. -/
def PipeRead (i : ι) (n : Int) (r : Int) (s : PipeSys ι) : Prop :=
  s.lock = some i ∧ (0 ≤ r → PipeReads i r.toNat s) ∧
    (0 < n → r = 0 → s.pipe.empty = true ∧ s.pipe.writeopen = false)

theorem PipeRead.stable (s t : PipeSys ι) (hR : PipeRely i s t) (h : PipeRead i n r s) :
    PipeRead i n r t := by
  refine ⟨hR.lock h.1, fun hr => (h.2.1 hr).stable _ _ hR, fun hn hr => ?_⟩
  rw [hR.pipe h.1]
  exact h.2.2 hn hr

/-! ## Steps -/

/-- A step of the thread that has the lock. -/
theorem PipeGuar.of_lock (hl : s.lock = some i) (hT : s.Lossless → t.Lossless)
    (hput : ∀ j, j ≠ i → t.put j = s.put j) (hgot : ∀ j, j ≠ i → t.got j = s.got j)
    (hfirst : ∀ j, j ≠ i → t.first j = s.first j) (humem : ∀ j, j ≠ i → t.umem j = s.umem j) :
    PipeGuar i s t := by
  refine ⟨hT, fun j hj => ?_⟩
  have hne : ∀ {P : Prop}, s.lock = some j → P := by
    intro P h
    rw [hl] at h
    exact absurd (Option.some.inj h).symm hj
  exact ⟨hput j hj, hgot j hj, hfirst j hj, humem j hj, hne, hne, hne⟩

/-- A step that leaves the pipe and everybody's bytes alone. -/
theorem PipeGuar.of_same (hpipe : t.pipe = s.pipe) (hacc : t.accepted = s.accepted)
    (hcon : t.consumed = s.consumed) (hput : t.put = s.put) (hgot : t.got = s.got)
    (humem : t.umem = s.umem) (hrets : t.rets = s.rets) (hfirst : ∀ j, j ≠ i → t.first j = s.first j)
    (hlock : ∀ j, j ≠ i → s.lock = some j → t.lock = some j) : PipeGuar i s t := by
  refine ⟨fun h => ⟨?_, ?_, ?_⟩, fun j hj => ?_⟩
  · rw [hacc, hcon, hpipe]
    exact h.stream
  · rw [hpipe]
    exact h.bound
  · rw [hrets, hcon]
    exact h.rets
  · exact ⟨by rw [hput], by rw [hgot], hfirst j hj, by rw [humem], hlock j hj, fun _ => hpipe,
      fun _ => hcon⟩

theorem PipeGuar.refl (i : ι) (s : PipeSys ι) : PipeGuar i s s :=
  .of_same rfl rfl rfl rfl rfl rfl rfl (fun _ _ => rfl) fun _ _ => id

theorem PipeGuar.wakeup (i : ι) (s : PipeSys ι) (ch : PipeChan) : PipeGuar i s (s.wakeup ch) :=
  .of_same rfl rfl rfl rfl rfl rfl rfl (fun _ _ => rfl) fun _ _ => id

theorem PipeGuar.release (hl : s.lock = some i) : PipeGuar i s { s with lock := none } :=
  .of_lock hl (fun h => ⟨h.stream, h.bound, h.rets⟩) (fun _ _ => rfl) (fun _ _ => rfl)
    (fun _ _ => rfl) fun _ _ => rfl

theorem PipeGuar.leave (hl : s.lock = some i) {call : PipeCall ι}
    (hr : PipeRet.Ok s.consumed ⟨call, r, s.put i, s.got i, s.first i, s.umem i, s.pipe⟩) :
    PipeGuar i s (s.leave i call r) := by
  refine .of_lock hl (fun h => ⟨h.stream, h.bound, fun x hx => ?_⟩) (fun _ _ => rfl) (fun _ _ => rfl)
    (fun _ _ => rfl) fun _ _ => rfl
  rcases List.mem_cons.mp hx with rfl | hx
  · exact hr
  · exact h.rets x hx

abbrev pipeWp (i : ι) {α : Type} (m : PipeM ι α) (Q : α → PipeSys ι → Prop) (s : PipeSys ι) : Prop :=
  wp (fun s t => PipeRely i s t ∧ t.freed = false) (PipeGuar i) m Q (fun _ _ => True) s

theorem pipeWakeup_spec {J : PipeSys ι → Prop} (hst : ∀ s t, PipeRely i s t → J s → J t)
    (hJ : ∀ s, J s → J (s.wakeup ch)) (h : J s) : pipeWp i (pipeWakeup ch) (fun _ => J) s :=
  wp_update fun t hR => ⟨.wakeup i t ch, hJ t (hst s t hR.1 h)⟩

variable [DecidableEq ι]

theorem PipeGuar.acquire (h : s.lock = none) : PipeGuar i s (s.acquire i) := by
  refine .of_same rfl rfl rfl rfl rfl rfl rfl (fun j hj => ?_) fun j _ hl => ?_
  · exact update_of_ne hj _ _
  · rw [h] at hl
    cases hl

theorem PipeGuar.enter (h : s.lock = none) : PipeGuar i s (s.enter i) := by
  refine ⟨fun hT => ⟨hT.stream, hT.bound, hT.rets⟩, fun j hj => ?_⟩
  have hne : ∀ {P : Prop}, s.lock = some j → P := by
    intro P hl
    rw [h] at hl
    cases hl
  exact ⟨update_of_ne hj _ _, update_of_ne hj _ _, update_of_ne hj _ _,
    rfl, hne, hne, hne⟩

theorem PipeGuar.fallAsleep (hl : s.lock = some i) (ch : PipeChan) : PipeGuar i s (s.fallAsleep i ch) :=
  .of_lock hl (fun h => ⟨h.stream, h.bound, h.rets⟩) (fun _ _ => rfl) (fun _ _ => rfl)
    (fun _ _ => rfl) fun _ _ => rfl

/-- A byte goes into a ring that is not full. -/
theorem PipeGuar.accept (hl : s.lock = some i) (hf : s.pipe.full = false) (ch : UChar) :
    PipeGuar i s (s.accept i ch) := by
  refine .of_lock hl (fun h => ?_) (fun j hj => update_of_ne hj _ _) (fun _ _ => rfl)
    (fun _ _ => rfl) fun _ _ => rfl
  have hlt := Pipe.not_full hf h.bound
  refine ⟨?_, ?_, h.rets⟩
  · change s.accepted ++ [ch] = s.consumed ++ (s.pipe.push ch).contents pipesize
    rw [Pipe.contents_push ch hlt, h.stream, List.append_assoc]
  · change (s.pipe.push ch).count ≤ pipesize
    rw [Pipe.count_push ch hlt]
    omega

theorem PipeGuar.copyout (hl : s.lock = some i) (k : Nat) (ch : UChar) : PipeGuar i s (s.copyout i k ch) :=
  .of_lock hl (fun h => ⟨h.stream, h.bound, h.rets⟩) (fun _ _ => rfl) (fun _ _ => rfl)
    (fun _ _ => rfl) fun _ hj => update_of_ne hj _ _

/-- The first byte comes out of a ring that is not empty. -/
theorem PipeGuar.consume (hl : s.lock = some i) (he : s.pipe.empty = false) :
    PipeGuar i s (s.consume i s.pipe.front) := by
  refine .of_lock hl (fun h => ?_) (fun _ _ => rfl) (fun j hj => update_of_ne hj _ _)
    (fun _ _ => rfl) fun _ _ => rfl
  refine ⟨?_, ?_, fun r hr => (h.rets r hr).mono _⟩
  · change s.accepted = (s.consumed ++ [s.pipe.front]) ++ s.pipe.drop.contents pipesize
    rw [h.stream, Pipe.contents_drop he, List.append_assoc]
    rfl
  · change s.pipe.drop.count ≤ pipesize
    have := Pipe.count_drop he
    have := h.bound
    omega

/-! ## Calls -/

theorem pipeEnter_spec (s : PipeSys ι) : pipeWp i (pipeEnter i) (fun _ => PipeHeld i [] []) s := by
  refine wp_await fun t _ hen => ⟨.enter (Option.isNone_iff_eq_none.mp hen), ?_⟩
  exact ⟨rfl, update_self _ _ _, update_self _ _ _, update_self _ _ _⟩

theorem pipeSleep_spec (h : s.lock = some i) :
    pipeWp i (pipeSleep i ch) (fun _ => PipeHeld i (s.put i) (s.got i)) s := by
  refine wp_seq (M := fun _ t => t.put i = s.put i ∧ t.got i = s.got i)
    (wp_update fun t hR => ⟨.fallAsleep (hR.1.lock h) ch, hR.1.put, hR.1.got⟩) fun _ t ht => ?_
  refine wp_seq (M := fun _ u => u.put i = s.put i ∧ u.got i = s.got i)
    (wp_await fun u hR _ => ⟨.refl i u, hR.1.put.trans ht.1, hR.1.got.trans ht.2⟩) fun _ t ht => ?_
  refine wp_await fun u hR hen => ⟨.acquire (Option.isNone_iff_eq_none.mp hen), ?_⟩
  exact ⟨rfl, hR.1.put.trans ht.1, hR.1.got.trans ht.2, update_self _ _ _⟩

/-! ### pipewrite -/

theorem PipeWrites.accept {ch : UChar} (h : PipeWrites i src k s)
    (hsrc : src k = some ch) : PipeWrites i src (k + 1) (s.accept i ch) := by
  refine ⟨h.lock, ?_⟩
  change ((update s.put i (s.put i ++ [ch])) i).map some = _
  rw [update_self, List.map_append, h.put, List.range_succ, List.map_append]
  simp [hsrc]

theorem pipewriteRound_spec (h : PipeWrites i src k s) :
    pipeWp i (pipewriteRound i src n k)
      (fun r t => r.elim (PipeWrites i src · t) (PipeWrote i src · t)) s := by
  have wake : ∀ {t}, PipeWrites i src k t →
      pipeWp i (pipeWakeup .nread) (fun _ => PipeWrites i src k) t :=
    fun ht => pipeWakeup_spec PipeWrites.stable (fun _ h => ⟨h.lock, h.put⟩) ht
  unfold pipewriteRound
  split
  · refine wp_seq (M := fun _ => PipeWrites i src k)
      (wp_read fun t hR => ⟨.refl i t, h.stable _ _ hR.1⟩) fun gone t h => ?_
    split
    · exact ⟨h.lock, fun hr => by omega⟩
    · refine wp_seq (M := fun full t => PipeWrites i src k t ∧ t.pipe.full = full)
        (wp_read fun t hR => ⟨.refl i t, h.stable _ _ hR.1, rfl⟩) fun full t h => ?_
      obtain ⟨h, hfull⟩ := h
      split
      · refine wp_seq (wake h) fun _ t h => ?_
        refine wp_seq (pipeSleep_spec h.lock) fun _ u hu => ?_
        exact ⟨hu.lock, by rw [hu.put]; exact h.put⟩
      next hnot =>
        -- the ring is still not full when the byte is put into it
        have hfull : t.pipe.full = false := by
          rw [hfull]
          exact Bool.eq_false_iff.mpr hnot
        cases hsrc : src k with
        | none => exact wp_seq (wake h) fun _ t h => h.wrote
        | some ch =>
          refine wp_seq (M := fun _ => PipeWrites i src (k + 1)) (wp_update fun u hR => ?_) fun _ t h => h
          have hu := h.stable _ _ hR.1
          refine ⟨.accept hu.lock ?_ ch, hu.accept hsrc⟩
          rw [hR.1.pipe h.lock]
          exact hfull
  · exact wp_seq (wake h) fun _ t h => h.wrote

theorem pipewrite_spec (src : Nat → Option UChar) (n : Int) (fuel : Nat) :
    pipeWp i (pipewrite i src n fuel) (fun _ _ => True) s := by
  refine wp_seq (pipeEnter_spec s) fun _ s h => ?_
  refine wp_seq (M := PipeWrote i src)
    (wp_rounds (fun k s h => pipewriteRound_spec h) fuel ⟨h.lock, by rw [h.put]; rfl⟩) fun r s h => ?_
  refine wp_seq (M := fun _ _ => True) (wp_update fun t hR => ⟨.leave (hR.1.lock h.1) ?_, trivial⟩)
    fun _ _ _ => trivial
  intro hr
  dsimp only
  rw [hR.1.put]
  exact h.2 hr

/-! ### piperead -/

/-- The byte is in the user's buffer before it is taken out. -/
theorem PipeReads.copyout {ch : UChar} (h : PipeReads i k s) :
    PipeReads i k (s.copyout i k ch) ∧ (s.copyout i k ch).umem i k = ch := by
  have hsame : ∀ j, (s.copyout i k ch).umem i j = if j = k then ch else s.umem i j := by
    intro j
    change update s.umem i (update (s.umem i) k ch) i j = _
    rw [update_self, update_apply]
  refine ⟨⟨h.lock, h.length, h.stream, fun j hj => ?_⟩, by rw [hsame, if_pos rfl]⟩
  rw [hsame, if_neg (by omega)]
  exact h.dst j hj

theorem PipeReads.consume {ch : UChar} (h : PipeReads i k s) (hch : s.umem i k = ch) :
    PipeReads i (k + 1) (s.consume i ch) := by
  have hgot : (s.consume i ch).got i = s.got i ++ [ch] := update_self _ _ _
  obtain ⟨before, hb, hs⟩ := h.stream
  refine ⟨h.lock, ?_, ⟨before, hb, ?_⟩, fun j hj => ?_⟩
  · rw [hgot, List.length_append, h.length]
    rfl
  · rw [hgot]
    change s.consumed ++ [ch] = _
    rw [hs, List.append_assoc]
  · rw [hgot]
    by_cases e : j = k
    · rw [e, List.getElem?_append_right (by rw [h.length]), h.length, Nat.sub_self]
      exact congrArg some hch.symm
    · rw [List.getElem?_append_left (by rw [h.length]; omega)]
      exact h.dst j (by omega)

/-- The loop that waits ends with a byte in the ring, or with the write end closed. -/
theorem pipereadRound_spec (h : PipeHeld i [] [] s) :
    pipeWp i (pipereadRound i ()) (fun r t => r.elim (fun _ => PipeHeld i [] [] t) fun go =>
      PipeReads i 0 t ∧ (go = true → t.pipe.empty = true → t.pipe.writeopen = false)) s := by
  refine wp_seq (M := fun wait t => PipeReads i 0 t ∧ t.put i = [] ∧
      (t.pipe.empty && t.pipe.writeopen) = wait)
    (wp_read fun t hR => ⟨.refl i t, h.reads.stable _ _ hR.1, hR.1.put.trans h.put, rfl⟩) fun wait t h => ?_
  obtain ⟨h, hput, hwait⟩ := h
  split
  · refine wp_seq (M := fun _ t => PipeReads i 0 t ∧ t.put i = [])
      (wp_read fun u hR => ⟨.refl i u, h.stable _ _ hR.1, hR.1.put.trans hput⟩) fun dead t h => ?_
    split
    · exact ⟨h.1, fun hn => nomatch hn⟩
    · refine wp_seq (pipeSleep_spec h.1.lock) fun _ u hu => ?_
      rw [h.2, List.length_eq_zero_iff.mp h.1.length] at hu
      exact hu
  next hnot =>
    refine ⟨h, fun _ he => ?_⟩
    rw [← hwait, he, Bool.true_and] at hnot
    exact Bool.eq_false_iff.mpr hnot

theorem pipereadLoop_spec (m k : Nat) (hn : (k : Int) + m = max n 0)
    (h : PipeReads i k s) (hend : k = 0 → s.pipe.empty = true → s.pipe.writeopen = false) :
    pipeWp i (pipereadLoop i ok m k) (PipeRead i n) s := by
  induction m generalizing k s with
  | zero =>
    refine ⟨h.lock, fun _ => by simpa using h, fun hpos hk => ?_⟩
    omega
  | succ m ih =>
    refine wp_seq (M := fun e t => PipeReads i k t ∧ t.pipe.empty = e ∧
        (k = 0 → t.pipe.empty = true → t.pipe.writeopen = false))
      (wp_read fun t hR => ⟨.refl i t, h.stable _ _ hR.1, rfl, by rw [hR.1.pipe h.lock]; exact hend⟩)
      fun e t h => ?_
    obtain ⟨h, he, hend⟩ := h
    split
    next htrue =>
      rw [htrue] at he
      refine ⟨h.lock, fun _ => by simpa using h, fun _ hk => ⟨he, hend (by omega) he⟩⟩
    next hfalse =>
      have he : t.pipe.empty = false := he.trans (Bool.eq_false_iff.mpr hfalse)
      refine wp_seq (M := fun ch t => PipeReads i k t ∧ t.pipe.empty = false ∧ t.pipe.front = ch)
        (wp_read fun u hR => ⟨.refl i u, h.stable _ _ hR.1, by rw [hR.1.pipe h.lock]; exact he, rfl⟩)
        fun ch t h => ?_
      obtain ⟨h, he, hch⟩ := h
      split
      · refine wp_seq (M := fun _ t => PipeReads i k t ∧ t.pipe.empty = false ∧ t.pipe.front = ch ∧
            t.umem i k = ch) (wp_update fun u hR => ?_) fun _ t h => ?_
        · have hu := h.stable _ _ hR.1
          have hpipe := hR.1.pipe h.lock
          exact ⟨.copyout hu.lock k ch, hu.copyout.1, by rw [← he, ← hpipe]; rfl,
            by rw [← hch, ← hpipe]; rfl, hu.copyout.2⟩
        obtain ⟨h, he, hch, hmem⟩ := h
        refine wp_seq (M := fun _ => PipeReads i (k + 1)) (wp_update fun u hR => ?_) fun _ t h =>
          ih (k + 1) (by push_cast at hn ⊢; omega) h fun h0 => by omega
        have hu := h.stable _ _ hR.1
        have hpipe := hR.1.pipe h.lock
        rw [← hpipe] at he hch
        refine ⟨?_, hu.consume (by rw [hR.1.umem]; exact hmem)⟩
        rw [← hch]
        exact .consume hu.lock he
      · refine ⟨h.lock, fun hr => ?_, fun _ hr => ?_⟩
        · split at hr
          · omega
          next hk => simpa [hk] using h
        · split at hr <;> omega

theorem pipereadCopy_spec {go : Bool} (h : PipeReads i 0 s)
    (hend : go = true → s.pipe.empty = true → s.pipe.writeopen = false) :
    pipeWp i (pipereadCopy i ok n go) (PipeRead i n) s := by
  unfold pipereadCopy
  split
  next hgo =>
    refine wp_seq (pipereadLoop_spec (n := n) n.toNat 0 (by omega) h fun _ => hend hgo) fun r s h => ?_
    refine wp_seq (pipeWakeup_spec PipeRead.stable (fun s h => ?_) h) fun _ t h => h
    exact ⟨h.1, fun hr => (h.2.1 hr).wakeup s, h.2.2⟩
  · exact ⟨h.lock, fun hr => by omega, fun _ hr => by omega⟩

theorem piperead_spec (ok : Nat → Bool) (n : Int) (fuel : Nat) :
    pipeWp i (piperead i ok n fuel) (fun _ _ => True) s := by
  refine wp_seq (pipeEnter_spec s) fun _ s h => ?_
  refine wp_seq (M := fun go t => PipeReads i 0 t ∧
      (go = true → t.pipe.empty = true → t.pipe.writeopen = false))
    (wp_rounds (J := fun _ => PipeHeld i [] []) (fun _ s h => pipereadRound_spec h) fuel h) fun go s h => ?_
  refine wp_seq (pipereadCopy_spec h.1 h.2) fun r s h => ?_
  refine wp_seq (M := fun _ _ => True) (wp_update fun t hR => ⟨.leave (hR.1.lock h.1) ?_, trivial⟩)
    fun _ _ _ => trivial
  have h := h.stable _ _ hR.1
  refine ⟨fun hr => ?_, h.2.2⟩
  obtain ⟨_, hlen, ⟨before, hb, hs⟩, hdst⟩ := h.2.1 hr
  refine ⟨?_, ⟨before, [], hb, by rw [hs, List.append_nil]⟩, fun k hk => hdst k ?_⟩
  · change ((t.got i).length : Int) = r
    rw [hlen]
    exact Int.toNat_of_nonneg hr
  · rw [← hlen]
    exact hk

/-! ### pipeclose -/

theorem pipeclose_spec (writable : Bool) : pipeWp i (pipeclose i writable) (fun _ _ => True) s := by
  have wake : ∀ {ch : PipeChan} {t : PipeSys ι}, t.lock = some i →
      pipeWp i (pipeWakeup ch) (fun _ u => u.lock = some i) t :=
    fun ht => pipeWakeup_spec (J := fun u => u.lock = some i) (fun _ _ hR h => hR.lock h)
      (fun _ h => h) ht
  have close : ∀ {f : Pipe → Pipe} {t : PipeSys ι}, (∀ x, (f x).toRing = x.toRing) →
      t.lock = some i → PipeGuar i t { t with pipe := f t.pipe } := by
    intro f t hf hl
    refine .of_lock hl (fun h => ⟨?_, ?_, h.rets⟩) (fun _ _ => rfl) (fun _ _ => rfl)
      (fun _ _ => rfl) fun _ _ => rfl
    · change t.accepted = t.consumed ++ (f t.pipe).contents pipesize
      rw [hf]
      exact h.stream
    · change (f t.pipe).count ≤ pipesize
      rw [hf]
      exact h.bound
  refine wp_seq (pipeEnter_spec s) fun _ s h => ?_
  refine wp_seq (M := fun _ (t : PipeSys ι) => t.lock = some i) ?_ fun _ s h => ?_
  · unfold pipeShut
    split
    · refine wp_seq (M := fun _ (t : PipeSys ι) => t.lock = some i) (wp_update fun t hR => ?_) fun _ t ht => wake ht
      exact ⟨close (f := fun x => { x with writeopen := false }) (fun _ => rfl) (hR.1.lock h.lock),
        hR.1.lock h.lock⟩
    · refine wp_seq (M := fun _ (t : PipeSys ι) => t.lock = some i) (wp_update fun t hR => ?_) fun _ t ht => wake ht
      exact ⟨close (f := fun x => { x with readopen := false }) (fun _ => rfl) (hR.1.lock h.lock),
        hR.1.lock h.lock⟩
  · refine wp_seq (M := fun _ (t : PipeSys ι) => t.lock = some i)
      (wp_read fun t hR => ⟨.refl i t, hR.1.lock h⟩) fun both t h => ?_
    split
    · refine wp_seq (M := fun _ _ => True)
        (wp_update fun t hR => ⟨.release (hR.1.lock h), trivial⟩) fun _ t _ => ?_
      refine wp_update fun t _ => ⟨?_, trivial⟩
      exact .of_same rfl rfl rfl rfl rfl rfl rfl (fun _ _ => rfl) fun _ _ => id
    · exact wp_update fun t hR => ⟨.release (hR.1.lock h), trivial⟩

/-! ## Runs -/

def pipeJudged : Machine.Judged (pipeSystem ι) PipeAlive where
  R := PipeRely
  G := PipeGuar
  I _ _ := True
  Tot := PipeSys.Lossless
  C s := s.freed = false
  bad _ := False
  refl := PipeRely.refl
  trans h h' := h.trans h'
  stable _ _ := trivial
  call := by
    intro i k s _ _ _ _
    have weak : ∀ {m : PipeM ι Int}, pipeWp i m (fun _ _ => True) s →
        wp (fun s t => PipeRely i s t ∧ t.freed = false) (PipeGuar i) m (fun _ _ => True)
          (fun e _ => ¬ False ∧ (Fatal.fatal e = false → True)) s :=
      fun h => wp_mono (fun _ _ => id) (fun _ _ _ => ⟨id, fun _ => trivial⟩) h
    cases k with
    | write src n fuel => exact weak (pipewrite_spec src n fuel)
    | read ok n fuel => exact weak (piperead_spec ok n fuel)
    | close writable => exact weak (wp_seq (pipeclose_spec writable) fun _ _ _ => trivial)
    | kill j =>
      refine weak (wp_seq (M := fun _ _ => True) (wp_update fun t _ => ⟨?_, trivial⟩) fun _ _ _ => trivial)
      exact .of_same rfl rfl rfl rfl rfl rfl rfl (fun _ _ => rfl) fun _ _ => id
  act h _ := h
  user h := h.elim
  step hT hG := ⟨hG.1 hT, hG.2⟩

/-- **Pipes are lossless.** In every run of any number of readers, writers and closers on a
pipe: what was taken out is the beginning of what was put in, the rest is in the ring, in
order, at most `pipesize` bytes, and every call that has returned a count has put or taken
that many bytes of its own, in one piece and in order; it has read none only at the end. -/
theorem pipe_lossless {data : Nat → UChar} {umem : ι → Nat → UChar} {c : Pool ι (PipeSys ι) Err Int}
    (hr : (pipeSystem ι).Run PipeAlive ⟨pipealloc data umem, fun _ => none⟩ c) :
    c.state.consumed <+: c.state.accepted ∧
    c.state.accepted = c.state.consumed ++ c.state.pipe.contents pipesize ∧
    (c.state.pipe.contents pipesize).length ≤ pipesize ∧
    ∀ r ∈ c.state.rets, r.Ok c.state.consumed := by
  have h₀ : (pipealloc data umem).Lossless :=
    ⟨by simp [pipealloc, Ring.contents, Ring.count], by simp [pipealloc, Ring.count],
      fun r hr => (List.not_mem_nil hr).elim⟩
  have hidle : ∀ i, (⟨pipealloc data umem, fun _ => none⟩ : Pool ι (PipeSys ι) Err Int).run i = none :=
    fun _ => rfl
  obtain ⟨hstream, hbound, hrets⟩ := (pipeJudged.sound hidle (fun _ => trivial) h₀ hr).1
  refine ⟨?_, hstream, by rwa [Ring.contents_length], hrets⟩
  rw [hstream]
  exact List.prefix_append _ _

/-- Thread 0 writes three bytes, of which thread 1 reads two before its third `copyout` fails. -/
def pipeHello : Option (PipeSys Nat) :=
  (pipeSystem Nat).sequence (fun _ _ _ => true) (fun _ s => !s.freed)
    [(0, .write (fun k => [104, 101, 121][k]?) 3 4), (1, .read (fun k => k != 2) 8 1)]
    (pipealloc (fun _ => 5) fun _ _ => 0)

theorem pipe_lossless_hello : ∃ c, (pipeSystem Nat).Run PipeAlive
      ⟨pipealloc (fun _ => 5) fun _ _ => 0, fun _ => none⟩ c ∧
    c.state.accepted = [104, 101, 121] ∧ c.state.consumed = [104, 101] ∧
    c.state.rets.map (·.result) = [2, 3] ∧ c.state.consumed <+: c.state.accepted := by
  have hsome : pipeHello.isSome = true := by decide +kernel
  obtain ⟨t, ht⟩ := Option.isSome_iff_exists.mp hsome
  have hrun : (pipeSystem Nat).Run PipeAlive
      ⟨pipealloc (fun _ => 5) fun _ _ => 0, fun _ => none⟩ ⟨t, fun _ => none⟩ :=
    Machine.Run.sequence (fun _ _ _ _ => ⟨trivial, trivial⟩)
      (fun _ s _ h => (by simpa using h : s.freed = false)) (fun _ _ _ => trivial) ht
  have hval : pipeHello.map (fun s => (s.accepted, s.consumed, s.rets.map (·.result))) =
      some ([104, 101, 121], [104, 101], [2, 3]) := by decide +kernel
  rw [ht, Option.map_some, Option.some.injEq, Prod.mk.injEq, Prod.mk.injEq] at hval
  exact ⟨_, hrun, hval.1, hval.2.1, hval.2.2, (pipe_lossless hrun).1⟩

end Txv6
