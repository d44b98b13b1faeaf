import Txv6.Crash.Cache
import Txv6.Lib.Alone
import Mathlib.Data.Fintype.Card

/-! # The volume behind the buffer cache

For a process that runs alone and outside of a transaction, the buffer cache, the disk and the
list of logged blocks are one thing: a volume, that is the contents every block has for whoever
reads it, and the blocks that wait for a commit. `Carries` says that a kernel state represents a
volume; the rules below say what `bread`, a store, `log_write` and `brelse` do to it.
-/
namespace Txv6
open Lib Lib.Prog Function Finset
open Kernel (holdingsleep lock setLock)

variable {f : Buf → Buf} {c : BufPtr} {W' : Finset BufPtr} {d q : Page} {k : PageData → PageData} {α : Type}
  {Q : Unit → Kernel → Prop}

/-! ## Blocks as a reader sees them -/

/-- The buffer that has block `n`. -/
def Kernel.holder (s : Kernel) (n : Nat) : Option BufPtr :=
  s.lru.find? fun b => (s.buf b).valid && (s.buf b).dev == rootdev && (s.buf b).blockno == n

/-- What a read of block `n` delivers. -/
def Kernel.blk (s : Kernel) (n : Nat) : Block :=
  match s.holder n with
  | some b => s.bytes b
  | none => s.disk n

section View
variable {s : Kernel} {b : BufPtr} {n : Nat}

theorem holds_of_holder (h : s.holder n = some b) : s.Holds b n := by
  have hb := List.find?_some h
  simp only [Bool.and_eq_true, beq_iff_eq] at hb
  exact ⟨hb.1.1, hb.1.2, hb.2⟩

theorem Kernel.Holds.eq (hb : s.Holds b n) (hs : s.CacheOk) (hc : s.Holds c n) : c = b :=
  hs.unique c b hc.dev hb.dev (hc.blockno.trans hb.blockno.symm)

theorem Kernel.Holds.holder (hb : s.Holds b n) (hs : s.CacheOk) : s.holder n = some b := by
  cases hf : s.holder n with
  | some c => rw [hb.eq hs (holds_of_holder hf)]
  | none =>
    have := List.find?_eq_none.mp hf b (hs.listed b)
    simp [hb.valid, hb.dev, hb.blockno] at this

theorem Kernel.Holds.blk (hb : s.Holds b n) (hs : s.CacheOk) : s.blk n = s.bytes b := by
  unfold Kernel.blk
  rw [hb.holder hs]

theorem blk_of_none (hn : ∀ b, ¬ s.Holds b n) : s.blk n = s.disk n := by
  unfold Kernel.blk
  cases hf : s.holder n with
  | some c => exact absurd (holds_of_holder hf) (hn c)
  | none => rfl

/-- The contents of a block, from what its buffer and from what the disk has. -/
theorem blk_eq {x : Block} (hs : s.CacheOk) (hb : ∀ b, s.Holds b n → s.bytes b = x)
    (hd : (∀ b, ¬ s.Holds b n) → s.disk n = x) : s.blk n = x := by
  by_cases hex : ∃ b, s.Holds b n
  · obtain ⟨b, h⟩ := hex
    rw [h.blk hs]
    exact hb b h
  · have hn : ∀ b, ¬ s.Holds b n := fun b h => hex ⟨b, h⟩
    rw [blk_of_none hn]
    exact hd hn

end View

/-! ## Volumes -/

/-- The contents of the blocks, and the blocks of the open group of operations. -/
@[ext] structure Vol where
  blk : Nat → Block
  lh : List Nat

namespace Vol

/-- New contents for a block. -/
def set (v : Vol) (n : Nat) (x : Block) : Vol := { v with blk := Function.update v.blk n x }

/-- `log_write`, with log absorption. -/
def log (v : Vol) (n : Nat) : Vol := if n ∈ v.lh then v else { v with lh := v.lh ++ [n] }

/-- A logged store. -/
def put (v : Vol) (n : Nat) (x : Block) : Vol := (v.set n x).log n

variable {v : Vol} {n m : Nat} {x : Block}

@[simp] theorem log_blk : (v.log n).blk = v.blk := by
  unfold log
  split <;> rfl

@[simp] theorem put_blk : (v.put n x).blk = update v.blk n x := by
  unfold put
  rw [log_blk]
  rfl

theorem log_lh : (v.log n).lh = if n ∈ v.lh then v.lh else v.lh ++ [n] := by
  unfold log
  split <;> rfl

@[simp] theorem put_lh : (v.put n x).lh = if n ∈ v.lh then v.lh else v.lh ++ [n] := log_lh

@[simp] theorem mem_log : m ∈ (v.log n).lh ↔ m ∈ v.lh ∨ m = n := by
  rw [log_lh]
  split
  next h =>
    constructor
    · exact .inl
    · rintro (hm | rfl)
      · exact hm
      · exact h
  next => simp

theorem mem_put : m ∈ (v.put n x).lh ↔ m ∈ v.lh ∨ m = n := mem_log

theorem log_nodup (h : v.lh.Nodup) : (v.log n).lh.Nodup := by
  rw [log_lh]
  split
  · exact h
  next hn => exact List.nodup_append.mpr ⟨h, List.nodup_singleton n, fun a ha b hb e =>
      hn ((List.mem_singleton.mp hb) ▸ e ▸ ha)⟩

theorem put_length : v.lh.length ≤ (v.put n x).lh.length := by
  rw [put_lh]
  split <;> simp

theorem put_length_le : (v.put n x).lh.length ≤ v.lh.length + 1 := by
  rw [put_lh]
  split <;> simp

end Vol

/-! ## What does not belong to the cache -/

/-- The page of no buffer. -/
def Kernel.Apart (s : Kernel) (q : Page) : Prop := ∀ b, (s.buf b).data ≠ q

/-- Nothing has changed but the cache, the disk and the list of logged blocks; the buffers `D`
have kept their blocks. -/
structure Still (D : Finset BufPtr) (s t : Kernel) : Prop where
  rest : t = { s with
    disk := t.disk, buf := t.buf, lru := t.lru, heap := t.heap, log := { s.log with lh := t.log.lh } }
  page : ∀ b, (t.buf b).data = (s.buf b).data
  heap : ∀ q, s.Apart q → t.heap q = s.heap q
  held : ∀ b ∈ D, (t.buf b).blockno = (s.buf b).blockno

namespace Still
variable {D D' : Finset BufPtr} {s t u : Kernel}

theorem refl (D : Finset BufPtr) (s : Kernel) : Still D s s :=
  ⟨rfl, fun _ => rfl, fun _ _ => rfl, fun _ _ => rfl⟩

section
variable (h : Still D s t)
include h

theorem apart (hq : s.Apart q) : t.Apart q := by
  intro b
  rw [h.page b]
  exact hq b

theorem trans (h' : Still D t u) : Still D s u where
  rest := by
    have hu := h'.rest
    rw [h.rest] at hu
    exact hu
  page b := (h'.page b).trans (h.page b)
  heap q hq := (h'.heap q (h.apart hq)).trans (h.heap q hq)
  held b hb := (h'.held b hb).trans (h.held b hb)

theorem mono (hD : D' ⊆ D) : Still D' s t :=
  ⟨h.rest, h.page, h.heap, fun b hb => h.held b (hD hb)⟩

theorem sb : t.sb = s.sb := (congrArg Kernel.sb h.rest :)
theorem inode : t.inode = s.inode := (congrArg Kernel.inode h.rest :)
theorem file : t.file = s.file := (congrArg Kernel.file h.rest :)
theorem proc : t.proc = s.proc := (congrArg Kernel.proc h.rest :)
theorem freelist : t.freelist = s.freelist := (congrArg Kernel.freelist h.rest :)
theorem outstanding : t.log.outstanding = s.log.outstanding :=
  (congrArg (fun x : Kernel => x.log.outstanding) h.rest :)
theorem committing : t.log.committing = s.log.committing :=
  (congrArg (fun x : Kernel => x.log.committing) h.rest :)
end

theorem setBuf {b : BufPtr} (hf : (f (s.buf b)).data = (s.buf b).data)
    (hb : b ∈ D → (f (s.buf b)).blockno = (s.buf b).blockno) : Still D s (s.setBuf b f) where
  rest := rfl
  page c := by
    by_cases e : c = b
    · subst e
      rw [setBuf_self]
      exact hf
    · rw [setBuf_of_ne e]
  heap _ _ := rfl
  held c hc := by
    by_cases e : c = b
    · subst e
      rw [setBuf_self]
      exact hb hc
    · rw [setBuf_of_ne e]

theorem setBytes {b : BufPtr} {f : Block → Block} : Still D s (s.setBytes b f) where
  rest := rfl
  page _ := rfl
  heap q hq := by simp [Kernel.setBytes, Kernel.setPage, (hq b).symm]
  held _ _ := rfl

/-- The same change on both sides, of something that is not in the cache. -/
theorem setPage {f : PageData → PageData} (h : Still D s t) (hq : s.Apart q) :
    Still D (s.setPage q f) (t.setPage q f) where
  rest := by
    have := h.rest
    generalize t.disk = d, t.buf = b, t.lru = l, t.log.lh = lh, hheap : t.heap = hp at *
    subst this
    rfl
  page := h.page
  heap r hr := by
    by_cases e : r = q
    · subst e
      simp [Kernel.setPage, h.heap r hq]
    · simp only [Kernel.setPage, update_of_ne e]
      exact h.heap r hr
  held := h.held

end Still

/-! ## States that represent a volume -/

/-- A buffer that `bget` recycles after another one. -/
def Kernel.Recent (s : Kernel) (b : BufPtr) : Prop :=
  s.lru.head? = some b ∧ ∃ c, c ≠ b ∧ (s.buf c).refcnt = 0

/-- Process `p` runs alone, outside of a transaction, with the buffers `D` in hand, and reads
the volume `v`. The buffers of `v.lh` are pinned. A buffer outside of `W` has nothing that is
neither logged nor on the disk. -/
structure Cached (p : ProcPtr) (D W : Finset BufPtr) (v : Vol) (s : Kernel) : Prop where
  cache : s.CacheOk
  order : s.lru.Nodup
  inactive : s.txActive p = false
  blk : ∀ n, s.blk n = v.blk n
  refs : ∀ b, (s.buf b).refcnt = (if b ∈ D then 1 else 0) +
    (if (s.buf b).dev = rootdev ∧ (s.buf b).blockno ∈ v.lh then 1 else 0)
  free : ∀ b ∉ D, (s.buf b).lock.locked = false
  mine : ∀ b ∈ D, s.holdingsleep p (.buf b) = true
  held : ∀ b ∈ D, s.Holds b (s.buf b).blockno
  clean : ∀ b ∉ W, ∀ n, s.Holds b n → n ∉ v.lh → s.bytes b = s.disk n
  logged : ∀ n ∈ v.lh, ∃ b, s.Holds b n
  distinct : v.lh.Nodup

/-- The state represents the volume, and `v.lh` is what the next commit writes. -/
structure Carries (p : ProcPtr) (D W : Finset BufPtr) (v : Vol) (s : Kernel) : Prop extends
    Cached p D W v s where
  log : s.log.lh = v.lh

/-! ## Single steps -/

theorem ends_atomOrPanic {f : Kernel → Except String α × Kernel} {Q : α → Kernel → Prop}
    {E : Err → Kernel → Prop} {s t : Kernel} {a : α} (h : f s = (.ok a, t)) :
    ends (atomOrPanic f) Q E s ↔ Q a t := by
  unfold atomOrPanic
  simp only [ends, h, true_and]

theorem ends_atomOrPanic_error {f : Kernel → Except String α × Kernel} {Q : α → Kernel → Prop}
    {E : Err → Kernel → Prop} {s t : Kernel} {m : String} (h : f s = (.error m, t)) :
    ends (atomOrPanic f) Q E s ↔ E (.panic m) t := by
  unfold atomOrPanic
  simp only [ends, h, true_and]
  exact Iff.rfl

theorem setBytes_bytes (s : Kernel) (b : BufPtr) : (s.setBytes b fun _ => s.bytes b) = s := by
  unfold Kernel.setBytes Kernel.setPage Kernel.bytes
  rw [update_eq_self]

theorem setBuf_setBytes {s : Kernel} {b : BufPtr} {k : Block → Block}
    (h : (f (s.buf b)).data = (s.buf b).data) :
    (s.setBuf b f).setBytes b k = (s.setBytes b k).setBuf b f := by
  simp [Kernel.setBytes, Kernel.setPage, Kernel.setBuf, h]

/-- The buffer that `bget` recycles is the last one without references. -/
theorem bget_last {s : Kernel} {dev n : Nat} {b : BufPtr} (h : (s.bget dev n).1 = some b)
    (hno : ∀ y ∈ s.lru, (s.buf y).dev = dev → (s.buf y).blockno ≠ n) :
    s.lru.reverse.find? (fun c => (s.buf c).refcnt == 0) = some b := by
  unfold Kernel.bget at h
  split at h
  next c hc =>
    have hkey := List.find?_some hc
    simp only [Bool.and_eq_true, beq_iff_eq] at hkey
    exact absurd hkey.2 (hno c (List.mem_of_find?_eq_some hc) hkey.1)
  next =>
    split at h
    next c hc => rw [hc]; exact h
    next => cases h

theorem Kernel.Recent.ne {s : Kernel} {b : BufPtr} (h : s.Recent b) (hl : s.lru.Nodup)
    (hall : ∀ x, x ∈ s.lru) (hc : s.lru.reverse.find? (fun c => (s.buf c).refcnt == 0) = some c) : c ≠ b := by
  obtain ⟨hhead, x, hx, hr⟩ := h
  cases he : s.lru with
  | nil => rw [he] at hhead; cases hhead
  | cons y rest =>
    rw [he] at hhead hl hc
    cases hhead
    have hxr : x ∈ rest.reverse := by
      have := hall x
      rw [he] at this
      exact List.mem_reverse.mpr ((List.mem_cons.mp this).resolve_left hx)
    rw [List.reverse_cons, List.find?_append] at hc
    cases hf : rest.reverse.find? (fun c => (s.buf c).refcnt == 0) with
    | none =>
      have := List.find?_eq_none.mp hf x hxr
      simp [hr] at this
    | some z =>
      rw [hf] at hc
      cases hc
      have hz : c ∈ rest := List.mem_reverse.mp (List.mem_of_find?_eq_some hf)
      exact ne_of_mem_of_not_mem hz (List.nodup_cons.mp hl).1

namespace Cached
variable {p : ProcPtr} {D W : Finset BufPtr} {v : Vol} {s : Kernel} {b : BufPtr} {n : Nat}
  {E : Err → Kernel → Prop}

section
variable (h : Cached p D W v s)
include h

/-- A buffer in hand has what its block has. -/
theorem bytes (hb : b ∈ D) : s.bytes b = v.blk (s.buf b).blockno := by
  rw [← h.blk, (h.held b hb).blk h.cache]

/-- A buffer that `bget` has found or recycled, locked, with the contents of its block. -/
theorem take {g : Buf → Buf} (hb : b ∉ D) (hdata : (g (s.buf b)).data = (s.buf b).data)
    (hvalid : (g (s.buf b)).valid = true) (hdev : (g (s.buf b)).dev = rootdev)
    (hblk : (g (s.buf b)).blockno = n) (hlock : (g (s.buf b)).lock = ⟨true, (s.proc p).pid⟩)
    (hcnt : (g (s.buf b)).refcnt = 1 + if n ∈ v.lh then 1 else 0)
    (hu : ∀ c, c ≠ b → (s.buf c).dev = rootdev → (s.buf c).blockno ≠ n)
    (hold : ∀ m, s.Holds b m → m ≠ n → m ∉ v.lh ∧ s.bytes b = s.disk m)
    (hnew : b ∉ W → n ∉ v.lh → v.blk n = s.disk n) :
    Cached p (insert b D) W v ((s.setBytes b fun _ => v.blk n).setBuf b g) := by
  have hs : (s.setBytes b fun _ => v.blk n).CacheOk := h.cache.setBytes b _
  have hdata' : (g ((s.setBytes b fun _ => v.blk n).buf b)).data =
    ((s.setBytes b fun _ => v.blk n).buf b).data := hdata
  generalize ht : (s.setBytes b fun _ => v.blk n).setBuf b g = t
  have hcache : t.CacheOk := by
    rw [← ht]
    exact hs.setBuf hdata fun c hne _ hc e => hu c hne hc (e.symm.trans hblk)
  have hself : t.buf b = g (s.buf b) := by rw [← ht, setBuf_self]; rfl
  have hother : ∀ c, c ≠ b → t.buf c = s.buf c := fun c e => by rw [← ht, setBuf_of_ne e]; rfl
  have hbself : t.bytes b = v.blk n := by rw [← ht, bytes_setBuf hdata', bytes_setBytes_self]
  have hbother : ∀ c, c ≠ b → t.bytes c = s.bytes c := fun c e => by
    rw [← ht, bytes_setBuf hdata', bytes_setBytes_of_ne h.cache e]
  have hdisk : t.disk = s.disk := by rw [← ht]; rfl
  have hproc : t.proc = s.proc := by rw [← ht]; rfl
  have hholds : t.Holds b n := ⟨hself ▸ hvalid, hself ▸ hdev, hself ▸ hblk⟩
  have hback : ∀ c m, c ≠ b → t.Holds c m → s.Holds c m := fun c m e hc => hc.congr (hother c e).symm
  have hforth : ∀ c m, c ≠ b → s.Holds c m → t.Holds c m := fun c m e hc => hc.congr (hother c e)
  refine ⟨hcache, by rw [← ht]; exact h.order, by rw [← ht]; exact h.inactive, fun m => ?_, fun c => ?_,
    fun c hc => ?_, fun c hc => ?_, fun c hc => ?_, fun c hc m hm hmem => ?_, fun m hm => ?_, h.distinct⟩
  · -- the block that the buffer had before is on the disk
    refine blk_eq hcache (fun c hc => ?_) fun hno => ?_
    · by_cases e : c = b
      · subst e
        rw [hbself, ← hholds.blockno, hc.blockno]
      · rw [hbother c e, ← h.blk, (hback c m e hc).blk h.cache]
    · have hmn : m ≠ n := fun e => hno b (e ▸ hholds)
      rw [hdisk, ← h.blk]
      symm
      refine blk_eq h.cache (fun c hc => ?_) fun _ => rfl
      by_cases e : c = b
      · subst e
        exact (hold m hc hmn).2
      · exact absurd (hforth c m e hc) (hno c)
  · by_cases e : c = b
    · subst e
      rw [hself, hcnt]
      simp [hdev, hblk]
    · rw [hother c e, h.refs c]
      simp [e]
  · rw [mem_insert, not_or] at hc
    rw [hother c hc.1]
    exact h.free c hc.2
  · by_cases e : c = b
    · subst e
      simp [holdingsleep, lock, hself, hlock, hproc]
    · have := h.mine c ((mem_insert.mp hc).resolve_left e)
      simpa [holdingsleep, lock, hother c e, hproc] using this
  · by_cases e : c = b
    · subst e
      rw [hself, hblk]
      exact hholds
    · rw [hother c e]
      exact hforth c _ e (h.held c ((mem_insert.mp hc).resolve_left e))
  · by_cases e : c = b
    · subst e
      have hmn : m = n := hm.blockno.symm.trans hholds.blockno
      rw [hmn] at hmem
      rw [hbself, hdisk, hmn]
      exact hnew hc hmem
    · rw [hbother c e, hdisk]
      exact h.clean c hc m (hback c m e hm) hmem
  · obtain ⟨c, hc⟩ := h.logged m hm
    by_cases e : c = b
    · subst e
      by_cases hmn : m = n
      · rw [hmn]
        exact ⟨c, hholds⟩
      · exact absurd hm (hold m hc hmn).1
    · exact ⟨c, hforth c m e hc⟩

/-- Somewhere there is a buffer without references. -/
theorem exists_free {F : Finset BufPtr} (hF : D ⊆ F)
    (hroom : F.card + v.lh.length < nbuf) : ∃ b, b ∉ F ∧ (s.buf b).refcnt = 0 := by
  by_contra hall
  have hall : ∀ b, b ∉ F → (s.buf b).refcnt ≠ 0 := fun b hbF hb => hall ⟨b, hbF, hb⟩
  let P : Finset BufPtr :=
    Finset.univ.filter fun b => (s.buf b).dev = rootdev ∧ (s.buf b).blockno ∈ v.lh
  have hcover : (Finset.univ : Finset BufPtr) ⊆ F ∪ P := by
    intro b _
    by_contra hb
    rw [mem_union, not_or] at hb
    have hp : ¬ ((s.buf b).dev = rootdev ∧ (s.buf b).blockno ∈ v.lh) := by
      intro hp
      exact hb.2 (mem_filter.mpr ⟨mem_univ b, hp⟩)
    refine hall b hb.1 ?_
    rw [h.refs b, if_neg (fun hbD => hb.1 (hF hbD)), if_neg hp]
    rfl
  -- a logged block is in one buffer
  have hP : P.card ≤ v.lh.toFinset.card := by
    refine card_le_card_of_injOn (fun b => (s.buf b).blockno) (fun b hb => ?_) ?_
    · exact List.mem_toFinset.mpr (mem_filter.mp hb).2.2
    · intro b hb c hc e
      exact h.cache.unique b c (mem_filter.mp hb).2.1 (mem_filter.mp hc).2.1 e
  have hcard := card_le_card hcover
  rw [card_univ, Fintype.card_fin] at hcard
  have hu := card_union_le F P
  have hl := List.toFinset_card_le v.lh
  omega

/-- `bread`: the block comes into hand. -/
theorem bread {Q : BufPtr → Kernel → Prop} (hn : ∀ b ∈ D, (s.buf b).blockno ≠ n)
    (hW : ∀ w ∈ W, w ∈ D ∨ s.Recent w) (hroom : (n ∈ v.lh ∨ D.card + v.lh.length < nbuf) ∨ ∀ e t, E e t)
    (hQ : ∀ b t, b ∉ D → Cached p (insert b D) W v t → Still D s t → t.log = s.log →
      (t.buf b).blockno = n → Q b t) : ends (bread p rootdev n) Q E s := by
  -- both sections of `bget`, and the transfer from the disk where there is one
  have done : ∀ b f, (f (s.buf b)).data = (s.buf b).data → (f (s.buf b)).dev = rootdev →
      (f (s.buf b)).blockno = n → (f (s.buf b)).lock = (s.buf b).lock → b ∉ D →
      (f (s.buf b)).refcnt = 1 + (if n ∈ v.lh then 1 else 0) →
      (∀ c, c ≠ b → (s.buf c).dev = rootdev → (s.buf c).blockno ≠ n) →
      (∀ m, s.Holds b m → m ≠ n → m ∉ v.lh ∧ s.bytes b = s.disk m) →
      ((f (s.buf b)).valid = true → s.Holds b n) → ((f (s.buf b)).valid = false → ∀ c, ¬ s.Holds c n) →
      ends (acquiresleep p (.buf b) >>= fun _ => pure b) (fun b => ends (do
        let valid ← .read fun s => (s.buf b).valid
        Prog.when (!valid) do
          .update fun s => s.diskRead b
          .update fun s => s.setBuf b fun x => { x with valid := true }
        return b) Q E) E (s.setBuf b f) := by
    intro b f hdata hdev hblk hlock hb hcnt hu hold hv hi
    simp only [acquiresleep, ends_bind, ends_await, ends_read, ends_when, ends_update, ends_pure]
    refine ⟨by simp [lock, hlock, h.free b hb], ?_⟩
    rw [setLock, setBuf_setBuf]
    generalize hg : (fun x : Buf => { x with lock := ⟨true, ((s.setBuf b f).proc p).pid⟩ }) ∘ f = g
    have gdata : (g (s.buf b)).data = (s.buf b).data := by rw [← hg]; exact hdata
    have gvalid : (g (s.buf b)).valid = (f (s.buf b)).valid := by rw [← hg]; rfl
    cases hval : (f (s.buf b)).valid with
    | true =>
      have hholds := hv hval
      have hbytes : v.blk n = s.bytes b := by rw [← h.blk, hholds.blk h.cache]
      have ht := h.take (g := g) hb gdata (gvalid.trans hval) (by rw [← hg]; exact hdev)
        (by rw [← hg]; exact hblk) (by rw [← hg]; rfl) (by rw [← hg]; exact hcnt) hu hold
        (fun hbW hmem => by rw [hbytes]; exact h.clean b hbW n hholds hmem)
      rw [hbytes, setBytes_bytes] at ht
      rw [setBuf_self, gvalid, hval]
      exact hQ b _ hb ht (.setBuf gdata fun hm => absurd hm hb) rfl (by rw [setBuf_self, ← hg]; exact hblk)
    | false =>
      have hnone := hi hval
      have hdisk : v.blk n = s.disk n := by rw [← h.blk, blk_of_none hnone]
      rw [setBuf_self, gvalid, hval]
      have hread : (s.setBuf b g).diskRead b = (s.setBytes b fun _ => v.blk n).setBuf b g := by
        rw [diskRead_eq, setBuf_setBytes gdata]
        have hno : ((s.setBuf b g).buf b).blockno = n := by rw [setBuf_self, ← hg]; exact hblk
        rw [hno, hdisk]
        rfl
      have ht := h.take (g := (fun x : Buf => { x with valid := true }) ∘ g) hb gdata rfl
        (by rw [← hg]; exact hdev) (by rw [← hg]; exact hblk) (by rw [← hg]; rfl)
        (by rw [← hg]; exact hcnt) hu hold (fun _ _ => hdisk)
      change Q b (((s.setBuf b g).diskRead b).setBuf b fun x => { x with valid := true })
      rw [hread, setBuf_setBuf]
      refine hQ b _ hb ht (Still.trans .setBytes (.setBuf gdata fun hm => absurd hm hb)) rfl ?_
      rw [setBuf_self, ← hg]
      exact hblk
  have hres := bget_result s rootdev n
  unfold Txv6.bread Txv6.bget
  rw [ends_bind, ends_bind, ends_atom]
  generalize hget : s.bget rootdev n = res at hres
  cases hres with
  | full =>
    rcases hroom with hroom | hE
    · have hsome : (s.bget rootdev n).1 = none := by rw [hget]
      rcases hroom with hmem | hcard
      · obtain ⟨b, hb⟩ := h.logged n hmem
        unfold Kernel.bget at hsome
        split at hsome
        · cases hsome
        next hf =>
          have := List.find?_eq_none.mp hf b (h.cache.listed b)
          simp [hb.dev, hb.blockno] at this
      · obtain ⟨b, _, hb⟩ := h.exists_free subset_rfl hcard
        exact absurd hsome (bget_ne_none (h.cache.listed b) hb _ _)
    · exact hE _ _
  | @found b hlru hd hk =>
    have hb : b ∉ D := fun hb => hn b hb hk
    have hu : ∀ c, c ≠ b → (s.buf c).dev = rootdev → (s.buf c).blockno ≠ n := by
      intro c hne hc e
      exact hne (h.cache.unique c b hc hd (e.trans hk.symm))
    refine done b (fun x => { x with refcnt := x.refcnt + 1 }) rfl hd hk rfl hb ?_ hu (fun m hm hmn => ?_) (fun hv => ⟨hv, hd, hk⟩) fun hv c hc => ?_
    · have := h.refs b
      simp only [hb, if_false, hd, hk, true_and] at this
      dsimp only
      rw [this]
      omega
    · exact absurd (hm.blockno.symm.trans hk) hmn
    · -- nobody else has the block
      by_cases e : c = b
      · subst e
        rw [hc.valid] at hv
        cases hv
      · exact hu c e hc.dev hc.blockno
  | @recycled b hno hlru hr =>
    have hrefs := h.refs b
    rw [hr] at hrefs
    have hb : b ∉ D := by
      intro hb
      rw [if_pos hb] at hrefs
      split at hrefs <;> cases hrefs
    have hpin : ¬ ((s.buf b).dev = rootdev ∧ (s.buf b).blockno ∈ v.lh) := by
      intro hp
      rw [if_pos hp, if_neg hb] at hrefs
      cases hrefs
    have hbW : b ∉ W := by
      intro hbW
      rcases hW b hbW with hD | hrec
      · exact hb hD
      · have hlast := bget_last (b := b) (by rw [hget]) hno
        exact hrec.ne h.order h.cache.listed hlast rfl
    have hnone : ∀ c, ¬ s.Holds c n := fun c hc => hno c (h.cache.listed c) hc.dev hc.blockno
    have hnl : n ∉ v.lh := fun hm => (h.logged n hm).elim fun c hc => hnone c hc
    refine done b (fun x => { x with dev := rootdev, blockno := n, valid := false, refcnt := 1 }) rfl rfl
      rfl rfl hb ?_ (fun c _ hc => hno c (h.cache.listed c) hc) (fun m hm _ => ?_)
      (fun hv => Bool.noConfusion hv) fun _ => hnone
    · rw [if_neg hnl]
      rfl
    · have hml : m ∉ v.lh := fun hmem => hpin ⟨hm.dev, hm.blockno ▸ hmem⟩
      exact ⟨hml, h.clean b hbW m hm hml⟩

theorem mono (hW : W ⊆ W') : Cached p D W' v s :=
  { h with clean := fun b hb => h.clean b fun hm => hb (hW hm) }

/-- The buffers keep their blocks and their bytes, and the disk is as it was. -/
theorem alike {t : Kernel} {v' : Vol} {D' : Finset BufPtr} (hcache : t.CacheOk) (horder : t.lru.Nodup)
    (hin : t.txActive p = false) (hdisk : t.disk = s.disk)
    (hkeep : ∀ c, (t.buf c).valid = (s.buf c).valid ∧ (t.buf c).dev = (s.buf c).dev ∧
      (t.buf c).blockno = (s.buf c).blockno ∧ t.bytes c = s.bytes c)
    (hrefs : ∀ c, (t.buf c).refcnt = (if c ∈ D' then 1 else 0) +
      (if (s.buf c).dev = rootdev ∧ (s.buf c).blockno ∈ v'.lh then 1 else 0))
    (hfree : ∀ c ∉ D', (t.buf c).lock.locked = false) (hmine : ∀ c ∈ D', t.holdingsleep p (.buf c) = true)
    (hD : D' ⊆ D) (hblk : v'.blk = v.blk) (hclean : ∀ c ∉ W', ∀ n, s.Holds c n → n ∉ v'.lh → s.bytes c = s.disk n)
    (hlogged : ∀ n ∈ v'.lh, ∃ c, s.Holds c n) (hdist : v'.lh.Nodup) : Cached p D' W' v' t := by
  have hholds : ∀ c n, s.Holds c n ↔ t.Holds c n := by
    intro c n
    obtain ⟨h1, h2, h3, _⟩ := hkeep c
    constructor
    · exact fun hc => ⟨h1.trans hc.valid, h2.trans hc.dev, h3.trans hc.blockno⟩
    · exact fun hc => ⟨h1.symm.trans hc.valid, h2.symm.trans hc.dev, h3.symm.trans hc.blockno⟩
  refine ⟨hcache, horder, hin, fun n => ?_, fun c => ?_, hfree, hmine, fun c hc => ?_, fun c hc n hcn hm => ?_,
    fun n hm => ?_, hdist⟩
  · rw [hblk, ← h.blk]
    refine blk_eq hcache (fun c hc => ?_) fun hno => ?_
    · rw [(hkeep c).2.2.2, ((hholds c n).mpr hc).blk h.cache]
    · rw [hdisk]
      exact (blk_of_none fun c hc => hno c ((hholds c n).mp hc)).symm
  · rw [hrefs, (hkeep c).2.1, (hkeep c).2.2.1]
  · rw [(hkeep c).2.2.1]
    exact (hholds c _).mp (h.held c (hD hc))
  · rw [(hkeep c).2.2.2, hdisk]
    exact hclean c hc n ((hholds c n).mpr hcn) hm
  · obtain ⟨c, hc⟩ := hlogged n hm
    exact ⟨c, (hholds c n).mp hc⟩

/-- A store to a page that no buffer has. -/
theorem setPage (hq : s.Apart q) : Cached p D W v (s.setPage q k) := by
  refine h.alike ⟨h.cache.pages, h.cache.listed, h.cache.unique⟩ h.order h.inactive rfl
    (fun c => ⟨rfl, rfl, rfl, ?_⟩) h.refs h.free h.mine subset_rfl rfl h.clean h.logged h.distinct
  simp [Kernel.bytes, Kernel.setPage, hq c]

/-- A store to a buffer in hand. -/
theorem setBytes (hb : b ∈ D) (f : Block → Block) :
    Cached p D (insert b W) (v.set (s.buf b).blockno (f (v.blk (s.buf b).blockno))) (s.setBytes b f) := by
  have hcache := h.cache.setBytes b f
  have hholds : ∀ c n, s.Holds c n ↔ (s.setBytes b f).Holds c n := fun c n =>
    ⟨fun hc => ⟨hc.valid, hc.dev, hc.blockno⟩, fun hc => ⟨hc.valid, hc.dev, hc.blockno⟩⟩
  have hself : (s.setBytes b f).bytes b = f (v.blk (s.buf b).blockno) := by
    rw [bytes_setBytes_self, h.bytes hb]
  have hother : ∀ c, c ≠ b → (s.setBytes b f).bytes c = s.bytes c := fun c e =>
    bytes_setBytes_of_ne h.cache e
  have hbb := h.held b hb
  refine ⟨hcache, h.order, h.inactive, fun n => ?_, h.refs, h.free, h.mine,
    fun c hc => (hholds c _).mp (h.held c hc), fun c hc n hn hm => ?_, fun n hn => ?_, h.distinct⟩
  · change _ = update v.blk _ _ n
    by_cases e : n = (s.buf b).blockno
    · rw [e, update_self, ← hself]
      exact ((hholds b _).mp hbb).blk hcache
    · rw [update_of_ne e, ← h.blk]
      refine blk_eq hcache (fun c hc => ?_) fun hno => ?_
      · have hc' := (hholds c n).mpr hc
        have hne : c ≠ b := fun ec => e (hc'.blockno.symm.trans (ec ▸ rfl))
        rw [hother c hne, hc'.blk h.cache]
      · exact (blk_of_none fun c hc => hno c ((hholds c n).mp hc)).symm
  · rw [mem_insert, not_or] at hc
    rw [hother c hc.1]
    exact h.clean c hc.2 n ((hholds c n).mpr hn) hm
  · obtain ⟨c, hc⟩ := h.logged n hn
    exact ⟨c, (hholds c n).mp hc⟩

/-- The logged blocks change for the block of `b` alone, and the count of `b` goes along. -/
theorem repin {v' : Vol} {t : Kernel} {i : Int} (hb : b ∈ D) (ht : t = s.setBuf b fun x => { x with refcnt := i })
    (hblk : v'.blk = v.blk) (hlh : ∀ n, n ≠ (s.buf b).blockno → (n ∈ v'.lh ↔ n ∈ v.lh)) (hdist : v'.lh.Nodup)
    (hi : i = 1 + if (s.buf b).blockno ∈ v'.lh then 1 else 0)
    (hclean : ∀ c ∉ W', ∀ n, s.Holds c n → n ∉ v'.lh → s.bytes c = s.disk n) : Cached p D W' v' t := by
  have hbb := h.held b hb
  have hcache : t.CacheOk := by rw [ht]; exact h.cache.setBuf_same rfl rfl rfl
  have hkeep : ∀ c, (t.buf c).valid = (s.buf c).valid ∧ (t.buf c).dev = (s.buf c).dev ∧
      (t.buf c).blockno = (s.buf c).blockno ∧ (t.buf c).lock = (s.buf c).lock := by
    intro c
    rw [ht]
    by_cases e : c = b
    · subst e
      simp
    · simp [setBuf_of_ne e]
  refine h.alike hcache (by rw [ht]; exact h.order) (by rw [ht]; exact h.inactive) (by rw [ht]; rfl) (fun c => ?_)
    (fun c => ?_) (fun c hc => ?_) (fun c hc => ?_) subset_rfl hblk hclean (fun n hm => ?_) hdist
  · refine ⟨(hkeep c).1, (hkeep c).2.1, (hkeep c).2.2.1, ?_⟩
    rw [ht]
    exact bytes_setBuf rfl c
  · by_cases e : c = b
    · subst e
      rw [ht, setBuf_self]
      simp [hb, hbb.dev, hi]
    · rw [ht, setBuf_of_ne e, h.refs c]
      congr 1
      refine if_congr (and_congr_right fun hd => (hlh _ fun ec => e ?_).symm) rfl rfl
      exact h.cache.unique c b hd hbb.dev ec
  · rw [(hkeep c).2.2.2]
    exact h.free c hc
  · have := h.mine c hc
    have hproc : t.proc = s.proc := by rw [ht]; rfl
    unfold holdingsleep lock at this ⊢
    simp only [(hkeep c).2.2.2, hproc]
    exact this
  · by_cases e : n = (s.buf b).blockno
    · exact ⟨b, e ▸ hbb⟩
    · exact h.logged n ((hlh n e).mp hm)

/-- The effect of `log_write` on the cache: a block that is logged for the first time is pinned. -/
theorem pin (hb : b ∈ D) (hn : (s.buf b).blockno ∉ v.lh) :
    Cached p D (W.erase b) (v.log (s.buf b).blockno) (s.bpin b) := by
  refine h.repin hb rfl Vol.log_blk (fun n hne => ?_) (Vol.log_nodup h.distinct) ?_ fun c hc n hcn hm => ?_
  · rw [Vol.mem_log, or_iff_left hne]
  · rw [h.refs b]
    simp [hb, hn]
  · rw [Vol.mem_log, not_or] at hm
    have hcb : c ≠ b := fun e => hm.2 (hcn.blockno.symm.trans (by rw [e]))
    exact h.clean c (fun hw => hc (mem_erase.mpr ⟨hcb, hw⟩)) n hcn hm.1

/-- A change of the log's counters. -/
theorem setLog (l : Log) : Cached p D W v { s with log := l } :=
  h.alike ⟨h.cache.pages, h.cache.listed, h.cache.unique⟩ h.order h.inactive rfl (fun _ => ⟨rfl, rfl, rfl, rfl⟩)
    h.refs h.free h.mine subset_rfl rfl h.clean h.logged h.distinct

/-- `brelse`: the buffer goes out of hand. Without other references it is the last one that will
be recycled. -/
theorem brelse (hb : b ∈ D)
    (hQ : ∀ t, Cached p (D.erase b) W v t → Still (D.erase b) s t → t.log = s.log →
      ((s.buf b).blockno ∉ v.lh → t.lru.head? = some b) → Q () t) :
    ends (brelse p b) Q E s := by
  unfold Txv6.brelse kassert releasesleep
  simp only [ends_bind, ends_check, ends_update, h.mine b hb, if_true]
  have hcache : ((s.setLock ⟨false, 0⟩ (.buf b)).brelse b).CacheOk :=
    (h.cache.setBuf_same (f := fun x => { x with lock := ⟨false, 0⟩ }) rfl rfl rfl).brelse b
  have horder : ((s.setLock ⟨false, 0⟩ (.buf b)).brelse b).lru.Nodup := by
    unfold Kernel.brelse
    dsimp only
    split
    · exact List.nodup_cons.mpr ⟨h.order.not_mem_erase, h.order.erase b⟩
    · exact h.order
  have hhead : (s.buf b).blockno ∉ v.lh →
      ((s.setLock ⟨false, 0⟩ (.buf b)).brelse b).lru.head? = some b := by
    intro hn
    have hr := h.refs b
    simp only [hb, if_true, hn, and_false, if_false] at hr
    have hz : (((s.setLock ⟨false, 0⟩ (.buf b)).setBuf b fun x =>
        { x with refcnt := x.refcnt - 1 }).buf b).refcnt = 0 := by
      simp [setLock, hr]
    unfold Kernel.brelse
    dsimp only
    rw [if_pos hz]
    rfl
  obtain ⟨l, hl⟩ := brelse_eq (s.setLock ⟨false, 0⟩ (.buf b)) b
  rw [hl] at hcache horder hhead ⊢
  rw [setLock, setBuf_setBuf] at hcache horder hhead ⊢
  generalize hf : (fun x : Buf => { x with refcnt := x.refcnt - 1 }) ∘ (fun x : Buf =>
    { x with lock := ⟨false, 0⟩ }) = f at hcache horder hhead ⊢
  generalize ht : ({ s.setBuf b f with lru := l } : Kernel) = t at hcache horder hhead ⊢
  have hself : t.buf b = f (s.buf b) := by rw [← ht]; exact setBuf_self s b f
  have hother : ∀ c, c ≠ b → t.buf c = s.buf c := fun c e => by rw [← ht]; exact setBuf_of_ne e
  refine hQ t (h.alike hcache horder (by rw [← ht]; exact h.inactive) (by rw [← ht]; rfl) (fun c => ?_)
    (fun c => ?_) (fun c hc => ?_) (fun c hc => ?_) (erase_subset b D) rfl h.clean h.logged h.distinct) ?_
    (by rw [← ht]; rfl) hhead
  · have hbytes : t.bytes c = s.bytes c := by
      rw [← ht]
      exact bytes_setBuf (by rw [← hf]; rfl) c
    by_cases e : c = b
    · subst e
      rw [hself, ← hf]
      exact ⟨rfl, rfl, rfl, hbytes⟩
    · rw [hother c e]
      exact ⟨rfl, rfl, rfl, hbytes⟩
  · by_cases e : c = b
    · subst e
      have : (t.buf c).refcnt = (s.buf c).refcnt - 1 := by rw [hself, ← hf]; rfl
      rw [this, h.refs c, if_pos hb, if_neg (notMem_erase c D)]
      omega
    · rw [hother c e, h.refs c]
      simp [e]
  · by_cases e : c = b
    · subst e
      rw [hself, ← hf]
      rfl
    · rw [hother c e]
      exact h.free c fun hm => hc (mem_erase.mpr ⟨e, hm⟩)
  · obtain ⟨e, hm⟩ := mem_erase.mp hc
    have := h.mine c hm
    have hproc : t.proc = s.proc := by rw [← ht]; rfl
    unfold holdingsleep lock at this ⊢
    simp only [hother c e, hproc]
    exact this
  · rw [← ht]
    have hst : Still (D.erase b) s (s.setBuf b f) := by
      refine .setBuf (by rw [← hf]; rfl) fun hm => ?_
      exact absurd hm (notMem_erase b D)
    exact ⟨rfl, hst.page, hst.heap, hst.held⟩
end

end Cached

/-! ## The rules -/

namespace Carries
variable {p : ProcPtr} {D W : Finset BufPtr} {v : Vol} {s : Kernel} {b : BufPtr} {n : Nat}
  {E : Err → Kernel → Prop}

section
variable (h : Carries p D W v s)
include h

theorem mono (hW : W ⊆ W') : Carries p D W' v s :=
  ⟨h.toCached.mono hW, h.log⟩

theorem setPage (hq : s.Apart q) :
    Carries p D W v (s.setPage q k) := ⟨h.toCached.setPage hq, h.log⟩

theorem txActive {Q : Bool → Kernel → Prop} (hQ : Q false s) :
    ends (txActive p) Q E s := by
  unfold Txv6.txActive
  rw [ends_read, h.inactive]
  exact hQ

/-- Outside of a transaction `bdata` is the buffer's own page. -/
theorem bdata {Q : Page → Kernel → Prop} (hQ : Q (s.buf b).data s) :
    ends (bdata p b) Q E s := by
  have hsh : s.bdataShadow p b = (.ok ((s.buf b).data, false), s) := by
    have hin := h.inactive
    unfold Kernel.txActive at hin
    unfold Kernel.bdataShadow
    cases htx : (s.proc p).tx with
    | none => rfl
    | some t =>
      rw [htx] at hin
      dsimp only at hin ⊢
      rw [if_neg (by simpa using hin)]
  unfold Txv6.bdata
  rw [ends_bind, ends_atomOrPanic hsh]
  exact hQ

theorem bread {Q : BufPtr → Kernel → Prop} (hn : ∀ b ∈ D, (s.buf b).blockno ≠ n)
    (hW : ∀ w ∈ W, w ∈ D ∨ s.Recent w) (hroom : (n ∈ v.lh ∨ D.card + v.lh.length < nbuf) ∨ ∀ e t, E e t)
    (hQ : ∀ b t, b ∉ D → Carries p (insert b D) W v t → Still D s t → (t.buf b).blockno = n → Q b t) :
    ends (bread p rootdev n) Q E s := by
  refine h.toCached.bread hn hW hroom fun b t hb ht hst hlog hblk => ?_
  exact hQ b t hb ⟨ht, by rw [hlog]; exact h.log⟩ hst hblk

/-- A store through the page of a buffer in hand. -/
theorem store (hb : b ∈ D) (hd : (s.buf b).data = d)
    (hblk : (s.buf b).blockno = n) (f : Block → Block) :
    Carries p D (insert b W) (v.set n (f (v.blk n))) (s.setPage d fun x => { x with bytes := f x.bytes }) ∧
      Still D s (s.setPage d fun x => { x with bytes := f x.bytes }) := by
  subst hd hblk
  exact ⟨⟨h.toCached.setBytes hb f, h.log⟩, .setBytes⟩

theorem logWrite (hb : b ∈ D) (hblk : (s.buf b).blockno = n)
    (hop : 1 ≤ s.log.outstanding) (hroom : v.lh.length < logblocks ∨ ∀ e t, E e t)
    (hQ : ∀ t, Carries p D (W.erase b) (v.log n) t → Still D s t → v.lh.length < logblocks → Q () t) :
    ends (logWrite p b) Q E s := by
  subst hblk
  unfold Txv6.logWrite
  rw [ends_bind]
  refine h.txActive ?_
  change ends (atomOrPanic fun s => s.logWrite b) Q E s
  by_cases hlen : v.lh.length < logblocks
  · by_cases hm : (s.buf b).blockno ∈ v.lh
    · have hs : s.logWrite b = (.ok (), s) := by
        unfold Kernel.logWrite
        rw [h.log, if_neg (by omega), if_neg (by omega), if_pos hm]
      rw [ends_atomOrPanic hs]
      refine hQ s ⟨?_, ?_⟩ (.refl D s) hlen
      · -- what is logged need not agree with the disk
        have hv : v.log (s.buf b).blockno = v := if_pos hm
        rw [hv]
        refine { h.toCached with clean := fun c hc m hcm hml => h.clean c (fun hw => ?_) m hcm hml }
        have hcb : c ≠ b := fun e => hml (hcm.blockno ▸ e ▸ hm)
        exact hc (mem_erase.mpr ⟨hcb, hw⟩)
      · rw [h.log, Vol.log, if_pos hm]
    · have hs : s.logWrite b = (.ok (), { s.bpin b with
          log := { s.log with lh := v.lh ++ [(s.buf b).blockno] } }) := by
        unfold Kernel.logWrite
        rw [h.log, if_neg (by omega), if_neg (by omega), if_neg hm]
      rw [ends_atomOrPanic hs]
      refine hQ _ ⟨(h.toCached.pin hb hm).setLog _, ?_⟩ ?_ hlen
      · rw [Vol.log_lh, if_neg hm]
      · have hst : Still D s (s.bpin b) := .setBuf rfl fun _ => rfl
        exact ⟨rfl, hst.page, hst.heap, hst.held⟩
  · have hs : s.logWrite b = (.error "too big a transaction", s) := by
      unfold Kernel.logWrite
      rw [h.log, if_pos (by omega)]
    rw [ends_atomOrPanic_error hs]
    exact hroom.elim (absurd · hlen) fun hE => hE _ _

/-- A store followed by `log_write`. -/
theorem put {f : Block → Block} (hb : b ∈ D)
    (hd : (s.buf b).data = d) (hblk : (s.buf b).blockno = n) (hop : 1 ≤ s.log.outstanding)
    (hroom : v.lh.length < logblocks ∨ ∀ e t, E e t)
    (hQ : ∀ t, Carries p D W (v.put n (f (v.blk n))) t → Still D s t → v.lh.length < logblocks → Q () t) :
    ends (Txv6.logWrite p b) Q E (s.setPage d fun x => { x with bytes := f x.bytes }) := by
  obtain ⟨hs, hst⟩ := h.store hb hd hblk f
  refine hs.logWrite hb hblk hop hroom fun t ht hst' hlen => ?_
  exact hQ t (ht.mono (erase_insert_subset b W)) (hst.trans hst') hlen
end

theorem brelse (h : Carries p (insert b D) W v s) (hb : b ∉ D)
    (hQ : ∀ t, Carries p D W v t → Still D s t → ((s.buf b).blockno ∉ v.lh → t.lru.head? = some b) → Q () t) :
    ends (brelse p b) Q E s := by
  refine h.toCached.brelse (mem_insert_self b D) fun t ht hst hlog hhead => ?_
  rw [erase_insert hb] at ht hst
  exact hQ t ⟨ht, by rw [hlog]; exact h.log⟩ hst hhead

end Carries
end Txv6
