import Txv6.Crash.Clients
import Mathlib.Algebra.Order.BigOperators.Group.Finset
import Mathlib.Tactic.LinearCombination

/-! # What a process has of the cache and of the log

The account of a process: the buffers it has locked, the one it has a reference to without the
lock, those whose contents are not on the disk, its part of `log.outstanding` and, for the
process in `commit`, how far that has come. `LogAct` lists what a process can do, `LogTot` says
how the accounts of all processes fit the state.
-/
namespace Txv6
open Lib Lib.Prog Function

/-- How far a commit has come. -/
inductive CommitPhase where
  /-- The first `i` logged blocks are in the log. -/
  | logging (i : Nat)
  /-- The header is written; `i` blocks are installed and `k` of them are unpinned. -/
  | installing (k i : Nat)
  /-- All blocks are installed, and `log.lh.n` is 0 again. -/
  | installed
  /-- The header is empty again. -/
  | cleared
  deriving DecidableEq

structure Share where
  held : Finset BufPtr := ∅
  ref : Option BufPtr := none
  dirty : Finset BufPtr := ∅
  counted : Bool := false
  phase : Option CommitPhase := none

/-- The references of a process to a buffer. -/
def Share.uses (a : Share) (b : BufPtr) : Int :=
  (if b ∈ a.held then 1 else 0) + if a.ref = some b then 1 else 0

/-- What the other processes leave alone. -/
structure LogRely (a : Share) (s t : Kernel) : Prop where
  sb : t.sb = s.sb
  valid : ∀ b ∈ a.held, (t.buf b).valid = (s.buf b).valid
  place : ∀ b, 0 < a.uses b → (t.buf b).dev = (s.buf b).dev ∧ (t.buf b).blockno = (s.buf b).blockno
  bytes : ∀ b ∈ a.held, t.bytes b = s.bytes b
  disk : ∀ b ∈ a.held, (s.buf b).dev = rootdev → t.disk (s.buf b).blockno = s.disk (s.buf b).blockno
  lh : a.phase ≠ none → t.log.lh = s.log.lh

/-- What is known of a state in which process `p` takes a step. -/
structure LogOk (p : ProcPtr) (a : Share) (s : Kernel) : Prop where
  inactive : s.txActive p = false
  cache : s.CacheOk
  uses : ∀ b, a.uses b ≤ (s.buf b).refcnt
  locked : ∀ b ∈ a.held, (s.buf b).lock.locked = true
  length : s.log.lh.length ≤ logblocks

/-- The steps of a process that concern the cache only. -/
inductive CacheAct (p : ProcPtr) : Kernel × Share → Kernel × Share → Prop
  | skip {s a} : CacheAct p (s, a) (s, a)
  | get {s a blk b t} : a.ref = none → s.bget rootdev blk = (some b, t) →
      CacheAct p (s, a) (t, { a with ref := some b })
  | lock {s a b} : a.ref = some b → (s.buf b).lock.locked = false →
      CacheAct p (s, a) (s.setLock ⟨true, (s.proc p).pid⟩ (.buf b),
        { a with held := insert b a.held, ref := none })
  | unlock {s a b} : a.ref = none → b ∈ a.held → b ∉ a.dirty →
      CacheAct p (s, a) (s.setLock ⟨false, 0⟩ (.buf b), { a with held := a.held.erase b, ref := some b })
  | put {s a b} : a.ref = some b → CacheAct p (s, a) (s.brelse b, { a with ref := none })
  | load {s a b} : b ∈ a.held → (s.buf b).valid = false → CacheAct p (s, a) (s.diskRead b, a)
  | validate {s a b} : b ∈ a.held → (s.buf b).valid = false → s.bytes b = s.disk (s.buf b).blockno →
      CacheAct p (s, a) (s.setBuf b fun x => { x with valid := true }, a)

/-- The steps of `begin_op`, `log_write` and `end_op`. -/
inductive OpAct : Kernel × Share → Kernel × Share → Prop
  | begin {s a} : a.counted = false → s.log.hasRoom = true →
      OpAct (s, a) ({ s with log := { s.log with outstanding := s.log.outstanding + 1 } },
        { a with counted := true })
  | logged {s a b} : a.counted = true → b ∈ a.held → s.Holds b (s.buf b).blockno →
      (s.buf b).blockno ∈ s.log.lh → OpAct (s, a) (s, { a with dirty := a.dirty.erase b })
  | append {s a b} : a.counted = true → b ∈ a.held → s.Holds b (s.buf b).blockno →
      (s.buf b).blockno ∉ s.log.lh → s.log.lh.length < logblocks →
      s.sb.log.Home (s.buf b).blockno → (s.buf b).blockno < 2 ^ 32 →
      OpAct (s, a) ({ s.bpin b with log := { s.log with lh := s.log.lh ++ [(s.buf b).blockno] } },
        { a with dirty := a.dirty.erase b })
  | leave {s a} : a.counted = true → a.dirty = ∅ → s.log.outstanding - 1 ≠ 0 →
      OpAct (s, a) ({ s with log := { s.log with outstanding := s.log.outstanding - 1 } },
        { a with counted := false })
  | last {s a} : a.counted = true → a.dirty = ∅ → s.log.committing = false → s.log.outstanding - 1 = 0 →
      OpAct (s, a) ({ s with log := { s.log with
          outstanding := s.log.outstanding - 1, committing := true } },
        { a with counted := false, phase := some (.logging 0) })

/-- The steps of `commit`. -/
inductive CommitAct : Kernel × Share → Kernel × Share → Prop
  | scribble {s a b x f} : a.phase ≠ none → b ∈ a.held → s.Holds b x → ¬ s.sb.log.Home x →
      CommitAct (s, a) (s.setBytes b f, { a with dirty := insert b a.dirty })
  | copy {s a i x dst src} : a.phase = some (.logging i) → s.log.lh[i]? = some x →
      dst ∈ a.held → s.Holds dst (s.sb.log.slot i) → src ∈ a.held → s.Holds src x →
      s.bytes dst = s.bytes src →
      CommitAct (s, a) (s.diskWrite dst,
        { a with dirty := a.dirty.erase dst, phase := some (.logging (i + 1)) })
  | header {s a b y} : a.phase = some (.logging s.log.lh.length) → b ∈ a.held →
      s.Holds b s.sb.log.header → s.bytes b = putLogheader y s.log.lh →
      CommitAct (s, a) (s.diskWrite b,
        { a with dirty := a.dirty.erase b, phase := some (.installing 0 0) })
  | fetch {s a k x lbuf dbuf v} : a.phase = some (.installing k k) → s.log.lh[k]? = some x →
      lbuf ∈ a.held → lbuf ∉ a.dirty → s.Holds lbuf (s.sb.log.slot k) → dbuf ∈ a.held →
      s.Holds dbuf x → s.bytes lbuf = v → CommitAct (s, a) (s.setBytes dbuf fun _ => v, a)
  | install {s a k x dbuf} : a.phase = some (.installing k k) → s.log.lh[k]? = some x →
      dbuf ∈ a.held → s.Holds dbuf x →
      CommitAct (s, a) (s.diskWrite dbuf, { a with phase := some (.installing k (k + 1)) })
  | unpin {s a k x dbuf} : a.phase = some (.installing k (k + 1)) → s.log.lh[k]? = some x →
      dbuf ∈ a.held → s.Holds dbuf x →
      CommitAct (s, a) (s.setBuf dbuf fun x => { x with refcnt := x.refcnt - 1 },
        { a with phase := some (.installing (k + 1) (k + 1)) })
  | forget {s a} : a.phase = some (.installing s.log.lh.length s.log.lh.length) →
      CommitAct (s, a) ({ s with log := { s.log with lh := [] } }, { a with phase := some .installed })
  | erase {s a b y} : a.phase = some .installed → b ∈ a.held → s.Holds b s.sb.log.header →
      s.bytes b = putLogheader y [] →
      CommitAct (s, a) (s.diskWrite b, { a with dirty := a.dirty.erase b, phase := some .cleared })
  | done {s a} : a.phase = some .cleared ∨ a.phase = some (.logging 0) ∧ s.log.lh = [] →
      a.dirty = ∅ →
      CommitAct (s, a) ({ s with log := { s.log with committing := false } }, { a with phase := none })

/-- What a process does; `v` tells whether it is within an operation, and then it stays counted. -/
inductive LogAct (p : ProcPtr) (v : Bool) (x y : Kernel × Share) : Prop
  | cache : CacheAct p x y → LogAct p v x y
  | op : OpAct x y → (v = true → y.2.counted = true) → LogAct p v x y
  | commit : CommitAct x y → LogAct p v x y

/-! ## All accounts together -/

/-- The log's own reference to a buffer. -/
def pin (P : List Nat) (x : Buf) : Int := if x.dev = rootdev ∧ x.blockno ∈ P then 1 else 0

/-- The blocks that the log has pinned. -/
def pins : Option CommitPhase → List Nat → List Nat
  | some (.installing k _), lh => lh.drop k
  | _, lh => lh

/-- The headers of the buffers: references and locks. -/
structure CacheTot (P : List Nat) (s : Kernel) (g : ProcPtr → Share) : Prop where
  cache : s.CacheOk
  refs : ∀ b, (s.buf b).refcnt = ∑ p ∈ Finset.range nproc, (g p).uses b + pin P (s.buf b)
  locked : ∀ p, ∀ b ∈ (g p).held, (s.buf b).lock.locked = true
  own : ∀ p q b, b ∈ (g p).held → b ∈ (g q).held → p = q
  dev : ∀ p b, 0 < (g p).uses b → (s.buf b).dev = rootdev
  slots : ∀ p, nproc ≤ p → g p = {}

/-- The contents of the buffers and of the disk, with `C` the contents that are meant. -/
structure ContentTot (P : List Nat) (C : Nat → Block) (s : Kernel) (g : ProcPtr → Share) : Prop where
  pinned : ∀ x ∈ P, ∃ b, s.Holds b x
  cached : ∀ b x, s.Holds b x → s.sb.log.Home x → s.bytes b = C x
  stored : ∀ x, s.sb.log.Home x → s.disk x = C x ∨ x ∈ P ∨
    ∃ p, ∃ b ∈ (g p).dirty, (s.buf b).blockno = x
  copies : ∀ b x, s.Holds b x → ¬ s.sb.log.Home x → (∀ p, b ∉ (g p).dirty) → s.bytes b = s.disk x
  dirty : ∀ p, ∀ b ∈ (g p).dirty, b ∈ (g p).held ∧ (s.buf b).valid = true
  kind : ∀ p, ∀ b ∈ (g p).dirty, s.sb.log.Home (s.buf b).blockno ∧ (g p).counted = true ∨
    ¬ s.sb.log.Home (s.buf b).blockno ∧ (g p).phase ≠ none

/-- The operations in progress. -/
structure OpTot (s : Kernel) (h : Hist) (g : ProcPtr → Share) : Prop where
  outstanding : s.log.outstanding = ∑ p ∈ Finset.range nproc, if (g p).counted then 1 else 0
  inside : ∀ p, h.inside p = true → (g p).counted = true
  inactive : ∀ p, s.txActive p = false
  length : s.log.lh.length ≤ logblocks
  nodup : s.log.lh.Nodup
  homes : ∀ x ∈ s.log.lh, s.sb.log.Home x ∧ x < 2 ^ 32

/-- What is on the disk at each point of a commit. -/
inductive LogState (s : Kernel) (h : Hist) : Option CommitPhase → Prop
  | idle {g older} : s.log.committing = false → h.groups = g :: older → (∀ p, g.inside p = false) →
      s.sb.log.Clean s.disk g.contents → LogState s h none
  | logging {i g g' older} : s.log.committing = true → s.log.outstanding = 0 →
      h.groups = g :: g' :: older → (∀ p, g.inside p = false) → (∀ p, g'.inside p = false) →
      g.contents = h.contents → s.sb.log.Clean s.disk g'.contents → i ≤ s.log.lh.length →
      (∀ j < i, ∀ x, s.log.lh[j]? = some x → s.disk (s.sb.log.slot j) = h.contents x) →
      LogState s h (some (.logging i))
  | installing {k i g older} : s.log.committing = true → s.log.outstanding = 0 →
      h.groups = g :: older → (∀ p, g.inside p = false) → g.contents = h.contents →
      s.sb.log.Logged s.disk s.log.lh h.contents →
      (∀ j < i, ∀ x, s.log.lh[j]? = some x → s.disk x = h.contents x) →
      LogState s h (some (.installing k i))
  | installed {l g older} : s.log.committing = true → s.log.outstanding = 0 →
      h.groups = g :: older → (∀ p, g.inside p = false) → g.contents = h.contents →
      s.log.lh = [] → s.sb.log.Logged s.disk l h.contents → (∀ x ∈ l, s.disk x = h.contents x) →
      LogState s h (some .installed)
  | cleared {g older} : s.log.committing = true → s.log.outstanding = 0 →
      h.groups = g :: older → (∀ p, g.inside p = false) → g.contents = h.contents →
      s.log.lh = [] → s.sb.log.Clean s.disk h.contents → LogState s h (some .cleared)

/-- How the accounts fit the state; `o` is the process in `commit` and its phase. -/
structure LogTot (o : Option (ProcPtr × CommitPhase)) (x : Kernel × Hist) (g : ProcPtr → Share) : Prop where
  headers : CacheTot (pins (o.map (·.2)) x.1.log.lh) x.1 g
  contents : ContentTot (pins (o.map (·.2)) x.1.log.lh) x.2.contents x.1 g
  ops : OpTot x.1 x.2 g
  turn : ∀ p ph, (g p).phase = some ph ↔ o = some (p, ph)
  state : LogState x.1 x.2 (o.map (·.2))

/-! ## References -/

namespace Share
variable (a : Share) (b : BufPtr)

theorem uses_nonneg : 0 ≤ a.uses b := by
  unfold Share.uses
  split <;> split <;> omega

theorem uses_pos_of_held {a : Share} {b : BufPtr} (h : b ∈ a.held) : 0 < a.uses b := by
  unfold Share.uses
  rw [if_pos h]
  split <;> omega

theorem uses_pos_of_ref {a : Share} {b : BufPtr} (h : a.ref = some b) : 0 < a.uses b := by
  unfold Share.uses
  rw [if_pos h]
  split <;> omega

end Share

theorem pin_nonneg (P : List Nat) (x : Buf) : 0 ≤ pin P x := by
  unfold pin
  split <;> omega

namespace CacheTot
variable {P : List Nat} {s : Kernel} {g : ProcPtr → Share} {P' : List Nat} {p : ProcPtr}

section
variable (h : CacheTot P s g)
include h

theorem uses_le (p : ProcPtr) (b : BufPtr) : (g p).uses b ≤ (s.buf b).refcnt := by
  have hsum : ∀ q ∈ Finset.range nproc, 0 ≤ (g q).uses b := fun q _ => (g q).uses_nonneg b
  have hpin := pin_nonneg P (s.buf b)
  rw [h.refs b]
  by_cases hp : p < nproc
  · have := Finset.single_le_sum hsum (Finset.mem_range.mpr hp)
    exact le_add_of_le_of_nonneg this hpin
  · rw [h.slots p (Nat.le_of_not_lt hp)]
    exact add_nonneg (Finset.sum_nonneg hsum) hpin

/-- A buffer without references is nobody's. -/
theorem unused {b : BufPtr} (hb : (s.buf b).refcnt = 0) :
    (∀ p, (g p).uses b = 0) ∧ pin P (s.buf b) = 0 := by
  refine ⟨fun p => le_antisymm (hb ▸ h.uses_le p b) ((g p).uses_nonneg b), ?_⟩
  have hsum : 0 ≤ ∑ q ∈ Finset.range nproc, (g q).uses b :=
    Finset.sum_nonneg fun q _ => (g q).uses_nonneg b
  have hr := h.refs b
  rw [hb] at hr
  refine le_antisymm ?_ (pin_nonneg P _)
  rw [eq_comm, ← eq_neg_iff_add_eq_zero] at hr
  rw [hr] at hsum
  exact neg_nonneg.mp hsum

theorem not_held {b : BufPtr} (hb : (s.buf b).refcnt = 0) : b ∉ (g p).held := by
  intro hm
  have := Share.uses_pos_of_held hm
  rw [(h.unused hb).1 p] at this
  exact absurd this (lt_irrefl _)

/-- A step of process `p` that changes the header of one buffer. -/
theorem one {t : Kernel} {a : Share} {b : BufPtr} (hp : p < nproc) (hcache : t.CacheOk)
    (hother : ∀ c, c ≠ b → t.buf c = s.buf c ∧ a.uses c = (g p).uses c ∧
      pin P' (s.buf c) = pin P (s.buf c)) (hcnt : (t.buf b).refcnt - pin P' (t.buf b) =
      (s.buf b).refcnt - pin P (s.buf b) + (a.uses b - (g p).uses b))
    (hheld : ∀ c ∈ a.held, c ∈ (g p).held ∨ c = b ∧ (s.buf b).lock.locked = false)
    (hlock : b ∈ a.held → (t.buf b).lock.locked = true)
    (hkeep : ∀ q, q ≠ p → b ∈ (g q).held → (t.buf b).lock.locked = true)
    (hdev : 0 < a.uses b → (t.buf b).dev = rootdev)
    (hdev' : ∀ q, q ≠ p → 0 < (g q).uses b → (t.buf b).dev = rootdev) :
    CacheTot P' t (update g p a) where
  cache := hcache
  refs c := by
    have hs := h.refs c
    have hsum := Machine.sum_update (fun y : Share => y.uses c) g (Finset.mem_range.mpr hp) a
    by_cases e : c = b
    · subst e
      rw [hsum]
      have h1 : ∑ q ∈ Finset.range nproc, (g q).uses c = (s.buf c).refcnt - pin P (s.buf c) := by
        rw [hs]; ring
      rw [h1]
      linear_combination hcnt
    · obtain ⟨hbuf, huses, hpin⟩ := hother c e
      rw [hsum, hbuf, huses, hpin, hs]
      ring
  locked q c hc := by
    by_cases e : q = p
    · subst e
      rw [update_self] at hc
      by_cases ec : c = b
      · subst ec; exact hlock hc
      · rw [(hother c ec).1]
        exact h.locked q c ((hheld c hc).resolve_right fun h => ec h.1)
    · rw [update_of_ne e] at hc
      by_cases ec : c = b
      · subst ec; exact hkeep q e hc
      · rw [(hother c ec).1]
        exact h.locked q c hc
  own q r c hq hr := by
    have key : ∀ r, r ≠ p → c ∈ a.held → c ∈ (g r).held → r = p := by
      intro r _ hc hr
      rcases hheld c hc with hm | ⟨ec, hfree⟩
      · exact h.own r p c hr hm
      · have := h.locked r c hr
        rw [ec, hfree] at this
        cases this
    by_cases eq : q = p
    · by_cases er : r = p
      · rw [eq, er]
      · rw [eq, update_self] at hq
        rw [update_of_ne er] at hr
        exact absurd (key r er hq hr) er
    · rw [update_of_ne eq] at hq
      by_cases er : r = p
      · rw [er, update_self] at hr
        exact absurd (key q eq hr hq) eq
      · rw [update_of_ne er] at hr
        exact h.own q r c hq hr
  dev q c hc := by
    by_cases e : q = p
    · subst e
      rw [update_self] at hc
      by_cases ec : c = b
      · subst ec; exact hdev hc
      · rw [(hother c ec).1]
        rw [(hother c ec).2.1] at hc
        exact h.dev q c hc
    · rw [update_of_ne e] at hc
      by_cases ec : c = b
      · subst ec; exact hdev' q e hc
      · rw [(hother c ec).1]
        exact h.dev q c hc
  slots q hq := by
    rw [update_of_ne (Nat.ne_of_gt (Nat.lt_of_lt_of_le hp hq))]
    exact h.slots q hq

theorem setBuf {a : Share} {b : BufPtr} {f : Buf → Buf}
    (hp : p < nproc) (hcache : (s.setBuf b f).CacheOk)
    (hother : ∀ c, c ≠ b → a.uses c = (g p).uses c ∧ pin P' (s.buf c) = pin P (s.buf c))
    (hcnt : (f (s.buf b)).refcnt - pin P' (f (s.buf b)) =
      (s.buf b).refcnt - pin P (s.buf b) + (a.uses b - (g p).uses b))
    (hheld : ∀ c ∈ a.held, c ∈ (g p).held ∨ c = b ∧ (s.buf b).lock.locked = false)
    (hlock : b ∈ a.held → (f (s.buf b)).lock.locked = true)
    (hkeep : ∀ q, q ≠ p → b ∈ (g q).held → (f (s.buf b)).lock.locked = true)
    (hdev : ∀ q, 0 < (g q).uses b ∨ q = p ∧ 0 < a.uses b → (f (s.buf b)).dev = rootdev) :
    CacheTot P' (s.setBuf b f) (update g p a) := by
  have hb := setBuf_self s b f
  refine h.one hp hcache (fun c hne => ⟨setBuf_of_ne hne, hother c hne⟩) ?_ hheld ?_ ?_ ?_ ?_
  · rwa [hb]
  · rwa [hb]
  · rwa [hb]
  · rw [hb]
    exact fun hu => hdev p (.inr ⟨rfl, hu⟩)
  · rw [hb]
    exact fun q _ hu => hdev q (.inl hu)
end

end CacheTot
end Txv6
