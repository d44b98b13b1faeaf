import Txv6.Image
import Txv6.Lib.Faults
import Txv6.Lib.Sequence
import Mathlib.Algebra.Order.BigOperators.Group.Finset
import Mathlib.Algebra.BigOperators.Ring.Finset

/-! # Space in the log

`begin_op` reserves `MAXOPBLOCKS` blocks of the log for an operation. Beside the state of the
kernel it is kept which blocks an operation has logged. As long as no operation calls `log_write`
once it has used up its reservation, the log does not overflow. An operation that has, and logs
one of its blocks again, meets the test for a full log, which `log_write` makes before it looks
whether the block is there already.
-/
namespace Txv6
open Lib Lib.Prog Function Finset

variable {b : BufPtr} {blockno : Nat} {α : Type}

/-- The operations in progress. -/
structure Ops where
  /-- The processes between the counting steps of `begin_op` and of `end_op`. -/
  inside : ProcPtr → Bool := fun _ => false
  /-- The blocks that the operation of a process has given to `log_write`. -/
  logged : ProcPtr → Finset Nat := fun _ => ∅
  /-- The process that has set `log.committing`. -/
  committer : Option ProcPtr := none

namespace Ops

def enter (h : Ops) (p : ProcPtr) : Ops :=
  { h with inside := Function.update h.inside p true, logged := Function.update h.logged p ∅ }

def leave (h : Ops) (p : ProcPtr) : Ops := { h with inside := Function.update h.inside p false }

def wrote (h : Ops) (p : ProcPtr) (blockno : Nat) : Ops :=
  { h with logged := Function.update h.logged p (insert blockno (h.logged p)) }

/-- What a step of `begin_op` or `end_op` of process `p` tells. -/
def see (p : ProcPtr) (s t : Kernel) (h : Ops) : Ops :=
  let h :=
    if s.log.outstanding < t.log.outstanding then h.enter p
    else if t.log.outstanding < s.log.outstanding then h.leave p
    else h
  if s.log.committing = t.log.committing then h
  else { h with committer := if t.log.committing then some p else none }

/-- What is left of the reservation of a process. -/
def reserve (h : Ops) (p : ProcPtr) : Int :=
  if h.inside p then ((maxopblocks - (h.logged p).card : Nat) : Int) else 0

/-- What is reserved for all of them. -/
def reserved (h : Ops) : Int := ∑ p ∈ Finset.range nproc, h.reserve p

/-- How many there are. -/
def count (h : Ops) : Int := ∑ p ∈ Finset.range nproc, if h.inside p then 1 else 0

end Ops

/-! ## The system -/

inductive SpaceCall where
  | beginOp
  | logWrite (b : BufPtr)
  | endOp

def SpaceCall.prog (p : ProcPtr) : SpaceCall → Prog (Kernel × Ops) Err Unit
  | .beginOp => track (Ops.see p) (Txv6.beginOp p)
  -- the two steps of `log_write`, with a note of the block beside the second
  | .logWrite b => do
    if ← track (Ops.see p) (txActive p) then
      return
    track (fun s _ h => h.wrote p (s.buf b).blockno) (atomOrPanic fun s => s.logWrite b)
  | .endOp => track (Ops.see p) (Txv6.endOp p)

/-- Outside of the calls anything may happen that does not touch the log. -/
def spaceSystem : Machine ProcPtr SpaceCall (Kernel × Ops) Err Unit where
  prog p c := c.prog p
  ready p _ := p < nproc
  user _ x y := y.1.log = x.1.log ∧ (∀ p, y.1.txActive p = x.1.txActive p) ∧ y.2 = x.2

abbrev SpaceSys := Pool ProcPtr (Kernel × Ops) Err Unit

/-- Operations that log at most `MAXOPBLOCKS` different blocks. -/
def Modest : Label ProcPtr SpaceCall Err Unit → Kernel × Ops → Kernel × Ops → Prop
  | .call p .beginOp, x, _ => x.2.inside p = false
  | .call p (.logWrite b), x, _ => x.2.inside p = true ∧
      (insert (x.1.buf b).blockno (x.2.logged p)).card ≤ maxopblocks
  | .call p .endOp, x, _ => x.2.inside p = true
  | _, _, _ => True

/-- Operations that call `log_write` only while they have some of their reservation left. -/
def Reserved : Label ProcPtr SpaceCall Err Unit → Kernel × Ops → Kernel × Ops → Prop
  | .call p .beginOp, x, _ => x.2.inside p = false
  | .call p (.logWrite _), x, _ => x.2.inside p = true ∧ (x.2.logged p).card < maxopblocks
  | .call p .endOp, x, _ => x.2.inside p = true
  | _, _, _ => True

/-- The panics of `log_write`, and that of `end_op`. -/
def spacePanics : List String := ["too big a transaction", "log_write outside of trans", "log.committing"]

/-! ## The invariant -/

structure Space (x : Kernel × Ops) : Prop where
  inactive : ∀ p, x.1.txActive p = false
  outside : ∀ p, nproc ≤ p → x.2.inside p = false
  outstanding : x.1.log.outstanding = x.2.count
  committing : x.1.log.committing = true → x.1.log.outstanding = 0
  committer : x.2.committer.isSome = x.1.log.committing
  room : x.1.log.lh.length + x.2.reserved ≤ (logblocks : Int)
  logged : ∀ p, x.2.inside p = true → ∀ b ∈ x.2.logged p, b ∈ x.1.log.lh
  nodup : x.1.log.lh.Nodup

/-- What a process knows of the others. -/
structure SpaceRely (p : ProcPtr) (x y : Kernel × Ops) : Prop where
  inside : y.2.inside p = x.2.inside p
  logged : y.2.logged p = x.2.logged p
  committer : y.2.committer = some p ↔ x.2.committer = some p

abbrev SpaceGuar (p : ProcPtr) : Kernel × Ops → Kernel × Ops → Prop := Machine.Guards Space SpaceRely p

variable {x y : Kernel × Ops} {s t : Kernel} {h : Ops} {p q : ProcPtr}

theorem SpaceRely.refl (p : ProcPtr) (x : Kernel × Ops) : SpaceRely p x x := ⟨rfl, rfl, Iff.rfl⟩

theorem SpaceRely.trans {z : Kernel × Ops} (h : SpaceRely p x y) (h' : SpaceRely p y z) : SpaceRely p x z :=
  ⟨h'.inside.trans h.inside, h'.logged.trans h.logged, h'.committer.trans h.committer⟩

/-- A sum of which one summand changes. -/
theorem sum_change {S : Finset ProcPtr} {f g : ProcPtr → Int} (hp : p ∈ S) (h : ∀ q, q ≠ p → f q = g q) :
    ∑ q ∈ S, f q = ∑ q ∈ S, g q + (f p - g p) := by
  have hrest : ∑ q ∈ S.erase p, f q = ∑ q ∈ S.erase p, g q :=
    sum_congr rfl fun q hq => h q (ne_of_mem_erase hq)
  rw [← add_sum_erase S f hp, ← add_sum_erase S g hp, hrest]
  ring

namespace Ops

theorem reserve_nonneg (h : Ops) (p : ProcPtr) : 0 ≤ h.reserve p := by
  unfold reserve
  split
  · exact Int.natCast_nonneg _
  · exact le_refl 0

theorem reserve_le (h : Ops) (p : ProcPtr) : h.reserve p ≤ maxopblocks * if h.inside p then 1 else 0 := by
  unfold reserve
  split
  · have := Nat.sub_le maxopblocks (h.logged p).card
    omega
  · exact le_refl 0

/-- What is reserved is no more than what `begin_op` counts. -/
theorem reserved_le (h : Ops) : h.reserved ≤ maxopblocks * h.count := by
  unfold reserved count
  rw [mul_sum]
  exact sum_le_sum fun p _ => h.reserve_le p

theorem reserved_nonneg (h : Ops) : 0 ≤ h.reserved := sum_nonneg fun p _ => h.reserve_nonneg p

theorem reserve_le_reserved (h : Ops) (hp : p < nproc) : h.reserve p ≤ h.reserved :=
  single_le_sum (fun q _ => h.reserve_nonneg q) (mem_range.mpr hp)

theorem count_pos (h : Ops) (hp : p < nproc) (hin : h.inside p = true) : 1 ≤ h.count := by
  have hnonneg : ∀ q ∈ Finset.range nproc, 0 ≤ if h.inside q then (1 : Int) else 0 := by
    intro q _
    split
    · exact Int.one_nonneg
    · exact le_refl 0
  have hle := single_le_sum hnonneg (mem_range.mpr hp)
  rwa [if_pos hin] at hle

/-- Steps of `begin_op` and `end_op` that do not count. -/
theorem see_same (hout : t.log.outstanding = s.log.outstanding) (hc : t.log.committing = s.log.committing) :
    see p s t h = h := by
  unfold see
  rw [hout, hc]
  simp

end Ops

/-! ## Steps -/

namespace Space

section
variable (hx : Space x) (hp : x.2.inside p = true)
include hx hp

theorem lt_nproc : p < nproc := by
  by_contra hge
  rw [hx.outside p (Nat.le_of_not_lt hge)] at hp
  cases hp

theorem outstanding_pos : 1 ≤ x.1.log.outstanding := by
  rw [hx.outstanding]
  exact x.2.count_pos (hx.lt_nproc hp) hp

/-- Nobody is within an operation while the log is committed. -/
theorem not_committing : x.1.log.committing = false := by
  by_contra hc
  have h0 := hx.committing (Bool.eq_true_of_not_eq_false hc)
  have h1 := hx.outstanding_pos hp
  omega
end

theorem length_le (hx : Space x) : x.1.log.lh.length ≤ logblocks := by
  have hroom := hx.room
  have hpos := x.2.reserved_nonneg
  omega

/-- An operation with some of its reservation left finds room. -/
theorem length_lt (hx : Space x) (hp : x.2.inside p = true) (hcard : (x.2.logged p).card < maxopblocks) :
    x.1.log.lh.length < logblocks := by
  have hroom := hx.room
  have hle := x.2.reserve_le_reserved (hx.lt_nproc hp)
  have hres : x.2.reserve p = ((maxopblocks - (x.2.logged p).card : Nat) : Int) := if_pos hp
  omega

/-- Steps that concern neither the log nor the operations. -/
theorem same (hx : Space x) (hlog : y.1.log = x.1.log) (htx : ∀ p, y.1.txActive p = x.1.txActive p)
    (hops : y.2 = x.2) : Space y := by
  obtain ⟨s, h⟩ := x
  obtain ⟨t, h'⟩ := y
  dsimp only at hlog htx hops
  subst hops
  refine ⟨fun p => (htx p).trans (hx.inactive p), hx.outside, ?_, ?_, ?_, ?_, ?_, ?_⟩
  all_goals
    dsimp only
    rw [hlog]
  · exact hx.outstanding
  · exact hx.committing
  · exact hx.committer
  · exact hx.room
  · exact hx.logged
  · exact hx.nodup

end Space

/-- The other processes see no difference. -/
theorem SpaceRely.of_ops (hops : y.2 = x.2) (p : ProcPtr) : SpaceRely p x y := by
  constructor
  all_goals rw [hops]

theorem spaceGuar_same (hlog : y.1.log = x.1.log) (htx : ∀ p, y.1.txActive p = x.1.txActive p)
    (hops : y.2 = x.2) : SpaceGuar p x y :=
  ⟨fun hx => hx.same hlog htx hops, fun j _ => .of_ops hops j⟩

/-! ### begin_op -/

theorem enter_other (hq : q ≠ p) : (h.enter p).inside q = h.inside q ∧ (h.enter p).logged q = h.logged q :=
  ⟨update_of_ne hq _ _, update_of_ne hq _ _⟩

theorem leave_other (hq : q ≠ p) : (h.leave p).inside q = h.inside q := update_of_ne hq _ _

theorem wrote_other (hq : q ≠ p) : (h.wrote p blockno).logged q = h.logged q :=
  update_of_ne hq _ _

theorem enter_count (hp : p < nproc) (hin : h.inside p = false) : (h.enter p).count = h.count + 1 := by
  unfold Ops.count
  rw [sum_change (g := fun q => if h.inside q then 1 else 0) (mem_range.mpr hp)]
  · have hself : (h.enter p).inside p = true := update_self _ _ _
    rw [hself, hin]
    simp
  · intro q hq
    rw [(enter_other hq).1]

theorem leave_count (hp : p < nproc) (hin : h.inside p = true) : (h.leave p).count = h.count - 1 := by
  unfold Ops.count
  rw [sum_change (g := fun q => if h.inside q then 1 else 0) (mem_range.mpr hp)]
  · have hself : (h.leave p).inside p = false := update_self _ _ _
    rw [hself, hin]
    simp
    ring
  · intro q hq
    rw [leave_other hq]

theorem leave_reserved : (h.leave p).reserved ≤ h.reserved := by
  refine sum_le_sum fun q _ => ?_
  unfold Ops.reserve
  by_cases e : q = p
  · subst e
    have hself : (h.leave q).inside q = false := update_self _ _ _
    rw [hself]
    exact h.reserve_nonneg q
  · rw [leave_other e]
    exact le_refl _

theorem wrote_reserve : (h.wrote p blockno).reserve q ≤ h.reserve q := by
  unfold Ops.reserve
  change (if h.inside q then _ else _) ≤ _
  split
  · by_cases e : q = p
    · subst e
      have hself : (h.wrote q blockno).logged q = insert blockno (h.logged q) := update_self _ _ _
      have hle := card_le_card (subset_insert blockno (h.logged q))
      rw [hself]
      omega
    · rw [wrote_other e]
  · exact le_refl 0

/-- A block that the operation has not logged before takes one of its reservation. -/
theorem wrote_reserved (hp : p < nproc) (hin : h.inside p = true)
    (hnew : blockno ∉ h.logged p) (hcard : (h.logged p).card < maxopblocks) :
    (h.wrote p blockno).reserved = h.reserved - 1 := by
  have hown : (h.wrote p blockno).reserve p = h.reserve p - 1 := by
    have hself : (h.wrote p blockno).logged p = insert blockno (h.logged p) := update_self _ _ _
    have hin' : (h.wrote p blockno).inside p = true := hin
    unfold Ops.reserve
    rw [if_pos hin', if_pos hin, hself, card_insert_of_notMem hnew]
    omega
  unfold Ops.reserved
  rw [sum_change (g := h.reserve) (mem_range.mpr hp), hown]
  · ring
  · intro q hq
    unfold Ops.reserve
    rw [wrote_other hq]
    rfl

namespace Space

section
variable (hx : Space (s, h))
include hx

/-- The counting step of `begin_op`. -/
theorem enter (hp : p < nproc) (hin : h.inside p = false) (hroom : s.log.hasRoom = true) :
    Space ({ s with log := { s.log with outstanding := s.log.outstanding + 1 } }, h.enter p) := by
  unfold Log.hasRoom at hroom
  simp only [Bool.and_eq_true, Bool.not_eq_true', decide_eq_true_eq] at hroom
  obtain ⟨hc, hroom⟩ := hroom
  have hcount := enter_count hp hin
  have hout := hx.outstanding
  dsimp only at hout
  refine ⟨hx.inactive, fun q hq => ?_, ?_, fun hc' => ?_, hx.committer, ?_, fun q hq b hb => ?_, hx.nodup⟩
  · have hne : q ≠ p := Nat.ne_of_gt (Nat.lt_of_lt_of_le hp hq)
    rw [(enter_other hne).1]
    exact hx.outside q hq
  · dsimp only
    rw [hcount, hout]
  · rw [hc] at hc'
    cases hc'
  · have hle := (h.enter p).reserved_le
    dsimp only
    rw [hcount] at hle
    rw [hout] at hroom
    have hmul : (h.count + 1) * (maxopblocks : Int) = maxopblocks * (h.count + 1) := Int.mul_comm _ _
    omega
  · by_cases e : q = p
    · subst e
      have hself : (h.enter q).logged q = ∅ := update_self _ _ _
      rw [hself] at hb
      exact absurd hb (notMem_empty b)
    · rw [(enter_other e).1] at hq
      rw [(enter_other e).2] at hb
      exact hx.logged q hq b hb

/-- The block is in the log already. -/
theorem absorb (hmem : blockno ∈ s.log.lh) : Space (s, h.wrote p blockno) := by
  refine ⟨hx.inactive, hx.outside, hx.outstanding, hx.committing, hx.committer, ?_, fun q hq b hb => ?_, hx.nodup⟩
  · have hle : (h.wrote p blockno).reserved ≤ h.reserved := sum_le_sum fun q _ => wrote_reserve
    have hroom := hx.room
    dsimp only at hroom ⊢
    omega
  · by_cases e : q = p
    · subst e
      have hself : (h.wrote q blockno).logged q = insert blockno (h.logged q) := update_self _ _ _
      rw [hself, mem_insert] at hb
      rcases hb with hb | hb
      · rw [hb]
        exact hmem
      · exact hx.logged q hq b hb
    · rw [wrote_other e] at hb
      exact hx.logged q hq b hb

/-- The block is new. -/
theorem append (hin : h.inside p = true)
    (hcard : (h.logged p).card < maxopblocks) (hnew : (s.buf b).blockno ∉ s.log.lh) :
    Space ({ s.bpin b with log := { s.log with lh := s.log.lh ++ [(s.buf b).blockno] } },
      h.wrote p (s.buf b).blockno) := by
  have hfresh : (s.buf b).blockno ∉ h.logged p := fun hb => hnew (hx.logged p hin _ hb)
  refine ⟨hx.inactive, hx.outside, hx.outstanding, hx.committing, hx.committer, ?_, fun q hq n hn => ?_, ?_⟩
  · have hres := wrote_reserved (hx.lt_nproc hin) hin hfresh hcard
    have hroom := hx.room
    dsimp only at hroom ⊢
    rw [hres, List.length_append, List.length_singleton]
    omega
  · rw [List.mem_append, List.mem_singleton]
    by_cases e : q = p
    · subst e
      have hself : (h.wrote q (s.buf b).blockno).logged q = insert (s.buf b).blockno (h.logged q) :=
        update_self _ _ _
      rw [hself, mem_insert] at hn
      rcases hn with hn | hn
      · exact .inr hn
      · exact .inl (hx.logged q hq n hn)
    · rw [wrote_other e] at hn
      exact .inl (hx.logged q hq n hn)
  · exact List.Nodup.append hx.nodup (List.nodup_singleton _) (by simpa using hnew)

/-- The counting step of `end_op`; `c` tells whether it commits. -/
theorem leave {c : Bool} {o : Option ProcPtr} (hin : h.inside p = true)
    (hc : c = true → s.log.outstanding - 1 = 0) (ho : o.isSome = c) :
    Space ({ s with log := { s.log with outstanding := s.log.outstanding - 1, committing := c } },
      { h.leave p with committer := o }) := by
  have hcount := leave_count (hx.lt_nproc hin) hin
  have hout := hx.outstanding
  refine ⟨hx.inactive, fun q hq => ?_, ?_, hc, ho, ?_, fun q hq b hb => ?_, hx.nodup⟩
  · by_cases e : q = p
    · subst e
      exact update_self _ _ _
    · exact (leave_other e).trans (hx.outside q hq)
  · change s.log.outstanding - 1 = (h.leave p).count
    dsimp only at hout
    rw [hcount, hout]
  · have hle : (h.leave p).reserved ≤ h.reserved := leave_reserved
    have hroom := hx.room
    change (s.log.lh.length : Int) + (h.leave p).reserved ≤ _
    dsimp only at hroom
    omega
  · by_cases e : q = p
    · subst e
      have hself : (h.leave q).inside q = false := update_self _ _ _
      rw [hself] at hq
      cases hq
    · exact hx.logged q ((leave_other e).symm.trans hq) b hb

/-- `log.lh.n = 0` at the end of a commit. -/
theorem clear (hc : s.log.committing = true) :
    Space ({ s with log := { s.log with lh := [] } }, h) := by
  refine ⟨hx.inactive, hx.outside, hx.outstanding, hx.committing, hx.committer, ?_, fun q hq => ?_, List.nodup_nil⟩
  · have hroom := hx.room
    dsimp only at hroom ⊢
    rw [List.length_nil]
    omega
  · have := hx.not_committing hq
    rw [hc] at this
    cases this

/-- The commit is over. -/
theorem finish :
    Space ({ s with log := { s.log with committing := false } }, { h with committer := none }) :=
  ⟨hx.inactive, hx.outside, hx.outstanding, fun hc => (nomatch hc), rfl, hx.room, hx.logged, hx.nodup⟩
end

end Space

/-! ## Code that leaves the log alone -/

/-- Neither the log nor the status of a transaction changes. -/
structure OffLog (s t : Kernel) : Prop where
  log : t.log = s.log
  active : ∀ p, t.txActive p = s.txActive p

/-- The panics of the buffer cache. -/
def CacheError (e : Err) : Prop := ∃ m ∈ ["bget: no buffers", "bwrite", "brelse"], e = .panic m

theorem cacheError_not_space : ∀ m ∈ ["bget: no buffers", "bwrite", "brelse"], m ∉ spacePanics := by decide

abbrev OnCache {α : Type} (m : K α) : Prop := Within OffLog CacheError m

namespace OffLog

theorem refl (s : Kernel) : OffLog s s := ⟨rfl, fun _ => rfl⟩

theorem setBuf (s : Kernel) (b : BufPtr) (f : Buf → Buf) : OffLog s (s.setBuf b f) := ⟨rfl, fun _ => rfl⟩

theorem setPage (s : Kernel) (pg : Page) (f : PageData → PageData) : OffLog s (s.setPage pg f) :=
  ⟨rfl, fun _ => rfl⟩

theorem setLock (s : Kernel) (l : Sleeplock) (b : BufPtr) : OffLog s (s.setLock l (.buf b)) :=
  ⟨rfl, fun _ => rfl⟩

theorem bget (s : Kernel) (dev blockno : Nat) : OffLog s (s.bget dev blockno).2 := by
  unfold Kernel.bget
  split
  · exact ⟨rfl, fun _ => rfl⟩
  · split
    · exact ⟨rfl, fun _ => rfl⟩
    · exact refl s

theorem brelse (s : Kernel) (b : BufPtr) : OffLog s (s.brelse b) := by
  unfold Kernel.brelse
  dsimp only
  split
  · exact ⟨rfl, fun _ => rfl⟩
  · exact setBuf s _ _

end OffLog

namespace OnCache
open Within

theorem read {f : Kernel → α} : OnCache (.read f) := Within.read OffLog.refl

theorem bread (p : ProcPtr) (dev blockno : Nat) : OnCache (Txv6.bread p dev blockno) := by
  refine seq (seq (Within.atom fun s => OffLog.bget s dev blockno) fun o => ?_) fun b => seq read fun valid => ?_
  · cases o with
    | none => exact ⟨_, by simp, rfl⟩
    | some b => exact seq (Within.await fun s _ => OffLog.setLock s _ b) fun _ => trivial
  · refine seq (Within.when ?_) fun _ => trivial
    exact seq (Within.update fun s => OffLog.setPage s _ _) fun _ => Within.update fun s => OffLog.setBuf s b _

theorem bwrite (p : ProcPtr) (b : BufPtr) : OnCache (Txv6.bwrite p b) :=
  seq (Within.check OffLog.refl ⟨_, by simp, rfl⟩) fun _ => Within.update fun _ => ⟨rfl, fun _ => rfl⟩

theorem brelse (p : ProcPtr) (b : BufPtr) : OnCache (Txv6.brelse p b) :=
  seq (Within.check OffLog.refl ⟨_, by simp, rfl⟩) fun _ =>
    seq (Within.update fun s => OffLog.setLock s _ b) fun _ => Within.update fun s => OffLog.brelse s b

theorem setBufBytes (b : BufPtr) (f : Block → Block) : OnCache (Txv6.setBufBytes b f) :=
  Within.update fun s => OffLog.setPage s _ _

theorem writeLogLoop (p : ProcPtr) (tail : Nat) (l : List Nat) : OnCache (Txv6.writeLogLoop p tail l) := by
  induction l generalizing tail with
  | nil => trivial
  | cons blk rest ih =>
    exact seq read fun start => seq (bread p _ _) fun dst => seq (bread p _ _) fun src =>
      seq read fun bytes => seq (setBufBytes dst _) fun _ => seq (bwrite p dst) fun _ =>
      seq (brelse p src) fun _ => seq (brelse p dst) fun _ => ih (tail + 1)

theorem installTransLoop (p : ProcPtr) (recovering : Bool) (tail : Nat) (l : List Nat) :
    OnCache (Txv6.installTransLoop p recovering tail l) := by
  induction l generalizing tail with
  | nil => trivial
  | cons dst rest ih =>
    exact seq read fun start => seq (bread p _ _) fun lbuf => seq (bread p _ _) fun dbuf =>
      seq read fun bytes => seq (setBufBytes dbuf _) fun _ => seq (bwrite p dbuf) fun _ =>
      seq (Within.when (Within.update fun s => OffLog.setBuf s dbuf _)) fun _ =>
      seq (brelse p lbuf) fun _ => seq (brelse p dbuf) fun _ => ih (tail + 1)

theorem writeHead (p : ProcPtr) : OnCache (Txv6.writeHead p) :=
  seq read fun _ => seq (bread p _ _) fun buf => seq read fun _ => seq (setBufBytes buf _) fun _ =>
    seq (bwrite p buf) fun _ => brelse p buf

end OnCache

/-! ## The calls -/

/-- What may go wrong in a call, and what a process leaves behind then. -/
def SpaceErr (p : ProcPtr) (e : Err) (x : Kernel × Ops) : Prop :=
  (¬ ∃ m ∈ spacePanics, e = .panic m) ∧ (Fatal.fatal e = false → x.2.committer ≠ some p)

/-- Code of `p`, run next to that of the others. -/
abbrev swp {α : Type} (p : ProcPtr) (m : Prog (Kernel × Ops) Err α) (Q : α → Kernel × Ops → Prop)
    (x : Kernel × Ops) : Prop :=
  wp (fun x y => SpaceRely p x y ∧ Space y) (SpaceGuar p) m Q (SpaceErr p) x

/-- What a process knows of its operation. -/
structure Mine (p : ProcPtr) (v : Bool) (l : Finset Nat) (x : Kernel × Ops) : Prop where
  inside : x.2.inside p = v
  logged : x.2.logged p = l
  idle : x.2.committer ≠ some p

variable {v : Bool} {l : Finset Nat}

theorem Mine.stable (hm : Mine p v l x) (hR : SpaceRely p x y) : Mine p v l y :=
  ⟨hR.inside.trans hm.inside, hR.logged.trans hm.logged, fun hc => hm.idle (hR.committer.mp hc)⟩

/-- No transaction is active. -/
theorem swp_txActive (hm : Mine p v l x) :
    swp p (track (Ops.see p) (txActive p)) (fun b y => b = false ∧ Mine p v l y) x := by
  intro y hy _
  have hsee : Ops.see p y.1 y.1 y.2 = y.2 := Ops.see_same rfl rfl
  refine ⟨fun _ => spaceGuar_same rfl (fun _ => rfl) hsee, hy.2.inactive p, ?_⟩
  change Mine p v l (y.1, Ops.see p y.1 y.1 y.2)
  rw [hsee]
  exact hm.stable hy.1

theorem swp_beginOp (hp : p < nproc) (hm : Mine p false l x) :
    swp p (SpaceCall.beginOp.prog p) (fun _ y => y.2.committer ≠ some p) x := by
  unfold SpaceCall.prog Txv6.beginOp
  rw [track_bind]
  refine wp_seq (swp_txActive hm) fun b y hy => ?_
  obtain ⟨hb, hm⟩ := hy
  subst hb
  intro z hz hen
  have hm := hm.stable hz.1
  have hsee : Ops.see p z.1 { z.1 with log := { z.1.log with outstanding := z.1.log.outstanding + 1 } } z.2 =
      z.2.enter p := by
    simp [Ops.see]
  refine ⟨fun _ => ⟨fun hs => ?_, fun j hj => ?_⟩, ?_⟩
  · dsimp only
    rw [hsee]
    exact hs.enter hp hm.inside hen
  · dsimp only
    rw [hsee]
    exact ⟨(enter_other hj).1, (enter_other hj).2, Iff.rfl⟩
  · change Ops.committer (Ops.see _ _ _ _) ≠ _
    rw [hsee]
    exact hm.idle

/-- What `log_write` does when there is room. -/
theorem logWrite_cases (hlen : s.log.lh.length < logblocks) (hout : 1 ≤ s.log.outstanding) :
    s.logWrite b = (.ok (), s) ∧ (s.buf b).blockno ∈ s.log.lh ∨
    s.logWrite b = (.ok (), { s.bpin b with log := { s.log with lh := s.log.lh ++ [(s.buf b).blockno] } }) ∧
      (s.buf b).blockno ∉ s.log.lh := by
  unfold Kernel.logWrite
  rw [if_neg (Nat.not_le_of_lt hlen), if_neg (Int.not_lt.mpr hout)]
  split
  next hmem => exact .inl ⟨rfl, hmem⟩
  next hnew => exact .inr ⟨rfl, hnew⟩

theorem swp_logWrite (b : BufPtr) (hm : Mine p true l x) (hl : l.card < maxopblocks) :
    swp p ((SpaceCall.logWrite b).prog p) (fun _ y => y.2.committer ≠ some p) x := by
  refine wp_seq (swp_txActive hm) fun a y hy => ?_
  obtain ⟨ha, hm⟩ := hy
  subst ha
  intro z hz _
  obtain ⟨hR, hs⟩ := hz
  have hm := hm.stable hR
  have hcard : (z.2.logged p).card < maxopblocks := by
    rw [hm.logged]
    exact hl
  have hrely : ∀ j, j ≠ p → SpaceRely j z ((z.1.logWrite b).2, z.2.wrote p (z.1.buf b).blockno) :=
    fun j hj => ⟨rfl, wrote_other hj, Iff.rfl⟩
  have key : Space ((z.1.logWrite b).2, z.2.wrote p (z.1.buf b).blockno) ∧ (z.1.logWrite b).1 = .ok () := by
    rcases logWrite_cases (b := b) (hs.length_lt hm.inside hcard) (hs.outstanding_pos hm.inside) with
      ⟨he, hmem⟩ | ⟨he, hnew⟩
    · rw [he]
      exact ⟨hs.absorb hmem, rfl⟩
    · rw [he]
      exact ⟨hs.append hm.inside hcard hnew, rfl⟩
  dsimp only
  rw [key.2]
  exact ⟨fun _ => ⟨fun _ => key.1, hrely⟩, hm.idle⟩

/-- The process in `commit`. -/
def Commits (p : ProcPtr) (x : Kernel × Ops) : Prop := x.2.committer = some p

theorem Commits.committing (hc : Commits p x) (hs : Space x) : x.1.log.committing = true := by
  have h := hs.committer
  rw [hc] at h
  exact h.symm

theorem swp_onCache {m : K α} (hm : OnCache m) (hc : Commits p x) :
    swp p (track (Ops.see p) m) (fun _ => Commits p) x := by
  refine wp_of_within (fun e y he hf => ?_) (fun y z hR hc => hR.1.committer.mpr hc) (fun y z w _ hstep hc => ?_)
    hm.track hc
  · obtain ⟨m, hm, rfl⟩ := he
    refine ⟨?_, fun hn => (nomatch hn)⟩
    rintro ⟨m', hm', he⟩
    cases he
    exact cacheError_not_space m hm hm'
  · obtain ⟨hoff, hops⟩ := hstep
    have hops : w.2 = z.2 := hops.trans (Ops.see_same (by rw [hoff.log]) (by rw [hoff.log]))
    refine ⟨spaceGuar_same hoff.log hoff.active hops, ?_⟩
    unfold Commits
    rw [hops]
    exact hc

theorem swp_setLh (hc : Commits p x) : swp p (track (Ops.see p) (setLh [])) (fun _ => Commits p) x := by
  intro y hy _
  have hc : Commits p y := hy.1.committer.mpr hc
  have hsee : Ops.see p y.1 { y.1 with log := { y.1.log with lh := [] } } y.2 = y.2 := Ops.see_same rfl rfl
  refine ⟨fun _ => ⟨fun hs => ?_, fun j _ => .of_ops hsee j⟩, ?_⟩
  · dsimp only
    rw [hsee]
    exact hs.clear (hc.committing hs)
  · unfold Commits
    dsimp only
    rw [hsee]
    exact hc

theorem swp_commit (hc : Commits p x) : swp p (track (Ops.see p) (commit p)) (fun _ => Commits p) x := by
  unfold commit
  rw [track_bind]
  refine wp_seq (swp_onCache OnCache.read hc) fun b y hy => ?_
  cases b with
  | false => exact hy
  | true =>
    unfold writeLog installTrans
    simp only [if_true, track_bind]
    refine wp_seq (wp_seq (swp_onCache OnCache.read hy) fun lh z hz => swp_onCache (.writeLogLoop p 0 lh) hz)
      fun _ y hy => wp_seq (swp_onCache (.writeHead p) hy) fun _ y hy => ?_
    refine wp_seq (wp_seq (swp_onCache OnCache.read hy) fun lh z hz =>
      swp_onCache (.installTransLoop p false 0 lh) hz) fun _ y hy => ?_
    exact wp_seq (swp_setLh hy) fun _ y hy => swp_onCache (.writeHead p) hy

/-- The first critical section of `end_op`, in an operation. -/
theorem swp_endOp_count (hm : Mine p true l x) :
    swp p (track (Ops.see p) (atomOrPanic Kernel.endOp))
      (fun b y => if b then Commits p y else y.2.committer ≠ some p) x := by
  intro z hz _
  obtain ⟨hR, hs⟩ := hz
  have hm := hm.stable hR
  have hc : z.1.log.committing = false := hs.not_committing hm.inside
  have hlt : z.1.log.outstanding - 1 < z.1.log.outstanding := by omega
  have hnlt : ¬ z.1.log.outstanding < z.1.log.outstanding - 1 := by omega
  by_cases hlast : z.1.log.outstanding - 1 = 0
  · -- the last operation commits
    have he : z.1.endOp = (.ok true, { z.1 with log := { z.1.log with
        outstanding := z.1.log.outstanding - 1, committing := true } }) := by
      simp [Kernel.endOp, hc, hlast]
    have hsee : Ops.see p z.1 z.1.endOp.2 z.2 = { z.2.leave p with committer := some p } := by
      rw [he]
      unfold Ops.see
      dsimp only
      rw [if_neg hnlt, if_pos hlt, hc]
      rfl
    have hfree : z.2.committer = none := by
      have := hs.committer
      rw [hc] at this
      exact Option.isNone_iff_eq_none.mp (by simpa using this)
    dsimp only
    rw [hsee, he]
    refine ⟨fun _ => ⟨fun _ => hs.leave hm.inside (fun _ => hlast) rfl, fun j hj => ?_⟩, rfl⟩
    refine ⟨leave_other hj, rfl, ?_⟩
    rw [hfree]
    exact ⟨fun e => absurd (Option.some.inj e).symm hj, fun e => nomatch e⟩
  · have he : z.1.endOp = (.ok false, { z.1 with log := { z.1.log with
        outstanding := z.1.log.outstanding - 1 } }) := by
      simp [Kernel.endOp, hc, hlast]
    have hsee : Ops.see p z.1 z.1.endOp.2 z.2 = z.2.leave p := by
      rw [he]
      unfold Ops.see
      dsimp only
      rw [if_neg hnlt, if_pos hlt, if_pos rfl]
    dsimp only
    rw [hsee, he]
    refine ⟨fun _ => ⟨fun _ => ?_, fun j hj => ⟨leave_other hj, rfl, Iff.rfl⟩⟩, hm.idle⟩
    exact hs.leave (c := z.1.log.committing) (o := z.2.committer) hm.inside
      (fun ht => absurd (hc.symm.trans ht) Bool.false_ne_true) hs.committer

theorem swp_endOp (hm : Mine p true l x) :
    swp p (SpaceCall.endOp.prog p) (fun _ y => y.2.committer ≠ some p) x := by
  unfold SpaceCall.prog Txv6.endOp
  rw [track_bind]
  refine wp_seq (swp_txActive hm) fun b y hy => ?_
  obtain ⟨hb, hm⟩ := hy
  subst hb
  simp only [Bool.false_eq_true, if_false, track_bind]
  refine wp_seq (swp_endOp_count hm) fun b y hy => ?_
  cases b with
  | false => exact hy
  | true =>
    simp only [if_true, track_bind]
    refine wp_seq (swp_commit hy) fun _ y hy z hz _ => ?_
    have hcz : Commits p z := hz.1.committer.mpr hy
    have hsee : Ops.see p z.1 { z.1 with log := { z.1.log with committing := false } } z.2 =
        { z.2 with committer := none } := by
      have hc := hcz.committing hz.2
      simp [Ops.see, hc]
    dsimp only
    rw [hsee]
    refine ⟨fun _ => ⟨fun hs => hs.finish, fun j hj => ⟨rfl, rfl, ?_⟩⟩, fun e => nomatch e⟩
    rw [hcz]
    exact ⟨fun e => (nomatch e), fun e => absurd (Option.some.inj e).symm hj⟩

/-! ## Runs -/

def spaceJudged : spaceSystem.Judged Reserved where
  R := SpaceRely
  G := SpaceGuar
  I := fun p x => x.2.committer ≠ some p
  Tot := Space
  C := Space
  bad := fun e => ∃ m ∈ spacePanics, e = .panic m
  refl := SpaceRely.refl
  trans := SpaceRely.trans
  stable := fun hR hI hc => hI (hR.committer.mp hc)
  call := by
    intro p k x hP hp _ hI
    cases k with
    | beginOp => exact swp_beginOp hp ⟨hP, rfl, hI⟩
    | logWrite b => exact swp_logWrite b ⟨hP.1, rfl, hI⟩ hP.2
    | endOp => exact swp_endOp ⟨hP, rfl, hI⟩
  act := fun _ h => h
  user := by
    intro p x y hu hI
    refine ⟨spaceGuar_same hu.1 hu.2.1 hu.2.2, ?_⟩
    rw [hu.2.2]
    exact hI
  step := fun hT hG => ⟨hG.1 hT, hG.2⟩

theorem space_start (hlog : s.log = {}) (htx : ∀ p, s.txActive p = false) : Space (s, {}) := by
  refine ⟨htx, fun _ _ => rfl, ?_, ?_, ?_, ?_, fun _ hp => (nomatch hp), ?_⟩
  all_goals
    dsimp only
    rw [hlog]
  · simp [Ops.count]
  · exact fun hc => nomatch hc
  · rfl
  · simp [Ops.reserved, Ops.reserve]
  · exact List.nodup_nil

/-- **The log has room.** In every run of any number of processes in which no operation calls
`log_write` once it has logged `MAXOPBLOCKS` different blocks, the log holds at most `LOGBLOCKS`
different blocks, and neither a panic of `log_write` nor that of `end_op` is the next step of a
process. -/
theorem log_has_room {c : SpaceSys} (hlog : s.log = {}) (htx : ∀ p, s.txActive p = false)
    (hr : spaceSystem.Run Reserved ⟨(s, {}), fun _ => none⟩ c) :
    c.state.1.log.lh.length ≤ logblocks ∧ c.state.1.log.lh.Nodup ∧
    ∀ p en upd next m, c.run p = some (.act en upd next) → en c.state = true →
      next c.state = .fail (.panic m) → m ∉ spacePanics := by
  have hidle : ∀ p, (⟨(s, {}), fun _ => none⟩ : SpaceSys).run p = none := fun _ => rfl
  have hI : ∀ p, spaceJudged.I p (s, {}) := fun p hc => nomatch hc
  have hs := (spaceJudged.sound hidle hI (space_start hlog htx) hr).1
  refine ⟨Space.length_le hs, Space.nodup hs, fun p en upd next m hrun hen hn hm => ?_⟩
  exact spaceJudged.not_bad hidle hI (space_start hlog htx) hr hs hrun hen hn ⟨m, hm, rfl⟩

/-- A kernel that has blocks 100 to 129 in its cache, all of them in use. -/
def crowded : Kernel :=
  { Image.booted with buf := fun b => { Image.booted.buf b with dev := rootdev, blockno := 100 + b, refcnt := 1 } }

theorem crowded_inactive (p : ProcPtr) : crowded.txActive p = false := Image.booted_inactive p

/-- Calls one after the other, if all of them satisfy a condition. -/
def crowdedCalls (ok : ProcPtr → SpaceCall → Kernel × Ops → Bool) (l : List (ProcPtr × SpaceCall)) :
    Option (Kernel × Ops) :=
  spaceSystem.sequence (fun p k x => decide (p < nproc) && ok p k x) (fun _ _ => true) l (crowded, {})

/-- Two operations log the same block. -/
theorem log_has_room_shared : ∃ c, spaceSystem.Run Reserved ⟨(crowded, {}), fun _ => none⟩ c ∧
    c.state.1.log.lh = [107] ∧ c.state.1.log.lh.length ≤ logblocks := by
  have hval : (crowdedCalls (fun p k x => match k with
      | .beginOp => !x.2.inside p
      | .logWrite _ => x.2.inside p && decide ((x.2.logged p).card < maxopblocks)
      | .endOp => x.2.inside p)
      [(0, .beginOp), (1, .beginOp), (0, .logWrite 7), (1, .logWrite 7), (1, .endOp)]).map (·.1.log.lh) =
      some [107] := by decide +kernel
  obtain ⟨t, ht, hv⟩ := Option.map_eq_some_iff.mp hval
  have hrun : spaceSystem.Run Reserved ⟨(crowded, {}), fun _ => none⟩ ⟨t, fun _ => none⟩ := by
    refine Machine.Run.sequence (fun p k x hok => ?_) (fun _ _ _ _ => trivial) (fun _ _ _ => trivial) ht
    rw [Bool.and_eq_true, decide_eq_true_eq] at hok
    refine ⟨hok.1, ?_⟩
    cases k with
    | beginOp => simpa [Reserved] using hok.2
    | logWrite b => simpa [Reserved] using hok.2
    | endOp => simpa [Reserved] using hok.2
  exact ⟨_, hrun, hv, (log_has_room rfl crowded_inactive hrun).1⟩

/-- Three operations use up their reservations. -/
def crowdedFull : Option (Kernel × Ops) :=
  crowdedCalls (fun p k x => match k with
    | .beginOp => !x.2.inside p
    | .logWrite b => x.2.inside p && decide ((insert (x.1.buf b).blockno (x.2.logged p)).card ≤ maxopblocks)
    | .endOp => x.2.inside p)
    ([(0, .beginOp), (1, .beginOp), (2, .beginOp)] ++
      (List.finRange nbuf).map fun b => (b.val / 10, .logWrite b))

/-- A step that may panic, beside which something is recorded. -/
theorem track_atomOrPanic {τ : Type} (f : Kernel → Kernel → τ → τ) (g : Kernel → Except String α × Kernel) :
    ∃ en upd next, track f (atomOrPanic g) = .act en upd next ∧ (∀ x, en x = true) ∧
      ∀ x m, (g x.1).1 = .error m → next x = .fail (.panic m) := by
  refine ⟨_, _, _, rfl, fun _ => rfl, fun x m hm => ?_⟩
  dsimp only
  rw [hm]
  rfl

/-- The first of them logs one of its ten blocks again. -/
theorem log_again_panics : ∃ c, spaceSystem.Run Modest ⟨(crowded, {}), fun _ => none⟩ c ∧
    ∃ en upd next, c.run 0 = some (.act en upd next) ∧ en c.state = true ∧
      next c.state = .fail (.panic "too big a transaction") := by
  have hval : crowdedFull.map (fun x => (x.1.log.lh.length, x.1.txActive 0, x.2.inside 0,
      decide ((insert (x.1.buf 0).blockno (x.2.logged 0)).card ≤ maxopblocks))) =
      some (30, false, true, true) := by decide +kernel
  obtain ⟨t, ht, hv⟩ := Option.map_eq_some_iff.mp hval
  simp only [Prod.mk.injEq, decide_eq_true_eq] at hv
  obtain ⟨hlen, hact, hin, hcard⟩ := hv
  have hrun : spaceSystem.Run Modest ⟨(crowded, {}), fun _ => none⟩ ⟨t, fun _ => none⟩ := by
    refine Machine.Run.sequence (fun p k x hok => ?_) (fun _ _ _ _ => trivial) (fun _ _ _ => trivial) ht
    rw [Bool.and_eq_true, decide_eq_true_eq] at hok
    refine ⟨hok.1, ?_⟩
    cases k with
    | beginOp => simpa [Modest] using hok.2
    | logWrite b => simpa [Modest] using hok.2
    | endOp => simpa [Modest] using hok.2
  have hcall : spaceSystem.Step (.call 0 (.logWrite 0)) ⟨t, fun _ => none⟩
      ⟨t, Function.update (fun _ => none) 0 (some ((SpaceCall.logWrite 0).prog 0))⟩ :=
    .call rfl (by decide : 0 < nproc)
  have hread : ((track (Ops.see 0) (txActive 0)).run t).1 = some (.ok false) := by
    change some (Except.ok (t.1.txActive 0)) = _
    rw [hact]
  have hstep : spaceSystem.Run Modest
      ⟨t, Function.update (fun _ => none) 0 (some ((SpaceCall.logWrite 0).prog 0))⟩ _ :=
    Machine.Run.part hread rfl fun _ _ => trivial
  have he : t.1.logWrite 0 = (.error "too big a transaction", t.1) := by
    have hfull : logblocks ≤ t.1.log.lh.length := Nat.le_of_eq hlen.symm
    exact if_pos hfull
  -- the process stands before the critical section
  obtain ⟨en, upd, next, hprog, hen, hnext⟩ := track_atomOrPanic
    (fun s _ (h : Ops) => h.wrote 0 (s.buf 0).blockno) fun s => s.logWrite 0
  refine ⟨_, (hrun.tail ⟨_, hcall, hin, hcard⟩).trans hstep, en, upd, next, ?_, hen _, hnext _ _ ?_⟩
  · dsimp only
    rw [update_self, if_neg Bool.false_ne_true, hprog]
  · exact congrArg Prod.fst he

end Txv6
