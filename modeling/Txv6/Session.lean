import Txv6.TxLayer.Results
import Txv6.Image
import Mathlib.Data.List.Basic

/-! # The workset over a transaction

From a `sys_txbegin` on, the workset changes only in the calls of `txshadow` that `idata`, `idata_ro` and
`bdata` make, and an entry that is in it stays as it is until the transaction ends.

`bdata` takes a count of 1 after its own `bpin` as the sign of a block that has just been allocated. A buffer
from `bread` has a count of at least 2 then, unless a reference to it has been dropped twice. After a conflict
this happens: `tx_abort_now` runs the abort functions, and `sys_txabort` runs them once more.
-/
namespace Txv6
open Lib Relation

/-- A call and what `txshadow` returned. A call of `bdata` that makes an entry has the reference count by
which it sets the flag. -/
inductive Access where
  | inode (ip : InodePtr) (shadow : Option Page)
  | buf (b : BufPtr) (shadow : Page) (refcnt : Option Int)

namespace Access

def header : Access → Header
  | inode ip _ => .inode ip
  | buf b _ _ => .buf b

def shadow : Access → Option Page
  | inode _ o => o
  | buf _ pg _ => some pg

def refcnt : Access → Option Int
  | inode _ _ => none
  | buf _ _ n => n

end Access

/-- The calls of a transaction up to now, the last one first, and the state. -/
structure Session where
  calls : List Access := []
  state : Kernel

/-- A step that leaves the transaction `a` of process `p` alone. -/
structure Aside (p : ProcPtr) (a : Page) (s t : Kernel) : Prop where
  ptr : (t.proc p).tx = (s.proc p).tx
  tx : t.tx a = s.tx a

/-- The count that the third step of `bdata` finds. -/
def markCount (b : BufPtr) : List (Kernel × Kernel) → Option Int
  | [_, _, (s, _)] => some (s.buf b).refcnt
  | _ => none

namespace Session

def workset (x : Session) (a : Page) : List WorksetEntry := (x.state.tx a).workset

inductive Step (p : ProcPtr) (a : Page) : Session → Session → Prop
  /-- Other processes, and other code of this one. -/
  | aside {l s t} : Aside p a s t → Step p a ⟨l, s⟩ ⟨l, t⟩
  /-- `idata` and `idata_ro`, granted or refused. -/
  | inode {l s t ip readOnly o} : s.txdata p (.inode ip) readOnly = (.ok o, t) →
      Step p a ⟨l, s⟩ ⟨.inode ip o :: l, t⟩
  /-- `bdata` on a buffer from `bread`, with anything else in between. -/
  | buf {l s t b path pg} : s.holdingsleep p (.buf b) = true →
      Prog.Path (Aside p a) (bdata p b) s path (.ok pg) t →
      Step p a ⟨l, s⟩ ⟨.buf b pg (markCount b path) :: l, t⟩

variable {p : ProcPtr} {a pg : Page} {s t : Kernel} {x y : Session} {l : List Access} {ws ws' : List WorksetEntry}
  {e : WorksetEntry} {c : Access} {h : Header} {o : Option Page}

/-- The entries are what the calls have returned. -/
structure Inv (l : List Access) (ws : List WorksetEntry) : Prop where
  sorted : WsSorted ws
  room : ws.length ≤ maxWorkset
  entry : ∀ h pg, (∃ c ∈ l, c.header = h ∧ c.shadow = some pg) ↔ ∃ e ∈ ws, e.header = h ∧ e.shadowData = pg
  same : l.Pairwise fun later c => later.header = c.header → c.shadow ≠ none → later.shadow = c.shadow
  flag : ∀ e ∈ ws, e.newlyAllocated = true ↔ ∃ c ∈ l, c.header = e.header ∧ c.refcnt = some 1

namespace Inv

theorem inWorkset (hx : Inv l ws) (hc : c ∈ l) (hs : c.shadow ≠ none) : InWorkset ws c.header := by
  obtain ⟨pg, hpg⟩ := Option.ne_none_iff_exists'.mp hs
  obtain ⟨e, he, heq, _⟩ := (hx.entry _ pg).mp ⟨c, hc, rfl, hpg⟩
  exact ⟨e, he, heq⟩

/-- A call that makes no entry. -/
theorem again (hx : Inv l ws) (hr : c.refcnt = none)
    (hc : ∀ pg, c.shadow = some pg ↔ ∃ e ∈ ws, e.header = c.header ∧ e.shadowData = pg) : Inv (c :: l) ws where
  sorted := hx.sorted
  room := hx.room
  entry h pg := by
    rw [← hx.entry, List.exists_mem_cons_iff]
    refine or_iff_right_of_imp ?_
    rintro ⟨rfl, hs⟩
    exact (hx.entry _ pg).mpr ((hc pg).mp hs)
  same := by
    refine List.pairwise_cons.mpr ⟨fun c' hc' heq hs => ?_, hx.same⟩
    obtain ⟨pg, hpg⟩ := Option.ne_none_iff_exists'.mp hs
    rw [hpg, hc, heq]
    exact (hx.entry _ pg).mp ⟨c', hc', rfl, hpg⟩
  flag e he := by
    rw [hx.flag e he]
    simp [hr]

/-- A call that makes the entry `e`. -/
theorem grow (hx : Inv l ws) (hmem : ∀ e', e' ∈ ws' ↔ e' = e ∨ e' ∈ ws) (hsorted : WsSorted ws')
    (hlen : ws'.length = ws.length + 1) (hroom : ws.length < maxWorkset) (hfresh : ¬ InWorkset ws e.header)
    (hh : c.header = e.header) (hs : c.shadow = some e.shadowData)
    (hr : e.newlyAllocated = true ↔ c.refcnt = some 1) : Inv (c :: l) ws' where
  sorted := hsorted
  room := hlen ▸ hroom
  entry h pg := by
    simp only [List.exists_mem_cons_iff, hmem, or_and_right, exists_or, exists_eq_left, hx.entry, hh, hs,
      Option.some.injEq]
  same := by
    refine List.pairwise_cons.mpr ⟨fun c' hc' heq hs' => absurd ?_ hfresh, hx.same⟩
    rw [← hh, heq]
    exact hx.inWorkset hc' hs'
  flag e' he' := by
    have hold : ∀ c' ∈ l, c'.refcnt = some 1 → c'.header ≠ e.header := by
      intro c' hc' hone heq
      cases c' with
      | inode => cases hone
      | buf => exact hfresh (heq ▸ hx.inWorkset hc' (Option.some_ne_none _))
    rw [List.exists_mem_cons_iff]
    rcases (hmem e').mp he' with rfl | hin
    · rw [hr, hh]
      constructor
      · exact fun hone => .inl ⟨rfl, hone⟩
      · rintro (⟨_, hone⟩ | ⟨c', hc', heq, hone⟩)
        · exact hone
        · exact absurd heq (hold c' hc' hone)
    · rw [hx.flag e' hin, hh]
      exact (or_iff_right fun hone => hfresh ⟨e', hin, hone.1.symm⟩).symm

end Inv

/-! ## Steps -/

/-- The transaction has begun and has not ended. -/
structure Open (p : ProcPtr) (a : Page) (x : Session) : Prop where
  ptr : (x.state.proc p).tx = some a
  active : (x.state.tx a).status = .active
  inv : Inv x.calls (x.workset a)

namespace Open

section
variable (hx : Open p a x)
include hx

theorem aside (hs : Aside p a x.state t) : Open p a ⟨x.calls, t⟩ := by
  refine ⟨hs.ptr.trans hx.ptr, ?_, ?_⟩
  · rw [hs.tx, hx.active]
  · rw [workset, hs.tx]
    exact hx.inv

/-- `txshadow` finds an entry or refuses, and leaves all as it is; or it makes an entry. -/
theorem txshadow {ro : Bool} (ht : x.state.txshadow a h ro = (.ok o, t)) :
    (t = x.state ∧ ∀ pg, o = some pg ↔ ∃ e ∈ x.workset a, e.header = h ∧ e.shadowData = pg) ∨
    ∃ pg, o = some pg ∧ ¬ InWorkset (x.workset a) h ∧ (x.workset a).length < maxWorkset ∧
      (t.proc p).tx = some a ∧
      t.tx a = { x.state.tx a with workset := insertEntry (x.workset a) ⟨h, pg, ro, false⟩ } := by
  have hsorted := hx.inv.sorted
  have hres := txshadow_result x.state a h ro
  rw [ht] at hres
  cases hres with
  | found he heq =>
    refine .inl ⟨rfl, fun pg => ⟨fun hpg => ⟨_, he, heq, Option.some.inj hpg⟩, ?_⟩⟩
    rintro ⟨e', he', heq', rfl⟩
    rw [wsSorted_unique hsorted he he' (heq.trans heq'.symm)]
  | refused hn _ =>
    refine .inl ⟨rfl, fun pg => ⟨nofun, ?_⟩⟩
    rintro ⟨e, he, heq, _⟩
    exact absurd ⟨e, he, heq⟩ ((findWorksetEntry_eq_none hsorted).mp hn)
  | granted hm hf hd =>
    obtain ⟨hptr, hproc, _, _, hfresh⟩ := grantShadow_result ro hx.ptr hsorted hm hf hd
    refine .inr ⟨_, rfl, hfresh, hm.room, hproc ▸ hptr, ?_⟩
    simp [Kernel.grantShadow, Kernel.setTx, Kernel.setPage, workset]

theorem inode {ip : InodePtr} {ro : Bool} (ht : x.state.txdata p (.inode ip) ro = (.ok o, t)) :
    Open p a ⟨.inode ip o :: x.calls, t⟩ ∧ ∀ e ∈ x.workset a, e ∈ (t.tx a).workset := by
  unfold Kernel.txdata at ht
  rw [hx.ptr] at ht
  dsimp only at ht
  rw [if_pos hx.active] at ht
  rcases hx.txshadow ht with ⟨rfl, ho⟩ | ⟨pg, rfl, hfresh, hroom, hptr, htx⟩
  · exact ⟨⟨hx.ptr, hx.active, hx.inv.again rfl ho⟩, fun _ he => he⟩
  · refine ⟨⟨hptr, ?_, ?_⟩, fun e he => ?_⟩
    · rw [htx, hx.active]
    · rw [workset, htx]
      exact hx.inv.grow (fun _ => mem_insertEntry) (insertEntry_sorted hx.inv.sorted hfresh)
        (insertEntry_perm ..).length_eq hroom hfresh rfl rfl (by simp [Access.refcnt])
    · rw [htx]
      exact mem_insertEntry.mpr (.inr he)

/-- The third step of `bdata`, after it has made an entry. -/
theorem mark {b : BufPtr} (hfresh : ¬ InWorkset (x.workset a) (.buf b))
    (hroom : (x.workset a).length < maxWorkset) (hptr : (s.proc p).tx = some a)
    (htx : s.tx a = { x.state.tx a with workset := insertEntry (x.workset a) ⟨.buf b, pg, false, false⟩ }) :
    Open p a ⟨.buf b pg (some (s.buf b).refcnt) :: x.calls, s.markNew p b⟩ ∧
      ∀ e ∈ x.workset a, e ∈ ((s.markNew p b).tx a).workset := by
  have hws : (s.tx a).workset = insertEntry (x.workset a) ⟨.buf b, pg, false, false⟩ := by rw [htx]
  have hsorted := insertEntry_sorted (e := ⟨.buf b, pg, false, false⟩) hx.inv.sorted hfresh
  have hnew : ⟨.buf b, pg, false, false⟩ ∈ (s.tx a).workset := hws ▸ mem_insertEntry.mpr (.inl rfl)
  rw [← hws] at hsorted
  obtain ⟨i, hi⟩ := Option.ne_none_iff_exists'.mp fun hn =>
    (findWorksetEntry_eq_none (h := .buf b) hsorted).mp hn ⟨_, hnew, rfl⟩
  obtain ⟨e, he, heq⟩ := findWorksetEntry_some hi
  obtain rfl := wsSorted_unique hsorted (List.mem_of_getElem? he) hnew heq
  have hmark : s.markNew p b = s.setTx a fun x => { x with
      workset := x.workset.modify i fun e => { e with newlyAllocated := decide ((s.buf b).refcnt = 1) } } := by
    unfold Kernel.markNew
    rw [hptr]
    dsimp only
    rw [hi]
  have hnews : ((s.markNew p b).tx a).workset = (s.tx a).workset.modify i fun e =>
      { e with newlyAllocated := decide ((s.buf b).refcnt = 1) } := by
    rw [hmark]
    simp [Kernel.setTx]
  have hmem : ∀ e', e' ∈ ((s.markNew p b).tx a).workset ↔
      e' = ⟨.buf b, pg, false, decide ((s.buf b).refcnt = 1)⟩ ∨ e' ∈ x.workset a := by
    intro e'
    rw [hnews, mem_modify hsorted he, hws, mem_insertEntry]
    refine or_congr_right ⟨fun hin => hin.1.resolve_left fun e => hin.2 (e ▸ rfl), fun hin => ⟨.inr hin, ?_⟩⟩
    exact fun hh => hfresh ⟨e', hin, hh⟩
  refine ⟨⟨?_, ?_, hx.inv.grow hmem ?_ ?_ hroom hfresh rfl rfl (by simp [Access.refcnt])⟩,
    fun e' he' => (hmem e').mpr (.inr he')⟩
  · rw [hmark]
    exact hptr
  · rw [hmark]
    simp [Kernel.setTx, htx, hx.active]
  · rw [workset, hnews, wsSorted_mark]
    exact hsorted
  · rw [workset, hnews, List.length_modify, hws]
    exact (insertEntry_perm ..).length_eq

theorem buf {b : BufPtr} {path : List (Kernel × Kernel)}
    (hpath : Prog.Path (Aside p a) (bdata p b) x.state path (.ok pg) t) :
    Open p a ⟨.buf b pg (markCount b path) :: x.calls, t⟩ ∧ ∀ e ∈ x.workset a, e ∈ (t.tx a).workset := by
  cases hpath with
  | @act _ _ _ _ u _ _ _ hu _ hrest =>
  have hxu := hx.aside hu
  have hw : x.workset a = (u.tx a).workset := congrArg Transaction.workset hu.tx.symm
  have hptr : (u.proc p).tx = some a := hxu.ptr
  have hact : (u.tx a).status = .active := hxu.active
  rw [hw]
  simp only [Kernel.bdataShadow, hptr, hact, if_true] at hrest
  cases hts : u.txshadow a (.buf b) false with
  | mk r v =>
  rw [hts] at hrest
  cases r with
  | error m => cases hrest
  | ok o =>
  cases o with
  | none => cases hrest
  | some pg' =>
  dsimp only at hrest
  rcases hxu.txshadow hts with ⟨rfl, ho⟩ | ⟨_, ⟨⟩, hfresh, hroom, hptr, htx⟩
  · rw [decide_eq_false (Nat.lt_irrefl _)] at hrest
    cases hrest
    exact ⟨⟨hxu.ptr, hxu.active, hxu.inv.again rfl ho⟩, fun _ he => he⟩
  · have hgrown : (u.tx a).workset.length < (v.tx a).workset.length := by
      rw [htx, (insertEntry_perm ..).length_eq]
      exact Nat.lt_succ_self _
    rw [decide_eq_true hgrown] at hrest
    cases hrest with
    | act h₁ _ hrest =>
    cases hrest with
    | act h₂ _ hrest =>
    cases hrest
    exact hxu.mark hfresh hroom ((h₂.ptr.trans h₁.ptr).trans hptr) ((h₂.tx.trans h₁.tx).trans htx)

theorem step (hs : Step p a x y) : Open p a y ∧ ∀ e ∈ x.workset a, e ∈ y.workset a := by
  cases hs with
  | aside h => exact ⟨hx.aside h, fun e he => by rwa [workset, h.tx]⟩
  | inode ht => exact hx.inode ht
  | buf _ hpath => exact hx.buf hpath

theorem run (hr : ReflTransGen (Step p a) x y) :
    Open p a y ∧ ∀ e ∈ x.workset a, e ∈ y.workset a := by
  induction hr with
  | refl => exact ⟨hx, fun _ he => he⟩
  | tail _ hs ih =>
    obtain ⟨hy, hkept⟩ := ih.1.step hs
    exact ⟨hy, fun e he => hkept e (ih.2 e he)⟩
end

theorem begin (ha : (s.proc p).tx = some a) (hb : s.txbegin p = (.ok 0, t)) : Open p a ⟨[], t⟩ := by
  obtain ⟨a', pg, hres⟩ := txbegin_result hb
  obtain rfl := Option.some.inj (hres.ptr.symm.trans ha)
  refine ⟨?_, ?_, ?_⟩
  · rw [hres.proc, hres.ptr]
  · rw [hres.own]
  · rw [workset, hres.own]
    exact ⟨.nil, Nat.zero_le _, by simp, .nil, nofun⟩

end Open

deriving instance DecidableEq for Transaction

end Session
end Txv6
