import Txv6.Deadlock.Waits
import Txv6.Locks
import Txv6.TxLayer.Results
import Mathlib.Data.Fintype.Basic

/-! # What a process holds and asks for

The account of a process in the lock order argument: the locks it holds, the lock that its
next `acquiresleep` is about, and the buffers it has got from `bget` and not given back.
-/
namespace Txv6
open Lib Lib.Prog
open Kernel (holdingsleep)

variable {b : BufPtr} {y : Header} {u : Kernel} {c : Kernel → Bool} {l : Sleeplock} {m : String}
  {f : Transaction → Transaction} {α : Type} {Q : α → Kernel × Held → Prop}

structure Held where
  locks : Finset Header := ∅
  asked : Option Header := none
  refs : Finset BufPtr := ∅

/-- What may be asked for: the inodes of a workset in the order of their addresses, and a
buffer with at most one other buffer in hand, both of them counted. -/
def Held.MayAsk (g : Held) : Header → Prop
  | .inode ip => ∀ h ∈ g.locks, ∃ ip' < ip, h = .inode ip'
  | .buf b => ∀ x, .buf x ∈ g.locks →
      (∀ y, .buf y ∈ g.locks → y = x) ∧ x ∈ g.refs ∧ b ∈ g.refs

/-- One reference that a process may have to a buffer. -/
def Held.uses (g : Held) (b : BufPtr) : Int := if b ∈ g.refs then 1 else 0

/-- The condition that an `acquiresleep` of a lock waits for. -/
def lockFree (h : Header) (s : Kernel) : Bool := !(s.lock h).locked

/-- A step that waits for a lock has been asked for. -/
def Held.Asks (g : Held) (en : Kernel → Bool) : Prop :=
  ∀ h, en = lockFree h → g.asked = some h ∧ g.MayAsk h

/-- What a process may count on: its slot, its transaction and its locks are its own. -/
def HeldRely (p : ProcPtr) (s t : Kernel) : Prop :=
  Rely p s t ∧ (t.proc p).state = (s.proc p).state

/-- What a process does: it keeps its account, and pays for its references to buffers. A
buffer gets another block only while it has no reference. -/
structure HeldGuar (p : ProcPtr) (x y : Kernel × Held) : Prop where
  ready : lockSystem.ready p x.1
  other : Guar p x.1 y.1
  pid : ∀ q, (y.1.proc q).pid = (x.1.proc q).pid
  txPtr : ∀ q, (y.1.proc q).tx = (x.1.proc q).tx
  state : ∀ q, (y.1.proc q).state = (x.1.proc q).state
  sb : y.1.sb = x.1.sb
  holds : ∀ h, y.1.holdingsleep p h = true ↔ h ∈ y.2.locks
  block : ∀ b, (y.1.buf b).blockno = (x.1.buf b).blockno ∨ (x.1.buf b).refcnt = 0
  refs : ∀ b, (x.1.buf b).refcnt + y.2.uses b ≤ (y.1.buf b).refcnt + x.2.uses b

/-- The account of process `p`: it holds the locks `L`, asks for `a` and has the buffers `F`.
Where `v` is given, it is the transaction of `p`. -/
structure HeldInv (p : ProcPtr) (v : Option Transaction) (L : Finset Header) (a : Option Header)
    (F : Finset BufPtr) (x : Kernel × Held) : Prop where
  ready : lockSystem.ready p x.1
  account : x.2 = ⟨L, a, F⟩
  holds : ∀ h, x.1.holdingsleep p h = true ↔ h ∈ L
  sorted : WsSorted (x.1.txOf p).workset
  known : ∀ r, v = some r → x.1.txOf p = r

abbrev heldWp (p : ProcPtr) {α : Type} (m : K α) (Q : α → Kernel × Held → Prop)
    (x : Kernel × Held) : Prop :=
  gwp Held.Asks (fun _ s t => HeldRely p s t ∧ t.Unrefused) (HeldGuar p) m Q
    (fun e _ => ∃ msg, e = .panic msg) x

/-- Most steps wait for nothing. -/
theorem Held.asks_true (s : Kernel) (g : Held) : g.Asks fun _ => true := by
  intro h he
  have hfree := congrFun he (s.setLock ⟨true, 0⟩ h)
  simp [lockFree, lock_setLock] at hfree

theorem lockFree_inj (s : Kernel) {h h' : Header} (e : lockFree h = lockFree h') : h = h' := by
  by_contra hne
  have hfree := congrFun e ((s.setLock ⟨true, 0⟩ h).setLock ⟨false, 0⟩ h')
  simp [lockFree, lock_setLock, hne] at hfree

/-! ## Steps that touch neither locks nor references -/

/-- The step changes no lock, and of the transactions at most that of `p`. -/
structure OwnStep (p : ProcPtr) (s t : Kernel) : Prop where
  pid : ∀ q, (t.proc q).pid = (s.proc q).pid
  txPtr : ∀ q, (t.proc q).tx = (s.proc q).tx
  state : ∀ q, (t.proc q).state = (s.proc q).state
  sb : t.sb = s.sb
  tx : ∀ a, (s.proc p).tx ≠ some a → t.tx a = s.tx a
  sorted : WsSorted (s.txOf p).workset → WsSorted (t.txOf p).workset
  lock : ∀ h, t.lock h = s.lock h
  block : ∀ b, (t.buf b).blockno = (s.buf b).blockno
  refcnt : ∀ b, (s.buf b).refcnt ≤ (t.buf b).refcnt

theorem Rely.txOf {p : ProcPtr} {s t : Kernel} (h : Rely p s t) : t.txOf p = s.txOf p := by
  unfold Kernel.txOf
  rw [h.txPtr]
  cases ha : (s.proc p).tx with
  | none => rfl
  | some a => exact h.tx a ha

theorem txActive_iff_status {p : ProcPtr} {s : Kernel} :
    s.txActive p = true ↔ (s.txOf p).status = .active := by
  unfold Kernel.txActive Kernel.txOf
  cases (s.proc p).tx with
  | none => simp
  | some a => simp

namespace OwnStep
variable {p : ProcPtr} {s t : Kernel}

theorem trans (h : OwnStep p s t) (h' : OwnStep p t u) : OwnStep p s u where
  pid q := (h'.pid q).trans (h.pid q)
  txPtr q := (h'.txPtr q).trans (h.txPtr q)
  state q := (h'.state q).trans (h.state q)
  sb := h'.sb.trans h.sb
  tx a ha := (h'.tx a (by rwa [h.txPtr])).trans (h.tx a ha)
  sorted hs := h'.sorted (h.sorted hs)
  lock x := (h'.lock x).trans (h.lock x)
  block b := (h'.block b).trans (h.block b)
  refcnt b := (h.refcnt b).trans (h'.refcnt b)

end OwnStep

/-- The step changes no transaction either. -/
structure TameStep (p : ProcPtr) (s t : Kernel) : Prop extends OwnStep p s t where
  same : t.txOf p = s.txOf p

namespace TameStep
variable {p : ProcPtr} {s t : Kernel}

theorem of_quiet (h : Quiet s t) (hstate : ∀ q, (t.proc q).state = (s.proc q).state)
    (hsb : t.sb = s.sb) (hbuf : t.buf = s.buf) : TameStep p s t where
  pid := h.pid
  txPtr := h.txPtr
  state := hstate
  sb := hsb
  tx _ _ := by rw [h.tx]
  sorted hs := by rwa [(h.rely p).txOf]
  lock := h.lock
  block b := by rw [hbuf]
  refcnt b := by rw [hbuf]
  same := (h.rely p).txOf

theorem refl (p : ProcPtr) (s : Kernel) : TameStep p s s :=
  of_quiet (Quiet.refl s) (fun _ => rfl) rfl rfl

theorem setPage (s : Kernel) (pg : Page) (f : PageData → PageData) : TameStep p s (s.setPage pg f) :=
  of_quiet (Quiet.setPage s pg f) (fun _ => rfl) rfl rfl

theorem setInode {ip : InodePtr} {f : Inode → Inode}
    (hf : (f (s.inode ip)).lock = (s.inode ip).lock) : TameStep p s (s.setInode ip f) :=
  of_quiet (Quiet.setInode hf) (fun _ => rfl) rfl rfl

theorem setBuf {f : Buf → Buf} (hl : (f (s.buf b)).lock = (s.buf b).lock)
    (hb : (f (s.buf b)).blockno = (s.buf b).blockno)
    (hr : (s.buf b).refcnt ≤ (f (s.buf b)).refcnt) : TameStep p s (s.setBuf b f) where
  pid _ := rfl
  txPtr _ := rfl
  state _ := rfl
  sb := rfl
  tx _ _ := rfl
  sorted := id
  lock := lock_setBuf hl
  block x := by
    by_cases e : x = b
    · subst e; simpa [Kernel.setBuf] using hb
    · simp [Kernel.setBuf, Function.update, e]
  refcnt x := by
    by_cases e : x = b
    · subst e; simpa [Kernel.setBuf] using hr
    · simp [Kernel.setBuf, Function.update, e]
  same := rfl

theorem setProc {q : ProcPtr} {f : Proc → Proc} (hpid : (f (s.proc q)).pid = (s.proc q).pid)
    (htx : (f (s.proc q)).tx = (s.proc q).tx) (hst : (f (s.proc q)).state = (s.proc q).state) :
    TameStep p s (s.setProc q f) := by
  refine of_quiet (Quiet.setProc hpid htx) (fun r => ?_) rfl rfl
  by_cases e : r = q
  · subst e; simp [Kernel.setProc, hst]
  · simp [Kernel.setProc, Function.update, e]

theorem kfree (s : Kernel) (pg : Page) : TameStep p s (s.kfree pg) :=
  of_quiet (Quiet.kfree s pg) (fun _ => rfl) rfl rfl

theorem trans (h : TameStep p s t) (h' : TameStep p t u) : TameStep p s u :=
  ⟨h.toOwnStep.trans h'.toOwnStep, h'.same.trans h.same⟩

theorem setWriter (s : Kernel) (w : Option Page) (h : Header) : TameStep p s (s.setWriter w h) := by
  cases h with
  | buf b => exact setBuf (f := fun x => { x with writer := w }) rfl rfl le_rfl
  | inode ip => exact setInode (f := fun x => { x with writer := w }) rfl

theorem freelist (s : Kernel) (l : List Page) : TameStep p s { s with freelist := l } :=
  of_quiet (Quiet.rest s _ _ _ _ _ _) (fun _ => rfl) rfl rfl

theorem kalloc (s : Kernel) : TameStep p s s.kalloc.2 := by
  unfold Kernel.kalloc
  split
  · exact refl p s
  · exact (setPage s _ _).trans (freelist _ _)

theorem iget (s : Kernel) (dev inum : Nat) : TameStep p s (s.iget dev inum).2 := by
  have h : (s.iget dev inum).2.proc = s.proc ∧ (s.iget dev inum).2.sb = s.sb ∧ (s.iget dev inum).2.buf = s.buf := by
    unfold Kernel.iget Kernel.kalloc
    split
    · exact ⟨rfl, rfl, rfl⟩
    split
    · exact ⟨rfl, rfl, rfl⟩
    dsimp only
    split
    · exact ⟨rfl, rfl, rfl⟩
    cases (s.setInode _ _).freelist <;> exact ⟨rfl, rfl, rfl⟩
  exact of_quiet (.iget s dev inum) (fun q => by rw [h.1]) h.2.1 h.2.2

end TameStep

namespace OwnStep
variable {p : ProcPtr} {s t : Kernel}

/-- A change of the own transaction that keeps its workset sorted. -/
theorem setTx {a : Page} (ha : (s.proc p).tx = some a)
    (hf : WsSorted (s.tx a).workset → WsSorted (f (s.tx a)).workset) :
    OwnStep p s (s.setTx a f) where
  pid _ := rfl
  txPtr _ := rfl
  state _ := rfl
  sb := rfl
  tx b hb := by
    have : b ≠ a := by
      intro e
      exact hb (e ▸ ha)
    simp [Kernel.setTx, Function.update, this]
  sorted hs := by
    have ha' : ((s.setTx a f).proc p).tx = some a := ha
    rw [txOf_eq ha'] at *
    rw [txOf_eq ha] at hs
    simpa [Kernel.setTx] using hf hs
  lock _ := rfl
  block _ := rfl
  refcnt _ := le_rfl

theorem setTxOf (hf : ∀ x, WsSorted x.workset → WsSorted (f x).workset) : OwnStep p s (s.setTxOf p f) := by
  unfold Kernel.setTxOf
  cases ha : (s.proc p).tx with
  | none => exact (TameStep.refl p s).toOwnStep
  | some a => exact setTx ha (hf _)

theorem txshadow {a : Page} (ha : (s.proc p).tx = some a) (x : Header) (ro : Bool)
    {o : Option Page} (hsort : WsSorted (s.tx a).workset) (ho : (s.txshadow a x ro).1 = .ok o) :
    OwnStep p s (s.txshadow a x ro).2 := by
  have hres := txshadow_result s a x ro
  generalize s.txshadow a x ro = res at hres ho ⊢
  cases hres with
  | found _ _ => exact (TameStep.refl p s).toOwnStep
  | refused _ _ => exact (TameStep.refl p s).toOwnStep
  | noMemory _ _ => cases ho
  | fault _ _ _ => cases ho
  | @granted pg rest src hm _ _ =>
    have hfresh := (findWorksetEntry_eq_none hsort).mp hm.fresh
    have hpage : TameStep p s { (s.setWriter (some a) x).setPage pg (fun _ => .fill 5) with
        freelist := rest } :=
      (TameStep.setWriter s (some a) x).trans ((TameStep.setPage _ _ _).trans (TameStep.freelist _ rest))
    unfold Kernel.grantShadow
    dsimp only
    refine (hpage.trans (TameStep.setPage _ _ _)).toOwnStep.trans (setTx ?_ fun _ => ?_)
    · simpa [Kernel.setPage] using ha
    · simpa [Kernel.setPage] using insertEntry_sorted hsort hfresh

theorem bdataShadow {r : Page × Bool} (hsort : WsSorted (s.txOf p).workset)
    (hr : (s.bdataShadow p b).1 = .ok r) : OwnStep p s (s.bdataShadow p b).2 := by
  unfold Kernel.bdataShadow at hr ⊢
  cases ha : (s.proc p).tx with
  | none => exact (TameStep.refl p s).toOwnStep
  | some a =>
    rw [txOf_eq ha] at hsort
    rw [ha] at hr
    dsimp only at hr ⊢
    split at hr
    next hact =>
      rw [if_pos hact]
      have key := @txshadow p s a ha (.buf b) false
      generalize s.txshadow a (.buf b) false = res at key hr ⊢
      obtain ⟨o, u⟩ := res
      cases o with
      | error m => cases hr
      | ok o =>
        cases o with
        | none => cases hr
        | some pg => exact key hsort rfl
    next hact =>
      rw [if_neg hact]
      exact (TameStep.refl p s).toOwnStep

theorem markNew (s : Kernel) (b : BufPtr) : OwnStep p s (s.markNew p b) := by
  unfold Kernel.markNew
  cases ha : (s.proc p).tx with
  | none => exact (TameStep.refl p s).toOwnStep
  | some a =>
    dsimp only
    split
    · exact (TameStep.refl p s).toOwnStep
    next i _ =>
      exact setTx ha wsSorted_mark.mpr

theorem txbegin {r : Int} (hr : (s.txbegin p).1 = .ok r) : OwnStep p s (s.txbegin p).2 := by
  unfold Kernel.txbegin at hr ⊢
  cases ha : (s.proc p).tx with
  | none => exact (TameStep.refl p s).toOwnStep
  | some a =>
    rw [ha] at hr
    dsimp only at hr ⊢
    generalize hs₁ : s.setTx a _ = s₁ at hr ⊢
    have h₁ : OwnStep p s s₁ := by
      rw [← hs₁]
      exact setTx ha fun _ => List.Pairwise.nil
    -- the saved trap frame goes to a page that is there or comes from `kalloc`
    have save : ∀ s₂ pg, TameStep p s₁ s₂ → OwnStep p s
        { (s₂.setPage pg fun d => { d with tf := (s₂.proc p).trapframe }).setTx a fun x =>
            { x with savedTf := some pg, kjmpValid := false } with
          trace := .txbegin p :: s₂.trace } := by
      intro s₂ pg h₂
      have h₃ : TameStep p s₂ (s₂.setPage pg fun d => { d with tf := (s₂.proc p).trapframe }) :=
        TameStep.setPage _ _ _
      have h₄ := h₁.trans (h₂.trans h₃).toOwnStep
      refine h₄.trans ((setTx (f := fun x => { x with savedTf := some pg, kjmpValid := false })
        ((h₄.txPtr p).trans ha) id).trans ?_)
      exact (TameStep.of_quiet (Quiet.rest _ _ _ _ _ _ _) (fun _ => rfl) rfl rfl).toOwnStep
    cases hsv : (s₁.tx a).savedTf with
    | some pg => exact save s₁ pg (TameStep.refl p s₁)
    | none =>
      have hk : TameStep p s₁ s₁.kalloc.2 := TameStep.kalloc s₁
      rw [hsv] at hr
      dsimp only at hr ⊢
      generalize s₁.kalloc = res at hk hr ⊢
      obtain ⟨o, s₂⟩ := res
      cases o with
      | none => cases hr
      | some pg => exact save s₂ pg hk

end OwnStep

/-! ## Rules -/
namespace HeldInv
variable {p : ProcPtr} {v : Option Transaction} {L : Finset Header} {a : Option Header}
  {F : Finset BufPtr} {x : Kernel × Held} {s t : Kernel} {g : Held}

theorem stable (h : HeldInv p v L a F (s, g)) (hR : HeldRely p s t) : HeldInv p v L a F (t, g) where
  ready := by
    refine ⟨h.ready.1, ?_⟩
    rw [hR.2]
    exact h.ready.2
  account := h.account
  holds y := by
    rw [hR.1.holding y]
    exact h.holds y
  sorted := by
    rw [hR.1.txOf]
    exact h.sorted
  known r hr := by
    rw [hR.1.txOf]
    exact h.known r hr

theorem know (h : HeldInv p v L a F x) : HeldInv p (some (x.1.txOf p)) L a F x :=
  { h with known := fun _ hr => Option.some.inj hr }

theorem forget (h : HeldInv p v L a F x) : HeldInv p none L a F x :=
  { h with known := fun _ hr => (nomatch hr) }

/-- A quiet step that changes the count of a buffer together with the account. -/
theorem countStep {o : Option Header} {D : Finset BufPtr} (h : HeldInv p v L a F (s, g)) (hq : Quiet s t)
    (hstate : ∀ q, (t.proc q).state = (s.proc q).state) (hsb : t.sb = s.sb)
    (hother : ∀ y, y ≠ b → t.buf y = s.buf y ∧ (y ∈ D ↔ y ∈ F))
    (hblk : (t.buf b).blockno = (s.buf b).blockno ∨ (s.buf b).refcnt = 0)
    (href : (s.buf b).refcnt + (if b ∈ D then 1 else 0) ≤
      (t.buf b).refcnt + (if b ∈ F then 1 else 0)) :
    HeldGuar p (s, g) (t, ⟨L, o, D⟩) ∧ HeldInv p v L o D (t, ⟨L, o, D⟩) := by
  have hg : g = ⟨L, a, F⟩ := h.account
  have hholds : ∀ y, t.holdingsleep p y = true ↔ y ∈ L := by
    intro y
    rw [(hq.rely p).holding]
    exact h.holds y
  constructor
  · refine ⟨h.ready, fun q _ _ => hq.rely q, hq.pid, hq.txPtr, hstate, hsb, hholds, fun y => ?_,
      fun y => ?_⟩
    · by_cases e : y = b
      · subst e; exact hblk
      · rw [(hother y e).1]; exact .inl rfl
    · subst hg
      by_cases e : y = b
      · subst e; exact href
      · simp only [(hother y e).1, Held.uses, (hother y e).2]
        exact le_rfl
  · refine ⟨⟨h.ready.1, ?_⟩, rfl, hholds, ?_, fun r hr => ?_⟩
    · rw [hstate]
      exact h.ready.2
    · rw [(hq.rely p).txOf]
      exact h.sorted
    · rw [(hq.rely p).txOf]
      exact h.known r hr

/-- A step that touches neither locks nor references; the process may ask for a lock now. -/
theorem own (h : HeldInv p v L a F (s, g)) (ho : OwnStep p s t)
    (hv : ∀ r, v = some r → t.txOf p = s.txOf p) (a' : Option Header) :
    HeldGuar p (s, g) (t, ⟨L, a', F⟩) ∧ HeldInv p v L a' F (t, ⟨L, a', F⟩) := by
  have hg : g = ⟨L, a, F⟩ := h.account
  have hholds : ∀ y, t.holdingsleep p y = true ↔ y ∈ L := by
    intro y
    rw [← h.holds y]
    simp only [holdingsleep, ho.lock, ho.pid]
  have hother : Guar p s t := by
    intro q _ hne
    refine ⟨ho.pid q, ho.txPtr q, fun b hb => ho.tx b (hne b hb), fun y => ?_⟩
    simp only [holdingsleep, ho.lock, ho.pid]
  constructor
  · refine ⟨h.ready, hother, ho.pid, ho.txPtr, ho.state, ho.sb, hholds, fun b => .inl (ho.block b),
      fun b => ?_⟩
    have := ho.refcnt b
    subst hg
    simp only [Held.uses]
    omega
  · refine ⟨⟨h.ready.1, ?_⟩, rfl, hholds, ho.sorted h.sorted, fun r hr => ?_⟩
    · rw [ho.state]
      exact h.ready.2
    · rw [← h.known r hr]
      exact hv r hr

theorem tame (h : HeldInv p v L a F (s, g)) (ht : TameStep p s t) (a' : Option Header) :
    HeldGuar p (s, g) (t, ⟨L, a', F⟩) ∧ HeldInv p v L a' F (t, ⟨L, a', F⟩) :=
  h.own ht.toOwnStep (fun _ _ => ht.same) a'

section
variable (h : HeldInv p v L a F x)
include h

/-- A step that waits for nothing. -/
theorem act {upd : Kernel → Kernel} {next : Kernel → K α}
    (hs : ∀ t, HeldInv p v L a F (t, x.2) → t.Unrefused → (next t).isFatal = false →
      ∃ g, HeldGuar p (t, x.2) (upd t, g) ∧ heldWp p (next t) Q (upd t, g)) :
    heldWp p (.act (fun _ => true) upd next) Q x :=
  ⟨Held.asks_true x.1 x.2, fun t hR _ hn => hs t (h.stable hR.1) hR.2 hn⟩

/-- The value read, and the state it was read in; the process may ask for a lock now. -/
theorem readAsk {f : Kernel → α} (a' : α → Option Header) :
    heldWp p (.read f) (fun r y => r = f y.1 ∧ HeldInv p v L (a' r) F y) x := by
  refine h.act fun t ht _ _ => ?_
  obtain ⟨hG, hI⟩ := ht.tame (TameStep.refl p t) (a' (f t))
  exact ⟨_, hG, rfl, hI⟩

theorem read {f : Kernel → α} : heldWp p (.read f) (fun _ => HeldInv p v L a F) x :=
  gwp_mono (fun _ _ h => h.2) (fun _ _ h => h) (h.readAsk fun _ => a)

theorem update {f : Kernel → Kernel} (hf : ∀ t, TameStep p t (f t)) :
    heldWp p (.update f) (fun _ => HeldInv p v L a F) x := by
  refine h.act fun t ht _ _ => ?_
  obtain ⟨hG, hI⟩ := ht.tame (hf t) a
  exact ⟨_, hG, hI⟩
end

/-- A step on a transaction about which nothing is claimed. -/
theorem updateOwn {f : Kernel → Kernel} (hf : ∀ t, OwnStep p t (f t)) (h : HeldInv p none L a F x) :
    heldWp p (.update f) (fun _ => HeldInv p none L a F) x := by
  refine h.act fun t ht _ _ => ?_
  obtain ⟨hG, hI⟩ := ht.own (hf t) (fun _ hr => (nomatch hr)) a
  exact ⟨_, hG, hI⟩

section
variable (h : HeldInv p v L a F x)
include h

theorem atom {f : Kernel → α × Kernel} (hf : ∀ t, TameStep p t (f t).2) :
    heldWp p (.atom f) (fun _ => HeldInv p v L a F) x := by
  refine h.act fun t ht _ _ => ?_
  obtain ⟨hG, hI⟩ := ht.tame (hf t) a
  exact ⟨_, hG, hI⟩

theorem atomOrPanic {f : Kernel → Except String α × Kernel}
    (hf : ∀ t r, HeldInv p v L a F (t, x.2) → t.Unrefused → (f t).1 = .ok r →
      OwnStep p t (f t).2 ∧ (∀ r, v = some r → (f t).2.txOf p = t.txOf p) ∧
        ∀ y, y.1 = (f t).2 → HeldInv p v L a F y → Q r y) :
    heldWp p (Txv6.atomOrPanic f) Q x := by
  refine h.act fun t ht hun hn => ?_
  cases hr : (f t).1 with
  | error m =>
    rw [hr] at hn
    cases hn
  | ok r =>
    obtain ⟨hown, hv, hQ⟩ := hf t r ht hun hr
    obtain ⟨hG, hI⟩ := ht.own hown hv a
    exact ⟨_, hG, hQ _ rfl hI⟩

/-- A test that the code may panic at; afterwards the process may ask for a lock. -/
theorem kassertAsk (a' : Option Header) :
    heldWp p (Txv6.kassert c m) (fun _ y => c y.1 = true ∧ HeldInv p v L a' F y) x := by
  refine h.act fun t ht _ _ => ?_
  obtain ⟨hG, hI⟩ := ht.tame (TameStep.refl p t) a'
  refine ⟨_, hG, ?_⟩
  split
  next hc => exact ⟨hc, hI⟩
  next => exact ⟨_, rfl⟩

theorem kassert :
    heldWp p (Txv6.kassert c m) (fun _ y => c y.1 = true ∧ HeldInv p v L a F y) x := h.kassertAsk a

theorem when {c : Bool} {k : K Unit}
    (hk : heldWp p k (fun _ => HeldInv p v L a F) x) :
    heldWp p (Prog.when c k) (fun _ => HeldInv p v L a F) x := by
  cases c with
  | false => exact h
  | true => exact hk
end

/-! ## Locks -/

theorem setLock_buf (s : Kernel) (l : Sleeplock) (y : Header) (b : BufPtr) :
    ((s.setLock l y).buf b).blockno = (s.buf b).blockno ∧
      ((s.setLock l y).buf b).refcnt = (s.buf b).refcnt := by
  cases y with
  | buf b' => by_cases e : b = b' <;> simp [Kernel.setLock, Kernel.setBuf, Function.update, e]
  | inode ip => exact ⟨rfl, rfl⟩

/-- A lock that is free or held by `p` changes hands: nothing changes for the others. -/
theorem guar_setLock (h : (s.lock y).locked = false ∨ s.holdingsleep p y = true)
    (hl : l = ⟨true, (s.proc p).pid⟩ ∨ l.locked = false) : Guar p s (s.setLock l y) := by
  intro q hpid _
  refine ⟨by simp, by simp, by simp, fun z => ?_⟩
  by_cases e : z = y
  · subst e
    have hold : s.holdingsleep q z = false := by
      rcases h with h | h
      · simp [holdingsleep, h]
      · have hp : (s.lock z).locked = true ∧ (s.lock z).pid = (s.proc p).pid := by
          simpa [holdingsleep] using h
        simp [holdingsleep, hp.2, Ne.symm hpid]
    have hnew : (s.setLock l z).holdingsleep q z = false := by
      rcases hl with rfl | hl
      · simp [holdingsleep, lock_setLock, Ne.symm hpid]
      · simp [holdingsleep, lock_setLock, hl]
    rw [hold, hnew]
  · simp [holdingsleep, lock_setLock, e]

/-- A step that changes one lock, and with it the account. -/
theorem lockStep {N : Finset Header} (h : HeldInv p v L a F (s, g))
    (hold : (s.lock y).locked = false ∨ s.holdingsleep p y = true)
    (hl : l = ⟨true, (s.proc p).pid⟩ ∨ l.locked = false)
    (hL : ∀ z, (s.setLock l y).holdingsleep p z = true ↔ z ∈ N) :
    HeldGuar p (s, g) (s.setLock l y, ⟨N, none, F⟩) ∧
      HeldInv p v N none F (s.setLock l y, ⟨N, none, F⟩) := by
  have hg : g = ⟨L, a, F⟩ := h.account
  constructor
  · refine ⟨h.ready, guar_setLock hold hl, by simp, by simp, by simp, ?_, hL,
      fun b => .inl (setLock_buf _ _ _ _).1, fun b => ?_⟩
    · cases y <;> rfl
    · rw [(setLock_buf _ _ _ _).2, hg]
      exact le_rfl
  · refine ⟨⟨h.ready.1, ?_⟩, rfl, hL, ?_, fun r hr => ?_⟩
    · rw [setLock_proc]
      exact h.ready.2
    · simpa [Kernel.txOf] using h.sorted
    · simpa [Kernel.txOf] using h.known r hr

theorem acquiresleep (h : HeldInv p v L (some y) F x) (hask : (⟨L, some y, F⟩ : Held).MayAsk y) :
    heldWp p (acquiresleep p y) (fun _ z => y ∉ L ∧ HeldInv p v (insert y L) none F z) x := by
  constructor
  · intro z hz
    have e : y = z := lockFree_inj x.1 hz
    rw [h.account, e]
    exact ⟨rfl, e ▸ hask⟩
  intro t hR hfree _
  have h := h.stable hR.1
  have hfree : (t.lock y).locked = false := by simpa using hfree
  have hnew : y ∉ L := by
    intro hy
    have := (h.holds y).mpr hy
    simp [holdingsleep, hfree] at this
  obtain ⟨hG, hI⟩ := h.lockStep (N := insert y L) (.inl hfree) (.inl rfl) fun z => by
    rw [Finset.mem_insert, ← h.holds z]
    by_cases e : z = y
    · subst e
      simp [holdingsleep, lock_setLock]
    · simp [holdingsleep, lock_setLock, e]
  exact ⟨_, hG, hnew, hI⟩

theorem releasesleep (h : HeldInv p v L none F x) (hy : y ∈ L) :
    heldWp p (releasesleep y) (fun _ => HeldInv p v (L.erase y) none F) x := by
  refine h.act fun t h _ _ => ?_
  obtain ⟨hG, hI⟩ := h.lockStep (l := ⟨false, 0⟩) (N := L.erase y) (.inr ((h.holds y).mpr hy))
    (.inr rfl) fun z => by
      rw [Finset.mem_erase, ← h.holds z]
      by_cases e : z = y
      · subst e
        simp [holdingsleep, lock_setLock]
      · simp [holdingsleep, lock_setLock, e]
  exact ⟨_, hG, hI⟩

end HeldInv
end Txv6
