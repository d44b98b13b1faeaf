import Txv6.Deadlock.Ops
import Mathlib.Algebra.Order.BigOperators.Group.Finset
import Mathlib.Data.Prod.Lex

/-! # No cycle of waiting processes

The lock loops take inodes in the order of their addresses and hold no buffer meanwhile; an
operation on an inode takes buffers only. So the waits for inodes ascend, and a wait for a
buffer leads on only to processes that have an indirect block in hand. Those wait for the free
map or for a block that was handed out to them before the next one in line locked it.
-/
namespace Txv6
open Lib Relation Function Finset
open Lib.Prog hiding update

variable {h' : Header} {l : Label ProcPtr LockOp Err Unit} {k : LockOp} {i : Nat} {M : Nat → Finset Header}
  {r₀ r₁ : Option (K Unit)} {α : Type} {e : WorksetEntry} {f : WorksetEntry → K Unit} {m : K α} {a : α}

/-! ## Lock loops -/

/-- The objects of some workset entries. -/
def headers (l : List WorksetEntry) : Finset Header := (l.map (·.header)).toFinset

theorem mem_headers {l : List WorksetEntry} {h : Header} : h ∈ headers l ↔ InWorkset l h := by
  simp [headers, InWorkset]

theorem headers_take_succ {l : List WorksetEntry}
    (he : l[i]? = some e) : headers (l.take (i + 1)) = insert e.header (headers (l.take i)) := by
  ext h
  rw [mem_insert, mem_headers, mem_headers, List.take_add_one, he]
  simp only [InWorkset, Option.toList_some, List.mem_append, List.mem_singleton]
  grind

theorem headers_drop_succ {l : List WorksetEntry} (hs : WsSorted l) (he : l[i]? = some e) :
    headers (l.drop (i + 1)) = (headers (l.drop i)).erase e.header := by
  obtain ⟨hi, rfl⟩ := List.getElem?_eq_some_iff.mp he
  have hcons : l.drop i = l[i] :: l.drop (i + 1) := List.drop_eq_getElem_cons hi
  have hnot : l[i].header ∉ headers (l.drop (i + 1)) := by
    rw [mem_headers]
    rintro ⟨e', he', heq⟩
    have hsorted : WsSorted (l.drop i) := hs.sublist (List.drop_sublist i l)
    rw [hcons] at hsorted
    have hlt := (List.pairwise_cons.mp hsorted).1 e' he'
    rw [heq] at hlt
    exact absurd hlt (lt_irrefl _)
  have hins : headers (l.drop i) = insert l[i].header (headers (l.drop (i + 1))) := by
    rw [hcons, headers, List.map_cons, List.toFinset_cons]
    rfl
  rw [hins, erase_insert hnot]

namespace HeldInv
variable {p : ProcPtr} {r : Transaction} {L : Finset Header} {F : Finset BufPtr} {x : Kernel × Held}

/-- A loop over the workset of a transaction that nobody changes. Before round `i` the locks
are `M i`, and its entry is asked for as `ask` says. -/
theorem forWorksetFrom (ask : WorksetEntry → Option Header)
    (hf : ∀ i e y, r.workset[i]? = some e → HeldInv p (some r) (M i) (ask e) F y →
      heldWp p (f e) (fun _ => HeldInv p (some r) (M (i + 1)) none F) y) (fuel i : Nat)
    (hfuel : r.workset.length < fuel + i) (hi : i ≤ r.workset.length)
    (h : HeldInv p (some r) (M i) none F x) :
    heldWp p (Txv6.forWorksetFrom p f fuel i)
      (fun _ => HeldInv p (some r) (M r.workset.length) none F) x := by
  induction fuel generalizing i x with
  | zero => omega
  | succ fuel ih =>
    refine gwp_seq (h.readAsk fun o => o.bind ask) fun o y hy => ?_
    obtain ⟨ho, h⟩ := hy
    rw [h.known r rfl] at ho
    cases o with
    | none =>
      have hlen : r.workset.length ≤ i := List.getElem?_eq_none_iff.mp ho.symm
      rw [show i = r.workset.length by omega] at h
      exact h
    | some e =>
      have hlt : i < r.workset.length := (List.getElem?_eq_some_iff.mp ho.symm).1
      exact gwp_seq (hf i e y ho.symm h) fun _ y h => ih (i + 1) (by omega) (by omega) h

theorem forWorkset (ask : WorksetEntry → Option Header)
    (hf : ∀ i e y, r.workset[i]? = some e → HeldInv p (some r) (M i) (ask e) F y →
      heldWp p (f e) (fun _ => HeldInv p (some r) (M (i + 1)) none F) y)
    (h : HeldInv p (some r) (M 0) none F x) :
    heldWp p (Txv6.forWorkset p f)
      (fun _ => HeldInv p (some r) (M r.workset.length) none F) x := by
  refine gwp_seq (h.readAsk fun _ => none) fun n y hy => ?_
  obtain ⟨hn, h⟩ := hy
  rw [h.known r rfl] at hn
  subst hn
  exact h.forWorksetFrom ask hf _ 0 (by simp [maxWorkset]) (Nat.zero_le _)

/-- The lock loop. A workset without buffers, or with just one object in it, is locked in
the order of the addresses. -/
theorem lockLoop (hws : BufAlone r.workset) (h : HeldInv p (some r) ∅ none ∅ x) :
    heldWp p (Txv6.forWorkset p (lockFn p))
      (fun _ => HeldInv p (some r) (headers r.workset) none ∅) x := by
  have hsort : WsSorted r.workset := by
    rw [← h.known r rfl]
    exact h.sorted
  -- before round `i > 0` there are only inodes
  have honly : ∀ i b, i < r.workset.length → .buf b ∈ headers r.workset → i = 0 := by
    intro i b hi hb
    have := hws b (mem_headers.mp hb)
    omega
  have htake : ∀ i y, y ∈ headers (r.workset.take i) → y ∈ headers r.workset := by
    intro i y hy
    obtain ⟨e, he, heq⟩ := mem_headers.mp hy
    exact mem_headers.mpr ⟨e, List.mem_of_mem_take he, heq⟩
  have hmem : ∀ i (e : WorksetEntry), r.workset[i]? = some e → e.header ∈ headers r.workset := fun i e he =>
    mem_headers.mpr ⟨e, List.mem_of_getElem? he, rfl⟩
  have hloop := h.forWorkset (f := lockFn p) (M := fun i => headers (r.workset.take i))
    (fun e : WorksetEntry => some e.header) ?_
  · simpa using hloop
  intro i e y he h
  obtain ⟨hi, _⟩ := List.getElem?_eq_some_iff.mp he
  rw [headers_take_succ he]
  unfold lockFn
  cases hh : e.header with
  | buf b =>
    have hzero : i = 0 := honly i b hi (hh ▸ hmem i e he)
    subst hzero
    rw [hh] at h
    dsimp only
    refine gwp_mono (fun _ _ h => h.2) (fun _ _ h => h) (h.acquiresleep fun z hz => ?_)
    simp [headers] at hz
  | inode ip =>
    have hlow : ∀ y ∈ headers (r.workset.take i), ∃ ip' < ip, y = .inode ip' := by
      intro y hy
      cases y with
      | buf b =>
        have hzero := honly i b hi (htake i _ hy)
        subst hzero
        simp [headers] at hy
      | inode ip' =>
        obtain ⟨e', he', heq⟩ := mem_headers.mp hy
        obtain ⟨j, hj⟩ := List.mem_iff_getElem?.mp he'
        rw [List.getElem?_take] at hj
        split at hj
        next hji =>
          have hlt := wsSorted_get_lt hsort hj he hji
          rw [heq, hh] at hlt
          refine ⟨ip', ?_, rfl⟩
          simp only [Header.addr] at hlt
          exact Fin.lt_def.mpr (by omega)
        next => cases hj
    have hbufs : bufs (headers (r.workset.take i)) = ∅ := by
      ext b
      simp only [mem_bufs, notMem_empty, iff_false]
      intro hb
      obtain ⟨ip', _, e⟩ := hlow _ hb
      cases e
    dsimp only
    rw [← hbufs] at h
    refine gwp_mono (fun _ _ hy => ?_) (fun _ _ h => h) (h.ilock ip hlow)
    have := hy.2
    rwa [OpInv, bufs_insert_inode, hbufs] at this

/-- The swap loop leaves locks alone. -/
theorem swapLoop (h : HeldInv p (some r) L none F x) :
    heldWp p (Txv6.forWorkset p swapData) (fun _ => HeldInv p (some r) L none F) x := by
  refine h.forWorkset (M := fun _ => L) (fun _ => none) fun i e y _ h => ?_
  refine h.atomOrPanic fun t u _ _ hu => ?_
  have htame : TameStep p t (t.swapData e).2 := by
    unfold Kernel.swapData at hu ⊢
    split at hu
    · cases hu
    next d _ =>
      refine (TameStep.kfree t d).trans ?_
      cases e.header with
      | buf b => exact TameStep.setBuf (f := fun x => { x with data := e.shadowData }) rfl rfl le_rfl
      | inode ip => exact TameStep.setInode (f := fun x => { x with data := some e.shadowData }) rfl
  exact ⟨htame.toOwnStep, fun _ _ => htame.same, fun _ _ hy => hy⟩

theorem unlockLoop (h : HeldInv p (some r) (headers r.workset) none F x) :
    heldWp p (Txv6.forWorkset p (unlockFn p)) (fun _ => HeldInv p (some r) ∅ none F) x := by
  have hsort : WsSorted r.workset := by
    rw [← h.known r rfl]
    exact h.sorted
  have hloop := h.forWorkset (f := unlockFn p) (M := fun i => headers (r.workset.drop i))
    (fun _ => none) ?_
  · simpa [headers] using hloop
  intro i e y he h
  rw [headers_drop_succ hsort he]
  obtain ⟨hi, hget⟩ := List.getElem?_eq_some_iff.mp he
  have hmem : e.header ∈ headers (r.workset.drop i) := by
    rw [mem_headers, List.drop_eq_getElem_cons hi]
    exact ⟨e, by simp [hget], rfl⟩
  unfold unlockFn
  cases hh : e.header with
  | buf b => exact h.releasesleep (hh ▸ hmem)
  | inode ip => exact h.iunlock ip

theorem setTxStatus (st : TxStatus) (h : HeldInv p (some r) L none F x) :
    heldWp p (Txv6.setTxStatus p st) (fun _ y => ∃ r', r'.workset = r.workset ∧
      HeldInv p (some r') L none F y) x := by
  refine h.act fun t ht _ _ => ?_
  have hws : ((t.setTxOf p fun x => { x with status := st }).txOf p).workset = r.workset := by
    rw [← ht.known r rfl]
    unfold Kernel.setTxOf
    cases ha : (t.proc p).tx with
    | none => rfl
    | some a => simp [Kernel.txOf, Kernel.setTx, ha]
  obtain ⟨hG, hI⟩ := ht.forget.own (OwnStep.setTxOf (f := fun x => { x with status := st })
    fun _ hs => hs) (fun _ hr => by cases hr) none
  exact ⟨_, hG, _, hws, hI.know⟩

end HeldInv

/-! ## Calls -/

section
variable {p : ProcPtr} {x : Kernel × Held} (h : HeldInv p none ∅ none ∅ x)
include h

/-- Both loops begin with the test for an active transaction. -/
theorem heldWp_ifActive {st : TxStatus} {rest : K Unit}
    (hws : x.1.txActive p = true → BufAlone (x.1.txOf p).workset)
    (hrest : ∀ r y, BufAlone r.workset → HeldInv p (some r) ∅ none ∅ y →
      heldWp p rest (fun _ => HeldInv p none ∅ none ∅) y) :
    heldWp p (do if !(← txActive p) then return else setTxStatus p st; rest)
      (fun _ => HeldInv p none ∅ none ∅) x := by
  refine gwp_seq (h.know.readAsk fun _ => none) fun active y hy => ?_
  obtain ⟨hact, h'⟩ := hy
  cases active with
  | false => exact h'.forget
  | true =>
    refine gwp_seq (h'.setTxStatus st) fun _ z hz => ?_
    obtain ⟨r', hr', hz⟩ := hz
    refine hrest r' z ?_ hz
    rw [hr']
    refine hws (txActive_iff_status.mpr ?_)
    rw [← h'.known _ rfl]
    exact txActive_iff_status.mp hact.symm

theorem heldWp_commitLoops (hws : x.1.txActive p = true → BufAlone (x.1.txOf p).workset) :
    heldWp p (commitLoops p) (fun _ => HeldInv p none ∅ none ∅) x := by
  refine heldWp_ifActive h hws fun r y hr h => ?_
  refine gwp_seq (h.lockLoop hr) fun _ y h => ?_
  refine gwp_seq h.swapLoop fun _ y h => ?_
  exact gwp_mono (fun _ _ h => h.forget) (fun _ _ h => h) h.unlockLoop

theorem heldWp_abortLoops (hws : x.1.txActive p = true → BufAlone (x.1.txOf p).workset) :
    heldWp p (abortLoops p) (fun _ => HeldInv p none ∅ none ∅) x := by
  refine heldWp_ifActive h hws fun r y hr h => ?_
  refine gwp_seq (h.lockLoop hr) fun _ y h => ?_
  exact gwp_mono (fun _ _ h => h.forget) (fun _ _ h => h) h.unlockLoop

/-- An operation under `ilock`, begun without locks. -/
theorem heldWp_underIlock {ip : InodePtr} {work : K α}
    (hwork : ∀ L y, .inode ip ∈ L → NoBuf L → OpInv p none L y →
      heldWp p work (fun _ => OpInv p none L) y) :
    heldWp p (underIlock p ip work) (fun _ => HeldInv p none ∅ none ∅) x := by
  have hnone : bufs ∅ = ∅ := rfl
  rw [← hnone] at h
  refine gwp_seq (h.ilock ip (fun y hy => absurd hy (notMem_empty y))) fun _ y hy => ?_
  have hno : NoBuf (insert (.inode ip) ∅) := NoBuf.insert_inode (fun b hb => absurd hb (notMem_empty _)) ip
  refine gwp_seq (hwork _ y (mem_insert_self _ _) hno hy.2) fun _ y h => ?_
  refine gwp_mono (fun _ _ h => ?_) (fun _ _ h => h) (h.iunlock ip)
  rw [bufs_insert_inode, hnone] at h
  simpa using h

theorem heldWp_txbegin :
    heldWp p (sysTxbegin p) (fun _ => HeldInv p none ∅ none ∅) x := by
  exact h.atomOrPanic fun t r _ _ hr =>
    ⟨OwnStep.txbegin hr, fun _ hr => (nomatch hr), fun _ _ hy => hy⟩
end

theorem heldWp_call {p : ProcPtr} {x : Kernel × Held} (k : LockOp) (h : HeldInv p none ∅ none ∅ x)
    (hP : OrderOk (.call p k) x.1 x.1) : heldWp p (k.prog p) (fun _ => HeldInv p none ∅ none ∅) x := by
  cases k with
  | txbegin => exact gwp_seq (heldWp_txbegin h) fun _ _ h => h
  | txcommit => exact heldWp_commitLoops h hP
  | txabort => exact heldWp_abortLoops h hP
  | readi ip dst off n => exact heldWp_underIlock h fun L y hip hno h => h.readi ip dst off n hip hno
  | writei ip src off n => exact heldWp_underIlock h fun L y hip hno h => h.writei ip src off n hip hno
  | itrunc ip => exact heldWp_underIlock h fun L y hip hno h => h.itrunc ip hip hno
  | dirlookup dp name => exact heldWp_underIlock h fun L y hip hno h => h.dirlookup dp name hip hno

/-! ## Accounts of all processes -/

/-- The accounts of all processes fit the state, which has the processes and the layout of `s₀`. -/
structure HeldTotal (s₀ s : Kernel) (g : ProcPtr → Held) : Prop where
  sum : ∀ b, ∑ p ∈ Finset.range nproc, (g p).uses b ≤ (s.buf b).refcnt
  holds : ∀ p, lockSystem.ready p s → ∀ h, s.holdingsleep p h = true ↔ h ∈ (g p).locks
  state : ∀ p, (s.proc p).state = (s₀.proc p).state
  sb : s.sb = s₀.sb
  pid : ∀ p q, lockSystem.ready p s → lockSystem.ready q s → p ≠ q → (s.proc p).pid ≠ (s.proc q).pid
  tx : ∀ p q a, lockSystem.ready p s → lockSystem.ready q s → p ≠ q →
    (s.proc p).tx = some a → (s.proc q).tx ≠ some a

theorem HeldTotal.step {s₀ s t : Kernel} {g : ProcPtr → Held} {i : ProcPtr} {g' : Held}
    (hT : HeldTotal s₀ s g) (hG : HeldGuar i (s, g i) (t, g')) :
    HeldTotal s₀ t (update g i g') ∧
      ∀ j, j ≠ i → (t.proc j).state = (s.proc j).state ∧ (lockSystem.ready j s → Rely j s t) := by
  have hready : ∀ j, lockSystem.ready j t → lockSystem.ready j s := by
    intro j hj
    refine ⟨hj.1, ?_⟩
    rw [← hG.state j]
    exact hj.2
  have hrely : ∀ j, j ≠ i → lockSystem.ready j s → Rely j s t := by
    intro j hj hr
    exact hG.other j (hT.pid j i hr hG.ready hj) fun a ha => hT.tx j i a hr hG.ready hj ha
  refine ⟨⟨?_, ?_, ?_, ?_, ?_, ?_⟩, fun j hj => ⟨hG.state j, hrely j hj⟩⟩
  · intro b
    have href := hG.refs b
    rw [Machine.sum_update (fun a : Held => a.uses b) g (mem_range.mpr hG.ready.1)]
    refine (Int.add_le_add_right (hT.sum b) _).trans ?_
    dsimp only at href ⊢
    omega
  · intro p hp h
    by_cases e : p = i
    · subst e
      rw [update_self]
      exact hG.holds h
    · rw [update_of_ne e, (hrely p e (hready p hp)).holding]
      exact hT.holds p (hready p hp) h
  · intro p
    rw [hG.state]
    exact hT.state p
  · exact hG.sb.trans hT.sb
  · intro p q hp hq hne
    rw [hG.pid, hG.pid]
    exact hT.pid p q (hready p hp) (hready q hq) hne
  · intro p q a hp hq hne
    rw [hG.txPtr, hG.txPtr]
    exact hT.tx p q a (hready p hp) (hready q hq) hne

/-- The accounts of the processes, as a proof about runs of the lock system. -/
def lockAccounts (s₀ : Kernel) : Machine.Accounts lockSystem OrderOk Held where
  W _ := Held.Asks
  R p _ s t := (t.proc p).state = (s.proc p).state ∧ (lockSystem.ready p s → Rely p s t)
  G := HeldGuar
  I p x := lockSystem.ready p x.1 → HeldInv p none ∅ none ∅ x
  Tot := HeldTotal s₀
  ok _ _ := Kernel.Unrefused
  go o := ∀ e, o = .error e → Fatal.fatal e = false
  refl p _ s := ⟨rfl, fun _ => (Quiet.refl s).rely p⟩
  trans h h' := by
    refine ⟨h'.1.trans h.1, fun hr => ?_⟩
    have hr' := h'.2 ⟨hr.1, by rw [h.1]; exact hr.2⟩
    have h := h.2 hr
    exact ⟨hr'.pid.trans h.pid, hr'.txPtr.trans h.txPtr,
      fun a ha => (hr'.tx a (by rw [h.txPtr]; exact ha)).trans (h.tx a ha),
      fun y => (hr'.holding y).trans (h.holding y)⟩
  stable hR h hr := by
    have hs : lockSystem.ready _ _ := ⟨hr.1, by rw [← hR.1]; exact hr.2⟩
    exact (h hs).stable ⟨hR.2 hs, hR.1⟩
  call := by
    intro p k g s hP hready h
    refine gwp_rely (J := lockSystem.ready p) (R := fun _ s t => HeldRely p s t ∧ t.Unrefused) ?_ ?_
      (gwp_mono ?_ ?_ (heldWp_call k (h hready) hP)) hready
    · intro _ s t hs hR
      exact ⟨⟨⟨hR.1.2 hs, hR.1.1⟩, hR.2⟩, hs.1, by rw [hR.1.1]; exact hs.2⟩
    · intro x y hx hG
      exact ⟨hx.1, by rw [hG.state]; exact hx.2⟩
    · exact fun _ y hy _ _ => hy
    · rintro e y ⟨m, rfl⟩ hgo
      exact absurd (hgo _ rfl) (by simp [Fatal.fatal])
  act hP _ := hP
  done _ h := h
  user hready hu h := by
    subst hu
    obtain ⟨hG, hI⟩ := (h hready).tame (TameStep.refl _ _) none
    exact ⟨_, hG, fun _ => hI⟩
  step _ hT hG := hT.step hG

/-! ## Ranks -/

/-- What the accounts say about a pool of a run. -/
structure LockPool (s₀ : Kernel) (c : LockSys) (g : ProcPtr → Held) : Prop where
  total : HeldTotal s₀ c.state g
  own : ∀ p, (lockAccounts s₀).Local p c.state (g p) (c.run p)
  live : ∀ p, c.run p ≠ none → lockSystem.ready p c.state

namespace LockPool
variable {s₀ : Kernel} {c c' : LockSys} {g : ProcPtr → Held} {p q : ProcPtr} {b x : BufPtr}
  {h : Header}

section
variable (hc : LockPool s₀ c g)
include hc

theorem ready (hat : AtLock c p h) : lockSystem.ready p c.state := by
  obtain ⟨k, hk⟩ := hat
  exact hc.live p (by rw [hk]; exact Option.some_ne_none _)

theorem asks (hat : AtLock c p h) : (g p).asked = some h ∧ (g p).MayAsk h := by
  obtain ⟨k, hk⟩ := hat
  have hp := hc.own p
  rw [hk] at hp
  exact hp.1 h rfl

theorem holds (hat : AtLock c p h) (y : Header) :
    c.state.holdingsleep p y = true ↔ y ∈ (g p).locks := hc.total.holds p (hc.ready hat) y

/-- A buffer that a process has got from `bget` has a reference. -/
theorem counted (hp : lockSystem.ready p c.state) (hb : b ∈ (g p).refs) :
    (c.state.buf b).refcnt ≠ 0 := by
  have hsum := hc.total.sum b
  have hone : (1 : Int) ≤ ∑ q ∈ Finset.range nproc, (g q).uses b := by
    have huse : (g p).uses b = 1 := by simp [Held.uses, hb]
    rw [← huse]
    refine single_le_sum (f := fun q => (g q).uses b) (fun q _ => ?_)
      (mem_range.mpr hp.1)
    simp only [Held.uses]
    split <;> omega
  omega

/-- What a step does to the state. -/
theorem step_state (hstep : lockSystem.Step l c c') (hP : OrderOk l c.state c'.state) :
    c'.state = c.state ∨ ∃ i g', l = .act i ∧ HeldGuar i (c.state, g i) (c'.state, g') := by
  cases hstep with
  | call _ _ => exact .inl rfl
  | ret _ => exact .inl rfl
  | fail _ _ => exact .inl rfl
  | user _ _ hu => exact .inl hu
  | @act _ i en upd next hrun hen hf =>
    have hi := hc.own i
    rw [hrun] at hi
    obtain ⟨g', hG, _⟩ := hi.2 c.state ⟨(lockAccounts s₀).refl i (g i) c.state, hP⟩ hen hf
    exact .inr ⟨i, g', rfl, hG⟩

/-- A buffer that a process uses keeps its block in a step. -/
theorem onBitmap (hstep : lockSystem.Step l c c') (hP : OrderOk l c.state c'.state)
    (hp : lockSystem.ready p c.state) (hb : b ∈ (g p).refs) : c'.state.OnBitmap b ↔ c.state.OnBitmap b := by
  rcases hc.step_state hstep hP with hs | ⟨i, g', _, hG⟩
  · rw [hs]
  · have hblk : (c'.state.buf b).blockno = (c.state.buf b).blockno :=
      (hG.block b).resolve_right (hc.counted hp hb)
    have hsb : c'.state.sb = c.state.sb := hG.sb
    unfold Kernel.OnBitmap
    rw [hblk, hsb]

/-- A process that does not take the step keeps its locks. -/
theorem holding (hstep : lockSystem.Step l c c') (hP : OrderOk l c.state c'.state)
    (hp : lockSystem.ready p c.state) (hl : l ≠ .act p) (y : Header) :
    c'.state.holdingsleep p y = c.state.holdingsleep p y := by
  rcases hc.step_state hstep hP with hs | ⟨i, g', hi, hG⟩
  · rw [hs]
  · have hne : p ≠ i := by
      rintro rfl
      exact hl hi
    exact (((hc.total.step hG).2 p hne).2 hp).holding y
end

end LockPool

/-- Whether a process takes the step, so that its program moves on. -/
def Moves (l : Label ProcPtr LockOp Err Unit) (p : ProcPtr) : Prop :=
  l = .act p ∨ ∃ k, l = .call p k

/-- A process whose next step is the same before and after a step. -/
theorem run_same {c c' : LockSys} {p : ProcPtr}
    (hstep : lockSystem.Step l c c') (hp : ¬ Moves l p) (hrun : c'.run p ≠ none) : c'.run p = c.run p := by
  cases hstep with
  | @call _ i k _ _ =>
    have : p ≠ i := by
      rintro rfl
      exact hp (.inr ⟨k, rfl⟩)
    exact update_of_ne this _ _
  | @act _ i en upd next _ _ _ =>
    have : p ≠ i := by
      rintro rfl
      exact hp (.inl rfl)
    exact update_of_ne this _ _
  | @ret _ i a _ =>
    by_cases e : p = i
    · subst e
      exact absurd (update_self p none c.run) hrun
    · exact update_of_ne e _ _
  | @fail _ i e _ _ =>
    by_cases e : p = i
    · subst e
      exact absurd (update_self p none c.run) hrun
    · exact update_of_ne e _ _
  | user _ _ _ => rfl

/-- The processes that wait for a fresh block with an indirect block in hand, in the order in
which they came to wait. -/
structure Ranked (c : LockSys) (rk : ProcPtr → Nat) : Prop where
  bounded : ∃ N, ∀ p, rk p < N
  tidy : ∀ p b x, AtLock c p (.buf b) → c.state.holdingsleep p (.buf x) = true →
    ¬ c.state.OnBitmap x
  later : ∀ p q b b' x, AtLock c p (.buf b) → c.state.holdingsleep p (.buf x) = true →
    ¬ c.state.OnBitmap b → c.state.holdingsleep q (.buf b) = true → AtLock c q (.buf b') →
    rk p < rk q

theorem Ranked.step {s₀ : Kernel} {c c' : LockSys} {g : ProcPtr → Held} {rk : ProcPtr → Nat}
    (hc : LockPool s₀ c g) (hrk : Ranked c rk) (h : OrderStep c c') : ∃ rk', Ranked c' rk' := by
  obtain ⟨l, hstep, hP, hsound⟩ := h
  obtain ⟨N, hN⟩ := hrk.bounded
  have hat : ∀ p y, ¬ Moves l p → AtLock c' p y → AtLock c p y := by
    rintro p y hp ⟨k, hk⟩
    refine ⟨k, ?_⟩
    rw [← hk]
    exact (run_same hstep hp (by rw [hk]; exact Option.some_ne_none _)).symm
  have hold : ∀ p y z, ¬ Moves l p → AtLock c p z → c'.state.holdingsleep p y = true →
      c.state.holdingsleep p y = true := by
    intro p y z hp hz hy
    rwa [hc.holding hstep hP (hc.ready hz) (fun e => hp (.inl e))] at hy
  -- of the buffers that a process which has not moved uses, none has changed
  have hblock : ∀ p b x, AtLock c p (.buf b) → c.state.holdingsleep p (.buf x) = true →
      (c'.state.OnBitmap b ↔ c.state.OnBitmap b) ∧ (c'.state.OnBitmap x ↔ c.state.OnBitmap x) := by
    intro p b x hb hx
    obtain ⟨_, hx', hb'⟩ := (hc.asks hb).2 x ((hc.holds hb _).mp hx)
    exact ⟨hc.onBitmap hstep hP (hc.ready hb) hb', hc.onBitmap hstep hP (hc.ready hb) hx'⟩
  classical
  refine ⟨fun p => if Moves l p then N else rk p, ⟨N + 1, fun p => ?_⟩, ?_, ?_⟩
  · have := hN p
    split <;> omega
  · intro p b x hb hx
    by_cases hp : Moves l p
    · exact (hsound p hp b x hb hx).1
    · have hb₀ := hat p _ hp hb
      have hx₀ := hold p _ _ hp hb₀ hx
      rw [(hblock p b x hb₀ hx₀).2]
      exact hrk.tidy p b x hb₀ hx₀
  · intro p q b b' x hb hx hbm hq hb'
    by_cases hp : Moves l p
    · -- the lock was free when `p` came
      have hfree := (hsound p hp b x hb hx).2.resolve_left hbm
      have hlocked : (c'.state.lock (.buf b)).locked = true := by
        simp only [Kernel.holdingsleep, Bool.and_eq_true] at hq
        exact hq.1
      rw [show c'.state.lock (.buf b) = (c'.state.buf b).lock from rfl, hfree] at hlocked
      cases hlocked
    · have hb₀ := hat p _ hp hb
      have hx₀ := hold p _ _ hp hb₀ hx
      by_cases hq' : Moves l q
      · simp only [hp, hq', if_true, if_false]
        exact hN p
      · have hq₀ := hat q _ hq' hb'
        simp only [hp, hq', if_false]
        refine hrk.later p q b b' x hb₀ hx₀ ?_ (hold q _ _ hq' hq₀ hq) hq₀
        rwa [(hblock p b x hb₀ hx₀).1] at hbm

section Cycle
variable {s₀ : Kernel} {c : LockSys} {g : ProcPtr → Held} {rk : ProcPtr → Nat}

end Cycle

section Deadlock
variable {s : Kernel} {c₀ : LockSys}

/-- The programs of processes 0 and 1. -/
def two (r₀ r₁ : Option (K Unit)) : ProcPtr → Option (K Unit) :=
  Function.update (Function.update (fun _ => none) 0 r₀) 1 r₁

abbrev Reaches (c₀ : LockSys) (s : Kernel) (r₀ r₁ : Option (K Unit)) : Prop :=
  lockSystem.Run (fun _ _ _ => True) c₀ ⟨s, two r₀ r₁⟩

theorem update_two_zero (r₀ r₁ x : Option (K Unit)) : update (two r₀ r₁) 0 x = two x r₁ := by
  unfold two
  rw [update_comm (by decide), update_idem]

theorem update_two_one (r₀ r₁ x : Option (K Unit)) :
    update (two r₀ r₁) 1 x = two r₀ x := update_idem _ _ _

theorem Reaches.zero {f : α → K Unit}
    (h : Reaches c₀ s (some (m >>= f)) r₁) (hm : Image.returned (m.run s).1 = some a)
    (hf : (f a).isFatal = false) : Reaches c₀ (m.run s).2 (some (f a)) r₁ := by
  have hpart : lockSystem.Run (fun _ _ _ => True) ⟨s, update (two none r₁) 0 (some (m >>= f))⟩
      ⟨(m.run s).2, update (two none r₁) 0 (some (f a))⟩ :=
    Machine.Run.part (Image.returned_eq_some.mp hm) hf fun _ _ => trivial
  rw [update_two_zero, update_two_zero] at hpart
  exact h.trans hpart

theorem Reaches.one {f : α → K Unit}
    (h : Reaches c₀ s r₀ (some (m >>= f))) (hm : Image.returned (m.run s).1 = some a)
    (hf : (f a).isFatal = false) : Reaches c₀ (m.run s).2 r₀ (some (f a)) := by
  have hpart : lockSystem.Run (fun _ _ _ => True) ⟨s, update (two r₀ none) 1 (some (m >>= f))⟩
      ⟨(m.run s).2, update (two r₀ none) 1 (some (f a))⟩ :=
    Machine.Run.part (Image.returned_eq_some.mp hm) hf fun _ _ => trivial
  rw [update_two_one, update_two_one] at hpart
  exact h.trans hpart

end Deadlock

end Txv6
