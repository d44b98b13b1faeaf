import Txv6.Refs.Balance
import Txv6.Logic.Basic

/-! # Reference accounts

Every process has an account of the references it took and has not dropped or handed on.
Inside a transaction the `iput`s that are skipped stay on the account. While `fork` builds a
child, the child's process slot is on the account as well.
-/
namespace Txv6
open Lib Lib.Prog

structure Account where
  acc : InodePtr → Int
  child : Option ProcPtr

/-- The account after a step from `s` to `t`: the change of the balances is on it. -/
def Account.settle (g : Account) (s t : Kernel) : Account :=
  { g with acc := fun ip => g.acc ip + (t.bal ip - s.bal ip) }

/-- The references that the transaction of a process still has to drop. -/
def Kernel.owed (s : Kernel) (p : ProcPtr) (ip : InodePtr) : Int :=
  if s.txActive p then s.skipped p ip else 0

/-- Only processes that run or are being made have a working directory. -/
def Kernel.NoCwds (s : Kernel) : Prop :=
  ∀ q, (s.proc q).state = .unused ∨ (s.proc q).state = .zombie → (s.proc q).cwd = none

theorem txActive_congr {s t : Kernel} {p : ProcPtr} (hp : (t.proc p).tx = (s.proc p).tx)
    (htx : ∀ a, (s.proc p).tx = some a → (t.tx a).status = (s.tx a).status) :
    t.txActive p = s.txActive p := by
  unfold Kernel.txActive
  rw [hp]
  cases ha : (s.proc p).tx with
  | none => rfl
  | some a => simp only [htx a ha]

theorem owed_congr {s t : Kernel} {p : ProcPtr} (hact : t.txActive p = s.txActive p)
    (hskip : ∀ ip, t.skipped p ip = s.skipped p ip) (ip : InodePtr) : t.owed p ip = s.owed p ip := by
  unfold Kernel.owed
  rw [hact, hskip]

/-- The transaction of a process is not active, and has the objects `hs` in its workset. -/
def Kernel.Ended (s : Kernel) (p : ProcPtr) (hs : List Header) : Prop :=
  s.txActive p = false ∧ (s.txOf p).workset.map (·.header) = hs

theorem txOf_congr {s t : Kernel} {p : ProcPtr} (hp : (t.proc p).tx = (s.proc p).tx)
    (htx : ∀ a, (s.proc p).tx = some a → t.tx a = s.tx a) : t.txOf p = s.txOf p := by
  unfold Kernel.txOf
  rw [hp]
  cases ha : (s.proc p).tx with
  | none => rfl
  | some a => exact htx a ha

theorem ended_congr {s t : Kernel} {p : ProcPtr} (hp : (t.proc p).tx = (s.proc p).tx)
    (htx : ∀ a, (s.proc p).tx = some a → t.tx a = s.tx a) {hs : List Header} (h : s.Ended p hs) :
    t.Ended p hs := by
  refine ⟨(txActive_congr hp fun a ha => by rw [htx a ha]).trans h.1, ?_⟩
  rw [txOf_congr hp htx]
  exact h.2

/-! ## Steps of one process -/

/-- A step of process `p` that changes the balances by `δ` and what its transaction owes by
`ε`. -/
structure TxStep (p : ProcPtr) (δ ε : InodePtr → Int) (s t : Kernel) : Prop where
  bal : ∀ ip, t.bal ip = s.bal ip + δ ip
  owed : ∀ ip, t.owed p ip = s.owed p ip + ε ip
  others : ∀ q, q ≠ p → ∀ ip, t.skipped q ip = s.skipped q ip
  proc : ∀ q, q ≠ p → t.proc q = s.proc q
  state : (t.proc p).state = (s.proc p).state
  txPtr : (t.proc p).tx = (s.proc p).tx
  cwd : (t.proc p).cwd = (s.proc p).cwd
  tx : ∀ b, (s.proc p).tx ≠ some b → t.tx b = s.tx b

/-- A step that leaves the workset of a transaction that is not active. -/
structure RefStep (p : ProcPtr) (δ ε : InodePtr → Int) (s t : Kernel) : Prop extends
    TxStep p δ ε s t where
  ended : ∀ hs, s.Ended p hs → t.Ended p hs

namespace RefStep
variable {p : ProcPtr} {s t u : Kernel} {δ ε : InodePtr → Int} {δ' ε' : InodePtr → Int}

/-- Steps that change no process and record nothing. -/
theorem of_bal (hbal : ∀ ip, t.bal ip = s.bal ip + δ ip) (hproc : t.proc = s.proc)
    (htrace : t.trace = s.trace) (hstatus : ∀ b, (t.tx b).status = (s.tx b).status)
    (htx : ∀ b, (s.proc p).tx ≠ some b → t.tx b = s.tx b) (hended : ∀ hs, s.Ended p hs → t.Ended p hs) :
    RefStep p δ 0 s t where
  bal := hbal
  owed ip := by
    have hact : t.txActive p = s.txActive p := txActive_congr (by rw [hproc]) fun a _ => hstatus a
    simp [owed_congr hact (skipped_congr htrace p) ip]
  others q _ ip := skipped_congr htrace q ip
  proc q _ := by rw [hproc]
  state := by rw [hproc]
  txPtr := by rw [hproc]
  cwd := by rw [hproc]
  tx := htx
  ended := hended

/-- Nothing about references happens where files, processes, counts and the trace stay. -/
theorem of_same (href : ∀ ip, (t.inode ip).ref = (s.inode ip).ref) (hfile : t.file = s.file)
    (hproc : t.proc = s.proc) (htrace : t.trace = s.trace) (hstatus : ∀ b, (t.tx b).status = (s.tx b).status)
    (htx : ∀ b, (s.proc p).tx ≠ some b → t.tx b = s.tx b) (hended : ∀ hs, s.Ended p hs → t.Ended p hs) :
    RefStep p 0 0 s t := by
  refine of_bal (fun ip => ?_) hproc htrace hstatus htx hended
  simp [bal_congr href hfile (fun q => by rw [hproc]) ip]

theorem of_calm (h : Calm s t) : RefStep p 0 0 s t :=
  of_same h.ref h.file h.proc h.trace (fun b => by rw [h.tx]) (fun b _ => by rw [h.tx])
    fun _ => ended_congr (by rw [h.proc]) fun a _ => by rw [h.tx]

theorem refl (s : Kernel) : RefStep p 0 0 s s := of_calm (Calm.refl s)

/-- A change of the own transaction that leaves its status and the objects in its workset. -/
theorem setTx {a : Page} {f : Transaction → Transaction} (ha : (s.proc p).tx = some a)
    (hf : (f (s.tx a)).status = (s.tx a).status)
    (hw : (f (s.tx a)).workset.map (·.header) = (s.tx a).workset.map (·.header)) :
    RefStep p 0 0 s (s.setTx a f) := by
  have hstatus : ∀ b, ((s.setTx a f).tx b).status = (s.tx b).status := by
    intro b
    by_cases e : b = a
    · subst e; simp [Kernel.setTx, hf]
    · simp [Kernel.setTx, Function.update, e]
  refine of_same (fun _ => rfl) rfl rfl rfl hstatus (fun b hb => ?_) fun hs h => ⟨?_, ?_⟩
  · have : b ≠ a := by
      rintro rfl
      exact hb ha
    simp [Kernel.setTx, Function.update, this]
  · exact (txActive_congr (s := s) (t := s.setTx a f) rfl fun b _ => hstatus b).trans h.1
  · have hown : (s.setTx a f).txOf p = f (s.tx a) ∧ s.txOf p = s.tx a := by
      unfold Kernel.txOf
      simp [Kernel.setTx, ha]
    rw [hown.1, hw, ← hown.2]
    exact h.2

theorem of_txCalm (h : TxCalm p s t) : RefStep p 0 0 s t := by
  cases h with
  | calm h => exact of_calm h
  | @grant a x ro pg src rest ha hact _ _ _ =>
    refine of_same (fun ip => ?_) ?_ (setWriter_proc s _ x) ?_ (fun b => ?_) (fun b hb => ?_) ?_
    · cases x with
      | buf b => rfl
      | inode ip' =>
        change ((s.setInode ip' fun y => { y with writer := some a }).inode ip).ref = _
        by_cases e : ip = ip'
        · subst e; simp [Kernel.setInode]
        · simp [Kernel.setInode, Function.update, e]
    · cases x <;> rfl
    · cases x <;> rfl
    · by_cases e : b = a
      · subst e; simp [Kernel.grantShadow, Kernel.setTx, Kernel.setPage]
      · simp [Kernel.grantShadow, Kernel.setTx, Kernel.setPage, Function.update, e]
    · have : b ≠ a := by
        rintro rfl
        exact hb ha
      simp [Kernel.grantShadow, Kernel.setTx, Kernel.setPage, Function.update, this]
    · rintro hs ⟨hn, _⟩
      have : s.txActive p = true := by
        unfold Kernel.txActive
        simp [ha, hact]
      rw [this] at hn
      cases hn
  | @mark b =>
    unfold Kernel.markNew
    split
    · exact refl s
    next a ha =>
      split
      · exact refl s
      · exact setTx ha rfl (map_header_mark ..)

theorem setInode (s : Kernel) (ip : InodePtr) (f : Inode → Inode) :
    RefStep p (Pi.single ip ((f (s.inode ip)).ref - (s.inode ip).ref)) 0 s (s.setInode ip f) :=
  of_bal (fun ip' => bal_setInode s ip ip' f) rfl rfl (fun _ => rfl) (fun _ _ => rfl) fun _ h => h

theorem setFile (s : Kernel) (f : FilePtr) (h : File → File) :
    RefStep p (fun ip => (if (s.file f).On ip then 1 else 0) - (if (h (s.file f)).On ip then 1 else 0))
      0 s (s.setFile f h) := by
  refine of_bal (fun ip => ?_) rfl rfl (fun _ => rfl) (fun _ _ => rfl) fun _ h => h
  rw [bal_setFile]
  omega

/-- A step that changes the own process, but not what others see of it. -/
theorem setProc {f : Proc → Proc} (hstate : (f (s.proc p)).state = (s.proc p).state)
    (htx : (f (s.proc p)).tx = (s.proc p).tx) (hcwd : (f (s.proc p)).cwd = (s.proc p).cwd) :
    RefStep p 0 0 s (s.setProc p f) where
  bal ip := by
    have hcwds : ∀ q, ((s.setProc p f).proc q).cwd = (s.proc q).cwd := by
      intro q
      by_cases e : q = p
      · subst e; simp [Kernel.setProc, hcwd]
      · simp [Kernel.setProc, Function.update, e]
    simp [bal_congr (s := s) (t := s.setProc p f) (fun _ => rfl) rfl hcwds ip]
  owed ip := by
    have hact : (s.setProc p f).txActive p = s.txActive p :=
      txActive_congr (by simp [Kernel.setProc, htx]) fun _ _ => rfl
    simp [owed_congr hact (skipped_congr (s := s) (t := s.setProc p f) rfl p) ip]
  others q _ ip := skipped_congr rfl q ip
  proc q hq := by simp [Kernel.setProc, Function.update, hq]
  state := by simp [Kernel.setProc, hstate]
  txPtr := by simp [Kernel.setProc, htx]
  cwd := by simp [Kernel.setProc, hcwd]
  tx _ _ := rfl
  ended _ := ended_congr (s := s) (t := s.setProc p f) (by simp [Kernel.setProc, htx]) fun _ _ => rfl

/-- An event is recorded, other than the beginning of a transaction. -/
theorem record {e : Event} (s : Kernel) (he : ∀ q, e ≠ .txbegin q)
    (hq : ∀ q ip, e = .skippedIput q ip → q = p) :
    RefStep p 0 (fun ip => if s.txActive p ∧ e = .skippedIput p ip then 1 else 0) s
      { s with trace := e :: s.trace } where
  bal ip := by
    have := bal_congr (s := s) (t := { s with trace := e :: s.trace }) (fun _ => rfl) rfl
      (fun _ => rfl) ip
    simp [this]
  owed ip := by
    have hact : ({ s with trace := e :: s.trace } : Kernel).txActive p = s.txActive p := rfl
    unfold Kernel.owed
    rw [hact, skipped_cons (s := s) rfl (he p)]
    split <;> split <;> simp_all
  others q hne ip := by
    rw [skipped_cons (s := s) rfl (he q)]
    have : e ≠ .skippedIput q ip := fun h => hne (hq q ip h)
    simp [this]
  proc _ _ := rfl
  state := rfl
  txPtr := rfl
  cwd := rfl
  tx _ _ := rfl
  ended _ h := h

theorem congr_owed (h : RefStep p δ ε s t) (hδ : ∀ ip, δ ip = δ' ip)
    (hε : ∀ ip, ε ip = ε' ip) : RefStep p δ' ε' s t := by
  have hδ' : δ = δ' := funext hδ
  have hε' : ε = ε' := funext hε
  rwa [← hδ', ← hε']

theorem congr (h : RefStep p δ ε s t) (hδ : ∀ ip, δ ip = δ' ip) :
    RefStep p δ' ε s t := h.congr_owed hδ fun _ => rfl

/-- Two changes in one atomic step. -/
theorem trans (h : RefStep p δ ε s t) (h' : RefStep p δ' ε' t u) :
    RefStep p (δ + δ') (ε + ε') s u where
  bal ip := by
    rw [h'.bal, h.bal, Pi.add_apply]
    omega
  owed ip := by
    rw [h'.owed, h.owed, Pi.add_apply]
    omega
  others q hq ip := (h'.others q hq ip).trans (h.others q hq ip)
  proc q hq := (h'.proc q hq).trans (h.proc q hq)
  state := h'.state.trans h.state
  txPtr := h'.txPtr.trans h.txPtr
  cwd := h'.cwd.trans h.cwd
  tx b hb := by
    have hb' : (t.proc p).tx ≠ some b := by rwa [h.txPtr]
    exact (h'.tx b hb').trans (h.tx b hb)
  ended hs h₀ := h'.ended hs (h.ended hs h₀)

/-- Dropping references and aborting change nothing but the own account. -/
theorem of_abortStep (h : AbortStep p s t) : ∃ δ ε, RefStep p δ ε s t := by
  cases h with
  | tx h => exact ⟨_, _, of_txCalm h⟩
  | inode _ => exact ⟨_, _, setInode s _ _⟩
  | skip =>
    refine ⟨_, _, record s (fun q => by simp) ?_⟩
    intro q ip h
    cases h
    rfl

end RefStep
end Txv6
