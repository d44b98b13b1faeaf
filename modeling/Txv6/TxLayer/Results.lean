import Txv6.TxLayer.World

/-! # What the functions of the transaction layer do to the tables -/
namespace Txv6
open Lib Function
open Kernel (setPage setProc setInode setTx setBuf setWriter setDataPtr grantShadow)

variable {x : Header} {k k' : Kernel} {a pg src : Page} {p : ProcPtr}

/-! ## Setters -/

theorem dataPtr_setDataPtr (k : Kernel) (pg : Page) (h h' : Header) :
    (k.setDataPtr pg h).dataPtr h' = if h' = h then some pg else k.dataPtr h' := by
  cases h with
  | buf b =>
    cases h' with
    | buf b' =>
      by_cases e : b' = b
      · subst e; simp [setDataPtr, setBuf, Kernel.dataPtr]
      · simp [setDataPtr, setBuf, Kernel.dataPtr, update, e]
    | inode ip => simp [setDataPtr, setBuf, Kernel.dataPtr]
  | inode ip =>
    cases h' with
    | buf b => simp [setDataPtr, setInode, Kernel.dataPtr]
    | inode ip' =>
      by_cases e : ip' = ip
      · subst e; simp [setDataPtr, setInode, Kernel.dataPtr]
      · simp [setDataPtr, setInode, Kernel.dataPtr, update, e]

theorem writer_setDataPtr (k : Kernel) (pg : Page) (h h' : Header) :
    (k.setDataPtr pg h).writer h' = k.writer h' := by
  cases h with
  | buf b =>
    cases h' with
    | buf b' =>
      by_cases e : b' = b
      · subst e; simp [setDataPtr, setBuf, Kernel.writer]
      · simp [setDataPtr, setBuf, Kernel.writer, update, e]
    | inode ip => rfl
  | inode ip =>
    cases h' with
    | buf b => rfl
    | inode ip' =>
      by_cases e : ip' = ip
      · subst e; simp [setDataPtr, setInode, Kernel.writer]
      · simp [setDataPtr, setInode, Kernel.writer, update, e]

theorem writer_setWriter (k : Kernel) (a : Option Page) (h h' : Header) :
    (k.setWriter a h).writer h' = if h' = h then a else k.writer h' := by
  cases h with
  | buf b =>
    cases h' with
    | buf b' =>
      by_cases e : b' = b
      · subst e; simp [setWriter, setBuf, Kernel.writer]
      · simp [setWriter, setBuf, Kernel.writer, update, e]
    | inode ip => simp [setWriter, setBuf, Kernel.writer]
  | inode ip =>
    cases h' with
    | buf b => simp [setWriter, setInode, Kernel.writer]
    | inode ip' =>
      by_cases e : ip' = ip
      · subst e; simp [setWriter, setInode, Kernel.writer]
      · simp [setWriter, setInode, Kernel.writer, update, e]

@[simp] theorem setDataPtr_proc (k : Kernel) (pg : Page) (h : Header) :
    (k.setDataPtr pg h).proc = k.proc := by cases h <;> rfl
@[simp] theorem setDataPtr_tx (k : Kernel) (pg : Page) (h : Header) :
    (k.setDataPtr pg h).tx = k.tx := by cases h <;> rfl
@[simp] theorem setDataPtr_heap (k : Kernel) (pg : Page) (h : Header) :
    (k.setDataPtr pg h).heap = k.heap := by cases h <;> rfl
@[simp] theorem setDataPtr_freelist (k : Kernel) (pg : Page) (h : Header) :
    (k.setDataPtr pg h).freelist = k.freelist := by cases h <;> rfl

/-! ## Calls -/

/-- A `sys_txbegin` that returned 0, on the transaction in `a` with its registers saved
in `pg`. -/
structure BeginResult (k k' : Kernel) (p : ProcPtr) (a pg : Page) : Prop where
  ptr : (k.proc p).tx = some a
  proc : k'.proc = k.proc
  other : ∀ b, b ≠ a → k'.tx b = k.tx b
  own : k'.tx a = { k.tx a with
    status := .active
    workset := []
    startTime := k.ticks
    retryCount := 0
    savedTf := some pg
    kjmpValid := false }
  dataPtr : ∀ h, k'.dataPtr h = k.dataPtr h
  writer : ∀ h, k'.writer h = k.writer h
  page : (k.tx a).savedTf = some pg ∧ k'.freelist = k.freelist ∨ k.freelist = pg :: k'.freelist
  heap : ∀ y h, y ∉ k.freelist → (k'.heap y).payload h = (k.heap y).payload h
  inode : k'.inode = k.inode
  file : k'.file = k.file
  trace : k'.trace = .txbegin p :: k.trace

theorem txbegin_result (h : k.txbegin p = (.ok 0, k')) : ∃ a pg, BeginResult k k' p a pg := by
  unfold Kernel.txbegin at h
  cases hp : (k.proc p).tx with
  | none => simp [hp] at h
  | some a =>
    rw [hp] at h
    dsimp only at h
    have hsaved : ((k.setTx a fun x =>
        { x with status := .active, workset := [], startTime := k.ticks, retryCount := 0 }).tx a).savedTf =
        (k.tx a).savedTf := by
      simp [setTx]
    rw [hsaved] at h
    cases hs : (k.tx a).savedTf with
    | some pg =>
      rw [hs] at h
      cases h
      refine ⟨a, pg, hp, rfl, fun b hb => ?_, ?_, fun _ => rfl, fun _ => rfl, .inl ⟨hs, rfl⟩,
        fun y x _ => ?_, rfl, rfl, rfl⟩
      · simp [setTx, setPage, update, hb]
      · simp [setTx, setPage]
      · by_cases e : y = pg
        · subst e
          cases x <;> simp [setTx, setPage, PageData.payload]
        · simp [setTx, setPage, update, e]
    | none =>
      rw [hs] at h
      unfold Kernel.kalloc at h
      cases hf : k.freelist with
      | nil => simp [setTx, hf] at h
      | cons pg rest =>
        simp only [setTx, hf] at h
        cases h
        refine ⟨a, pg, hp, rfl, fun b hb => ?_, ?_, fun _ => rfl, fun _ => rfl, .inr hf,
          fun y x hy => ?_, rfl, rfl, rfl⟩
        · simp [setPage, update, hb]
        · simp [setPage]
        · have e : y ≠ pg := by
            rintro rfl
            exact hy (by rw [hf]; exact List.mem_cons_self)
          simp [setPage, update, e]

theorem swapData_result {e : WorksetEntry} (h : k.swapData e = (.ok (), k')) :
    ∃ d, k.dataPtr e.header = some d ∧ k' = (k.kfree d).setDataPtr e.shadowData e.header := by
  unfold Kernel.swapData at h
  split at h
  · cases h
  next d hd =>
    cases h
    exact ⟨d, hd, rfl⟩

/-- A process table slot that `allocproc` has filled. -/
structure AllocResult (k k' : Kernel) (p : ProcPtr) : Prop where
  unused : (k.proc p).state = .unused
  state : (k'.proc p).state = .used
  other : ∀ q, q ≠ p → k'.proc q = k.proc q
  dataPtr : ∀ h, k'.dataPtr h = k.dataPtr h
  writer : ∀ h, k'.writer h = k.writer h
  heap : ∀ y h, y ∉ k.freelist → (k'.heap y).payload h = (k.heap y).payload h
  page : (k'.proc p).tx = none ∧ k'.tx = k.tx ∧ k'.freelist = k.freelist ∨
    ∃ a, (k'.proc p).tx = some a ∧ k'.tx = Function.update k.tx a {} ∧ k.freelist = a :: k'.freelist
  bound : p < nproc
  cwd : (k'.proc p).cwd = (k.proc p).cwd
  inode : k'.inode = k.inode
  file : k'.file = k.file
  trace : k'.trace = k.trace

theorem allocproc_result (h : k.allocproc = (some p, k')) : AllocResult k k' p := by
  unfold Kernel.allocproc at h
  split at h
  · cases h
  next np hnp =>
    have hun : (k.proc np).state = .unused := by simpa using List.find?_some hnp
    have hbound : np < nproc := List.mem_range.mp (List.mem_of_find?_eq_some hnp)
    unfold Kernel.kalloc at h
    cases hf : k.freelist with
    | nil =>
      simp only [hf] at h
      cases h
      refine ⟨hun, by simp [setProc], fun q hq => ?_, fun _ => rfl, fun _ => rfl,
        fun _ _ _ => rfl, .inl ⟨by simp [setProc], rfl, by simp [setProc, hf]⟩,
        hbound, by simp [setProc], rfl, rfl, rfl⟩
      simp [setProc, update, hq]
    | cons a rest =>
      simp only [hf] at h
      cases h
      refine ⟨hun, by simp [setProc], fun q hq => ?_, fun _ => rfl, fun _ => rfl,
        fun y x hy => ?_, .inr ⟨a, by simp [setProc], rfl, ?_⟩, hbound,
        by simp [setProc, setTx, setPage], rfl, rfl, rfl⟩
      · simp [setProc, setTx, setPage, update, hq]
      · have e : y ≠ a := by
          rintro rfl
          exact hy (by rw [hf]; exact List.mem_cons_self)
        simp [setProc, setTx, setPage, update, e]
      · simp [setProc, setTx, hf]

theorem BeginResult.txOf (hb : BeginResult k k' p a pg) :
    k'.txOf p = { k.txOf p with
      status := .active
      workset := []
      startTime := k.ticks
      retryCount := 0
      savedTf := some pg
      kjmpValid := false } := by
  rw [txOf_eq (show (k'.proc p).tx = some a by rw [hb.proc, hb.ptr]), txOf_eq hb.ptr, hb.own]

/-- `txshadow` has made a shadow copy in the page `pg`. -/
structure GrantResult (k k' : Kernel) (p : ProcPtr) (a pg src : Page) (x : Header) : Prop where
  ptr : (k.proc p).tx = some a
  proc : k'.proc = k.proc
  other : ∀ b, b ≠ a → k'.tx b = k.tx b
  own : ∃ ro, k'.tx a = { k.tx a with workset := insertEntry (k.tx a).workset ⟨x, pg, ro, false⟩ }
  fresh : ¬ InWorkset (k.tx a).workset x
  dataPtr : ∀ h, k'.dataPtr h = k.dataPtr h
  writer : ∀ h, k'.writer h = if h = x then some a else k.writer h
  owner : k.writer x = none ∨ k.writer x = some a
  page : k.freelist = pg :: k'.freelist
  source : k.dataPtr x = some src
  copy : src ≠ pg → (k'.heap pg).payload x = (k.heap src).payload x
  heap : ∀ y, y ≠ pg → k'.heap y = k.heap y

theorem grantShadow_result
    {rest : List Page} (ro : Bool) (ha : (k.proc p).tx = some a) (hs : WsSorted (k.tx a).workset)
    (hm : k.MayGrant a x) (hfree : k.freelist = pg :: rest) (hsrc : k.dataPtr x = some src) :
    GrantResult k (k.grantShadow a x ro pg src rest) p a pg src x where
  ptr := ha
  proc := setWriter_proc k _ x
  other b hb := by simp [grantShadow, setTx, setPage, update, hb]
  own := ⟨ro, by simp [grantShadow, setTx, setPage]⟩
  fresh := (findWorksetEntry_eq_none hs).mp hm.fresh
  dataPtr h := setWriter_dataPtr k (some a) x h
  writer h := writer_setWriter k (some a) x h
  owner := hm.owner
  page := hfree
  source := hsrc
  copy hne := by
    have : (k.grantShadow a x ro pg src rest).heap pg =
        (k.heap src).copyFrom x (PageData.fill 5) := by
      simp [grantShadow, setTx, setPage, update, hne]
    rw [this]
    cases x <;> rfl
  heap y hy := by simp [grantShadow, setTx, setPage, update, hy]

theorem GrantResult.txOf (hg : GrantResult k k' p a pg src x) :
    ∃ ro, k'.txOf p = { k.txOf p with workset := insertEntry (k.txOf p).workset ⟨x, pg, ro, false⟩ } := by
  obtain ⟨ro, hown⟩ := hg.own
  refine ⟨ro, ?_⟩
  rw [txOf_eq (show (k'.proc p).tx = some a by rw [hg.proc, hg.ptr]), txOf_eq hg.ptr, hown]

end Txv6
