import Txv6.Workset

/-! # What single steps leave alone

Small facts about the setters of the kernel's state, for the frame conditions of the
invariants.
-/
namespace Txv6
open Lib Lib.Prog
open Kernel (lock setBuf setInode setLock txOf)

variable {f : Buf → Buf} {ip : InodePtr} {s : Kernel} {t : Page} {p : ProcPtr}

theorem wp_atomOrPanic {α : Type} {R G : Kernel → Kernel → Prop} {Q : α → Kernel → Prop}
    {E : Err → Kernel → Prop} {f : Kernel → Except String α × Kernel} (hE : ∀ m t, E (.panic m) t)
    (h : ∀ t, R s t → ∀ a, (f t).1 = .ok a → G t (f t).2 ∧ Q a (f t).2) : wp R G (atomOrPanic f) Q E s := by
  intro t hR _
  dsimp only
  split
  next a ha => exact ⟨fun _ => (h t hR a ha).1, (h t hR a ha).2⟩
  next m _ => exact ⟨fun hf => (nomatch hf), hE m _⟩

/-! ## Locks -/

theorem lock_setBuf {b : BufPtr}
    (hf : (f (s.buf b)).lock = (s.buf b).lock) (h : Header) : (s.setBuf b f).lock h = s.lock h := by
  cases h with
  | buf b' => by_cases e : b' = b <;> simp [lock, setBuf, Function.update, e, hf]
  | inode ip => rfl

theorem lock_setInode {f : Inode → Inode} (hf : (f (s.inode ip)).lock = (s.inode ip).lock) (h : Header) :
    (s.setInode ip f).lock h = s.lock h := by
  cases h with
  | buf b => rfl
  | inode ip' =>
    by_cases e : ip' = ip
    · subst e; simp [lock, setInode, hf]
    · simp [lock, setInode, Function.update, e]

theorem lock_setLock (s : Kernel) (l : Sleeplock) (h h' : Header) :
    (s.setLock l h).lock h' = if h' = h then l else s.lock h' := by
  cases h with
  | buf b =>
    cases h' with
    | buf b' =>
      by_cases e : b' = b
      · subst e; simp [lock, setLock, setBuf]
      · simp [lock, setLock, setBuf, Function.update, e]
    | inode ip => simp [lock, setLock, setBuf]
  | inode ip =>
    cases h' with
    | buf b => simp [lock, setLock, setInode]
    | inode ip' =>
      by_cases e : ip' = ip
      · subst e; simp [lock, setLock, setInode]
      · simp [lock, setLock, setInode, Function.update, e]

@[simp] theorem setLock_proc (s : Kernel) (l : Sleeplock) (h : Header) :
    (s.setLock l h).proc = s.proc := by cases h <;> rfl

@[simp] theorem setLock_tx (s : Kernel) (l : Sleeplock) (h : Header) :
    (s.setLock l h).tx = s.tx := by cases h <;> rfl

@[simp] theorem setWriter_lock (s : Kernel) (w : Option Page) (h h' : Header) :
    (s.setWriter w h).lock h' = s.lock h' := by
  cases h with
  | buf b => exact lock_setBuf (f := fun x => { x with writer := w }) rfl h'
  | inode ip => exact lock_setInode (f := fun x => { x with writer := w }) rfl h'

/-! ## Buffers -/

/-- The three ways `bget` ends. -/
inductive BgetResult (s : Kernel) (dev blockno : Nat) : Option BufPtr × Kernel → Prop
  | found {b} : b ∈ s.lru → (s.buf b).dev = dev → (s.buf b).blockno = blockno →
      BgetResult s dev blockno (some b, s.setBuf b fun x => { x with refcnt := x.refcnt + 1 })
  | recycled {b} : (∀ y ∈ s.lru, (s.buf y).dev = dev → (s.buf y).blockno ≠ blockno) →
      b ∈ s.lru → (s.buf b).refcnt = 0 →
      BgetResult s dev blockno (some b, s.setBuf b fun x =>
        { x with dev := dev, blockno := blockno, valid := false, refcnt := 1 })
  | full : BgetResult s dev blockno (none, s)

theorem bget_result (s : Kernel) (dev blockno : Nat) : BgetResult s dev blockno (s.bget dev blockno) := by
  unfold Kernel.bget
  split
  next b hb =>
    have hkey := List.find?_some hb
    simp only [Bool.and_eq_true, beq_iff_eq] at hkey
    exact .found (List.mem_of_find?_eq_some hb) hkey.1 hkey.2
  next hnone =>
    split
    next b hb =>
      refine .recycled (fun y hy hd hbl => ?_) ?_ (by simpa using List.find?_some hb)
      · have := List.find?_eq_none.mp hnone y hy
        simp [hd, hbl] at this
      · exact List.mem_reverse.mp (List.mem_of_find?_eq_some hb)
    next => exact .full

/-! ## Transactions -/

theorem txActive_iff : s.txActive p = true ↔ ∃ t, (s.proc p).tx = some t ∧ (s.tx t).status = .active := by
  unfold Kernel.txActive
  cases (s.proc p).tx <;> simp

theorem txOf_eq (h : (s.proc p).tx = some t) : s.txOf p = s.tx t := by
  unfold txOf
  rw [h]

theorem txdata_eq (hp : (s.proc p).tx = some t)
    (ha : (s.tx t).status = .active) (h : Header) (readOnly : Bool) :
    s.txdata p h readOnly = s.txshadow t h readOnly := by
  unfold Kernel.txdata
  rw [hp]
  simp [ha]

/-! ## Steps that touch neither locks nor transactions -/

/-- The step changes no lock, no transaction and no process's identity. -/
structure Quiet (s t : Kernel) : Prop where
  pid : ∀ q, (t.proc q).pid = (s.proc q).pid
  txPtr : ∀ q, (t.proc q).tx = (s.proc q).tx
  tx : t.tx = s.tx
  lock : ∀ h, t.lock h = s.lock h

namespace Quiet

theorem refl (s : Kernel) : Quiet s s := ⟨fun _ => rfl, fun _ => rfl, rfl, fun _ => rfl⟩

theorem trans {t u : Kernel} (a : Quiet s t) (b : Quiet t u) : Quiet s u :=
  ⟨fun q => (b.pid q).trans (a.pid q), fun q => (b.txPtr q).trans (a.txPtr q), b.tx.trans a.tx,
    fun h => (b.lock h).trans (a.lock h)⟩

theorem setBuf {b : BufPtr} (hf : (f (s.buf b)).lock = (s.buf b).lock) : Quiet s (s.setBuf b f) :=
  ⟨fun _ => rfl, fun _ => rfl, rfl, lock_setBuf hf⟩

theorem setInode {f : Inode → Inode}
    (hf : (f (s.inode ip)).lock = (s.inode ip).lock) : Quiet s (s.setInode ip f) :=
  ⟨fun _ => rfl, fun _ => rfl, rfl, lock_setInode hf⟩

theorem setFile (s : Kernel) (fp : FilePtr) (f : File → File) : Quiet s (s.setFile fp f) :=
  ⟨fun _ => rfl, fun _ => rfl, rfl, fun _ => rfl⟩

theorem setPage (s : Kernel) (pg : Page) (f : PageData → PageData) : Quiet s (s.setPage pg f) :=
  ⟨fun _ => rfl, fun _ => rfl, rfl, fun _ => rfl⟩

theorem setProc {f : Proc → Proc}
    (hpid : (f (s.proc p)).pid = (s.proc p).pid) (htx : (f (s.proc p)).tx = (s.proc p).tx) :
    Quiet s (s.setProc p f) := by
  refine ⟨fun q => ?_, fun q => ?_, rfl, fun _ => rfl⟩ <;> by_cases e : q = p
  · subst e; simp [Kernel.setProc, hpid]
  · simp [Kernel.setProc, Function.update, e]
  · subst e; simp [Kernel.setProc, htx]
  · simp [Kernel.setProc, Function.update, e]

/-- Everything but the tables of locks, transactions and processes. -/
theorem rest (s : Kernel) (disk : Nat → Block) (lru : List BufPtr) (heap : Page → PageData)
    (freelist : List Page) (log : Log) (trace : List Event) :
    Quiet s { s with
      disk := disk, lru := lru, heap := heap, freelist := freelist, log := log, trace := trace } :=
  ⟨fun _ => rfl, fun _ => rfl, rfl, fun _ => rfl⟩

theorem kalloc (s : Kernel) : Quiet s s.kalloc.2 := by
  unfold Kernel.kalloc
  split
  · exact refl s
  · exact rest s _ _ _ _ _ _

theorem kfree (s : Kernel) (pg : Page) : Quiet s (s.kfree pg) := rest s _ _ _ _ _ _

theorem bget (s : Kernel) (dev blockno : Nat) : Quiet s (s.bget dev blockno).2 := by
  unfold Kernel.bget
  split
  · dsimp only
    exact setBuf rfl
  · split
    · dsimp only
      exact setBuf rfl
    · exact refl s

theorem brelse (s : Kernel) (b : BufPtr) : Quiet s (s.brelse b) := by
  unfold Kernel.brelse
  have h : Quiet s (s.setBuf b fun x => { x with refcnt := x.refcnt - 1 }) := setBuf rfl
  dsimp only
  split
  · exact h.trans (rest _ _ _ _ _ _ _)
  · exact h

theorem iget (s : Kernel) (dev inum : Nat) : Quiet s (s.iget dev inum).2 := by
  unfold Kernel.iget
  split
  · dsimp only
    exact setInode rfl
  split
  · exact refl s
  next ip _ =>
    dsimp only
    have h : Quiet s (s.setInode ip fun x =>
        { x with dev := dev, inum := inum, ref := 1, valid := false, writer := none }) :=
      setInode rfl
    have hk := kalloc (s.setInode ip fun x =>
        { x with dev := dev, inum := inum, ref := 1, valid := false, writer := none })
    split
    · exact h
    · split
      next hk' => rw [hk'] at hk; exact h.trans hk
      next hk' =>
        rw [hk'] at hk
        dsimp only at hk ⊢
        exact h.trans (hk.trans ((setPage _ _ _).trans (setInode rfl)))

theorem fileclose (s : Kernel) (f : FilePtr) : Quiet s (s.fileclose f).2 := by
  unfold Kernel.fileclose
  split
  · exact refl s
  split
  · dsimp only
    exact setFile _ _ _
  · dsimp only
    exact setFile _ _ _

theorem openFile (s : Kernel) (p : ProcPtr) (ip : InodePtr) (omode : Nat) (type major : Short) :
    Quiet s (s.openFile p ip omode type major).2 := by
  unfold Kernel.openFile
  split
  · dsimp only
    exact (setFile _ _ _).trans (setProc rfl rfl)
  · exact refl s

end Quiet
end Txv6
