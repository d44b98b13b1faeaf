import Txv6.Frame
import Txv6.Image
import Txv6.System

/-! # Exit with an open transaction

`kexit` closes the files and drops the working directory with the same `fileclose` and
`iput` as ever, and these do nothing while the transaction of the process is active. What
`kwait` then frees is the page of the transaction, not what is listed in it.
-/
namespace Txv6
open Lib Lib.Prog

variable {w : Option InodePtr} {f : Proc → Proc}

/-- The other processes leave process `p` and its transaction alone. -/
structure LeavesAlone (p : ProcPtr) (s t : Kernel) : Prop where
  proc : t.proc p = s.proc p
  tx : ∀ a, (s.proc p).tx = some a → t.tx a = s.tx a

/-- A step that gives nothing back: no inode reference, no buffer, no page, no object. -/
structure Keeps (s t : Kernel) : Prop where
  inode : t.inode = s.inode
  buf : t.buf = s.buf
  freelist : t.freelist = s.freelist

namespace LeavesAlone
variable {p : ProcPtr} {s t : Kernel}

theorem refl (p : ProcPtr) (s : Kernel) : LeavesAlone p s s := ⟨rfl, fun _ _ => rfl⟩

theorem txActive (h : LeavesAlone p s t) : t.txActive p = s.txActive p := by
  unfold Kernel.txActive
  rw [h.proc]
  cases ha : (s.proc p).tx with
  | none => rfl
  | some a => simp only [h.tx a ha]

end LeavesAlone

/-! ## Code of a process in a transaction that gives nothing back -/
section Keep
variable {p : ProcPtr} {s : Kernel}

/-- Process `p` is in a transaction, and has the working directory `w`. -/
def InTx (p : ProcPtr) (w : Option InodePtr) (s : Kernel) : Prop :=
  s.txActive p = true ∧ (s.proc p).cwd = w

theorem InTx.stable {t : Kernel} (h : InTx p w s) (hR : LeavesAlone p s t) : InTx p w t :=
  ⟨hR.txActive.trans h.1, by rw [hR.proc]; exact h.2⟩

/-- The judgement of this file: every step gives nothing back, and the process stays in its
transaction. -/
abbrev keepWp (p : ProcPtr) {α : Type} (m : K α) (Q : α → Kernel → Prop) (s : Kernel) : Prop :=
  wp (LeavesAlone p) Keeps m Q (fun _ _ => True) s

theorem InTx.read {α : Type} (f : Kernel → α) (h : InTx p w s) :
    keepWp p (.read f) (fun a t => InTx p w t ∧ a = f t) s :=
  wp_read fun _ hR => ⟨⟨rfl, rfl, rfl⟩, h.stable hR, rfl⟩

theorem InTx.update {f : Kernel → Kernel}
    (hf : ∀ t, (f t).txActive p = t.txActive p ∧ ((f t).proc p).cwd = (t.proc p).cwd)
    (hk : ∀ t, Keeps t (f t)) (h : InTx p w s) : keepWp p (.update f) (fun _ => InTx p w) s := by
  refine wp_update fun t hR => ⟨hk t, ?_⟩
  obtain ⟨hact, hcwd⟩ := h.stable hR
  exact ⟨(hf t).1.trans hact, (hf t).2.trans hcwd⟩

/-- Code that first looks whether the process is in a transaction, and does nothing then. -/
theorem InTx.unlessActive {k : K Unit} (h : InTx p w s) :
    keepWp p (do if ← Txv6.txActive p then return else k) (fun _ => InTx p w) s := by
  refine wp_seq (h.read _) fun b t ht => ?_
  obtain ⟨ht, rfl⟩ := ht
  rw [ht.1]
  exact ht

theorem InTx.iput (ip : InodePtr) (h : InTx p w s) : keepWp p (iput p ip) (fun _ => InTx p w) s := by
  refine wp_seq (h.read _) fun b t ht => ?_
  obtain ⟨ht, rfl⟩ := ht
  rw [ht.1]
  exact wp_seq (ht.update (fun _ => ⟨rfl, rfl⟩) fun _ => ⟨rfl, rfl, rfl⟩) fun _ _ ht => ht

theorem txActive_setProc (htx : ∀ x, (f x).tx = x.tx) (t : Kernel) :
    (t.setProc p f).txActive p = t.txActive p := by
  unfold Kernel.txActive
  simp [Kernel.setProc, htx]

theorem InTx.setProc (htx : ∀ x, (f x).tx = x.tx) (hcwd : ∀ x, (f x).cwd = x.cwd) (h : InTx p w s) :
    keepWp p (.update fun t => t.setProc p f) (fun _ => InTx p w) s := by
  refine h.update (fun t => ⟨txActive_setProc htx t, ?_⟩) fun t => ⟨rfl, rfl, rfl⟩
  simp [Kernel.setProc, hcwd]

theorem InTx.fileclose (f : FilePtr) (h : InTx p w s) : keepWp p (fileclose p f) (fun _ => InTx p w) s := by
  refine wp_seq (M := fun _ => InTx p w) ?_ fun o t ht => ?_
  · refine wp_atomOrPanic (fun _ _ => trivial) fun t hR o _ => ?_
    have hrest : (t.fileclose f).2.proc = t.proc ∧ (t.fileclose f).2.tx = t.tx ∧
        Keeps t (t.fileclose f).2 := by
      unfold Kernel.fileclose
      split
      · exact ⟨rfl, rfl, rfl, rfl, rfl⟩
      · split <;> exact ⟨rfl, rfl, rfl, rfl, rfl⟩
    obtain ⟨hproc, htx, hkeep⟩ := hrest
    obtain ⟨hact, hcwd⟩ := h.stable hR
    refine ⟨hkeep, ?_, ?_⟩
    · unfold Kernel.txActive at hact ⊢
      rw [hproc, htx]
      exact hact
    · rw [hproc]
      exact hcwd
  · cases o with
    | none => exact ht
    | some ff =>
      have put : keepWp p (do
          let ip ← fileInode ff
          beginOp p
          Txv6.iput p ip
          endOp p) (fun _ => InTx p w) t := by
        unfold fileInode
        cases ff.ip with
        | none => exact trivial
        | some ip =>
          refine wp_seq (M := fun ip' u => ip' = ip ∧ InTx p w u) ⟨rfl, ht⟩ fun ip' u hu => ?_
          refine wp_seq hu.2.unlessActive fun _ u hu => ?_
          refine wp_seq (hu.iput ip') fun _ u hu => ?_
          exact hu.unlessActive
      change keepWp p (filePut p ff) (fun _ => InTx p w) t
      unfold filePut
      split
      · exact put
      · exact put
      · exact ht

theorem InTx.closeFiles (fds : List Nat) (h : InTx p w s) :
    keepWp p (closeFiles p fds) (fun _ => InTx p w) s := by
  induction fds generalizing s with
  | nil => exact h
  | cons fd rest ih =>
    refine wp_seq (h.read _) fun o t ht => ?_
    cases o with
    | none => exact ih ht.1
    | some f =>
      refine wp_seq (ht.1.fileclose f) fun _ t ht => ?_
      exact wp_seq (ht.setProc (fun _ => rfl) fun _ => rfl) fun _ t ht => ih ht

/-- `kexit` in a transaction gives nothing back. -/
theorem InTx.kexit (h : InTx p w s) : keepWp p (kexit p) (fun _ t => w ≠ none ∧ t.txActive p = true) s := by
  refine wp_seq (h.closeFiles _) fun _ t ht => ?_
  refine wp_seq ht.unlessActive fun _ t ht => ?_
  refine wp_seq (M := fun cwd t => InTx p w t ∧ w = some cwd) ?_ fun cwd t ht => ?_
  · refine wp_seq (ht.read _) fun o u hu => ?_
    obtain ⟨hu, rfl⟩ := hu
    rw [hu.2]
    cases w with
    | none => trivial
    | some ip => exact ⟨hu, rfl⟩
  obtain ⟨ht, hw⟩ := ht
  refine wp_seq (ht.iput cwd) fun _ t ht => ?_
  refine wp_seq ht.unlessActive fun _ t ht => ?_
  have step {f : Proc → Proc} (htx : ∀ x, (f x).tx = x.tx) {t : Kernel} (ht : t.txActive p = true) :
      keepWp p (.update fun t => t.setProc p f) (fun _ t => t.txActive p = true) t :=
    wp_update fun u hR => ⟨⟨rfl, rfl, rfl⟩, (txActive_setProc htx u).trans (hR.txActive.trans ht)⟩
  refine wp_seq (step (f := fun x => { x with cwd := none }) (fun _ => rfl) ht.1) fun _ t ht => ?_
  exact wp_mono (fun _ u hu => ⟨by simp [hw], hu⟩) (fun _ _ _ => trivial)
    (step (f := fun x => { x with state := .zombie }) (fun _ => rfl) ht)

end Keep

/-! ## Exit and wait -/

/-- What is to be given back for process `p` when it ends: `s` is the state in which it
enters `kexit`, `l` the steps of `kexit` and `kwait`, and `t` the state after them. -/
structure GaveBack (p : ProcPtr) (s : Kernel) (l : List (Kernel × Kernel)) (t : Kernel) : Prop where
  cwd : ∀ ip, (s.proc p).cwd = some ip → ∃ x ∈ l, (x.2.inode ip).ref < (x.1.inode ip).ref
  files : ∀ fd f ip, (s.proc p).ofile fd = some f → (s.file f).ref = 1 →
    (s.file f).type = .inode → (s.file f).ip = some ip →
      ∃ x ∈ l, (x.2.inode ip).ref < (x.1.inode ip).ref
  pins : ∀ e ∈ (s.txOf p).workset, ∀ b, e.header = .buf b →
    ∃ x ∈ l, (x.2.buf b).refcnt < (x.1.buf b).refcnt
  shadows : ∀ e ∈ (s.txOf p).workset,
    ∃ x ∈ l, x.1.freelist.count e.shadowData < x.2.freelist.count e.shadowData
  writers : ∀ a, (s.proc p).tx = some a → ∀ h, t.writer h ≠ some a

/-- `kwait` frees the page of the transaction and nothing else. -/
theorem freeproc_keeps (s : Kernel) (p : ProcPtr) : (s.freeproc p).inode = s.inode ∧
    (s.freeproc p).buf = s.buf ∧ (s.freeproc p).freelist = (s.proc p).tx.toList ++ s.freelist := by
  unfold Kernel.freeproc
  split
  next h => exact ⟨rfl, rfl, by simp [Kernel.setProc, h]⟩
  next h => exact ⟨rfl, rfl, by simp [Kernel.setProc, Kernel.kfree, Kernel.setPage, h]⟩

theorem path_reap {R : Kernel → Kernel → Prop} {p : ProcPtr} {s t : Kernel}
    {l : List (Kernel × Kernel)} {pid : Int} (h : Prog.Path R (reap p) s l (.ok pid) t) :
    ∃ u, R s u ∧ l = [(u, u.freeproc p)] := by
  cases h with
  | act hR _ hrest =>
    cases hrest
    exact ⟨_, hR, rfl⟩

/-- **Exit in a transaction gives nothing back.** Whatever the other processes do meanwhile,
no step of `kexit` drops an inode reference, unpins a buffer, frees a page or gives up an
object; `kwait` frees the transaction's own page. So the reference of the working directory
at least is never dropped. -/
theorem exit_in_tx_gives_nothing_back {p : ProcPtr} {s t v : Kernel} {l l' : List (Kernel × Kernel)}
    {pid : Int} (hact : s.txActive p = true) (hexit : Prog.Path (LeavesAlone p) (kexit p) s l (.ok ()) t)
    (hwait : Prog.Path (LeavesAlone p) (reap p) t l' (.ok pid) v) :
    (∀ x ∈ l, Keeps x.1 x.2) ∧
      (∀ x ∈ l', x.2.inode = x.1.inode ∧ x.2.buf = x.1.buf ∧
        x.2.freelist = (x.1.proc p).tx.toList ++ x.1.freelist) ∧
      ¬ GaveBack p s (l ++ l') v := by
  have hwp := InTx.kexit (p := p) (s := s) ⟨hact, rfl⟩
  have hkeep : ∀ x ∈ l, Keeps x.1 x.2 := wp_path hwp hexit
  have hcwd : (s.proc p).cwd ≠ none := (wp_exec hwp hexit.exec).1
  obtain ⟨u, hu, rfl⟩ := path_reap hwait
  have hreap : ∀ x ∈ [(u, u.freeproc p)], x.2.inode = x.1.inode ∧ x.2.buf = x.1.buf ∧
      x.2.freelist = (x.1.proc p).tx.toList ++ x.1.freelist := by
    intro x hx
    rw [List.mem_singleton] at hx
    subst hx
    exact freeproc_keeps u p
  refine ⟨hkeep, hreap, fun hback => ?_⟩
  obtain ⟨ip, hip⟩ := Option.ne_none_iff_exists'.mp hcwd
  obtain ⟨x, hx, hlt⟩ := hback.cwd ip hip
  have hsame : x.2.inode = x.1.inode := by
    rcases List.mem_append.mp hx with hx | hx
    · exact (hkeep x hx).inode
    · exact (hreap x hx).1
  rw [hsame] at hlt
  omega

/-- Process 0 opens `/a`, and writes a byte to it in a transaction. -/
def writeInTx : List (ProcPtr × K Int) :=
  [(0, sysOpen 0 (Image.path Image.a) oRdwr), (0, sysTxbegin 0), (0, sysWrite 0 0 0 1)]

/-- It exits, and process 1 waits for it. -/
def exitAndReap : K (Int × Option Site) := do
  let _ ← Image.calls writeInTx
  let _ ← Call.prog 0 .exit
  Call.prog 1 (.wait 0)

/-- The exit in that transaction, with its steps. -/
theorem exit_after_write_gives_nothing_back : ∃ l l' t v,
    Prog.Path (LeavesAlone 0) (kexit 0) (Image.after writeInTx).2 l (.ok ()) t ∧
      Prog.Path (LeavesAlone 0) (reap 0) t l' (.ok 1) v ∧
      ¬ GaveBack 0 (Image.after writeInTx).2 (l ++ l') v := by
  have hrun : ((kexit 0).run (Image.after writeInTx).2).1 = some (.ok ()) :=
    Image.returned_eq_some.mp (by decide +kernel)
  have hreap : ((reap 0).run ((kexit 0).run (Image.after writeInTx).2).2).1 = some (.ok 1) :=
    Image.returned_eq_some.mp (by decide +kernel)
  obtain ⟨l, hl⟩ := path_of_run (LeavesAlone.refl 0) hrun
  obtain ⟨l', hl'⟩ := path_of_run (LeavesAlone.refl 0) hreap
  exact ⟨l, l', _, _, hl, hl', (exit_in_tx_gives_nothing_back (by decide +kernel) hl hl').2.2⟩

/-- Afterwards the root directory, in slot 0, has the reference of the process that is gone
besides that of process 1, and `/a`, in slot 1, has one without an open file. The bitmap
block is still pinned, and the page 300 is free and still the writer of both. -/
theorem exit_leaves_tx_behind :
    Image.returned (exitAndReap.run Image.booted).1 = some (1, none) ∧
    ((exitAndReap.run Image.booted).2.inode 0).ref = 2 ∧
    ((exitAndReap.run Image.booted).2.proc 0).cwd = none ∧
    ((exitAndReap.run Image.booted).2.inode 1).ref = 1 ∧
    (∀ f, ((exitAndReap.run Image.booted).2.file f).ref = 0) ∧
    (∃ b, ((exitAndReap.run Image.booted).2.buf b).blockno = 46 ∧
      ((exitAndReap.run Image.booted).2.buf b).refcnt = 1 ∧
      ((exitAndReap.run Image.booted).2.buf b).writer = some 300) ∧
    ((exitAndReap.run Image.booted).2.inode 1).writer = some 300 ∧
    (exitAndReap.run Image.booted).2.freelist.head? = some 300 := by
  decide +kernel

end Txv6
