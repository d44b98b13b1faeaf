import Txv6.Logic.Low
import Mathlib.Algebra.BigOperators.Ring.Finset

/-! # Who holds an inode

An entry of the inode table is held by open files and by working directories. The balance
of an entry is what its reference count has beyond its holders: references in the local
variables of running calls, and references that an `iput` should have dropped.
-/
namespace Txv6
open Lib Lib.Prog Function

variable {s t : Kernel} {p : ProcPtr}

/-- The file is open and refers to the inode. -/
def File.On (f : File) (ip : InodePtr) : Prop :=
  0 < f.ref ∧ (f.type = .inode ∨ f.type = .device) ∧ f.ip = some ip

instance (f : File) (ip : InodePtr) : Decidable (f.On ip) := by
  unfold File.On
  infer_instance

/-- The open files that refer to the inode. -/
def Kernel.filesOn (s : Kernel) (ip : InodePtr) : Nat :=
  (Finset.univ.filter fun f => (s.file f).On ip).card

/-- The processes whose working directory is the inode. -/
def Kernel.cwdsOn (s : Kernel) (ip : InodePtr) : Nat :=
  ((Finset.range nproc).filter fun p => (s.proc p).cwd = some ip).card

def Kernel.bal (s : Kernel) (ip : InodePtr) : Int :=
  (s.inode ip).ref - s.filesOn ip - s.cwdsOn ip

/-- How often `iput` of the inode was skipped since the process last began a transaction. -/
def Kernel.skipped (s : Kernel) (p : ProcPtr) (ip : InodePtr) : Nat :=
  (s.trace.takeWhile fun e => e != .txbegin p).count (.skippedIput p ip)

/-- Changing one element changes a count by what that element contributes. -/
theorem card_filter_update {ι β : Type} [DecidableEq ι] (S : Finset ι) (f : ι → β) {i : ι}
    (hi : i ∈ S) (v : β) (P : β → Prop) [DecidablePred P] :
    ((S.filter fun j => P (Function.update f i v j)).card : Int) =
      (S.filter fun j => P (f j)).card - (if P (f i) then 1 else 0) + (if P v then 1 else 0) := by
  have hsum : ∀ g : ι → β, ((S.filter fun j => P (g j)).card : Int) =
      (if P (g i) then 1 else 0) + ∑ j ∈ S.erase i, if P (g j) then (1 : Int) else 0 := by
    intro g
    rw [Finset.card_filter, ← Finset.add_sum_erase S _ hi]
    push_cast
    rfl
  rw [hsum, hsum f, update_self]
  have hrest : ∑ j ∈ S.erase i, (if P (Function.update f i v j) then (1 : Int) else 0) =
      ∑ j ∈ S.erase i, if P (f j) then (1 : Int) else 0 := by
    refine Finset.sum_congr rfl fun j hj => ?_
    rw [update_of_ne (Finset.ne_of_mem_erase hj)]
  rw [hrest]
  omega

/-! ## Changes of the balance -/

theorem filesOn_setFile (s : Kernel) (f : FilePtr) (h : File → File) (ip : InodePtr) :
    ((s.setFile f h).filesOn ip : Int) = s.filesOn ip - (if (s.file f).On ip then 1 else 0) +
      (if (h (s.file f)).On ip then 1 else 0) :=
  card_filter_update Finset.univ s.file (Finset.mem_univ f) _ fun x : File => x.On ip

theorem cwdsOn_setProc (s : Kernel) (hp : p < nproc) (h : Proc → Proc) (ip : InodePtr) :
    ((s.setProc p h).cwdsOn ip : Int) = s.cwdsOn ip - (if (s.proc p).cwd = some ip then 1 else 0) +
      (if (h (s.proc p)).cwd = some ip then 1 else 0) :=
  card_filter_update (Finset.range nproc) s.proc (Finset.mem_range.mpr hp) _
    fun x : Proc => x.cwd = some ip

theorem bal_congr (href : ∀ ip, (t.inode ip).ref = (s.inode ip).ref)
    (hfile : t.file = s.file) (hcwd : ∀ q, (t.proc q).cwd = (s.proc q).cwd) (ip : InodePtr) :
    t.bal ip = s.bal ip := by
  unfold Kernel.bal Kernel.filesOn Kernel.cwdsOn
  simp only [href, hfile, hcwd]

theorem bal_setInode (s : Kernel) (ip ip' : InodePtr) (f : Inode → Inode) :
    (s.setInode ip f).bal ip' = s.bal ip' +
      (Pi.single ip ((f (s.inode ip)).ref - (s.inode ip).ref) : InodePtr → Int) ip' := by
  have hrest : (s.setInode ip f).filesOn ip' = s.filesOn ip' ∧
      (s.setInode ip f).cwdsOn ip' = s.cwdsOn ip' := ⟨rfl, rfl⟩
  unfold Kernel.bal
  rw [hrest.1, hrest.2]
  by_cases e : ip' = ip
  · subst e
    simp only [Kernel.setInode, update_self, Pi.single_eq_same]
    omega
  · simp [Kernel.setInode, Function.update, e]

theorem bal_setFile (s : Kernel) (f : FilePtr) (h : File → File) (ip : InodePtr) :
    (s.setFile f h).bal ip = s.bal ip + (if (s.file f).On ip then 1 else 0) -
      (if (h (s.file f)).On ip then 1 else 0) := by
  have hf := filesOn_setFile s f h ip
  have hrest : (s.setFile f h).cwdsOn ip = s.cwdsOn ip ∧
      ((s.setFile f h).inode ip).ref = (s.inode ip).ref := ⟨rfl, rfl⟩
  unfold Kernel.bal
  rw [hf, hrest.1, hrest.2]
  omega

theorem bal_setProc (s : Kernel) (hp : p < nproc) (h : Proc → Proc) (ip : InodePtr) :
    (s.setProc p h).bal ip = s.bal ip + (if (s.proc p).cwd = some ip then 1 else 0) -
      (if (h (s.proc p)).cwd = some ip then 1 else 0) := by
  have hc := cwdsOn_setProc s hp h ip
  have hrest : (s.setProc p h).filesOn ip = s.filesOn ip ∧
      ((s.setProc p h).inode ip).ref = (s.inode ip).ref := ⟨rfl, rfl⟩
  unfold Kernel.bal
  rw [hc, hrest.1, hrest.2]
  omega

/-! ## Skipped iputs -/

theorem skipped_congr (h : t.trace = s.trace) (p : ProcPtr) (ip : InodePtr) :
    t.skipped p ip = s.skipped p ip := by
  unfold Kernel.skipped
  rw [h]

theorem skipped_cons {e : Event} (h : t.trace = e :: s.trace) (he : e ≠ .txbegin p) (ip : InodePtr) :
    t.skipped p ip = s.skipped p ip + if e = .skippedIput p ip then 1 else 0 := by
  unfold Kernel.skipped
  rw [h, List.takeWhile_cons_of_pos (by simpa using he), List.count_cons]
  simp only [beq_iff_eq]

end Txv6
