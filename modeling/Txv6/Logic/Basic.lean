import Txv6.Systx
import Mathlib.Data.Set.Insert
import Mathlib.Data.Multiset.AddSub
import Mathlib.Tactic.Abel

/-! # What file system code does with locks and references

The code of `fs.c`, `file.c` and `sysfile.c` between two system calls is traversed
once, for every property at the same time. A property comes as an `FsLogic`: an
invariant `J` of the state and of the resources the running process has (`Res`), kept
by the functions that touch buffers, inodes, the file table and the process. The
theorems of this file say how every function above these passes the resources on: which
locks it takes and gives back, which references it returns, and what is still held when
a refused `idata` jumps out of it.
-/
namespace Txv6
open Lib

/-- What a process has while it runs file system code: the sleep locks it holds, the
inode references its local variables account for, and what it has learned. `granted`
inodes are in the workset of its transaction, if that is active; `ipages` and `bpages`
came from `idata` and `bdata`. -/
@[ext] structure Res where
  locks : Multiset Header := 0
  refs : InodePtr → Int := 0
  granted : Set InodePtr := ∅
  ipages : Set Page := ∅
  bpages : Set Page := ∅

namespace Res

@[simps] def lock (r : Res) (h : Header) : Res := { r with locks := h ::ₘ r.locks }
@[simps] def unlock (r : Res) (h : Header) : Res := { r with locks := r.locks.erase h }
@[simps] def ref (r : Res) (ip : InodePtr) : Res := { r with refs := r.refs + Pi.single ip 1 }
@[simps] def unref (r : Res) (ip : InodePtr) : Res := { r with refs := r.refs - Pi.single ip 1 }

/-- After an `idata` that returned. -/
@[simps] def grant (r : Res) (ip : InodePtr) (d : Page) : Res :=
  { r with granted := insert ip r.granted, ipages := insert d r.ipages }

/-- After a `bdata` that returned. -/
@[simps] def bpage (r : Res) (d : Page) : Res := { r with bpages := insert d r.bpages }

/-- `r` is `r'` with some of its knowledge forgotten. -/
structure Le (r r' : Res) : Prop where
  locks : r.locks = r'.locks
  refs : r.refs = r'.refs
  granted : r.granted ⊆ r'.granted
  ipages : r.ipages ⊆ r'.ipages
  bpages : r.bpages ⊆ r'.bpages

theorem le_grant (r : Res) (ip : InodePtr) (d : Page) : r.Le (r.grant ip d) :=
  ⟨rfl, rfl, Set.subset_insert _ _, Set.subset_insert _ _, subset_rfl⟩

theorem Le.grant {r r' : Res} (h : r.Le r') (ip : InodePtr) (d : Page) : (r.grant ip d).Le (r'.grant ip d) :=
  ⟨h.locks, h.refs, Set.insert_subset_insert h.granted, Set.insert_subset_insert h.ipages,
    h.bpages⟩

theorem le_bpage (r : Res) (d : Page) : r.Le (r.bpage d) :=
  ⟨rfl, rfl, subset_rfl, subset_rfl, Set.subset_insert _ _⟩

@[simp] theorem unlock_lock (r : Res) (h : Header) : (r.lock h).unlock h = r := by
  simp [lock, unlock]

/-- Locks need not be given back in the opposite order. -/
@[simp] theorem unlock_lock_lock (r : Res) (h h' : Header) : ((r.lock h).lock h').unlock h = r.lock h' := by
  simp only [lock, unlock]
  rw [Multiset.cons_swap, Multiset.erase_cons_head]

@[simp] theorem unref_ref (r : Res) (ip : InodePtr) : (r.ref ip).unref ip = r := by
  simp [ref, unref]

@[simp] theorem unref_ref_ref (r : Res) (ip ip' : InodePtr) : ((r.ref ip).ref ip').unref ip = r.ref ip' := by
  simp only [ref, unref, mk.injEq, true_and, and_true]
  abel

@[simp] theorem lock_ref (r : Res) (ip : InodePtr) (h : Header) :
    (r.lock h).ref ip = (r.ref ip).lock h := rfl
@[simp] theorem lock_unref (r : Res) (ip : InodePtr) (h : Header) :
    (r.lock h).unref ip = (r.unref ip).lock h := rfl
@[simp] theorem grant_ref (r : Res) (ip ip' : InodePtr) (d : Page) :
    (r.grant ip d).ref ip' = (r.ref ip').grant ip d := rfl
@[simp] theorem grant_unref (r : Res) (ip ip' : InodePtr) (d : Page) :
    (r.grant ip d).unref ip' = (r.unref ip').grant ip d := rfl
@[simp] theorem grant_lock (r : Res) (ip : InodePtr) (d : Page) (h : Header) :
    (r.grant ip d).lock h = (r.lock h).grant ip d := rfl
@[simp] theorem grant_unlock (r : Res) (ip : InodePtr) (d : Page) (h : Header) :
    (r.grant ip d).unlock h = (r.unlock h).grant ip d := rfl

end Res

/-- The panics that the functions above the buffers and inodes raise themselves. -/
def fsPanics : List String :=
  ["bmap: out of range", "dirlookup not DIR", "dirlookup read", "dirlink read", "kerneltrap",
    "fileread", "filewrite", "isdirempty: readi", "unlink: nlink < 1", "unlink: writei"]

/-- A `mild` panic is not judged: it stops the machine. Neither are jumps, where it is not
known which objects are granted. -/
structure ErrOk {X : Type} (sure : Prop) (mild : String → Prop) (E : Err → X → Prop) : Prop where
  panic : ∀ m s, mild m → E (.panic m) s
  jump : ¬ sure → ∀ c s, E (.jump c) s

/-- A property of file system code run by process `p`: a judgement `wp` on programs that
goes along with their structure, and an invariant that the lower functions keep. `X` is
what the invariant speaks about, the kernel's state or more. -/
structure FsLogic (p : ProcPtr) where
  X : Type
  wp : ∀ {α : Type}, K α → (α → X → Prop) → (Err → X → Prop) → X → Prop
  J : Res → X → Prop
  /-- Whether an `idata` of a `granted` inode is known to return. -/
  sure : Prop
  mild : String → Prop
  raised : ∀ m ∈ fsPanics, mild m
  ret : ∀ {α : Type} {a : α} {Q E s}, Q a s → wp (pure a) Q E s
  fail : ∀ {α : Type} {e : Err} {Q : α → X → Prop} {E s}, E e s → wp (.fail e) Q E s
  seq : ∀ {α β : Type} {m : K α} {f : α → K β} {M Q E s},
    wp m M E s → (∀ a t, M a t → wp (f a) Q E t) → wp (m >>= f) Q E s
  mono : ∀ {α : Type} {m : K α} {Q Q' E s}, (∀ a t, Q a t → Q' a t) → wp m Q E s → wp m Q' E s
  weaken : ∀ {r r' s}, r.Le r' → J r' s → J r s
  read : ∀ {α : Type} {r s E} (f : Kernel → α), J r s → wp (.read f) (fun _ => J r) E s
  kassert : ∀ {r s E} (c : Kernel → Bool) (msg : String), mild msg → ErrOk sure mild E → J r s →
    wp (kassert c msg) (fun _ => J r) E s
  bread : ∀ {r s E} (dev blockno : Nat), ErrOk sure mild E → J r s →
    wp (bread p dev blockno) (fun b => J (r.lock (.buf b))) E s
  brelse : ∀ {r s E} (b : BufPtr), ErrOk sure mild E → J r s →
    wp (brelse p b) (fun _ => J (r.unlock (.buf b))) E s
  bdata : ∀ {r s E} (b : BufPtr), ErrOk sure mild E → .buf b ∈ r.locks → J r s →
    wp (bdata p b) (fun d => J (r.bpage d)) E s
  logWrite : ∀ {r s E} (b : BufPtr), ErrOk sure mild E → .buf b ∈ r.locks → J r s →
    wp (logWrite p b) (fun _ => J r) E s
  setBfield : ∀ {r s E} (d : Page) (f : Block → Block), d ∈ r.bpages → J r s →
    wp (setBfield d f) (fun _ => J r) E s
  iget : ∀ {r s E} (dev inum : Nat), ErrOk sure mild E → J r s →
    wp (iget dev inum) (fun ip => J (r.ref ip)) E s
  idup : ∀ {r s E} (ip : InodePtr), J r s → wp (idup ip) (fun q t => q = ip ∧ J (r.ref ip) t) E s
  ialloc : ∀ {r s E} (dev : Nat) (type : Short), ErrOk sure mild E → J r s →
    wp (ialloc p dev type) (fun o t => o.elim (J r t) fun ip => J (r.ref ip) t) E s
  ilock : ∀ {r s E} (ip : InodePtr), ErrOk sure mild E → J r s →
    wp (ilock p ip) (fun _ => J (r.lock (.inode ip))) E s
  iunlock : ∀ {r s E} (ip : InodePtr), ErrOk sure mild E → J r s →
    wp (iunlock p ip) (fun _ => J (r.unlock (.inode ip))) E s
  iput : ∀ {r s E} (ip : InodePtr), ErrOk sure mild E → J r s →
    wp (iput p ip) (fun _ => J (r.unref ip)) E s
  idata : ∀ {r s E} (c : Site) (ip : InodePtr), ErrOk sure mild E → .inode ip ∈ r.locks →
    (ip ∉ r.granted → ∀ t, J (r.unlock (.inode ip)) t → E (.jump c) t) → J r s →
    wp (idata c p ip) (fun d => J (r.grant ip d)) E s
  idataRo : ∀ {r s E} (c : Site) (ip : InodePtr), ErrOk sure mild E → ip ∈ r.granted → J r s →
    wp (idataRo c p ip) (fun _ => J r) E s
  setIfield : ∀ {r s E} (d : Page) (f : InodeData → InodeData), d ∈ r.ipages → J r s →
    wp (setIfield d f) (fun _ => J r) E s
  iupdate : ∀ {r s E} (ip : InodePtr), ErrOk sure mild E → J r s → wp (iupdate p ip) (fun _ => J r) E s
  itrunc : ∀ {r s E} (ip : InodePtr), ErrOk sure mild E → ip ∈ r.granted → J r s →
    wp (itrunc p ip) (fun _ => J r) E s
  beginOp : ∀ {r s E}, J r s → wp (beginOp p) (fun _ => J r) E s
  endOp : ∀ {r s E}, ErrOk sure mild E → J r s → wp (endOp p) (fun _ => J r) E s
  copyoutTo : ∀ {r s E} (va : Nat) (bs : List UChar), J r s →
    wp (copyoutTo p va bs) (fun _ => J r) E s
  devRead : ∀ {r s E} (dev : DevOps) (va : Nat) (n : Int), J r s →
    wp (devRead p dev va n) (fun _ => J r) E s
  fileOff : ∀ {r s E} (f : FilePtr) (n : Nat), J r s →
    wp (.update fun s => s.setFile f fun x => { x with off := x.off + n } : K Unit)
      (fun _ => J r) E s
  openFile : ∀ {r s E} (ip : InodePtr) (omode : Nat) (type major : Short), J r s →
    wp (.atom fun s => s.openFile p ip omode type major : K (Option Nat))
      (fun o t => o.elim (J r t) fun _ => J (r.unref ip) t) E s
  filecloseStep : ∀ {r s E} (f : FilePtr), ErrOk sure mild E → J r s →
    wp (atomOrPanic fun s => s.fileclose f) (fun o t => match o with
      | none => J r t
      | some ff => match ff.type, ff.ip with
        | .inode, some ip | .device, some ip => J (r.ref ip) t
        | _, _ => J r t) E s
  filedup : ∀ {r s E} (f : FilePtr), ErrOk sure mild E → J r s → wp (filedup f) (fun _ => J r) E s
  setOfile : ∀ {r s E} (fd : Nat) (f : Option FilePtr), J r s →
    wp (.update fun s => s.setOfile p fd f : K Unit) (fun _ => J r) E s
  changeCwd : ∀ {r s E} (ip : InodePtr), ErrOk sure mild E → J r s →
    wp (changeCwd p ip) (fun _ => J (r.unref ip)) E s

namespace FsLogic
variable {p : ProcPtr} (L : FsLogic p) {r : Res} {s : L.X} {E : Err → L.X → Prop} {size : Nat} {α : Type}

/-! ## Steps that change nothing -/

theorem ifield (d : Page) (f : InodeData → α) (h : L.J r s) :
    L.wp (ifield d f) (fun _ => L.J r) E s := L.read _ h

theorem bfield (d : Page) (f : Block → α) (h : L.J r s) :
    L.wp (bfield d f) (fun _ => L.J r) E s := L.read _ h

theorem when {c : Bool} {k : K Unit} (h : L.J r s) (hk : c = true → L.wp k (fun _ => L.J r) E s) :
    L.wp (Prog.when c k) (fun _ => L.J r) E s := by
  cases c with
  | false => exact L.ret h
  | true => exact hk rfl

theorem ite {c : Prop} [Decidable c] {k k' : K α} {Q : α → L.X → Prop}
    (h : L.wp k Q E s) (h' : L.wp k' Q E s) : L.wp (if c then k else k') Q E s := by
  split
  · exact h
  · exact h'

/-! ## Blocks -/

section
variable (hE : ErrOk L.sure L.mild E)
include hE

theorem bzero (dev bno : Nat) (h : L.J r s) :
    L.wp (bzero p dev bno) (fun _ => L.J r) E s := by
  refine L.seq (L.bread dev bno hE h) fun b s h => ?_
  refine L.seq (L.bdata b hE (by simp) h) fun d s h => ?_
  refine L.seq (L.setBfield d _ (by simp) h) fun _ s h => ?_
  refine L.seq (L.logWrite b hE (by simp) h) fun _ s h => ?_
  simpa using L.brelse b hE (L.weaken (Res.le_bpage _ _) h)

theorem ballocScan {b : Nat} {bp : BufPtr} (hb : .buf bp ∈ r.locks)
    (fuel bi : Nat) (h : L.J r s) : L.wp (ballocScan p size b bp fuel bi) (fun _ => L.J r) E s := by
  induction fuel generalizing bi s with
  | zero => exact L.ret h
  | succ fuel ih =>
    unfold Txv6.ballocScan
    split
    · refine L.seq (L.bdata bp hE hb h) fun d s h => ?_
      refine L.seq (L.bfield d _ h) fun free s h => ?_
      have h := L.weaken (Res.le_bpage _ _) h
      split
      · refine L.seq (L.bdata bp hE hb h) fun d s h => ?_
        refine L.seq (L.setBfield d _ (by simp) h) fun _ s h => ?_
        refine L.seq (L.logWrite bp hE (by simpa using hb) h) fun _ s h => ?_
        exact L.ret (L.weaken (Res.le_bpage _ _) h)
      · exact ih _ h
    · exact L.ret h

theorem ballocLoop {dev : Nat} (fuel b : Nat) (h : L.J r s) :
    L.wp (ballocLoop p dev size fuel b) (fun _ => L.J r) E s := by
  induction fuel generalizing b s with
  | zero => exact L.ret h
  | succ fuel ih =>
    unfold Txv6.ballocLoop
    split
    · refine L.seq (L.read _ h) fun blk s h => ?_
      refine L.seq (L.bread dev blk hE h) fun bp s h => ?_
      refine L.seq (L.ballocScan hE (by simp) _ _ h) fun o s h => ?_
      cases o with
      | none =>
        refine L.seq (L.brelse bp hE h) fun _ s h => ?_
        exact ih _ (by simpa using h)
      | some bi =>
        refine L.seq (L.brelse bp hE h) fun _ s h => ?_
        exact L.seq (L.bzero hE dev (b + bi) (by simpa using h)) fun _ s h => L.ret h
    · exact L.ret h

theorem balloc (dev : Nat) (h : L.J r s) :
    L.wp (balloc p dev) (fun _ => L.J r) E s :=
  L.seq (L.read _ h) fun _ _ h => L.ballocLoop hE _ _ h
end

end FsLogic
end Txv6
