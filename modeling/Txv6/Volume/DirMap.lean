import Txv6.Volume.Directory

/-! # Directories as finite maps

Sequences of lookups, links and removals in one directory, each of them an operation of its own:
what a lookup returns is what the last operation on its name has left.
-/
namespace Txv6
open Lib Lib.Prog Function

/-! ## Operations -/

inductive DirOp where
  | link (name : Name) (inum : Nat)
  | lookup (name : Name)
  | remove (name : Name)

namespace DirOp

def name : DirOp → Name
  | link name _ => name
  | lookup name => name
  | remove name => name

/-- Inode numbers are 16 bits wide, and 0 stands for an empty entry. -/
def Valid : DirOp → Prop
  | link _ inum => 1 ≤ inum ∧ inum < 2 ^ 16
  | _ => True

/-- The calls on the locked directory. A removal is the part of `sys_unlink` that clears the
entry; what it found is the result. -/
def body (p : ProcPtr) (dp : InodePtr) : DirOp → K (Option Nat)
  | link name inum => do
    let r ← dirlink p dp name inum
    return if r = 0 then some inum else none
  | lookup name => do
    match ← dirlookup p dp name with
    | none => return none
    | some (ip, _) =>
      let inum ← .read fun s => (s.inode ip).inum
      iput p ip
      return some inum
  | remove name => do
    match ← dirlookup p dp name with
    | none => return none
    | some (ip, off) =>
      let inum ← .read fun s => (s.inode ip).inum
      let r ← writei p dp (.kernel (List.replicate direntSize 0)) off direntSize
      if r ≠ direntSize then kpanic "unlink: writei"
      else
        iput p ip
        return some inum

def prog (p : ProcPtr) (dp : InodePtr) (op : DirOp) : K (Option Nat) := do
  beginOp p
  ilock p dp
  let r ← op.body p dp
  iunlock p dp
  endOp p
  return r

/-- What an operation with its result says about the name `k`, if it says anything. -/
def effect (k : Name) : DirOp × Option Nat → Option (Option Nat)
  | (link name _, some inum) => if key name = k then some (some inum) else none
  | (remove name, _) => if key name = k then some none else none
  | _ => none

/-- The map after some operations: for each name, what the last one says about it. -/
def after (m : Name → Option Nat) (l : List (DirOp × Option Nat)) (k : Name) : Option Nat :=
  (l.reverse.findSome? (effect k)).getD (m k)

variable {m : Name → Option Nat} {x : DirOp × Option Nat} {l : List (DirOp × Option Nat)}

theorem after_singleton (k : Name) : after m [x] k = (effect k x).getD (m k) := by
  unfold after
  cases h : effect k x with
  | none => simp [h]
  | some r => simp [h]

theorem after_cons : after m (x :: l) = after (after m [x]) l := by
  funext k
  unfold after
  rw [List.reverse_cons, List.findSome?_append]
  cases l.reverse.findSome? (effect k) with
  | none => simp
  | some r => simp

theorem after_concat : after m (l ++ [x]) = after (after m l) [x] := by
  funext k
  rw [after_singleton]
  unfold after
  rw [List.reverse_append, List.reverse_singleton, List.singleton_append, List.findSome?_cons]
  cases effect k x with
  | none => rfl
  | some r => rfl

/-- A name that the operation is not about. -/
theorem effect_other {op : DirOp} {r : Option Nat} {k : Name} (h : key op.name ≠ k) : effect k (op, r) = none := by
  cases op with
  | link name inum =>
    cases r with
    | none => rfl
    | some b => exact if_neg h
  | lookup name => rfl
  | remove name => exact if_neg h

end DirOp

def runOps (p : ProcPtr) (dp : InodePtr) : List DirOp → K (List (Option Nat))
  | [] => return []
  | op :: ops => do
    let r ← op.prog p dp
    let rs ← runOps p dp ops
    return r :: rs

/-! ## What a state says about a directory -/

/-- The volume that a state represents. -/
def Kernel.vol (s : Kernel) : Vol := ⟨s.blk, s.log.lh⟩

def Kernel.dinode (s : Kernel) (n : Nat) : InodeData := s.vol.dinode s.sb n

/-- The entries of directory `n`. -/
def Kernel.entries (s : Kernel) (n : Nat) : Nat → Option (Name × Nat) := entry ((s.dinode n).content s.blk)

def Kernel.DirFull (s : Kernel) (n : Nat) : Prop := (s.dinode n).Full s.sb s.vol

instance {s : Kernel} {n : Nat} : Decidable (s.DirFull n) := inferInstanceAs (Decidable (InodeData.Full _ _ _))

theorem Carries.vol {p : ProcPtr} {D W : Finset BufPtr} {v : Vol} {s : Kernel} (h : Carries p D W v s) : s.vol = v := by
  obtain ⟨blk, lh⟩ := v
  unfold Kernel.vol
  rw [h.log, show s.blk = blk from funext h.blk]

/-- Process `p` runs alone, outside of operations and transactions, on a consistent file system
with a free entry in the inode table. Directory `n`, with the map `m`, is open at `dp`. -/
structure Directory (p : ProcPtr) (dp : InodePtr) (n : Nat) (m : Name → Option Nat) (s : Kernel) : Prop where
  fsys : ∃ v I, Fsys p 0 ∅ v I s ∧ v.lh = [] ∧ Live s.sb I n ∧ (I n).Dir v.blk m
  ref : 0 < (s.inode dp).ref
  inum : (s.inode dp).inum = n
  slot : ∃ jp, (s.inode jp).ref = 0

section Views
variable {p : ProcPtr} {k : Int} {L : Finset InodePtr} {v w : Vol} {I : Nat → InodeData} {s t : Kernel} {n : Nat}

section
variable (h : Fsys p k L v I s) (hlive : Live s.sb I n)
include h hlive

theorem Fsys.dinode_eq : s.dinode n = I n := by
  unfold Kernel.dinode
  rw [h.carries.vol]
  exact h.dinode n hlive.2.1

theorem Fsys.entries_eq :
    s.entries n = entry ((I n).content v.blk) := by
  unfold Kernel.entries
  rw [h.dinode_eq hlive, show s.blk = v.blk from funext h.carries.blk]

theorem Fsys.dirFull_iff :
    s.DirFull n ↔ (I n).Full s.sb v := by
  unfold Kernel.DirFull
  rw [h.dinode_eq hlive, h.carries.vol]
end

end Views

/-! ## One operation -/

/-- What an operation returns and what it does to the entries, which are `e` before and `e'`
after it. -/
def DirOp.Answers (m : Name → Option Nat) (full : Prop) [Decidable full] (e e' : Nat → Option (Name × Nat))
    (r : Option Nat) : DirOp → Prop
  | lookup name => r = m (key name) ∧ e' = e
  | link name inum =>
    if m (key name) ≠ none ∨ full then r = none ∧ e' = e
    else r = some inum ∧ ∃ j, e j = none ∧ e' = Function.update e j (some (key name, inum))
  | remove name => r = m (key name) ∧ ∀ j, e' j = (e j).filter (·.1 != key name)

namespace DirOp
variable {m : Name → Option Nat} {name : Name}

theorem after_lookup (r : Option Nat) : after m [(lookup name, r)] = m := by
  funext k
  rw [after_singleton]
  rfl

theorem after_link_none {inum : Nat} : after m [(link name inum, none)] = m := by
  funext k
  rw [after_singleton]
  rfl

theorem after_link_some {inum b : Nat} :
    after m [(link name inum, some b)] = update m (key name) (some b) := by
  funext k
  rw [after_singleton]
  unfold effect
  dsimp only
  by_cases e : key name = k
  · subst e
    rw [if_pos rfl, update_self]
    rfl
  · rw [if_neg e, update_of_ne (Ne.symm e)]
    rfl

theorem after_remove (r : Option Nat) : after m [(remove name, r)] = update m (key name) none := by
  funext k
  rw [after_singleton]
  unfold effect
  dsimp only
  by_cases e : key name = k
  · subst e
    rw [if_pos rfl, update_self]
    rfl
  · rw [if_neg e, update_of_ne (Ne.symm e)]
    rfl

end DirOp

/-- In a table of slots the key of a slot is in no other one. -/
theorem filter_slots {e : Nat → Option (Name × Nat)} {m : Name → Option Nat} {i b : Nat} {k : Name} (h : Slots e m)
    (hi : e i = some (k, b)) (j : Nat) : update e i none j = (e j).filter (·.1 != k) := by
  by_cases ej : j = i
  · subst ej
    rw [update_self, hi, Option.filter_some, if_neg (by simp)]
  · rw [update_of_ne ej]
    cases hj : e j with
    | none => rfl
    | some x =>
      obtain ⟨k', c⟩ := x
      have hne : k' ≠ k := by
        rintro rfl
        exact ej (h.distinct j i k' c b hj hi)
      rw [Option.filter_some, if_pos (by simpa using hne)]

namespace Fsys
variable {p : ProcPtr} {L : Finset InodePtr} {v : Vol} {I : Nat → InodeData} {s : Kernel} {dp : InodePtr} {n : Nat}
  {m : Name → Option Nat} {E : Err → Kernel → Prop}

theorem live_update {i : InodeData} {sb : Superblock} (hlive : Live sb I n) (htype : i.type = (I n).type) :
    Live sb (update I n i) n := by
  refine ⟨hlive.1, hlive.2.1, ?_⟩
  rw [update_self, htype]
  exact hlive.2.2

/-- One operation on the locked directory. -/
theorem dirOp {Q : Option Nat → Kernel → Prop} (op : DirOp) (h : Fsys p 1 L v I s) (hl : s.Loaded dp n)
    (hlive : Live s.sb I n) (hdir : (I n).Dir v.blk m) (hroom : v.lh.length + 8 < nbuf)
    (hslot : ∃ jp, (s.inode jp).ref = 0) (hop : op.Valid)
    (hQ : ∀ r w J t, Fsys p 1 L w J t → Moved 0 s t → w.lh.length ≤ v.lh.length + 7 → Live s.sb J n →
      (J n).Dir w.blk (DirOp.after m [(op, r)]) →
      op.Answers m ((I n).Full s.sb v) (entry ((I n).content v.blk)) (entry ((J n).content w.blk)) r → Q r t) :
    ends (op.body p dp) Q E s := by
  cases op with
  | link name inum =>
    unfold DirOp.body
    rw [ends_bind]
    refine h.dirlink (Int.le_refl 1) hl hlive hdir hroom hslot hop (fun t ht hmv hfound => ?_)
      (fun w i t ht hmv hlh hfull hre => ?_) fun j w i t ht hmv hlh hnone hfull hj hre => ?_
    · refine hQ none v I t ht hmv (Nat.le_add_right _ _) hlive ?_ ?_
      · rw [DirOp.after_link_none]
        exact hdir
      · unfold DirOp.Answers
        dsimp only
        rw [if_pos (.inl hfound)]
        exact ⟨rfl, rfl⟩
    · have htype : i.type = (I n).type := by rw [hre.same]
      refine hQ none w _ t ht hmv hlh (live_update hlive htype) ?_ ?_
      · rw [DirOp.after_link_none, update_self]
        exact ⟨htype.trans hdir.type, hre.aligned, by rw [hre.entries]; exact hdir.slots⟩
      · unfold DirOp.Answers
        dsimp only
        rw [if_pos (.inr hfull), update_self, hre.entries]
        exact ⟨rfl, rfl⟩
    · have htype : i.type = (I n).type := by rw [hre.same]
      refine hQ (some inum) w _ t ht hmv hlh (live_update hlive htype) ?_ ?_
      · rw [DirOp.after_link_some, update_self]
        refine ⟨htype.trans hdir.type, hre.aligned, ?_⟩
        rw [hre.entries]
        exact hdir.slots.insert hj hnone inum
      · unfold DirOp.Answers
        dsimp only
        rw [if_neg, update_self, hre.entries]
        · exact ⟨rfl, j, hj, rfl⟩
        · rintro (hc | hc)
          · exact hc hnone
          · exact hfull hc
  | lookup name =>
    unfold DirOp.body
    rw [ends_bind]
    refine h.dirlookup hl hlive hdir (by omega) hslot (fun t ht hmv hnone => ?_)
      fun i b ip t ht hmv hi hinum hfresh => ?_
    · refine hQ none v I t ht hmv (Nat.le_add_right _ _) hlive ?_ ⟨hnone.symm, rfl⟩
      rw [DirOp.after_lookup]
      exact hdir
    · dsimp only
      rw [ends_bind, ends_read, ends_bind, hinum]
      refine h.putBack hmv ht hfresh fun u hu hmv' => ?_
      refine hQ (some b) v I u hu hmv' (Nat.le_add_right _ _) hlive ?_ ⟨?_, rfl⟩
      · rw [DirOp.after_lookup]
        exact hdir
      · exact ((hdir.slots.get (key name) b).mpr ⟨i, hi⟩).symm
  | remove name =>
    unfold DirOp.body
    rw [ends_bind]
    refine h.dirlookup hl hlive hdir (by omega) hslot (fun t ht hmv hnone => ?_)
      fun i b ip t ht hmv hi hinum hfresh => ?_
    · refine hQ none v I t ht hmv (Nat.le_add_right _ _) hlive ?_ ⟨hnone.symm, fun j => ?_⟩
      · rw [DirOp.after_remove, ← hnone, update_eq_self]
        exact hdir
      · have hno := hdir.slots.eq_none.mp hnone
        cases hj : entry ((I n).content v.blk) j with
        | none => rfl
        | some x =>
          obtain ⟨k', c⟩ := x
          have hne : k' ≠ key name := by
            rintro rfl
            exact hno j c hj
          rw [Option.filter_some, if_pos (by simpa using hne)]
    · dsimp only
      have hl' := hmv.loaded_of_nonneg (Moved.single_nonneg ip) hl
      have hlive' : Live t.sb I n := by rw [hmv.sb]; exact hlive
      have hw := h.whole hlive
      -- the entry is there, so its block is
      have hlt : direntSize * i < (I n).size.toNat := by
        by_contra hge
        rw [entry_of_le (by rw [InodeData.content_length]; omega)] at hi
        cases hi
      obtain ⟨q, hq⟩ := hdir.aligned
      have hend : direntSize * i + direntSize ≤ maxfile * bsize := by
        refine Nat.le_trans ?_ hw.small
        rw [← Nat.mul_succ, hq]
        rw [hq] at hlt
        exact Nat.mul_le_mul_left direntSize (Nat.succ_le_of_lt (Nat.lt_of_mul_lt_mul_left hlt))
      have hpresent : (v.bmap t.sb (I n) (direntSize * i / bsize)).1 ≠ 0 := by
        rw [Vol.bmap_present (hw.block hlt).2]
        exact (hw.block hlt).2
      rw [ends_bind, ends_read, ends_bind, hinum]
      refine ht.writeEntry (Int.le_refl 1) hl' hlive' hdir.aligned hroom (List.length_replicate ..) (Nat.le_of_lt hlt)
        hend fun w j u hu hmv' hinode hlh hre => ?_
      rw [if_neg hpresent] at hre ⊢
      rw [if_neg (not_not.mpr rfl), ends_bind]
      have hmv₂ : Moved (Pi.single ip 1) s u := hmv.quiet hmv' (Moved.single_nonneg ip)
      refine h.putBack hmv₂ hu (by rw [hinode]; exact hfresh) fun u' hu' hmv₃ => ?_
      have htype : j.type = (I n).type := by rw [hre.same]
      have hentries : entry (j.content w.blk) = update (entry ((I n).content v.blk)) i none := hre.entries
      refine hQ (some b) w _ u' hu' hmv₃ hlh (live_update hlive htype) ?_ ⟨?_, fun i' => ?_⟩
      · rw [DirOp.after_remove, update_self]
        refine ⟨htype.trans hdir.type, hre.aligned, ?_⟩
        rw [hentries]
        exact hdir.slots.erase hi
      · exact ((hdir.slots.get (key name) b).mpr ⟨i, hi⟩).symm
      · rw [update_self, hentries]
        exact filter_slots hdir.slots hi i'

end Fsys

namespace Directory
variable {p : ProcPtr} {dp : InodePtr} {n : Nat} {m : Name → Option Nat} {s : Kernel} {E : Err → Kernel → Prop}

/-- One operation, with the commit of what it has logged. -/
theorem step (h : Directory p dp n m s) (op : DirOp) (hop : op.Valid) :
    ends (op.prog p dp) (fun r t => Directory p dp n (DirOp.after m [(op, r)]) t ∧
      op.Answers m (s.DirFull n) (s.entries n) (t.entries n) r) E s := by
  obtain ⟨⟨v, I, hf, hlh, hlive, hdir⟩, href, hinum, hslot⟩ := h
  unfold DirOp.prog
  rw [ends_bind]
  refine hf.beginOp hlh fun t₁ h₁ m₁ => ?_
  have href₁ : 0 < (t₁.inode dp).ref := by
    rw [m₁.ref]
    simpa using href
  have hinum₁ : (t₁.inode dp).inum = n := (m₁.kept dp href href₁).1.trans hinum
  have hlive₁ : Live t₁.sb I n := by rw [m₁.sb]; exact hlive
  rw [ends_bind]
  refine h₁.ilock (Finset.notMem_empty dp) href₁ (by rw [hinum₁]; exact hlive₁) (.inl (by rw [hlh]; decide))
    fun t₂ h₂ m₂ hl₂ => ?_
  rw [hinum₁] at hl₂
  have m₁₂ := m₁.after m₂
  have hlive₂ : Live t₂.sb I n := by rw [m₁₂.sb]; exact hlive
  have hslot₂ : ∃ jp, (t₂.inode jp).ref = 0 := by
    obtain ⟨jp, hj⟩ := hslot
    exact ⟨jp, by rw [m₁₂.ref]; simpa using hj⟩
  rw [ends_bind]
  refine h₂.dirOp op hl₂ hlive₂ hdir (by rw [hlh]; decide) hslot₂ hop fun r w J t₃ h₃ m₃ hlen hliveJ hdirJ hans => ?_
  have m₁₃ := m₁₂.after m₃
  rw [ends_bind]
  refine h₃.iunlock (Finset.mem_insert_self dp ∅) fun t₄ h₄ m₄ => ?_
  rw [Finset.erase_insert (Finset.notMem_empty dp)] at h₄
  rw [hlh, List.length_nil] at hlen
  rw [ends_bind]
  refine h₄.endOp (Nat.lt_of_le_of_lt hlen (by decide)) fun w' t₅ h₅ hlh₅ hblk m₅ => ?_
  have m₁₅ := m₁₃.after (m₄.after m₅)
  have hsb₄ : t₄.sb = s.sb := (m₁₃.after m₄).sb
  have hliveJ₅ : Live t₅.sb J n := by
    rw [m₁₅.sb, ← m₁₂.sb]
    exact hliveJ
  -- the commit leaves the contents of the directory
  have hcontent : (J n).content w'.blk = (J n).content w.blk := by
    refine h₄.files.content_above h₄.layout (fun x hx => hblk x (Nat.le_trans ?_ hx)) ?_
    · exact Nat.le_trans (Nat.le_add_right _ _) (Nat.le_of_lt h₄.layout.inodes)
    · rw [hsb₄, ← m₁₂.sb]
      exact hliveJ
  rw [ends_pure]
  have href₅ : 0 < (t₅.inode dp).ref := by
    rw [m₁₅.ref]
    simpa using href
  refine ⟨⟨⟨w', J, h₅, hlh₅, hliveJ₅, hdirJ.type, hdirJ.aligned, ?_⟩, href₅, (m₁₅.kept dp href href₅).1.trans hinum, ?_⟩, ?_⟩
  · rw [hcontent]
    exact hdirJ.slots
  · obtain ⟨jp, hj⟩ := hslot
    exact ⟨jp, by rw [m₁₅.ref]; simpa using hj⟩
  · rw [hf.entries_eq hlive, h₅.entries_eq hliveJ₅, hcontent]
    have hfull := hf.dirFull_iff hlive
    rw [m₁₂.sb] at hans
    simp only [hfull]
    exact hans

/-- Any sequence of operations. -/
theorem run (ops : List DirOp) : ∀ {m : Name → Option Nat} {s : Kernel}, Directory p dp n m s →
    (∀ op ∈ ops, op.Valid) → ends (runOps p dp ops) (fun rs t => rs.length = ops.length ∧
      Directory p dp n (DirOp.after m (ops.zip rs)) t) E s := by
  induction ops with
  | nil => exact fun h _ => ⟨rfl, h⟩
  | cons op ops ih =>
    intro m s h hops
    unfold runOps
    rw [ends_bind]
    refine ends_mono (h.step op (hops op List.mem_cons_self)) fun r t ht => ?_
    rw [ends_bind]
    refine ends_mono (ih ht.1 fun op' hop' => hops op' (List.mem_cons_of_mem op hop')) fun rs u hu => ?_
    refine ⟨congrArg (· + 1) hu.1, ?_⟩
    rw [List.zip_cons_cons, DirOp.after_cons]
    exact hu.2

end Directory

/-! ## Sequences -/

section Claims
variable {p : ProcPtr} {dp : InodePtr} {n : Nat} {m : Name → Option Nat} {s : Kernel}

/-- **A directory is a finite map.** Any sequence of operations goes through and leaves a directory
with distinct names, whose map is what the last operation on each name has left. In the state
after it every operation answers by that map: a lookup returns what is there, a link fails and
leaves all entries if the name is there or the directory is full and otherwise adds one entry, a
removal clears the entry of its name; other names keep what they have. -/
theorem directory_is_finite_map (h : Directory p dp n m s) (ops : List DirOp) (hops : ∀ op ∈ ops, op.Valid) :
    ∃ rs t, (runOps p dp ops).run s = (some (.ok rs), t) ∧ rs.length = ops.length ∧
      Directory p dp n (DirOp.after m (ops.zip rs)) t ∧
      ∀ op : DirOp, op.Valid → ∃ r u, (op.prog p dp).run t = (some (.ok r), u) ∧
        op.Answers (DirOp.after m (ops.zip rs)) (t.DirFull n) (t.entries n) (u.entries n) r ∧
        Directory p dp n (DirOp.after m ((ops ++ [op]).zip (rs ++ [r]))) u ∧
        ∀ name, key name ≠ key op.name →
          DirOp.after m ((ops ++ [op]).zip (rs ++ [r])) (key name) = DirOp.after m (ops.zip rs) (key name) := by
  have hrun := Directory.run (E := fun _ _ => False) ops h hops
  obtain ⟨rs, t, hrun, hlen, ht⟩ := ends_ok hrun
  refine ⟨rs, t, hrun, hlen, ht, fun op hop => ?_⟩
  obtain ⟨r, u, hstep, hu, hans⟩ := ends_ok (ht.step (E := fun _ _ => False) op hop)
  have hzip : (ops ++ [op]).zip (rs ++ [r]) = ops.zip rs ++ [(op, r)] := by
    rw [List.zip_append hlen.symm]
    rfl
  have hafter : DirOp.after m ((ops ++ [op]).zip (rs ++ [r])) = DirOp.after (DirOp.after m (ops.zip rs)) [(op, r)] := by
    rw [hzip, DirOp.after_concat]
  refine ⟨r, u, hstep, hans, by rw [hafter]; exact hu, fun name hname => ?_⟩
  rw [hafter, DirOp.after_singleton, DirOp.effect_other (Ne.symm hname)]
  rfl

end Claims

namespace Sample

/-- The root directory of the example. -/
def rootMap (k : Name) : Option Nat :=
  if k = dot ∨ k = dotdot then some 1 else if k = Image.a then some 2 else if k = Image.b then some 3 else none

theorem rootEntries {j : Nat} {k : Name} {b : Nat} : entry ((inodes 1).content disk) j = some (k, b) ↔
    (j, k, b) ∈ [(0, dot, 1), (1, dotdot, 1), (2, Image.a, 2), (3, Image.b, 3)] := by
  have h4 : ∀ j < 4, entry ((inodes 1).content disk) j =
      [(dot, 1), (dotdot, 1), (Image.a, 2), (Image.b, 3)][j]? := by decide +kernel
  by_cases hj : j < 4
  · rw [h4 j hj]
    match j, hj with
    | 0, _ => simp [eq_comm]
    | 1, _ => simp [eq_comm]
    | 2, _ => simp [eq_comm]
    | 3, _ => simp [eq_comm]
  · rw [entry_of_le]
    · constructor
      · intro h
        cases h
      · intro h
        simp at h
        omega
    · rw [InodeData.content_length]
      show 64 ≤ 16 * j
      omega

theorem rootSlots : Slots (entry ((inodes 1).content vol.blk)) rootMap := by
  constructor
  · intro i j k b c hi hj
    have hi := rootEntries.mp hi
    have hj := rootEntries.mp hj
    simp only [List.mem_cons, Prod.mk.injEq, List.not_mem_nil, or_false] at hi hj
    rcases hi with ⟨rfl, rfl, rfl⟩ | ⟨rfl, rfl, rfl⟩ | ⟨rfl, rfl, rfl⟩ | ⟨rfl, rfl, rfl⟩ <;>
      rcases hj with ⟨rfl, hk, rfl⟩ | ⟨rfl, hk, rfl⟩ | ⟨rfl, hk, rfl⟩ | ⟨rfl, hk, rfl⟩ <;>
      first | rfl | exact absurd hk (by decide)
  · intro k b
    have hex : (∃ i, entry ((inodes 1).content disk) i = some (k, b)) ↔
        (k = dot ∧ b = 1) ∨ (k = dotdot ∧ b = 1) ∨ (k = Image.a ∧ b = 2) ∨ (k = Image.b ∧ b = 3) := by
      simp [rootEntries, exists_or]
    refine Iff.trans ?_ hex.symm
    unfold rootMap
    by_cases h1 : k = dot
    · subst h1
      simp [show dot ≠ dotdot by decide, show dot ≠ Image.a by decide, show dot ≠ Image.b by decide, eq_comm]
    by_cases h2 : k = dotdot
    · subst h2
      simp [show dotdot ≠ dot by decide, show dotdot ≠ Image.a by decide, show dotdot ≠ Image.b by decide, eq_comm]
    by_cases h3 : k = Image.a
    · subst h3
      simp [show Image.a ≠ dot by decide, show Image.a ≠ dotdot by decide, show Image.a ≠ Image.b by decide, eq_comm]
    by_cases h4 : k = Image.b
    · subst h4
      simp [show Image.b ≠ dot by decide, show Image.b ≠ dotdot by decide, show Image.b ≠ Image.a by decide, eq_comm]
    · simp [h1, h2, h3, h4]

theorem rootDirectory : Directory 0 0 1 rootMap rest :=
  ⟨⟨vol, inodes, rest_fsys, rfl, live_iff.mpr (.inl rfl), rfl, ⟨4, rfl⟩, rootSlots⟩, by decide, rfl, 1, rfl⟩

end Sample

/-- A link to a long name and its lookup under the same first 14 bytes. -/
theorem directory_is_finite_map_root : ∃ rs t, (runOps 0 0 [.link (List.replicate 20 0x78) 7,
      .lookup (List.replicate 14 0x78)]).run Sample.rest = (some (.ok rs), t) ∧ rs.length = 2 :=
  (directory_is_finite_map Sample.rootDirectory [.link (List.replicate 20 0x78) 7, .lookup (List.replicate 14 0x78)]
    (by simp [DirOp.Valid])).imp fun _ h => h.imp fun _ h => ⟨h.1, h.2.1⟩

end Txv6
