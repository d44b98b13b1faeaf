import Txv6.Volume.DirMap
import Mathlib.Data.List.DropRight

/-! # Paths

`skipelem` takes a path apart, and `namex` follows it through the directories of a tree. It holds
one reference on its way and ends with one on the inode it returns, if any.
-/
namespace Txv6
open Lib Lib.Prog List

/-! ## Elements of a path -/

/-- What repeated calls of `skipelem` return: the elements, each with what is left of the path. -/
def skipelems (path : Path) : List (Name × Path) :=
  match _h : skipelem path with
  | none => []
  | some (rest, name) => (name, rest) :: skipelems rest
termination_by path.length
decreasing_by exact skipelem_length _h

section Elements
variable {path rest : Path} {name : Name}

theorem skipelems_none (h : skipelem path = none) : skipelems path = [] := by
  rw [skipelems]
  split
  · rfl
  next h' =>
    rw [h] at h'
    cases h'

theorem skipelems_some (h : skipelem path = some (rest, name)) :
    skipelems path = (name, rest) :: skipelems rest := by
  rw [skipelems]
  split
  next h' =>
    rw [h] at h'
    cases h'
  next h' =>
    rw [h] at h'
    cases h'
    rfl

/-- What is left of a path is empty or begins with another element. -/
theorem skipelem_rest (h : skipelem path = some (rest, name)) : rest = [] ↔ skipelem rest = none := by
  unfold skipelem at h
  split at h
  · cases h
  next s hs =>
    cases h
    constructor
    · intro he
      rw [he]
      rfl
    · intro hnone
      unfold skipelem at hnone
      rw [dropWhile_idempotent (p := (· == slash))] at hnone
      split at hnone
      next he => exact he
      next => cases hnone

end Elements

/-- The inodes `T` are a tree: they are linked, and the entries of its directories, with the maps
`m`, lead to inodes of the tree. -/
structure Tree (sb : Superblock) (v : Vol) (I : Nat → InodeData) (T : Set Nat) (m : Nat → Name → Option Nat) :
    Prop where
  root : rootino ∈ T
  live : ∀ n ∈ T, Live sb I n
  linked : ∀ n ∈ T, (I n).nlink ≠ 0
  dir : ∀ n ∈ T, (I n).type = tDir → (I n).Dir v.blk (m n)
  closed : ∀ n ∈ T, (I n).type = tDir → ∀ name b, m n name = some b → b ∈ T

/-- Where a list of names leads from inode `n`, or with `parent` the directory of the last name. -/
def resolve (I : Nat → InodeData) (m : Nat → Name → Option Nat) (parent : Bool) : Nat → List Name → Option Nat
  | n, [] => if parent then none else some n
  | n, name :: rest =>
    if (I n).type ≠ tDir then none
    else if parent ∧ rest = [] then some n
    else (m n (key name)).bind fun b => resolve I m parent b rest

section Resolve
variable {sb : Superblock} {v : Vol} {I : Nat → InodeData} {T : Set Nat} {m : Nat → Name → Option Nat}

end Resolve

/-! ## The code -/

/-- Process `p` runs alone on a file system with a tree. Its working directory is in the tree, and
two entries of the inode table and a buffer are free. -/
structure Resolving (p : ProcPtr) (k : Int) (v : Vol) (I : Nat → InodeData) (T : Set Nat)
    (m : Nat → Name → Option Nat) (s : Kernel) : Prop where
  fsys : Fsys p k ∅ v I s
  tree : Tree s.sb v I T m
  room : v.lh.length < nbuf
  slots : ∃ i j, i ≠ j ∧ (s.inode i).ref = 0 ∧ (s.inode j).ref = 0
  cwd : ∃ ip, (s.proc p).cwd = some ip ∧ 0 < (s.inode ip).ref ∧ (s.inode ip).inum ∈ T

/-- The inode from which `namex` starts. -/
def Kernel.start (s : Kernel) (p : ProcPtr) (path : Path) : Nat :=
  if path.head? = some slash then rootino else match (s.proc p).cwd with
    | none => 0
    | some ip => (s.inode ip).inum

theorem Carries.idataRo {p : ProcPtr} {D W : Finset BufPtr} {v : Vol} {s : Kernel} {E : Err → Kernel → Prop}
    {Q : Page → Kernel → Prop} {c : Site} {ip : InodePtr} {d : Page} (h : Carries p D W v s)
    (hd : (s.inode ip).data = some d) (hQ : Q d s) : ends (idataRo c p ip) Q E s := by
  have htx : s.txdata p (.inode ip) true = (.ok (some d), s) := by
    have hin := h.inactive
    unfold Kernel.txActive at hin
    unfold Kernel.txdata Kernel.dataPtr
    cases ht : (s.proc p).tx with
    | none =>
      dsimp only
      rw [hd]
    | some t =>
      rw [ht] at hin
      dsimp only at hin ⊢
      rw [if_neg (by simpa using hin), hd]
  unfold Txv6.idataRo txdata
  rw [ends_bind, ends_atomOrPanic htx]
  exact hQ

namespace Resolving
variable {p : ProcPtr} {k : Int} {v : Vol} {I : Nat → InodeData} {T : Set Nat} {m : Nat → Name → Option Nat}
  {s t : Kernel} {ip : InodePtr} {n : Nat} {E : Err → Kernel → Prop}

/-- What `namex` returns where the path leads to `r`, with last name `last` for the parent: a new
reference and nothing else. -/
def Found (p : ProcPtr) (k : Int) (v : Vol) (I : Nat → InodeData) (s : Kernel) (goal : Option Nat)
    (x : Option InodePtr) (t : Kernel) : Prop :=
  Fsys p k ∅ v I t ∧ match goal with
    | none => x = none ∧ Moved 0 s t
    | some b => ∃ ip, x = some ip ∧ (t.inode ip).inum = b ∧ Moved (Pi.single ip 1) s t

/-- `iunlockput` of an inode of the tree, with another reference `δ` taken meanwhile. -/
theorem unlockput {Q : Unit → Kernel → Prop} {δ : InodePtr → Int} (h : Resolving p k v I T m s) (hn : n ∈ T)
    (ht : Fsys p k {ip} v I t) (hl : t.Loaded ip n) (hmv : Moved (Pi.single ip 1 + δ) s t) (hδ : ∀ jp, 0 ≤ δ jp)
    (hQ : ∀ u, Fsys p k ∅ v I u → Moved δ s u → Moved (Pi.single ip (-1)) t u → Q () u) :
    ends (iunlockput p ip) Q E t := by
  unfold iunlockput
  rw [ends_bind]
  refine ht.iunlock (Finset.mem_singleton_self ip) fun t₁ h₁ m₁ => ?_
  rw [Finset.erase_singleton] at h₁
  have hl₁ := m₁.loaded_of_nonneg (fun _ => Int.le_refl 0) hl
  have hsum : ∀ jp, 0 ≤ ((Pi.single ip 1 : InodePtr → Int) + δ) jp := fun jp =>
    Int.add_nonneg (Moved.single_nonneg ip jp) (hδ jp)
  refine h₁.iput hl₁.ref (fun hc => absurd hc (Finset.notMem_empty ip)) ?_ fun u hu m₂ => hQ u hu ?_ (m₁.after m₂)
  · exact h₁.lastUnlinked_of_linked hl₁.ref (by rw [hl₁.inum]; exact h.tree.linked n hn)
  · have := (hmv.quiet m₁ hsum).trans m₂ hsum
    have hz : (Pi.single ip 1 : InodePtr → Int) + δ + Pi.single ip (-1) = δ := by
      rw [add_comm (Pi.single ip 1) δ, add_assoc, ← Pi.single_add, show (1 : Int) + -1 = 0 from rfl, Pi.single_zero,
        add_zero]
    rwa [hz] at this

/-- The reference that is held leaves an entry of the inode table free. -/
theorem slot_left (h : Resolving p k v I T m s) (hmv : Moved (Pi.single ip 1) s t) : ∃ jp, (t.inode jp).ref = 0 := by
  obtain ⟨i, j, hij, hi, hj⟩ := h.slots
  by_cases e : i = ip
  · refine ⟨j, ?_⟩
    rw [hmv.ref, hj, Pi.single_eq_of_ne (e ▸ hij.symm)]
    rfl
  · refine ⟨i, ?_⟩
    rw [hmv.ref, hi, Pi.single_eq_of_ne e]
    rfl

/-- The names of a path. -/
def names (path : Path) : List Name := (skipelems path).map (·.1)

section
variable (h : Resolving p k v I T m s)
include h

/-- The loop of `namex`, with a reference to inode `n`. -/
theorem namexLoop (parent : Bool) : ∀ fuel path name {ip n t}, path.length < fuel →
    Fsys p k ∅ v I t → Moved (Pi.single ip 1) s t → (t.inode ip).inum = n → n ∈ T →
    ends (namexLoop p parent fuel ip path name) (fun x u =>
      Found p k v I s (resolve I m parent n (names path)) (x.map (·.1)) u ∧
      (parent = true → ∀ y, x = some y → (names path).getLast? = some y.2)) E t := by
  intro fuel
  induction fuel with
  | zero => exact fun path name ip n t hf => absurd hf (Nat.not_lt_zero _)
  | succ fuel ih =>
    intro path name ip n t hfuel ht hmv hinum hn
    have hcount := (h.fsys.table.entry ip).counted
    have href : 0 < (t.inode ip).ref := by
      rw [hmv.ref, Pi.single_eq_same]
      omega
    have hsb : t.sb = s.sb := hmv.sb
    have hlive : Live t.sb I n := by rw [hsb]; exact h.tree.live n hn
    unfold Txv6.namexLoop
    cases hskip : skipelem path with
    | none =>
      have hnames : names path = [] := by
        unfold names
        rw [skipelems_none hskip]
        rfl
      rw [hnames]
      unfold resolve
      cases parent with
      | true =>
        simp only [if_true]
        rw [ends_bind]
        refine ht.iput href (fun hc => absurd hc (Finset.notMem_empty ip)) ?_ fun u hu hmv' => ?_
        · exact ht.lastUnlinked_of_linked href (by rw [hinum]; exact h.tree.linked n hn)
        · have := hmv.trans hmv' (Moved.single_nonneg ip)
          rw [← Pi.single_add, show (1 : Int) + -1 = 0 from rfl, Pi.single_zero] at this
          exact ⟨⟨hu, rfl, this⟩, fun _ y hy => (nomatch hy)⟩
      | false =>
        exact ⟨⟨ht, ip, rfl, hinum, hmv⟩, fun hc => (nomatch hc)⟩
    | some x =>
      obtain ⟨rest, name'⟩ := x
      have hnames : names path = name' :: names rest := by
        unfold names
        rw [skipelems_some hskip]
        rfl
      have hempty : rest = [] ↔ names rest = [] := by
        rw [skipelem_rest hskip]
        unfold names
        constructor
        · intro hr
          rw [skipelems_none hr]
          rfl
        · intro hr
          cases hs : skipelem rest with
          | none => rfl
          | some y =>
            rw [skipelems_some hs] at hr
            cases hr
      have hlt := skipelem_length hskip
      rw [hnames]
      dsimp only
      rw [ends_bind]
      refine ht.ilock (Finset.notMem_empty ip) href (by rw [hinum]; exact hlive) (.inl h.room) fun t₁ h₁ m₁ hl₁ => ?_
      rw [hinum] at hl₁
      have hmv₁ : Moved (Pi.single ip 1) s t₁ := hmv.quiet m₁ (Moved.single_nonneg ip)
      have hlive₁ : Live t₁.sb I n := by rw [hmv₁.sb]; exact h.tree.live n hn
      obtain ⟨d, hd, hed⟩ := h₁.editing hl₁ hlive₁
      rw [ends_bind]
      refine h₁.carries.idata hd ?_
      unfold ifield
      rw [ends_bind, ends_read, hed.inode.ino]
      -- the exits that drop the reference
      have hdrop : ∀ {goal : Option Nat} {lst : List Name} {t₂ : Kernel}, goal = none → Fsys p k (insert ip ∅) v I t₂ →
          Moved 0 t₁ t₂ → ends (do
            let _ ← idataRo .namexRo p ip
            iunlockput p ip
            return none) (fun x u => Found p k v I s goal (x.map (·.1)) u ∧
              (parent = true → ∀ y : InodePtr × Name, x = some y → lst.getLast? = some y.2)) E t₂ := by
        intro goal lst t₂ hgoal h₂ m₂
        have hl₂ := m₂.loaded_of_nonneg (fun _ => Int.le_refl 0) hl₁
        obtain ⟨d₂, hd₂, _⟩ := h₂.editing hl₂ (by rw [m₂.sb]; exact hlive₁)
        rw [ends_bind]
        refine h₂.carries.idataRo hd₂ ?_
        rw [ends_bind]
        refine h.unlockput (δ := 0) hn h₂ hl₂ (by rw [add_zero]; exact hmv₁.quiet m₂ (Moved.single_nonneg ip))
          (fun _ => Int.le_refl 0) fun u hu hmu _ => ?_
        rw [hgoal]
        exact ⟨⟨hu, rfl, hmu⟩, fun _ y hy => (nomatch hy)⟩
      by_cases htype : (I n).type = tDir
      swap
      · rw [if_pos htype]
        refine hdrop ?_ h₁ (.refl t₁)
        unfold resolve
        rw [if_pos htype]
      rw [if_neg (not_not.mpr htype)]
      by_cases hlast : parent = true ∧ rest = []
      · rw [if_pos hlast, ends_bind]
        refine h₁.iunlock (Finset.mem_insert_self ip ∅) fun t₂ h₂ m₂ => ?_
        rw [Finset.erase_insert (Finset.notMem_empty ip)] at h₂
        have hl₂ := m₂.loaded_of_nonneg (fun _ => Int.le_refl 0) hl₁
        have hrest := hempty.mp hlast.2
        rw [hrest]
        unfold resolve
        rw [if_neg (not_not.mpr htype), if_pos ⟨hlast.1, rfl⟩]
        refine ⟨⟨h₂, ip, rfl, hl₂.inum, hmv₁.quiet m₂ (Moved.single_nonneg ip)⟩, fun _ y hy => ?_⟩
        cases hy
        rfl
      rw [if_neg hlast]
      have hgoal : resolve I m parent n (name' :: names rest) =
          (m n (key name')).bind fun b => resolve I m parent b (names rest) := by
        conv_lhs => unfold resolve
        rw [if_neg (not_not.mpr htype), if_neg]
        rintro ⟨hp, hr⟩
        exact hlast ⟨hp, hempty.mpr hr⟩
      rw [hgoal, ends_bind]
      refine h₁.dirlookup hl₁ hlive₁ (h.tree.dir n hn htype) h.room (h.slot_left hmv₁) (fun t₂ h₂ m₂ hnone => ?_)
        fun i b jp t₂ h₂ m₂ hi hb hfresh => ?_
      · dsimp only
        refine hdrop ?_ h₂ m₂
        rw [hnone]
        rfl
      · dsimp only
        have hl₂ := m₂.loaded_of_nonneg (Moved.single_nonneg jp) hl₁
        have hmv₂ : Moved (Pi.single ip 1 + Pi.single jp 1) s t₂ := hmv₁.trans m₂ (Moved.single_nonneg ip)
        obtain ⟨d₂, hd₂, _⟩ := h₂.editing hl₂ (by rw [m₂.sb]; exact hlive₁)
        have hmap : m n (key name') = some b := ((h.tree.dir n hn htype).slots.get _ b).mpr ⟨i, hi⟩
        rw [hmap, ends_bind]
        refine h₂.carries.idataRo hd₂ ?_
        rw [ends_bind]
        refine h.unlockput hn h₂ hl₂ hmv₂ (Moved.single_nonneg jp) fun u hu hmu hdown => ?_
        -- the reference to the child stays
        have hju : (u.inode jp).inum = b := by
          have hcj := (h.fsys.table.entry jp).counted
          have hci := Moved.single_nonneg ip jp
          have hjt : 0 < (t₂.inode jp).ref := by
            rw [hmv₂.ref, Pi.add_apply, Pi.single_eq_same]
            omega
          have hju : 0 < (u.inode jp).ref := by
            rw [hmu.ref, Pi.single_eq_same]
            omega
          exact (hdown.kept jp hjt hju).1.trans hb
        refine ends_mono (ih rest name' (by omega) hu hmu hju (h.tree.closed n hn htype _ b hmap)) fun x w hx => ?_
        refine ⟨hx.1, fun hp y hy => ?_⟩
        have := hx.2 hp y hy
        cases hr : names rest with
        | nil =>
          rw [hr] at this
          cases this
        | cons a l =>
          rw [List.getLast?_cons_cons, ← hr]
          exact this

theorem start_mem (path : Path) : s.start p path ∈ T := by
  unfold Kernel.start
  split
  · exact h.tree.root
  · obtain ⟨ip, hip, _, hT⟩ := h.cwd
    rw [hip]
    exact hT

theorem startOf {Q : InodePtr → Kernel → Prop} (path : Path)
    (hQ : ∀ ip t, Fsys p k ∅ v I t → Moved (Pi.single ip 1) s t → (t.inode ip).inum = s.start p path → Q ip t) :
    ends (startOf p path) Q E s := by
  unfold Txv6.startOf
  by_cases habs : path.head? = some slash
  · rw [if_pos habs]
    obtain ⟨i, _, _, hi, _⟩ := h.slots
    refine h.fsys.iget (.inr ⟨i, hi⟩) fun ip t ht hmv hinum _ => hQ ip t ht hmv ?_
    unfold Kernel.start
    rw [if_pos habs]
    exact hinum
  · rw [if_neg habs]
    obtain ⟨ip, hip, href, _⟩ := h.cwd
    unfold cwdOf
    rw [ends_bind, ends_bind, ends_read, hip]
    refine h.fsys.idup href fun t ht hmv hinum => hQ ip t ht hmv ?_
    unfold Kernel.start
    rw [if_neg habs, hip]
    exact hinum

/-- **`namex`** returns a new reference to the inode that the path leads to. -/
theorem namex (path : Path) (parent : Bool) :
    ends (namex p path parent) (fun x u =>
      Found p k v I s (resolve I m parent (s.start p path) (names path)) (x.map (·.1)) u ∧
      (parent = true → ∀ y, x = some y → (names path).getLast? = some y.2)) E s := by
  unfold Txv6.namex
  rw [ends_bind]
  refine h.startOf path fun ip t ht hmv hinum => ?_
  exact h.namexLoop parent (path.length + 1) path [] (Nat.lt_succ_self _) ht hmv hinum (h.start_mem path)

/-- A lookup in the directory that `nameiparent` has returned. -/
theorem lookup {dp : InodePtr} {d : Nat} (name : Name) (hd : d ∈ T)
    (htype : (I d).type = tDir) (ht : Fsys p k ∅ v I t) (hmv : Moved (Pi.single dp 1) s t)
    (hinum : (t.inode dp).inum = d) : ends (do
      ilock p dp
      dirlookup p dp name) (fun x u => (x.map fun y => (u.inode y.1).inum) = m d (key name)) E t := by
  have hcount := (h.fsys.table.entry dp).counted
  have href : 0 < (t.inode dp).ref := by
    rw [hmv.ref, Pi.single_eq_same]
    omega
  have hlive : Live t.sb I d := by rw [hmv.sb]; exact h.tree.live d hd
  rw [ends_bind]
  refine ht.ilock (Finset.notMem_empty dp) href (by rw [hinum]; exact hlive) (.inl h.room) fun t₁ h₁ m₁ hl₁ => ?_
  rw [hinum] at hl₁
  have hmv₁ : Moved (Pi.single dp 1) s t₁ := hmv.quiet m₁ (Moved.single_nonneg dp)
  refine h₁.dirlookup hl₁ (by rw [m₁.sb]; exact hlive) (h.tree.dir d hd htype) h.room (h.slot_left hmv₁)
    (fun t₂ _ _ hnone => hnone.symm) fun i b ip t₂ _ _ hi hb _ => ?_
  rw [((h.tree.dir d hd htype).slots.get _ b).mpr ⟨i, hi⟩, ← hb]
  rfl
end

end Resolving

/-! ## Both entry points -/

section Claims
variable {p : ProcPtr} {k : Int} {v : Vol} {I : Nat → InodeData} {T : Set Nat} {m : Nat → Name → Option Nat}
  {s : Kernel}

end Claims

namespace Sample

end Sample

end Txv6
