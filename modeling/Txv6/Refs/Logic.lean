import Txv6.Refs.Rely
import Txv6.Logic.Calls

/-! # File system code keeps its accounts

Every reference that a local variable of a file system call accounts for is handed to an
open file or to the working directory, dropped, or owed by the transaction.

variable {ff : File} {f : FilePtr} {ip : InodePtr} {k : K Page} {omode : Nat} {major type : Short}
-/
namespace Txv6
open Lib Lib.Prog

namespace RefStep
variable {p : ProcPtr} {s : Kernel}

theorem iget {dev inum : Nat} (h : (s.iget dev inum).1 = .ok ip) :
    RefStep p (Pi.single ip 1) 0 s (s.iget dev inum).2 := by
  unfold Kernel.iget at h ⊢
  split at h
  next ip' _ =>
    cases h
    refine (setInode s ip fun x => { x with ref := x.ref + 1 }).congr fun i => ?_
    simp
  next =>
    split at h
    · cases h
    next ip' hfree =>
      have href : (s.inode ip').ref = 0 := by simpa using List.find?_some hfree
      have hrec := setInode (p := p) s ip' fun x =>
        { x with dev := dev, inum := inum, ref := 1, valid := false, writer := none }
      dsimp only at h ⊢
      split at h
      · cases h
        refine hrec.congr fun i => ?_
        simp [href]
      · have hk := of_calm (p := p) (Calm.kalloc (s.setInode ip' fun x => { x with
          dev := dev, inum := inum, ref := 1, valid := false, writer := none }))
        split at h
        · cases h
        next pg u hu =>
          cases h
          rw [hu] at hk
          have hpg := of_calm (p := p) (Calm.setPage u pg fun d => { d with ino := .zero })
          have hd := setInode (p := p) (u.setPage pg fun d => { d with ino := .zero }) ip
            fun x => { x with data := some pg }
          refine ((hrec.trans hk).trans (hpg.trans hd)).congr fun i => ?_
          simp [href]

theorem idup (s : Kernel) (ip : InodePtr) :
    RefStep p (Pi.single ip 1) 0 s (s.setInode ip fun x => { x with ref := x.ref + 1 }) :=
  (setInode s ip _).congr fun i => by simp

theorem decRef (s : Kernel) (ip : InodePtr) :
    RefStep p (fun i => -(Pi.single ip 1 : InodePtr → Int) i) 0 s (s.decRef ip) := by
  refine (setInode s ip _).congr fun i => ?_
  by_cases e : i = ip
  · subst e; simp
  · simp [e]

theorem markInode (s : Kernel) (bp : BufPtr) (inum : Nat) (type : Short) :
    RefStep p 0 0 s (s.markInode p bp inum type) := by
  refine RefStep.congr_owed ((of_calm (Calm.setPage s _ _)).trans
    (record (e := .ialloc p inum) _ (fun q => by simp) fun q i hq => by cases hq)) ?_ ?_
  · intro ip
    simp
  · intro ip
    simp

/-- A change of a file that does not change what it refers to. -/
theorem setFileSame {h : File → File}
    (hf : ∀ ip, (h (s.file f)).On ip ↔ (s.file f).On ip) : RefStep p 0 0 s (s.setFile f h) :=
  (setFile s f h).congr fun ip => by simp [hf ip]

theorem openFile_some {fd : Nat} (h : (s.openFile p ip omode type major).1 = some fd) :
    RefStep p (fun i => -(Pi.single ip 1 : InodePtr → Int) i) 0 s
      (s.openFile p ip omode type major).2 := by
  unfold Kernel.openFile at h ⊢
  split at h
  next f fd' hf _ =>
    have href : (s.file f).ref = 0 := by simpa using List.find?_some hf
    refine ((setFile s f _).trans (setProc (f := fun x => { x with
      ofile := Function.update x.ofile fd' (some f) }) rfl rfl rfl)).congr fun i => ?_
    by_cases e : i = ip
    · subst e
      have : ¬ type = tDevice ∨ type = tDevice := (em _).symm
      simp [File.On, href, this]
    · have : ip ≠ i := fun h => e h.symm
      simp [File.On, href, this, e]
  next => cases h

theorem openFile_none (h : (s.openFile p ip omode type major).1 = none) :
    (s.openFile p ip omode type major).2 = s := by
  unfold Kernel.openFile at h ⊢
  split at h
  · cases h
  · rfl

/-- What a closed file refers to. -/
def closedInode (o : Option File) (ip : InodePtr) : Int :=
  match o with
  | none => 0
  | some ff => if (ff.type = .inode ∨ ff.type = .device) ∧ ff.ip = some ip then 1 else 0

theorem fileclose {o : Option File} (h : (s.fileclose f).1 = .ok o) :
    RefStep p (closedInode o) 0 s (s.fileclose f).2 := by
  unfold Kernel.fileclose at h ⊢
  by_cases h1 : (s.file f).ref < 1
  · rw [if_pos h1] at h
    cases h
  rw [if_neg h1] at h ⊢
  by_cases h2 : 1 < (s.file f).ref
  · rw [if_pos h2] at h ⊢
    cases h
    dsimp only
    refine (setFileSame fun ip => ?_).congr fun ip => rfl
    have hpos : 1 < (s.file f).ref ↔ 0 < (s.file f).ref := by omega
    simp [File.On, hpos]
  · rw [if_neg h2] at h ⊢
    cases h
    dsimp only
    refine (setFile s f _).congr fun ip => ?_
    have hpos : 0 < (s.file f).ref := by omega
    simp [File.On, closedInode, hpos]

end RefStep

/-! ## Dropping references -/
section Iput
variable {p : ProcPtr} {w : Option InodePtr} {v : Option (List Header)} {r : Res}
  {x : Kernel × Account}
  {E : Err → Kernel × Account → Prop}

/-- A refused `idata` does not return. -/
theorem RefAlive.refused (hE : ∀ e x, RefAlive p x → E e x) (c : Site) (ip : InodePtr)
    {Q : Page → Kernel × Account → Prop} (h : RefAlive p x) : refWp p (idataOf c p ip none) Q E x := by
  have calm {α : Type} {m : K α} (hm : Steps Calm m) {x} (h : RefAlive p x) :
      refWp p m (fun _ => RefAlive p) E x := h.cleanup hE (AbortStep.of_steps hm)
  refine gwp_seq (calm (Calm.steps_iunlock _ _) h) fun _ x h => ?_
  refine gwp_seq (calm (Calm.steps_kassert _ _) h) fun _ x h => ?_
  refine gwp_seq (calm Calm.steps_read h) fun undo x h => ?_
  refine gwp_seq (calm (AbortStep.steps_runUndo _ _) h) fun _ x h => ?_
  refine gwp_seq (h.cleanup hE (steps_forWorkset AbortStep.refl p (AbortStep.steps_abortFn p)))
    fun _ x h => ?_
  refine gwp_seq (calm Calm.steps_read h) fun valid x h => ?_
  split
  · exact hE _ _ h
  · exact hE _ _ h

namespace RefInv

theorem txdata (h : RefInv p w none v r x) (hd : Header) (ro : Bool) :
    refWp p (Txv6.txdata p hd ro) (fun _ => RefInv p w none v r) E x :=
  h.atomOrPanic (κ := fun _ => r) fun _ _ ht =>
    ⟨0, .of_txCalm (TxCalm.txdata ht), fun ip => by simp⟩

section
variable (hE : ∀ e x, RefAlive p x → E e x)
include hE

theorem idata (c : Site) (ip : InodePtr) (h : RefInv p w none v r x) :
    refWp p (idata c p ip) (fun _ => RefInv p w none v r) E x := by
  refine gwp_seq (h.txdata _ _) fun o x h => ?_
  cases o with
  | none => exact h.alive.refused hE c ip
  | some d => exact h

theorem idataRo (c : Site) (ip : InodePtr) (h : RefInv p w none v r x) :
    refWp p (idataRo c p ip) (fun _ => RefInv p w none v r) E x := by
  refine gwp_seq (h.txdata _ _) fun o x h => ?_
  cases o with
  | none => exact h.alive.refused hE c ip
  | some d => exact h

theorem stableData (ip : InodePtr) (h : RefInv p w none v r x) :
    refWp p (stableData p ip) (fun _ => RefInv p w none v r) E x := by
  refine gwp_seq (h.txdata _ _) fun o x h => ?_
  cases o with
  | none => exact hE _ _ h.alive
  | some d => exact h
end

/-- An `idata` that keeps the accounts. -/
abbrev DataOk (p : ProcPtr) (E : Err → Kernel × Account → Prop) (k : K Page) : Prop :=
  ∀ {w v r x}, RefInv p w none v r x → refWp p k (fun _ => RefInv p w none v r) E x

section
variable (hE : ∀ e x, RefAlive p x → E e x)
include hE

theorem itruncWith (hk : DataOk p E k)
    (ip : InodePtr) (h : RefInv p w none v r x) :
    refWp p (itruncWith k p ip) (fun _ => RefInv p w none v r) E x :=
  gwp_seq (hk h) fun d _ h => h.txCalm (fun e x h => hE e x h.alive)
    (TxCalm.steps_itruncData p ip d)

/-- `iput` drops the reference, or leaves it to the transaction. -/
theorem iputWith (hk : DataOk p E k)
    (ip : InodePtr) (h : RefInv p w none v r x) :
    refWp p (iputWith k p ip) (fun _ => RefInv p w none v (r.unref ip)) E x := by
  have calm {α : Type} {m : K α} (hm : Steps Calm m) {x} (h : RefInv p w none v r x) :
      refWp p m (fun _ => RefInv p w none v r) E x := h.calm (fun e x h => hE e x h.alive) hm
  have active : refWp p (Txv6.txActive p)
      (fun b y => RefInv p w none v r y ∧ y.1.txActive p = b) E x := by
    refine h.act fun t g _ _ _ => ⟨0, 0, r, .refl t, fun _ => rfl, fun g h => ?_⟩
    exact ⟨h, rfl⟩
  refine gwp_seq active fun b x h => ?_
  obtain ⟨h, hb⟩ := h
  cases b with
  | true =>
    refine gwp_seq (M := fun _ => RefInv p w none v (r.unref ip)) ?_ fun _ _ h => h
    refine ⟨trivial, fun t hR _ _ => ?_⟩
    have ht := h.stable hR.1
    have hact : t.txActive p = true := (hR.1.txActive h.live).trans hb
    obtain ⟨hG, hI⟩ := ht.move (ρ := r.unref ip)
      (RefStep.record (p := p) (e := .skippedIput p ip) t (fun q => by simp)
        fun q i hq => by cases hq; rfl) fun i => by
          by_cases e : i = ip
          · subst e; simp [Res.unref, hact]
          · have : ip ≠ i := fun h => e h.symm
            simp [Res.unref, e, this]
    exact ⟨_, hG, hI⟩
  | false =>
    refine gwp_seq (M := fun last => RefInv p w none v (if last then r else r.unref ip)) ?_
      fun last x h => ?_
    · refine h.act fun t g _ _ _ => ?_
      cases t.lastUnlinked ip with
      | true =>
        refine ⟨0, 0, r, .of_calm ?_, fun _ => rfl, fun _ h => h⟩
        rw [if_pos rfl]
        exact Calm.setLock t _ _
      | false =>
        refine ⟨_, 0, r.unref ip, .decRef t ip, fun i => ?_, fun _ h => h⟩
        simp [Res.unref, sub_eq_add_neg]
    cases last with
    | false => exact h
    | true =>
      refine gwp_seq (h.itruncWith hE hk ip) fun _ x h => ?_
      refine gwp_seq (calm (Calm.steps_inodeData ip) h) fun d x h => ?_
      refine gwp_seq (calm (Calm.steps_setIfield _ _) h) fun _ x h => ?_
      refine gwp_seq (calm (Calm.steps_iupdate _ _) h) fun _ x h => ?_
      refine gwp_seq (calm (.update fun s => Calm.setInode rfl rfl) h) fun _ x h => ?_
      refine gwp_seq (calm (Calm.steps_inodeData ip) h) fun d x h => ?_
      refine gwp_seq (calm (.update fun s => Calm.kfree s d) h) fun _ x h => ?_
      refine gwp_seq (calm (.update fun s => Calm.setInode rfl rfl) h) fun _ x h => ?_
      refine gwp_seq (calm (Calm.steps_releasesleep _) h) fun _ x h => ?_
      refine h.update fun t => ⟨_, .decRef t ip, fun i => ?_⟩
      simp [Res.unref, sub_eq_add_neg]

theorem iput (ip : InodePtr) (h : RefInv p w none v r x) :
    refWp p (iput p ip) (fun _ => RefInv p w none v (r.unref ip)) E x :=
  h.iputWith hE (fun h => h.idata hE _ _) ip
end

end RefInv
end Iput

/-! ## The instance -/
section Lift
variable {p : ProcPtr} {v : Option (List Header)} {r : Res} {x : Kernel × Account}
  {E : Err → Kernel × Account → Prop} {α : Type} {m : K α} {κ : α → Res}

end Lift

namespace RefInv
variable {p : ProcPtr} {w : Option InodePtr} {ch : Option ProcPtr}
  {v : Option (List Header)} {r : Res}
  {x : Kernel × Account} {E : Err → Kernel × Account → Prop}

section
variable (h : RefInv p w ch v r x)
include h

theorem beginOp : refWp p (beginOp p) (fun _ => RefInv p w ch v r) E x := by
  refine gwp_seq (h.read _) fun b x h => ?_
  cases b with
  | true => exact h
  | false =>
    exact h.act fun t _ _ _ _ => ⟨0, 0, r, .of_calm (Calm.rest t _ _ _ _ _), fun _ => rfl, fun _ h => h⟩

theorem iget (dev inum : Nat) :
    refWp p (iget dev inum) (fun ip => RefInv p w ch v (r.ref ip)) E x :=
  h.atomOrPanic fun _ ip ht => ⟨_, .iget ht, fun i => by simp [Res.ref]⟩

theorem idup (ip : InodePtr) :
    refWp p (idup ip) (fun q y => q = ip ∧ RefInv p w ch v (r.ref ip) y) E x :=
  h.act fun t _ _ _ _ => ⟨_, 0, r.ref ip, .idup t ip, fun i => by simp [Res.ref], fun _ h => ⟨rfl, h⟩⟩

theorem iallocLoop (hE : ∀ e x, RefInv p w ch v r x → E e x)
    (dev : Nat) (type : Short) (ninodes fuel inum : Nat) :
    refWp p (iallocLoop p dev type ninodes fuel inum)
      (fun o y => o.elim (RefInv p w ch v r y) fun ip => RefInv p w ch v (r.ref ip) y) E x := by
  induction fuel generalizing inum x with
  | zero => exact h
  | succ fuel ih =>
    unfold Txv6.iallocLoop
    split
    · refine gwp_seq (h.read _) fun blk x h => ?_
      refine gwp_seq (h.calm hE (Calm.steps_bread _ _ _)) fun bp x h => ?_
      refine gwp_seq (h.read _) fun dip x h => ?_
      split
      · refine gwp_seq (h.updateSame fun t => .markInode t bp inum type) fun _ x h => ?_
        refine gwp_seq (h.calm hE (Calm.steps_logWrite _ _)) fun _ x h => ?_
        refine gwp_seq (h.calm hE (Calm.steps_brelse _ _)) fun _ x h => ?_
        exact gwp_seq (h.iget _ _) fun ip x h => h
      · exact gwp_seq (h.calm hE (Calm.steps_brelse _ _)) fun _ x h => ih h _
    · exact h

theorem openFile (ip : InodePtr) (omode : Nat) (type major : Short) :
    refWp p (.atom fun s => s.openFile p ip omode type major : K (Option Nat))
      (fun o => RefInv p w ch v (if o.isSome then r.unref ip else r)) E x := by
  refine h.act fun t _ _ _ _ => ?_
  cases ho : (t.openFile p ip omode type major).1 with
  | none =>
    refine ⟨0, 0, r, ?_, fun _ => rfl, fun _ h => h⟩
    rw [RefStep.openFile_none ho]
    exact .refl t
  | some fd =>
    refine ⟨_, 0, r.unref ip, .openFile_some ho, fun i => ?_, fun _ h => h⟩
    simp [Res.unref, sub_eq_add_neg]

theorem fileclose (f : FilePtr) :
    refWp p (Txv6.atomOrPanic fun s => s.fileclose f)
      (fun o => RefInv p w ch v { r with refs := fun ip => r.refs ip + RefStep.closedInode o ip }) E x :=
  h.atomOrPanic (κ := fun o => { r with refs := fun ip => r.refs ip + RefStep.closedInode o ip })
    fun _ _ ht => ⟨_, .fileclose ht, fun _ => rfl⟩

theorem filedup (f : FilePtr) :
    refWp p (filedup f) (fun _ => RefInv p w ch v r) E x := by
  refine h.atomOrPanic (κ := fun _ => r) fun t _ ht => ⟨0, ?_, fun i => by simp⟩
  by_cases h1 : (t.file f).ref < 1
  · rw [if_pos h1]
    exact .refl t
  · rw [if_neg h1]
    dsimp only
    refine .setFileSame fun ip => ?_
    have hpos : 0 < (t.file f).ref + 1 ↔ 0 < (t.file f).ref := by omega
    simp [File.On, hpos]

/-- The own working directory changes hands. -/
theorem setCwd (o : Option InodePtr) :
    refWp p (.update fun s => s.setProc p fun y => { y with cwd := o } : K Unit)
      (fun _ => RefInv p o ch v { r with
        refs := fun ip => r.refs ip + (if w = some ip then 1 else 0) - (if o = some ip then 1 else 0) })
      E x := by
  refine ⟨trivial, fun t hR _ _ => ?_⟩
  have ht : RefInv p w ch v r (t, x.2) := h.stable hR.1
  have hcwd : (t.proc p).cwd = w := ht.cwd
  obtain ⟨hG, hI⟩ := ht.moveProc (f := fun y => { y with cwd := o }) (.inl rfl) h.bound rfl rfl
    (ρ := { r with
      refs := fun ip => r.refs ip + (if w = some ip then 1 else 0) - (if o = some ip then 1 else 0) })
    fun ip => by rw [hcwd]
  rw [if_pos rfl] at hI
  exact ⟨_, hG, hI⟩

theorem cwdOf (hE : ∀ e x, RefInv p w ch v r x → E e x) :
    refWp p (cwdOf p) (fun cur y => w = some cur ∧ RefInv p w ch v r y) E x := by
  refine gwp_seq (M := fun o y => w = o ∧ RefInv p w ch v r y) ?_ fun o x h => ?_
  · exact h.act fun t _ _ _ _ => ⟨0, 0, r, .refl t, fun _ => rfl, fun _ h => ⟨h.cwd.symm, h⟩⟩
  · cases o with
    | none => exact hE _ _ h.2
    | some cur => exact h
end

theorem changeCwd (hE : ∀ e x, RefAlive p x → E e x) (ip : InodePtr) (h : RefInv p w none v r x) :
    refWp p (changeCwd p ip) (fun _ y => ∃ w, RefInv p w none v (r.unref ip) y) E x := by
  refine gwp_seq (h.cwdOf fun e x h => hE e x h.alive) fun cur x h => ?_
  obtain ⟨rfl, h⟩ := h
  refine gwp_seq (h.iput hE cur) fun _ x h => ?_
  refine gwp_seq (h.calm (fun e x h => hE e x h.alive) (Calm.steps_endOp p)) fun _ x h => ?_
  refine gwp_seq (h.setCwd (some ip)) fun _ x h => ⟨_, h.congr ?_⟩
  funext i
  simp only [Res.unref, Pi.sub_apply, Pi.single_apply, Option.some.injEq]
  have e₁ : cur = i ↔ i = cur := eq_comm
  have e₂ : ip = i ↔ i = ip := eq_comm
  simp only [e₁, e₂]
  omega

end RefInv

end Txv6
