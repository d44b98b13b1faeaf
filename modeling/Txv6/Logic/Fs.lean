import Txv6.Logic.Basic

/-! # Contents, directories and paths pass resources on -/
namespace Txv6.FsLogic
open Lib

variable {dp ip : InodePtr} {d : Page}

/-- `E` accepts every panic, and every jump that finds the locks `m` held: at two of the
`idata` calls also the lock of a directory. -/
structure JumpOk {p : ProcPtr} (L : FsLogic p) (m : Multiset Header)
    (E : Err → L.X → Prop) : Prop where
  err : ErrOk L.sure L.mild E
  free : ∀ {c r t}, c ≠ .unlink → c ≠ .createNew → r.locks = m → L.J r t → E (.jump c) t
  held : ∀ {c r t} (dp : InodePtr), c = .unlink ∨ c = .createNew → r.locks = .inode dp ::ₘ m → L.J r t →
    E (.jump c) t

variable {p : ProcPtr} (L : FsLogic p) {r : Res} {s : L.X} {E : Err → L.X → Prop}

/-- That `ip` is granted may be forgotten. -/
theorem drop (ip : InodePtr) (d : Page) : L.J (r.grant ip d) s → L.J r s :=
  L.weaken (Res.le_grant r ip d)

section
variable (hE : ErrOk L.sure L.mild E)
include hE

theorem panics {α : Type} {Q : α → L.X → Prop} {m : String} (hm : m ∈ fsPanics) :
    L.wp (.fail (.panic m)) Q E s :=
  L.fail (hE.panic _ _ (L.raised _ hm))

/-- An inode that is in the workset already is not refused. -/
theorem idataGranted (c : Site) (hl : .inode ip ∈ r.locks)
    (hg : ip ∈ r.granted) (h : L.J r s) : L.wp (Txv6.idata c p ip) (fun d => L.J (r.grant ip d)) E s :=
  L.idata c ip hE hl (fun hn => absurd hg hn) h

theorem iunlockput (ip : InodePtr) (h : L.J r s) :
    L.wp (iunlockput p ip) (fun _ => L.J ((r.unlock (.inode ip)).unref ip)) E s :=
  L.seq (L.iunlock ip hE h) fun _ _ h => L.iput ip hE h

/-! ## Contents -/

theorem bmapSlot (dev : Nat) (slot : Fin (ndirect + 1))
    (hd : d ∈ r.ipages) (h : L.J r s) : L.wp (bmapSlot p dev d slot) (fun _ => L.J r) E s := by
  refine L.seq (L.ifield d _ h) fun addr s h => ?_
  split
  · exact L.ret h
  · refine L.seq (L.balloc hE dev h) fun addr s h => ?_
    split
    · exact L.ret h
    · exact L.seq (L.setIfield d _ hd h) fun _ _ h => L.ret h

theorem bmapEntry (dev : Nat) {bp : BufPtr} {a : Page} (bn : Nat)
    (hb : .buf bp ∈ r.locks) (ha : a ∈ r.bpages) (h : L.J r s) :
    L.wp (bmapEntry p dev bp a bn) (fun _ => L.J r) E s := by
  refine L.seq (L.bfield a _ h) fun addr s h => ?_
  split
  · exact L.ret h
  · refine L.seq (L.balloc hE dev h) fun addr s h => ?_
    split
    · exact L.ret h
    · refine L.seq (L.setBfield a _ ha h) fun _ s h => ?_
      exact L.seq (L.logWrite bp hE hb h) fun _ _ h => L.ret h

theorem bmap (bn : Nat) (hl : .inode ip ∈ r.locks)
    (hg : ip ∈ r.granted) (h : L.J r s) : L.wp (bmap p ip bn) (fun _ => L.J r) E s := by
  refine L.seq (L.idataGranted hE _ hl hg h) fun d s h => ?_
  refine L.seq (L.read _ h) fun dev s h => ?_
  split
  · exact L.mono (fun _ _ => L.drop _ _)
      (L.bmapSlot hE dev _ (by simp) h)
  · split
    · refine L.seq (L.bmapSlot hE dev _ (by simp) h) fun ind s h => ?_
      have h := L.drop _ _ h
      split
      · exact L.ret h
      · refine L.seq (L.bread dev ind hE h) fun bp s h => ?_
        refine L.seq (L.bdata bp hE (by simp) h) fun a s h => ?_
        refine L.seq (L.bmapEntry hE dev _ (by simp) (by simp) h) fun addr s h => ?_
        have h := L.weaken (Res.le_bpage _ _) h
        exact L.seq (L.brelse bp hE h) fun _ _ h => L.ret (by simpa using h)
    · exact L.panics hE (by simp [fsPanics])
end

theorem eitherCopyout (dst : Dst) (tot : Nat) (bs : List UChar) (h : L.J r s) :
    L.wp (eitherCopyout p dst tot bs) (fun _ => L.J r) E s := by
  cases dst with
  | user va => exact L.copyoutTo _ _ h
  | kernel => exact L.ret h

theorem eitherCopyin (o : Nat) (src : Src) (tot m : Nat) (hd : d ∈ r.bpages)
    (h : L.J r s) : L.wp (eitherCopyin p d o src tot m) (fun _ => L.J r) E s := by
  cases src with
  | user va =>
    refine L.seq (L.read _ h) fun r s h => ?_
    exact L.seq (L.setBfield d _ hd h) fun _ _ h => L.ret h
  | kernel bs => exact L.seq (L.setBfield d _ hd h) fun _ _ h => L.ret h

theorem readiLoop (hE : ErrOk L.sure L.mild E) (dst : Dst) (n fuel tot off : Nat)
    (acc : List UChar) (hl : .inode ip ∈ r.locks) (hg : ip ∈ r.granted) (h : L.J r s) :
    L.wp (readiLoop p ip dst n fuel tot off acc) (fun _ => L.J r) E s := by
  induction fuel generalizing tot off acc s with
  | zero => exact L.ret h
  | succ fuel ih =>
    unfold Txv6.readiLoop
    split
    · refine L.seq (L.bmap hE _ hl hg h) fun addr s h => ?_
      split
      · exact L.ret h
      · refine L.seq (L.read _ h) fun dev s h => ?_
        refine L.seq (L.bread dev addr hE h) fun bp s h => ?_
        refine L.seq (L.bdata bp hE (by simp) h) fun d s h => ?_
        refine L.seq (L.bfield d _ h) fun bs s h => ?_
        refine L.seq (L.eitherCopyout dst tot bs h) fun ok s h => ?_
        have h := L.weaken (Res.le_bpage _ _) h
        split
        · exact L.seq (L.brelse bp hE h) fun _ _ h => ih _ _ _ (by simpa using h)
        · exact L.seq (L.brelse bp hE h) fun _ _ h => L.ret (by simpa using h)
    · exact L.ret h

/-- What a first `idata` at site `c` may do when it is refused. -/
abbrev MayJump (r : Res) (E : Err → L.X → Prop) (c : Site) (ip : InodePtr) : Prop :=
  ip ∉ r.granted → ∀ t, L.J (r.unlock (.inode ip)) t → E (.jump c) t

section
variable (hE : ErrOk L.sure L.mild E)
include hE

theorem readi (dst : Dst) (off n : Nat)
    (hl : .inode ip ∈ r.locks) (hj : L.MayJump r E .readi ip) (h : L.J r s) :
    L.wp (readi p ip dst off n) (fun _ => L.J r) E s := by
  refine L.seq (L.idata _ ip hE hl hj h) fun d s h => ?_
  refine L.seq (L.ifield d _ h) fun size s h => ?_
  dsimp only
  split
  · exact L.ret (L.drop _ _ h)
  · exact L.mono (fun _ _ => L.drop _ _)
      (L.readiLoop hE dst _ _ _ _ _ (by simpa using hl) (by simp) h)

theorem readiGranted (dst : Dst) (off n : Nat)
    (hl : .inode ip ∈ r.locks) (hg : ip ∈ r.granted) (h : L.J r s) :
    L.wp (Txv6.readi p ip dst off n) (fun _ => L.J r) E s :=
  L.readi hE dst off n hl (fun hn => absurd hg hn) h

theorem writeiLoop (src : Src) (n fuel tot off : Nat)
    (hl : .inode ip ∈ r.locks) (hg : ip ∈ r.granted) (h : L.J r s) :
    L.wp (writeiLoop p ip src n fuel tot off) (fun _ => L.J r) E s := by
  induction fuel generalizing tot off s with
  | zero => exact L.ret h
  | succ fuel ih =>
    unfold Txv6.writeiLoop
    split
    · refine L.seq (L.bmap hE _ hl hg h) fun addr s h => ?_
      split
      · exact L.ret h
      · refine L.seq (L.read _ h) fun dev s h => ?_
        refine L.seq (L.bread dev addr hE h) fun bp s h => ?_
        refine L.seq (L.bdata bp hE (by simp) h) fun d s h => ?_
        refine L.seq (L.eitherCopyin _ src tot _ (by simp) h) fun ok s h => ?_
        split
        · refine L.seq (L.logWrite bp hE (by simp) h) fun _ s h => ?_
          have h := L.weaken (Res.le_bpage _ _) h
          exact L.seq (L.brelse bp hE h) fun _ _ h => ih _ _ (by simpa using h)
        · have h := L.weaken (Res.le_bpage _ _) h
          exact L.seq (L.brelse bp hE h) fun _ _ h => L.ret (by simpa using h)
    · exact L.ret h

theorem writei (src : Src) (off n : Nat)
    (hl : .inode ip ∈ r.locks) (hj : L.MayJump r E .writei ip) (h : L.J r s) :
    L.wp (writei p ip src off n) (fun _ => L.J r) E s := by
  refine L.seq (L.idata _ ip hE hl hj h) fun d s h => ?_
  refine L.seq (L.ifield d _ h) fun size s h => ?_
  dsimp only
  split
  · exact L.ret (L.drop _ _ h)
  split
  · exact L.ret (L.drop _ _ h)
  refine L.seq (L.writeiLoop hE src _ _ _ _ (by simpa using hl) (by simp) h) fun x s h => ?_
  refine L.seq (L.ifield d _ h) fun size s h => ?_
  refine L.seq (L.when h fun _ => L.setIfield d _ (by simp) h) fun _ s h => ?_
  exact L.seq (L.iupdate ip hE h) fun _ _ h => L.ret (L.drop _ _ h)

theorem writeiGranted (src : Src) (off n : Nat)
    (hl : .inode ip ∈ r.locks) (hg : ip ∈ r.granted) (h : L.J r s) :
    L.wp (Txv6.writei p ip src off n) (fun _ => L.J r) E s :=
  L.writei hE src off n hl (fun hn => absurd hg hn) h

theorem stati (hl : .inode ip ∈ r.locks)
    (hj : L.MayJump r E .stati ip) (h : L.J r s) : L.wp (stati p ip) (fun _ => L.J r) E s :=
  L.seq (L.idata _ ip hE hl hj h) fun _ _ h => L.read _ (L.drop _ _ h)

/-! ## Directories -/

theorem dirlookupLoop (d : Page) (name : Name) (fuel off : Nat)
    (hl : .inode dp ∈ r.locks) (hg : dp ∈ r.granted) (h : L.J r s) :
    L.wp (dirlookupLoop p dp d name fuel off)
      (fun o t => o.elim (L.J r t) fun x => L.J (r.ref x.1) t) E s := by
  induction fuel generalizing off s with
  | zero => exact L.ret h
  | succ fuel ih =>
    unfold Txv6.dirlookupLoop
    refine L.seq (L.ifield d _ h) fun size s h => ?_
    split
    · refine L.seq (L.readiGranted hE _ _ _ hl hg h) fun x s h => ?_
      split
      · exact L.panics hE (by simp [fsPanics])
      dsimp only
      split
      · exact ih _ h
      split
      · refine L.seq (L.read _ h) fun dev s h => ?_
        exact L.seq (L.iget dev _ hE h) fun ip s h => L.ret h
      · exact ih _ h
    · exact L.ret h

theorem dirlookup (name : Name) (hl : .inode dp ∈ r.locks)
    (hg : dp ∈ r.granted) (h : L.J r s) :
    L.wp (dirlookup p dp name)
      (fun o t => o.elim (L.J r t) fun x => L.J (r.ref x.1) t) E s := by
  refine L.seq (L.idataGranted hE _ hl hg h) fun d s h => ?_
  have h := L.drop _ _ h
  exact L.seq (L.kassert _ _ (L.raised _ (by simp [fsPanics])) hE h) fun _ s h => L.dirlookupLoop hE d name _ _ hl hg h

theorem emptySlotLoop (d : Page) (fuel off : Nat)
    (hl : .inode dp ∈ r.locks) (hg : dp ∈ r.granted) (h : L.J r s) :
    L.wp (emptySlotLoop p dp d fuel off) (fun _ => L.J r) E s := by
  induction fuel generalizing off s with
  | zero => exact L.ret h
  | succ fuel ih =>
    unfold Txv6.emptySlotLoop
    refine L.seq (L.ifield d _ h) fun size s h => ?_
    split
    · refine L.seq (L.readiGranted hE _ _ _ hl hg h) fun x s h => ?_
      split
      · exact L.panics hE (by simp [fsPanics])
      split
      · exact L.ret h
      · exact ih _ h
    · exact L.ret h

theorem dirlink (name : Name) (inum : Nat)
    (hl : .inode dp ∈ r.locks) (hg : dp ∈ r.granted) (h : L.J r s) :
    L.wp (dirlink p dp name inum) (fun _ => L.J r) E s := by
  refine L.seq (L.dirlookup hE name hl hg h) fun o s h => ?_
  cases o with
  | some x => exact L.seq (L.iput x.1 hE h) fun _ _ h => L.ret (by simpa using h)
  | none =>
    refine L.seq (L.idataGranted hE _ hl hg h) fun d s h => ?_
    have h := L.drop _ _ h
    refine L.seq (L.emptySlotLoop hE d _ _ hl hg h) fun off s h => ?_
    refine L.seq (L.writeiGranted hE _ _ _ hl hg h) fun x s h => ?_
    split
    · exact L.ret h
    · exact L.ret h

/-! ## Paths -/

theorem cwdOf (h : L.J r s) : L.wp (cwdOf p) (fun _ => L.J r) E s := by
  refine L.seq (L.read _ h) fun o s h => ?_
  cases o with
  | none => exact L.panics hE (by simp [fsPanics])
  | some ip => exact L.ret h
end

/-- The reference that `namex` works with goes on to the next inode of the path, or to
the result. The parent of the last element has been looked at. -/
theorem namexLoop (hJ : L.JumpOk r.locks E) (parent : Bool) {fuel : Nat}
    {path : Path} (name : Name) (hf : path.length < fuel) (h : L.J (r.ref ip) s) :
    L.wp (namexLoop p parent fuel ip path name)
      (fun o t => o.elim (L.J r t) fun x => L.J (r.ref x.1) t ∧
        (parent = true → ∃ d, L.J ((r.ref x.1).grant x.1 d) t)) E s := by
  induction fuel generalizing ip path name s with
  | zero => omega
  | succ fuel ih =>
    have hE := hJ.err
    unfold Txv6.namexLoop
    split
    · split
      · exact L.seq (L.iput ip hE h) fun _ _ h => L.ret (by simpa using h)
      · rename_i hp
        exact L.ret ⟨h, fun hp' => absurd hp' hp⟩
    · rename_i rest elem hskip
      have hrest := skipelem_length hskip
      refine L.seq (L.ilock ip hE h) fun _ s h => ?_
      refine L.seq (L.idata _ ip hE (by simp)
        (fun _ _ ht => hJ.free (by simp) (by simp) (by simp) ht) h) fun d s h => ?_
      refine L.seq (L.ifield d _ h) fun type s h => ?_
      split
      · refine L.seq (L.idataRo _ ip hE (by simp) h) fun _ s h => ?_
        refine L.seq (L.iunlockput hE ip h) fun _ s h => ?_
        exact L.ret (L.drop ip d (by simpa using h))
      split
      · refine L.seq (L.iunlock ip hE h) fun _ s h => ?_
        rw [Res.grant_unlock, Res.unlock_lock] at h
        exact L.ret ⟨L.drop _ _ h, fun _ => ⟨d, h⟩⟩
      refine L.seq (L.dirlookup hE _ (by simp) (by simp) h) fun o s h => ?_
      cases o with
      | none =>
        refine L.seq (L.idataRo _ ip hE (by simp) h) fun _ s h => ?_
        refine L.seq (L.iunlockput hE ip h) fun _ s h => ?_
        exact L.ret (L.drop ip d (by simpa using h))
      | some next =>
        refine L.seq (L.idataRo _ ip hE (by simp) h) fun _ s h => ?_
        refine L.seq (L.iunlockput hE ip h) fun _ s h => ?_
        refine ih _ (by omega) (L.drop ip d ?_)
        simpa using h

theorem startOf (hE : ErrOk L.sure L.mild E) (path : Path) (h : L.J r s) :
    L.wp (startOf p path) (fun ip => L.J (r.ref ip)) E s := by
  unfold Txv6.startOf
  split
  · exact L.iget _ _ hE h
  · refine L.seq (L.cwdOf hE h) fun cwd s h => ?_
    refine L.mono ?_ (L.idup cwd h)
    rintro q t ⟨rfl, ht⟩
    exact ht

theorem namei (hJ : L.JumpOk r.locks E) (path : Path) (h : L.J r s) :
    L.wp (namei p path) (fun o t => o.elim (L.J r t) fun ip => L.J (r.ref ip) t) E s := by
  refine L.seq (M := fun o t => o.elim (L.J r t) fun x => L.J (r.ref x.1) t)
    (L.seq (L.startOf hJ.err path h) fun ip s h => ?_) fun o s h => ?_
  · refine L.mono (fun o t ht => ?_)
      (L.namexLoop hJ false [] (Nat.lt_succ_self _) h)
    cases o with
    | none => exact ht
    | some x => exact ht.1
  · cases o with
    | none => exact L.ret h
    | some x => exact L.ret h

theorem nameiparent (hJ : L.JumpOk r.locks E) (path : Path) (h : L.J r s) :
    L.wp (nameiparent p path)
      (fun o t => o.elim (L.J r t) fun x => ∃ d, L.J ((r.ref x.1).grant x.1 d) t) E s := by
  refine L.seq (L.startOf hJ.err path h) fun ip s h => ?_
  refine L.mono (fun o t ht => ?_)
    (L.namexLoop hJ true [] (Nat.lt_succ_self _) h)
  cases o with
  | none => exact ht
  | some x => exact ht.2 rfl

end Txv6.FsLogic
