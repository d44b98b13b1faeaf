import Txv6.Volume.Trunc
import Txv6.Volume.DirMap

/-! # Inodes without links

The last `iput` of an inode without links frees the inode with its blocks, and `ireclaim` does so at
boot for every inode that a crash has left without links. The blocks are freed in one operation, so
their bits have to be in few blocks of the free map.
-/
namespace Txv6
open Lib Function Finset
open Lib.Prog hiding update

/-! ## The volume without an inode -/

/-- What remains of a freed inode. -/
def InodeData.gone (i : InodeData) : InodeData := { i.trunc with type := 0 }

/-- The blocks of the free map that have the bits of an inode. -/
def InodeData.maps (sb : Superblock) (blk : Nat → Block) (i : InodeData) : Finset Nat :=
  (((i.blocks blk).filter (· ≠ 0)).map sb.bblock).toFinset

namespace Vol
variable {sb : Superblock} {v : Vol} {I : Nat → InodeData} {n : Nat} {i : InodeData} {x : Nat}

/-- The volume after the last `iput` of inode `n` without links. -/
def reclaim (sb : Superblock) (v : Vol) (n : Nat) (i : InodeData) : Vol :=
  ((v.freeList sb (i.blocks v.blk)).iupdate sb n i.trunc).iupdate sb n i.gone

theorem reclaim_above (hsb : sb.Ok) (hn : n < sb.ninodes) (hx : sb.bmapstart ≤ x) :
    (v.reclaim sb n i).blk x = (v.freeList sb (i.blocks v.blk)).blk x := by
  unfold reclaim
  rw [iupdate_above hsb hn hx, iupdate_above hsb hn hx]

theorem reclaim_bit (hsb : sb.Ok) (hn : n < sb.ninodes) (b : Nat) : (v.reclaim sb n i).bit sb b = true ↔
    v.bit sb b = true ∧ ∀ a ∈ i.blocks v.blk, a ≠ 0 → a ≠ b := by
  rw [← freeList_bit]
  unfold bit
  rw [reclaim_above hsb hn (sb.bmapstart_le_bblock b)]

/-- The data blocks stay. -/
theorem reclaim_data (h : v.Files sb I) (hsb : sb.Ok) (hn : Live sb I n) (hx : sb.datastart ≤ x) :
    (v.reclaim sb n (I n)).blk x = v.blk x := by
  rw [reclaim_above hsb hn.2.1 (Nat.le_trans (Nat.le_of_lt sb.bmapstart_lt_datastart) hx)]
  refine freeList_blk _ fun a ha ha0 e => ?_
  have := Superblock.bblock_lt (h.blocks_range hn ha ha0).2
  omega

theorem reclaim_dinode (hsb : sb.Ok) {m : Nat} (hm : m < sb.ninodes) :
    (v.reclaim sb n i).dinode sb m = update (v.dinode sb) n i.gone m := by
  have hfree : (v.freeList sb (i.blocks v.blk)).dinode sb m = v.dinode sb m := by
    refine dinode_congr hsb (fun x hx => freeList_blk _ fun a _ _ e => ?_) hm
    have := sb.bmapstart_le_bblock a
    omega
  unfold reclaim
  rw [iupdate_dinode, iupdate_dinode, update_idem]
  by_cases e : m = n
  · rw [e, update_self, update_self]
  · rw [update_of_ne e, update_of_ne e, hfree]

theorem mem_reclaim : x ∈ (v.reclaim sb n i).lh ↔ x ∈ v.lh ∨ x ∈ i.maps sb v.blk ∨ x = sb.iblock n := by
  unfold reclaim iupdate InodeData.maps
  rw [mem_put, mem_put, mem_freeList_lh]
  simp only [List.mem_toFinset, List.mem_map, List.mem_filter, decide_eq_true_eq]
  grind

theorem Homed.reclaim (h : v.Homed sb) (hsb : sb.Ok) : (v.reclaim sb n i).Homed sb := by
  intro x hx
  rcases mem_reclaim.mp hx with hx | hx | rfl
  · exact h x hx
  · unfold InodeData.maps at hx
    obtain ⟨a, _, rfl⟩ := List.mem_map.mp (List.mem_toFinset.mp hx)
    have hlow : sb.inodestart ≤ sb.bmapstart := Nat.le_trans (Nat.le_add_right _ _) (Nat.le_of_lt hsb.inodes)
    exact Nat.le_trans hlow (sb.bmapstart_le_bblock a)
  · exact Superblock.inodestart_le_iblock n

/-- The operation logs the blocks of the free map and the block of the inode. -/
theorem reclaim_length (hsb : sb.Ok) (hn : n < sb.ninodes) (hlh : v.lh = []) :
    (v.reclaim sb n i).lh.length = (i.maps sb v.blk).card + 1 := by
  have hnd : (v.reclaim sb n i).lh.Nodup := by
    have hv : v.lh.Nodup := by
      rw [hlh]
      exact List.nodup_nil
    exact log_nodup (log_nodup (freeList_lh_nodup _ hv))
  have hset : (v.reclaim sb n i).lh.toFinset = insert (sb.iblock n) (i.maps sb v.blk) := by
    ext x
    rw [List.mem_toFinset, mem_reclaim, mem_insert, hlh]
    simp [or_comm]
  have hnot : sb.iblock n ∉ i.maps sb v.blk := by
    intro hx
    unfold InodeData.maps at hx
    obtain ⟨a, _, e⟩ := List.mem_map.mp (List.mem_toFinset.mp hx)
    have := sb.bmapstart_le_bblock a
    have := hsb.iblock_lt hn
    omega
  rw [← List.toFinset_card_of_nodup hnd, hset, card_insert_of_notMem hnot]

theorem freeList_length_of_empty (hlh : v.lh = []) :
    (v.freeList sb (i.blocks v.blk)).lh.length = (i.maps sb v.blk).card := by
  have hv : v.lh.Nodup := by
    rw [hlh]
    exact List.nodup_nil
  rw [← List.toFinset_card_of_nodup (freeList_lh_nodup _ hv)]
  congr 1
  ext x
  unfold InodeData.maps
  rw [List.mem_toFinset, mem_freeList_lh, hlh]
  simp only [List.mem_toFinset, List.mem_map, List.mem_filter, decide_eq_true_eq, List.not_mem_nil, false_or]
  grind

end Vol

/-! ## The last reference -/

/-- An entry of the table goes out of use and gives its page back. -/
theorem Itable.vacate {p : ProcPtr} {L : Finset InodePtr} {I J : Nat → InodeData} {s t : Kernel} {ip : InodePtr}
    {d : Page} {x : Inode} (h : Itable p L I s) (hip : ip ∉ L) (hd : (s.inode ip).data = some d)
    (href : 0 < (s.inode ip).ref) (hJ : ∀ n, n ≠ (s.inode ip).inum → J n = I n)
    (hinode : t.inode = update s.inode ip x) (hx : x.ref = 0) (hdata : x.data = none)
    (hlock : x.lock.locked = false) (hpage : ∀ b, (t.buf b).data = (s.buf b).data) (hproc : t.proc = s.proc)
    (hheap : ∀ q, s.Apart q → q ≠ d → t.heap q = s.heap q) (hfree : t.freelist = d :: s.freelist) :
    Itable p L J t := by
  have hself : t.inode ip = x := by rw [hinode, update_self]
  have hother : ∀ jp, jp ≠ ip → t.inode jp = s.inode jp := fun jp e => by rw [hinode, update_of_ne e]
  have hapart : ∀ q, s.Apart q → t.Apart q := fun q hq b => by rw [hpage]; exact hq b
  have hused : ∀ jp, 0 < (t.inode jp).ref → jp ≠ ip := by
    rintro jp hj rfl
    rw [hself, hx] at hj
    exact absurd hj (Int.lt_irrefl 0)
  have hpages : ∀ jp q, (t.inode jp).data = some q → jp ≠ ip := by
    rintro jp q hj rfl
    rw [hself, hdata] at hj
    cases hj
  refine ⟨fun jp => ?_, fun jp kp hj hk hi => ?_, fun jp q hq => ?_, fun jp kp q hj hk => ?_, fun q hq => ?_, ?_, ?_⟩
  · by_cases e : jp = ip
    · rw [e, hself]
      exact ⟨by omega, fun hc => absurd hc (by omega), fun hc => absurd hc (by omega), fun hc => absurd hc (by omega),
        fun hL => absurd hL hip, fun _ => hlock⟩
    · rw [hother jp e, hproc]
      have he := h.entry jp
      refine { he with loaded := fun hr hv q hq => ?_ }
      have hqd : q ≠ d := fun e' => e (h.distinct jp ip q hq (e' ▸ hd))
      rw [hheap q (h.apart jp q hq) hqd, hJ _ fun hi => e (h.unique jp ip hr href hi)]
      exact he.loaded hr hv q hq
  · have ej := hused jp hj
    have ek := hused kp hk
    rw [hother jp ej] at hj hi
    rw [hother kp ek] at hk hi
    exact h.unique jp kp hj hk hi
  · rw [hother jp (hpages jp q hq)] at hq
    exact hapart q (h.apart jp q hq)
  · rw [hother jp (hpages jp q hj)] at hj
    rw [hother kp (hpages kp q hk)] at hk
    exact h.distinct jp kp q hj hk
  · rw [hfree, List.mem_cons] at hq
    have hq' : s.Apart q ∧ ∀ jp, jp ≠ ip → (s.inode jp).data ≠ some q := by
      rcases hq with rfl | hq
      · exact ⟨h.apart ip q hd, fun jp e hj => e (h.distinct jp ip q hj hd)⟩
      · exact ⟨(h.fresh q hq).1, fun jp _ => (h.fresh q hq).2 jp⟩
    refine ⟨hapart q hq'.1, fun jp hj => ?_⟩
    have e := hpages jp q hj
    rw [hother jp e] at hj
    exact hq'.2 jp e hj
  · rw [hfree, List.nodup_cons]
    exact ⟨fun hm => (h.fresh d hm).2 ip hd, h.nodup⟩
  · have hsub : t.bare ⊆ insert ip s.bare := by
      intro jp hj
      simp only [Kernel.bare, mem_filter, mem_univ, true_and, mem_insert] at hj ⊢
      by_cases e : jp = ip
      · exact .inl e
      · rw [hother jp e] at hj
        exact .inr hj
    have hcard := card_le_card hsub
    have hins := card_insert_le ip s.bare
    have := h.pages
    rw [hfree, List.length_cons]
    omega

/-- The end of such an `iput`: the entry goes out of use, and its page to the free list. -/
def Kernel.vacate (s : Kernel) (ip : InodePtr) (d : Page) : Kernel :=
  (((((s.setInode ip fun x => { x with valid := false }).kfree d).setInode ip
    fun x => { x with data := none }).setLock ⟨false, 0⟩ (.inode ip)).decRef ip)

theorem vacate_eq (s : Kernel) (ip : InodePtr) (d : Page) : s.vacate ip d = { s with
    inode := update s.inode ip { s.inode ip with
      valid := false, data := none, lock := ⟨false, 0⟩, ref := (s.inode ip).ref - 1 }
    heap := update s.heap d (.fill 1)
    freelist := d :: s.freelist } := by
  simp [Kernel.vacate, Kernel.decRef, Kernel.setLock, Kernel.setInode, Kernel.kfree, Kernel.setPage]

namespace Fsys
variable {p : ProcPtr} {k : Int} {L : Finset InodePtr} {v w : Vol} {I J : Nat → InodeData} {s t : Kernel}
  {ip : InodePtr} {n : Nat} {E : Err → Kernel → Prop} {Q : Unit → Kernel → Prop}

/-- Inode `n` has been freed on the volume, and its entry follows. -/
theorem vacate {d : Page} {i : InodeData} {x : Inode} (h : Fsys p k L v I s) (hip : ip ∉ L) (hl : s.Loaded ip n)
    (hone : (s.inode ip).ref = 1) (hd : (s.inode ip).data = some d) (hx : x.ref = 1) (ht : Carries p ∅ ∅ w t)
    (hst : Still ∅ ({ s with inode := update s.inode ip x }.setIno d i) t) (hfiles : w.Files s.sb J)
    (hJ : ∀ m, m ≠ n → J m = I m) (hdinode : ∀ m < s.sb.ninodes, w.dinode s.sb m = J m) (hhome : w.Homed s.sb) :
    Fsys p k L w J (t.vacate ip d) ∧ Moved (Pi.single ip (-1)) s (t.vacate ip d) := by
  have hap := h.table.apart ip d hd
  have hsb : t.sb = s.sb := hst.sb
  have htx : t.inode = update s.inode ip x := hst.inode
  obtain ⟨y, hy⟩ : ∃ y, y = { x with valid := false, data := none, lock := ⟨false, 0⟩, ref := 0 } := ⟨_, rfl⟩
  have hvac : t.vacate ip d = { t with
      inode := update s.inode ip y, heap := update t.heap d (.fill 1), freelist := d :: t.freelist } := by
    rw [vacate_eq, htx, update_self, update_idem, hy, hx]
    rfl
  rw [hvac]
  have hother : ∀ jp, jp ≠ ip → update s.inode ip y jp = s.inode jp := fun jp e => update_of_ne e _ _
  have htable : Itable p L J { t with
      inode := update s.inode ip y, heap := update t.heap d (.fill 1), freelist := d :: t.freelist } := by
    refine h.table.vacate hip hd hl.ref (fun m hm => hJ m (hl.inum ▸ hm)) rfl ?_ ?_ ?_ hst.page hst.proc ?_ ?_
    · rw [hy]
    · rw [hy]
    · rw [hy]
    · intro q hq hqd
      change update t.heap d (.fill 1) q = _
      rw [update_of_ne hqd, hst.heap q hq, setIno_heap hqd]
    · have hfl : t.freelist = s.freelist := hst.freelist
      rw [hfl]
  refine ⟨⟨?_, ?_, ?_, htable, ?_, ?_, ?_, ?_⟩, ?_, fun jp => ?_, fun jp hj hj' => ?_⟩
  · refine ht.congr rfl rfl rfl rfl rfl rfl fun b => ?_
    have hbd : (t.buf b).data ≠ d := by
      rw [hst.page b]
      exact hap b
    exact congrArg PageData.bytes (update_of_ne hbd _ _)
  · change w.Files t.sb J
    rw [hsb]
    exact hfiles
  · change t.sb.Ok
    rw [hsb]
    exact h.layout
  · change ∀ m < t.sb.ninodes, w.dinode t.sb m = J m
    rw [hsb]
    exact hdinode
  · change w.Homed t.sb
    rw [hsb]
    exact hhome
  · exact hst.outstanding.trans h.outstanding
  · exact hst.committing.trans h.committing
  · have hr := hst.rest
    generalize t.disk = di, t.buf = bu, t.lru = l, t.log.lh = lh, t.heap = hp at *
    subst hr
    rfl
  · change (update s.inode ip y jp).ref = _
    by_cases e : jp = ip
    · rw [e, update_self, hy, hone, Pi.single_eq_same]
      rfl
    · rw [hother jp e, Pi.single_eq_of_ne e, Int.add_zero]
  · change 0 < (update s.inode ip y jp).ref at hj'
    have e : jp ≠ ip := by
      rintro rfl
      rw [update_self, hy] at hj'
      exact absurd hj' (Int.lt_irrefl 0)
    change (update s.inode ip y jp).inum = _ ∧ (update s.inode ip y jp).data = _ ∧
      (_ → (update s.inode ip y jp).valid = true)
    rw [hother jp e]
    exact ⟨rfl, rfl, id⟩

/-- The last `iput` of an inode without links. -/
theorem iputLast (h : Fsys p k L v I s) (hk : 1 ≤ k) (hip : ip ∉ L) (hl : s.Loaded ip n)
    (hone : (s.inode ip).ref = 1) (hlive : Live s.sb I n) (hlink : (I n).nlink = 0)
    (hroom : 1 + (v.freeList s.sb ((I n).blocks v.blk)).lh.length < nbuf ∨ ∀ e t, E e t)
    (hQ : ∀ t, Fsys p k L (v.reclaim s.sb n (I n)) (update I n (I n).gone) t →
      Moved (Pi.single ip (-1)) s t → (v.reclaim s.sb n (I n)).lh.length < logblocks → Q () t) :
    ends (Txv6.iput p ip) Q E s := by
  obtain ⟨d, hd, hedit⟩ := h.editing hl hlive
  have hat := hedit.inode
  have hlast : s.lastUnlinked ip = true := by
    unfold Kernel.lastUnlinked
    rw [hd, hone, hl.valid]
    simp [hat.ino, hlink]
  have hfree : (s.inode ip).lock.locked = false := (h.table.entry ip).free hip
  have hnlt : n < s.sb.ninodes := hlive.2.1
  unfold Txv6.iput iputWith
  rw [ends_bind]
  refine h.carries.txActive ?_
  simp only [Bool.false_eq_true, if_false]
  rw [ends_bind]
  refine ⟨by simp [hfree], ?_⟩
  simp only [hlast, if_true, ends]
  obtain ⟨x, hx⟩ : ∃ x, x = { s.inode ip with lock := ⟨true, (s.proc p).pid⟩ } := ⟨_, rfl⟩
  obtain ⟨t₀, ht₀⟩ : ∃ t₀, t₀ = { s with inode := update s.inode ip x } := ⟨_, rfl⟩
  have hlock : s.setLock ⟨true, (s.proc p).pid⟩ (.inode ip) = t₀ := by
    rw [ht₀, hx]
    rfl
  rw [hlock]
  change ends (Txv6.itrunc p ip >>= _) Q E t₀
  have hself : t₀.inode ip = x := by
    rw [ht₀]
    exact update_self ..
  have hat₀ : t₀.InodeAt ip d (I n) := by
    refine ⟨?_, ?_, ?_, ?_⟩
    · rw [hself, hx]
      exact hat.dev
    · rw [hself, hx]
      exact hat.data
    · rw [ht₀]
      exact hat.apart
    · rw [ht₀]
      exact hat.ino
  have hinum₀ : (t₀.inode ip).inum = n := by
    rw [hself, hx]
    exact hl.inum
  have hsb₀ : t₀.sb = s.sb := by rw [ht₀]
  have hop₀ : 1 ≤ t₀.log.outstanding := by
    have : t₀.log = s.log := by rw [ht₀]
    rw [this, h.outstanding]
    exact hk
  have h₀ : Carries p ∅ ∅ v t₀ := by
    rw [ht₀]
    exact h.carries.congr rfl rfl rfl rfl rfl rfl fun _ => rfl
  rw [ends_bind]
  refine h₀.itrunc hat₀ hinum₀ hop₀ ?_ ?_ ?_ fun t₁ h₁ st₁ => ?_
  · rw [hsb₀]
    exact h.files.freeable hlive
  · rw [hsb₀]
    exact fun a ha ha0 => h.files.blocks_range hlive ha ha0
  · rw [hsb₀]
    exact hroom
  -- the type goes, in memory and on the volume
  have hat₁ : t₁.InodeAt ip d (I n).trunc := hat₀.setIno.still st₁
  have st₁' : Still ∅ (t₀.setIno d (I n).gone) (t₁.setIno d (I n).gone) := by
    have := st₁.setIno (i := (I n).gone) hat₀.setIno.apart
    rwa [setIno_setIno] at this
  unfold inodeData
  rw [ends_bind, ends_bind, ends_read, hat₁.data]
  change ends (setIfield d (fun x => { x with type := 0 }) >>= _) Q E t₁
  rw [ends_bind, hat₁.ends_setIfield, ends_bind]
  change ends (Txv6.iupdate p ip) _ E (t₁.setIno d (I n).gone)
  rw [hsb₀] at h₁
  have hlen : ((v.freeList s.sb ((I n).blocks v.blk)).iupdate s.sb n (I n).trunc).lh.length < nbuf ∨ ∀ e t, E e t := by
    refine hroom.imp_left fun hr => ?_
    have : ((v.freeList s.sb ((I n).blocks v.blk)).iupdate s.sb n (I n).trunc).lh.length ≤
        (v.freeList s.sb ((I n).blocks v.blk)).lh.length + 1 := Vol.put_length_le
    omega
  refine (h₁.setIno hat₁.apart).iupdate (n := n) (by simp) hat₁.setIno ?_ ?_ hlen fun t₂ h₂ st₂ hlog => ?_
  · rw [st₁'.inode]
    exact hinum₀
  · rw [st₁'.outstanding]
    exact hop₀
  have hsb₁ : (t₁.setIno d (I n).gone).sb = s.sb := st₁'.sb.trans hsb₀
  rw [hsb₁] at h₂
  have hst : Still ∅ (t₀.setIno d (I n).gone) t₂ := st₁'.trans st₂
  have hd₂ : (t₂.inode ip).data = some d := by
    rw [hst.inode]
    exact hat₀.data
  have hd₃ : ((t₂.setInode ip fun x => { x with valid := false }).inode ip).data = some d := by
    simp [Kernel.setInode, hd₂]
  rw [ends_bind, ends_update, ends_bind, ends_bind, ends_read, hd₃]
  change ends (kfree d >>= _) Q E (t₂.setInode ip fun x => { x with valid := false })
  unfold kfree releasesleep
  rw [ends_bind, ends_update, ends_bind, ends_update, ends_bind, ends_update, ends_update]
  change Q () (t₂.vacate ip d)
  have hx1 : x.ref = 1 := by
    rw [hx]
    exact hone
  rw [ht₀] at hst
  obtain ⟨hF, hM⟩ := h.vacate hip hl hone hd hx1 h₂ hst
    (h.files.drop h.layout hlive rfl (fun y hy => Vol.reclaim_data h.files h.layout hlive hy)
      fun b _ => Vol.reclaim_bit h.layout hnlt b).1
    (fun m hm => update_of_ne hm _ _)
    (fun m hm => by
      have hsame : v.dinode s.sb m = I m := h.dinode m hm
      change (v.reclaim s.sb n (I n)).dinode s.sb m = _
      rw [Vol.reclaim_dinode h.layout hm]
      by_cases e : m = n
      · rw [e, update_self, update_self]
      · rw [update_of_ne e, update_of_ne e, hsame])
    (Vol.Homed.reclaim h.home h.layout)
  refine hQ _ hF hM ?_
  have hsame : (v.reclaim s.sb n (I n)).lh = ((v.freeList s.sb ((I n).blocks v.blk)).iupdate s.sb n (I n).trunc).lh :=
    Vol.put_lh_of_mem Vol.mem_put_self
  rw [hsame]
  exact hlog

end Fsys

/-! ## The loop -/

/-- An allocated inode without links. -/
def Orphan (sb : Superblock) (I : Nat → InodeData) (n : Nat) : Prop := Live sb I n ∧ (I n).nlink = 0

instance {sb : Superblock} {I : Nat → InodeData} {n : Nat} : Decidable (Orphan sb I n) :=
  inferInstanceAs (Decidable (_ ∧ _))

/-- The inodes `S` have been freed, with their blocks and nothing else. -/
structure Swept (sb : Superblock) (S : Nat → Prop) (v : Vol) (I : Nat → InodeData) (w : Vol) (J : Nat → InodeData) :
    Prop where
  gone : ∀ n, S n → J n = (I n).gone
  kept : ∀ n, ¬ S n → J n = I n
  bit : ∀ b, w.bit sb b = true ↔ v.bit sb b = true ∧ ∀ n, S n → ∀ a ∈ (I n).blocks v.blk, a ≠ 0 → a ≠ b
  data : ∀ x, sb.datastart ≤ x → w.blk x = v.blk x

namespace InodeData
variable {blk blk' : Nat → Block} {i : InodeData}

theorem blocks_congr (h : i.ind ≠ 0 → blk' i.ind = blk i.ind) : i.blocks blk' = i.blocks blk := by
  rw [blocks_eq, blocks_eq]
  exact List.map_congr_left fun k _ => slot_congr h k

theorem maps_congr {sb : Superblock} (h : i.ind ≠ 0 → blk' i.ind = blk i.ind) : i.maps sb blk' = i.maps sb blk := by
  unfold maps
  rw [blocks_congr h]

end InodeData

namespace Swept
variable {sb : Superblock} {S S' : Nat → Prop} {v w u : Vol} {I J : Nat → InodeData} {n : Nat}

theorem refl (hS : ∀ n, ¬ S n) : Swept sb S v I v I :=
  ⟨fun n hn => absurd hn (hS n), fun _ _ => rfl, fun _ => ⟨fun h => ⟨h, fun n hn => absurd hn (hS n)⟩, fun h => h.1⟩,
    fun _ _ => rfl⟩

section
variable (h : Swept sb S v I w J)
include h

theorem congr (hS : ∀ n, S' n ↔ S n) : Swept sb S' v I w J := by
  have e : S' = S := funext fun n => propext (hS n)
  rw [e]
  exact h

/-- The indirect block of a file is a data block. -/
theorem ind_same (hv : v.Files sb I) (hn : Live sb I n) (hind : (I n).ind ≠ 0) :
    w.blk (I n).ind = v.blk (I n).ind := by
  refine h.data _ ?_
  rw [← InodeData.slot_ind v.blk] at hind ⊢
  exact (hv.slot_range hn ndirect_lt_nslots hind).1

/-- One more inode. -/
theorem reclaim (hv : v.Files sb I) (hw : w.Files sb J) (hsb : sb.Ok) (hS : ¬ S n)
    (hn : Live sb I n) :
    Swept sb (fun m => S m ∨ m = n) v I (w.reclaim sb n (J n)) (update J n (J n).gone) := by
  have hJ := h.kept n hS
  have hlive : Live sb J n := ⟨hn.1, hn.2.1, by rw [hJ]; exact hn.2.2⟩
  have hblocks : (J n).blocks w.blk = (I n).blocks v.blk := by
    rw [hJ]
    exact InodeData.blocks_congr (h.ind_same hv hn)
  refine ⟨fun m hm => ?_, fun m hm => ?_, fun b => ?_, fun x hx => ?_⟩
  · by_cases e : m = n
    · rw [e, update_self, hJ]
    · rw [update_of_ne e]
      exact h.gone m (hm.resolve_right e)
  · have e : m ≠ n := fun e => hm (.inr e)
    rw [update_of_ne e]
    exact h.kept m fun hs => hm (.inl hs)
  · rw [Vol.reclaim_bit hsb hn.2.1, h.bit, hblocks]
    constructor
    · rintro ⟨⟨h1, h2⟩, h3⟩
      refine ⟨h1, fun m hm => ?_⟩
      rcases hm with hm | rfl
      · exact h2 m hm
      · exact h3
    · rintro ⟨h1, h2⟩
      exact ⟨⟨h1, fun m hm => h2 m (.inl hm)⟩, h2 n (.inr rfl)⟩
  · rw [Vol.reclaim_data hw hsb hlive hx]
    exact h.data x hx

/-- The commit changes the log only. -/
theorem above (hsb : sb.Ok) (hu : ∀ x, sb.inodestart ≤ x → u.blk x = w.blk x) :
    Swept sb S v I u J := by
  have hlow : sb.inodestart ≤ sb.bmapstart := Nat.le_trans (Nat.le_add_right _ _) (Nat.le_of_lt hsb.inodes)
  refine ⟨h.gone, h.kept, fun b => ?_, fun x hx => ?_⟩
  · rw [← h.bit b]
    unfold Vol.bit
    rw [hu _ (Nat.le_trans hlow (sb.bmapstart_le_bblock b))]
  · rw [hu x (Nat.le_trans (Vol.inodestart_le_datastart hsb) hx)]
    exact h.data x hx
end

end Swept

/-- The blocks of the free map and the block of the inode fit into one operation. -/
def InodeData.Fits (sb : Superblock) (blk : Nat → Block) (i : InodeData) : Prop := (i.maps sb blk).card + 1 < logblocks

/-- The loop of `ireclaim`, which was called in state `s`, is in front of inode `m`. -/
structure Sweeping (p : ProcPtr) (v : Vol) (I : Nat → InodeData) (s : Kernel) (m : Nat) (t : Kernel) : Prop where
  fsys : ∃ w J, Fsys p 0 ∅ w J t ∧ w.lh = [] ∧ Swept s.sb (fun n => Orphan s.sb I n ∧ n < m) v I w J
  moved : Moved 0 s t
  fits : ∀ n, Orphan s.sb I n → n < m → (I n).Fits s.sb v.blk

/-- Process `p` runs alone, outside of operations and transactions, on a consistent file system. The
inode table has a free entry and none in use for an inode without links. -/
structure Unopened (p : ProcPtr) (v : Vol) (I : Nat → InodeData) (s : Kernel) : Prop where
  fsys : Fsys p 0 ∅ v I s
  logged : v.lh = []
  slot : ∃ jp, (s.inode jp).ref = 0
  closed : ∀ jp, 0 < (s.inode jp).ref → ¬ Orphan s.sb I (s.inode jp).inum

namespace Sweeping
variable {p : ProcPtr} {v : Vol} {I : Nat → InodeData} {s t : Kernel} {m : Nat} {E : Err → Kernel → Prop}
  {u : Kernel} {J : Nat → InodeData} {Q : Unit → Kernel → Prop} {w : Vol}

theorem start (h : Unopened p v I s) : Sweeping p v I s 1 s := by
  refine ⟨⟨v, I, h.fsys, h.logged, .refl fun n hn => ?_⟩, .refl s, fun n hn hlt => ?_⟩
  · have := hn.1.1.1
    have := hn.2
    omega
  · have := hn.1.1
    omega

/-- An inode that is not freed. -/
theorem skip (h : Sweeping p v I s m t) (hu : Fsys p 0 ∅ w J u)
    (hlh : w.lh = []) (hsw : Swept s.sb (fun n => Orphan s.sb I n ∧ n < m) v I w J) (hmv : Moved 0 t u)
    (hm : ¬ Orphan s.sb I m) : Sweeping p v I s (m + 1) u := by
  have hiff : ∀ n, Orphan s.sb I n ∧ n < m + 1 ↔ Orphan s.sb I n ∧ n < m := by
    intro n
    refine and_congr_right fun hn => ?_
    have hne : n ≠ m := fun e => hm (e ▸ hn)
    omega
  refine ⟨⟨w, J, hu, hlh, hsw.congr hiff⟩, h.moved.after hmv, fun n hn hlt => ?_⟩
  exact h.fits n hn ((hiff n).mp ⟨hn, hlt⟩).2

/-- An inode that is freed, with the commit of the operation. -/
theorem free {k : K Unit} {ip : InodePtr}
    (h : Sweeping p v I s m t) (hs : Unopened p v I s) (hcnt : 0 ≤ (t.inode ip).ref) (hu : Fsys p 0 ∅ w J u)
    (hlh : w.lh = []) (hsw : Swept s.sb (fun n => Orphan s.sb I n ∧ n < m) v I w J)
    (hmv : Moved (Pi.single ip 1) t u) (hinum : (u.inode ip).inum = m) (hm : Orphan s.sb I m)
    (hroom : (∀ n, Orphan s.sb I n → (I n).Fits s.sb v.blk) ∨ ∀ e t, E e t)
    (hQ : ∀ t', Sweeping p v I s (m + 1) t' → ends k Q E t') :
    ends (do
      beginOp p
      ilock p ip
      iunlock p ip
      iput p ip
      endOp p
      k) Q E u := by
  have hsb : u.sb = s.sb := hmv.sb.trans h.moved.sb
  have hJ : J m = I m := hsw.kept m fun hc => Nat.lt_irrefl m hc.2
  have hlive : Live u.sb J m := by
    rw [hsb]
    exact ⟨hm.1.1, hm.1.2.1, by rw [hJ]; exact hm.1.2.2⟩
  -- nobody had the inode open
  have hzero : (t.inode ip).ref = 0 := by
    by_contra hne
    have hpos : 0 < (t.inode ip).ref := by omega
    have hposu : 0 < (u.inode ip).ref := by
      rw [hmv.ref, Pi.single_eq_same]
      omega
    have href : (t.inode ip).ref = (s.inode ip).ref := by
      rw [h.moved.ref]
      exact Int.add_zero _
    have hposs : 0 < (s.inode ip).ref := by omega
    have hi : (s.inode ip).inum = m := by
      rw [← (h.moved.kept ip hposs hpos).1, ← (hmv.kept ip hpos hposu).1]
      exact hinum
    exact hs.closed ip hposs (hi ▸ hm)
  have hone : (u.inode ip).ref = 1 := by
    rw [hmv.ref, Pi.single_eq_same, hzero]
    rfl
  have hmaps : (I m).maps s.sb w.blk = (I m).maps s.sb v.blk :=
    InodeData.maps_congr (hsw.ind_same hs.fsys.files hm.1)
  rw [ends_bind]
  refine hu.beginOp hlh fun t₁ h₁ m₁ => ?_
  have href₁ : (t₁.inode ip).ref = 1 := by
    rw [m₁.ref, hone]
    rfl
  have hinum₁ : (t₁.inode ip).inum = m := by
    rw [(m₁.kept ip (by omega) (by omega)).1]
    exact hinum
  rw [ends_bind]
  refine h₁.ilock (notMem_empty ip) (by omega) ?_ (.inl (by rw [hlh]; decide)) fun t₂ h₂ m₂ hl₂ => ?_
  · rw [m₁.sb, hinum₁]
    exact hlive
  rw [hinum₁] at hl₂
  rw [ends_bind]
  refine h₂.iunlock (mem_insert_self ip ∅) fun t₃ h₃ m₃ => ?_
  rw [erase_insert (notMem_empty ip)] at h₃
  have m₁₃ := m₁.after (m₂.after m₃)
  have href₃ : (t₃.inode ip).ref = 1 := by
    rw [m₁₃.ref, hone]
    rfl
  have hl₃ : t₃.Loaded ip m := m₃.loaded hl₂ (by omega)
  have hsb₃ : t₃.sb = s.sb := m₁₃.sb.trans hsb
  have hcard : (w.freeList s.sb ((I m).blocks w.blk)).lh.length = ((I m).maps s.sb w.blk).card :=
    Vol.freeList_length_of_empty hlh
  rw [ends_bind]
  refine h₃.iputLast (Int.le_refl 1) (notMem_empty ip) hl₃ href₃ ?_ ?_ ?_ fun t₄ h₄ m₄ hlog => ?_
  · rw [m₁₃.sb]
    exact hlive
  · rw [hJ]
    exact hm.2
  · refine hroom.imp_left fun hfit => ?_
    have hfit := hfit m hm
    unfold InodeData.Fits at hfit
    rw [hsb₃, hJ, hcard, hmaps, Nat.add_comm]
    exact hfit
  have m₀₄ : Moved 0 t t₄ := by
    have := (hmv.quiet m₁₃ (Moved.single_nonneg ip)).trans m₄ (Moved.single_nonneg ip)
    rwa [← Pi.single_add, show (1 : Int) + -1 = 0 from rfl, Pi.single_zero] at this
  have hlt : m < s.sb.ninodes := hm.1.2.1
  rw [hsb₃] at h₄ hlog
  rw [ends_bind]
  refine h₄.endOp hlog fun w' t₅ h₅ hlh₅ hblk m₅ => hQ t₅ ?_
  have hsb₄ : t₄.sb = s.sb := m₀₄.sb.trans h.moved.sb
  rw [hsb₄] at hblk
  have hiff : ∀ n, Orphan s.sb I n ∧ n < m + 1 ↔ (Orphan s.sb I n ∧ n < m) ∨ n = m := by
    intro n
    constructor
    · rintro ⟨hn, hlt⟩
      by_cases e : n = m
      · exact .inr e
      · exact .inl ⟨hn, by omega⟩
    · rintro (⟨hn, hlt⟩ | rfl)
      · exact ⟨hn, by omega⟩
      · exact ⟨hm, Nat.lt_succ_self n⟩
  have hw : w.Files s.sb J := by
    rw [← hsb]
    exact hu.files
  have hsw' := hsw.reclaim hs.fsys.files hw hs.fsys.layout (fun hc => Nat.lt_irrefl m hc.2) hm.1
  refine ⟨⟨w', _, h₅, hlh₅, (hsw'.above hs.fsys.layout hblk).congr hiff⟩, h.moved.after (m₀₄.after m₅),
    fun n hn hlt => ?_⟩
  rcases (hiff n).mp ⟨hn, hlt⟩ with hc | rfl
  · exact h.fits n hn hc.2
  · unfold InodeData.Fits
    rw [hJ, Vol.reclaim_length hs.fsys.layout hn.1.2.1 hlh, hmaps] at hlog
    exact hlog

/-- The loop from inode `m` on. -/
theorem loop (hs : Unopened p v I s) (hroom : (∀ n, Orphan s.sb I n → (I n).Fits s.sb v.blk) ∨ ∀ e t, E e t)
    (hQ : ∀ m t, s.sb.ninodes ≤ m → Sweeping p v I s m t → Q () t) :
    ∀ fuel {m : Nat} {t : Kernel}, Sweeping p v I s m t → 1 ≤ m → s.sb.ninodes ≤ m + fuel →
      ends (ireclaimLoop p rootdev s.sb.ninodes fuel m) Q E t := by
  intro fuel
  induction fuel with
  | zero =>
    intro m t h _ hfuel
    unfold ireclaimLoop
    rw [ends_pure]
    exact hQ m t hfuel h
  | succ fuel ih =>
    intro m t h hm hfuel
    unfold ireclaimLoop
    by_cases hlt : m < s.sb.ninodes
    swap
    · rw [if_neg hlt, ends_pure]
      exact hQ m t (Nat.le_of_not_lt hlt) h
    rw [if_pos hlt]
    have hnext : ∀ t', Sweeping p v I s (m + 1) t' → ends (ireclaimLoop p rootdev s.sb.ninodes fuel (m + 1)) Q E t' :=
      fun t' h' => ih h' (by omega) (by omega)
    obtain ⟨w, J, hf, hlh, hsw⟩ := h.fsys
    have hsb : t.sb = s.sb := h.moved.sb
    have hJ : J m = I m := hsw.kept m fun hc => Nat.lt_irrefl m hc.2
    rw [ends_bind, ends_read, hsb, ends_bind]
    refine hf.carries.bread (by simp) (by simp) (.inl (.inr (by rw [hlh]; decide))) fun b t₁ hb h₁ st₁ b₁ => ?_
    rw [insert_empty_eq] at h₁
    have hbD := mem_singleton_self b
    have hdip : dinodeAt (t₁.heap (t₁.buf b).data).bytes (dinodeOff m) = I m := by
      have hblk := h₁.bytes hbD
      unfold Kernel.bytes at hblk
      rw [hblk, b₁, ← hJ, ← hf.dinode m (by rw [hsb]; exact hlt), hsb]
      rfl
    rw [ends_bind, ends_read, hdip]
    by_cases ho : (I m).type ≠ 0 ∧ (I m).nlink = 0
    · have horphan : Orphan s.sb I m := ⟨⟨hm, hlt, ho.1⟩, ho.2⟩
      rw [if_pos ho]
      change ends ((iget rootdev m >>= pure ∘ some) >>= _) Q E t₁
      have htable := hf.table.still st₁
      have hslot : ∃ jp, (t₁.inode jp).ref = 0 := by
        obtain ⟨jp, hj⟩ := hs.slot
        refine ⟨jp, ?_⟩
        rw [st₁.inode, h.moved.ref, hj]
        rfl
      rw [ends_bind, ends_bind]
      refine ends_mono (htable.iget (.inr hslot)) fun ip t₂ hg => ?_
      rw [comp_apply, ends_pure, ends_bind]
      refine (hg.carries h₁).brelse (D := ∅) (notMem_empty b) fun t₃ h₃ st₃ _ => ?_
      have m₁ : Moved 0 t t₁ := .of_still st₁
      have m₃ : Moved (Pi.single ip 1) t t₃ := m₁.after (hg.moved.quiet (.of_still st₃) (Moved.single_nonneg ip))
      have hf₃ : Fsys p 0 ∅ w J t₃ := by
        refine ⟨h₃, ?_, ?_, hg.table.still st₃, ?_, ?_, ?_, ?_⟩
        · rw [m₃.sb]
          exact hf.files
        · rw [m₃.sb]
          exact hf.layout
        · rw [m₃.sb]
          exact hf.dinode
        · rw [m₃.sb]
          exact hf.home
        · rw [st₃.outstanding, hg.log, st₁.outstanding]
          exact hf.outstanding
        · rw [st₃.committing, hg.log, st₁.committing]
          exact hf.committing
      have hinum : (t₃.inode ip).inum = m := by
        rw [st₃.inode]
        exact hg.inum
      exact h.free hs (hf.table.entry ip).counted hf₃ hlh hsw m₃ hinum horphan hroom hnext
    · have horphan : ¬ Orphan s.sb I m := fun hc => ho ⟨hc.1.2.2, hc.2⟩
      rw [if_neg ho, ends_bind, ends_pure, ends_bind]
      refine h₁.brelse (D := ∅) (notMem_empty b) fun t₂ h₂ st₂ _ => ?_
      have st : Still ∅ t t₂ := st₁.trans st₂
      exact hnext t₂ (h.skip (hf.still h₂ st) hlh hsw (.of_still st) horphan)

end Sweeping

/-! ## The result -/

/-- An allocated inode without links on the volume of a state. -/
def Kernel.Orphan (s : Kernel) (n : Nat) : Prop := Txv6.Orphan s.sb s.dinode n

/-- The blocks of inode `n`, as recorded in its dinode and its indirect block; 0 stands for no block. -/
def Kernel.blocks (s : Kernel) (n : Nat) : List Nat := (s.dinode n).blocks s.blk

/-- The inodes without links are gone, with their blocks and nothing else. -/
structure Reclaimed (s t : Kernel) : Prop where
  none : ∀ n, ¬ t.Orphan n
  bit : ∀ b, t.vol.bit s.sb b = true ↔ s.vol.bit s.sb b = true ∧ ∀ n, s.Orphan n → ∀ a ∈ s.blocks n, a ≠ 0 → a ≠ b
  dinode : ∀ n < s.sb.ninodes, ¬ s.Orphan n → t.dinode n = s.dinode n
  content : ∀ n, Live s.sb s.dinode n → ¬ s.Orphan n → (t.dinode n).content t.blk = (s.dinode n).content s.blk
  ref : ∀ ip, (t.inode ip).ref = (s.inode ip).ref
  disk : ∀ x, t.disk x = t.blk x

/-- The state in which `ireclaim` is called after recovery: process `p` runs alone on a consistent
file system, nothing is logged, the inode table has a free entry, and nobody has an inode without
links open. -/
structure Recovered (p : ProcPtr) (s : Kernel) : Prop where
  fsys : ∃ v I, Fsys p 0 ∅ v I s ∧ v.lh = []
  slot : ∃ jp, (s.inode jp).ref = 0
  closed : ∀ jp, 0 < (s.inode jp).ref → ¬ s.Orphan (s.inode jp).inum

section Result
variable {p : ProcPtr} {k : Int} {L : Finset InodePtr} {v : Vol} {I : Nat → InodeData} {s t : Kernel} {n : Nat}
  {E : Err → Kernel → Prop}

theorem Fsys.live_iff (h : Fsys p k L v I s) : Live s.sb s.dinode n ↔ Live s.sb I n := by
  unfold Live
  refine and_congr_right fun _ => and_congr_right fun hlt => ?_
  unfold Kernel.dinode
  rw [h.carries.vol, h.dinode n hlt]

theorem Fsys.orphan_iff (h : Fsys p k L v I s) : s.Orphan n ↔ Orphan s.sb I n := by
  unfold Kernel.Orphan Txv6.Orphan
  rw [h.live_iff]
  refine and_congr_right fun hlive => ?_
  rw [h.dinode_eq hlive]

theorem Fsys.blocks_eq (h : Fsys p k L v I s) (hlive : Live s.sb I n) : s.blocks n = (I n).blocks v.blk := by
  unfold Kernel.blocks
  rw [h.dinode_eq hlive, show s.blk = v.blk from funext h.carries.blk]

theorem Fsys.fits_iff (h : Fsys p k L v I s) (hlive : Live s.sb I n) :
    (s.dinode n).Fits s.sb s.blk ↔ (I n).Fits s.sb v.blk := by
  rw [h.dinode_eq hlive, show s.blk = v.blk from funext h.carries.blk]

/-- The loop at its end. -/
theorem Sweeping.reclaimed {m : Nat} (h : Sweeping p v I s m t) (hs : Unopened p v I s) (hm : s.sb.ninodes ≤ m) :
    Reclaimed s t := by
  obtain ⟨w, J, hf, hlh, hsw⟩ := h.fsys
  have hsb : t.sb = s.sb := h.moved.sb
  have hS : ∀ n, Orphan s.sb I n ∧ n < m ↔ Orphan s.sb I n := fun n =>
    ⟨fun hn => hn.1, fun hn => ⟨hn, Nat.lt_of_lt_of_le hn.1.2.1 hm⟩⟩
  have hsw := hsw.congr fun n => (hS n).symm
  have hblk : t.blk = w.blk := funext hf.carries.blk
  have hkept : ∀ n < s.sb.ninodes, ¬ s.Orphan n → t.dinode n = s.dinode n := by
    intro n hn ho
    unfold Kernel.dinode
    rw [hf.carries.vol, hs.fsys.carries.vol, hs.fsys.dinode n hn, hf.dinode n (by rw [hsb]; exact hn)]
    exact hsw.kept n fun hc => ho (hs.fsys.orphan_iff.mpr hc)
  refine ⟨fun n hn => ?_, fun b => ?_, hkept, fun n hn ho => ?_, fun ip => ?_, fun x => ?_⟩
  · have hn := hf.orphan_iff.mp hn
    rw [hsb] at hn
    by_cases ho : Orphan s.sb I n
    · have htype : (J n).type = 0 := by
        rw [hsw.gone n ho]
        rfl
      exact hn.1.2.2 htype
    · have hJ := hsw.kept n ho
      refine ho ⟨⟨hn.1.1, hn.1.2.1, ?_⟩, ?_⟩
      · rw [← hJ]
        exact hn.1.2.2
      · rw [← hJ]
        exact hn.2
  · rw [hf.carries.vol, hs.fsys.carries.vol, hsw.bit]
    refine and_congr_right fun _ => forall_congr' fun n => ?_
    rw [hs.fsys.orphan_iff]
    refine forall_congr' fun ho => ?_
    rw [hs.fsys.blocks_eq ho.1]
  · have hlive := hs.fsys.live_iff.mp hn
    rw [hkept n hn.2.1 ho, hs.fsys.dinode_eq hlive, hblk, show s.blk = v.blk from funext hs.fsys.carries.blk]
    have hslot : ∀ k, (I n).slot w.blk k = (I n).slot v.blk k := InodeData.slot_congr (hsw.ind_same hs.fsys.files hlive)
    have hw := hs.fsys.whole hlive
    refine List.ext_getElem? fun j => ?_
    by_cases hj : j < (I n).size.toNat
    · rw [InodeData.content_getElem? hj, InodeData.content_getElem? hj]
      unfold InodeData.byte
      rw [InodeData.addr_congr hslot]
      have hne := (hw.block hj).2
      rw [hsw.data]
      exact (hs.fsys.files.slot_range hlive (slotOf_lt (hw.block hj).1) hne).1
    · rw [List.getElem?_eq_none, List.getElem?_eq_none]
      · rw [InodeData.content_length]
        omega
      · rw [InodeData.content_length]
        omega
  · rw [h.moved.ref]
    exact Int.add_zero _
  · rw [hblk]
    exact hf.carries.disk hlh x

/-- `ireclaim` frees the inodes without links, each in one operation. -/
theorem Unopened.ireclaim (hs : Unopened p v I s)
    (hroom : (∀ n, Orphan s.sb I n → (I n).Fits s.sb v.blk) ∨ ∀ e t, E e t) :
    ends (ireclaim p rootdev) (fun _ t => Reclaimed s t ∧ ∀ n, Orphan s.sb I n → (I n).Fits s.sb v.blk) E s := by
  unfold Txv6.ireclaim
  rw [ends_bind, ends_read]
  refine Sweeping.loop hs hroom (fun m t hm h => ?_) _ (Sweeping.start hs) (Nat.le_refl 1) (Nat.le_add_left _ _)
  exact ⟨h.reclaimed hs hm, fun n hn => h.fits n hn (Nat.lt_of_lt_of_le hn.1.2.1 hm)⟩

theorem Recovered.unopened (h : Recovered p s) : ∃ v I, Unopened p v I s := by
  obtain ⟨v, I, hf, hlh⟩ := h.fsys
  exact ⟨v, I, hf, hlh, h.slot, fun jp hj hc => h.closed jp hj (hf.orphan_iff.mpr hc)⟩

end Result

/-! ## Disks with an inode to free -/

theorem bitAt_foldl_setBit (l : List Nat) (x : Block) (i : Nat) :
    bitAt (l.foldl setBit x) i = (bitAt x i || decide (i ∈ l)) := by
  induction l generalizing x with
  | nil => simp
  | cons a l ih =>
    rw [List.foldl_cons, ih, setBit_bitAt, Bool.or_assoc]
    congr 1
    simp only [List.mem_cons, Bool.decide_or, eq_comm]

namespace Scattered

def superblock : Superblock := ⟨245760, 245683, 200, 31, 2, 33, 46⟩

def root : InodeData := ⟨tDir, 0, 0, 1, 64, fun k => if k = 0 then 77 else 0⟩

/-- A file without links whose blocks have the distance `d`. -/
def file (d : Nat) : InodeData := ⟨tFile, 0, 0, 0, 28672, fun k => BitVec.ofNat 32 (100 + d * k)⟩

def inodes (d : Nat) : Nat → InodeData
  | 1 => root
  | 2 => file d
  | _ => .zero

def inodeBlock (d : Nat) : Block :=
  putBytes (putBytes (fun _ => 0) (dinodeOff 1) root.bytes) (dinodeOff 2) (file d).bytes

def indirectEntry (d j : Nat) : Uint := if j < 16 then BitVec.ofNat 32 (100 + d * (13 + j)) else 0

def indirect (d : Nat) : Block := fun i => byteOf (indirectEntry d (i / 4)) (i % 4)

def used (d b : Nat) : Bool := decide (b < 78) || (List.range 29).any fun k => b == 100 + d * k

def bitmap (d j : Nat) : Block := ((List.range bpb).filter fun i => used d (bpb * j + i)).foldl setBit fun _ => 0

def disk (d : Nat) : Nat → Block := fun x =>
  if x = 33 then inodeBlock d
  else if 46 ≤ x ∧ x < 77 then bitmap d (x - 46)
  else if x = 100 + d * 12 then indirect d
  else fun _ => 0

def vol (d : Nat) : Vol := ⟨disk d, []⟩

def kernel (d : Nat) : Kernel := { Image.booted with sb := superblock, disk := disk d }

variable {d : Nat} {b n : Nat}

theorem superblock_ok : superblock.Ok := ⟨by decide, by decide, by decide, by decide⟩

theorem live_iff : Live superblock (inodes d) n ↔ n = 1 ∨ n = 2 := by
  unfold Live
  constructor
  · rintro ⟨_, _, h⟩
    by_contra hn
    rw [not_or] at hn
    refine h ?_
    unfold inodes
    split <;> simp_all [InodeData.zero]
  · rintro (rfl | rfl)
    · exact ⟨by decide, by decide, by simp [inodes, root, tDir]⟩
    · exact ⟨by decide, by decide, by simp [inodes, file, tFile]⟩

theorem bit_eq (hb : b < superblock.size) : (vol d).bit superblock b = used d b := by
  have hb : b < 245760 := hb
  have hdiv : b / 8192 < 30 := Nat.div_lt_of_lt_mul hb
  have hblk : disk d (superblock.bblock b) = bitmap d (b / bpb) := by
    change disk d (b / 8192 + 46) = bitmap d (b / 8192)
    unfold disk
    rw [if_neg (by omega), if_pos ⟨by omega, by omega⟩, Nat.add_sub_cancel]
  have hlt : b % bpb < bpb := Nat.mod_lt b (by decide)
  unfold Vol.bit
  change bitAt (disk d (superblock.bblock b)) (b % bpb) = _
  rw [hblk]
  unfold bitmap
  rw [bitAt_foldl_setBit]
  have hzero : bitAt (fun _ => 0) (b % bpb) = false := by
    unfold bitAt
    simp
  rw [hzero, Bool.false_or]
  simp only [List.mem_filter, List.mem_range, hlt, true_and, Nat.div_add_mod, Bool.decide_eq_true]

theorem le32_indirect (j : Nat) : le32 (indirect d) (4 * j) = indirectEntry d j := by
  unfold le32 indirect
  have h0 : 4 * j / 4 = j := by omega
  have h1 : (4 * j + 1) / 4 = j := by omega
  have h2 : (4 * j + 2) / 4 = j := by omega
  have h3 : (4 * j + 3) / 4 = j := by omega
  have m0 : 4 * j % 4 = 0 := by omega
  have m1 : (4 * j + 1) % 4 = 1 := by omega
  have m2 : (4 * j + 2) % 4 = 2 := by omega
  have m3 : (4 * j + 3) % 4 = 3 := by omega
  rw [h0, h1, h2, h3, m0, m1, m2, m3]
  exact append_byteOf _

theorem file_slot (hd : d ≤ 8192) (k : Nat) : (file d).slot (disk d) k = if k < 29 then 100 + d * k else 0 := by
  have hmul : ∀ k < 29, 100 + d * k < 2 ^ 32 := by
    intro k hk
    have := Nat.mul_le_mul hd (Nat.le_of_lt_succ hk)
    omega
  by_cases hk : k < ndirect + 1
  · have hk13 : k < 13 := hk
    rw [InodeData.slot_direct hk, if_pos (by omega)]
    change (BitVec.ofNat 32 (100 + d * k)).toNat = _
    rw [BitVec.toNat_ofNat, Nat.mod_eq_of_lt (hmul k (by omega))]
  · have hind : (file d).ind = 100 + d * 12 := by
      change (BitVec.ofNat 32 (100 + d * 12)).toNat = _
      rw [BitVec.toNat_ofNat, Nat.mod_eq_of_lt (hmul 12 (by decide))]
    have hblk : disk d (100 + d * 12) = indirect d := by
      unfold disk
      rw [if_neg (by omega), if_neg (by omega), if_pos rfl]
    rw [InodeData.slot_entry hk (by rw [hind]; omega), hind, hblk, le32_indirect]
    have hk13 : ¬ k < 13 := hk
    unfold indirectEntry
    by_cases h29 : k < 29
    · have hsum : 13 + (k - (ndirect + 1)) = k := by
        change 13 + (k - 13) = k
        omega
      rw [if_pos h29, if_pos (show k - 13 < 16 by omega), hsum, BitVec.toNat_ofNat, Nat.mod_eq_of_lt (hmul k h29)]
    · rw [if_neg h29, if_neg (show ¬ k - 13 < 16 by omega)]
      rfl

theorem root_slot (k : Nat) : root.slot (disk d) k = if k = 0 then 77 else 0 := Sample.slot_first (a := 77) rfl k

/-- The holders of blocks, apart. -/
theorem own_cases (hd : d ≤ 8192) (x : Nat × Nat) :
    (x = (1, 0) ∧ (vol d).own superblock (inodes d) x = 77) ∨
    (x.1 = 2 ∧ x.2 < 29 ∧ (vol d).own superblock (inodes d) x = 100 + d * x.2) ∨
    (vol d).own superblock (inodes d) x = 0 := by
  obtain ⟨n, k⟩ := x
  by_cases h : Live superblock (inodes d) n ∧ k < nslots
  · rw [Vol.own_eq h.1 h.2]
    rcases live_iff.mp h.1 with rfl | rfl
    · have hslot : (inodes d 1).slot (vol d).blk k = if k = 0 then 77 else 0 := root_slot k
      rw [hslot]
      by_cases h0 : k = 0
      · subst h0
        exact .inl ⟨rfl, rfl⟩
      · exact .inr (.inr (if_neg h0))
    · have hslot : (inodes d 2).slot (vol d).blk k = if k < 29 then 100 + d * k else 0 := file_slot hd k
      rw [hslot]
      by_cases h29 : k < 29
      · exact .inr (.inl ⟨rfl, h29, if_pos h29⟩)
      · exact .inr (.inr (if_neg h29))
  · exact .inr (.inr (Vol.own_dead h))

theorem own_root : (vol d).own superblock (inodes d) (1, 0) = 77 :=
  (Vol.own_eq (live_iff.mpr (.inl rfl)) (by decide)).trans (root_slot 0)

theorem own_file (hd : d ≤ 8192) {k : Nat} (hk : k < 29) : (vol d).own superblock (inodes d) (2, k) = 100 + d * k := by
  have hk' : k < nslots := Nat.lt_trans hk (by decide)
  exact (Vol.own_eq (live_iff.mpr (.inr rfl)) hk').trans ((file_slot hd k).trans (if_pos hk))

theorem used_iff : used d b = true ↔ b < 78 ∨ ∃ k < 29, b = 100 + d * k := by
  unfold used
  simp

theorem files (h1 : 1 ≤ d) (hd : d ≤ 8192) : (vol d).Files superblock (inodes d) := by
  have hdata : superblock.datastart = 77 := rfl
  have hsize : superblock.size = 245760 := rfl
  have hmul : ∀ k < 29, d * k ≤ 8192 * 28 := fun k hk => Nat.mul_le_mul hd (Nat.le_of_lt_succ hk)
  refine ⟨⟨by decide, fun x hx => ?_, fun x y hx e => ?_, fun b hlo hhi => ?_, fun b hb => ?_⟩, fun n hn => ?_,
    fun n hn bn hbn => ?_⟩
  · rcases own_cases hd x with ⟨_, h⟩ | ⟨_, hk, h⟩ | h
    · omega
    · have := hmul x.2 hk
      omega
    · exact absurd h hx
  · rcases own_cases hd x with ⟨hx1, h⟩ | ⟨hx1, hx2, h⟩ | h
    · rcases own_cases hd y with ⟨hy1, h'⟩ | ⟨hy1, hy2, h'⟩ | h'
      · rw [hx1, hy1]
      · omega
      · omega
    · rcases own_cases hd y with ⟨hy1, h'⟩ | ⟨hy1, hy2, h'⟩ | h'
      · omega
      · have hmul : d * x.2 = d * y.2 := by omega
        exact Prod.ext (hx1.trans hy1.symm) (Nat.eq_of_mul_eq_mul_left h1 hmul)
      · omega
    · exact absurd h hx
  · rw [bit_eq hhi, used_iff]
    constructor
    · rintro (hb | ⟨k, hk, rfl⟩)
      · have : b = 77 := by omega
        exact ⟨(1, 0), by rw [own_root, this]⟩
      · exact ⟨(2, k), own_file hd hk⟩
    · rintro ⟨x, rfl⟩
      rcases own_cases hd x with ⟨_, h⟩ | ⟨_, hk, h⟩ | h
      · exact .inl (by omega)
      · exact .inr ⟨x.2, hk, h⟩
      · omega
  · rw [bit_eq (by omega), used_iff]
    exact .inl (by omega)
  · rcases live_iff.mp hn with rfl | rfl
    · change (64 : Nat) ≤ maxfile * bsize
      decide
    · change (28672 : Nat) ≤ maxfile * bsize
      decide
  · rcases live_iff.mp hn with rfl | rfl
    · have hbn : bn * 1024 < 64 := hbn
      have : bn = 0 := by omega
      subst this
      change root.slot (disk d) 0 ≠ 0
      rw [root_slot, if_pos rfl]
      decide
    · have hbn : bn * 1024 < 28672 := hbn
      change (file d).slot (disk d) (if bn < 12 then bn else bn + 1) ≠ 0
      rw [file_slot hd, if_pos (by split <;> omega)]
      omega

theorem dinode_eq (n : Nat) (hn : n < superblock.ninodes) : (vol d).dinode superblock n = inodes d n := by
  have hn : n < 200 := hn
  unfold Vol.dinode
  by_cases h16 : n < 16
  · have hblk : (vol d).blk (superblock.iblock n) = inodeBlock d := by
      have : superblock.iblock n = 33 := by
        change n / 16 + 33 = 33
        omega
      rw [this]
      rfl
    rw [hblk]
    unfold inodeBlock inodes
    rw [Sample.dinodeAt_store _ h16 (by decide), Sample.dinodeAt_store _ h16 (by decide), Sample.dinodeAt_zero]
    split_ifs
    all_goals first | subst_vars; rfl | split <;> first | contradiction | rfl
  · have hz : inodes d n = .zero := by
      unfold inodes
      split <;> first | omega | rfl
    have hblk : (vol d).blk (superblock.iblock n) = fun _ => 0 := by
      change disk d (n / 16 + 33) = fun _ => 0
      unfold disk
      rw [if_neg (by omega), if_neg (by omega), if_neg (by omega)]
    rw [hz, hblk]
    exact Sample.dinodeAt_zero _

theorem fsys (h1 : 1 ≤ d) (hd : d ≤ 8192) : Fsys 0 0 ∅ (vol d) (inodes d) (kernel d) := by
  have hpages : ∀ b c, ((kernel d).buf b).data = ((kernel d).buf c).data → b = c :=
    fun b c e => Fin.ext (Nat.add_left_cancel e)
  have htx : (kernel d).txActive 0 = false := Image.booted_inactive 0
  exact ⟨carries_cold hpages rfl (fun _ => ⟨rfl, rfl, rfl⟩) htx rfl, files h1 hd, superblock_ok,
    Sample.booted_table _ _ _, dinode_eq, fun x hx => absurd hx List.not_mem_nil, rfl, rfl⟩

theorem recovered (h1 : 1 ≤ d) (hd : d ≤ 8192) : Recovered 0 (kernel d) := by
  refine ⟨⟨vol d, inodes d, fsys h1 hd, rfl⟩, ⟨1, rfl⟩, fun jp hj ho => ?_⟩
  have hzero : jp = 0 := by
    by_contra e
    change 0 < (Image.booted.inode jp).ref at hj
    rw [Sample.booted_inode e] at hj
    exact absurd hj (Int.lt_irrefl 0)
  subst hzero
  have ho := (fsys h1 hd).orphan_iff.mp ho
  have hlink : (1 : Short) = 0 := ho.2
  exact absurd hlink (by decide)

theorem orphan_iff (h1 : 1 ≤ d) (hd : d ≤ 8192) : (kernel d).Orphan n ↔ n = 2 := by
  rw [(fsys h1 hd).orphan_iff]
  unfold Orphan
  change Live superblock (inodes d) n ∧ _ ↔ _
  rw [live_iff]
  constructor
  · rintro ⟨rfl | rfl, h⟩
    · exact absurd (show (1 : Short) = 0 from h) (by decide)
    · rfl
  · rintro rfl
    exact ⟨.inr rfl, rfl⟩

/-- The blocks of the free map, one for each multiple of the distance. -/
theorem maps_eq (hd : d ≤ 8192) : (file d).maps superblock (disk d) =
    (Finset.range 29).image fun k => (100 + d * k) / bpb + 46 := by
  ext x
  unfold InodeData.maps
  simp only [List.mem_toFinset, List.mem_map, List.mem_filter, decide_eq_true_eq, mem_image, mem_range]
  constructor
  · rintro ⟨a, ⟨ha, ha0⟩, rfl⟩
    obtain ⟨k, _, rfl⟩ := (InodeData.mem_blocks ha0).mp ha
    rw [file_slot hd] at ha0 ⊢
    by_cases hk : k < 29
    · rw [if_pos hk]
      exact ⟨k, hk, rfl⟩
    · rw [if_neg hk] at ha0
      exact absurd rfl ha0
  · rintro ⟨k, hk, rfl⟩
    have h0 : 100 + d * k ≠ 0 := by omega
    refine ⟨100 + d * k, ⟨(InodeData.mem_blocks h0).mpr ⟨k, Nat.lt_trans hk (by decide), ?_⟩, h0⟩, rfl⟩
    rw [file_slot hd, if_pos hk]

/-- Blocks next to each other have their bits in one block of the free map. -/
theorem near_fits : (file 1).Fits superblock (disk 1) := by
  unfold InodeData.Fits
  rw [maps_eq (by decide)]
  decide

/-- Blocks that are as far apart as a block of the free map reaches have them in 29 of them. -/
theorem far_not_fits : ¬ (file 8192).Fits superblock (disk 8192) := by
  unfold InodeData.Fits
  rw [maps_eq (by decide)]
  decide

end Scattered

/-! ## Reclamation -/

/-- **Orphan reclamation.** After recovery `ireclaim` frees the inodes without links, their blocks
and nothing else, exactly if the bits of each of them are in few enough blocks of the free map. -/
theorem ireclaim_iff {p : ProcPtr} {s : Kernel} (h : Recovered p s) :
    (∃ t, (ireclaim p rootdev).run s = (some (.ok ()), t) ∧ Reclaimed s t) ↔
      ∀ n, s.Orphan n → (s.dinode n).Fits s.sb s.blk := by
  obtain ⟨v, I, hs⟩ := h.unopened
  have hfits : (∀ n, s.Orphan n → (s.dinode n).Fits s.sb s.blk) ↔ ∀ n, Orphan s.sb I n → (I n).Fits s.sb v.blk := by
    refine forall_congr' fun n => ?_
    rw [hs.fsys.orphan_iff]
    exact forall_congr' fun ho => hs.fsys.fits_iff ho.1
  rw [hfits]
  constructor
  · rintro ⟨t, hrun, _⟩
    rcases ends_run (hs.ireclaim (E := fun _ _ => True) (.inr fun _ _ => trivial)) with ⟨_, _, _, _, hok⟩ | ⟨e, t', herr, _⟩
    · exact hok
    · rw [hrun] at herr
      cases herr
  · intro hfit
    obtain ⟨_, t, hrun, hr, _⟩ := ends_ok (hs.ireclaim (.inl hfit))
    exact ⟨t, hrun, hr⟩

theorem ireclaim_iff_near : Recovered 0 (Scattered.kernel 1) ∧
    ∃ t, (ireclaim 0 rootdev).run (Scattered.kernel 1) = (some (.ok ()), t) ∧ Reclaimed (Scattered.kernel 1) t := by
  have h := Scattered.recovered (Nat.le_refl 1) (show 1 ≤ 8192 by decide)
  refine ⟨h, (ireclaim_iff h).mpr fun n hn => ?_⟩
  rw [(Scattered.orphan_iff (Nat.le_refl 1) (by decide)).mp hn]
  have hf := Scattered.fsys (Nat.le_refl 1) (show 1 ≤ 8192 by decide)
  exact (hf.fits_iff (Scattered.live_iff.mpr (.inr rfl))).mpr Scattered.near_fits

/-- An inode whose blocks have their bits in 29 blocks of the free map is not freed: the operation is
too big for the log. -/
theorem ireclaim_too_big : Recovered 0 (Scattered.kernel 8192) ∧
    ¬ ∃ t, (ireclaim 0 rootdev).run (Scattered.kernel 8192) = (some (.ok ()), t) ∧
      Reclaimed (Scattered.kernel 8192) t := by
  have h := Scattered.recovered (show 1 ≤ 8192 by decide) (Nat.le_refl 8192)
  have hf := Scattered.fsys (show 1 ≤ 8192 by decide) (Nat.le_refl 8192)
  refine ⟨h, ?_⟩
  rintro ⟨t, hrun, _⟩
  have hs : Unopened 0 (Scattered.vol 8192) (Scattered.inodes 8192) (Scattered.kernel 8192) :=
    ⟨hf, rfl, h.slot, fun jp hj hc => h.closed jp hj (hf.orphan_iff.mpr hc)⟩
  rcases ends_run (hs.ireclaim (E := fun _ _ => True) (.inr fun _ _ => trivial)) with ⟨_, _, _, _, hfit⟩ | ⟨e, t', herr, _⟩
  · refine Scattered.far_not_fits (hfit 2 ?_)
    exact hf.orphan_iff.mp ((Scattered.orphan_iff (by decide) (Nat.le_refl 8192)).mpr rfl)
  · rw [hrun] at herr
    cases herr

end Txv6
