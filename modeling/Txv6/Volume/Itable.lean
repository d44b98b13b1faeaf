import Txv6.Volume.Bytes
import Txv6.Volume.Commit
import Mathlib.Algebra.Group.Pi.Lemmas
import Mathlib.Algebra.Order.Group.Int
import Mathlib.Data.Fintype.Fin

/-! # The inode table

The table of in-memory inodes over a volume, for a process that runs alone and outside of a
transaction. `Fsys` says that the table, its pages and the volume represent the inodes `I`; the
rules say what `iget`, `ilock`, `iunlock`, `idup` and an `iput` that is not the last do to it.
-/
namespace Txv6
open Lib Function Finset
open Lib.Prog hiding update

variable {D W : Finset BufPtr} {f : Inode → Inode} {d : Page}

/-! ## States with the same volume -/

/-- What a volume is read from. -/
theorem Carries.congr {p : ProcPtr} {v : Vol} {s t : Kernel} (h : Carries p D W v s)
    (hbuf : t.buf = s.buf) (hlru : t.lru = s.lru) (hdisk : t.disk = s.disk) (hlog : t.log.lh = s.log.lh)
    (htx : t.txActive p = s.txActive p) (hpid : (t.proc p).pid = (s.proc p).pid)
    (hheap : ∀ b, (t.heap (s.buf b).data).bytes = (s.heap (s.buf b).data).bytes) : Carries p D W v t := by
  have hcache : t.CacheOk :=
    ⟨by rw [hbuf]; exact h.cache.pages, by rw [hlru]; exact h.cache.listed, by rw [hbuf]; exact h.cache.unique⟩
  refine ⟨h.alike hcache (by rw [hlru]; exact h.order) (htx.trans h.inactive) hdisk (fun b => ?_)
    (by rw [hbuf]; exact h.refs) (by rw [hbuf]; exact h.free) (fun b hb => ?_) subset_rfl rfl h.clean h.logged
    h.distinct, hlog.trans h.log⟩
  · unfold Kernel.bytes
    rw [hbuf]
    exact ⟨rfl, rfl, rfl, hheap b⟩
  · have := h.mine b hb
    unfold Kernel.holdingsleep Kernel.lock at this ⊢
    dsimp only at this ⊢
    rw [hbuf, hpid]
    exact this

/-! ## References -/

/-- The references of `s` and `δ` more. Nothing has changed but the cache, the disk, the log, the
pages and the inode table, and an entry that stays in use keeps its inode and its page and stays
loaded. -/
structure Moved (δ : InodePtr → Int) (s t : Kernel) : Prop where
  rest : t = { s with
    disk := t.disk, buf := t.buf, lru := t.lru, heap := t.heap, freelist := t.freelist, inode := t.inode,
    log := t.log }
  ref : ∀ ip, (t.inode ip).ref = (s.inode ip).ref + δ ip
  kept : ∀ ip, 0 < (s.inode ip).ref → 0 < (t.inode ip).ref →
    (t.inode ip).inum = (s.inode ip).inum ∧ (t.inode ip).data = (s.inode ip).data ∧
      ((s.inode ip).valid = true → (t.inode ip).valid = true)

/-- The entry `ip` is in use for inode `n`, with its contents. -/
structure Kernel.Loaded (s : Kernel) (ip : InodePtr) (n : Nat) : Prop where
  ref : 0 < (s.inode ip).ref
  valid : (s.inode ip).valid = true
  inum : (s.inode ip).inum = n

namespace Moved
variable {δ ε : InodePtr → Int} {s t u : Kernel} {ip : InodePtr}

/-- The table is the same. -/
theorem of_inode (hrest : t = { s with
    disk := t.disk, buf := t.buf, lru := t.lru, heap := t.heap, freelist := t.freelist, inode := t.inode,
    log := t.log }) (h : t.inode = s.inode) : Moved 0 s t := by
  refine ⟨hrest, fun ip => ?_, fun ip _ _ => ?_⟩
  · rw [h]
    exact (Int.add_zero _).symm
  · rw [h]
    exact ⟨rfl, rfl, id⟩

theorem refl (s : Kernel) : Moved 0 s s := of_inode rfl rfl

theorem trans (h : Moved δ s t) (h' : Moved ε t u) (hδ : ∀ ip, 0 ≤ δ ip) : Moved (δ + ε) s u where
  rest := by
    have hu := h'.rest
    rw [h.rest] at hu
    exact hu
  ref ip := by
    rw [h'.ref, h.ref, Pi.add_apply, Int.add_assoc]
  kept ip hs hu := by
    have ht : 0 < (t.inode ip).ref := by
      have := hδ ip
      rw [h.ref]
      omega
    obtain ⟨h1, h2, h3⟩ := h.kept ip hs ht
    obtain ⟨h4, h5, h6⟩ := h'.kept ip ht hu
    exact ⟨h4.trans h1, h5.trans h2, h6 ∘ h3⟩

theorem quiet (h : Moved δ s t) (h' : Moved 0 t u) (hδ : ∀ ip, 0 ≤ δ ip) : Moved δ s u := by
  have := h.trans h' hδ
  rwa [add_zero] at this

theorem after (h : Moved 0 s t) (h' : Moved δ t u) : Moved δ s u := by
  have := h.trans h' fun _ => Int.le_refl 0
  rwa [zero_add] at this

theorem sb (h : Moved δ s t) : t.sb = s.sb := (congrArg Kernel.sb h.rest :)
theorem proc (h : Moved δ s t) : t.proc = s.proc := (congrArg Kernel.proc h.rest :)
theorem file (h : Moved δ s t) : t.file = s.file := (congrArg Kernel.file h.rest :)

theorem of_still (h : Still D s t) : Moved 0 s t := by
  refine of_inode ?_ h.inode
  have hr := h.rest
  generalize t.disk = d, t.buf = b, t.lru = l, t.log.lh = lh, t.heap = hp at *
  subst hr
  rfl

theorem loaded {n : Nat} (h : Moved δ s t) (hs : s.Loaded ip n) (ht : 0 < (t.inode ip).ref) : t.Loaded ip n := by
  obtain ⟨h1, _, h3⟩ := h.kept ip hs.ref ht
  exact ⟨ht, h3 hs.valid, h1.trans hs.inum⟩

/-- References have come, but none has gone. -/
theorem loaded_of_nonneg {n : Nat} (h : Moved δ s t) (hδ : ∀ ip, 0 ≤ δ ip) (hs : s.Loaded ip n) : t.Loaded ip n := by
  refine h.loaded hs ?_
  have := hs.ref
  have := hδ ip
  rw [h.ref]
  omega

/-- A change of one entry. -/
theorem setInode (s : Kernel) (ip : InodePtr) (f : Inode → Inode) (hinum : (f (s.inode ip)).inum = (s.inode ip).inum)
    (hdata : (f (s.inode ip)).data = (s.inode ip).data)
    (hvalid : (s.inode ip).valid = true → (f (s.inode ip)).valid = true) :
    Moved (Pi.single ip ((f (s.inode ip)).ref - (s.inode ip).ref)) s (s.setInode ip f) where
  rest := rfl
  ref jp := by
    by_cases e : jp = ip
    · subst e
      rw [Pi.single_eq_same]
      simp [Kernel.setInode]
    · rw [Pi.single_eq_of_ne e]
      simp [Kernel.setInode, e]
  kept jp _ _ := by
    by_cases e : jp = ip
    · subst e
      simpa [Kernel.setInode, hinum, hdata] using hvalid
    · simp [Kernel.setInode, e]

theorem single_nonneg (ip jp : InodePtr) : 0 ≤ (Pi.single ip 1 : InodePtr → Int) jp := by
  by_cases e : jp = ip
  · rw [e, Pi.single_eq_same]
    exact Int.one_nonneg
  · rw [Pi.single_eq_of_ne e]

end Moved

/-! ## The table -/

/-- Unused entries without a page. -/
def Kernel.bare (s : Kernel) : Finset InodePtr :=
  Finset.univ.filter fun ip => (s.inode ip).ref = 0 ∧ (s.inode ip).data = none

/-- An entry of the table. In use it has a page, with the inode in it if it is valid. -/
structure Inode.Entry (held : Prop) (pid : Nat) (heap : Page → PageData) (I : Nat → InodeData) (x : Inode) :
    Prop where
  counted : 0 ≤ x.ref
  dev : 0 < x.ref → x.dev = rootdev
  data : 0 < x.ref → x.data ≠ none
  loaded : 0 < x.ref → x.valid = true → ∀ d, x.data = some d → (heap d).ino = I x.inum
  mine : held → 0 < x.ref ∧ x.lock = ⟨true, pid⟩
  free : ¬ held → x.lock.locked = false

/-- The table has the inodes `L` locked for process `p`; an inode is in it once, entries and free
pages are apart, and there is a page for every unused entry. -/
structure Itable (p : ProcPtr) (L : Finset InodePtr) (I : Nat → InodeData) (s : Kernel) : Prop where
  entry : ∀ ip, (s.inode ip).Entry (ip ∈ L) (s.proc p).pid s.heap I
  unique : ∀ ip jp, 0 < (s.inode ip).ref → 0 < (s.inode jp).ref → (s.inode ip).inum = (s.inode jp).inum → ip = jp
  apart : ∀ ip d, (s.inode ip).data = some d → s.Apart d
  distinct : ∀ ip jp d, (s.inode ip).data = some d → (s.inode jp).data = some d → ip = jp
  fresh : ∀ d ∈ s.freelist, s.Apart d ∧ ∀ ip, (s.inode ip).data ≠ some d
  nodup : s.freelist.Nodup
  pages : s.bare.card ≤ s.freelist.length

namespace Itable
variable {p : ProcPtr} {L M : Finset InodePtr} {I J : Nat → InodeData} {s t : Kernel} {ip : InodePtr}
  {n : Nat}

theorem still (h : Itable p L I s) (hst : Still D s t) : Itable p L I t := by
  refine ⟨fun ip => ?_, ?_, fun ip d hd => ?_, ?_, fun d hd => ?_, ?_, ?_⟩
  · rw [hst.inode, hst.proc]
    have he := h.entry ip
    refine { he with loaded := fun hr hv d hd => ?_ }
    rw [hst.heap d (h.apart ip d hd)]
    exact he.loaded hr hv d hd
  · rw [hst.inode]
    exact h.unique
  · rw [hst.inode] at hd
    exact hst.apart (h.apart ip d hd)
  · rw [hst.inode]
    exact h.distinct
  · rw [hst.freelist] at hd
    rw [hst.inode]
    exact ⟨hst.apart (h.fresh d hd).1, (h.fresh d hd).2⟩
  · rw [hst.freelist]
    exact h.nodup
  · unfold Kernel.bare
    rw [hst.inode, hst.freelist]
    exact h.pages

/-- A change of one entry that leaves its page. -/
theorem setInode (h : Itable p L I s) (hM : ∀ jp, jp ≠ ip → (jp ∈ M ↔ jp ∈ L))
    (hdata : (f (s.inode ip)).data = (s.inode ip).data)
    (hent : (f (s.inode ip)).Entry (ip ∈ M) (s.proc p).pid s.heap I)
    (hun : 0 < (f (s.inode ip)).ref → ∀ jp, jp ≠ ip → 0 < (s.inode jp).ref →
      (s.inode jp).inum ≠ (f (s.inode ip)).inum) : Itable p M I (s.setInode ip f) := by
  have hself : (s.setInode ip f).inode ip = f (s.inode ip) := update_self ..
  have hother : ∀ jp, jp ≠ ip → (s.setInode ip f).inode jp = s.inode jp := fun jp e => update_of_ne e _ _
  have hpage : ∀ jp, ((s.setInode ip f).inode jp).data = (s.inode jp).data := by
    intro jp
    by_cases e : jp = ip
    · rw [e, hself, hdata]
    · rw [hother jp e]
  refine ⟨fun jp => ?_, fun jp kp hj hk hi => ?_, fun jp d hd => ?_, fun jp kp d hj hk => ?_, fun d hd => ?_,
    h.nodup, ?_⟩
  · by_cases e : jp = ip
    · rw [e, hself]
      exact hent
    · rw [hother jp e, hM jp e]
      exact h.entry jp
  · by_cases e : jp = ip
    · by_cases e' : kp = ip
      · rw [e, e']
      · rw [e, hself] at hj hi
        rw [hother kp e'] at hk hi
        exact absurd hi.symm (hun hj kp e' hk)
    · by_cases e' : kp = ip
      · rw [e', hself] at hk hi
        rw [hother jp e] at hj hi
        exact absurd hi (hun hk jp e hj)
      · rw [hother jp e] at hj hi
        rw [hother kp e'] at hk hi
        exact h.unique jp kp hj hk hi
  · rw [hpage] at hd
    exact h.apart jp d hd
  · rw [hpage] at hj hk
    exact h.distinct jp kp d hj hk
  · obtain ⟨h1, h2⟩ := h.fresh d hd
    refine ⟨h1, fun jp => ?_⟩
    rw [hpage]
    exact h2 jp
  · refine Nat.le_trans (card_le_card fun jp hj => ?_) h.pages
    simp only [Kernel.bare, mem_filter, mem_univ, true_and, hpage] at hj ⊢
    by_cases e : jp = ip
    · subst e
      -- an entry in use has a page
      have hc := (h.entry jp).counted
      have hd := (h.entry jp).data
      refine ⟨?_, hj.2⟩
      by_contra hne
      exact hd (by omega) hj.2
    · rw [hother jp e] at hj
      exact hj

/-- The inode in the page of an entry changes, and with it the inode of that number. -/
theorem setIno {i : InodeData} (h : Itable p L I s) (hd : (s.inode ip).data = some d)
    (href : 0 < (s.inode ip).ref) : Itable p L (update I (s.inode ip).inum i) (s.setIno d i) := by
  refine ⟨fun jp => ?_, h.unique, h.apart, h.distinct, h.fresh, h.nodup, h.pages⟩
  have he := h.entry jp
  refine ⟨he.counted, he.dev, he.data, fun hr hv d' hd' => ?_, he.mine, he.free⟩
  change (s.inode jp).data = some d' at hd'
  change 0 < (s.inode jp).ref at hr
  change _ = update I (s.inode ip).inum i (s.inode jp).inum
  by_cases e : jp = ip
  · subst e
    rw [hd] at hd'
    cases hd'
    rw [update_self, setIno_ino]
  · rw [update_of_ne fun hi => e (h.unique jp ip hr href hi), setIno_heap]
    · exact he.loaded hr hv d' hd'
    · rintro rfl
      exact e (h.distinct jp ip d' hd' hd)

/-- A page of the free list goes to an unused entry without one. -/
theorem furnish {r : Page} {rest : List Page} {x : Inode} (h : Itable p L I s) (href : (s.inode ip).ref = 0)
    (hdata : (s.inode ip).data = none) (hfl : s.freelist = r :: rest) (hinode : t.inode = update s.inode ip x)
    (hx : x.Entry (ip ∈ L) (s.proc p).pid t.heap I) (hr : x.data = some r) (hpos : 0 < x.ref)
    (hnew : ∀ jp, 0 < (s.inode jp).ref → (s.inode jp).inum ≠ x.inum) (hbuf : t.buf = s.buf)
    (hproc : t.proc = s.proc) (hheap : ∀ q, q ≠ r → t.heap q = s.heap q) (hrest : t.freelist = rest) :
    Itable p L I t := by
  have hself : t.inode ip = x := by rw [hinode, update_self]
  have hother : ∀ jp, jp ≠ ip → t.inode jp = s.inode jp := fun jp e => by rw [hinode, update_of_ne e]
  have hapart : ∀ q, s.Apart q → t.Apart q := fun q hq b => by rw [hbuf]; exact hq b
  have hrr := h.fresh r (by rw [hfl]; exact List.mem_cons_self)
  have hnd := h.nodup
  rw [hfl, List.nodup_cons] at hnd
  refine ⟨fun jp => ?_, fun jp kp hj hk hi => ?_, fun jp d hd => ?_, fun jp kp d hj hk => ?_, fun d hd => ?_,
    by rw [hrest]; exact hnd.2, ?_⟩
  · by_cases e : jp = ip
    · rw [e, hself, hproc]
      exact hx
    · rw [hother jp e, hproc]
      have he := h.entry jp
      refine { he with loaded := fun hr' hv d hd => ?_ }
      rw [hheap d fun e' => hrr.2 jp (e' ▸ hd)]
      exact he.loaded hr' hv d hd
  · by_cases e : jp = ip
    · by_cases e' : kp = ip
      · rw [e, e']
      · rw [e, hself] at hi
        rw [hother kp e'] at hk hi
        exact absurd hi.symm (hnew kp hk)
    · by_cases e' : kp = ip
      · rw [e', hself] at hi
        rw [hother jp e] at hj hi
        exact absurd hi (hnew jp hj)
      · rw [hother jp e] at hj hi
        rw [hother kp e'] at hk hi
        exact h.unique jp kp hj hk hi
  · by_cases e : jp = ip
    · rw [e, hself, hr] at hd
      cases hd
      exact hapart r hrr.1
    · rw [hother jp e] at hd
      exact hapart d (h.apart jp d hd)
  · by_cases e : jp = ip
    · by_cases e' : kp = ip
      · rw [e, e']
      · rw [e, hself, hr] at hj
        rw [hother kp e'] at hk
        cases hj
        exact absurd hk (hrr.2 kp)
    · by_cases e' : kp = ip
      · rw [e', hself, hr] at hk
        rw [hother jp e] at hj
        cases hk
        exact absurd hj (hrr.2 jp)
      · rw [hother jp e] at hj
        rw [hother kp e'] at hk
        exact h.distinct jp kp d hj hk
  · rw [hrest] at hd
    obtain ⟨h1, h2⟩ := h.fresh d (by rw [hfl]; exact List.mem_cons_of_mem r hd)
    refine ⟨hapart d h1, fun jp => ?_⟩
    by_cases e : jp = ip
    · rw [e, hself, hr]
      rintro ⟨⟩
      exact hnd.1 hd
    · rw [hother jp e]
      exact h2 jp
  · have hsub : t.bare ⊆ s.bare.erase ip := by
      intro jp hj
      simp only [Kernel.bare, mem_filter, mem_univ, true_and, mem_erase] at hj ⊢
      by_cases e : jp = ip
      · rw [e, hself] at hj
        omega
      · rw [hother jp e] at hj
        exact ⟨e, hj⟩
    have hmem : ip ∈ s.bare := by
      simp [Kernel.bare, href, hdata]
    have hcard := card_le_card hsub
    rw [card_erase_of_mem hmem] at hcard
    have hp := h.pages
    rw [hfl, List.length_cons] at hp
    rw [hrest]
    omega

/-- `iget` has brought a reference to inode `n`. A recycled entry is not loaded. -/
structure Got (p : ProcPtr) (L : Finset InodePtr) (I : Nat → InodeData) (n : Nat) (s : Kernel) (ip : InodePtr)
    (t : Kernel) : Prop where
  table : Itable p L I t
  moved : Moved (Pi.single ip 1) s t
  inum : (t.inode ip).inum = n
  fresh : (t.inode ip).ref = 1 → (t.inode ip).valid = false
  rest : t = { s with inode := t.inode, heap := t.heap, freelist := t.freelist }
  cache : ∀ b, t.heap (s.buf b).data = s.heap (s.buf b).data

theorem Got.log (h : Got p L I n s ip t) : t.log = s.log := (congrArg Kernel.log h.rest :)

theorem Got.carries {v : Vol} (h : Got p L I n s ip t) (hs : Carries p D W v s) :
    Carries p D W v t := by
  have hbuf : t.buf = s.buf := (congrArg Kernel.buf h.rest :)
  have hlru : t.lru = s.lru := (congrArg Kernel.lru h.rest :)
  have hdisk : t.disk = s.disk := (congrArg Kernel.disk h.rest :)
  have htx : t.txActive p = s.txActive p := by
    rw [h.rest]
    rfl
  refine hs.congr hbuf hlru hdisk (by rw [h.log]) htx (by rw [h.moved.proc]) fun b => ?_
  rw [h.cache b]

theorem incRef (h : Itable p L I s) (href : 0 < (s.inode ip).ref) :
    Itable p L I (s.setInode ip fun x => { x with ref := x.ref + 1 }) := by
  have he := h.entry ip
  refine h.setInode (fun _ _ => Iff.rfl) rfl ⟨?_, ?_, ?_, ?_, ?_, he.free⟩ ?_
  · exact Int.add_nonneg he.counted Int.one_nonneg
  · exact fun _ => he.dev href
  · exact fun _ => he.data href
  · exact fun _ => he.loaded href
  · exact fun hL => ⟨Int.lt_trans href (Int.lt_succ _), (he.mine hL).2⟩
  · intro _ jp e hj hi
    exact e (h.unique jp ip hj href hi)

/-- An entry that is in use is not recycled; an unused one gets the inode. -/
theorem iget {E : Err → Kernel → Prop} (h : Itable p L I s)
    (hslot : (∃ jp, 0 < (s.inode jp).ref ∧ (s.inode jp).inum = n) ∨ ∃ jp, (s.inode jp).ref = 0) :
    ends (iget rootdev n) (fun ip t => Got p L I n s ip t) E s := by
  unfold Txv6.iget
  cases hfind : (List.finRange ninode).find? fun ip =>
      decide (0 < (s.inode ip).ref) && (s.inode ip).dev == rootdev && (s.inode ip).inum == n with
  | some ip =>
    have hip := List.find?_some hfind
    simp only [Bool.and_eq_true, decide_eq_true_eq, beq_iff_eq] at hip
    obtain ⟨⟨href, hdev⟩, hinum⟩ := hip
    have hs : s.iget rootdev n = (.ok ip, s.setInode ip fun x => { x with ref := x.ref + 1 }) := by
      unfold Kernel.iget
      rw [hfind]
    rw [ends_atomOrPanic hs]
    have hself : ((s.setInode ip fun x => { x with ref := x.ref + 1 }).inode ip).ref = (s.inode ip).ref + 1 := by
      simp [Kernel.setInode]
    refine ⟨h.incRef href, ?_, by simp [Kernel.setInode, hinum], fun hone => ?_, rfl, fun _ => rfl⟩
    · have := Moved.setInode s ip (fun x => { x with ref := x.ref + 1 }) rfl rfl id
      rwa [show (s.inode ip).ref + 1 - (s.inode ip).ref = 1 by omega] at this
    · rw [hself] at hone
      omega
  | none =>
    have hnew : ∀ jp, 0 < (s.inode jp).ref → (s.inode jp).inum ≠ n := by
      intro jp hj hi
      have := List.find?_eq_none.mp hfind jp (List.mem_finRange jp)
      simp [hj, hi, (h.entry jp).dev hj] at this
    have hex : ∃ jp, (s.inode jp).ref = 0 := by
      rcases hslot with ⟨jp, hj, hi⟩ | hex
      · exact absurd hi (hnew jp hj)
      · exact hex
    cases hfree : (List.finRange ninode).find? fun ip => (s.inode ip).ref == 0 with
    | none =>
      obtain ⟨jp, hj⟩ := hex
      have := List.find?_eq_none.mp hfree jp (List.mem_finRange jp)
      simp [hj] at this
    | some ip =>
      have href : (s.inode ip).ref = 0 := by simpa using List.find?_some hfree
      have he := h.entry ip
      have hnot : ip ∉ L := fun hL => by
        have := (he.mine hL).1
        omega
      cases hd : (s.inode ip).data with
      | some d =>
        have hs : s.iget rootdev n = (.ok ip, s.setInode ip fun x =>
            { x with dev := rootdev, inum := n, ref := 1, valid := false, writer := none }) := by
          unfold Kernel.iget
          rw [hfind, hfree]
          simp [Kernel.setInode, hd]
        rw [ends_atomOrPanic hs]
        refine ⟨h.setInode (fun _ _ => Iff.rfl) rfl ⟨?_, ?_, ?_, ?_, ?_, ?_⟩ ?_, ⟨rfl, ?_, ?_⟩,
          by simp [Kernel.setInode], fun _ => by simp [Kernel.setInode], rfl, fun _ => rfl⟩
        · exact Int.one_nonneg
        · exact fun _ => rfl
        · intro _
          rw [hd]
          exact Option.some_ne_none d
        · intro _ hv
          cases hv
        · exact fun hL => absurd hL hnot
        · exact he.free
        · exact fun _ jp _ hj => hnew jp hj
        · intro jp
          by_cases e : jp = ip
          · subst e
            simp [Kernel.setInode, href]
          · simp [Kernel.setInode, e]
        · intro jp hj _
          have e : jp ≠ ip := by
            rintro rfl
            omega
          simp [Kernel.setInode, e]
      | none =>
        have hmem : ip ∈ s.bare := by simp [Kernel.bare, href, hd]
        have hcard := card_pos.mpr ⟨ip, hmem⟩
        have hpages := h.pages
        cases hfl : s.freelist with
        | nil =>
          rw [hfl, List.length_nil] at hpages
          omega
        | cons r rest =>
          have hs : s.iget rootdev n = (.ok ip, { s with
              inode := update s.inode ip { s.inode ip with
                dev := rootdev, inum := n, ref := 1, valid := false, writer := none, data := some r }
              heap := update s.heap r { PageData.fill 5 with ino := .zero }
              freelist := rest }) := by
            unfold Kernel.iget Kernel.kalloc
            rw [hfind, hfree]
            simp [Kernel.setInode, Kernel.setPage, hd, hfl]
          rw [ends_atomOrPanic hs]
          have hrr := h.fresh r (by rw [hfl]; exact List.mem_cons_self)
          have htable := h.furnish (t := { s with
              inode := update s.inode ip { s.inode ip with
                dev := rootdev, inum := n, ref := 1, valid := false, writer := none, data := some r }
              heap := update s.heap r { PageData.fill 5 with ino := .zero }
              freelist := rest }) href hd hfl rfl
            ⟨Int.one_nonneg, fun _ => rfl, fun _ => Option.some_ne_none r, fun _ hv => (by cases hv),
              fun hL => absurd hL hnot, he.free⟩ rfl Int.one_pos hnew rfl rfl
            (fun q hq => update_of_ne hq _ _) rfl
          refine ⟨htable, ⟨rfl, ?_, ?_⟩, by simp, fun _ => by simp, rfl, fun b => update_of_ne (hrr.1 b) _ _⟩
          · intro jp
            by_cases e : jp = ip
            · subst e
              simp [href]
            · simp [e]
          · intro jp hj _
            have e : jp ≠ ip := by
              rintro rfl
              omega
            simp [e]

end Itable

/-! ## File systems -/

/-- Process `p` runs alone, outside of a transaction, with `k` operations open and the inodes `L`
locked, on a consistent file system with contents `v` and inodes `I`. -/
structure Fsys (p : ProcPtr) (k : Int) (L : Finset InodePtr) (v : Vol) (I : Nat → InodeData) (s : Kernel) :
    Prop where
  carries : Carries p ∅ ∅ v s
  files : v.Files s.sb I
  layout : s.sb.Ok
  table : Itable p L I s
  dinode : ∀ n < s.sb.ninodes, v.dinode s.sb n = I n
  home : ∀ x ∈ v.lh, s.sb.inodestart ≤ x
  outstanding : s.log.outstanding = k
  committing : s.log.committing = false

namespace Fsys
variable {p : ProcPtr} {k : Int} {L : Finset InodePtr} {v : Vol} {I : Nat → InodeData} {s t : Kernel}
  {ip : InodePtr} {n : Nat} {E : Err → Kernel → Prop} {Q : Unit → Kernel → Prop} {M : Finset InodePtr}

section
variable (h : Fsys p k L v I s)
include h

theorem still (ht : Carries p ∅ ∅ v t) (hst : Still ∅ s t) : Fsys p k L v I t := by
  refine ⟨ht, ?_, ?_, h.table.still hst, ?_, ?_, hst.outstanding.trans h.outstanding,
    hst.committing.trans h.committing⟩
  · rw [hst.sb]
    exact h.files
  · rw [hst.sb]
    exact h.layout
  · rw [hst.sb]
    exact h.dinode
  · rw [hst.sb]
    exact h.home

/-- The volume and the log are the same. -/
theorem of_table (ht : Carries p ∅ ∅ v t) (htable : Itable p M I t)
    (hsb : t.sb = s.sb) (hlog : t.log = s.log) : Fsys p k M v I t := by
  refine ⟨ht, ?_, ?_, htable, ?_, ?_, ?_, ?_⟩
  · rw [hsb]
    exact h.files
  · rw [hsb]
    exact h.layout
  · rw [hsb]
    exact h.dinode
  · rw [hsb]
    exact h.home
  · rw [hlog]
    exact h.outstanding
  · rw [hlog]
    exact h.committing

/-- A change of one entry that leaves its page. -/
theorem setInode
    (htable : Itable p M I (s.setInode ip f)) : Fsys p k M v I (s.setInode ip f) :=
  ⟨h.carries.congr rfl rfl rfl rfl rfl rfl fun _ => rfl, h.files, h.layout, htable, h.dinode, h.home,
    h.outstanding, h.committing⟩

/-- A valid entry of an allocated inode can be worked on. -/
theorem editing (hl : s.Loaded ip n) (hlive : Live s.sb I n) :
    ∃ d, (s.inode ip).data = some d ∧ Editing p ip d n v I s := by
  obtain ⟨href, hvalid, rfl⟩ := hl
  have he := h.table.entry ip
  obtain ⟨d, hd⟩ := Option.ne_none_iff_exists'.mp (he.data href)
  exact ⟨d, hd, h.carries, h.files, h.layout, hlive,
    ⟨he.dev href, hd, h.table.apart ip d hd, he.loaded href hvalid d hd⟩, rfl⟩

/-! ## Locks -/

theorem iunlock (hip : ip ∈ L)
    (hQ : ∀ t, Fsys p k (L.erase ip) v I t → Moved 0 s t → Q () t) : ends (iunlock p ip) Q E s := by
  have he := h.table.entry ip
  obtain ⟨href, hlock⟩ := he.mine hip
  have hheld : (s.holdingsleep p (.inode ip) && decide (1 ≤ (s.inode ip).ref)) = true := by
    have h1 : 1 ≤ (s.inode ip).ref := href
    unfold Kernel.holdingsleep Kernel.lock
    simp [hlock, h1]
  unfold Txv6.iunlock kassert releasesleep
  rw [ends_bind, ends_check, hheld, if_pos rfl, ends_update]
  change Q () (s.setInode ip fun x => { x with lock := ⟨false, 0⟩ })
  refine hQ _ (h.setInode (h.table.setInode (fun jp e => ?_) rfl ⟨he.counted, he.dev, he.data, he.loaded, ?_, ?_⟩ ?_)) ?_
  · simp [e]
  · intro hm
    simp at hm
  · intro _
    rfl
  · intro hr jp e hj hi
    exact e (h.table.unique jp ip hj hr hi)
  · have := Moved.setInode s ip (fun x => { x with lock := ⟨false, 0⟩ }) rfl rfl id
    rwa [Int.sub_self, Pi.single_zero] at this

/-- The lock of an inode in use, without its contents. -/
theorem lock (href : 0 < (s.inode ip).ref) :
    Fsys p k (insert ip L) v I (s.setLock ⟨true, (s.proc p).pid⟩ (.inode ip)) := by
  have he := h.table.entry ip
  change Fsys p k (insert ip L) v I (s.setInode ip fun x => { x with lock := ⟨true, (s.proc p).pid⟩ })
  refine h.setInode (h.table.setInode (fun jp e => ?_) rfl ⟨he.counted, he.dev, he.data, he.loaded, ?_, ?_⟩ ?_)
  · simp [e]
  · intro _
    exact ⟨href, rfl⟩
  · intro hm
    simp at hm
  · intro hr jp e hj hi
    exact e (h.table.unique jp ip hj hr hi)

/-- The inode comes from the volume into the page of its entry. -/
theorem load (hd : (s.inode ip).data = some d) (href : 0 < (s.inode ip).ref) :
    Fsys p k L v I ((s.setIno d (I (s.inode ip).inum)).setInode ip fun x => { x with valid := true }) := by
  have htable := h.table.setIno (i := I (s.inode ip).inum) hd href
  rw [update_eq_self] at htable
  have hc : Carries p ∅ ∅ v (s.setIno d (I (s.inode ip).inum)) := h.carries.setIno (h.table.apart ip d hd)
  have hf : Fsys p k L v I (s.setIno d (I (s.inode ip).inum)) :=
    ⟨hc, h.files, h.layout, htable, h.dinode, h.home, h.outstanding, h.committing⟩
  have he := htable.entry ip
  refine hf.setInode (htable.setInode (fun _ _ => Iff.rfl) rfl
    ⟨he.counted, he.dev, he.data, fun hr _ d' hd' => ?_, he.mine, he.free⟩ ?_)
  · change (s.inode ip).data = some d' at hd'
    rw [hd] at hd'
    cases hd'
    exact setIno_ino
  · intro hr jp e hj hi
    exact e (htable.unique jp ip hj hr hi)

theorem ilock (hip : ip ∉ L) (href : 0 < (s.inode ip).ref)
    (hlive : Live s.sb I (s.inode ip).inum) (hroom : v.lh.length < nbuf ∨ ∀ e t, E e t)
    (hQ : ∀ t, Fsys p k (insert ip L) v I t → Moved 0 s t → t.Loaded ip (s.inode ip).inum → Q () t) :
    ends (ilock p ip) Q E s := by
  have he := h.table.entry ip
  have hpos : 1 ≤ (s.inode ip).ref := href
  have hfree : (s.lock (.inode ip)).locked = false := he.free hip
  have h₁ := h.lock href
  have hmove : Moved 0 s (s.setLock ⟨true, (s.proc p).pid⟩ (.inode ip)) := by
    have := Moved.setInode s ip (fun x => { x with lock := ⟨true, (s.proc p).pid⟩ }) rfl rfl id
    rwa [Int.sub_self, Pi.single_zero] at this
  have hself : (s.setLock ⟨true, (s.proc p).pid⟩ (.inode ip)).inode ip =
      { s.inode ip with lock := ⟨true, (s.proc p).pid⟩ } := update_self ..
  unfold Txv6.ilock kassert acquiresleep
  rw [ends_bind, ends_check, if_pos (by simpa using hpos), ends_bind, ends_await]
  refine ⟨by simpa using hfree, ?_⟩
  generalize s.setLock ⟨true, (s.proc p).pid⟩ (.inode ip) = t₁ at h₁ hmove hself ⊢
  have hinum : (t₁.inode ip).inum = (s.inode ip).inum := by rw [hself]
  have href₁ : 0 < (t₁.inode ip).ref := by rw [hself]; exact href
  rw [ends_bind, ends_read, ends_when]
  by_cases hv : (t₁.inode ip).valid = true
  · simp only [hv, Bool.not_true, Bool.false_eq_true, if_false]
    exact hQ t₁ h₁ hmove ⟨href₁, hv, hinum⟩
  simp only [Bool.eq_false_iff.mpr hv, Bool.not_false, if_true]
  -- the inode is read from its block
  obtain ⟨d, hd⟩ := Option.ne_none_iff_exists'.mp ((h₁.table.entry ip).data href₁)
  have hdev := (h₁.table.entry ip).dev href₁
  have hlt : (s.inode ip).inum < t₁.sb.ninodes := by rw [hmove.sb]; exact hlive.2.1
  rw [ends_bind, ends_read, hdev, ends_bind, ends_read, hinum, ends_bind, ends_read, ends_bind]
  refine h₁.carries.bread (by simp) (by simp) (hroom.imp_left fun hr => .inr (by simpa using hr))
    fun b t₂ hb h₂ st₂ b₂ => ?_
  have hbD := mem_insert_self b (∅ : Finset BufPtr)
  have hd₂ : (t₂.inode ip).data = some d := by rw [st₂.inode]; exact hd
  have hap₂ : t₂.Apart d := st₂.apart (h₁.table.apart ip d hd)
  have hbytes : dinodeAt (t₂.heap (t₂.buf b).data).bytes (dinodeOff (s.inode ip).inum) = I (s.inode ip).inum := by
    have hblk := h₂.bytes hbD
    unfold Kernel.bytes at hblk
    rw [hblk, b₂]
    exact h₁.dinode _ hlt
  unfold inodeData bufBytes setIfield
  rw [ends_bind, ends_bind, ends_read, hd₂]
  change ends (Prog.read (fun s => (s.heap (s.buf b).data).bytes) >>= _) Q E t₂
  rw [ends_bind, ends_read, ends_bind, ends_update, hbytes, ends_bind]
  change ends (Txv6.brelse p b) _ E (t₂.setIno d (I (s.inode ip).inum))
  refine (h₂.setIno hap₂).brelse (notMem_empty b) fun t₃ h₃ st₃ _ => ?_
  have st₁₃ : Still ∅ (t₁.setIno d (I (s.inode ip).inum)) t₃ := (st₂.setIno (h₁.table.apart ip d hd)).trans st₃
  rw [ends_bind, ends_update, ends_check]
  -- the table of `t₃` is that of `t₁`, so loading commutes with the reads
  have hload := h₁.load hd href₁
  rw [hinum] at hload
  have hino : (t₃.heap d).ino = I (s.inode ip).inum := by
    rw [st₁₃.heap d (h₁.table.apart ip d hd), setIno_ino]
  have htable : Itable p (insert ip L) I (t₃.setInode ip fun x => { x with valid := true }) := by
    refine hload.table.still (D := ∅) ⟨?_, st₁₃.page, fun q hq => st₁₃.heap q hq, st₁₃.held⟩
    have hr := st₁₃.rest
    generalize t₃.disk = di, t₃.buf = bu, t₃.lru = l, t₃.log.lh = lh, t₃.heap = hp at *
    subst hr
    rfl
  have hF : Fsys p k (insert ip L) v I (t₃.setInode ip fun x => { x with valid := true }) := by
    refine ⟨h₃.congr rfl rfl rfl rfl rfl rfl fun _ => rfl, ?_, ?_, htable, ?_, ?_, ?_, ?_⟩
    · change v.Files t₃.sb I
      rw [show t₃.sb = t₁.sb from st₁₃.sb]
      exact h₁.files
    · change t₃.sb.Ok
      rw [show t₃.sb = t₁.sb from st₁₃.sb]
      exact h₁.layout
    · change ∀ n < t₃.sb.ninodes, v.dinode t₃.sb n = I n
      rw [show t₃.sb = t₁.sb from st₁₃.sb]
      exact h₁.dinode
    · change ∀ x ∈ v.lh, t₃.sb.inodestart ≤ x
      rw [show t₃.sb = t₁.sb from st₁₃.sb]
      exact h₁.home
    · exact st₁₃.outstanding.trans h₁.outstanding
    · exact st₁₃.committing.trans h₁.committing
  have htype : ((t₃.setInode ip fun x => { x with valid := true }).heap d).ino.type ≠ 0 := by
    change (t₃.heap d).ino.type ≠ 0
    rw [hino]
    exact hlive.2.2
  rw [if_pos (by simpa using htype)]
  refine hQ _ hF (hmove.after ?_) ?_
  swap
  · have hinode : t₃.inode ip = t₁.inode ip := congrFun st₁₃.inode ip
    refine ⟨?_, ?_, ?_⟩
    · simpa [Kernel.setInode, hinode] using href₁
    · simp [Kernel.setInode]
    · simpa [Kernel.setInode, hinode] using hinum
  have m₁ : Moved 0 t₁ (t₁.setIno d (I (s.inode ip).inum)) := .of_inode rfl rfl
  have m₃ := Moved.setInode t₃ ip (fun x => { x with valid := true }) rfl rfl fun _ => rfl
  rw [Int.sub_self, Pi.single_zero] at m₃
  exact m₁.after ((Moved.of_still st₁₃).after m₃)

/-! ## References -/

theorem incRef (href : 0 < (s.inode ip).ref) :
    Fsys p k L v I (s.setInode ip fun x => { x with ref := x.ref + 1 }) :=
  h.setInode (h.table.incRef href)

/-- An entry that is in use is not recycled; an unused one gets the inode. The inode of a recycled
entry is not loaded. -/
theorem iget {Q : InodePtr → Kernel → Prop}
    (hslot : (∃ jp, 0 < (s.inode jp).ref ∧ (s.inode jp).inum = n) ∨ ∃ jp, (s.inode jp).ref = 0)
    (hQ : ∀ ip t, Fsys p k L v I t → Moved (Pi.single ip 1) s t → (t.inode ip).inum = n →
      ((t.inode ip).ref = 1 → (t.inode ip).valid = false) → Q ip t) : ends (iget rootdev n) Q E s := by
  refine ends_mono (h.table.iget hslot) fun ip t hg => hQ ip t ?_ hg.moved hg.inum hg.fresh
  exact h.of_table (hg.carries h.carries) hg.table hg.moved.sb hg.log

theorem idup {Q : InodePtr → Kernel → Prop} (href : 0 < (s.inode ip).ref)
    (hQ : ∀ t, Fsys p k L v I t → Moved (Pi.single ip 1) s t → (t.inode ip).inum = (s.inode ip).inum → Q ip t) :
    ends (idup ip) Q E s := by
  unfold Txv6.idup
  rw [ends_atom]
  refine hQ _ (h.incRef href) ?_ (by simp [Kernel.setInode])
  have := Moved.setInode s ip (fun x => { x with ref := x.ref + 1 }) rfl rfl id
  rwa [show (s.inode ip).ref + 1 - (s.inode ip).ref = 1 by omega] at this
end

/-- An inode whose entry was just recycled, or that another reference keeps. -/
theorem lastUnlinked_of_fresh (h : (s.inode ip).ref = 1 → (s.inode ip).valid = false) :
    s.lastUnlinked ip = false := by
  unfold Kernel.lastUnlinked
  by_cases hone : (s.inode ip).ref = 1
  · simp [h hone]
  · simp [hone]

/-- An inode with links. -/
theorem lastUnlinked_of_linked (h : Fsys p k L v I s) (href : 0 < (s.inode ip).ref)
    (hlink : (I (s.inode ip).inum).nlink ≠ 0) : s.lastUnlinked ip = false := by
  unfold Kernel.lastUnlinked
  cases hd : (s.inode ip).data with
  | none => simp
  | some d =>
    cases hv : (s.inode ip).valid with
    | false => simp
    | true =>
      have := (h.table.entry ip).loaded href hv d hd
      dsimp only
      rw [this, beq_eq_false_iff_ne.mpr hlink, Bool.and_false]

/-- An `iput` that leaves the inode on the disk. -/
theorem iput (h : Fsys p k L v I s) (href : 0 < (s.inode ip).ref) (hL : ip ∈ L → 1 < (s.inode ip).ref)
    (hkeep : s.lastUnlinked ip = false)
    (hQ : ∀ t, Fsys p k L v I t → Moved (Pi.single ip (-1)) s t → Q () t) : ends (iput p ip) Q E s := by
  unfold Txv6.iput iputWith
  rw [ends_bind]
  refine h.carries.txActive ?_
  simp only [Bool.false_eq_true, if_false]
  rw [ends_bind]
  refine ⟨by simp [hkeep], ?_⟩
  simp only [hkeep, Bool.false_eq_true, if_false, ends]
  have he := h.table.entry ip
  unfold Kernel.decRef
  refine hQ _ (h.setInode (h.table.setInode (fun _ _ => Iff.rfl) rfl ⟨?_, ?_, ?_, ?_, ?_, he.free⟩ ?_)) ?_
  · exact Int.sub_nonneg_of_le href
  · exact fun _ => he.dev href
  · exact fun _ => he.data href
  · exact fun _ => he.loaded href
  · exact fun hm => ⟨Int.sub_pos_of_lt (hL hm), (he.mine hm).2⟩
  · intro _ jp e hj hi
    exact e (h.table.unique jp ip hj href hi)
  · have := Moved.setInode s ip (fun x => { x with ref := x.ref - 1 }) rfl rfl id
    rwa [show (s.inode ip).ref - 1 - (s.inode ip).ref = -1 by omega] at this

/-- A reference that `iget` has just brought goes again. -/
theorem putBack {w : Vol} {J : Nat → InodeData} (h : Fsys p k L v I s) (hmv : Moved (Pi.single ip 1) s t)
    (ht : Fsys p k L w J t) (hfresh : (t.inode ip).ref = 1 → (t.inode ip).valid = false)
    (hQ : ∀ u, Fsys p k L w J u → Moved 0 s u → Q () u) : ends (Txv6.iput p ip) Q E t := by
  have hone : (t.inode ip).ref = (s.inode ip).ref + 1 := by
    rw [hmv.ref, Pi.single_eq_same]
  have hcount := (h.table.entry ip).counted
  refine ht.iput (by omega) (fun hL => ?_) (lastUnlinked_of_fresh hfresh) fun u hu hmv' => ?_
  · have := ((h.table.entry ip).mine hL).1
    omega
  · refine hQ u hu ?_
    have := hmv.trans hmv' (Moved.single_nonneg ip)
    rwa [← Pi.single_add, show (1 : Int) + -1 = 0 from rfl, Pi.single_zero] at this

/-! ## Operations -/

theorem beginOp (h : Fsys p 0 L v I s) (hlh : v.lh = [])
    (hQ : ∀ t, Fsys p 1 L v I t → Moved 0 s t → Q () t) : ends (beginOp p) Q E s := by
  refine h.carries.beginOp h.outstanding h.committing hlh (hQ _ ?_ (.of_inode rfl rfl))
  have ht := h.table
  exact ⟨h.carries.setOutstanding 1, h.files, h.layout,
    ⟨ht.entry, ht.unique, ht.apart, ht.distinct, ht.fresh, ht.nodup, ht.pages⟩, h.dinode, h.home, rfl,
    h.committing⟩

/-- The commit leaves every block from the inodes on. -/
theorem endOp (h : Fsys p 1 L v I s) (hroom : v.lh.length < nbuf)
    (hQ : ∀ w t, Fsys p 0 L w I t → w.lh = [] → (∀ x, s.sb.inodestart ≤ x → w.blk x = v.blk x) → Moved 0 s t →
      Q () t) : ends (endOp p) Q E s := by
  refine h.carries.endOp h.outstanding h.committing hroom (fun x hx => h.layout.home (h.home x hx))
    fun w t ht hlh hsame hst => ?_
  have hblk : ∀ x, s.sb.inodestart ≤ x → w.blk x = v.blk x := fun x hx => hsame x (h.layout.home hx)
  have hlow : s.sb.inodestart ≤ s.sb.bmapstart := by
    exact Nat.le_trans (Nat.le_add_right _ _) (Nat.le_of_lt h.layout.inodes)
  have hsb : t.sb = s.sb := hst.sb
  have htable : Itable p L I (s.setOutstanding 0) := by
    have ht := h.table
    exact ⟨ht.entry, ht.unique, ht.apart, ht.distinct, ht.fresh, ht.nodup, ht.pages⟩
  refine hQ w t ⟨ht, ?_, ?_, htable.still hst, ?_, ?_, hst.outstanding, hst.committing.trans h.committing⟩ hlh hblk ?_
  · rw [hsb]
    exact (h.files.above h.layout fun x hx => hblk x (Nat.le_trans hlow hx)).1
  · rw [hsb]
    exact h.layout
  · intro n hn
    rw [hsb] at hn ⊢
    rw [← h.dinode n hn]
    unfold Vol.dinode
    rw [hblk _ (Superblock.inodestart_le_iblock n)]
  · rw [hlh]
    exact fun x hx => absurd hx List.not_mem_nil
  · have hm : Moved 0 s (s.setOutstanding 0) := .of_inode rfl rfl
    exact hm.after (Moved.of_still hst)

end Fsys

/-! ## An example -/

namespace Sample
open Image (superblock)

/-- The kernel before anything has been read, with the root directory in the inode table. -/
def rest : Kernel := { Image.booted with disk := disk }

theorem dinodeAt_zero (o : Nat) : dinodeAt (fun _ => 0) o = .zero := by
  have h16 : ∀ o, le16 (fun _ => 0) o = 0 := by
    intro o
    unfold le16
    dsimp only
    decide
  have h32 : ∀ o, le32 (fun _ => 0) o = 0 := by
    intro o
    unfold le32
    dsimp only
    decide
  unfold dinodeAt InodeData.zero
  simp only [h16, h32]

/-- A dinode stored in the first inode block, read back. -/
theorem dinodeAt_store {b : Block} {n m : Nat} (i : InodeData) (hn : n < ipb) (hm : m < ipb) :
    dinodeAt (putBytes b (dinodeOff m) i.bytes) (dinodeOff n) = if n = m then i else dinodeAt b (dinodeOff n) := by
  split
  next e => exact e ▸ dinodeAt_putBytes _ _ _
  next e => exact dinodeAt_putBytes_of_ne _ (by rwa [Nat.mod_eq_of_lt hn, Nat.mod_eq_of_lt hm])

theorem vol_dinode (n : Nat) (hn : n < superblock.ninodes) : vol.dinode superblock n = inodes n := by
  have hn : n < 200 := hn
  unfold Vol.dinode
  by_cases h16 : n < 16
  · have hblk : superblock.iblock n = 33 := by
      show n / 16 + 33 = 33
      omega
    rw [hblk]
    show dinodeAt inodeBlock (dinodeOff n) = inodes n
    unfold inodeBlock inodes
    rw [dinodeAt_store _ h16 (by decide), dinodeAt_store _ h16 (by decide), dinodeAt_store _ h16 (by decide),
      dinodeAt_zero]
    split_ifs
    all_goals first | subst_vars; rfl | split <;> first | contradiction | rfl
  · have hz : inodes n = .zero := by
      unfold inodes
      split <;> first | omega | rfl
    have hblk : vol.blk (superblock.iblock n) = fun _ => 0 := by
      show disk (n / 16 + 33) = fun _ => 0
      unfold disk
      split <;> first | omega | rfl
    rw [hz, hblk]
    exact dinodeAt_zero _

theorem booted_inode {ip : InodePtr} (h : ip ≠ 0) : Image.booted.inode ip = {} := if_neg h

/-- The inode table after boot, for any disk: nothing is loaded. -/
theorem booted_table (sb : Superblock) (disk : Nat → Block) (I : Nat → InodeData) :
    Itable 0 ∅ I { Image.booted with sb := sb, disk := disk } := by
  have h0 : Image.booted.inode 0 = { dev := rootdev, inum := rootino, ref := 2, data := some 200 } := rfl
  have hfree : ∀ d : Nat, d ∈ Image.booted.freelist → 400 ≤ d := fun d hd => (List.mem_range'_1.mp hd).1
  have hdata : ∀ ip (d : Nat), (Image.booted.inode ip).data = some d → ip = 0 ∧ d = 200 := by
    intro ip d hd
    by_cases e : ip = 0
    · rw [e, h0] at hd
      exact ⟨e, (Option.some.inj hd).symm⟩
    · rw [booted_inode e] at hd
      cases hd
  have hapart : ∀ d : Nat, 200 ≤ d → Image.booted.Apart d := by
    intro d hd b
    have : (b : Nat) < 30 := b.2
    show 100 + (b : Nat) ≠ d
    omega
  refine ⟨fun ip => ?_, fun ip jp hi hj _ => ?_, fun ip d hd => ?_, fun ip jp d hi hj => ?_, fun d hd => ?_,
    List.nodup_range', ?_⟩
  · by_cases e : ip = 0
    · rw [e, h0]
      exact ⟨by decide, fun _ => rfl, fun _ => Option.some_ne_none _, fun _ hv => (nomatch hv),
        fun hc => absurd hc (notMem_empty _), fun _ => rfl⟩
    · rw [booted_inode e]
      exact ⟨Int.le_refl 0, fun hc => absurd hc (Int.lt_irrefl 0), fun hc => absurd hc (Int.lt_irrefl 0),
        fun hc => absurd hc (Int.lt_irrefl 0), fun hc => absurd hc (notMem_empty _), fun _ => rfl⟩
  · have hzero : ∀ ip, 0 < (Image.booted.inode ip).ref → ip = 0 := by
      intro ip hp
      by_contra e
      rw [booted_inode e] at hp
      exact absurd hp (Int.lt_irrefl 0)
    rw [hzero ip hi, hzero jp hj]
  · rw [(hdata ip d hd).2]
    exact hapart 200 (Nat.le_refl _)
  · rw [(hdata ip d hi).1, (hdata jp d hj).1]
  · have hd := hfree d hd
    refine ⟨hapart d (Nat.le_trans (by decide) hd), fun ip hip => ?_⟩
    rw [(hdata ip d hip).2] at hd
    exact absurd hd (by decide)
  · refine Nat.le_trans (card_le_univ _) ?_
    rw [Fintype.card_fin]
    change ninode ≤ Image.booted.freelist.length
    decide

/-- **The example is a file system at rest.** -/
theorem rest_fsys : Fsys 0 0 ∅ vol inodes rest := by
  have hpages : ∀ b c, (rest.buf b).data = (rest.buf c).data → b = c := fun b c e => Fin.ext (Nat.add_left_cancel e)
  have htx : rest.txActive 0 = false := Image.booted_inactive 0
  exact ⟨carries_cold hpages rfl (fun _ => ⟨rfl, rfl, rfl⟩) htx rfl, files, superblock_ok, booted_table _ _ _, vol_dinode,
    fun x hx => absurd hx List.not_mem_nil, rfl, rfl⟩

end Sample

end Txv6
