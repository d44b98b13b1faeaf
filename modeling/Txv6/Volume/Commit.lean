import Txv6.Volume.Cache

/-! # Operations on a volume

`begin_op` and `end_op` of a process that runs alone. The commit of the log goes through the
log blocks and leaves the contents of every other block.
-/
namespace Txv6
open Lib Lib.Prog Function Finset

variable {k : K Unit} {l : List Nat} {tail x : Nat} {sb : Superblock}

/-! ## Contents along a commit -/

/-- The copies of the logged blocks, as far as they are in the log. -/
def Vol.Copied (sb : Superblock) (v : Vol) (l : List Nat) (tail : Nat) : Prop :=
  ∀ i < tail, ∀ x, l[i]? = some x → v.blk (sb.logstart + i + 1) = v.blk x

/-- The same contents outside of the log. -/
def Vol.SameHome (sb : Superblock) (v w : Vol) : Prop := ∀ n, sb.log.Home n → w.blk n = v.blk n

theorem Vol.SameHome.trans {v w x : Vol} (h : Vol.SameHome sb v w) (h' : Vol.SameHome sb w x) :
    Vol.SameHome sb v x := fun n hn => (h' n hn).trans (h n hn)

theorem Vol.sameHome_slot {v : Vol} {i : Nat} {x : Block} (hi : i < logblocks) :
    Vol.SameHome sb v (v.set (sb.logstart + i + 1) x) :=
  fun _ hn => update_of_ne (hn.2 i hi) _ _

theorem Vol.Copied.set {v : Vol} (h : Vol.Copied sb v l tail)
    (hl : l.length ≤ logblocks) (hh : ∀ y ∈ l, sb.log.Home y) (hx : l[tail]? = some x) :
    Vol.Copied sb (v.set (sb.logstart + tail + 1) (v.blk x)) l (tail + 1) := by
  intro i hi y hy
  have htail : tail < logblocks := Nat.lt_of_lt_of_le (List.getElem?_eq_some_iff.mp hx).1 hl
  have hyh := hh y (List.mem_of_getElem? hy)
  rw [Vol.sameHome_slot htail y hyh]
  by_cases e : i = tail
  · subst e
    rw [hx] at hy
    cases hy
    exact update_self ..
  · have hne : sb.logstart + i + 1 ≠ sb.logstart + tail + 1 := by omega
    exact (update_of_ne hne _ _).trans (h i (by omega) y hy)

/-! ## Steps -/

namespace Cached
variable {p : ProcPtr} {D W : Finset BufPtr} {v : Vol} {s : Kernel} {b : BufPtr} {n : Nat}
  {E : Err → Kernel → Prop} {Q : Unit → Kernel → Prop}

section
variable (h : Cached p D W v s) (hb : b ∈ D)
include h hb

/-- A buffer in hand goes to the disk. -/
theorem diskWrite : Cached p D (W.erase b) v (s.diskWrite b) := by
  have hbb := h.held b hb
  have hholds : ∀ c n, s.Holds c n ↔ (s.diskWrite b).Holds c n := fun c n =>
    ⟨fun hc => ⟨hc.valid, hc.dev, hc.blockno⟩, fun hc => ⟨hc.valid, hc.dev, hc.blockno⟩⟩
  have hcache : (s.diskWrite b).CacheOk := ⟨h.cache.pages, h.cache.listed, h.cache.unique⟩
  refine ⟨hcache, h.order, h.inactive, fun n => ?_, h.refs, h.free, h.mine,
    fun c hc => (hholds c _).mp (h.held c hc), fun c hc n hn hm => ?_, fun n hn => ?_, h.distinct⟩
  · rw [← h.blk]
    refine blk_eq hcache (fun c hc => ?_) fun hno => ?_
    · exact (((hholds c n).mpr hc).blk h.cache).symm
    · have hne : n ≠ (s.buf b).blockno := fun e => hno b ((hholds b n).mp (e ▸ hbb))
      change update s.disk _ _ n = _
      rw [update_of_ne hne]
      exact (blk_of_none fun c hc => hno c ((hholds c n).mp hc)).symm
  · have hcn := (hholds c n).mpr hn
    change s.bytes c = update s.disk (s.buf b).blockno (s.bytes b) n
    by_cases e : c = b
    · subst e
      rw [← hcn.blockno, update_self]
    · have hne : n ≠ (s.buf b).blockno := fun en => e (hbb.eq h.cache (en ▸ hcn))
      rw [update_of_ne hne]
      exact h.clean c (fun hw => hc (mem_erase.mpr ⟨e, hw⟩)) n hcn hm
  · obtain ⟨c, hc⟩ := h.logged n hn
    exact ⟨c, (hholds c n).mp hc⟩

theorem bwrite (hQ : ∀ t, Cached p D (W.erase b) v t → Still D s t → t.log = s.log → t.buf = s.buf →
      t.disk (s.buf b).blockno = t.bytes b → Q () t) : ends (bwrite p b) Q E s := by
  unfold Txv6.bwrite kassert
  rw [ends_bind, ends_check, if_pos (h.mine b hb), ends_update]
  refine hQ _ (h.diskWrite hb) ⟨rfl, fun _ => rfl, fun _ _ => rfl, fun _ _ => rfl⟩ rfl rfl ?_
  exact update_self ..

/-- New contents for a buffer in hand, in the cache and on the disk. -/
theorem write {f : Block → Block} (hblk : (s.buf b).blockno = n)
    (hQ : ∀ t, Cached p D W (v.set n (f (v.blk n))) t → Still D s t → t.log = s.log →
      t.disk n = t.bytes b → Q () t) :
    ends (do setBufBytes b f; Txv6.bwrite p b) Q E s := by
  subst hblk
  rw [ends_bind, setBufBytes_eq, ends_update]
  refine (h.setBytes hb f).bwrite hb fun t ht hst hlog hbuf hdisk => ?_
  exact hQ t (ht.mono (erase_insert_subset b W)) (Still.trans .setBytes hst) hlog hdisk

/-- `bunpin` of a block that is on the disk. -/
theorem unpin (hn : (s.buf b).blockno ∈ v.lh)
    (hdisk : s.disk (s.buf b).blockno = s.bytes b) :
    Cached p D W ⟨v.blk, v.lh.erase (s.buf b).blockno⟩
      (s.setBuf b fun x => { x with refcnt := x.refcnt - 1 }) := by
  have hbb := h.held b hb
  have hmem : ∀ n, n ∈ v.lh.erase (s.buf b).blockno ↔ n ≠ (s.buf b).blockno ∧ n ∈ v.lh :=
    fun n => h.distinct.mem_erase_iff
  refine h.repin hb rfl rfl (fun n hne => ?_) (h.distinct.erase _) ?_ fun c hc n hcn hm => ?_
  · rw [hmem, and_iff_right hne]
  · rw [h.refs b]
    simp [hb, hn, hbb.dev, hmem]
  · by_cases e : c = b
    · subst e
      rw [← hcn.blockno, hdisk]
    · have hne : n ≠ (s.buf b).blockno := fun en => e (hbb.eq h.cache (en ▸ hcn))
      exact h.clean c hc n hcn fun hl => hm ((hmem n).mpr ⟨hne, hl⟩)
end

/-- A round of `write_log` or of `install_trans` starts with the slot of the log and the block itself. -/
theorem breadPair {f : BufPtr → BufPtr → K Unit} (h : Cached p ∅ ∅ v s) (hroom : v.lh.length < nbuf) (hx : x ∈ v.lh)
    (hne : s.sb.logstart + tail + 1 ≠ x) (hf : ∀ b c t, c ∉ insert b (∅ : Finset BufPtr) →
      Cached p (insert c (insert b ∅)) ∅ v t → Still ∅ s t → t.log = s.log →
      (t.buf b).blockno = s.sb.logstart + tail + 1 → (t.buf c).blockno = x → ends (f b c) Q E t) :
    ends (do
      let start ← .read fun s => s.sb.logstart
      let b ← Txv6.bread p rootdev (start + tail + 1)
      let c ← Txv6.bread p rootdev x
      f b c) Q E s := by
  rw [ends_bind, ends_read, ends_bind]
  refine h.bread (by simp) (by simp) (.inl (.inr (by simpa using hroom))) fun b t₁ _ h₁ st₁ l₁ b₁ => ?_
  rw [ends_bind]
  refine h₁.bread (fun c hc => ?_) (by simp) (.inl (.inl hx)) fun c t₂ hc h₂ st₂ l₂ b₂ => ?_
  · rw [mem_insert, or_iff_left (notMem_empty c)] at hc
    rw [hc, b₁]
    exact hne
  · exact hf b c t₂ hc h₂ (st₁.trans (st₂.mono (empty_subset _))) (l₂.trans l₁)
      ((st₂.held b (by simp)).trans b₁) b₂

theorem writeLogRound {rest : List Nat} (h : Cached p ∅ ∅ v s)
    (hroom : v.lh.length < nbuf) (hx : x ∈ v.lh) (hne : s.sb.logstart + tail + 1 ≠ x)
    (hk : ∀ t, Cached p ∅ ∅ (v.set (s.sb.logstart + tail + 1) (v.blk x)) t → Still ∅ s t →
      t.log = s.log → ends (Txv6.writeLogLoop p (tail + 1) rest) Q E t) :
    ends (Txv6.writeLogLoop p tail (x :: rest)) Q E s := by
  refine h.breadPair hroom hx hne fun dst src t₂ hsrc h₂ st₂ l₂ b₁ b₂ => ?_
  have hdst : dst ∈ insert src (insert dst (∅ : Finset BufPtr)) := by simp
  have hsrc' : src ∈ insert src (insert dst (∅ : Finset BufPtr)) := by simp
  unfold bufBytes
  rw [ends_bind, ends_read]
  have hbytes : (t₂.heap (t₂.buf src).data).bytes = v.blk x := by
    rw [← b₂]
    exact h₂.bytes hsrc'
  rw [hbytes, ← bind_assoc, ends_bind]
  refine h₂.write hdst b₁ fun t₃ h₃ st₃ l₃ _ => ?_
  rw [ends_bind]
  refine h₃.brelse hsrc' fun t₄ h₄ st₄ l₄ _ => ?_
  rw [erase_insert hsrc] at h₄ st₄
  rw [ends_bind]
  refine h₄.brelse (by simp) fun t₅ h₅ st₅ l₅ _ => ?_
  rw [erase_insert (notMem_empty dst)] at h₅ st₅
  have hst := st₂.trans ((st₃.mono (empty_subset _)).trans ((st₄.mono (empty_subset _)).trans st₅))
  exact hk t₅ h₅ hst (l₅.trans (l₄.trans (l₃.trans l₂)))

/-- `write_log` from entry `tail` on. -/
theorem writeLogLoop (hl : l.length < nbuf) :
    ∀ (rest : List Nat) (tail : Nat) {v : Vol} {s : Kernel}, l.drop tail = rest → Cached p ∅ ∅ v s →
      v.lh = l → (∀ x ∈ l, s.sb.log.Home x) → Vol.Copied s.sb v l tail →
      ends (writeLogLoop p tail rest) (fun _ t => ∃ w, Cached p ∅ ∅ w t ∧ w.lh = l ∧
        Vol.SameHome s.sb v w ∧ Vol.Copied s.sb w l l.length ∧ Still ∅ s t ∧ t.log = s.log) E s
  | [], tail, v, s, hrest, h, hlh, _, hdone => by
    have hlen := List.drop_eq_nil_iff.mp hrest
    exact ⟨v, h, hlh, fun _ _ => rfl, fun i hi => hdone i (Nat.lt_of_lt_of_le hi hlen), .refl _ _, rfl⟩
  | x :: rest, tail, v, s, hrest, h, hlh, hh, hdone => by
    have hx : l[tail]? = some x := by
      rw [← List.head?_drop, hrest]
      rfl
    have hrest' : l.drop (tail + 1) = rest := by
      rw [← List.drop_drop, hrest]
      rfl
    have hmem : x ∈ l := List.mem_of_getElem? hx
    have htail : tail < logblocks := Nat.lt_trans (List.getElem?_eq_some_iff.mp hx).1 hl
    have hne : s.sb.logstart + tail + 1 ≠ x := ((hh x hmem).2 tail htail).symm
    refine h.writeLogRound (by rw [hlh]; exact hl) (by rw [hlh]; exact hmem) hne fun t ht hst hlog => ?_
    have ih := writeLogLoop hl rest (tail + 1) hrest' ht hlh (by rw [hst.sb]; exact hh)
      (by rw [hst.sb]; exact hdone.set (Nat.le_of_lt hl) hh hx)
    rw [hst.sb] at ih
    refine ends_mono ih fun _ u hu => ?_
    obtain ⟨w, hw, hwl, hsame, hcop, hst', hlog'⟩ := hu
    exact ⟨w, hw, hwl, (Vol.sameHome_slot htail).trans hsame, hcop, hst.trans hst', hlog'.trans hlog⟩

/-- `write_head` changes the header block. -/
theorem writeHead (h : Cached p ∅ ∅ v s) (hroom : v.lh.length < nbuf)
    (hQ : ∀ x t, Cached p ∅ ∅ (v.set s.sb.logstart x) t → Still ∅ s t → t.log = s.log → Q () t) :
    ends (writeHead p) Q E s := by
  unfold Txv6.writeHead
  rw [ends_bind, ends_read, ends_bind]
  refine h.bread (by simp) (by simp) (.inl (.inr (by simpa using hroom))) fun b t₁ _ h₁ st₁ l₁ b₁ => ?_
  rw [ends_bind, ends_read, ← bind_assoc, ends_bind]
  refine h₁.write (by simp) b₁ fun t₂ h₂ st₂ l₂ _ => ?_
  refine h₂.brelse (by simp) fun t₃ h₃ st₃ l₃ _ => ?_
  rw [erase_insert (notMem_empty b)] at h₃ st₃
  have hst := st₁.trans ((st₂.mono (empty_subset _)).trans st₃)
  exact hQ _ t₃ h₃ hst (l₃.trans (l₂.trans l₁))

/-- A round of `install_trans(0)`: the copy of the first pinned block goes to its place. -/
theorem installRound {rest : List Nat}
    (h : Cached p ∅ ∅ v s) (hlh : v.lh = x :: rest) (hroom : v.lh.length < nbuf)
    (hne : s.sb.logstart + tail + 1 ≠ x) (hcopy : v.blk (s.sb.logstart + tail + 1) = v.blk x)
    (hk : ∀ t, Cached p ∅ ∅ ⟨v.blk, rest⟩ t → Still ∅ s t → t.log = s.log →
      ends (installTransLoop p false (tail + 1) rest) Q E t) :
    ends (installTransLoop p false tail (x :: rest)) Q E s := by
  have hx : x ∈ v.lh := by simp [hlh]
  refine h.breadPair hroom hx hne fun lbuf dbuf t₂ hd h₂ st₂ l₂ b₁ b₂ => ?_
  have hlmem : lbuf ∈ insert dbuf (insert lbuf (∅ : Finset BufPtr)) := by simp
  have hdmem : dbuf ∈ insert dbuf (insert lbuf (∅ : Finset BufPtr)) := by simp
  unfold bufBytes
  rw [ends_bind, ends_read]
  have hbytes : (t₂.heap (t₂.buf lbuf).data).bytes = v.blk x := by
    rw [← hcopy, ← b₁]
    exact h₂.bytes hlmem
  rw [hbytes, ← bind_assoc, ends_bind]
  refine h₂.write hdmem b₂ fun t₃ h₃ st₃ l₃ hdisk => ?_
  -- the copy is what the block has anyway
  have hv : v.set x (v.blk x) = v := by
    unfold Vol.set
    rw [update_eq_self]
  rw [hv] at h₃
  have b₃ : (t₃.buf dbuf).blockno = x := (st₃.held dbuf hdmem).trans b₂
  unfold bunpin Prog.when
  rw [ends_bind, if_pos (by rfl : (!false) = true), ends_update]
  have h₄ := h₃.unpin hdmem (by rw [b₃]; exact hx) (by rw [b₃]; exact hdisk)
  rw [b₃, hlh, List.erase_cons_head] at h₄
  have st₄ : Still {dbuf, lbuf} t₃ (t₃.setBuf dbuf fun x => { x with refcnt := x.refcnt - 1 }) :=
    .setBuf rfl fun _ => rfl
  have hl : lbuf ∉ insert dbuf (∅ : Finset BufPtr) := by simpa [eq_comm] using hd
  rw [insert_comm] at h₄
  rw [ends_bind]
  refine h₄.brelse (mem_insert_self _ _) fun t₅ h₅ st₅ l₅ _ => ?_
  rw [erase_insert hl] at h₅ st₅
  rw [ends_bind]
  refine h₅.brelse (mem_insert_self _ _) fun t₆ h₆ st₆ l₆ _ => ?_
  rw [erase_insert (notMem_empty dbuf)] at h₆ st₆
  have hst := st₂.trans ((st₃.mono (empty_subset _)).trans ((st₄.mono (empty_subset _)).trans
    ((st₅.mono (empty_subset _)).trans st₆)))
  exact hk t₆ h₆ hst (l₆.trans (l₅.trans (l₃.trans l₂)))

/-- `install_trans(0)` from entry `tail` on. -/
theorem installLoop (hl : l.length < nbuf) :
    ∀ (rest : List Nat) (tail : Nat) {v : Vol} {s : Kernel}, l.drop tail = rest → Cached p ∅ ∅ v s →
      v.lh = rest → (∀ x ∈ l, s.sb.log.Home x) → Vol.Copied s.sb v l l.length →
      ends (installTransLoop p false tail rest) (fun _ t => Cached p ∅ ∅ ⟨v.blk, []⟩ t ∧
        Still ∅ s t ∧ t.log = s.log) E s
  | [], tail, v, s, _, h, hlh, _, _ => by
    have hv : v = ⟨v.blk, []⟩ := by rw [← hlh]
    rw [hv] at h
    exact ⟨h, .refl _ _, rfl⟩
  | x :: rest, tail, v, s, hrest, h, hlh, hh, hcop => by
    have hx : l[tail]? = some x := by
      rw [← List.head?_drop, hrest]
      rfl
    have hrest' : l.drop (tail + 1) = rest := by
      rw [← List.drop_drop, hrest]
      rfl
    have hlen := (List.getElem?_eq_some_iff.mp hx).1
    have htail : tail < logblocks := Nat.lt_trans hlen hl
    have hne : s.sb.logstart + tail + 1 ≠ x := ((hh x (List.mem_of_getElem? hx)).2 tail htail).symm
    have hroom : v.lh.length < nbuf := by
      rw [hlh, ← hrest, List.length_drop]
      omega
    refine h.installRound hlh hroom hne (hcop tail hlen x hx) fun t ht hst hlog => ?_
    have ih := installLoop hl rest (tail + 1) hrest' ht rfl (by rw [hst.sb]; exact hh)
      (by rw [hst.sb]; exact hcop)
    exact ends_mono ih fun _ u hu => ⟨hu.1, hst.trans hu.2.1, hu.2.2.trans hlog⟩

theorem commit (h : Cached p ∅ ∅ v s) (hlog : s.log.lh = v.lh) (hroom : v.lh.length < nbuf)
    (hh : ∀ x ∈ v.lh, s.sb.log.Home x) :
    ends (commit p) (fun _ t => ∃ w, Cached p ∅ ∅ w t ∧ w.lh = [] ∧ Vol.SameHome s.sb v w ∧
      Still ∅ s t ∧ t.log.lh = []) E s := by
  unfold Txv6.commit
  rw [ends_bind, ends_read, hlog]
  by_cases hpos : 0 < v.lh.length
  swap
  · have hnil : v.lh = [] := List.eq_nil_of_length_eq_zero (Nat.eq_zero_of_not_pos hpos)
    rw [if_neg (by simpa using hpos)]
    exact ⟨v, h, hnil, fun _ _ => rfl, .refl _ _, hlog.trans hnil⟩
  rw [if_pos (by simpa using hpos), ends_bind]
  unfold writeLog
  rw [ends_bind, ends_read, hlog]
  refine ends_mono (h.writeLogLoop hroom v.lh 0 rfl rfl hh fun i hi => absurd hi (Nat.not_lt_zero i))
    fun _ t₁ ht₁ => ?_
  obtain ⟨w, h₁, hw, same₁, hcop, st₁, l₁⟩ := ht₁
  rw [ends_bind]
  refine h₁.writeHead (by rw [hw]; exact hroom) fun x t₂ h₂ st₂ l₂ => ?_
  have hheader : ∀ y, Vol.SameHome s.sb w (w.set t₁.sb.logstart y) := by
    intro y n hn
    rw [st₁.sb]
    exact update_of_ne hn.1 _ _
  have hcop₂ : Vol.Copied t₂.sb (w.set t₁.sb.logstart x) v.lh v.lh.length := by
    intro i hi y hy
    rw [hheader x y (hh y (List.mem_of_getElem? hy)), st₂.sb, st₁.sb]
    have hne : s.sb.logstart + i + 1 ≠ s.sb.logstart := by omega
    exact (update_of_ne hne _ _).trans (hcop i hi y hy)
  unfold installTrans
  rw [ends_bind, ends_bind, ends_read, l₂, l₁, hlog]
  refine ends_mono (h₂.installLoop hroom v.lh 0 rfl hw (by rw [st₂.sb, st₁.sb]; exact hh) hcop₂)
    fun _ t₃ ht₃ => ?_
  obtain ⟨h₃, st₃, l₃⟩ := ht₃
  unfold setLh
  rw [ends_bind, ends_update]
  have h₄ := h₃.setLog { t₃.log with lh := [] }
  have st₄ : Still ∅ t₃ { t₃ with log := { t₃.log with lh := [] } } :=
    ⟨rfl, fun _ => rfl, fun _ _ => rfl, fun _ _ => rfl⟩
  refine h₄.writeHead (Nat.succ_pos _) fun y t₅ h₅ st₅ l₅ => ?_
  refine ⟨_, h₅, rfl, ?_, st₁.trans (st₂.trans (st₃.trans (st₄.trans st₅))), by rw [l₅]⟩
  intro n hn
  have hne : n ≠ t₃.sb.logstart := by
    rw [st₃.sb, st₂.sb, st₁.sb]
    exact hn.1
  refine (update_of_ne hne _ _).trans ?_
  exact (hheader x n hn).trans (same₁ n hn)

end Cached

/-! ## Operations -/

/-- The log with `k` open operations. -/
def Kernel.setOutstanding (s : Kernel) (k : Int) : Kernel :=
  { s with log := { s.log with outstanding := k } }

namespace Carries
variable {p : ProcPtr} {D W : Finset BufPtr} {v : Vol} {s : Kernel} {E : Err → Kernel → Prop}
  {Q : Unit → Kernel → Prop}

theorem setOutstanding (h : Carries p D W v s) (k : Int) : Carries p D W v (s.setOutstanding k) :=
  ⟨h.toCached.setLog _, h.log⟩

/-- An operation begins while the log is at rest. -/
theorem beginOp (h : Carries p ∅ W v s) (hout : s.log.outstanding = 0) (hcom : s.log.committing = false)
    (hlh : v.lh = []) (hQ : Q () (s.setOutstanding 1)) : ends (beginOp p) Q E s := by
  unfold Txv6.beginOp
  rw [ends_bind]
  refine h.txActive ?_
  change ends (.await (fun s => s.log.hasRoom) _) Q E s
  rw [ends_await]
  constructor
  · unfold Log.hasRoom
    rw [hout, hcom, h.log, hlh]
    decide
  · rw [hout]
    exact hQ

/-- The only open operation ends: what it has logged goes to the disk. -/
theorem endOp (h : Carries p ∅ ∅ v s) (hout : s.log.outstanding = 1) (hcom : s.log.committing = false)
    (hroom : v.lh.length < nbuf) (hh : ∀ x ∈ v.lh, s.sb.log.Home x)
    (hQ : ∀ w t, Carries p ∅ ∅ w t → w.lh = [] → Vol.SameHome s.sb v w →
      Still ∅ (s.setOutstanding 0) t → Q () t) : ends (endOp p) Q E s := by
  unfold Txv6.endOp
  rw [ends_bind]
  refine h.txActive ?_
  change ends (atomOrPanic Kernel.endOp >>= _) Q E s
  have hs : s.endOp = (.ok true, { s with log := { s.log with outstanding := 0, committing := true } }) := by
    unfold Kernel.endOp
    simp [hout, hcom]
  rw [ends_bind, ends_atomOrPanic hs]
  change ends (Txv6.commit p >>= _) Q E _
  rw [ends_bind]
  refine ends_mono ((h.toCached.setLog _).commit h.log hroom hh) fun _ t ht => ?_
  obtain ⟨w, hw, hnil, hsame, hst, hlh⟩ := ht
  rw [ends_update]
  refine hQ w _ ⟨hw.setLog _, hlh.trans hnil.symm⟩ hnil hsame ⟨?_, hst.page, hst.heap, fun b hb => ?_⟩
  · have hr := hst.rest
    generalize t.disk = d, t.buf = b, t.lru = l, t.log.lh = lh, t.heap = hp at *
    subst hr
    simp [Kernel.setOutstanding, hcom]
  · exact absurd hb (notMem_empty b)

end Carries

/-- With nothing logged and nothing unlogged, the blocks are on the disk. -/
theorem Carries.disk {p : ProcPtr} {v : Vol} {s : Kernel} (h : Carries p ∅ ∅ v s) (hlh : v.lh = [])
    (n : Nat) : s.disk n = v.blk n := by
  rw [← h.blk]
  symm
  refine blk_eq h.cache (fun b hb => ?_) fun _ => rfl
  exact h.clean b (notMem_empty b) n hb (by simp [hlh])

end Txv6
