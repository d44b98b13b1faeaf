import Txv6.Crash.Cache
import Txv6.Lib.Alone
import Mathlib.Data.Fintype.Card

/-! # The buffer cache under one process

What `bread`, `bwrite` and `brelse` do for a process that runs alone, as `recover_from_log`
does: they neither wait nor panic, and the cache stays a copy of the disk.
-/
namespace Txv6
open Lib Lib.Prog Function

variable {f : Buf → Buf} {b : BufPtr} {blk : Nat}

/-- Process `p` runs alone and has the buffers `D` in hand. The others are unused and agree
with the disk. -/
structure Solo (p : ProcPtr) (D : Finset BufPtr) (s : Kernel) : Prop where
  cache : s.CacheOk
  refs : ∀ b, (s.buf b).refcnt = if b ∈ D then 1 else 0
  free : ∀ b ∉ D, (s.buf b).lock.locked = false
  mine : ∀ b ∈ D, s.holdingsleep p (.buf b) = true
  agree : ∀ b ∉ D, (s.buf b).valid = true → (s.buf b).dev = rootdev →
    s.bytes b = s.disk (s.buf b).blockno

/-- Nothing has changed but buffers outside of `D`. -/
structure SameOn (D : Finset BufPtr) (s t : Kernel) : Prop where
  disk : t.disk = s.disk
  log : t.log = s.log
  sb : t.sb = s.sb
  proc : t.proc = s.proc
  tx : t.tx = s.tx
  buf : ∀ b ∈ D, t.buf b = s.buf b
  bytes : ∀ b ∈ D, t.bytes b = s.bytes b

namespace SameOn
variable {D : Finset BufPtr} {s t u : Kernel}

theorem trans (h : SameOn D s t) (h' : SameOn D t u) : SameOn D s u where
  disk := h'.disk.trans h.disk
  log := h'.log.trans h.log
  sb := h'.sb.trans h.sb
  proc := h'.proc.trans h.proc
  tx := h'.tx.trans h.tx
  buf b hb := (h'.buf b hb).trans (h.buf b hb)
  bytes b hb := (h'.bytes b hb).trans (h.bytes b hb)

theorem setBuf (hb : b ∉ D) (hdata : (f (s.buf b)).data = (s.buf b).data) :
    SameOn D s (s.setBuf b f) where
  disk := rfl
  log := rfl
  sb := rfl
  proc := rfl
  tx := rfl
  buf _ hc := setBuf_of_ne (ne_of_mem_of_not_mem hc hb)
  bytes c _ := bytes_setBuf hdata c

theorem setBytes {f : Block → Block} (hs : s.CacheOk) (hb : b ∉ D) :
    SameOn D s (s.setBytes b f) where
  disk := rfl
  log := rfl
  sb := rfl
  proc := rfl
  tx := rfl
  buf _ _ := rfl
  bytes _ hc := bytes_setBytes_of_ne hs (ne_of_mem_of_not_mem hc hb)

theorem setLock (hb : b ∉ D) (l : Sleeplock) : SameOn D s (s.setLock l (.buf b)) :=
  setBuf (f := fun x => { x with lock := l }) hb rfl

end SameOn

namespace Solo
variable {p : ProcPtr} {D : Finset BufPtr} {s : Kernel} {J : (Nat → Block) → Prop}

/-- A change of a buffer in hand that keeps its place, its lock and its references. -/
theorem setBuf (h : Solo p D s) (hb : b ∈ D)
    (hdata : (f (s.buf b)).data = (s.buf b).data) (hdev : (f (s.buf b)).dev = (s.buf b).dev)
    (hblk : (f (s.buf b)).blockno = (s.buf b).blockno) (hlock : (f (s.buf b)).lock = (s.buf b).lock)
    (hcnt : (f (s.buf b)).refcnt = (s.buf b).refcnt) : Solo p D (s.setBuf b f) where
  cache := h.cache.setBuf_same hdata hdev hblk
  refs c := by
    by_cases e : c = b
    · subst e; rw [setBuf_self, hcnt]; exact h.refs c
    · rw [setBuf_of_ne e]; exact h.refs c
  free c hc := by
    rw [setBuf_of_ne (ne_of_mem_of_not_mem hb hc).symm]
    exact h.free c hc
  mine c hc := by
    have hl : (s.setBuf b f).lock (.buf c) = s.lock (.buf c) := lock_setBuf hlock (.buf c)
    have := h.mine c hc
    unfold Kernel.holdingsleep at this ⊢
    rwa [hl]
  agree c hc := by
    rw [bytes_setBuf hdata, setBuf_of_ne (ne_of_mem_of_not_mem hb hc).symm]
    exact h.agree c hc

/-- A store to a buffer in hand. -/
theorem setBytes (h : Solo p D s) (hb : b ∈ D) (f : Block → Block) :
    Solo p D (s.setBytes b f) where
  cache := h.cache.setBytes b f
  refs := h.refs
  free := h.free
  mine := h.mine
  agree c hc hv hd := by
    rw [bytes_setBytes_of_ne h.cache (ne_of_mem_of_not_mem hb hc).symm]
    exact h.agree c hc hv hd

/-- A write of a buffer in hand to the disk. -/
theorem diskWrite (h : Solo p D s) (hb : b ∈ D) (hdev : (s.buf b).dev = rootdev) :
    Solo p D (s.diskWrite b) where
  cache := ⟨h.cache.pages, h.cache.listed, h.cache.unique⟩
  refs := h.refs
  free := h.free
  mine := h.mine
  agree c hc hv hd := by
    have hne : (s.buf c).blockno ≠ (s.buf b).blockno := by
      intro e
      exact hc (h.cache.unique c b hd hdev e ▸ hb)
    change s.bytes c = update s.disk _ _ (s.buf c).blockno
    rw [update_of_ne hne]
    exact h.agree c hc hv hd

/-- A buffer that `bget` has found or recycled, and locked. -/
theorem take (h : Solo p D s) (hb : b ∉ D) (hdata : (f (s.buf b)).data = (s.buf b).data)
    (hdev : (f (s.buf b)).dev = rootdev) (hblk : (f (s.buf b)).blockno = blk)
    (hcnt : (f (s.buf b)).refcnt = 1) (hlock : (f (s.buf b)).lock = ⟨true, (s.proc p).pid⟩)
    (hu : ∀ c, c ≠ b → (s.buf c).dev = rootdev → (s.buf c).blockno ≠ blk) :
    Solo p (insert b D) (s.setBuf b f) where
  cache := h.cache.setBuf hdata fun c hne _ hc e => hu c hne hc (e.symm.trans hblk)
  refs c := by
    by_cases e : c = b
    · subst e; rw [setBuf_self, hcnt]; simp
    · rw [setBuf_of_ne e, h.refs c]; simp [e]
  free c hc := by
    rw [Finset.mem_insert, not_or] at hc
    rw [setBuf_of_ne hc.1]
    exact h.free c hc.2
  mine c hc := by
    by_cases e : c = b
    · subst e
      simp [Kernel.holdingsleep, Kernel.lock, hlock, Kernel.setBuf]
    · have := h.mine c ((Finset.mem_insert.mp hc).resolve_left e)
      simpa [Kernel.holdingsleep, Kernel.lock, Kernel.setBuf, e] using this
  agree c hc := by
    rw [Finset.mem_insert, not_or] at hc
    rw [bytes_setBuf hdata, setBuf_of_ne hc.1]
    exact h.agree c hc.2

/-- What `bget` has done when it returns `b`. -/
structure Got (p : ProcPtr) (D : Finset BufPtr) (s : Kernel) (blk : Nat) (b : BufPtr) (t : Kernel) :
    Prop where
  fresh : b ∉ D
  solo : Solo p (insert b D) t
  same : SameOn D s t
  dev : (t.buf b).dev = rootdev
  blockno : (t.buf b).blockno = blk
  loaded : (t.buf b).valid = true → t.bytes b = s.disk blk

section
variable (h : Solo p D s)
include h

/-- The two critical sections of `bget` as one change of a buffer. -/
theorem got (hb : b ∉ D) (hdata : (f (s.buf b)).data = (s.buf b).data)
    (hdev : (f (s.buf b)).dev = rootdev) (hblk : (f (s.buf b)).blockno = blk)
    (hcnt : (f (s.buf b)).refcnt = 1) (hu : ∀ c, c ≠ b → (s.buf c).dev = rootdev → (s.buf c).blockno ≠ blk)
    (hload : (f (s.buf b)).valid = true → s.bytes b = s.disk blk) :
    Got p D s blk b ((s.setBuf b f).setLock ⟨true, (s.proc p).pid⟩ (.buf b)) where
  fresh := hb
  solo := by
    rw [Kernel.setLock, setBuf_setBuf]
    exact h.take hb hdata hdev hblk hcnt rfl hu
  same := (SameOn.setBuf hb hdata).trans (.setLock hb _)
  dev := by simpa [Kernel.setLock] using hdev
  blockno := by simpa [Kernel.setLock] using hblk
  loaded hv := by
    rw [Kernel.setLock, setBuf_setBuf] at hv ⊢
    rw [bytes_setBuf (by exact hdata)]
    exact hload (by simpa using hv)

theorem bget (hJ : J s.disk) (hcard : D.card < nbuf)
    (hnew : ∀ b ∈ D, (s.buf b).dev = rootdev → (s.buf b).blockno ≠ blk) :
    alone (fun t => J t.disk) (bget p rootdev blk) (Got p D s blk) s := by
  have hres := bget_result s rootdev blk
  have hsome : (s.bget rootdev blk).1 ≠ none := by
    obtain ⟨b, hb⟩ : ∃ b, b ∉ D := by
      by_contra hall
      push Not at hall
      rw [Finset.eq_univ_iff_forall.mpr hall, Finset.card_univ, Fintype.card_fin] at hcard
      exact absurd hcard (lt_irrefl _)
    have hr : (s.buf b).refcnt = 0 := by rw [h.refs b, if_neg hb]
    exact bget_ne_none (h.cache.listed b) hr _ _
  -- the second section finds the lock of the buffer free
  have lock : ∀ b f, s.bget rootdev blk = (some b, s.setBuf b f) →
      (f (s.buf b)).lock = (s.buf b).lock → b ∉ D →
      Got p D s blk b ((s.setBuf b f).setLock ⟨true, (s.proc p).pid⟩ (.buf b)) →
      alone (fun t => J t.disk) (Txv6.bget p rootdev blk) (Got p D s blk) s := by
    intro b f hget hl hb hgot
    refine alone_seq (alone_atom (Q := fun o t => o = some b ∧ t = s.setBuf b f) hJ ?_ ?_) ?_
    · rw [hget]; exact hJ
    · rw [hget]; exact ⟨rfl, rfl⟩
    · rintro o t ⟨rfl, rfl⟩
      refine alone_seq (alone_await (Q := fun _ => Got p D s blk b) hJ ?_ hJ hgot) ?_
      · simp [Kernel.lock, hl, h.free b hb]
      · intro _ t ht
        refine alone_pure ?_ ht
        rw [ht.same.disk]
        exact hJ
  generalize hget : s.bget rootdev blk = res at hres hsome
  cases hres with
  | full => exact absurd rfl hsome
  | @found b hlru hd hk =>
    have hb : b ∉ D := fun hb => hnew b hb hd hk
    refine lock b _ hget rfl hb (h.got hb rfl hd hk (by simp [h.refs b, hb]) ?_ ?_)
    · exact fun c hne hc e => hne (h.cache.unique c b hc hd (e.trans hk.symm))
    · exact fun hv => (h.agree b hb hv hd).trans (by rw [hk])
  | @recycled b hno hlru hr =>
    have hb : b ∉ D := by
      intro hb
      rw [h.refs b, if_pos hb] at hr
      cases hr
    refine lock b _ hget rfl hb (h.got hb rfl rfl rfl rfl ?_ ?_)
    · exact fun c _ hc => hno c (h.cache.listed c) hc
    · intro hv
      cases hv

/-- The process gets the block with the contents that the disk has for it. -/
theorem bread (hJ : J s.disk) (hcard : D.card < nbuf)
    (hnew : ∀ b ∈ D, (s.buf b).dev = rootdev → (s.buf b).blockno ≠ blk) :
    alone (fun t => J t.disk) (bread p rootdev blk) (fun b t => b ∉ D ∧ Solo p (insert b D) t ∧
      SameOn D s t ∧ t.Holds b blk ∧ t.bytes b = s.disk blk) s := by
  refine alone_seq (h.bget hJ hcard hnew) fun b t ht => ?_
  have hJt : J t.disk := by rw [ht.same.disk]; exact hJ
  have hmem : b ∈ insert b D := Finset.mem_insert_self b D
  refine alone_seq (alone_read (Q := fun v u => (t.buf b).valid = v ∧ t = u) hJt ⟨rfl, rfl⟩) ?_
  rintro _ _ ⟨rfl, rfl⟩
  cases hv : (t.buf b).valid with
  | true =>
    refine alone_seq (alone_pure (Q := fun _ u => t = u) hJt rfl) ?_
    rintro _ _ rfl
    exact alone_pure hJt ⟨ht.fresh, ht.solo, ht.same, ⟨hv, ht.dev, ht.blockno⟩, ht.loaded hv⟩
  | false =>
    -- the buffer is read from the disk and then valid
    have hread : Solo p (insert b D) (t.diskRead b) := diskRead_eq t b ▸ ht.solo.setBytes hmem _
    have hval := hread.setBuf (f := fun x => { x with valid := true }) hmem rfl rfl rfl rfl rfl
    have hsame : SameOn D t (t.diskRead b) := diskRead_eq t b ▸ .setBytes ht.solo.cache ht.fresh
    have hbytes : (t.diskRead b).bytes b = s.disk blk := by
      rw [diskRead_eq, bytes_setBytes_self, ht.blockno, ht.same.disk]
    refine alone_seq (M := fun _ u => u = (t.diskRead b).setBuf b fun x => { x with valid := true })
      (alone_seq (alone_update (Q := fun _ u => u = t.diskRead b) hJt hJt rfl) ?_) ?_
    · rintro _ _ rfl
      exact alone_update hJt hJt rfl
    · rintro _ _ rfl
      refine alone_pure hJt ⟨ht.fresh, hval, (ht.same.trans hsame).trans (.setBuf ht.fresh rfl),
        ⟨by simp, ?_, ?_⟩, ?_⟩
      · rw [setBuf_self]
        exact ht.dev
      · rw [setBuf_self]
        exact ht.blockno
      · rw [bytes_setBuf rfl]
        exact hbytes

/-- A buffer goes back to the cache with the contents that the disk has. -/
theorem drop (hb : b ∈ D)
    (hagree : (s.buf b).valid = true → (s.buf b).dev = rootdev → s.bytes b = s.disk (s.buf b).blockno) :
    Solo p (D.erase b) ((s.setLock ⟨false, 0⟩ (.buf b)).brelse b) ∧
      SameOn (D.erase b) s ((s.setLock ⟨false, 0⟩ (.buf b)).brelse b) := by
  have hcache : ((s.setLock ⟨false, 0⟩ (.buf b)).brelse b).CacheOk :=
    (h.cache.setBuf_same (f := fun x => { x with lock := ⟨false, 0⟩ }) rfl rfl rfl).brelse b
  obtain ⟨l, hl⟩ := brelse_eq (s.setLock ⟨false, 0⟩ (.buf b)) b
  rw [hl] at hcache ⊢
  rw [Kernel.setLock, setBuf_setBuf] at hcache ⊢
  -- one change of the buffer, beside the new order of the list
  generalize hf : (fun x : Buf => { x with refcnt := x.refcnt - 1 }) ∘ (fun x : Buf =>
    { x with lock := ⟨false, 0⟩ }) = f at hcache ⊢
  have hdata : (f (s.buf b)).data = (s.buf b).data := by rw [← hf]; rfl
  have hsame : SameOn (D.erase b) s (s.setBuf b f) := .setBuf (by simp) hdata
  refine ⟨⟨hcache, fun c => ?_, fun c hc => ?_, fun c hc => ?_, fun c hc => ?_⟩,
    ⟨rfl, rfl, rfl, rfl, rfl, hsame.buf, hsame.bytes⟩⟩
  · by_cases e : c = b
    · subst e
      simp [← hf, h.refs c, hb]
    · simp [setBuf_of_ne e, h.refs c, e]
  · by_cases e : c = b
    · subst e
      simp [← hf]
    · simp only [setBuf_of_ne e]
      exact h.free c fun hm => hc (Finset.mem_erase.mpr ⟨e, hm⟩)
  · obtain ⟨e, hm⟩ := Finset.mem_erase.mp hc
    have := h.mine c hm
    simpa [Kernel.holdingsleep, Kernel.lock, Kernel.setBuf, e] using this
  · change _ → _ → (s.setBuf b f).bytes c = s.disk _
    rw [bytes_setBuf hdata]
    by_cases e : c = b
    · subst e
      simpa [← hf] using hagree
    · simp only [setBuf_of_ne e]
      exact h.agree c fun hm => hc (Finset.mem_erase.mpr ⟨e, hm⟩)

theorem brelse (hJ : J s.disk) (hb : b ∈ D)
    (hagree : (s.buf b).valid = true → (s.buf b).dev = rootdev → s.bytes b = s.disk (s.buf b).blockno) :
    alone (fun t => J t.disk) (brelse p b)
      (fun _ t => Solo p (D.erase b) t ∧ SameOn (D.erase b) s t) s := by
  have hd := h.drop hb hagree
  have hJt : J ((s.setLock ⟨false, 0⟩ (.buf b)).brelse b).disk := by
    rw [hd.2.disk]
    exact hJ
  refine alone_seq (alone_check (Q := fun _ t => s = t) hJ (h.mine b hb) rfl) ?_
  rintro _ _ rfl
  refine alone_seq (alone_update (Q := fun _ t => t = s.setLock ⟨false, 0⟩ (.buf b)) hJ hJ rfl) ?_
  rintro _ _ rfl
  exact alone_update hJ hJt hd

/-- A store to a buffer in hand. -/
theorem setBufBytes (hJ : J s.disk) (hb : b ∈ D) (f : Block → Block) :
    alone (fun t => J t.disk) (setBufBytes b f)
      (fun _ t => t = s.setBytes b f ∧ Solo p D t ∧ SameOn (D.erase b) s t) s :=
  alone_update hJ hJ ⟨rfl, h.setBytes hb f, .setBytes h.cache (by simp)⟩

theorem bwrite (hJ : J s.disk) (hb : b ∈ D)
    (hdev : (s.buf b).dev = rootdev) (hJ' : J (update s.disk (s.buf b).blockno (s.bytes b))) :
    alone (fun t => J t.disk) (bwrite p b) (fun _ t => t = s.diskWrite b ∧ Solo p D t) s := by
  refine alone_seq (alone_check (Q := fun _ t => s = t) hJ (h.mine b hb) rfl) ?_
  rintro _ _ rfl
  exact alone_update hJ hJ' ⟨rfl, h.diskWrite hb hdev⟩
end

end Solo
end Txv6
