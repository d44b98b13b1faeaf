import Txv6.Crash.Shares

/-! # The steps keep the accounts -/
namespace Txv6
open Lib Function Finset
open Lib.Prog hiding update

variable {b : BufPtr} {ph₀ : CommitPhase} {y : Nat}

variable {P : List Nat} {C : Nat → Block} {s t : Kernel} {g : ProcPtr → Share} {p : ProcPtr} {a : Share}
  {h : Hist} {o : Option (ProcPtr × CommitPhase)}

/-! ## Buffers that keep their places -/

/-- The buffers are as they were, apart from reference counts. -/
def SameBufs (s t : Kernel) : Prop :=
  ∀ c, (t.buf c).valid = (s.buf c).valid ∧ (t.buf c).dev = (s.buf c).dev ∧
    (t.buf c).blockno = (s.buf c).blockno ∧ t.bytes c = s.bytes c

theorem SameBufs.holds (hb : SameBufs s t) {c : BufPtr} {x : Nat} : t.Holds c x ↔ s.Holds c x := by
  obtain ⟨h1, h2, h3, _⟩ := hb c
  constructor
  · intro hx
    exact ⟨h1 ▸ hx.valid, h2 ▸ hx.dev, h3 ▸ hx.blockno⟩
  · intro hx
    exact ⟨h1.trans hx.valid, h2.trans hx.dev, h3.trans hx.blockno⟩

theorem SameBufs.setBuf {f : Buf → Buf} (hvalid : (f (s.buf b)).valid = (s.buf b).valid)
    (hdev : (f (s.buf b)).dev = (s.buf b).dev) (hblk : (f (s.buf b)).blockno = (s.buf b).blockno)
    (hdata : (f (s.buf b)).data = (s.buf b).data) : SameBufs s (s.setBuf b f) := by
  intro c
  rw [bytes_setBuf hdata]
  by_cases e : c = b
  · subst e; rw [setBuf_self]; exact ⟨hvalid, hdev, hblk, rfl⟩
  · rw [setBuf_of_ne e]; exact ⟨rfl, rfl, rfl, rfl⟩

/-! ## Steps on the cache -/

/-- What no step on the cache changes. -/
structure CacheSame (s t : Kernel) (a a' : Share) : Prop where
  log : t.log = s.log
  disk : t.disk = s.disk
  sb : t.sb = s.sb
  proc : t.proc = s.proc
  tx : t.tx = s.tx
  dirty : a'.dirty = a.dirty
  counted : a'.counted = a.counted
  phase : a'.phase = a.phase

theorem CacheAct.same {x y : Kernel × Share} (hact : CacheAct p x y) : CacheSame x.1 y.1 x.2 y.2 := by
  cases hact with
  | skip => exact ⟨rfl, rfl, rfl, rfl, rfl, rfl, rfl, rfl⟩
  | @get s a blk b t _ hget =>
    have hres := bget_result s rootdev blk
    rw [hget] at hres
    cases hres <;> exact ⟨rfl, rfl, rfl, rfl, rfl, rfl, rfl, rfl⟩
  | lock _ _ => exact ⟨rfl, rfl, rfl, rfl, rfl, rfl, rfl, rfl⟩
  | unlock _ _ _ => exact ⟨rfl, rfl, rfl, rfl, rfl, rfl, rfl, rfl⟩
  | @put s a b _ =>
    obtain ⟨l, hl⟩ := brelse_eq s b
    dsimp only
    rw [hl]
    exact ⟨rfl, rfl, rfl, rfl, rfl, rfl, rfl, rfl⟩
  | load _ _ => exact ⟨rfl, rfl, rfl, rfl, rfl, rfl, rfl, rfl⟩
  | validate _ _ _ => exact ⟨rfl, rfl, rfl, rfl, rfl, rfl, rfl, rfl⟩

theorem LogState.frame {ph : Option CommitPhase} (hst : LogState s h ph) (hlog : t.log = s.log)
    (hdisk : t.disk = s.disk) (hsb : t.sb = s.sb) : LogState t h ph := by
  cases hst with
  | idle h1 h2 h3 h4 => exact .idle (by rwa [hlog]) h2 h3 (by rwa [hdisk, hsb])
  | logging h1 h2 h3 h4 h5 h6 h7 h8 h9 =>
    exact .logging (by rwa [hlog]) (by rwa [hlog]) h3 h4 h5 h6 (by rwa [hdisk, hsb]) (by rwa [hlog])
      (by rwa [hlog, hdisk, hsb])
  | installing h1 h2 h3 h4 h5 h6 h7 =>
    exact .installing (by rwa [hlog]) (by rwa [hlog]) h3 h4 h5 (by rwa [hlog, hdisk, hsb])
      (by rwa [hlog, hdisk])
  | installed h1 h2 h3 h4 h5 h6 h7 h8 =>
    exact .installed (by rwa [hlog]) (by rwa [hlog]) h3 h4 h5 (by rwa [hlog]) (by rwa [hdisk, hsb])
      (by rwa [hdisk])
  | cleared h1 h2 h3 h4 h5 h6 h7 =>
    exact .cleared (by rwa [hlog]) (by rwa [hlog]) h3 h4 h5 (by rwa [hlog]) (by rwa [hdisk, hsb])

/-- What the change of one account keeps. -/
theorem update_field {β : Type} (f : Share → β) (hf : f a = f (g p)) (q : ProcPtr) : f (update g p a q) = f (g q) := by
  rw [apply_update fun _ => f, hf, update_eq_self]

theorem OpTot.frame (ho : OpTot s h g) (hlog : t.log = s.log) (hsb : t.sb = s.sb)
    (hproc : t.proc = s.proc) (htx : t.tx = s.tx) (hcounted : a.counted = (g p).counted) :
    OpTot t h (update g p a) := by
  have hcnt := update_field (·.counted) hcounted
  refine ⟨?_, fun q hq => ?_, fun q => ?_, ?_, ?_, ?_⟩
  · simp only [hcnt, hlog]
    exact ho.outstanding
  · rw [hcnt]
    exact ho.inside q hq
  · have := ho.inactive q
    unfold Kernel.txActive at this ⊢
    rwa [hproc, htx]
  · rw [hlog]; exact ho.length
  · rw [hlog]; exact ho.nodup
  · rw [hlog, hsb]; exact ho.homes

/-- Contents survive where no block comes into a buffer. -/
theorem ContentTot.frame (hc : ContentTot P C s g) (hs : CacheSame s t (g p) a)
    (hold : ∀ b x, t.Holds b x → s.Holds b x ∧ t.bytes b = s.bytes b)
    (hpin : ∀ x ∈ P, ∀ b, s.Holds b x → t.Holds b x)
    (hkeep : ∀ q, ∀ b ∈ (g q).dirty, (t.buf b).valid = (s.buf b).valid ∧
      (t.buf b).blockno = (s.buf b).blockno)
    (hheld : ∀ b ∈ (g p).dirty, b ∈ a.held) : ContentTot P C t (update g p a) := by
  have hdirty := update_field (·.dirty) hs.dirty
  refine ⟨fun x hx => ?_, fun b x hb hx => ?_, fun x hx => ?_, fun b x hb hx hd => ?_, fun q b hb => ?_,
    fun q b hb => ?_⟩
  · obtain ⟨b, hb⟩ := hc.pinned x hx
    exact ⟨b, hpin x hx b hb⟩
  · obtain ⟨hb', hbytes⟩ := hold b x hb
    rw [hbytes]
    exact hc.cached b x hb' (hs.sb ▸ hx)
  · rw [hs.sb] at hx
    rcases hc.stored x hx with h1 | h1 | ⟨q, b, hb, he⟩
    · exact .inl (by rwa [hs.disk])
    · exact .inr (.inl h1)
    · exact .inr (.inr ⟨q, b, by rwa [hdirty], by rw [(hkeep q b hb).2, he]⟩)
  · obtain ⟨hb', hbytes⟩ := hold b x hb
    rw [hbytes, hs.disk]
    exact hc.copies b x hb' (hs.sb ▸ hx) fun q hq => hd q (by rwa [hdirty])
  · rw [hdirty] at hb
    obtain ⟨hh, hv⟩ := hc.dirty q b hb
    refine ⟨?_, by rw [(hkeep q b hb).1, hv]⟩
    by_cases e : q = p
    · subst e; rw [update_self]; exact hheld b hb
    · rw [update_of_ne e]; exact hh
  · rw [hdirty] at hb
    have hk := hc.kind q b hb
    rw [hs.sb, (hkeep q b hb).2]
    by_cases e : q = p
    · subst e; rw [update_self, hs.counted, hs.phase]; exact hk
    · rw [update_of_ne e]; exact hk

/-- A step that changes neither references nor locks. -/
theorem CacheTot.congr (hh : CacheTot P s g) (hcache : t.CacheOk)
    (hbuf : ∀ b, (t.buf b).refcnt = (s.buf b).refcnt ∧ (t.buf b).lock = (s.buf b).lock ∧
      (t.buf b).dev = (s.buf b).dev ∧ (t.buf b).blockno = (s.buf b).blockno) : CacheTot P t g where
  cache := hcache
  refs b := by
    obtain ⟨h1, h2, h3, h4⟩ := hbuf b
    unfold pin
    rw [h1, h3, h4]
    exact hh.refs b
  locked q b hb := by
    rw [(hbuf b).2.1]
    exact hh.locked q b hb
  own := hh.own
  dev q b hb := by
    rw [(hbuf b).2.2.1]
    exact hh.dev q b hb
  slots := hh.slots

theorem CacheTot.act (hh : CacheTot P s g) (hpinned : ∀ x ∈ P, ∃ b, s.Holds b x) (hp : p < nproc)
    (hact : CacheAct p (s, g p) (t, a)) : CacheTot P t (update g p a) := by
  cases hact with
  | skip => rwa [update_eq_self]
  | @get _ _ blk b _ href hget =>
    have hres := bget_result s rootdev blk
    rw [hget] at hres
    have huses : ∀ c, c ≠ b → Share.uses { g p with ref := some b } c = (g p).uses c := by
      intro c hne
      simp [Share.uses, href, hne.symm]
    have hplus : Share.uses { g p with ref := some b } b = (g p).uses b + 1 := by
      simp [Share.uses, href]
    cases hres with
    | found _ hd hk =>
      refine hh.setBuf hp (hh.cache.setBuf_same rfl rfl rfl) (fun c hne => ⟨huses c hne, rfl⟩) ?_
        (fun c hc => .inl hc) (hh.locked p b) (fun q _ hc => hh.locked q b hc) fun _ _ => hd
      rw [hplus]
      change (s.buf b).refcnt + 1 - pin P (s.buf b) = _
      ring
    | recycled hno _ hr =>
      obtain ⟨hnone, hpin⟩ := hh.unused hr
      have hfree : pin P { s.buf b with dev := rootdev, blockno := blk, valid := false, refcnt := 1 } = 0 := by
        refine if_neg fun hP => ?_
        obtain ⟨c, hc⟩ := hpinned blk hP.2
        exact hno c (hh.cache.listed c) hc.dev hc.blockno
      refine hh.setBuf hp ?_ (fun c hne => ⟨huses c hne, rfl⟩) ?_ (fun c hc => .inl hc)
        (fun hc => absurd hc (hh.not_held hr)) (fun q _ hc => absurd hc (hh.not_held hr)) fun _ _ => rfl
      · exact hh.cache.setBuf rfl fun c _ _ hc e => hno c (hh.cache.listed c) hc e.symm
      · rw [hfree, hplus, hpin, hnone p, hr]
        rfl
  | @lock _ _ b href hfree =>
    have hnot : b ∉ (g p).held := by
      intro hb
      have := hh.locked p b hb
      rw [hfree] at this
      cases this
    have huses : ∀ c, Share.uses { g p with held := insert b (g p).held, ref := none } c = (g p).uses c := by
      intro c
      by_cases e : c = b
      · simp [Share.uses, href, e, hnot]
      · simp [Share.uses, href, e, Ne.symm e]
    rw [setLock_eq]
    refine hh.setBuf hp (hh.cache.setBuf_same rfl rfl rfl) (fun c _ => ⟨huses c, rfl⟩) ?_ (fun c hc => ?_)
      (fun _ => rfl) (fun _ _ _ => rfl) fun q hq => ?_
    · rw [huses]
      change (s.buf b).refcnt - pin P (s.buf b) = _
      ring
    · rcases mem_insert.mp hc with e | hc
      · exact .inr ⟨e, hfree⟩
      · exact .inl hc
    · rcases hq with hq | ⟨_, hq⟩
      · exact hh.dev q b hq
      · exact hh.dev p b (huses b ▸ hq)
  | @unlock _ _ b href hb hd =>
    have huses : ∀ c, Share.uses { g p with held := (g p).held.erase b, ref := some b } c =
        (g p).uses c := by
      intro c
      by_cases e : c = b
      · simp [Share.uses, href, e, hb]
      · simp [Share.uses, href, e, Ne.symm e]
    rw [setLock_eq]
    refine hh.setBuf hp (hh.cache.setBuf_same rfl rfl rfl) (fun c _ => ⟨huses c, rfl⟩) ?_
      (fun c hc => .inl (mem_of_mem_erase hc)) (fun hc => absurd hc (notMem_erase b _))
      (fun q hne hq => absurd (hh.own q p b hq hb) hne) fun q hq => ?_
    · rw [huses]
      change (s.buf b).refcnt - pin P (s.buf b) = _
      ring
    · rcases hq with hq | ⟨_, hq⟩
      · exact hh.dev q b hq
      · exact hh.dev p b (huses b ▸ hq)
  | @put _ _ b href =>
    have hother : ∀ c, c ≠ b → Share.uses { g p with ref := none } c = (g p).uses c := by
      intro c hne
      simp [Share.uses, href, hne.symm]
    have hminus : Share.uses { g p with ref := none } b = (g p).uses b - 1 := by
      simp [Share.uses, href]
    have hset := hh.setBuf (f := fun x => { x with refcnt := x.refcnt - 1 })
      (a := { g p with ref := none }) hp (hh.cache.setBuf_same rfl rfl rfl)
      (fun c hne => ⟨hother c hne, rfl⟩) (by
        rw [hminus]
        change (s.buf b).refcnt - 1 - pin P (s.buf b) = _
        ring) (fun c hc => .inl hc) (hh.locked p b) (fun q _ hc => hh.locked q b hc) fun _ _ =>
          hh.dev p b (Share.uses_pos_of_ref href)
    have hcache := hh.cache.brelse b
    obtain ⟨l, hl⟩ := brelse_eq s b
    rw [hl] at hcache ⊢
    exact hset.congr hcache fun _ => ⟨rfl, rfl, rfl, rfl⟩
  | @load _ _ b hb hv =>
    rw [update_eq_self]
    exact hh.congr (hh.cache.setBytes b fun _ => s.disk (s.buf b).blockno) fun _ => ⟨rfl, rfl, rfl, rfl⟩
  | @validate _ _ b hb hv hbytes =>
    rw [update_eq_self]
    refine hh.congr (hh.cache.setBuf_same rfl rfl rfl) fun c => ?_
    by_cases e : c = b
    · subst e; rw [setBuf_self]; exact ⟨rfl, rfl, rfl, rfl⟩
    · rw [setBuf_of_ne e]; exact ⟨rfl, rfl, rfl, rfl⟩

/-- Contents survive where the buffers keep their places and their bytes. -/
theorem ContentTot.same (hc : ContentTot P C s g) (hs : CacheSame s t (g p) a) (hbuf : SameBufs s t)
    (hheld : ∀ b ∈ (g p).dirty, b ∈ a.held) : ContentTot P C t (update g p a) :=
  hc.frame hs (fun b _ hb => ⟨hbuf.holds.mp hb, (hbuf b).2.2.2⟩) (fun _ _ _ hb => hbuf.holds.mpr hb)
    (fun _ b _ => ⟨(hbuf b).1, (hbuf b).2.2.1⟩) hheld

/-- A block that is not in the cache is on the disk. -/
theorem ContentTot.on_disk (hc : ContentTot P C s g) (hh : CacheTot P s g)
    (hdev : (s.buf b).dev = rootdev) (hv : (s.buf b).valid = false)
    (hhome : s.sb.log.Home (s.buf b).blockno) : s.disk (s.buf b).blockno = C (s.buf b).blockno := by
  rcases hc.stored _ hhome with hd | hP | ⟨q, c, hq, hk⟩
  · exact hd
  · obtain ⟨c, hc'⟩ := hc.pinned _ hP
    rw [hh.cache.unique b c hdev hc'.dev hc'.blockno.symm, hc'.valid] at hv
    cases hv
  · obtain ⟨hm, hvalid⟩ := hc.dirty q c hq
    have hcdev := hh.dev q c (Share.uses_pos_of_held hm)
    rw [hh.cache.unique b c hdev hcdev hk.symm, hvalid] at hv
    cases hv

theorem ContentTot.act (hc : ContentTot P C s g) (hh : CacheTot P s g)
    (hact : CacheAct p (s, g p) (t, a)) : ContentTot P C t (update g p a) := by
  have hs := hact.same
  have hmem : ∀ b ∈ (g p).dirty, b ∈ (g p).held := fun b hb => (hc.dirty p b hb).1
  cases hact with
  | skip => rwa [update_eq_self]
  | @get _ _ blk b _ href hget =>
    have hres := bget_result s rootdev blk
    rw [hget] at hres
    cases hres with
    | found _ hd hk => exact hc.same hs (.setBuf rfl rfl rfl rfl) hmem
    | recycled hno _ hr =>
      obtain ⟨hnone, hpin⟩ := hh.unused hr
      refine hc.frame hs (fun c x hx => ?_) (fun x hx c hcx => ?_) (fun q c hq => ?_) hmem
      · have hne : c ≠ b := by
          rintro rfl
          have := hx.valid
          rw [setBuf_self] at this
          cases this
        rw [bytes_setBuf rfl]
        exact ⟨hx.congr (setBuf_of_ne hne).symm, rfl⟩
      · have hne : c ≠ b := by
          rintro rfl
          rw [pin, if_pos ⟨hcx.dev, hcx.blockno ▸ hx⟩] at hpin
          cases hpin
        exact hcx.congr (setBuf_of_ne hne)
      · have hne : c ≠ b := by
          rintro rfl
          exact hh.not_held hr (hc.dirty q c hq).1
        rw [setBuf_of_ne hne]
        exact ⟨rfl, rfl⟩
  | @lock _ _ b href hfree =>
    rw [setLock_eq] at hs ⊢
    exact hc.same hs (.setBuf rfl rfl rfl rfl) fun c hcd => mem_insert_of_mem (hmem c hcd)
  | @unlock _ _ b href hb hd =>
    rw [setLock_eq] at hs ⊢
    refine hc.same hs (.setBuf rfl rfl rfl rfl) fun c hcd => mem_erase.mpr ⟨?_, hmem c hcd⟩
    rintro rfl
    exact hd hcd
  | @put _ _ b href =>
    exact hc.same hs (brelse_same s b) hmem
  | @load _ _ b hb hv =>
    refine hc.frame hs (fun c x hx => ⟨hx.congr rfl, ?_⟩) (fun x _ c hcx => hcx.congr rfl)
      (fun q c _ => ⟨rfl, rfl⟩) hmem
    have hne : c ≠ b := by
      rintro rfl
      have := hx.valid
      rw [show (s.diskRead c).buf c = s.buf c from rfl, hv] at this
      cases this
    rw [diskRead_eq]
    exact bytes_setBytes_of_ne hh.cache hne
  | @validate _ _ b hb hv hbytes =>
    rw [update_eq_self]
    have hdev := hh.dev p b (Share.uses_pos_of_held hb)
    -- the only block that comes into a buffer is the one of `b`
    have hold : ∀ c x, (s.setBuf b fun y => { y with valid := true }).Holds c x →
        s.Holds c x ∨ c = b ∧ x = (s.buf b).blockno := by
      intro c x hx
      by_cases e : c = b
      · subst e
        have := hx.blockno
        rw [setBuf_self] at this
        exact .inr ⟨rfl, this.symm⟩
      · exact .inl (hx.congr (setBuf_of_ne e).symm)
    have hkeep : ∀ c, (s.buf c).valid = true →
        (s.setBuf b fun y => { y with valid := true }).buf c = s.buf c := by
      intro c hcv
      refine setBuf_of_ne ?_
      rintro rfl
      rw [hv] at hcv
      cases hcv
    refine ⟨fun x hx => ?_, fun c x hx hhome => ?_, fun x hx => ?_, fun c x hx hhome hd => ?_,
      fun q c hq => ?_, fun q c hq => ?_⟩
    · obtain ⟨c, hcx⟩ := hc.pinned x hx
      exact ⟨c, hcx.congr (hkeep c hcx.valid)⟩
    · rw [bytes_setBuf rfl]
      rcases hold c x hx with hx | ⟨rfl, rfl⟩
      · exact hc.cached c x hx hhome
      · rw [hbytes]
        exact hc.on_disk hh hdev hv hhome
    · rcases hc.stored x hx with h1 | h1 | ⟨q, c, hq, hk⟩
      · exact .inl h1
      · exact .inr (.inl h1)
      · exact .inr (.inr ⟨q, c, hq, by rw [hkeep c (hc.dirty q c hq).2, hk]⟩)
    · rw [bytes_setBuf rfl]
      rcases hold c x hx with hx | ⟨rfl, rfl⟩
      · exact hc.copies c x hx hhome hd
      · exact hbytes
    · rw [hkeep c (hc.dirty q c hq).2]
      exact hc.dirty q c hq
    · rw [hkeep c (hc.dirty q c hq).2]
      exact hc.kind q c hq

/-! ## Changes of one account -/

/-- A process that keeps its buffers may change the rest of its account. -/
theorem CacheTot.account (hh : CacheTot P s g) (hp : p < nproc) (hheld : a.held = (g p).held)
    (href : a.ref = (g p).ref) : CacheTot P s (update g p a) := by
  have key := update_field (·.held) hheld
  have key' : ∀ q c, (update g p a q).uses c = (g q).uses c := by
    intro q c
    refine update_field (·.uses c) ?_ q
    simp only [Share.uses, hheld, href]
  refine ⟨hh.cache, fun b => ?_, fun q b hb => ?_, fun q r b hq hr => ?_, fun q b hb => ?_, fun q hq => ?_⟩
  · simp only [key']
    exact hh.refs b
  · exact hh.locked q b (key q ▸ hb)
  · exact hh.own q r b (key q ▸ hq) (key r ▸ hr)
  · exact hh.dev q b (key' q b ▸ hb)
  · rw [update_of_ne (Nat.ne_of_gt (Nat.lt_of_lt_of_le hp hq))]
    exact hh.slots q hq

/-- A process gives up the buffers that are logged or written. -/
theorem ContentTot.account {P' : List Nat} (hc : ContentTot P C s g) (hbuf : SameBufs s t)
    (hdisk : t.disk = s.disk) (hsb : t.sb = s.sb) (hpinned : ∀ x ∈ P', ∃ b, s.Holds b x)
    (hP : ∀ x ∈ P, x ∈ P' ∨ s.disk x = C x) (hsub : a.dirty ⊆ (g p).dirty)
    (hgone : ∀ b ∈ (g p).dirty, b ∉ a.dirty → (s.buf b).blockno ∈ P' ∧ s.sb.log.Home (s.buf b).blockno)
    (hheld : ∀ b ∈ a.dirty, b ∈ a.held)
    (hkind : ∀ b ∈ a.dirty, s.sb.log.Home (s.buf b).blockno ∧ a.counted = true ∨
      ¬ s.sb.log.Home (s.buf b).blockno ∧ a.phase ≠ none) :
    ContentTot P' C t (update g p a) := by
  refine ⟨fun x hx => ?_, fun b x hb hx => ?_, fun x hx => ?_, fun b x hb hx hd => ?_, fun q b hb => ?_,
    fun q b hb => ?_⟩
  · obtain ⟨b, hb⟩ := hpinned x hx
    exact ⟨b, hbuf.holds.mpr hb⟩
  · rw [(hbuf b).2.2.2]
    exact hc.cached b x (hbuf.holds.mp hb) (hsb ▸ hx)
  · rw [hsb] at hx
    rw [hdisk]
    rcases hc.stored x hx with h1 | h1 | ⟨q, b, hb, he⟩
    · exact .inl h1
    · rcases hP x h1 with h2 | h2
      · exact .inr (.inl h2)
      · exact .inl h2
    · by_cases e : q = p
      · subst e
        by_cases hba : b ∈ a.dirty
        · refine .inr (.inr ⟨q, b, ?_, (hbuf b).2.2.1.trans he⟩)
          rwa [update_self]
        · exact .inr (.inl (he ▸ (hgone b hb hba).1))
      · refine .inr (.inr ⟨q, b, ?_, (hbuf b).2.2.1.trans he⟩)
        rwa [update_of_ne e]
  · rw [(hbuf b).2.2.2, hdisk]
    have hb' := hbuf.holds.mp hb
    refine hc.copies b x hb' (hsb ▸ hx) fun q hq => ?_
    by_cases e : q = p
    · subst e
      have hba : b ∉ a.dirty := by
        have := hd q
        rwa [update_self] at this
      have := (hgone b hq hba).2
      rw [hb'.blockno] at this
      rw [hsb] at hx
      exact hx this
    · have := hd q
      rw [update_of_ne e] at this
      exact this hq
  · by_cases e : q = p
    · subst e
      rw [update_self] at hb ⊢
      exact ⟨hheld b hb, (hbuf b).1.trans (hc.dirty q b (hsub hb)).2⟩
    · rw [update_of_ne e] at hb ⊢
      exact ⟨(hc.dirty q b hb).1, (hbuf b).1.trans (hc.dirty q b hb).2⟩
  · rw [(hbuf b).2.2.1, hsb]
    by_cases e : q = p
    · subst e
      rw [update_self] at hb ⊢
      exact hkind b hb
    · rw [update_of_ne e] at hb ⊢
      exact hc.kind q b hb

/-- A buffer of a process goes to the disk. -/
theorem ContentTot.diskWrite (hc : ContentTot P C s g) (hcache : s.CacheOk)
    (hb : s.Holds b y) (hsub : a.dirty ⊆ (g p).dirty) (hgone : ∀ c ∈ (g p).dirty, c ∉ a.dirty → c = b)
    (hheld : a.held = (g p).held) (hcounted : a.counted = (g p).counted)
    (hphase : (g p).phase ≠ none → a.phase ≠ none) :
    ContentTot P C (s.diskWrite b) (update g p a) := by
  have hdisk : ∀ x, x ≠ y → (s.diskWrite b).disk x = s.disk x := by
    intro x hx
    change update s.disk (s.buf b).blockno _ x = _
    rw [hb.blockno, update_of_ne hx]
  have hself : (s.diskWrite b).disk y = s.bytes b := by
    change update s.disk (s.buf b).blockno (s.bytes b) y = _
    rw [hb.blockno, update_self]
  refine ⟨fun x hx => ?_, fun c x hx hhome => ?_, fun x hx => ?_, fun c x hx hhome hd => ?_,
    fun q c hq => ?_, fun q c hq => ?_⟩
  · obtain ⟨c, hcx⟩ := hc.pinned x hx
    exact ⟨c, hcx.congr rfl⟩
  · exact hc.cached c x (hx.congr rfl) hhome
  · by_cases e : x = y
    · subst e
      rw [hself]
      exact .inl (hc.cached b x hb hx)
    · rw [hdisk x e]
      rcases hc.stored x hx with h1 | h1 | ⟨q, c, hq, hk⟩
      · exact .inl h1
      · exact .inr (.inl h1)
      · refine .inr (.inr ⟨q, c, ?_, hk⟩)
        by_cases eq : q = p
        · subst eq
          rw [update_self]
          by_contra hca
          have := hgone c hq hca
          rw [this, hb.blockno] at hk
          exact e hk.symm
        · rwa [update_of_ne eq]
  · have hx : s.Holds c x := hx.congr rfl
    by_cases e : x = y
    · subst e
      have ec : c = b := hcache.unique c b hx.dev hb.dev (hx.blockno.trans hb.blockno.symm)
      rw [hself, ec]
      rfl
    · rw [hdisk x e]
      refine hc.copies c x hx hhome fun q hq => ?_
      by_cases eq : q = p
      · subst eq
        have hca : c ∉ a.dirty := by
          have := hd q
          rwa [update_self] at this
        have ec := hgone c hq hca
        rw [ec] at hx
        exact e (hx.blockno.symm.trans hb.blockno)
      · have := hd q
        rw [update_of_ne eq] at this
        exact this hq
  · by_cases eq : q = p
    · subst eq
      rw [update_self] at hq ⊢
      rw [hheld]
      exact hc.dirty q c (hsub hq)
    · rw [update_of_ne eq] at hq ⊢
      exact hc.dirty q c hq
  · by_cases eq : q = p
    · subst eq
      rw [update_self] at hq ⊢
      rw [hcounted]
      rcases hc.kind q c (hsub hq) with h1 | ⟨h1, h2⟩
      · exact .inl h1
      · exact .inr ⟨h1, hphase h2⟩
    · rw [update_of_ne eq] at hq ⊢
      exact hc.kind q c hq

/-- A process stores to a buffer that it holds; `C'` is what is meant from then on. -/
theorem ContentTot.setBytes {C' : Nat → Block} {f : Block → Block}
    (hc : ContentTot P C s g) (hcache : s.CacheOk) (hb : s.Holds b y) (hmem : b ∈ (g p).held)
    (hC : ∀ x, x ≠ y → C' x = C x) (hCy : s.sb.log.Home y → C' y = f (C y))
    (hkind : s.sb.log.Home y ∧ (g p).counted = true ∨ ¬ s.sb.log.Home y ∧ (g p).phase ≠ none) :
    ContentTot P C' (s.setBytes b f)
      (update g p { g p with dirty := insert b (g p).dirty }) := by
  have hdirty : ∀ q, (g q).dirty ⊆
      (update g p { g p with dirty := insert b (g p).dirty } q).dirty := by
    intro q
    by_cases e : q = p
    · subst e; rw [update_self]; exact subset_insert b _
    · rw [update_of_ne e]
  have hnew : ∀ q c, c ∈ (update g p { g p with dirty := insert b (g p).dirty } q).dirty →
      c ∈ (g q).dirty ∨ q = p ∧ c = b := by
    intro q c hq
    by_cases e : q = p
    · subst e
      rw [update_self] at hq
      rcases mem_insert.mp hq with e | hq
      · exact .inr ⟨rfl, e⟩
      · exact .inl hq
    · rw [update_of_ne e] at hq
      exact .inl hq
  -- nothing but the dirty buffers of `p` has changed in the accounts
  have hrest : ∀ q, (update g p { g p with dirty := insert b (g p).dirty } q).held = (g q).held ∧
      (update g p { g p with dirty := insert b (g p).dirty } q).counted = (g q).counted ∧
      (update g p { g p with dirty := insert b (g p).dirty } q).phase = (g q).phase := by
    intro q
    by_cases e : q = p
    · subst e; rw [update_self]; exact ⟨rfl, rfl, rfl⟩
    · rw [update_of_ne e]; exact ⟨rfl, rfl, rfl⟩
  refine ⟨fun x hx => ?_, fun c x hx hhome => ?_, fun x hx => ?_, fun c x hx hhome hd => ?_,
    fun q c hq => ?_, fun q c hq => ?_⟩
  · obtain ⟨c, hcx⟩ := hc.pinned x hx
    exact ⟨c, hcx.congr rfl⟩
  · have hs : s.Holds c x := hx.congr rfl
    by_cases e : c = b
    · subst e
      have exy : x = y := hs.blockno.symm.trans hb.blockno
      subst exy
      rw [bytes_setBytes_self, hCy hhome, hc.cached c x hs hhome]
    · rw [bytes_setBytes_of_ne hcache e, hc.cached c x hs hhome]
      refine (hC x fun exy => e ?_).symm
      exact hcache.unique c b hs.dev hb.dev (hs.blockno.trans (exy.trans hb.blockno.symm))
  · by_cases e : x = y
    · refine .inr (.inr ⟨p, b, ?_, hb.blockno.trans e.symm⟩)
      rw [update_self]
      exact mem_insert_self b _
    · rw [hC x e]
      rcases hc.stored x hx with h1 | h1 | ⟨q, c, hq, hk⟩
      · exact .inl h1
      · exact .inr (.inl h1)
      · exact .inr (.inr ⟨q, c, hdirty q hq, hk⟩)
  · have hne : c ≠ b := by
      rintro rfl
      have := hd p
      rw [update_self] at this
      exact this (mem_insert_self c _)
    rw [bytes_setBytes_of_ne hcache hne]
    exact hc.copies c x (hx.congr rfl) hhome fun q hq => hd q (hdirty q hq)
  · rw [(hrest q).1]
    rcases hnew q c hq with hq | ⟨rfl, rfl⟩
    · exact hc.dirty q c hq
    · exact ⟨hmem, hb.valid⟩
  · rw [(hrest q).2.1, (hrest q).2.2]
    rcases hnew q c hq with hq | ⟨rfl, rfl⟩
    · exact hc.kind q c hq
    · change s.sb.log.Home (s.buf c).blockno ∧ _ ∨ ¬ s.sb.log.Home (s.buf c).blockno ∧ _
      rw [hb.blockno]
      exact hkind

/-! ## Turns -/

section
variable (ht : ∀ q ph, (g q).phase = some ph ↔ o = some (q, ph))
include ht

theorem turn_keep (ha : a.phase = (g p).phase)
    (q : ProcPtr) (ph : CommitPhase) : (update g p a q).phase = some ph ↔ o = some (q, ph) := by
  by_cases e : q = p
  · subst e; rw [update_self, ha]; exact ht q ph
  · rw [update_of_ne e]; exact ht q ph

end

/-- Where an operation is in progress there is no commit. -/
theorem LogTot.idle {x : Kernel × Hist} (ht : LogTot o x g) (hp : p < nproc)
    (hc : (g p).counted = true) : o = none ∧ 0 < x.1.log.outstanding := by
  have hpos : 0 < x.1.log.outstanding := by
    rw [ht.ops.outstanding]
    have hnn : ∀ q ∈ Finset.range nproc, (0 : Int) ≤ if (g q).counted then 1 else 0 := by
      intro q _
      split <;> omega
    have := single_le_sum hnn (mem_range.mpr hp)
    rw [hc] at this
    exact lt_of_lt_of_le Int.one_pos this
  refine ⟨?_, hpos⟩
  cases o with
  | none => rfl
  | some w =>
    exfalso
    obtain ⟨q, ph⟩ := w
    have hzero : x.1.log.outstanding = 0 := by
      cases ht.state with
      | logging _ h2 => exact h2
      | installing _ h2 => exact h2
      | installed _ h2 => exact h2
      | cleared _ h2 => exact h2
    rw [hzero] at hpos
    exact absurd hpos (lt_irrefl _)

end Txv6
