import Txv6.Crash.Solo

/-! # Recovery

`recover_from_log`, run alone after a crash: it comes to an end, whatever it is cut off at can
be recovered from again, and it leaves an empty log and the home contents that were to be
restored.
-/
namespace Txv6
open Lib Function
open Lib.Prog hiding update

variable {p : ProcPtr} {s : Kernel} {J : (Nat → Block) → Prop} {t : Kernel} {l : List Nat} {H : Nat → Block}

/-- The process has taken no part in what stays the same over recovery. -/
structure SameRest (s t : Kernel) : Prop where
  sb : t.sb = s.sb
  proc : t.proc = s.proc
  tx : t.tx = s.tx
  outstanding : t.log.outstanding = s.log.outstanding
  committing : t.log.committing = s.log.committing

theorem SameOn.rest {D : Finset BufPtr} (h : SameOn D s t) : SameRest s t :=
  ⟨h.sb, h.proc, h.tx, by rw [h.log], by rw [h.log]⟩

theorem SameRest.trans {u : Kernel} (h : SameRest s t) (h' : SameRest t u) : SameRest s u :=
  ⟨h'.sb.trans h.sb, h'.proc.trans h.proc, h'.tx.trans h.tx, h'.outstanding.trans h.outstanding,
    h'.committing.trans h.committing⟩

namespace Solo
variable {D : Finset BufPtr}

/-- A buffer in hand gets new contents and goes to the disk with them. -/
structure Stored (p : ProcPtr) (D : Finset BufPtr) (s : Kernel) (b : BufPtr) (x : Block) (t : Kernel) :
    Prop where
  solo : Solo p D t
  rest : SameRest s t
  log : t.log = s.log
  disk : t.disk = Function.update s.disk (s.buf b).blockno x
  bytes : t.bytes b = x
  buf : t.buf = s.buf
  others : ∀ c ≠ b, t.bytes c = s.bytes c

theorem store {β : Type} {b : BufPtr} {f : Block → Block} {k : Unit → K β} {Q : β → Kernel → Prop}
    (h : Solo p D s) (hJ : J s.disk) (hb : b ∈ D) (hdev : (s.buf b).dev = rootdev)
    (hJ' : J (update s.disk (s.buf b).blockno (f (s.bytes b))))
    (hk : ∀ t, Stored p D s b (f (s.bytes b)) t → alone (fun t => J t.disk) (k ()) Q t) :
    alone (fun t => J t.disk) (Txv6.setBufBytes b f >>= fun _ => Txv6.bwrite p b >>= k) Q s := by
  refine alone_seq (h.setBufBytes hJ hb f) ?_
  rintro _ t ⟨rfl, ht, _⟩
  have hbytes := bytes_setBytes_self s b f
  refine alone_seq (ht.bwrite hJ hb hdev (by rw [hbytes]; exact hJ')) ?_
  rintro _ u ⟨rfl, hu⟩
  refine hk _ ⟨hu, ⟨rfl, rfl, rfl, rfl, rfl⟩, rfl, ?_, hbytes, rfl, fun c hc => ?_⟩
  · change update s.disk (s.buf b).blockno ((s.setBytes b f).bytes b) = _
    rw [hbytes]
  · exact bytes_setBytes_of_ne h.cache hc

/-- `write_head` writes the header of the log in memory. -/
theorem writeHead (h : Solo p ∅ s) (hJ : J s.disk) (hJ' : ∀ b, J (update s.disk s.sb.logstart
      (putLogheader b s.log.lh))) :
    alone (fun t => J t.disk) (writeHead p) (fun _ t => Solo p ∅ t ∧ SameRest s t ∧ t.log = s.log ∧
      ∃ b, t.disk = update s.disk s.sb.logstart (putLogheader b s.log.lh)) s := by
  refine alone_seq (alone_read (Q := fun v t => s.sb.logstart = v ∧ s = t) hJ ⟨rfl, rfl⟩) ?_
  rintro _ _ ⟨rfl, rfl⟩
  refine alone_seq (h.bread hJ (by decide) (by simp)) ?_
  rintro b t ⟨_, ht, hsame, hholds, _⟩
  have hJt : J t.disk := by rw [hsame.disk]; exact hJ
  refine alone_seq (alone_read (Q := fun v u => s.log.lh = v ∧ t = u) hJt ⟨by rw [hsame.log], rfl⟩) ?_
  rintro _ _ ⟨rfl, rfl⟩
  have hb : b ∈ insert b (∅ : Finset BufPtr) := Finset.mem_insert_self b ∅
  have hdisk : ∀ x, update t.disk (t.buf b).blockno x = update s.disk s.sb.logstart x := by
    intro x
    rw [hsame.disk, hholds.blockno]
  refine ht.store hJt hb hholds.dev (by rw [hdisk]; exact hJ' _) fun u hu => ?_
  have hud := hu.disk.trans (hdisk _)
  refine alone_mono ?_ (hu.solo.brelse (by rw [hud]; exact hJ' _) hb fun _ _ => ?_)
  · rintro _ v ⟨hv, hsame'⟩
    refine ⟨?_, hsame.rest.trans (hu.rest.trans hsame'.rest), ?_, _, hsame'.disk.trans hud⟩
    · rwa [Finset.erase_insert (Finset.notMem_empty b)] at hv
    · rw [hsame'.log, hu.log, hsame.log]
  · rw [hu.bytes, hu.disk, hu.buf, update_self]

theorem readHead (h : Solo p ∅ s) (hJ : J s.disk) :
    alone (fun t => J t.disk) (readHead p) (fun _ t => Solo p ∅ t ∧ SameRest s t ∧ t.disk = s.disk ∧
      t.log.lh = logheaderAt (s.disk s.sb.logstart)) s := by
  refine alone_seq (alone_read (Q := fun v t => s.sb.logstart = v ∧ s = t) hJ ⟨rfl, rfl⟩) ?_
  rintro _ _ ⟨rfl, rfl⟩
  refine alone_seq (h.bread hJ (by decide) (by simp)) ?_
  rintro b t ⟨_, ht, hsame, hholds, hbytes⟩
  have hJt : J t.disk := by rw [hsame.disk]; exact hJ
  have hb : b ∈ insert b (∅ : Finset BufPtr) := Finset.mem_insert_self b ∅
  have hset : Solo p (insert b ∅) { t with log := { t.log with lh := logheaderAt (t.bytes b) } } :=
    ⟨⟨ht.cache.pages, ht.cache.listed, ht.cache.unique⟩, ht.refs, ht.free, ht.mine, ht.agree⟩
  refine alone_seq (alone_update (Q := fun _ u => u =
    { t with log := { t.log with lh := logheaderAt (t.bytes b) } }) hJt hJt rfl) ?_
  rintro _ _ rfl
  refine alone_mono ?_ (hset.brelse hJt hb fun _ _ => ?_)
  · rintro _ v ⟨hv, hsame'⟩
    refine ⟨?_, hsame.rest.trans ⟨hsame'.sb, hsame'.proc, hsame'.tx, ?_, ?_⟩, ?_, ?_⟩
    · rwa [Finset.erase_insert (Finset.notMem_empty b)] at hv
    · rw [hsame'.log]
    · rw [hsame'.log]
    · rw [hsame'.disk]; exact hsame.disk
    · rw [hsame'.log, ← hbytes]
  · change t.bytes b = t.disk (t.buf b).blockno
    rw [hbytes, hholds.blockno, hsame.disk]

/-- Recovery does not unpin. -/
theorem installTransLoop_recovering (p : ProcPtr) (tail x : Nat) (rest : List Nat) :
    installTransLoop p true tail (x :: rest) = (do
      let start ← .read fun s => s.sb.logstart
      let lbuf ← Txv6.bread p rootdev (start + tail + 1)
      let dbuf ← Txv6.bread p rootdev x
      let bytes ← bufBytes lbuf
      Txv6.setBufBytes dbuf fun _ => bytes
      Txv6.bwrite p dbuf
      Txv6.brelse p lbuf
      Txv6.brelse p dbuf
      installTransLoop p true (tail + 1) rest) := by
  rw [installTransLoop]
  rfl

/-- One round of `install_trans(1)`: the home block of a logged block gets its copy. -/
theorem installRound {tail x : Nat} {k : Unit → K Unit} {Q : Unit → Kernel → Prop} (h : Solo p ∅ s)
    (hlog : s.sb.log.Logged s.disk l H) (hx : l[tail]? = some x)
    (hk : ∀ t, Solo p ∅ t → SameRest s t → t.log = s.log →
      t.disk = update s.disk x (H x) →
      alone (fun t => s.sb.log.Recoverable t.disk H) (k ()) Q t) :
    alone (fun t => s.sb.log.Recoverable t.disk H) (do
      let start ← .read fun s => s.sb.logstart
      let lbuf ← Txv6.bread p rootdev (start + tail + 1)
      let dbuf ← Txv6.bread p rootdev x
      let bytes ← bufBytes lbuf
      Txv6.setBufBytes dbuf fun _ => bytes
      Txv6.bwrite p dbuf
      Txv6.brelse p lbuf
      Txv6.brelse p dbuf
      k ()) Q s := by
  have hmem : x ∈ l := List.mem_of_getElem? hx
  have hcap : tail < logblocks := by
    have := (List.getElem?_eq_some_iff.mp hx).1
    exact Nat.lt_of_lt_of_le this hlog.length
  have hne : s.sb.logstart + tail + 1 ≠ x := ((hlog.homes x hmem).2 tail hcap).symm
  have hJ : s.sb.log.Recoverable s.disk H := ⟨l, hlog⟩
  have hJ' : s.sb.log.Recoverable (update s.disk x (H x)) H := ⟨l, hlog.install hmem⟩
  refine alone_seq (alone_read (Q := fun v t => s.sb.logstart = v ∧ s = t) hJ ⟨rfl, rfl⟩) ?_
  rintro _ _ ⟨rfl, rfl⟩
  refine alone_seq (h.bread (J := fun d => s.sb.log.Recoverable d H) hJ (by decide) (by simp)) ?_
  rintro lbuf t ⟨_, ht, hs, hl, hlb⟩
  have hJt : s.sb.log.Recoverable t.disk H := by rw [hs.disk]; exact hJ
  have hcard : (insert lbuf ∅ : Finset BufPtr).card < nbuf := by
    rw [Finset.card_insert_of_notMem (Finset.notMem_empty _)]
    decide
  have hnew : ∀ b ∈ (insert lbuf ∅ : Finset BufPtr), (t.buf b).dev = rootdev → (t.buf b).blockno ≠ x := by
    intro b hb _
    have e : b = lbuf := by simpa using hb
    rw [e, hl.blockno]
    exact hne
  refine alone_seq (ht.bread (J := fun d => s.sb.log.Recoverable d H) hJt hcard hnew) ?_
  rintro dbuf u ⟨hnew, hu, hs', hd, hdb⟩
  have hlmem : lbuf ∈ insert lbuf (∅ : Finset BufPtr) := Finset.mem_insert_self _ _
  have hJu : s.sb.log.Recoverable u.disk H := by rw [hs'.disk]; exact hJt
  have hub : u.bytes lbuf = H x := by
    rw [hs'.bytes lbuf hlmem, hlb]
    exact hlog.copies tail x hx
  refine alone_seq (alone_read (Q := fun v w => H x = v ∧ u = w) hJu ⟨hub.symm, rfl⟩) ?_
  rintro _ _ ⟨rfl, rfl⟩
  have hdisk : update u.disk (u.buf dbuf).blockno (H x) = update s.disk x (H x) := by
    rw [hs'.disk, hs.disk, hd.blockno]
  refine hu.store (J := fun d => s.sb.log.Recoverable d H) hJu (Finset.mem_insert_self _ _) hd.dev
    (by rw [hdisk]; exact hJ') fun w hw => ?_
  have hwd := hw.disk.trans hdisk
  have hwl : w.bytes lbuf = w.disk (w.buf lbuf).blockno := by
    have hlne : lbuf ≠ dbuf := ne_of_mem_of_not_mem hlmem hnew
    rw [hw.others lbuf hlne, hub, hw.buf, hs'.buf lbuf hlmem, hl.blockno, hwd,
      update_of_ne hne]
    exact (hlog.copies tail x hx).symm
  have hwb : w.bytes dbuf = w.disk (w.buf dbuf).blockno := by
    rw [hw.bytes, hw.disk, hw.buf, update_self]
  have hdmem : dbuf ∈ (insert dbuf (insert lbuf ∅) : Finset BufPtr).erase lbuf := by
    have hlne : dbuf ≠ lbuf := (ne_of_mem_of_not_mem hlmem hnew).symm
    simp [hlne]
  refine alone_seq (hw.solo.brelse (J := fun d => s.sb.log.Recoverable d H) (by rw [hwd]; exact hJ')
    (Finset.mem_insert_of_mem hlmem) fun _ _ => hwl) ?_
  rintro _ y ⟨hy, hsy⟩
  have hyd : y.disk = update s.disk x (H x) := hsy.disk.trans hwd
  refine alone_seq (hy.brelse (J := fun d => s.sb.log.Recoverable d H) (by rw [hyd]; exact hJ') hdmem
    fun _ _ => ?_) ?_
  · rw [hsy.bytes dbuf hdmem, hsy.disk, hsy.buf dbuf hdmem, hwb]
  rintro _ z ⟨hz, hsz⟩
  have hempty : ((insert dbuf (insert lbuf ∅) : Finset BufPtr).erase lbuf).erase dbuf = ∅ := by
    ext c
    simp
    tauto
  rw [hempty] at hz
  refine hk z hz (hs.rest.trans (hs'.rest.trans (hw.rest.trans (hsy.rest.trans hsz.rest)))) ?_ ?_
  · rw [hsz.log, hsy.log, hw.log, hs'.log, hs.log]
  · exact hsz.disk.trans hyd

/-- `install_trans(1)` from entry `tail` on. -/
theorem installLoop :
    ∀ (rest : List Nat) (tail : Nat) {s : Kernel}, l.drop tail = rest → Solo p ∅ s →
      s.sb.log.Logged s.disk l H → (∀ i < tail, ∀ x, l[i]? = some x → s.disk x = H x) →
      alone (fun t => s.sb.log.Recoverable t.disk H) (installTransLoop p true tail rest)
        (fun _ t => Solo p ∅ t ∧ SameRest s t ∧ s.sb.log.Logged t.disk l H ∧
          ∀ x ∈ l, t.disk x = H x) s
  | [], tail, s, hrest, h, hlog, hdone => by
    refine alone_pure ⟨l, hlog⟩ ⟨h, ⟨rfl, rfl, rfl, rfl, rfl⟩, hlog, fun x hx => ?_⟩
    obtain ⟨i, hi⟩ := List.mem_iff_getElem?.mp hx
    have hlen := List.drop_eq_nil_iff.mp hrest
    have hlt := (List.getElem?_eq_some_iff.mp hi).1
    exact hdone i (Nat.lt_of_lt_of_le hlt hlen) x hi
  | x :: rest, tail, s, hrest, h, hlog, hdone => by
    have hx : l[tail]? = some x := by
      rw [← List.head?_drop, hrest]
      rfl
    have hrest' : l.drop (tail + 1) = rest := by
      rw [← List.drop_drop, hrest]
      rfl
    rw [installTransLoop_recovering]
    refine h.installRound (k := fun _ => installTransLoop p true (tail + 1) rest) hlog hx
      fun t ht hsame _ hdisk => ?_
    have hlog' : t.sb.log.Logged t.disk l H := by
      rw [hsame.sb, hdisk]
      exact hlog.install (List.mem_of_getElem? hx)
    have hdone' : ∀ i < tail + 1, ∀ y, l[i]? = some y → t.disk y = H y := by
      intro i hi y hy
      rw [hdisk]
      by_cases e : y = x
      · rw [e, update_self]
      · rw [update_of_ne e]
        have hne : i ≠ tail := by
          intro ei
          rw [ei, hx] at hy
          exact e (Option.some.inj hy).symm
        exact hdone i (by omega) y hy
    have ih := installLoop rest (tail + 1) hrest' ht hlog' hdone'
    rw [hsame.sb] at ih
    exact alone_mono (fun _ u hu => ⟨hu.1, hsame.trans hu.2.1, hu.2.2⟩) ih

/-- **Recovery** restores the home contents that the log stands for, and can be cut off
anywhere. -/
theorem recoverFromLog (h : Solo p ∅ s) (hrec : s.sb.log.Recoverable s.disk H) :
    alone (fun t => s.sb.log.Recoverable t.disk H) (recoverFromLog p) (fun _ t => Solo p ∅ t ∧
      SameRest s t ∧ t.log.lh = [] ∧ s.sb.log.Clean t.disk H) s := by
  obtain ⟨l, hlog⟩ := hrec
  refine alone_seq (h.readHead (J := fun d => s.sb.log.Recoverable d H) ⟨l, hlog⟩) ?_
  rintro _ t ⟨ht, hsame, hdisk, hlh⟩
  have hlh : t.log.lh = l := hlh.trans hlog.named
  have hlogt : t.sb.log.Logged t.disk l H := by
    rw [hsame.sb, hdisk]
    exact hlog
  have hloop := installLoop l 0 rfl ht hlogt fun i hi => absurd hi (Nat.not_lt_zero i)
  rw [hsame.sb] at hloop hlogt
  refine alone_seq (M := fun _ u => Solo p ∅ u ∧ SameRest s u ∧ s.sb.log.Logged u.disk l H ∧
    ∀ x ∈ l, u.disk x = H x) ?_ ?_
  · refine alone_seq (alone_read (Q := fun v u => l = v ∧ t = u) ⟨l, hlogt⟩ ⟨hlh.symm, rfl⟩) ?_
    rintro _ _ ⟨rfl, rfl⟩
    exact alone_mono (fun _ u hu => ⟨hu.1, hsame.trans hu.2.1, hu.2.2⟩) hloop
  rintro _ u ⟨hu, hsame', hlogu, hall⟩
  have hset : Solo p ∅ { u with log := { u.log with lh := [] } } :=
    ⟨⟨hu.cache.pages, hu.cache.listed, hu.cache.unique⟩, hu.refs, hu.free, hu.mine, hu.agree⟩
  refine alone_seq (alone_update (Q := fun _ v => v = { u with log := { u.log with lh := [] } })
    ⟨l, hlogu⟩ ⟨l, hlogu⟩ rfl) ?_
  rintro _ _ rfl
  have hclean : ∀ b, s.sb.log.Clean (update u.disk u.sb.logstart (putLogheader b [])) H := by
    intro b
    rw [hsame'.sb]
    exact hlogu.write_empty hall (logheaderAt_putLogheader b (by decide) (by simp))
  refine alone_mono ?_ (hset.writeHead (J := fun d => s.sb.log.Recoverable d H) ⟨l, hlogu⟩
    fun b => (hclean b).recoverable)
  rintro _ v ⟨hv, hrest, hlogv, b, hdiskv⟩
  refine ⟨hv, hsame'.trans ⟨hrest.sb, hrest.proc, hrest.tx, hrest.outstanding, hrest.committing⟩, ?_, ?_⟩
  · rw [hlogv]
  · rw [hdiskv]
    exact hclean b

end Solo
end Txv6
