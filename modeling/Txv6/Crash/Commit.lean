import Txv6.Crash.Code

/-! # The log, step by step

`begin_op`, `log_write` and `end_op` take the steps of `OpAct`, and `commit` goes through its
phases in order.
-/
namespace Txv6
open Lib Lib.Prog Finset

variable {b : BufPtr} {m : K Unit} {rest : List Nat} {tail x : Nat} {sb : Superblock}
  {Q : Unit → Kernel × Share → Prop}

variable {p : ProcPtr} {v : Bool} {s : Kernel} {a : Share} {α : Type}

theorem slot_not_home {i : Nat} (hi : i < logblocks) : ¬ sb.log.Home (sb.log.slot i) :=
  fun hh => hh.2 i hi rfl

theorem header_not_home : ¬ sb.log.Home sb.log.header := fun hh => hh.1 rfl

theorem Kernel.Holds.setBytes {c : BufPtr} {f : Block → Block} (h : s.Holds b x) :
    (s.setBytes c f).Holds b x := ⟨h.valid, h.dev, h.blockno⟩

/-- A round of `write_log` or of `install_trans` starts with the slot of the log and the block itself. -/
theorem logWp_breadPair {f : BufPtr → BufPtr → K Unit} (href : a.ref = none) (hphase : a.phase ≠ none)
    (hx : s.log.lh[tail]? = some x) (h : ∀ b c t, b ∉ a.held → c ∉ insert b a.held → LogRely a s t →
      t.log.lh[tail]? = some x → t.Holds b (t.sb.log.slot tail) → t.Holds c x →
      logWp p v (f b c) Q (t, { a with held := insert c (insert b a.held) })) :
    logWp p v (do
      let start ← .read fun s => s.sb.logstart
      let b ← bread p rootdev (start + tail + 1)
      let c ← bread p rootdev x
      f b c) Q (s, a) := by
  refine logWp_bind (logWp_read fun s₁ hR₁ _ => logWp_bind (logWp_bread href fun b s₂ hb hR₂ hb₂ =>
    logWp_bind (logWp_bread href fun c s₃ hc hR₃ hc₃ => ?_)))
  have hR : LogRely a s s₃ := (hR₁.trans hR₂).trans (hR₃.sub (subset_insert _ _) href id)
  refine h b c s₃ hb hc hR ?_ ?_ hc₃
  · rw [hR.lh hphase]
    exact hx
  · rw [hR.sb, ← hR₁.sb]
    exact hR₃.holds (mem_insert_self _ _) hb₂

section
variable (ph : CommitPhase) (href : a.ref = none) (hdirty : a.dirty = ∅)
include href hdirty

/-- A loop over the blocks of the log, each round of which goes on to the next phase. -/
theorem logWp_logLoop {f : Nat → List Nat → K Unit} {g : Nat → CommitPhase}
    (hph : a.phase = some (g tail)) (hrest : s.log.lh.drop tail = rest)
    (hnil : ∀ n, f n [] = pure ())
    (hround : ∀ {n x rest s a}, a.ref = none → a.dirty = ∅ → a.phase = some (g n) → s.log.lh[n]? = some x →
      (∀ t, LogRely a s t → logWp p v (f (n + 1) rest) Q (t, { a with phase := some (g (n + 1)) })) →
      logWp p v (f n (x :: rest)) Q (s, a))
    (h : ∀ t, LogRely a s t → Q () (t, { a with phase := some (g (tail + rest.length)) })) :
    logWp p v (f tail rest) Q (s, a) := by
  induction rest generalizing tail s a with
  | nil =>
    have := h s (.refl _ _)
    rw [List.length_nil, Nat.add_zero, ← hph] at this
    rw [hnil]
    exact this
  | cons x rest ih =>
    have hphase : a.phase ≠ none := by rw [hph]; exact fun h => nomatch h
    have hx : s.log.lh[tail]? = some x := by
      rw [← List.head?_drop, hrest]; rfl
    refine hround href hdirty hph hx fun t hR => ih href hdirty rfl ?_ fun u hRu => ?_
    · rw [hR.lh hphase, ← List.tail_drop, hrest]
      rfl
    · have := h u (hR.trans (hRu.sub (Finset.Subset.refl _) href fun _ h => nomatch h))
      rwa [List.length_cons, Nat.add_comm rest.length, ← Nat.add_assoc] at this

/-- Both buffers of a round are given back. -/
theorem logWp_brelsePair {ph : CommitPhase} {b c : BufPtr} {m : K Unit}
    (hb : b ∉ a.held) (hc : c ∉ insert b a.held)
    (h : ∀ t, LogRely a s t → logWp p v m Q (t, { a with phase := some ph })) :
    logWp p v (do brelse p c; brelse p b; m) Q
      (s, { a with held := insert c (insert b a.held), phase := some ph }) := by
  have hnone : ∀ b, b ∉ a.dirty := fun b => by rw [hdirty]; exact notMem_empty b
  refine logWp_bind (logWp_brelse_insert (a := { a with held := insert b a.held, phase := some ph })
    href hc (hnone c) fun t hR => ?_)
  refine logWp_bind (logWp_brelse_insert (a := { a with phase := some ph }) href hb (hnone b) fun u hR' => h u ?_)
  exact (hR.sub (subset_insert _ _) href fun _ h => nomatch h).trans
    (hR'.sub (Finset.Subset.refl _) href fun _ h => nomatch h)

/-- One round of `write_log`. -/
theorem logWp_writeLogRound (hph : a.phase = some (.logging tail)) (hx : s.log.lh[tail]? = some x)
    (h : ∀ t, LogRely a s t → logWp p v (writeLogLoop p (tail + 1) rest) Q
      (t, { a with phase := some (.logging (tail + 1)) })) :
    logWp p v (writeLogLoop p tail (x :: rest)) Q (s, a) := by
  have hphase : a.phase ≠ none := by rw [hph]; exact fun h => nomatch h
  refine logWp_breadPair href hphase hx fun dst src s₃ hdst hsrc hR₃ hx₃ hd₃ hs₃ => logWp_bind (logWp_read
    fun s₄ hR₄ _ => logWp_bind (logWp_setBufBytes fun s₅ hR₅ hok₅ => ?_))
  have hne : dst ≠ src := fun e => hsrc (e ▸ mem_insert_self _ _)
  have hms : src ∈ insert src (insert dst a.held) := mem_insert_self _ _
  have hmd : dst ∈ insert src (insert dst a.held) := mem_insert_of_mem (mem_insert_self _ _)
  have hR₃₅ := hR₄.trans hR₅
  have hR₁₅ : LogRely a s s₅ := hR₃.trans (hR₃₅.sub ((subset_insert _ _).trans (subset_insert _ _)) href id)
  have hx₅ : s₅.log.lh[tail]? = some x := by rw [hR₃₅.lh hphase]; exact hx₃
  have hd₅ : s₅.Holds dst (s₅.sb.log.slot tail) := by rw [hR₃₅.sb]; exact hR₃₅.holds hmd hd₃
  have hs₅ : s₅.Holds src x := hR₃₅.holds hms hs₃
  have htail : tail < logblocks := Nat.lt_of_lt_of_le (List.getElem?_eq_some_iff.mp hx₅).1 hok₅.length
  refine ⟨_, .commit (.scribble hphase hmd hd₅ (slot_not_home htail)), logWp_bind (logWp_bwrite fun s₆ hR₆ hok₆ => ?_)⟩
  have hbytes : s₆.bytes dst = s₆.bytes src := by
    rw [hR₆.bytes dst hmd, hR₆.bytes src hms, bytes_setBytes_self,
      bytes_setBytes_of_ne hok₅.cache hne.symm, hR₅.bytes src hms]
    rfl
  have hx₆ : s₆.log.lh[tail]? = some x := by rw [hR₆.lh hphase]; exact hx₅
  have hd₆ : s₆.Holds dst (s₆.sb.log.slot tail) := by rw [hR₆.sb]; exact hR₆.holds hmd hd₅.setBytes
  refine ⟨_, .commit (.copy hph hx₆ hmd hd₆ hms (hR₆.holds hms hs₅.setBytes) hbytes), ?_⟩
  have hnone : ∀ b, b ∉ a.dirty := fun b => by rw [hdirty]; exact notMem_empty b
  have hclean : (insert dst a.dirty).erase dst = a.dirty := erase_insert (hnone dst)
  dsimp only
  rw [hclean]
  have hR₁₆ : LogRely a s (s₆.diskWrite dst) := by
    refine ((hR₁₅.trans (.of_setBytes hok₅.cache hdst)).trans (hR₆.sub ?_ href id)).trans
      (.of_diskWrite hok₆.cache hd₆ hdst)
    exact (subset_insert _ _).trans (subset_insert _ _)
  exact logWp_brelsePair href hdirty hdst hsrc fun s₇ hR₇ => h s₇ (hR₁₆.trans hR₇)

/-- `write_head`, with what its disk write means to the caller. -/
theorem logWp_writeHead (hphase : a.phase ≠ none)
    (hact : ∀ t b y, LogRely a s t → b ∉ a.held → t.Holds b t.sb.log.header →
      t.bytes b = putLogheader y t.log.lh →
      LogAct p v (t, { a with held := insert b a.held, dirty := {b} })
        (t.diskWrite b, { a with held := insert b a.held, dirty := ({b} : Finset BufPtr).erase b, phase := some ph }))
    (h : ∀ t, LogRely a s t → Q () (t, { a with phase := some ph })) : logWp p v (writeHead p) Q (s, a) := by
  refine logWp_bind (logWp_read fun s₁ hR₁ _ => logWp_bind (logWp_bread href fun b s₂ hb hR₂ hb₂ =>
    logWp_bind (logWp_read fun s₃ hR₃ _ => logWp_bind (logWp_setBufBytes fun s₄ hR₄ hok₄ => ?_))))
  have hm : b ∈ insert b a.held := mem_insert_self _ _
  have hsub : a.held ⊆ insert b a.held := subset_insert _ _
  have hR₁₄ : LogRely a s s₄ := (hR₁.trans hR₂).trans ((hR₃.trans hR₄).sub hsub href id)
  have hb₄ : s₄.Holds b s₄.sb.log.header := by
    rw [hR₁₄.sb, ← hR₁.sb]
    exact (hR₃.trans hR₄).holds hm hb₂
  refine ⟨_, .commit (.scribble hphase hm hb₄ header_not_home), logWp_bind (logWp_bwrite fun s₅ hR₅ hok₅ => ?_)⟩
  have hnone : ∀ b, b ∉ a.dirty := fun b => by rw [hdirty]; exact notMem_empty b
  have hR₁₅ : LogRely a s s₅ := (hR₁₄.trans (.of_setBytes hok₄.cache hb)).trans (hR₅.sub hsub href id)
  have hb₅ : s₅.Holds b s₅.sb.log.header := by
    rw [hR₅.sb]
    exact hR₅.holds hm hb₄.setBytes
  have hlh : s₅.log.lh = s₃.log.lh := (hR₅.lh hphase).trans (hR₄.lh hphase)
  have hbytes : s₅.bytes b = putLogheader (s₄.bytes b) s₅.log.lh := by
    rw [hR₅.bytes b hm, bytes_setBytes_self, hlh]
  have hstep := hact s₅ b _ hR₁₅ hb hb₅ hbytes
  have hins : insert b a.dirty = {b} := by rw [hdirty]; rfl
  have hera : ({b} : Finset BufPtr).erase b = a.dirty := by rw [hdirty]; exact erase_singleton b
  rw [hera] at hstep
  dsimp only
  rw [hins]
  refine ⟨_, hstep, logWp_brelse_insert (a := { a with phase := some ph }) href hb (hnone b) fun s₆ hR₆ => h s₆ ?_⟩
  exact (hR₁₅.trans (.of_diskWrite hok₅.cache hb₅ hb)).trans
    (hR₆.sub (Finset.Subset.refl _) href fun _ h => nomatch h)

/-- One round of `install_trans`. -/
theorem logWp_installRound (hph : a.phase = some (.installing tail tail)) (hx : s.log.lh[tail]? = some x)
    (h : ∀ t, LogRely a s t → logWp p v (installTransLoop p false (tail + 1) rest) Q
      (t, { a with phase := some (.installing (tail + 1) (tail + 1)) })) :
    logWp p v (installTransLoop p false tail (x :: rest)) Q (s, a) := by
  have hphase : a.phase ≠ none := by rw [hph]; exact fun h => nomatch h
  refine logWp_breadPair href hphase hx fun lbuf dbuf s₃ hl hd hR₃ hx₃ hl₃ hd₃ => logWp_bind (logWp_read
    fun s₄ hR₄ _ => logWp_bind (logWp_setBufBytes fun s₅ hR₅ hok₅ => ?_))
  have hdb : dbuf ∉ a.held := fun h => hd (mem_insert_of_mem h)
  have hmd : dbuf ∈ insert dbuf (insert lbuf a.held) := mem_insert_self _ _
  have hml : lbuf ∈ insert dbuf (insert lbuf a.held) := mem_insert_of_mem (mem_insert_self _ _)
  have hsub : a.held ⊆ insert dbuf (insert lbuf a.held) :=
    (subset_insert _ _).trans (subset_insert _ _)
  have hnone : ∀ b, b ∉ a.dirty := fun b => by rw [hdirty]; exact notMem_empty b
  have hR₃₅ := hR₄.trans hR₅
  have hR₁₅ : LogRely a s s₅ := hR₃.trans (hR₃₅.sub hsub href id)
  have hx₅ : s₅.log.lh[tail]? = some x := by rw [hR₃₅.lh hphase]; exact hx₃
  have hl₅ : s₅.Holds lbuf (s₅.sb.log.slot tail) := by rw [hR₃₅.sb]; exact hR₃₅.holds hml hl₃
  have hd₅ : s₅.Holds dbuf x := hR₃₅.holds hmd hd₃
  refine ⟨_, .commit (.fetch hph hx₅ hml (hnone _) hl₅ hmd hd₅ (hR₅.bytes lbuf hml)),
    logWp_bind (logWp_bwrite fun s₆ hR₆ hok₆ => ?_)⟩
  have hx₆ : s₆.log.lh[tail]? = some x := by rw [hR₆.lh hphase]; exact hx₅
  have hd₆ : s₆.Holds dbuf x := hR₆.holds hmd hd₅.setBytes
  have hR₁₆ : LogRely a s (s₆.diskWrite dbuf) :=
    ((hR₁₅.trans (.of_setBytes hok₅.cache hdb)).trans (hR₆.sub hsub href id)).trans
      (.of_diskWrite hok₆.cache hd₆ hdb)
  refine ⟨_, .commit (.install hph hx₆ hmd hd₆), logWp_bind (logWp_update fun s₇ hR₇ _ => ?_)⟩
  have hx₇ : s₇.log.lh[tail]? = some x := by rw [hR₇.lh fun h => nomatch h]; exact hx₆
  have hd₇ : s₇.Holds dbuf x := hR₇.holds hmd ⟨hd₆.valid, hd₆.dev, hd₆.blockno⟩
  refine ⟨_, .commit (.unpin rfl hx₇ hmd hd₇), ?_⟩
  have hR₁₇ : LogRely a s (s₇.setBuf dbuf fun x => { x with refcnt := x.refcnt - 1 }) :=
    (hR₁₆.trans (hR₇.sub hsub href fun _ h => nomatch h)).trans
      (.of_sameBufs (.setBuf rfl rfl rfl rfl) rfl rfl fun _ => rfl)
  have hl' : lbuf ∉ insert dbuf a.held := by
    intro hm
    rcases mem_insert.mp hm with e | hm
    · exact hd (e ▸ mem_insert_self _ _)
    · exact hl hm
  dsimp only
  rw [insert_comm]
  exact logWp_brelsePair href hdirty hdb hl' fun s₈ hR₈ => h s₈ (hR₁₇.trans hR₈)

/-- `commit` goes through all its phases, or has nothing to do. -/
theorem logWp_commit (hph : a.phase = some (.logging 0))
    (h : ∀ t ph, LogRely { a with phase := none } s t →
      ph = .cleared ∨ ph = .logging 0 ∧ t.log.lh = [] → Q () (t, { a with phase := some ph })) :
    logWp p v (commit p) Q (s, a) := by
  have hphase : a.phase ≠ none := by rw [hph]; exact fun h => nomatch h
  have hsub : ∀ ph {t u}, LogRely { a with phase := ph } t u → LogRely { a with phase := none } t u :=
    fun _ _ _ hR => hR.sub (Finset.Subset.refl _) href fun h => absurd rfl h
  refine logWp_bind (logWp_read fun s₁ hR₁ _ => ?_)
  by_cases hn : 0 < s₁.log.lh.length
  · rw [decide_eq_true hn]
    refine logWp_bind (logWp_bind (logWp_read fun s₂ hR₂ _ =>
      logWp_logLoop href hdirty hph rfl (fun _ => rfl) logWp_writeLogRound fun s₃ hR₃ => ?_))
    rw [Nat.zero_add]
    have hlen : s₂.log.lh.length = s₃.log.lh.length := by rw [hR₃.lh hphase]
    rw [hlen]
    refine logWp_bind (logWp_writeHead (.installing 0 0) href hdirty (fun h => nomatch h) (fun t b y hR hb hx hy => ?_)
      fun s₄ hR₄ => ?_)
    · refine .commit (.header ?_ (mem_insert_self _ _) hx hy)
      rw [hR.lh fun h => nomatch h]
    · refine logWp_bind (logWp_bind (logWp_read fun s₅ hR₅ _ =>
        logWp_logLoop (g := fun n => .installing n n) (a := { a with phase := some (.installing 0 0) }) href hdirty
          rfl rfl (fun _ => rfl) logWp_installRound fun s₆ hR₆ => ?_))
      rw [Nat.zero_add]
      refine logWp_bind (logWp_update fun s₇ hR₇ _ => ?_)
      have hlh : s₇.log.lh = s₅.log.lh := (hR₇.lh fun h => nomatch h).trans (hR₆.lh fun h => nomatch h)
      have hlen : s₅.log.lh.length = s₇.log.lh.length := by rw [hlh]
      rw [hlen]
      refine ⟨_, .commit (.forget rfl), ?_⟩
      refine logWp_writeHead .cleared href hdirty (fun h => nomatch h) (fun t b y hR hb hx hy => ?_) fun s₈ hR₈ => ?_
      · rw [hR.lh fun h => nomatch h] at hy
        exact .commit (.erase rfl (mem_insert_self _ _) hx hy)
      · refine h s₈ .cleared ?_ (.inl rfl)
        have hforget : LogRely { a with phase := none } s₇ { s₇ with log := { s₇.log with lh := [] } } :=
          .of_sameBufs (fun _ => ⟨rfl, rfl, rfl, rfl⟩) rfl rfl fun h => absurd rfl h
        have hR₁₃ := hsub a.phase ((hR₁.trans hR₂).trans hR₃)
        exact ((((hR₁₃.trans (hsub _ hR₄)).trans (hsub _ (hR₅.trans hR₆))).trans (hsub _ hR₇)).trans hforget).trans
          (hsub _ hR₈)
  · rw [decide_eq_false hn]
    have := h s₁ (.logging 0) (hsub a.phase hR₁)
      (.inr ⟨rfl, List.eq_nil_of_length_eq_zero (Nat.eq_zero_of_not_pos hn)⟩)
    rw [← hph] at this
    exact this
end

theorem logWp_beginOp (hcnt : a.counted = false)
    (h : ∀ t, LogRely a s t → Q () (t, { a with counted := true })) : logWp p v (beginOp p) Q (s, a) := by
  refine logWp_bind (logWp_txActive fun t hR => logWp_await fun u hRu _ hroom => ?_)
  refine ⟨_, .op (.begin hcnt hroom) fun _ => rfl, h _ ((hR.trans hRu).trans ?_)⟩
  exact .of_sameBufs (fun _ => ⟨rfl, rfl, rfl, rfl⟩) rfl rfl fun _ => rfl

theorem logWp_logWrite (hcnt : a.counted = true)
    (hphase : a.phase = none) (hb : b ∈ a.held) (hx : s.Holds b x) (hhome : s.sb.log.Home x) (hlt : x < 2 ^ 32)
    (h : ∀ t, LogRely a s t → Q () (t, { a with dirty := a.dirty.erase b })) :
    logWp p v (logWrite p b) Q (s, a) := by
  refine logWp_bind (logWp_txActive fun t hR => logWp_atomOrPanic fun u r v hRu hok hw => ?_)
  have hRsu := hR.trans hRu
  have hxu := hRsu.holds hb hx
  have hxu' : u.Holds b (u.buf b).blockno := ⟨hxu.valid, hxu.dev, rfl⟩
  unfold Kernel.logWrite at hw
  split at hw
  · cases hw
  split at hw
  · cases hw
  rename_i hlen _
  split at hw
  next hmem =>
    cases hw
    exact ⟨_, .op (.logged hcnt hb hxu' hmem) fun _ => hcnt, h _ hRsu⟩
  next hnot =>
    cases hw
    refine ⟨_, .op (.append hcnt hb hxu' hnot (Nat.lt_of_not_le hlen) ?_ ?_) fun _ => hcnt, h _ (hRsu.trans ?_)⟩
    · rw [hxu.blockno, hRsu.sb]
      exact hhome
    · rw [hxu.blockno]
      exact hlt
    · exact .of_sameBufs (SameBufs.setBuf (f := fun x => { x with refcnt := x.refcnt + 1 }) rfl rfl rfl rfl)
        rfl rfl fun hne => absurd hphase hne

theorem logWp_endOp (href : a.ref = none) (hdirty : a.dirty = ∅)
    (hphase : a.phase = none) (hcnt : a.counted = true)
    (h : ∀ t, LogRely a s t → Q () (t, { a with counted := false })) : logWp p false (endOp p) Q (s, a) := by
  have hsame : ∀ {u v : Kernel}, SameBufs u v → v.disk = u.disk → v.sb = u.sb → LogRely a u v :=
    fun hb hdisk hsb => .of_sameBufs hb hdisk hsb fun hne => absurd hphase hne
  refine logWp_bind (logWp_txActive fun t hR => logWp_bind (logWp_atomOrPanic fun u r v hRu hok he => ?_))
  unfold Kernel.endOp at he
  dsimp only at he
  split at he
  · cases he
  rename_i hcom
  have hcom : u.log.committing = false := by simpa using hcom
  split at he
  next hout =>
    cases he
    refine ⟨_, .op (.last hcnt hdirty hcom hout) (fun hv => nomatch hv), logWp_bind (logWp_commit href hdirty rfl fun w ph hRw hw => ?_)⟩
    refine logWp_update fun w' hRw' _ => ?_
    have hdone : some ph = some CommitPhase.cleared ∨
        some ph = some (CommitPhase.logging 0) ∧ w'.log.lh = [] := by
      rcases hw with rfl | ⟨rfl, hnil⟩
      · exact .inl rfl
      · exact .inr ⟨rfl, (hRw'.lh fun h => nomatch h).trans hnil⟩
    refine ⟨_, .commit (.done hdone hdirty), ?_⟩
    have hRa : ∀ {c ph t u}, LogRely { a with counted := c, phase := ph } t u → LogRely a t u :=
      fun hR => hR.sub (Finset.Subset.refl _) href fun hne => absurd hphase hne
    have hlast : LogRely a u { u with log := { u.log with
        outstanding := u.log.outstanding - 1, committing := true } } :=
      hsame (fun _ => ⟨rfl, rfl, rfl, rfl⟩) rfl rfl
    have hend : LogRely a w' { w' with log := { w'.log with committing := false } } :=
      hsame (fun _ => ⟨rfl, rfl, rfl, rfl⟩) rfl rfl
    have := h _ (((((hR.trans hRu).trans hlast).trans (hRa hRw)).trans (hRa hRw')).trans hend)
    rw [hphase] at this
    exact this
  next hout =>
    cases he
    exact ⟨_, .op (.leave hcnt hdirty hout) (fun hv => nomatch hv),
      h _ ((hR.trans hRu).trans (hsame (fun _ => ⟨rfl, rfl, rfl, rfl⟩) rfl rfl))⟩

end Txv6
