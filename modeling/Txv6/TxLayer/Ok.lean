import Txv6.TxLayer.Results

/-! # The tables stay in order

Every step of the transaction layer keeps the pages of stable data, shadow copies,
transactions and saved registers apart from each other and from the free list.
-/
namespace Txv6
open Lib Txv6.Lib.Ownership Function
open Kernel (freeproc setPage setProc txOf)

variable {h x : Header} {k k' : Kernel} {ws : List WorksetEntry} {i : Nat} {a pg src : Page}
  {f : Transaction → Transaction} {e : WorksetEntry}

/-! ## Entries of sorted worksets -/

theorem entryOf_eq_some (hs : WsSorted ws)
    : entryOf ws h = some e ↔ e ∈ ws ∧ e.header = h := by
  constructor
  · intro hf
    exact ⟨List.mem_of_find?_eq_some hf, by simpa using List.find?_some hf⟩
  · rintro ⟨he, rfl⟩
    cases hf : entryOf ws e.header with
    | none =>
      have := List.find?_eq_none.mp hf e he
      simp at this
    | some e' =>
      have hmem := List.mem_of_find?_eq_some hf
      have hhead : e'.header = e.header := by simpa using List.find?_some hf
      rw [wsSorted_unique hs hmem he hhead]

theorem entryOf_insertEntry (hs : WsSorted ws) (hn : ¬ InWorkset ws e.header) (h : Header) :
    entryOf (insertEntry ws e) h = if h = e.header then some e else entryOf ws h := by
  have hs' := insertEntry_sorted hs hn
  split
  next heq => exact (entryOf_eq_some hs').mpr ⟨mem_insertEntry.mpr (.inl rfl), heq.symm⟩
  next hne =>
    refine Option.ext fun x => ?_
    rw [entryOf_eq_some hs', entryOf_eq_some hs, mem_insertEntry]
    constructor
    · rintro ⟨rfl | hx, hh⟩
      · exact absurd hh.symm hne
      · exact ⟨hx, hh⟩
    · exact fun ⟨hx, hh⟩ => ⟨.inr hx, hh⟩

theorem drop_eq_cons (h : ws[i]? = some e) : ws.drop i = e :: ws.drop (i + 1) := by
  obtain ⟨hi, rfl⟩ := List.getElem?_eq_some_iff.mp h
  exact List.drop_eq_getElem_cons hi

theorem drop_sorted (hs : WsSorted ws) (i : Nat) :
    WsSorted (ws.drop i) := List.Pairwise.sublist (List.drop_sublist i ws) hs

/-- The entry of the head of what is left is gone from the rest. -/
theorem entryOf_drop (h : ws[i]? = some e) (x : Header) :
    entryOf (ws.drop i) x = if e.header = x then some e else entryOf (ws.drop (i + 1)) x := by
  rw [drop_eq_cons h]
  unfold entryOf
  rw [List.find?_cons]
  by_cases hx : e.header = x <;> simp [hx]

theorem entryOf_drop_succ (hs : WsSorted ws)
    (h : ws[i]? = some e) : entryOf (ws.drop (i + 1)) e.header = none := by
  have hd := drop_sorted hs i
  rw [drop_eq_cons h] at hd
  refine List.find?_eq_none.mpr fun x hx => ?_
  have hlt := (List.pairwise_cons.mp hd).1 x hx
  intro heq
  rw [decide_eq_true_eq] at heq
  rw [heq] at hlt
  omega

theorem txActive_eq (s : Kernel) (p : ProcPtr) : s.txActive p = ((s.txOf p).status == .active) := by
  unfold Kernel.txActive txOf
  cases (s.proc p).tx <;> rfl

namespace TxWorld
variable {w w' : TxWorld} {p q : ProcPtr}

theorem entries_sorted (hs : WsSorted (w.k.txOf p).workset) : WsSorted (w.entries p) := by
  unfold entries
  split
  · split
    · exact hs
    · exact List.Pairwise.nil
  · exact drop_sorted hs _
  · exact drop_sorted hs _

theorem entries_congr (hphase : w'.phase q = w.phase q) (htx : w'.k.txOf q = w.k.txOf q) :
    w'.entries q = w.entries q := by
  unfold entries
  rw [hphase, txActive_eq, txActive_eq, htx]

theorem entries_user (h : w.phase p = .user) (ha : w.k.txActive p = true) :
    w.entries p = (w.k.txOf p).workset := by
  unfold entries
  rw [h]
  simp [ha]

theorem entries_user_nil (h : w.phase p = .user) (hn : (w.k.txOf p).workset = []) : w.entries p = [] := by
  unfold entries
  rw [h]
  simp [hn]

theorem entries_swapping (h : w.phase p = .swapping i) : w.entries p = (w.k.txOf p).workset.drop i := by
  unfold entries
  rw [h]

theorem entries_freeing (h : w.phase p = .freeing i) : w.entries p = (w.k.txOf p).workset.drop i := by
  unfold entries
  rw [h]

theorem holds_shadow (hs : WsSorted (w.k.txOf p).workset) :
    w.holds (.shadow p h) = some pg ↔ ∃ e ∈ w.entries p, e.header = h ∧ e.shadowData = pg := by
  simp only [holds, Option.map_eq_some_iff, entryOf_eq_some (entries_sorted hs), and_assoc]

theorem Ok.tx_inj (h : w.Ok) (hp : (w.k.proc p).tx = some a) (hq : (w.k.proc q).tx = some a) : p = q := by
  have hp : w.holds (.tx p) = some a := hp
  have hq : w.holds (.tx q) = some a := hq
  exact Role.tx.inj (h.pages.unique hp hq)

/-- Nothing that concerns process `q` is different. -/
structure Same (w w' : TxWorld) (q : ProcPtr) : Prop where
  txPtr : (w'.k.proc q).tx = (w.k.proc q).tx
  txOf : w'.k.txOf q = w.k.txOf q
  phase : w'.phase q = w.phase q

/-- A process whose page no step has touched. -/
theorem txOf_of_ne (hptr : (k'.proc q).tx = (k.proc q).tx)
    (htx : ∀ b, b ≠ a → k'.tx b = k.tx b) (hne : (k.proc q).tx ≠ some a) : k'.txOf q = k.txOf q := by
  unfold txOf
  rw [hptr]
  cases hq : (k.proc q).tx with
  | none => rfl
  | some b => exact htx b fun e => hne (by rw [hq, e])

theorem Same.holds_eq (hsame : Same w w' q) :
    w'.holds (.tx q) = w.holds (.tx q) ∧ w'.holds (.saved q) = w.holds (.saved q) ∧
      ∀ h, w'.holds (.shadow q h) = w.holds (.shadow q h) := by
  refine ⟨hsame.txPtr, ?_, fun h => ?_⟩
  · simp only [holds, hsame.txOf]
  · simp only [holds, entries_congr hsame.phase hsame.txOf]

/-- The roles that a step of process `p` may change. -/
theorem holds_cases (hsame : ∀ q, q ≠ p → Same w w' q) (r : Role) :
    (∃ h, r = .data h) ∨ r = .tx p ∨ r = .saved p ∨ (∃ h, r = .shadow p h) ∨
      w'.holds r = w.holds r ∧ ∀ h, r ≠ .data h ∧ r ≠ .shadow p h := by
  cases r with
  | data h => exact .inl ⟨h, rfl⟩
  | tx q =>
    by_cases e : q = p
    · subst e; exact .inr (.inl rfl)
    · exact .inr (.inr (.inr (.inr ⟨(hsame q e).holds_eq.1, by simp⟩)))
  | saved q =>
    by_cases e : q = p
    · subst e; exact .inr (.inr (.inl rfl))
    · exact .inr (.inr (.inr (.inr ⟨(hsame q e).holds_eq.2.1, by simp⟩)))
  | shadow q h =>
    by_cases e : q = p
    · subst e; exact .inr (.inr (.inr (.inl ⟨h, rfl⟩)))
    · exact .inr (.inr (.inr (.inr ⟨(hsame q e).holds_eq.2.2 h, by simp [e]⟩)))

/-! ## Steps on the own transaction record -/

theorem setTxOf_eq (ha : (k.proc p).tx = some a) : k.setTxOf p f = k.setTx a f := by
  unfold Kernel.setTxOf
  rw [ha]

theorem txOf_setTx (ha : (k.proc p).tx = some a) : (k.setTx a f).txOf p = f (k.txOf p) := by
  rw [txOf_eq (show ((k.setTx a f).proc p).tx = some a from ha), txOf_eq ha]
  simp [Kernel.setTx]

/-- Only the transaction in page `a` and the state of process `p` differ. -/
theorem same_of_setTx (h : w.Ok) (ha : (w.k.proc p).tx = some a)
    (hproc : w'.k.proc = w.k.proc) (htx : ∀ b, b ≠ a → w'.k.tx b = w.k.tx b)
    (hphase : ∀ q, q ≠ p → w'.phase q = w.phase q) (q : ProcPtr) (hq : q ≠ p) : Same w w' q := by
  refine ⟨by rw [hproc], txOf_of_ne (by rw [hproc]) htx fun hqa => ?_, hphase q hq⟩
  exact hq (h.tx_inj hqa ha)

/-- The conditions beside the pages, for a step that leaves the processes as they are. -/
theorem Ok.of_same (h : w.Ok) (hpages : Separated w'.holds w'.k.freelist) (hproc : w'.k.proc = w.k.proc)
    (hsame : ∀ q, q ≠ p → Same w w' q) (hsort : WsSorted (w'.k.txOf p).workset)
    (hbusy : w'.phase p ≠ .user → (w.k.proc p).tx ≠ none) : w'.Ok where
  pages := hpages
  sorted q := by
    by_cases e : q = p
    · subst e; exact hsort
    · rw [(hsame q e).txOf]; exact h.sorted q
  unused q hq := by
    rw [hproc] at hq ⊢
    exact h.unused q hq
  busy q hq := by
    rw [hproc]
    by_cases e : q = p
    · subst e; exact hbusy hq
    · rw [(hsame q e).phase] at hq
      exact h.busy q hq

/-! ## Begin, shadow, write -/

theorem begin_same (h : w.Ok) (hb : BeginResult w.k w'.k p a pg)
    (hphase : w'.phase = w.phase) (q : ProcPtr) (hq : q ≠ p) : Same w w' q :=
  same_of_setTx h hb.ptr hb.proc hb.other (fun _ _ => by rw [hphase]) q hq

theorem Ok.begin (h : w.Ok) (hb : BeginResult w.k w'.k p a pg)
    (huser : w.phase p = .user) (hphase : w'.phase = w.phase) : w'.Ok := by
  have hsame := begin_same h hb hphase
  have hnil : w'.entries p = [] := entries_user_nil (by rw [hphase, huser]) (by rw [hb.txOf])
  have hf : ∀ r y, w'.holds r = some y → r = .saved p ∧ y = pg ∨ w.holds r = some y := by
    intro r y hr
    rcases holds_cases hsame r with ⟨x, rfl⟩ | rfl | rfl | ⟨x, rfl⟩ | ⟨heq, _⟩
    · exact .inr (by simpa only [holds, hb.dataPtr] using hr)
    · exact .inr (by simpa only [holds, hb.proc] using hr)
    · left
      simp only [holds, hb.txOf, Option.some.injEq] at hr
      exact ⟨rfl, hr.symm⟩
    · simp [holds, hnil, entryOf] at hr
    · exact .inr (heq ▸ hr)
  refine h.of_same ?_ hb.proc hsame (by rw [hb.txOf]; exact List.Pairwise.nil)
    (fun hn => absurd (by rw [hphase, huser]) hn)
  rcases hb.page with ⟨hs, hfree⟩ | hfree
  · rw [hfree]
    refine h.pages.mono fun r y hr => ?_
    rcases hf r y hr with ⟨rfl, rfl⟩ | hr
    · simp only [holds, txOf_eq hb.ptr, hs]
    · exact hr
  · have hpages := h.pages
    rw [hfree] at hpages
    exact hpages.alloc _ hf

theorem grant_same (h : w.Ok) (hg : GrantResult w.k w'.k p a pg src x) (hphase : w'.phase = w.phase)
    (q : ProcPtr) (hq : q ≠ p) : Same w w' q :=
  same_of_setTx h hg.ptr hg.proc hg.other (fun _ _ => by rw [hphase]) q hq

/-- A grant adds one shadow. -/
theorem grant_entryOf (h : w.Ok) (hg : GrantResult w.k w'.k p a pg src x) (huser : w.phase p = .user)
    (hphase : w'.phase = w.phase) (hact : w.k.txActive p = true) :
    ∃ ro, ∀ y, entryOf (w'.entries p) y =
      if y = x then some ⟨x, pg, ro, false⟩ else entryOf (w.entries p) y := by
  obtain ⟨ro, htx⟩ := hg.txOf
  refine ⟨ro, fun y => ?_⟩
  have hact' : w'.k.txActive p = true := by
    rw [txActive_eq] at hact ⊢
    rw [htx]
    exact hact
  rw [entries_user (by rw [hphase, huser]) hact', entries_user huser hact, htx]
  exact entryOf_insertEntry (h.sorted p) (txOf_eq hg.ptr ▸ hg.fresh) y

theorem Ok.grant (h : w.Ok) (hg : GrantResult w.k w'.k p a pg src x) (huser : w.phase p = .user)
    (hphase : w'.phase = w.phase) (hact : w.k.txActive p = true) : w'.Ok := by
  have hsame := grant_same h hg hphase
  obtain ⟨ro, htx⟩ := hg.txOf
  obtain ⟨ro', hentry⟩ := grant_entryOf h hg huser hphase hact
  refine h.of_same ?_ hg.proc hsame ?_ fun hn => absurd (by rw [hphase, huser]) hn
  · have hpages := h.pages
    rw [hg.page] at hpages
    refine hpages.alloc (.shadow p x) fun r y hr => ?_
    rcases holds_cases hsame r with ⟨z, rfl⟩ | rfl | rfl | ⟨z, rfl⟩ | ⟨heq, _⟩
    · exact .inr (by simpa only [holds, hg.dataPtr] using hr)
    · exact .inr (by simpa only [holds, hg.proc] using hr)
    · exact .inr (by simpa only [holds, htx] using hr)
    · simp only [holds, hentry] at hr
      by_cases hz : z = x
      · subst hz
        simp only [if_true, Option.map_some, Option.some.injEq] at hr
        exact .inl ⟨rfl, hr.symm⟩
      · rw [if_neg hz] at hr
        exact .inr hr
    · exact .inr (heq ▸ hr)
  · rw [htx]
    exact insertEntry_sorted (h.sorted p) (txOf_eq hg.ptr ▸ hg.fresh)

/-- Steps that only change what the pages hold. -/
theorem Ok.heap (h : w.Ok) (pg : Page) (f : PageData → PageData)
    (hk : w'.k = w.k.setPage pg f) (hphase : w'.phase = w.phase) : w'.Ok := by
  have hsame : ∀ q, Same w w' q := fun q => ⟨by rw [hk]; rfl, by rw [hk]; rfl, by rw [hphase]⟩
  refine h.of_same (p := 0) ?_ (by rw [hk]; rfl) (fun q _ => hsame q) ?_ ?_
  · have hfree : w'.k.freelist = w.k.freelist := by rw [hk]; rfl
    rw [hfree]
    refine h.pages.mono fun r y hr => ?_
    cases r with
    | data x =>
      rw [holds, hk] at hr
      exact hr
    | tx q => exact (hsame q).holds_eq.1 ▸ hr
    | saved q => exact (hsame q).holds_eq.2.1 ▸ hr
    | shadow q x => exact (hsame q).holds_eq.2.2 x ▸ hr
  · rw [(hsame 0).txOf]
    exact h.sorted 0
  · rw [hphase]
    exact h.busy 0

/-! ## Commit and abort -/

theorem setTx_same (h : w.Ok) (ha : (w.k.proc p).tx = some a) (hk : w'.k = w.k.setTx a f)
    (hphase : ∀ q, q ≠ p → w'.phase q = w.phase q) (q : ProcPtr) (hq : q ≠ p) : Same w w' q := by
  refine same_of_setTx h ha (by rw [hk]; rfl) (fun b hb => ?_) hphase q hq
  rw [hk]
  simp [Kernel.setTx, update, hb]

/-- Steps that change only the own transaction record, and give up shadows at most. -/
theorem Ok.setTx (h : w.Ok) (ha : (w.k.proc p).tx = some a) (hk : w'.k = w.k.setTx a f)
    (hphase : ∀ q, q ≠ p → w'.phase q = w.phase q) (hsaved : ∀ x, (f x).savedTf = x.savedTf)
    (hsort : WsSorted (w'.k.txOf p).workset)
    (hent : ∀ x e, entryOf (w'.entries p) x = some e → entryOf (w.entries p) x = some e) : w'.Ok := by
  have hsame := setTx_same h ha hk hphase
  refine h.of_same ?_ (by rw [hk]; rfl) hsame hsort fun _ => by rw [ha]; simp
  have hfree : w'.k.freelist = w.k.freelist := by rw [hk]; rfl
  rw [hfree]
  refine h.pages.mono fun r y hr => ?_
  rcases holds_cases hsame r with ⟨x, rfl⟩ | rfl | rfl | ⟨x, rfl⟩ | ⟨heq, _⟩
  · rw [holds, hk] at hr
    exact hr
  · rw [holds, hk] at hr
    exact hr
  · rw [holds, hk, txOf_setTx ha, hsaved] at hr
    exact hr
  · simp only [holds, Option.map_eq_some_iff] at hr ⊢
    obtain ⟨e, he, hy⟩ := hr
    exact ⟨e, hent x e he, hy⟩
  · exact heq ▸ hr

/-- The end of `sys_txcommit` or `sys_txabort` leaves an empty workset. -/
theorem endTx_entries (ha : (w.k.proc p).tx = some a) (hk : w'.k = w.k.endTx p)
    (hphase : w'.phase = w.setPhase p .user) : w'.entries p = [] := by
  refine entries_user_nil (by rw [hphase]; simp [setPhase]) ?_
  rw [hk, Kernel.endTx, setTxOf_eq ha, txOf_setTx ha]

theorem Ok.endTx (h : w.Ok) (ha : (w.k.proc p).tx = some a) (hk : w'.k = w.k.endTx p)
    (hphase : w'.phase = w.setPhase p .user) : w'.Ok := by
  have hnil := endTx_entries ha hk hphase
  rw [Kernel.endTx, setTxOf_eq ha] at hk
  refine h.setTx ha hk (fun q hq => by rw [hphase]; simp [setPhase, update, hq])
    (fun _ => rfl) ?_ fun x e he => ?_
  · rw [hk, txOf_setTx ha]
    exact List.Pairwise.nil
  · rw [hnil] at he
    cases he

/-- One object of a commit has been swapped. -/
theorem Ok.swap {d : Page} (h : w.Ok) (hph : w.phase p = .swapping i) (he : (w.k.txOf p).workset[i]? = some e)
    (hd : w.k.dataPtr e.header = some d) (hk : w'.k = (w.k.kfree d).setDataPtr e.shadowData e.header)
    (hphase : w'.phase = w.setPhase p (.swapping (i + 1))) : w'.Ok := by
  have hproc : w'.k.proc = w.k.proc := by rw [hk]; simp [Kernel.kfree, setPage]
  have htx : w'.k.tx = w.k.tx := by rw [hk]; simp [Kernel.kfree, setPage]
  have htxOf : ∀ q, w'.k.txOf q = w.k.txOf q := fun q => by
    unfold txOf
    rw [hproc, htx]
  have hsame : ∀ q, q ≠ p → Same w w' q := fun q hq =>
    ⟨by rw [hproc], htxOf q, by rw [hphase]; simp [setPhase, update, hq]⟩
  have hph' : w'.phase p = .swapping (i + 1) := by rw [hphase]; simp [setPhase]
  have hnone := entryOf_drop_succ (h.sorted p) he
  have hheld : w.holds (.data e.header) = some d := hd
  have hshadow : w.holds (.shadow p e.header) = some e.shadowData := by
    simp only [holds, entries_swapping hph]
    rw [entryOf_drop he]
    simp
  refine h.of_same ?_ hproc hsame (by rw [htxOf]; exact h.sorted p)
    (fun _ => h.busy p (by rw [hph]; simp))
  have hfree : w'.k.freelist = d :: w.k.freelist := by rw [hk]; simp [Kernel.kfree]
  rw [hfree]
  refine h.pages.exchange hheld hshadow (by simp) fun r y hr => ?_
  rcases holds_cases hsame r with ⟨x, rfl⟩ | rfl | rfl | ⟨x, rfl⟩ | ⟨heq, hne⟩
  · rw [holds, hk, dataPtr_setDataPtr] at hr
    split at hr
    next hx =>
      subst hx
      exact .inl ⟨rfl, (Option.some.inj hr).symm⟩
    next hx => exact .inr ⟨by simp, by simpa using hx, hr⟩
  · exact .inr ⟨by simp, by simp, by rw [holds, hproc] at hr; exact hr⟩
  · exact .inr ⟨by simp, by simp, by rw [holds, htxOf] at hr; exact hr⟩
  · simp only [holds, entries_swapping hph', htxOf] at hr
    have hx : x ≠ e.header := by
      rintro rfl
      rw [hnone] at hr
      cases hr
    refine .inr ⟨by simpa using hx, by simp, ?_⟩
    simp only [holds, entries_swapping hph]
    rw [entryOf_drop he, if_neg (Ne.symm hx)]
    exact hr
  · exact .inr ⟨(hne _).2, (hne _).1, heq ▸ hr⟩

/-- One shadow of an abort has been freed. -/
theorem Ok.free (h : w.Ok) (hph : w.phase p = .freeing i) (he : (w.k.txOf p).workset[i]? = some e)
    (hk : w'.k = w.k.kfree e.shadowData) (hphase : w'.phase = w.setPhase p (.freeing (i + 1))) : w'.Ok := by
  have hproc : w'.k.proc = w.k.proc := by rw [hk]; rfl
  have htxOf : ∀ q, w'.k.txOf q = w.k.txOf q := fun q => by rw [hk]; rfl
  have hsame : ∀ q, q ≠ p → Same w w' q := fun q hq =>
    ⟨by rw [hproc], htxOf q, by rw [hphase]; simp [setPhase, update, hq]⟩
  have hph' : w'.phase p = .freeing (i + 1) := by rw [hphase]; simp [setPhase]
  have hnone := entryOf_drop_succ (h.sorted p) he
  have hshadow : w.holds (.shadow p e.header) = some e.shadowData := by
    simp only [holds, entries_freeing hph]
    rw [entryOf_drop he]
    simp
  refine h.of_same ?_ hproc hsame (by rw [htxOf]; exact h.sorted p)
    (fun _ => h.busy p (by rw [hph]; simp))
  have hfree : w'.k.freelist = e.shadowData :: w.k.freelist := by rw [hk]; rfl
  rw [hfree]
  refine h.pages.release hshadow fun r y hr => ?_
  rcases holds_cases hsame r with ⟨x, rfl⟩ | rfl | rfl | ⟨x, rfl⟩ | ⟨heq, hne⟩
  · exact ⟨by simp, by rw [holds, hk] at hr; exact hr⟩
  · exact ⟨by simp, by rw [holds, hproc] at hr; exact hr⟩
  · exact ⟨by simp, by rw [holds, htxOf] at hr; exact hr⟩
  · simp only [holds, entries_freeing hph', htxOf] at hr
    have hx : x ≠ e.header := by
      rintro rfl
      rw [hnone] at hr
      cases hr
    refine ⟨by simpa using hx, ?_⟩
    simp only [holds, entries_freeing hph]
    rw [entryOf_drop he, if_neg (Ne.symm hx)]
    exact hr
  · exact ⟨(hne _).2, heq ▸ hr⟩

/-! ## Processes come and go -/

theorem txOf_none (h : (k.proc p).tx = none) : k.txOf p = {} := by
  unfold txOf
  rw [h]

theorem freeproc_proc (k : Kernel) (p q : ProcPtr) (hq : q ≠ p) : (k.freeproc p).proc q = k.proc q := by
  unfold freeproc
  cases (k.proc p).tx <;> simp [setProc, Kernel.kfree, setPage, update, hq]

theorem freeproc_self (k : Kernel) (p : ProcPtr) :
    ((k.freeproc p).proc p).tx = none ∧ ((k.freeproc p).proc p).state = .unused := by
  unfold freeproc
  cases (k.proc p).tx <;> simp [setProc]

theorem freeproc_tx (k : Kernel) (p : ProcPtr) : (k.freeproc p).tx = k.tx := by
  unfold freeproc
  cases (k.proc p).tx <;> rfl

theorem freeproc_dataPtr (k : Kernel) (p : ProcPtr) (h : Header) :
    (k.freeproc p).dataPtr h = k.dataPtr h := by
  unfold freeproc
  cases (k.proc p).tx <;> rfl

theorem freeproc_writer (k : Kernel) (p : ProcPtr) (h : Header) : (k.freeproc p).writer h = k.writer h := by
  unfold freeproc
  cases (k.proc p).tx <;> rfl

theorem freeproc_freelist (k : Kernel) (p : ProcPtr) :
    (k.freeproc p).freelist = (k.proc p).tx.toList ++ k.freelist := by
  unfold freeproc
  cases (k.proc p).tx <;> rfl

theorem freeproc_heap (k : Kernel) (p : ProcPtr) (y : Page) (hy : (k.proc p).tx ≠ some y) :
    (k.freeproc p).heap y = k.heap y := by
  unfold freeproc
  cases ha : (k.proc p).tx with
  | none => rfl
  | some a =>
    have : y ≠ a := fun e => hy (by rw [ha, e])
    simp [setProc, Kernel.kfree, setPage, update, this]

theorem exit_same (hk : w'.k = w.k.freeproc p) (hphase : w'.phase = w.phase) (q : ProcPtr)
    (hq : q ≠ p) : Same w w' q := by
  refine ⟨by rw [hk, freeproc_proc _ _ _ hq], ?_, by rw [hphase]⟩
  unfold txOf
  rw [hk, freeproc_proc _ _ _ hq, freeproc_tx]

theorem Ok.exit (h : w.Ok) (huser : w.phase p = .user) (hk : w'.k = w.k.freeproc p)
    (hphase : w'.phase = w.phase) : w'.Ok := by
  have hsame := exit_same hk hphase
  have hnone : (w'.k.proc p).tx = none := by rw [hk]; exact (freeproc_self _ _).1
  have hnil : w'.entries p = [] :=
    entries_user_nil (by rw [hphase, huser]) (by rw [txOf_none hnone])
  have hf : ∀ r y, w'.holds r = some y → r ≠ .tx p ∧ w.holds r = some y := by
    intro r y hr
    have hr' : r ≠ .tx p := by
      rintro rfl
      rw [holds, hnone] at hr
      cases hr
    rcases holds_cases hsame r with ⟨x, rfl⟩ | rfl | rfl | ⟨x, rfl⟩ | ⟨heq, _⟩
    · exact ⟨hr', by rw [holds, hk, freeproc_dataPtr] at hr; exact hr⟩
    · exact absurd rfl hr'
    · rw [holds, txOf_none hnone] at hr
      cases hr
    · simp [holds, hnil, entryOf] at hr
    · exact ⟨hr', heq ▸ hr⟩
  refine ⟨?_, fun q => ?_, fun q hq => ?_, fun q hq => ?_⟩
  · rw [hk, freeproc_freelist]
    cases ha : (w.k.proc p).tx with
    | none => exact h.pages.mono fun r y hr => (hf r y hr).2
    | some a =>
      have ha : w.holds (.tx p) = some a := ha
      exact h.pages.release ha hf
  · by_cases e : q = p
    · subst e
      rw [txOf_none hnone]
      exact List.Pairwise.nil
    · rw [(hsame q e).txOf]
      exact h.sorted q
  · by_cases e : q = p
    · subst e; exact hnone
    · rw [hk, freeproc_proc _ _ _ e] at hq ⊢
      exact h.unused q hq
  · by_cases e : q = p
    · subst e
      rw [hphase] at hq
      exact absurd huser hq
    · rw [(hsame q e).txPtr]
      rw [hphase] at hq
      exact h.busy q hq

theorem Ok.user_of_unused (h : w.Ok) (hun : (w.k.proc p).state = .unused) : w.phase p = .user := by
  by_contra hne
  exact h.busy p hne (h.unused p hun)

/-- A page that is free is nobody's transaction. -/
theorem Ok.tx_ne_of_free (h : w.Ok) (ha : a ∈ w.k.freelist) (q : ProcPtr) :
    (w.k.proc q).tx ≠ some a := fun hq =>
  h.pages.notFree (show w.holds (.tx q) = some a from hq) ha

theorem alloc_same (h : w.Ok) (hr : AllocResult w.k w'.k p) (hphase : w'.phase = w.phase)
    (q : ProcPtr) (hq : q ≠ p) : Same w w' q := by
  refine ⟨by rw [hr.other q hq], ?_, by rw [hphase]⟩
  rcases hr.page with ⟨_, htx, _⟩ | ⟨a, _, htx, hfree⟩
  · unfold txOf
    rw [hr.other q hq, htx]
  · refine txOf_of_ne (a := a) (by rw [hr.other q hq]) (fun b hb => ?_) ?_
    · rw [htx, update_of_ne hb]
    · exact h.tx_ne_of_free (by rw [hfree]; exact List.mem_cons_self) q

/-- A new process has a blank transaction, if it has one. -/
theorem alloc_txOf (hr : AllocResult k k' p) : k'.txOf p = {} := by
  rcases hr.page with ⟨hnone, _, _⟩ | ⟨a, ha, htx, _⟩
  · exact txOf_none hnone
  · rw [txOf_eq ha, htx, update_self]

theorem Ok.alloc (h : w.Ok) (hr : AllocResult w.k w'.k p) (hphase : w'.phase = w.phase) : w'.Ok := by
  have hsame := alloc_same h hr hphase
  have huser := h.user_of_unused hr.unused
  have htxOf := alloc_txOf hr
  have hnil : w'.entries p = [] :=
    entries_user_nil (by rw [hphase, huser]) (by rw [htxOf])
  have hf : ∀ r y, w'.holds r = some y → r = .tx p ∨ w.holds r = some y := by
    intro r y hy
    rcases holds_cases hsame r with ⟨x, rfl⟩ | rfl | rfl | ⟨x, rfl⟩ | ⟨heq, _⟩
    · exact .inr (by rw [holds, hr.dataPtr] at hy; exact hy)
    · exact .inl rfl
    · rw [holds, htxOf] at hy
      cases hy
    · simp [holds, hnil, entryOf] at hy
    · exact .inr (heq ▸ hy)
  refine ⟨?_, fun q => ?_, fun q hq => ?_, fun q hq => ?_⟩
  · rcases hr.page with ⟨hnone, _, hfree⟩ | ⟨a, ha, _, hfree⟩
    · rw [hfree]
      refine h.pages.mono fun r y hy => ?_
      rcases hf r y hy with rfl | hy'
      · rw [holds, hnone] at hy
        cases hy
      · exact hy'
    · have hpages := h.pages
      rw [hfree] at hpages
      refine hpages.alloc (.tx p) fun r y hy => ?_
      rcases hf r y hy with rfl | hy'
      · rw [holds, ha] at hy
        exact .inl ⟨rfl, (Option.some.inj hy).symm⟩
      · exact .inr hy'
  · by_cases e : q = p
    · subst e
      rw [htxOf]
      exact List.Pairwise.nil
    · rw [(hsame q e).txOf]
      exact h.sorted q
  · by_cases e : q = p
    · subst e
      rw [hr.state] at hq
      cases hq
    · rw [hr.other q e] at hq ⊢
      exact h.unused q hq
  · by_cases e : q = p
    · subst e
      rw [hphase] at hq
      exact absurd huser hq
    · rw [(hsame q e).txPtr]
      rw [hphase] at hq
      exact h.busy q hq

end TxWorld
end Txv6
