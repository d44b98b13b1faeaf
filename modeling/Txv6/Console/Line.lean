import Txv6.Console.Code
import Txv6.Lib.Faults
import Txv6.Lib.Sequence

/-! # The console is a queue of lines

The ring holds the bytes that readers may take, and behind them the line that is being edited. An interrupt
is one step of the terminal below, and a reader takes bytes from the front of its queue.
-/
namespace Txv6.Console
open Lib Lib.Prog Function List

variable {ι : Type} {k : Nat} {ok : Nat → Bool} {u : Sys ι}

/-! ## The terminal -/

/-- Bytes for the readers, and the line that is being edited. -/
structure Tty where
  queue : List UChar
  edit : List UChar

namespace Tty

def size (T : Tty) : Nat := T.queue.length + T.edit.length

/-- A byte at the end of the line, which it may complete. -/
def append (T : Tty) (c : UChar) : Tty :=
  if c = newline ∨ c = ctrlD ∨ T.size + 1 = inputBufSize then ⟨T.queue ++ (T.edit ++ [c]), []⟩
  else ⟨T.queue, T.edit ++ [c]⟩

/-- A byte is typed. -/
def type (T : Tty) (c : UChar) : Tty :=
  if c = ctrlP then T
  else if c = ctrlU then ⟨T.queue, []⟩
  else if c = ctrlH ∨ c = delete then ⟨T.queue, T.edit.dropLast⟩
  else if c ≠ 0 ∧ T.size < inputBufSize then T.append (if c = carriageReturn then newline else c)
  else T

/-- What happens can only happen so: a byte that is taken is the first of the queue. -/
def apply (T : Tty) : Event ι → Option Tty
  | .typed c => some (T.type c)
  | .took _ b => if T.queue.head? = some b ∧ b ≠ ctrlD then some ⟨T.queue.tail, T.edit⟩ else none
  | .ended _ => if T.queue.head? = some ctrlD then some ⟨T.queue.tail, T.edit⟩ else none

def after (log : List (Event ι)) : Option Tty := log.foldlM apply ⟨[], []⟩

/-- A line that is being edited is not complete. -/
structure Ok (T : Tty) : Prop where
  size : T.size ≤ inputBufSize
  newline : newline ∉ T.edit
  ctrlD : ctrlD ∉ T.edit

end Tty

/-- Who it was that took something. -/
def Event.by : Event ι → Option ι
  | .typed _ => none
  | .took i _ => some i
  | .ended i => some i

/-! ## What is said of the console -/

/-- The ring of the console has these bytes, and the write index is between the queue and the line. -/
structure Cons.Holds (c : Cons) (T : Tty) : Prop where
  contents : c.ring.contents inputBufSize = T.queue ++ T.edit
  queue : (c.w - c.r).toNat = T.queue.length

section Ret
variable [DecidableEq ι]

/-- What the call itself has taken. -/
def Ret.own (x : Ret ι) : List (Event ι) := (x.log.drop x.since).filter fun ev => ev.by = some x.who

/-- Why a read has ended that has taken these bytes. -/
def Ret.Stopped (x : Ret ι) (bytes : List UChar) : Prop :=
  x.own = bytes.map (.took x.who) ∧
      (bytes.length = x.n.toNat ∨ bytes.getLast? = some newline ∨
        bytes ≠ [] ∧ ∃ T, Tty.after x.log = some T ∧ T.queue.head? = some ctrlD) ∨
    bytes = [] ∧ 0 < x.n ∧ x.own = [.ended x.who]

/-- What a read has done that was not killed. -/
structure Ret.Served (x : Ret ι) (bytes : List UChar) : Prop where
  result : x.result = bytes.length
  delivered : ∀ k < bytes.length, bytes[k]? = some (x.dst k)
  data : ctrlD ∉ bytes
  line : newline ∉ bytes.dropLast
  bound : bytes.length ≤ x.n.toNat
  stopped : x.Stopped bytes

def Ret.Ok (x : Ret ι) : Prop := x.result = -1 ∧ x.killed = true ∨ ∃ bytes, x.Served bytes

end Ret

/-- The terminal is the one in the ring, and who sleeps has nothing to read. -/
structure Sys.Shows (s : Sys ι) (T : Tty) : Prop where
  holds : s.cons.Holds T
  ok : T.Ok
  quiet : ∀ j, s.asleep j = true → T.queue = []

/-- The console is the terminal that the log leads to. -/
structure Sys.Sound [DecidableEq ι] (s : Sys ι) : Prop where
  shows : ∃ T, Tty.after s.log = some T ∧ s.Shows T
  rets : ∀ x ∈ s.rets, x.Ok

/-! ## The ring -/

section Cons
variable {c : Cons} {T : Tty} {b : UChar}

section
variable (h : c.Holds T)
include h

theorem Cons.Holds.count : c.ring.count = T.size := by
  have hlen := congrArg List.length h.contents
  rw [Ring.contents_length, length_append] at hlen
  exact hlen

theorem Cons.Holds.e_eq : c.e = c.r + BitVec.ofNat 32 T.size := by
  rw [← h.count]
  exact c.ring.nwrite_eq

theorem Cons.Holds.w_eq : c.w = c.r + BitVec.ofNat 32 T.queue.length := by
  rw [← h.queue, BitVec.ofNat_toNat, BitVec.setWidth_eq, BitVec.add_comm, BitVec.sub_add_cancel]

/-- `cons.r == cons.w`. -/
theorem Cons.Holds.empty_iff : c.r = c.w ↔ T.queue = [] := by
  rw [← length_eq_zero_iff, ← h.queue]
  constructor
  · intro heq
    rw [heq, BitVec.sub_self]
    rfl
  · intro hzero
    have hsub : c.w - c.r = 0 := BitVec.eq_of_toNat_eq hzero
    rw [← BitVec.sub_add_cancel c.w c.r, hsub]
    exact (BitVec.zero_add c.r).symm

/-- `cons.e - cons.w`. -/
theorem Cons.Holds.line_eq (hok : T.Ok) : (c.e - c.w).toNat = T.edit.length := by
  have hsize := hok.size
  unfold Tty.size inputBufSize at hsize
  have heq : c.e = c.w + BitVec.ofNat 32 T.edit.length := by
    rw [h.e_eq, h.w_eq, Tty.size, BitVec.ofNat_add, BitVec.add_assoc]
  rw [heq, BitVec.add_comm, BitVec.add_sub_cancel, BitVec.toNat_ofNat]
  exact Nat.mod_eq_of_lt (by omega)

/-- `cons.e == cons.w`. -/
theorem Cons.Holds.edit_iff (hok : T.Ok) : c.e = c.w ↔ T.edit = [] := by
  rw [← length_eq_zero_iff, ← h.line_eq hok]
  constructor
  · intro heq
    rw [heq, BitVec.sub_self]
    rfl
  · intro hzero
    have hsub : c.e - c.w = 0 := BitVec.eq_of_toNat_eq hzero
    rw [← BitVec.sub_add_cancel c.e c.w, hsub]
    exact BitVec.zero_add c.w

/-- `cons.e - cons.r`. -/
theorem Cons.Holds.sub_eq : (c.e - c.r).toNat = T.size := h.count

theorem Cons.Holds.put (hroom : T.size < inputBufSize) (b : UChar) :
    (c.put b).Holds ⟨T.queue, T.edit ++ [b]⟩ := by
  refine ⟨?_, h.queue⟩
  have hput : (c.ring.put inputBufSize b).contents inputBufSize = c.ring.contents inputBufSize ++ [b] :=
    Ring.contents_put b (by decide) (by rw [h.count]; exact hroom) (by decide)
  change (c.ring.put inputBufSize b).contents inputBufSize = _
  rw [hput, h.contents, append_assoc]

theorem Cons.Holds.commit : ({ c with w := c.e } : Cons).Holds ⟨T.queue ++ T.edit, []⟩ := by
  refine ⟨?_, ?_⟩
  · rw [append_nil]
    exact h.contents
  · rw [length_append]
    exact h.sub_eq

/-- The byte before the edit index is the last one of the line. -/
theorem Cons.Holds.erase (hne : T.edit ≠ []) :
    ({ c with e := c.e - 1 } : Cons).Holds ⟨T.queue, T.edit.dropLast⟩ ∧ T.edit.getLast? = some c.last := by
  obtain ⟨line, b, hline⟩ := (eq_nil_or_concat T.edit).resolve_left hne
  rw [concat_eq_append] at hline
  have hcount : c.ring.count = (T.queue.length + line.length) + 1 := by
    rw [h.count, Tty.size, hline, length_append]
    rfl
  have hun : c.ring.contents inputBufSize = c.ring.unput.contents inputBufSize ++ [c.last] := Ring.contents_unput hcount
  rw [h.contents, hline, ← append_assoc] at hun
  obtain ⟨hrest, hlast⟩ := append_inj' hun rfl
  rw [hline, dropLast_concat, List.getLast?_concat]
  exact ⟨⟨hrest.symm, h.queue⟩, congrArg some (singleton_inj.mp hlast)⟩

theorem Cons.Holds.take (hne : c.r ≠ c.w) (hok : T.Ok) :
    T.queue.head? = some c.front ∧ ({ c with r := c.r + 1 } : Cons).Holds ⟨T.queue.tail, T.edit⟩ := by
  obtain ⟨b, rest, hqueue⟩ := exists_cons_of_ne_nil (fun hnil => hne (h.empty_iff.mpr hnil))
  have hbound := hok.size
  have hsize : T.size ≠ 0 := by
    rw [Tty.size, hqueue, length_cons]
    omega
  have hring : c.ring.nread ≠ c.ring.nwrite := by
    intro heq
    have hzero := Ring.count_eq_zero_iff.mpr heq
    exact hsize (h.count.symm.trans hzero)
  have hpop : c.ring.contents inputBufSize = c.front :: c.ring.pop.contents inputBufSize := Ring.contents_pop hring
  rw [h.contents, hqueue, cons_append] at hpop
  obtain ⟨hfront, hrest⟩ := List.cons.inj hpop
  rw [hqueue]
  refine ⟨congrArg some hfront, hrest.symm, ?_⟩
  -- the queue is one shorter
  have hw : c.w = (c.r + 1) + BitVec.ofNat 32 rest.length := by
    rw [h.w_eq, hqueue, length_cons, Nat.add_comm, BitVec.ofNat_add, ← BitVec.add_assoc]
    rfl
  change (c.w - (c.r + 1)).toNat = rest.length
  rw [hw, BitVec.add_comm (c.r + 1), BitVec.add_sub_cancel, BitVec.toNat_ofNat]
  unfold Tty.size inputBufSize at hbound
  rw [hqueue, length_cons] at hbound
  exact Nat.mod_eq_of_lt (by omega)
end

end Cons

/-! ## Typing keeps a terminal in order -/

theorem Tty.Ok.append {T : Tty} (h : T.Ok) (hroom : T.size < inputBufSize) (c : UChar) : (T.append c).Ok := by
  unfold Tty.append
  unfold Tty.size at hroom
  have hsize := h.size
  unfold Tty.size at hsize
  split
  · refine ⟨?_, not_mem_nil, not_mem_nil⟩
    simp only [Tty.size, length_append, length_cons, length_nil]
    omega
  · next hc =>
    simp only [not_or] at hc
    refine ⟨?_, ?_, ?_⟩
    · simp only [Tty.size, length_append, length_cons, length_nil]
      omega
    · rw [mem_append, mem_singleton]
      exact fun hmem => hmem.elim h.newline fun heq => hc.1 heq.symm
    · rw [mem_append, mem_singleton]
      exact fun hmem => hmem.elim h.ctrlD fun heq => hc.2.1 heq.symm

theorem Tty.Ok.edit {T : Tty} {line : List UChar} (h : T.Ok) (hline : line <+: T.edit) : Tty.Ok ⟨T.queue, line⟩ := by
  have hlen := hline.length_le
  have hsize := h.size
  unfold Tty.size at hsize
  refine ⟨?_, fun hmem => h.newline (hline.subset hmem), fun hmem => h.ctrlD (hline.subset hmem)⟩
  unfold Tty.size
  dsimp only
  omega

theorem Tty.Ok.tail {T : Tty} (h : T.Ok) : Tty.Ok ⟨T.queue.tail, T.edit⟩ := by
  refine ⟨?_, h.newline, h.ctrlD⟩
  have hsize := h.size
  unfold Tty.size at hsize
  change T.queue.tail.length + T.edit.length ≤ inputBufSize
  rw [length_tail]
  omega

/-! ## An interrupt -/

section Intr
variable {s t : Sys ι} {T : Tty}

theorem after_concat (log : List (Event ι)) (ev : Event ι) :
    Tty.after (log ++ [ev]) = (Tty.after log).bind fun T => T.apply ev := by
  unfold Tty.after
  rw [foldlM_append]
  change (_ >>= fun T => (Tty.apply T ev >>= pure)) = _
  simp only [bind_pure]
  rfl

/-- What an interrupt leaves alone. -/
def Sys.Same (s t : Sys ι) : Prop :=
  t.log = s.log ∧ t.umem = s.umem ∧ t.since = s.since ∧ t.killed = s.killed ∧ t.rets = s.rets

theorem Sys.killLine_same (n : Nat) (s : Sys ι) : s.Same (s.killLine n) := by
  induction n generalizing s with
  | zero => exact ⟨rfl, rfl, rfl, rfl, rfl⟩
  | succ n ih =>
    rw [Sys.killLine]
    split
    · exact ih s.rubOut
    · exact ⟨rfl, rfl, rfl, rfl, rfl⟩

theorem Sys.store_same (s : Sys ι) (c : UChar) : s.Same (s.store c) := by
  unfold Sys.store
  dsimp only
  split <;> exact ⟨rfl, rfl, rfl, rfl, rfl⟩

theorem Sys.stroke_same (s : Sys ι) (c : UChar) : s.Same (s.stroke c) := by
  unfold Sys.stroke
  split
  · exact ⟨rfl, rfl, rfl, rfl, rfl⟩
  split
  · exact Sys.killLine_same _ s
  split
  · split <;> exact ⟨rfl, rfl, rfl, rfl, rfl⟩
  split
  · exact s.store_same _
  · exact ⟨rfl, rfl, rfl, rfl, rfl⟩

theorem Sys.Shows.rubOut (h : s.Shows T) (hne : T.edit ≠ []) : s.rubOut.Shows ⟨T.queue, T.edit.dropLast⟩ :=
  ⟨(h.holds.erase hne).1, h.ok.edit (List.dropLast_prefix _), h.quiet⟩

/-- `^U` erases the whole line: there is no newline in it. -/
theorem Sys.Shows.killLine (n : Nat) (h : s.Shows T) (hn : T.edit.length = n) :
    (s.killLine n).Shows ⟨T.queue, []⟩ := by
  induction n generalizing s T with
  | zero =>
    have heq : T = ⟨T.queue, []⟩ := by rw [← length_eq_zero_iff.mp hn]
    exact heq ▸ h
  | succ n ih =>
    have hne : T.edit ≠ [] := ne_nil_of_length_eq_add_one hn
    have hlast : s.cons.last ≠ newline := by
      intro heq
      have hget := (h.holds.erase hne).2
      rw [heq] at hget
      exact h.ok.newline (mem_of_getLast? hget)
    rw [Sys.killLine, if_pos ⟨fun heq => hne ((h.holds.edit_iff h.ok).mp heq), hlast⟩]
    have hlen : T.edit.dropLast.length = n := by
      rw [length_dropLast, hn]
      rfl
    have hrest := ih (h.rubOut hne) hlen
    exact hrest

theorem Sys.Shows.store (h : s.Shows T) (hroom : T.size < inputBufSize) (c : UChar) :
    (s.store c).Shows (T.append c) := by
  have hput := h.holds.put hroom c
  have hok := h.ok.append hroom c
  have hfull : (s.cons.put c).e - (s.cons.put c).r = BitVec.ofNat 32 inputBufSize ↔ T.size + 1 = inputBufSize := by
    rw [← BitVec.toNat_inj, hput.sub_eq, Tty.size, length_append, ← Nat.add_assoc]
    rfl
  unfold Sys.store Tty.append at *
  by_cases hc : c = newline ∨ c = ctrlD ∨ T.size + 1 = inputBufSize
  · rw [if_pos hc] at hok ⊢
    rw [if_pos (hc.imp_right (·.imp_right hfull.mpr))]
    exact ⟨hput.commit, hok, nofun⟩
  · rw [if_neg hc] at hok ⊢
    rw [if_neg fun hp => hc (hp.imp_right (·.imp_right hfull.mp))]
    exact ⟨hput, hok, h.quiet⟩

theorem Sys.Shows.stroke (h : s.Shows T) (c : UChar) : (s.stroke c).Shows (T.type c) := by
  have hedit := h.holds.edit_iff h.ok
  unfold Sys.stroke Tty.type
  split
  · exact h
  split
  · refine h.killLine _ ?_
    rw [h.holds.line_eq h.ok]
  split
  · by_cases hnil : T.edit = []
    · rw [if_neg (not_not.mpr (hedit.mpr hnil)), hnil]
      have heq : T = ⟨T.queue, []⟩ := by rw [← hnil]
      exact heq ▸ h
    · rw [if_pos fun heq => hnil (hedit.mp heq)]
      exact h.rubOut hnil
  · have hroom : s.cons.e - s.cons.r < BitVec.ofNat 32 inputBufSize ↔ T.size < inputBufSize := by
      rw [BitVec.lt_def, h.holds.sub_eq]
      rfl
    by_cases hc : c ≠ 0 ∧ T.size < inputBufSize
    · rw [if_pos hc, if_pos (hc.imp_right hroom.mpr)]
      exact h.store hc.2 _
    · rw [if_neg hc, if_neg fun hp => hc (hp.imp_right hroom.mp)]
      exact h

end Intr

/-! ## A read -/

/-- What a thread knows of the others: what they take does not count as taken by it. -/
structure Rely (i : ι) (s t : Sys ι) : Prop where
  grown : ∃ more, t.log = s.log ++ more ∧ ∀ ev ∈ more, ev.by ≠ some i
  since : t.since i = s.since i
  umem : t.umem i = s.umem i

theorem Rely.refl (i : ι) (s : Sys ι) : Rely i s s := ⟨⟨[], (append_nil _).symm, nofun⟩, rfl, rfl⟩

theorem Rely.trans {i : ι} {s t : Sys ι} (h : Rely i s t) (h' : Rely i t u) : Rely i s u := by
  obtain ⟨more, hmore, hby⟩ := h.grown
  obtain ⟨more', hmore', hby'⟩ := h'.grown
  refine ⟨⟨more ++ more', by rw [hmore', hmore, append_assoc], fun ev hev => ?_⟩,
    h'.since.trans h.since, h'.umem.trans h.umem⟩
  exact (mem_append.mp hev).elim (hby ev) (hby' ev)

variable [DecidableEq ι] {i : ι} {s t : Sys ι} {T : Tty} {bytes : List UChar} {n : Int}

/-- What the call has taken since it began. -/
def Sys.own (s : Sys ι) (i : ι) : List (Event ι) := (s.log.drop (s.since i)).filter fun ev => ev.by = some i

/-- A read has taken and delivered these bytes, and there was no end of a line among them. -/
structure Reading (i : ι) (bytes : List UChar) (s : Sys ι) : Prop where
  since : s.since i ≤ s.log.length
  own : s.own i = bytes.map (.took i)
  dst : ∀ k < bytes.length, bytes[k]? = some (s.umem i k)
  data : ctrlD ∉ bytes
  line : newline ∉ bytes

theorem Sys.own_grown {more : List (Event ι)} (hle : s.since i ≤ s.log.length) (hsince : t.since i = s.since i)
    (hlog : t.log = s.log ++ more) : t.own i = s.own i ++ more.filter fun ev => ev.by = some i := by
  rw [Sys.own, Sys.own, hsince, hlog, drop_append_of_le_length hle, filter_append]

theorem Reading.stable (h : Reading i bytes s) (hR : Rely i s t) : Reading i bytes t := by
  obtain ⟨more, hmore, hby⟩ := hR.grown
  have hnone : more.filter (fun ev => ev.by = some i) = [] := by
    refine filter_eq_nil_iff.mpr fun ev hev => ?_
    rw [decide_eq_true_iff]
    exact hby ev hev
  refine ⟨?_, ?_, hR.umem ▸ h.dst, h.data, h.line⟩
  · rw [hR.since, hmore, length_append]
    exact Nat.le_add_right_of_le h.since
  · rw [Sys.own_grown h.since hR.since hmore, hnone, append_nil, h.own]

/-- What a reader has done to the others by its own steps. -/
structure Sys.Moved (i : ι) (s t : Sys ι) : Prop where
  log : ∃ more, t.log = s.log ++ more ∧ ∀ ev ∈ more, ev.by = some i
  since : t.since = s.since
  umem : ∀ j, j ≠ i → t.umem j = s.umem j
  rets : t.rets = s.rets

omit [DecidableEq ι] in
theorem Sys.Moved.trans (h : s.Moved i t) (h' : t.Moved i u) : s.Moved i u := by
  obtain ⟨more, hmore, hby⟩ := h.log
  obtain ⟨more', hmore', hby'⟩ := h'.log
  refine ⟨⟨more ++ more', by rw [hmore', hmore, append_assoc], fun ev hev => ?_⟩, h'.since.trans h.since,
    fun j hj => (h'.umem j hj).trans (h.umem j hj), h'.rets.trans h.rets⟩
  exact (mem_append.mp hev).elim (hby ev) (hby' ev)

/-- What the loops end with: asleep, or with a result. -/
def Outcome (i : ι) (n : Int) (r : Nat ⊕ Int) (t : Sys ι) : Prop :=
  (∃ T, Tty.after t.log = some T ∧ t.Shows T) ∧
    r.elim (fun k => ∃ bytes, bytes.length = k ∧ k ≤ n.toNat ∧ Reading i bytes t) fun r => (t.ret i n r).Ok

theorem Reading.outcome (hlog : Tty.after s.log = some T) (hT : s.Shows T) (h : Reading i bytes s)
    (hle : bytes.length ≤ n.toNat) (hstop : bytes.length = n.toNat ∨ bytes ≠ [] ∧ T.queue.head? = some ctrlD) :
    Outcome i n (.inr bytes.length) s := by
  refine ⟨⟨T, hlog, hT⟩, .inr ⟨bytes, rfl, h.dst, h.data, fun hmem => h.line (dropLast_subset _ hmem), hle,
    .inl ⟨h.own, ?_⟩⟩⟩
  rcases hstop with hall | ⟨hne, hhead⟩
  · exact .inl hall
  · exact .inr (.inr ⟨hne, T, hlog, hhead⟩)

omit [DecidableEq ι] in
theorem taken_by {c : UChar} : ∀ ev ∈ Sys.taken i k c, ev.by = some i := by
  intro ev hev
  unfold Sys.taken at hev
  split at hev
  · split at hev
    · rw [mem_singleton.mp hev]
      rfl
    · cases hev
  · rw [mem_singleton.mp hev]
    rfl

omit [DecidableEq ι] in
/-- The first byte of the queue is taken; nobody sleeps while there is one. -/
theorem Sys.Shows.take (h : s.Shows T) (hne : s.cons.r ≠ s.cons.w) :
    (s.take i k).Shows ⟨T.queue.tail, T.edit⟩ := by
  refine ⟨(h.holds.take hne h.ok).2, h.ok.tail, fun j hj => ?_⟩
  exact absurd (h.holds.empty_iff.mpr (h.quiet j hj)) hne

theorem filter_by {ev : Event ι} (h : ev.by = some i) : [ev].filter (fun ev => ev.by = some i) = [ev] :=
  filter_cons_of_pos (decide_eq_true h)

/-- `^D` behind other bytes is put back; before any other byte it is gone. -/
theorem Reading.ended (hlog : Tty.after s.log = some T) (hT : s.Shows T) (h : Reading i bytes s)
    (hne : s.cons.r ≠ s.cons.w) (hfront : s.cons.front = ctrlD) (hle : bytes.length ≤ n.toNat) (hn : 0 < n) :
    Outcome i n (.inr bytes.length)
      (if 0 < bytes.length then (s.take i bytes.length).untake else s.take i bytes.length) := by
  have hhead : T.queue.head? = some ctrlD := hfront ▸ (hT.holds.take hne hT.ok).1
  by_cases hnil : bytes = []
  · subst hnil
    have hmore : (s.take i 0).log = s.log ++ [.ended i] := by
      rw [Sys.take, Sys.taken, if_pos hfront, if_pos rfl]
    have hown : (s.take i 0).own i = [.ended i] := by
      rw [Sys.own_grown (t := s.take i 0) h.since rfl hmore, h.own, filter_by rfl]
      rfl
    refine ⟨⟨_, ?_, hT.take hne⟩, .inr ⟨[], rfl, nofun, not_mem_nil, not_mem_nil, Nat.zero_le _,
      .inr ⟨rfl, hn, hown⟩⟩⟩
    change Tty.after (s.take i 0).log = _
    rw [hmore, after_concat, hlog]
    exact if_pos hhead
  · have hpos := length_pos_iff.mpr hnil
    rw [if_pos hpos]
    have hsame : (s.take i bytes.length).untake = s := by
      rw [Sys.untake, Sys.take, Sys.taken, if_pos hfront, if_neg (Nat.ne_of_gt hpos), append_nil,
        BitVec.add_sub_cancel]
    rw [hsame]
    exact h.outcome hlog hT hle (.inr ⟨hnil, hhead⟩)

/-- The reader has taken a byte of data, and has it in its buffer. -/
theorem Reading.took (hlog : Tty.after s.log = some T) (hT : s.Shows T) (h : Reading i bytes s)
    (hne : s.cons.r ≠ s.cons.w) (hd : s.cons.front ≠ ctrlD) (ht : t = (s.take i bytes.length).copyout i bytes.length s.cons.front) :
    (Tty.after t.log = some ⟨T.queue.tail, T.edit⟩ ∧ t.Shows ⟨T.queue.tail, T.edit⟩) ∧ s.Moved i t ∧
      t.since i ≤ t.log.length ∧ t.own i = (bytes ++ [s.cons.front]).map (.took i) ∧
      ∀ k < (bytes ++ [s.cons.front]).length, (bytes ++ [s.cons.front])[k]? = some (t.umem i k) := by
  have hmore : t.log = s.log ++ [.took i s.cons.front] := by
    rw [ht]
    change s.log ++ Sys.taken i bytes.length s.cons.front = _
    rw [Sys.taken, if_neg hd]
  have hsince : t.since = s.since := by
    rw [ht]
    rfl
  refine ⟨⟨?_, ?_⟩, ⟨⟨_, hmore, ?_⟩, hsince, ?_, ?_⟩, ?_, ?_, fun k hk => ?_⟩
  · rw [hmore, after_concat, hlog]
    exact if_pos ⟨(hT.holds.take hne hT.ok).1, hd⟩
  · rw [ht]
    obtain ⟨hholds, hok, hquiet⟩ := hT.take (i := i) (k := bytes.length) hne
    exact ⟨hholds, hok, hquiet⟩
  · intro ev hev
    rw [mem_singleton.mp hev]
    rfl
  · intro j hj
    rw [ht]
    exact update_of_ne hj _ _
  · rw [ht]
    rfl
  · rw [hsince, hmore, length_append]
    exact Nat.le_add_right_of_le h.since
  · rw [Sys.own_grown h.since (congrFun hsince i) hmore, h.own, map_append, filter_by rfl]
    rfl
  · rw [ht]
    change _ = some (update s.umem i (update (s.umem i) bytes.length s.cons.front) i k)
    rw [update_self, update_apply]
    split
    · next heq => rw [heq, List.getElem?_concat_length]
    · next hk' =>
      rw [length_append, length_singleton] at hk
      rw [List.getElem?_append_left (by omega)]
      exact h.dst k (by omega)

/-- The loops, by the number of bytes to go. -/
theorem Reading.readLoop (hcopy : ∀ k, ok k = true) {m : Nat}
    (hlog : Tty.after s.log = some T) (hT : s.Shows T) (h : Reading i bytes s) (hm : bytes.length + m = n.toNat) :
    Outcome i n (Sys.readLoop i ok m bytes.length s).1 (Sys.readLoop i ok m bytes.length s).2 ∧
      s.Moved i (Sys.readLoop i ok m bytes.length s).2 := by
  induction m generalizing s T bytes with
  | zero =>
    exact ⟨h.outcome hlog hT (Nat.le_of_eq hm) (.inl hm), ⟨[], (append_nil _).symm, nofun⟩, rfl, fun _ _ => rfl, rfl⟩
  | succ m ih =>
    rw [Sys.readLoop]
    split
    · next hempty =>
      have hnil := hT.holds.empty_iff.mp hempty
      split
      · next hkilled =>
        exact ⟨⟨⟨T, hlog, hT⟩, .inl ⟨rfl, hkilled⟩⟩, ⟨[], (append_nil _).symm, nofun⟩, rfl, fun _ _ => rfl, rfl⟩
      · refine ⟨⟨⟨T, hlog, hT.holds, hT.ok, fun _ _ => hnil⟩, bytes, rfl, by omega, ?_⟩,
          ⟨[], (append_nil _).symm, nofun⟩, rfl, fun _ _ => rfl, rfl⟩
        exact ⟨h.since, h.own, h.dst, h.data, h.line⟩
    · next hne =>
      by_cases hd : s.cons.front = ctrlD
      · rw [if_pos hd]
        refine ⟨h.ended hlog hT hne hd (by omega) (by omega), ?_⟩
        have hmoved : s.Moved i (s.take i bytes.length) := ⟨⟨_, rfl, taken_by⟩, rfl, fun _ _ => rfl, rfl⟩
        dsimp only
        split
        · exact hmoved.trans ⟨⟨[], (append_nil _).symm, nofun⟩, rfl, fun _ _ => rfl, rfl⟩
        · exact hmoved
      · rw [if_neg hd, if_pos (hcopy _)]
        obtain ⟨⟨hlog', hT'⟩, hmoved, hsince, hown, hdst⟩ := h.took hlog hT hne hd rfl
        have hdata : ctrlD ∉ bytes ++ [s.cons.front] := by
          rw [mem_append, mem_singleton]
          exact fun hmem => hmem.elim h.data fun heq => hd heq.symm
        have hlen : (bytes ++ [s.cons.front]).length = bytes.length + 1 := length_append
        have hbound : (bytes ++ [s.cons.front]).length ≤ n.toNat := by omega
        split
        · next hnl =>
          refine ⟨⟨⟨_, hlog', hT'⟩, .inr ⟨bytes ++ [s.cons.front], congrArg Int.ofNat hlen.symm, hdst, hdata, ?_,
            hbound, .inl ⟨hown, .inr (.inl ?_)⟩⟩⟩, hmoved⟩
          · rw [dropLast_concat]
            exact h.line
          · rw [List.getLast?_concat, hnl]
        · next hnl =>
          have hread : Reading i (bytes ++ [s.cons.front]) ((s.take i bytes.length).copyout i bytes.length s.cons.front) := by
            refine ⟨hsince, hown, hdst, hdata, ?_⟩
            rw [mem_append, mem_singleton]
            exact fun hmem => hmem.elim h.line fun heq => hnl heq.symm
          have hrest := ih hlog' hT' hread (by omega)
          rw [hlen] at hrest
          exact ⟨hrest.1, hmoved.trans hrest.2⟩

/-! ## Runs -/

abbrev Guar (i : ι) : Sys ι → Sys ι → Prop := Machine.Guards Sys.Sound Rely i

abbrev cwp (i : ι) {α : Type} (m : M ι α) (Q : α → Sys ι → Prop) (s : Sys ι) : Prop :=
  wp (fun s t => Rely i s t ∧ t.Sound) (Guar i) m Q (fun _ _ => True) s

omit [DecidableEq ι] in
theorem Sys.Moved.rely {j : ι} (h : s.Moved i t) (hj : j ≠ i) : Rely j s t := by
  obtain ⟨more, hmore, hby⟩ := h.log
  refine ⟨⟨more, hmore, fun ev hev heq => ?_⟩, congrFun h.since j, h.umem j hj⟩
  rw [hby ev hev] at heq
  exact hj (Option.some.inj heq).symm

/-- From one sleep to the next. -/
theorem readRound_spec (hcopy : ∀ k, ok k = true) (h : Reading i bytes s) (hle : bytes.length ≤ n.toNat) :
    cwp i (readRound i ok n bytes.length) (fun r t => r.elim
      (fun k => ∃ bytes, bytes.length = k ∧ k ≤ n.toNat ∧ Reading i bytes t) fun _ => True) s := by
  refine wp_bind (wp_atom fun t hR => ?_)
  obtain ⟨T, hlog, hT⟩ := hR.2.shows
  have hloop := (h.stable hR.1).readLoop hcopy hlog hT (Nat.add_sub_cancel' hle)
  unfold Sys.read
  generalize Sys.readLoop i ok (n.toNat - bytes.length) bytes.length t = x at hloop
  obtain ⟨r, u⟩ := x
  obtain ⟨⟨hshows, hr⟩, hmoved⟩ := hloop
  cases r with
  | inl k =>
    refine ⟨⟨fun hs => ⟨hshows, hmoved.rets ▸ hs.rets⟩, fun j hj => hmoved.rely hj⟩, ?_⟩
    obtain ⟨bytes', hlen, hle', hread⟩ := hr
    refine wp_bind (wp_await fun v hR _ => ⟨⟨id, fun j _ => .refl j v⟩, bytes', hlen, hle', hread.stable hR.1⟩)
  | inr r =>
    refine ⟨⟨fun hs => ⟨?_, fun x hx => ?_⟩, fun j hj => ?_⟩, trivial⟩
    · obtain ⟨T', hlog', hholds, hok, hquiet⟩ := hshows
      exact ⟨T', hlog', hholds, hok, hquiet⟩
    · rcases mem_cons.mp hx with rfl | hx
      · exact hr
      · exact hs.rets x (hmoved.rets ▸ hx)
    · obtain ⟨hgrown, hsince, humem⟩ := hmoved.rely hj
      exact ⟨hgrown, hsince, humem⟩

theorem consoleread_spec (hcopy : ∀ k, ok k = true) (n : Int) (fuel : Nat) :
    cwp i (consoleread i ok n fuel) (fun _ _ => True) s := by
  refine wp_bind (wp_update fun t hR => ⟨⟨fun hs => ?_, fun j hj => ?_⟩, ?_⟩)
  · obtain ⟨T, hlog, hholds, hok, hquiet⟩ := hs.shows
    exact ⟨⟨T, hlog, hholds, hok, hquiet⟩, hs.rets⟩
  · exact ⟨⟨[], (append_nil _).symm, nofun⟩, update_of_ne hj _ _, rfl⟩
  · refine wp_rounds (J := fun k t => ∃ bytes, bytes.length = k ∧ k ≤ n.toNat ∧ Reading i bytes t) ?_ fuel
      ⟨[], rfl, Nat.zero_le _, ?_, ?_, nofun, not_mem_nil, not_mem_nil⟩
    · intro k u hu
      obtain ⟨bytes, rfl, hle, hread⟩ := hu
      exact readRound_spec hcopy hread hle
    · exact (update_self i _ _).le
    · change (t.log.drop (update t.since i t.log.length i)).filter _ = []
      rw [update_self, drop_length]
      rfl

theorem Guar.consoleintr (i : ι) (s : Sys ι) (c : UChar) : Guar i s (s.consoleintr c) := by
  obtain ⟨hlog, humem, hsince, hkilled, hrets⟩ := s.stroke_same c
  refine ⟨fun hs => ⟨?_, hrets ▸ hs.rets⟩, fun j _ => ⟨⟨[.typed c], congrArg (· ++ _) hlog, ?_⟩, congrFun hsince j, congrFun humem j⟩⟩
  · obtain ⟨T, hT, hshows⟩ := hs.shows
    obtain ⟨hholds, hok, hquiet⟩ := hshows.stroke c
    refine ⟨T.type c, ?_, hholds, hok, hquiet⟩
    change Tty.after ((s.stroke c).log ++ [.typed c]) = _
    rw [hlog, after_concat, hT]
    rfl
  · intro ev hev heq
    rw [mem_singleton.mp hev] at heq
    cases heq

/-- A process is killed, which wakes it up. -/
theorem Guar.kill (i j : ι) (s : Sys ι) : Guar i s (s.kill j) := by
  refine ⟨fun hs => ⟨?_, hs.rets⟩, fun k _ => ⟨⟨[], (append_nil _).symm, nofun⟩, rfl, rfl⟩⟩
  obtain ⟨T, hT, hshows⟩ := hs.shows
  refine ⟨T, hT, hshows.holds, hshows.ok, fun k hk => hshows.quiet k ?_⟩
  change update s.asleep j false k = true at hk
  by_cases heq : k = j
  · rw [heq, update_self] at hk
    cases hk
  · rwa [update_of_ne heq] at hk

def judged : Machine.Judged (system ι) Copies where
  R := Rely
  G := Guar
  I _ _ := True
  Tot := Sys.Sound
  C := Sys.Sound
  bad _ := False
  refl := Rely.refl
  trans h h' := h.trans h'
  stable _ _ := trivial
  call := by
    intro i k s hP _ _ _
    have weak : ∀ {m : M ι Int}, cwp i m (fun _ _ => True) s →
        wp (fun s t => Rely i s t ∧ t.Sound) (Guar i) m (fun _ _ => True)
          (fun e _ => ¬ False ∧ (Fatal.fatal e = false → True)) s :=
      fun h => wp_mono (fun _ _ => id) (fun _ _ _ => ⟨id, fun _ => trivial⟩) h
    cases k with
    | intr c => exact weak (wp_bind (wp_update fun t _ => ⟨.consoleintr i t c, trivial⟩))
    | read ok n fuel => exact weak (consoleread_spec hP n fuel)
    | kill j => exact weak (wp_bind (wp_update fun t _ => ⟨.kill i j t, trivial⟩))
  act _ h := h
  user h := h.elim
  step hT hG := ⟨hG.1 hT, hG.2⟩

omit [DecidableEq ι] in
theorem blank_shows {buf : Nat → UChar} {at0 : BitVec 32} {umem : ι → Nat → UChar} :
    (blank buf at0 umem).Shows ⟨[], []⟩ := by
  have hzero : (at0 - at0).toNat = 0 := by
    rw [BitVec.sub_self]
    rfl
  refine ⟨⟨?_, hzero⟩, ⟨Nat.zero_le _, not_mem_nil, not_mem_nil⟩, nofun⟩
  refine eq_nil_of_length_eq_zero ?_
  rw [Ring.contents_length]
  exact hzero

/-- **The console is a terminal.** In every run of interrupts and readers whose copies succeed, with indices
that may wrap: the terminal that the log leads to is the one in the ring, nobody sleeps while there is
something to read, and every read that has returned was killed or has taken bytes from the front of the
queue, and has ended where it should. -/
theorem console_refines {buf : Nat → UChar} {at0 : BitVec 32} {umem : ι → Nat → UChar} {c : Pool ι (Sys ι) Err Int}
    (hr : (system ι).Run Copies ⟨blank buf at0 umem, fun _ => none⟩ c) :
    (∃ T, Tty.after c.state.log = some T ∧ c.state.cons.Holds T ∧ T.Ok ∧ ∀ j, c.state.asleep j = true → T.queue = []) ∧
    ∀ x ∈ c.state.rets, x.Ok := by
  have h₀ : (blank buf at0 umem).Sound := ⟨⟨_, rfl, blank_shows⟩, nofun⟩
  have hidle : ∀ i, (⟨blank buf at0 umem, fun _ => none⟩ : Pool ι (Sys ι) Err Int).run i = none := fun _ => rfl
  obtain ⟨⟨T, hlog, hT⟩, hrets⟩ := (judged.sound hidle (fun _ => trivial) h₀ hr).1
  exact ⟨⟨T, hlog, hT.holds, hT.ok, hT.quiet⟩, hrets⟩

/-- "hello", of which two bytes are erased, is read in two pieces, and then `^D`. -/
def helloCalls : List (Nat × Call Nat) :=
  ([0x68, 0x65, 0x6c, 0x6c, 0x6f, ctrlH, delete, carriageReturn, ctrlD].map fun c => (0, .intr c)) ++
    [2, 9, 9].map fun n => (1, .read (fun _ => true) n 1)

/-- The indices wrap while they are made. -/
def typeHello : Option (Sys Nat) :=
  (system Nat).sequence (fun _ _ _ => true) (fun _ _ => true) helloCalls (blank (fun _ => 0) 0xfffffffe fun _ _ => 0)

theorem console_refines_hello : ∃ c, (system Nat).Run Copies ⟨blank (fun _ => 0) 0xfffffffe fun _ _ => 0, fun _ => none⟩ c ∧
    c.state.rets.map (·.result) = [0, 2, 2] ∧
    (∃ T, Tty.after c.state.log = some T ∧ c.state.cons.Holds T ∧ T.Ok ∧ ∀ j, c.state.asleep j = true → T.queue = []) ∧
    ∀ x ∈ c.state.rets, x.Ok := by
  have hval : typeHello.map (fun s => s.rets.map (·.result)) = some [0, 2, 2] := by decide +kernel
  obtain ⟨t, ht, hres⟩ := Option.map_eq_some_iff.mp hval
  have hrun : (system Nat).Run Copies ⟨blank (fun _ => 0) 0xfffffffe fun _ _ => 0, fun _ => none⟩ ⟨t, fun _ => none⟩ := by
    refine Machine.Run.sequence_of_mem (fun x hx s _ => ⟨trivial, ?_⟩) (fun _ _ _ _ => trivial) (fun _ _ _ => trivial) ht
    rcases mem_append.mp hx with hintr | hread
    · obtain ⟨c, _, rfl⟩ := mem_map.mp hintr
      exact trivial
    · obtain ⟨n, _, rfl⟩ := mem_map.mp hread
      exact fun _ => rfl
  exact ⟨_, hrun, hres, console_refines hrun⟩

end Txv6.Console
