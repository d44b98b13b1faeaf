import Txv6.Shell.Parse
import Mathlib.Computability.Language

/-! # grep's matcher

`match`, `matchhere` and `matchstar` of `grep.c` on the bytes from a pointer on, with the NUL that
ends the string among them. A read behind the last byte is outside of the object, and the result is
`none` then. The meaning of a pattern is a language of lines, and it is read off the pattern from
left to right.
-/
namespace Txv6.Grep

open Shell (Str chr)
open List

variable {b : Body} {i : Item} {P : Prop} {re s text w : Str} {c x : UChar}
open scoped Computability

/-- The string that a pointer to these bytes stands for. -/
def cstr (s : Str) : Str := s.takeWhile fun c => c != 0

@[simp] theorem cstr_nul (s : Str) : cstr (0 :: s) = [] := rfl

@[simp] theorem cstr_cons (h : c ≠ 0) (s : Str) : cstr (c :: s) = c :: cstr s := by
  simp only [cstr]
  rw [takeWhile_cons_of_pos (by simpa using h)]

theorem cstr_append (h : 0 ∉ s) (t : Str) : cstr (s ++ 0 :: t) = s := by
  rw [cstr, takeWhile_append_of_pos fun c hc => by simpa using ne_of_mem_of_not_mem hc h]
  exact append_nil s

theorem nul_mem_tail (h : 0 ∈ c :: s) (hc : c ≠ 0) : 0 ∈ s :=
  mem_of_ne_of_mem hc.symm h

/-! ## The code -/

/-- The loop of `matchstar`, over what `matchhere` says of the rest of the pattern. -/
def starLoop (here : Str → Option Bool) (c : UChar) : Str → Option Bool
  | [] => do
    if ← here [] then return true else none
  | t :: text => do
    if ← here (t :: text) then return true
    else if t ≠ 0 ∧ (t = c ∨ c = chr '.') then starLoop here c text
    else return false

def matchhere : Str → Str → Option Bool
  | [], _ => none
  | r :: re, text =>
    if r = 0 then some true
    else
      match re with
      | [] => none
      | r' :: re' =>
        if r' = chr '*' then starLoop (fun text => matchhere re' text) r text
        else if r = chr '$' ∧ r' = 0 then text.head?.map fun t => t == 0
        else
          match text with
          | [] => none
          | t :: text' =>
            if t ≠ 0 ∧ (r = chr '.' ∨ r = t) then matchhere (r' :: re') text' else some false

def matchstar (c : UChar) (re text : Str) : Option Bool := starLoop (matchhere re) c text

theorem matchhere_cons {r : UChar} (hr : r ≠ 0) (r' t : UChar) (re text : Str) :
    matchhere (r :: r' :: re) (t :: text) =
      if r' = chr '*' then matchstar r re (t :: text)
      else if r = chr '$' ∧ r' = 0 then some (t == 0)
      else if t ≠ 0 ∧ (r = chr '.' ∨ r = t) then matchhere (r' :: re) text else some false :=
  if_neg hr

/-- The loop of `match`. -/
def searchLoop (re : Str) : Str → Option Bool
  | [] => do
    if ← matchhere re [] then return true else none
  | t :: text => do
    if ← matchhere re (t :: text) then return true
    else if t ≠ 0 then searchLoop re text
    else return false

/-- `match`, a keyword here. -/
def matchRe (re text : Str) : Option Bool := do
  let r ← re.head?
  if r = chr '^' then matchhere re.tail text else searchLoop re text

/-! ## The meaning of a pattern -/

/-- One character of a pattern: `.` stands for every character. -/
def Fits (x c : UChar) : Prop := x = chr '.' ∨ x = c

structure Item where
  char : UChar
  starred : Bool
  deriving DecidableEq

def Item.single (i : Item) : Language UChar := {w | ∃ c, Fits i.char c ∧ w = [c]}

def Item.lang (i : Item) : Language UChar := if i.starred then i.single∗ else i.single

def langOf (items : List Item) : Language UChar := (items.map Item.lang).prod

/-- A pattern without its `^`: the items, and whether a `$` ends it. -/
structure Body where
  items : List Item
  ended : Bool
  deriving DecidableEq

def Body.cons (i : Item) (b : Body) : Body := ⟨i :: b.items, b.ended⟩

def readBody : Str → Body
  | [] => ⟨[], false⟩
  | [x] => if x = chr '$' then ⟨[], true⟩ else ⟨[⟨x, false⟩], false⟩
  | x :: y :: re => if y = chr '*' then (readBody re).cons ⟨x, true⟩ else (readBody (y :: re)).cons ⟨x, false⟩

/-- Some part of the text from its start on is in the language. -/
def Body.Begins (b : Body) (text : Str) : Prop :=
  ∃ w rest, text = w ++ rest ∧ w ∈ langOf b.items ∧ (b.ended = true → rest = [])

/-- The pattern without a leading `^`. -/
def bodyOf (re : Str) : Body := readBody (if re.head? = some (chr '^') then re.tail else re)

/-- Some part of the text is in the language of the pattern. -/
def Matches (re text : Str) : Prop :=
  ∃ before w rest, text = before ++ w ++ rest ∧
    (re.head? = some (chr '^') → before = []) ∧
    w ∈ langOf (bodyOf re).items ∧ ((bodyOf re).ended = true → rest = [])

/-! ## Languages of items -/

theorem Item.mem_single : w ∈ i.single ↔ ∃ c, Fits i.char c ∧ w = [c] := Iff.rfl

theorem Item.mem_star : w ∈ i.single∗ ↔ ∀ c ∈ w, Fits i.char c := by
  rw [Language.mem_kstar]
  constructor
  · rintro ⟨parts, rfl, hparts⟩ c hc
    obtain ⟨part, hpart, hc⟩ := mem_flatten.mp hc
    obtain ⟨d, hd, rfl⟩ := Item.mem_single.mp (hparts part hpart)
    rwa [mem_singleton.mp hc]
  · intro h
    have hflat : w = (w.map fun c => [c]).flatten := by rw [← flatMap_def, flatMap_singleton']
    refine ⟨w.map fun c => [c], hflat, fun part hpart => ?_⟩
    obtain ⟨c, hc, rfl⟩ := mem_map.mp hpart
    exact Item.mem_single.mpr ⟨c, h c hc, rfl⟩

theorem mem_langOf_nil : w ∈ langOf [] ↔ w = [] := Language.mem_one w

theorem mem_langOf_cons {items : List Item} :
    w ∈ langOf (i :: items) ↔ ∃ u ∈ i.lang, ∃ v ∈ langOf items, u ++ v = w := by
  simp only [langOf, map_cons, prod_cons]
  exact Language.mem_mul

theorem Body.begins_nil (text : Str) : Body.Begins ⟨[], false⟩ text :=
  ⟨[], text, rfl, mem_langOf_nil.mpr rfl, nofun⟩

theorem Body.begins_end : Body.Begins ⟨[], true⟩ text ↔ text = [] := by
  constructor
  · rintro ⟨w, rest, rfl, hw, hrest⟩
    rw [mem_langOf_nil.mp hw, hrest rfl]
    rfl
  · rintro rfl
    exact ⟨[], [], rfl, mem_langOf_nil.mpr rfl, fun _ => rfl⟩

theorem Body.begins_single :
    (b.cons ⟨x, false⟩).Begins text ↔ ∃ t text', text = t :: text' ∧ Fits x t ∧ b.Begins text' := by
  constructor
  · rintro ⟨w, rest, rfl, hw, hrest⟩
    obtain ⟨u, ⟨t, ht, rfl⟩, v, hv, rfl⟩ := mem_langOf_cons.mp hw
    exact ⟨t, v ++ rest, rfl, ht, v, rest, rfl, hv, hrest⟩
  · rintro ⟨t, _, rfl, ht, v, rest, rfl, hv, hrest⟩
    exact ⟨t :: v, rest, rfl, mem_langOf_cons.mpr ⟨[t], ⟨t, ht, rfl⟩, v, hv, rfl⟩, hrest⟩

theorem Body.begins_star :
    (b.cons ⟨x, true⟩).Begins text ↔ ∃ u v, text = u ++ v ∧ (∀ c ∈ u, Fits x c) ∧ b.Begins v := by
  constructor
  · rintro ⟨w, rest, rfl, hw, hrest⟩
    obtain ⟨u, hu, v, hv, rfl⟩ := mem_langOf_cons.mp hw
    exact ⟨u, v ++ rest, append_assoc u v rest, Item.mem_star.mp hu, v, rest, rfl, hv, hrest⟩
  · rintro ⟨u, _, rfl, hu, v, rest, rfl, hv, hrest⟩
    have hmem : u ∈ Item.lang ⟨x, true⟩ := Item.mem_star.mpr hu
    exact ⟨u ++ v, rest, (append_assoc u v rest).symm, mem_langOf_cons.mpr ⟨u, hmem, v, hv, rfl⟩, hrest⟩

theorem Body.begins_star_nil : (b.cons ⟨x, true⟩).Begins [] ↔ b.Begins [] := by
  rw [Body.begins_star]
  constructor
  · rintro ⟨u, v, huv, _, hv⟩
    obtain ⟨rfl, rfl⟩ := append_eq_nil_iff.mp huv.symm
    exact hv
  · exact fun h => ⟨[], [], rfl, nofun, h⟩

theorem Body.begins_star_cons {t : UChar} :
    (b.cons ⟨x, true⟩).Begins (t :: text) ↔
      b.Begins (t :: text) ∨ Fits x t ∧ (b.cons ⟨x, true⟩).Begins text := by
  rw [Body.begins_star, Body.begins_star]
  constructor
  · rintro ⟨u, v, huv, hu, hv⟩
    cases u with
    | nil => exact .inl (huv ▸ hv)
    | cons c u =>
      obtain ⟨rfl, rfl⟩ := List.cons.inj huv
      exact .inr ⟨hu _ mem_cons_self, u, v, rfl, fun c hc => hu c (mem_cons_of_mem _ hc), hv⟩
  · rintro (h | ⟨ht, u, v, rfl, hu, hv⟩)
    · exact ⟨[], _, rfl, nofun, h⟩
    · refine ⟨t :: u, v, rfl, fun c hc => ?_, hv⟩
      rcases mem_cons.mp hc with rfl | hc
      · exact ht
      · exact hu c hc

/-! ## The matcher against the language -/

/-- A function that returns, with the truth of a statement. -/
def Answers (r : Option Bool) (P : Prop) : Prop := ∃ b, r = some b ∧ (b = true ↔ P)

theorem Answers.pure_true (h : P) : Answers (some true) P := ⟨true, rfl, by simpa using h⟩

theorem Answers.pure_false (h : ¬ P) : Answers (some false) P := ⟨false, rfl, by simpa using h⟩

theorem Answers.orElse {r r' : Option Bool} {Q R : Prop} (h : Answers r P) (h' : Answers r' Q)
    (hiff : R ↔ P ∨ Q) : Answers (do if ← r then return true else r') R := by
  obtain ⟨b, rfl, hb⟩ := h
  cases b with
  | true => exact .pure_true (hiff.mpr (.inl (hb.mp rfl)))
  | false =>
    obtain ⟨b', rfl, hb'⟩ := h'
    refine ⟨b', rfl, ?_⟩
    rw [hb', hiff]
    exact (or_iff_right fun hP => nomatch hb.mpr hP).symm

theorem starLoop_answers {here : Str → Option Bool}
    (hhere : ∀ text, 0 ∈ text → Answers (here text) (b.Begins (cstr text))) (htext : 0 ∈ text) :
    Answers (starLoop here c text) ((b.cons ⟨c, true⟩).Begins (cstr text)) := by
  induction text with
  | nil => cases htext
  | cons t text ih =>
    have hnow := hhere (t :: text) htext
    rw [starLoop]
    by_cases ht : t = 0
    · subst ht
      rw [cstr_nul] at hnow ⊢
      refine hnow.orElse (Q := False) ?_ (by rw [Body.begins_star_nil, or_false])
      rw [if_neg fun h => h.1 rfl]
      exact .pure_false id
    · rw [cstr_cons ht] at hnow ⊢
      refine hnow.orElse (Q := Fits c t ∧ (b.cons ⟨c, true⟩).Begins (cstr text)) ?_ Body.begins_star_cons
      by_cases hfit : t = c ∨ c = chr '.'
      · have hfits : Fits c t := hfit.symm.imp_right Eq.symm
        rw [if_pos ⟨ht, hfit⟩]
        obtain ⟨r, hr, hiff⟩ := ih (nul_mem_tail htext ht)
        exact ⟨r, hr, hiff.trans (and_iff_right hfits).symm⟩
      · rw [if_neg fun h => hfit h.2]
        exact .pure_false fun h => hfit (h.1.symm.imp_left Eq.symm)

theorem readBody_star (hx : x ≠ 0) (re : Str) :
    readBody (cstr (x :: chr '*' :: re)) = (readBody (cstr re)).cons ⟨x, true⟩ := by
  rw [cstr_cons hx, cstr_cons (by decide), readBody, if_pos rfl]

theorem readBody_single {y : UChar} (hx : x ≠ 0) (hy : y ≠ chr '*') (hend : ¬ (x = chr '$' ∧ y = 0)) :
    readBody (cstr (x :: y :: re)) = (readBody (cstr (y :: re))).cons ⟨x, false⟩ := by
  by_cases h : y = 0
  · subst h
    rw [cstr_cons hx, cstr_nul]
    exact if_neg fun h => hend ⟨h, rfl⟩
  · rw [cstr_cons hx, cstr_cons h, readBody, if_neg hy]

theorem matchhere_answers : ∀ {re text : Str}, 0 ∈ re → 0 ∈ text →
    Answers (matchhere re text) ((readBody (cstr re)).Begins (cstr text))
  | [], _, hre, _ => nomatch hre
  | [x], _, hre, _ => by
    obtain rfl := mem_singleton.mp hre
    exact .pure_true (Body.begins_nil _)
  | _ :: _ :: _, [], _, htext => nomatch htext
  | x :: y :: re, t :: text, hre, htext => by
    by_cases hx : x = 0
    · subst hx
      exact .pure_true (Body.begins_nil _)
    have hrest : 0 ∈ y :: re := nul_mem_tail hre hx
    rw [matchhere_cons hx]
    by_cases hy : y = chr '*'
    · subst hy
      rw [if_pos rfl, readBody_star hx]
      exact starLoop_answers (fun _ h => matchhere_answers (nul_mem_tail hrest (by decide)) h) htext
    rw [if_neg hy]
    by_cases hend : x = chr '$' ∧ y = 0
    · obtain ⟨rfl, rfl⟩ := hend
      rw [if_pos ⟨rfl, rfl⟩, cstr_cons hx, cstr_nul]
      refine ⟨t == 0, rfl, ?_⟩
      rw [show readBody [chr '$'] = ⟨[], true⟩ from rfl, Body.begins_end, beq_iff_eq]
      constructor
      · rintro rfl
        rfl
      · intro h
        by_contra ht
        rw [cstr_cons ht] at h
        cases h
    rw [if_neg hend, readBody_single hx hy hend]
    by_cases ht : t = 0
    · subst ht
      rw [if_neg fun h => h.1 rfl]
      refine .pure_false fun h => ?_
      obtain ⟨_, _, h, _⟩ := Body.begins_single.mp h
      cases h
    rw [cstr_cons ht]
    by_cases hfit : x = chr '.' ∨ x = t
    · rw [if_pos ⟨ht, hfit⟩]
      obtain ⟨b, hb, hiff⟩ := matchhere_answers hrest (nul_mem_tail htext ht)
      refine ⟨b, hb, hiff.trans ⟨fun h => ?_, fun h => ?_⟩⟩
      · exact Body.begins_single.mpr ⟨t, _, rfl, hfit, h⟩
      · obtain ⟨_, _, heq, _, h⟩ := Body.begins_single.mp h
        exact (List.cons.inj heq).2 ▸ h
    · rw [if_neg fun h => hfit h.2]
      refine .pure_false fun h => ?_
      obtain ⟨_, _, heq, hx, _⟩ := Body.begins_single.mp h
      exact hfit ((List.cons.inj heq).1 ▸ hx)

/-- `matchhere` at every place of the text. -/
theorem searchLoop_answers (hre : 0 ∈ re) (htext : 0 ∈ text) :
    Answers (searchLoop re text)
      (∃ before after, cstr text = before ++ after ∧ (readBody (cstr re)).Begins after) := by
  induction text with
  | nil => cases htext
  | cons t text ih =>
    have hnow := matchhere_answers hre htext
    rw [searchLoop]
    by_cases ht : t = 0
    · subst ht
      refine hnow.orElse (Q := False) ?_ ?_
      · rw [if_neg fun h => h rfl]
        exact .pure_false id
      · rw [cstr_nul, or_false]
        constructor
        · rintro ⟨before, after, h, hb⟩
          rwa [(append_eq_nil_iff.mp h.symm).2] at hb
        · exact fun h => ⟨[], [], rfl, h⟩
    · rw [if_pos ht]
      refine hnow.orElse (ih (nul_mem_tail htext ht)) ?_
      rw [cstr_cons ht]
      constructor
      · rintro ⟨before, after, h, hb⟩
        cases before with
        | nil => exact .inl (h ▸ hb)
        | cons c before => exact .inr ⟨before, after, (List.cons.inj h).2, hb⟩
      · rintro (h | ⟨before, after, h, hb⟩)
        · exact ⟨[], _, rfl, h⟩
        · exact ⟨t :: before, after, by rw [h]; rfl, hb⟩

theorem matchRe_answers (hre : 0 ∈ re) (htext : 0 ∈ text) :
    Answers (matchRe re text) (Matches (cstr re) (cstr text)) := by
  cases re with
  | nil => cases hre
  | cons r re =>
    by_cases hr : r = chr '^'
    · subst hr
      have hcode : matchRe (chr '^' :: re) text = matchhere re text := rfl
      have hstr : cstr (chr '^' :: re) = chr '^' :: cstr re := cstr_cons (by decide) re
      rw [hcode, hstr]
      obtain ⟨b, hb, hiff⟩ := matchhere_answers (nul_mem_tail hre (by decide)) htext
      refine ⟨b, hb, hiff.trans ⟨fun ⟨w, rest, htext, hw⟩ => ?_, fun h => ?_⟩⟩
      · exact ⟨[], w, rest, htext, fun _ => rfl, hw⟩
      · obtain ⟨_, w, rest, htext, hnil, hw⟩ := h
        rw [hnil rfl] at htext
        exact ⟨w, rest, htext, hw⟩
    · have hcode : matchRe (r :: re) text = searchLoop (r :: re) text := if_neg hr
      have hfirst : (cstr (r :: re)).head? ≠ some (chr '^') := by
        by_cases hnul : r = 0
        · subst hnul
          exact nofun
        · rw [cstr_cons hnul]
          exact fun h => hr (Option.some.inj h)
      have hbody : bodyOf (cstr (r :: re)) = readBody (cstr (r :: re)) := by rw [bodyOf, if_neg hfirst]
      rw [hcode]
      obtain ⟨b, hb, hiff⟩ := searchLoop_answers hre htext
      refine ⟨b, hb, hiff.trans ?_⟩
      rw [Matches, hbody]
      constructor
      · rintro ⟨before, _, h, w, rest, rfl, hw⟩
        exact ⟨before, w, rest, by rw [h, append_assoc], fun h => absurd h hfirst, hw⟩
      · rintro ⟨before, w, rest, h, _, hw⟩
        exact ⟨before, w ++ rest, by rw [h, append_assoc], w, rest, rfl, hw⟩

/-- The matcher returns, and it finds exactly what the pattern denotes. -/
theorem match_iff {re text : Str} (hre : 0 ∈ re) (htext : 0 ∈ text) :
    ∃ b, matchRe re text = some b ∧ (b = true ↔ Matches (cstr re) (cstr text)) :=
  matchRe_answers hre htext

/-- `^a*.$` against `aab`. -/
theorem match_iff_anchored :
    matchRe [chr '^', chr 'a', chr '*', chr '.', chr '$', 0] [chr 'a', chr 'a', chr 'b', 0] = some true ∧
    Matches [chr '^', chr 'a', chr '*', chr '.', chr '$'] [chr 'a', chr 'a', chr 'b'] := by
  obtain ⟨b, hb, hiff⟩ := @match_iff [chr '^', chr 'a', chr '*', chr '.', chr '$', 0]
    [chr 'a', chr 'a', chr 'b', 0] (by decide) (by decide)
  have hcode : matchRe [chr '^', chr 'a', chr '*', chr '.', chr '$', 0] [chr 'a', chr 'a', chr 'b', 0] =
      some true := by decide
  exact ⟨hcode, hiff.mp (Option.some.inj (hb.symm.trans hcode))⟩

end Txv6.Grep
