import Mathlib.Data.List.Basic

/-! # Redo logs

A disk is a function from addresses to contents. One address holds the header of the log and
some more hold the copies of logged blocks; all others are home addresses. The header names
the home addresses of the copies, or nothing.

From a disk with `Logged d l H` the home contents `H` can be restored; `Clean d H` is the case
of the empty log. The lemmas follow a log through a commit, with `Clean` for the old contents
up to the write of the header and `Logged` for the new ones after it.
-/
namespace Txv6.Lib
open Function

/-- Where the log lies, and what a header says. -/
structure RedoLog (ι β : Type) where
  header : ι
  slot : Nat → ι
  capacity : Nat
  decode : β → List ι
  slot_ne : ∀ i, slot i ≠ header
  slot_inj : ∀ i j, slot i = slot j → i = j

namespace RedoLog
variable {ι β : Type} (L : RedoLog ι β)

/-- Addresses outside of the log. -/
def Home (x : ι) : Prop := x ≠ L.header ∧ ∀ i < L.capacity, x ≠ L.slot i

/-- The log is empty and the home addresses hold `H`. -/
structure Clean (d H : ι → β) : Prop where
  empty : L.decode (d L.header) = []
  home : ∀ x, L.Home x → d x = H x

/-- The log holds what is missing to make the home contents `H`. -/
structure Logged (d : ι → β) (l : List ι) (H : ι → β) : Prop where
  named : L.decode (d L.header) = l
  length : l.length ≤ L.capacity
  copies : ∀ i x, l[i]? = some x → d (L.slot i) = H x
  rest : ∀ x, L.Home x → x ∉ l → d x = H x
  homes : ∀ x ∈ l, L.Home x

/-- The home contents `H` can be restored. -/
def Recoverable (d H : ι → β) : Prop := ∃ l, L.Logged d l H

variable {L} {d H : ι → β} {l : List ι} {v : β}

theorem Clean.logged (h : L.Clean d H) : L.Logged d [] H where
  named := h.empty
  length := Nat.zero_le _
  copies i x hx := by simp at hx
  rest x hx _ := h.home x hx
  homes x hx := by simp at hx

theorem Clean.recoverable (h : L.Clean d H) : L.Recoverable d H := ⟨[], h.logged⟩

variable [DecidableEq ι]

/-- Installing a block changes nothing that is still needed. -/
theorem Logged.install {x : ι} (h : L.Logged d l H) (hx : x ∈ l) :
    L.Logged (update d x (H x)) l H where
  named := by rw [update_of_ne (h.homes x hx).1.symm]; exact h.named
  length := h.length
  copies i y hy := by
    have hi : i < l.length := (List.getElem?_eq_some_iff.mp hy).1
    have hne := ((h.homes x hx).2 i (Nat.lt_of_lt_of_le hi h.length)).symm
    rw [update_of_ne hne]
    exact h.copies i y hy
  rest y hy hl := by
    by_cases e : y = x
    · rw [e, update_self]
    · rw [update_of_ne e]; exact h.rest y hy hl
  homes := h.homes

/-- With all blocks installed the header can go. -/
theorem Logged.write_empty (h : L.Logged d l H) (hall : ∀ x ∈ l, d x = H x)
    (hv : L.decode v = []) : L.Clean (update d L.header v) H where
  empty := by rw [update_self]; exact hv
  home x hx := by
    rw [update_of_ne hx.1]
    by_cases hl : x ∈ l
    · exact hall x hl
    · exact h.rest x hx hl

end RedoLog
end Txv6.Lib
