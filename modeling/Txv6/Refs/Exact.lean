import Txv6.Refs.Processes
import Txv6.Image
import Mathlib.Algebra.Order.BigOperators.Group.Finset

/-! # Exact reference counts

Over every run the accounts of all processes add up to the balances. When no process is in
a call and no transaction is active all accounts are empty, and every reference count is
the number of open files and working directories.
-/
namespace Txv6
open Lib Lib.Prog Function

/-- The accounts of all processes fit the state. -/
structure RefTotal (s : Kernel) (g : ProcPtr → Account) : Prop where
  sum : ∀ ip, ∑ p ∈ Finset.range nproc, (g p).acc ip = s.bal ip
  used : ∀ p c, (g p).child = some c → (s.proc c).state = .used
  inj : ∀ p q c, (g p).child = some c → (g q).child = some c → p = q
  distinct : ∀ p q a, (s.proc p).tx = some a → (s.proc q).tx = some a → p = q

/-- A step within the guarantee keeps the total, and is what the others rely on. -/
theorem RefTotal.step {s t : Kernel} {g : ProcPtr → Account} {p : ProcPtr} {g' : Account}
    (hfree : s.PageFree) (hT : RefTotal s g) (hG : RefGuar p (s, g p) (t, g')) :
    RefTotal t (update g p g') ∧ ∀ q, q ≠ p → RefRely q (g q) s t := by
  -- a process that lives on, other than `p`, keeps its slot
  have hproc : ∀ q c, q ≠ p → (g q).child = some c → t.proc c = s.proc c := by
    intro q c hq hc
    have hused := hT.used q c hc
    refine hG.other c ?_ ?_ (.inr hused)
    · rintro rfl
      have hl : (s.proc c).state = .runnable := hG.live
      rw [hused] at hl
      cases hl
    · intro hpc
      exact hq (hT.inj q p c hc hpc)
  have htx : ∀ q a, q ≠ p → (s.proc q).tx = some a → t.tx a = s.tx a := by
    intro q a hq ha
    rcases hG.tx a with h | h | h
    · exact h
    · exact absurd (hT.distinct q p a ha h) hq
    · exact absurd ha (hfree a h q)
  have hptr : ∀ q a, (t.proc q).tx = some a →
      (s.proc q).tx = some a ∨ s.freelist.head? = some a := by
    intro q a ha
    obtain ⟨n, hsame, hn⟩ := hG.txPtr
    by_cases e : q = n
    · subst e
      rcases hn with h | h | h
      · exact .inl (h.symm.trans ha)
      · rw [h] at ha
        cases ha
      · exact .inr (h.symm.trans ha)
    · exact .inl ((hsame q e).symm.trans ha)
  refine ⟨⟨?_, ?_, ?_, ?_⟩, ?_⟩
  · intro ip
    rw [Machine.sum_update (fun a : Account => a.acc ip) g (Finset.mem_range.mpr hG.bound), hT.sum ip,
      hG.acc ip]
    dsimp only
    omega
  · intro q c hc
    by_cases e : q = p
    · subst e
      rw [update_self] at hc
      exact (hG.child c hc).1
    · rw [update_of_ne e] at hc
      rw [hproc q c e hc]
      exact hT.used q c hc
  · -- a new child was unused, so it is nobody else's
    have hnew : ∀ q c, q ≠ p → g'.child = some c → (g q).child ≠ some c := by
      intro q c hq hc hqc
      rcases (hG.child c hc).2 with h | h
      · exact hq (hT.inj q p c hqc h)
      · have hu := hT.used q c hqc
        dsimp only at h
        rw [h] at hu
        cases hu
    intro q q' c hc hc'
    by_cases e : q = p <;> by_cases e' : q' = p
    · rw [e, e']
    · subst e
      rw [update_self] at hc
      rw [update_of_ne e'] at hc'
      exact absurd hc' (hnew q' c e' hc)
    · subst e'
      rw [update_of_ne e] at hc
      rw [update_self] at hc'
      exact absurd hc (hnew q c e hc')
    · rw [update_of_ne e] at hc
      rw [update_of_ne e'] at hc'
      exact hT.inj q q' c hc hc'
  · intro q q' a ha ha'
    obtain ⟨n, hsame, _⟩ := hG.txPtr
    rcases hptr q a ha with h | h <;> rcases hptr q' a ha' with h' | h'
    · exact hT.distinct q q' a h h'
    · exact absurd h (hfree a h' q)
    · exact absurd h' (hfree a h q')
    · -- both got the page that was free: only one slot changes its pointer
      by_cases e : q = n
      · by_cases e' : q' = n
        · rw [e, e']
        · have : (s.proc q').tx = some a := (hsame q' e').symm.trans ha'
          exact absurd this (hfree a h' q')
      · have : (s.proc q).tx = some a := (hsame q e).symm.trans ha
        exact absurd this (hfree a h q)
  · intro q hq
    refine ⟨hG.skipped q hq, fun hl => ⟨?_, fun a ha => htx q a hq ha⟩, fun hn hrun => ?_, ?_,
      hG.noCwds⟩
    · by_cases hc : (g p).child = some q
      · have hu := hT.used p q hc
        rw [hl] at hu
        cases hu
      · exact hG.other q hq hc (.inl hl)
    · exact hG.fresh q hq hn hrun
    · intro c hc
      have hne : c ≠ p := by
        rintro rfl
        have hu := hT.used q c hc
        have hl : (s.proc c).state = .runnable := hG.live
        rw [hl] at hu
        cases hu
      exact ⟨hproc q c hq hc, fun a ha => htx c a hne ha⟩

/-! ## Runs -/

/-- The small system when all pages are in use. -/
def full : Kernel := { Image.booted with freelist := [] }

end Txv6
