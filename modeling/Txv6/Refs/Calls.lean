import Txv6.Refs.Logic
import Txv6.System
import Txv6.TxLayer.Results

/-! # The accounts over a whole call

A call starts and ends with an account that holds what the transaction owes and nothing
else. At the end of a transaction that is so if every object of its workset is owed exactly
one reference: one `iput` each is what commit and abort do.
-/
namespace Txv6
open Lib Lib.Prog
open Kernel (setTx setTxOf)

variable {g : Account} {E : Err → Kernel × Account → Prop} {body : K Int} {s t : Kernel} {C : Kernel → Prop}
  {hs : List Header} {v : Option (List Header)} {r : Res} {f : WorksetEntry → K Unit}

/-- Between two calls. -/
structure RefIdle (p : ProcPtr) (x : Kernel × Account) : Prop where
  child : x.2.child = none
  noCwds : x.1.NoCwds
  live : (x.1.proc p).state = .runnable → ∀ ip, x.2.acc ip = x.1.owed p ip
  dead : (x.1.proc p).state ≠ .runnable → ∀ ip, x.2.acc ip = 0

theorem RefIdle.start {p : ProcPtr} {x : Kernel × Account} (h : RefIdle p x) (hb : p < nproc)
    (hl : (x.1.proc p).state = .runnable) : RefInv p (x.1.proc p).cwd none none {} x where
  bound := hb
  live := hl
  cwd := rfl
  child := h.child
  used _ hc := nomatch hc
  noCwds := h.noCwds
  ended _ hv := nomatch hv
  acc ip := by
    rw [h.live hl ip]
    simp

theorem RefIdle.stable {p : ProcPtr} (hR : RefRely p g s t) (h : RefIdle p (s, g)) : RefIdle p (t, g) := by
  refine ⟨h.child, hR.noCwds h.noCwds, fun hl ip => ?_, fun hd ip => ?_⟩
  · by_cases hs : (s.proc p).state = .runnable
    · rw [hR.owed hs]
      exact h.live hs ip
    · have hact : t.txActive p = false := hR.fresh hs hl
      have hacc := h.dead hs ip
      simp only [Kernel.owed, hact] at hacc ⊢
      exact hacc
  · refine h.dead (fun hs => hd ?_) ip
    rw [(hR.own hs).1]
    exact hs

theorem RefInv.idle {p : ProcPtr} {w : Option InodePtr}
    {x : Kernel × Account} (h : RefInv p w none v {} x) : RefIdle p x where
  child := h.child
  noCwds := h.noCwds
  live _ ip := by
    rw [h.acc ip]
    simp
  dead hd := absurd h.live hd

/-! ## syscall() -/

theorem RefStep.setjmp (s : Kernel) (p : ProcPtr) : RefStep p 0 0 s (s.setjmp p) := by
  unfold Kernel.setjmp setTxOf
  split
  · split
    · exact .refl s
    next a ha => exact .setTx ha rfl rfl
  · exact .refl s

section Calls
variable {p : ProcPtr} {w : Option InodePtr} {x : Kernel × Account}

end Calls
end Txv6
