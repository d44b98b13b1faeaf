import Txv6.Lib.Parallel

/-! # Calls one after the other

A run of a machine in which each call is over before the next one is made can be computed.
-/
namespace Txv6.Lib
open Relation

namespace Machine
variable {ι κ σ ε α : Type} {l : List (ι × κ)} {s t : σ}

/-- Make the calls one after the other. `okCall` is checked of the state before each of them
and `okAct` of every state it passes through. -/
def sequence (M : Machine ι κ σ ε α) (okCall : ι → κ → σ → Bool) (okAct : ι → σ → Bool) : List (ι × κ) → σ → Option σ
  | [], s => some s
  | (i, k) :: rest, s =>
    if okCall i k s && ((M.prog i k).visited s).all (okAct i) then
      match (M.prog i k).run s with
      | (some (.ok _), t) => sequence M okCall okAct rest t
      | _ => none
    else none

variable {M : Machine ι κ σ ε α} [DecidableEq ι] [Fatal ε] {P : Label ι κ ε α → σ → σ → Prop}
  {okCall : ι → κ → σ → Bool} {okAct : ι → σ → Bool}

/-- What is computed is a run; the calls are those of the list. -/
theorem Run.sequence_of_mem
    (hcall : ∀ x ∈ l, ∀ s, okCall x.1 x.2 s = true → M.ready x.1 s ∧ P (.call x.1 x.2) s s)
    (hact : ∀ i s t, okAct i s = true → P (.act i) s t) (hdone : ∀ i a s, P (.done i (.ok a)) s s)
    (h : M.sequence okCall okAct l s = some t) : M.Run P ⟨s, fun _ => none⟩ ⟨t, fun _ => none⟩ := by
  induction l generalizing s with
  | nil =>
    cases h
    exact .refl
  | cons x rest ih =>
    obtain ⟨i, k⟩ := x
    simp only [Machine.sequence] at h
    split at h
    next hok =>
      rw [Bool.and_eq_true] at hok
      obtain ⟨hready, hP⟩ := hcall (i, k) List.mem_cons_self s hok.1
      split at h
      next a u hrun =>
        have hrest := ih (fun x hx => hcall x (List.mem_cons_of_mem _ hx)) h
        refine ReflTransGen.trans (Run.call hready hrun rfl hP ?_ (hdone i a u)) hrest
        intro v hv w
        exact hact i v w (List.all_eq_true.mp hok.2 v hv)
      next => cases h
    next => cases h

theorem Run.sequence (hcall : ∀ i k s, okCall i k s = true → M.ready i s ∧ P (.call i k) s s)
    (hact : ∀ i s t, okAct i s = true → P (.act i) s t) (hdone : ∀ i a s, P (.done i (.ok a)) s s)
    (h : M.sequence okCall okAct l s = some t) :
    M.Run P ⟨s, fun _ => none⟩ ⟨t, fun _ => none⟩ :=
  Run.sequence_of_mem (fun x _ => hcall x.1 x.2) hact hdone h

end Machine
end Txv6.Lib
