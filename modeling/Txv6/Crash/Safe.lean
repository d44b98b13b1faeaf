import Txv6.Crash.Accounts
import Txv6.Image

/-! # Crash safety of the log -/
namespace Txv6
open Lib Lib.Prog Finset

variable {s t : Kernel} {h : Hist} {p : ProcPtr}

/-! ## The disk at a crash -/

/-- A disk that stands for the newest group, or for the one before it where the newest is being
committed. -/
def StandsFor (s : Kernel) (h : Hist) (gr : Group) : Prop :=
  ∃ newer older, h.groups = newer ++ gr :: older ∧ newer.length ≤ 1 ∧
    (newer ≠ [] → s.log.committing = true ∧ s.log.lh ≠ [])

theorem LogTot.recoverable {o : Option (ProcPtr × CommitPhase)} {g : ProcPtr → Share} (ht : LogTot o (s, h) g) :
    ∃ gr, StandsFor s h gr ∧ (∀ q, gr.inside q = false) ∧ s.sb.log.Recoverable s.disk gr.contents := by
  have newest : ∀ {gr older}, h.groups = gr :: older → StandsFor s h gr := fun hg =>
    ⟨[], _, hg, Nat.zero_le _, fun hne => absurd rfl hne⟩
  have hst := ht.state
  cases o with
  | none =>
    obtain ⟨gr, older, _, hg, hin, hclean⟩ := ht.idleState
    exact ⟨gr, newest hg, hin, hclean.recoverable⟩
  | some w =>
    obtain ⟨q, ph⟩ := w
    cases hst with
    | @logging i gr gr' older h1 h2 h3 h4 h5 h6 h7 h8 h9 =>
      by_cases hlh : s.log.lh = []
      · -- nothing was logged, so the disk holds the new contents too
        refine ⟨gr, newest h3, h4, ?_⟩
        refine RedoLog.Clean.recoverable ⟨h7.empty, fun x hx => ?_⟩
        rw [h6]
        refine ht.on_disk_of_commit ((ht.turn q (.logging i)).mpr rfl) h2 hx ?_
        change x ∉ s.log.lh
        rw [hlh]
        exact List.not_mem_nil
      · exact ⟨gr', ⟨[gr], older, h3, Nat.le_refl 1, fun _ => ⟨h1, hlh⟩⟩, h5, h7.recoverable⟩
    | installing h1 h2 h3 h4 h5 h6 h7 => exact ⟨_, newest h3, h4, _, h5 ▸ h6⟩
    | installed h1 h2 h3 h4 h5 h6 h7 h8 => exact ⟨_, newest h3, h4, _, h5 ▸ h7⟩
    | cleared h1 h2 h3 h4 h5 h6 h7 => exact ⟨_, newest h3, h4, (h5 ▸ h7 : s.sb.log.Clean s.disk _).recoverable⟩

/-! ## The start -/

theorem Mounted.idle (p : ProcPtr) (s : Kernel) : Idle p ((s, Hist.start s.disk), {}) :=
  ⟨rfl, rfl, rfl, rfl, rfl, fun b hb => absurd hb (notMem_empty b)⟩

/-! ## Recovery -/

theorem Booted.solo (hb : Booted s) (p : ProcPtr) : Solo p ∅ s := by
  have hdev : ∀ b, (s.buf b).dev ≠ rootdev := by
    intro b
    rw [hb.fresh b]
    exact Nat.zero_ne_one
  refine ⟨⟨hb.pages, hb.listed, fun b c h => absurd h (hdev b)⟩, fun b => ?_, fun b _ => ?_,
    fun b hm => absurd hm (notMem_empty b), fun b _ _ h => absurd h (hdev b)⟩
  · rw [hb.fresh b]
    rfl
  · rw [hb.fresh b]

theorem Crashed.recoverable {sb : Superblock} {d d' H : Nat → Block} (hc : Crashed sb d d')
    (hd : sb.log.Recoverable d H) : sb.log.Recoverable d' H := by
  induction hc with
  | first => exact hd
  | @again s t p _ hb hsb ht ih =>
    rw [← hsb] at ih ⊢
    exact (alone_run ((hb.solo p).recoverFromLog ih)).2 t ht

end Txv6
