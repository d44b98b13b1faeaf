import Txv6.Crash.Keeps

/-! # Whole steps

Every step of a process, whatever it is, leaves accounts that fit the state again.
-/
namespace Txv6
open Lib Function Finset
open Lib.Prog hiding update

variable {s t : Kernel} {g : ProcPtr → Share} {p : ProcPtr} {a : Share} {h : Hist}
  {o : Option (ProcPtr × CommitPhase)} {b : BufPtr} {ph : CommitPhase} {x : Kernel × Hist} {y : Nat}

theorem diskWrite_disk (hb : s.Holds b y) : (s.diskWrite b).disk = update s.disk y (s.bytes b) := by
  rw [← hb.blockno]
  rfl

/-- The count of `b` goes along with the pin of its block, and no other block's pin changes. -/
theorem CacheTot.repin {P P' : List Nat} {n : Int} (ht : CacheTot P s g) (hp : p < nproc) (hb : s.Holds b y)
    (hP : ∀ z, z ≠ y → (z ∈ P' ↔ z ∈ P)) (hn : n - pin P' (s.buf b) = (s.buf b).refcnt - pin P (s.buf b))
    (hheld : a.held = (g p).held) (href : a.ref = (g p).ref) :
    CacheTot P' (s.setBuf b fun x => { x with refcnt := n }) (update g p a) := by
  have hpin : ∀ c, c ≠ b → pin P' (s.buf c) = pin P (s.buf c) := by
    intro c hne
    unfold pin
    refine if_congr (and_congr_right fun hd => hP _ fun e => hne ?_) rfl rfl
    exact ht.cache.unique c b hd hb.dev (e.trans hb.blockno.symm)
  refine CacheTot.account (g := g) ?_ hp hheld href
  rw [← update_eq_self p g]
  refine ht.setBuf hp (ht.cache.setBuf_same rfl rfl rfl) (fun c hne => ⟨rfl, hpin c hne⟩) ?_
    (fun c hc => .inl hc) (ht.locked p b) (fun q _ hc => ht.locked q b hc) fun _ _ => hb.dev
  rw [sub_self, add_zero]
  exact hn

namespace LogTot

/-- Where no operation is outstanding, nobody counts as being in one. -/
theorem none_counted (hops : OpTot s h g) (hslots : ∀ q, nproc ≤ q → g q = {})
    (hzero : s.log.outstanding = 0) (q : ProcPtr) : (g q).counted = false := by
  by_cases hq : q < nproc
  · have hnn : ∀ q ∈ Finset.range nproc, (0 : Int) ≤ if (g q).counted then 1 else 0 := by
      intro q _
      split <;> omega
    have hle := single_le_sum hnn (mem_range.mpr hq)
    rw [← hops.outstanding, hzero] at hle
    cases hc : (g q).counted with
    | false => rfl
    | true =>
      rw [hc] at hle
      exact absurd hle (by decide)
  · rw [hslots q (Nat.le_of_not_lt hq)]

theorem idleState (ht : LogTot none x g) : ∃ gr older, x.1.log.committing = false ∧
    x.2.groups = gr :: older ∧ (∀ q, gr.inside q = false) ∧ x.1.sb.log.Clean x.1.disk gr.contents := by
  cases ht.state with
  | idle h1 h2 h3 h4 => exact ⟨_, _, h1, h2, h3, h4⟩

/-- During a commit the home blocks that are not pinned are on the disk. -/
theorem on_disk_of_commit {x : Nat} (ht : LogTot o (s, h) g)
    (hph : (g p).phase = some ph) (hzero : s.log.outstanding = 0) (hhome : s.sb.log.Home x)
    (hx : x ∉ pins (some ph) s.log.lh) : s.disk x = h.contents x := by
  obtain rfl := (ht.turn p ph).mp hph
  rcases ht.contents.stored x hhome with hd | hP | ⟨q, b, hb, hk⟩
  · exact hd
  · exact absurd hP hx
  · rcases ht.contents.kind q b hb with ⟨_, hc⟩ | ⟨hn, _⟩
    · have := none_counted ht.ops ht.headers.slots hzero q
      rw [hc] at this
      cases this
    · exact absurd (hk ▸ hhome) hn

end LogTot
end Txv6
