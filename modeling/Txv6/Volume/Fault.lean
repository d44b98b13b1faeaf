import Txv6.Volume.Bytes

/-! # Faults in the source of a write

`writei` copies into the cached block before it knows that all bytes are there. Where the bytes
in front of a fault are not the bytes that the file has there, or the block was not in the log,
they are a change that `writei` does not report.
-/
namespace Txv6
open Lib Function List
open Lib.Prog hiding update

namespace Vol
variable {sb : Superblock} {v w u : Vol} {I : Nat → InodeData} {n m k : Nat} {i : InodeData} {bs : List UChar}
  {bt e : Nat}

/-! ## Changes that are in the log -/

/-- What has changed from `v` to `w` is in the log. -/
structure Logged (v w : Vol) : Prop where
  mono : ∀ x ∈ v.lh, x ∈ w.lh
  blk : ∀ x, x ∉ w.lh → w.blk x = v.blk x

namespace Logged

theorem refl (v : Vol) : Logged v v := ⟨fun _ hx => hx, fun _ _ => rfl⟩

theorem trans (h : Logged v w) (h' : Logged w u) : Logged v u :=
  ⟨fun x hx => h'.mono x (h.mono x hx), fun x hx =>
    (h'.blk x hx).trans (h.blk x fun hw => hx (h'.mono x hw))⟩

theorem put (v : Vol) (x : Nat) (y : Block) : Logged v (v.put x y) := by
  refine ⟨fun z hz => mem_put.mpr (.inl hz), fun z hz => ?_⟩
  rw [put_blk, update_of_ne]
  exact fun e => hz (mem_put.mpr (.inr e))

theorem take (v : Vol) (b : Nat) : Logged v (v.take sb b) := (put _ _ _).trans (put _ _ _)

theorem balloc (v : Vol) : Logged v (v.balloc sb).2 := by
  unfold Vol.balloc
  split
  · exact refl v
  · exact take v _

theorem bmapSlot (v : Vol) (i : InodeData) (k : Fin (ndirect + 1)) : Logged v (v.bmapSlot sb i k).2.1 := by
  unfold Vol.bmapSlot
  split
  · exact refl v
  · dsimp only
    split
    · exact balloc v
    · exact balloc v

theorem bmapEntry (v : Vol) (ind e : Nat) : Logged v (v.bmapEntry sb ind e).2 := by
  unfold Vol.bmapEntry
  split
  · exact refl v
  · dsimp only
    split
    · exact balloc v
    · exact (balloc v).trans (put _ _ _)

theorem bmap (v : Vol) (i : InodeData) (bn : Nat) : Logged v (v.bmap sb i bn).2.1 := by
  unfold Vol.bmap
  split
  · exact bmapSlot v i _
  · dsimp only
    split
    · exact bmapSlot v i _
    · exact (bmapSlot v i _).trans (bmapEntry _ _ _)

/-- A write without a fault. -/
theorem writeiLoop {src : Nat → Nat → List UChar × Bool} {len : Nat}
    (hsrc : ∀ tot k, tot + k ≤ len → (src tot k).2 = true) : ∀ fuel tot off (v : Vol) (i : InodeData),
    Logged v (writeiLoop sb src len fuel tot off v i).2.1 := by
  intro fuel
  induction fuel with
  | zero => exact fun tot off v i => refl v
  | succ fuel ih =>
    intro tot off v i
    by_cases hlt : tot < len
    swap
    · rw [writeiLoop_stop hlt]
      exact refl v
    by_cases h0 : (v.bmap sb i (off / bsize)).1 = 0
    · rw [writeiLoop_full hlt h0]
      exact bmap v i _
    · have hle : tot + chunk len tot off ≤ len := by
        unfold chunk
        omega
      rw [writeiLoop_next hlt h0 (hsrc _ _ hle)]
      exact (bmap v i _).trans ((put _ _ _).trans (ih _ _ _ _))

end Logged

/-! ## Blocks that are not logged -/

section Loop
variable {src : Nat → Nat → List UChar × Bool} {len : Nat}

end Loop

/-! ## Where a fault stops the loop -/

section RoundStart
variable {off L t : Nat}

end RoundStart

/-! ## Two results side by side -/

section Main
variable {src : Nat → Nat → List UChar × Bool} {off len t : Nat} {avail : List UChar}

/-- The state at the beginning of the round that meets the fault, in block `bt` of the file. -/
structure Before (sb : Superblock) (n : Nat) (v : Vol) (I : Nat → InodeData) (off : Nat) (bs : List UChar)
    (bt : Nat) (w : Vol) (j : InodeData) : Prop where
  wrote : Wrote sb n v I off bs w (Function.update I n j)
  logged : Logged v w
  keep : j.addr w.blk bt = (I n).addr v.blk bt
  own : (I n).addr v.blk bt ≠ 0 → ((I n).addr v.blk bt ∈ w.lh ↔ (I n).addr v.blk bt ∈ v.lh)

/-- The round that meets the fault has found its block `a`, or no block is to be had. -/
structure Round (sb : Superblock) (n : Nat) (v : Vol) (I : Nat → InodeData) (off : Nat) (bs : List UChar)
    (bt a : Nat) (w : Vol) (j : InodeData) : Prop where
  wrote : Wrote sb n v I off bs w (Function.update I n j)
  logged : Logged v w
  addr : a ≠ 0 → j.addr w.blk bt = a
  new : (I n).addr v.blk bt = 0 → a ≠ 0 → a ∈ w.lh
  old : (I n).addr v.blk bt ≠ 0 → a = (I n).addr v.blk bt ∧ (a ∈ w.lh ↔ a ∈ v.lh)

theorem Before.round {j : InodeData} (hb : Before sb n v I off bs bt w j)
    (hsb : sb.Ok) (hn : Live sb I n) (hbt : bt < maxfile) :
    Round sb n v I off bs bt (w.bmap sb j bt).1 (w.bmap sb j bt).2.1 (w.bmap sb j bt).2.2 := by
  have hlive : Live sb (update I n j) n := (hb.wrote.live n).mpr hn
  have hj : update I n j n = j := update_self ..
  obtain ⟨hg, _, haddr⟩ := bmap_grown hb.wrote.files hsb hlive hbt
  have hwrote := hb.wrote.grown hn hg
  rw [hj] at haddr hwrote
  rw [update_idem] at hwrote
  refine ⟨hwrote, hb.logged.trans (.bmap w j bt), haddr, fun h0 => ?_, fun h0 => ?_⟩
  · have hmiss : (update I n j n).addr w.blk bt = 0 := by
      rw [hj, hb.keep]
      exact h0
    have hcost := bmap_cost hb.wrote.files hsb hlive hmiss
    rw [hj] at hcost
    exact hcost.2
  · rw [bmap_present (by rw [hb.keep]; exact h0), hb.keep]
    exact ⟨rfl, hb.own h0⟩

namespace Round
variable {a : Nat} {j : InodeData}

section
variable (hR : Round sb n v I off (avail.take t) ((off + t) / bsize) a w j)
include hR

end

end Round

end Main
end Vol

/-! ## The code -/

section Code
variable {p : ProcPtr} {ip : InodePtr} {d : Page} {n : Nat} {v : Vol} {I : Nat → InodeData} {s : Kernel}
  {off len : Nat}

end Code
end Txv6
