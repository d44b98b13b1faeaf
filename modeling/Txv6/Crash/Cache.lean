import Txv6.Crash.Disk
import Txv6.Frame

/-! # Buffers

What the steps of the buffer cache do to the headers and to the contents of the buffers.
-/
namespace Txv6
open Lib Lib.Prog

/-- What a buffer holds. -/
def Kernel.bytes (s : Kernel) (b : BufPtr) : Block := (s.heap (s.buf b).data).bytes

/-- The buffers have pages of their own and are all in the list, and a block is in at most
one of them. -/
structure Kernel.CacheOk (s : Kernel) : Prop where
  pages : ∀ b c, (s.buf b).data = (s.buf c).data → b = c
  listed : ∀ b, b ∈ s.lru
  unique : ∀ b c, (s.buf b).dev = rootdev → (s.buf c).dev = rootdev →
    (s.buf b).blockno = (s.buf c).blockno → b = c

/-- The buffer holds the block `blk` of the root device. -/
structure Kernel.Holds (s : Kernel) (b : BufPtr) (blk : Nat) : Prop where
  valid : (s.buf b).valid = true
  dev : (s.buf b).dev = rootdev
  blockno : (s.buf b).blockno = blk

theorem Kernel.Holds.congr {s t : Kernel} {b : BufPtr} {blk : Nat} (h : s.Holds b blk)
    (hbuf : t.buf b = s.buf b) : t.Holds b blk :=
  ⟨hbuf ▸ h.valid, hbuf ▸ h.dev, hbuf ▸ h.blockno⟩

/-! ## Single steps on buffers -/

@[simp] theorem setBuf_self (s : Kernel) (b : BufPtr) (f : Buf → Buf) :
    (s.setBuf b f).buf b = f (s.buf b) := by simp [Kernel.setBuf]

theorem setBuf_of_ne {s : Kernel} {b c : BufPtr} {f : Buf → Buf} (h : c ≠ b) :
    (s.setBuf b f).buf c = s.buf c := by simp [Kernel.setBuf, h]

theorem setBuf_setBuf (s : Kernel) (b : BufPtr) (f g : Buf → Buf) :
    (s.setBuf b f).setBuf b g = s.setBuf b (g ∘ f) := by simp [Kernel.setBuf]

theorem setLock_eq (s : Kernel) (l : Sleeplock) (b : BufPtr) :
    s.setLock l (.buf b) = s.setBuf b fun x => { x with lock := l } := rfl

/-- A change of a buffer's header leaves what the buffers hold. -/
theorem bytes_setBuf {s : Kernel} {b : BufPtr} {f : Buf → Buf} (h : (f (s.buf b)).data = (s.buf b).data)
    (c : BufPtr) : (s.setBuf b f).bytes c = s.bytes c := by
  by_cases e : c = b
  · subst e
    simp [Kernel.bytes, h, Kernel.setBuf]
  · simp [Kernel.bytes, Kernel.setBuf, e]

/-- A store through the pointer of one buffer. -/
def Kernel.setBytes (s : Kernel) (b : BufPtr) (f : Block → Block) : Kernel :=
  s.setPage (s.buf b).data fun d => { d with bytes := f d.bytes }

theorem bytes_setBytes_self (s : Kernel) (b : BufPtr) (f : Block → Block) :
    (s.setBytes b f).bytes b = f (s.bytes b) := by simp [Kernel.setBytes, Kernel.setPage, Kernel.bytes]

theorem bytes_setBytes_of_ne {s : Kernel} (h : s.CacheOk) {b c : BufPtr} {f : Block → Block}
    (hne : c ≠ b) : (s.setBytes b f).bytes c = s.bytes c := by
  have hpage : (s.buf c).data ≠ (s.buf b).data := fun e => hne (h.pages c b e)
  simp [Kernel.setBytes, Kernel.setPage, Kernel.bytes, hpage]

theorem setBufBytes_eq (b : BufPtr) (f : Block → Block) :
    setBufBytes b f = .update fun s => s.setBytes b f := rfl

theorem diskRead_eq (s : Kernel) (b : BufPtr) :
    s.diskRead b = s.setBytes b fun _ => s.disk (s.buf b).blockno := rfl

theorem brelse_eq (s : Kernel) (b : BufPtr) :
    ∃ l, s.brelse b = { s.setBuf b (fun x => { x with refcnt := x.refcnt - 1 }) with lru := l } := by
  unfold Kernel.brelse
  dsimp only
  split
  · exact ⟨_, rfl⟩
  · exact ⟨_, rfl⟩

/-- What `brelse` leaves of a buffer. -/
theorem brelse_same (s : Kernel) (b c : BufPtr) :
    ((s.brelse b).buf c).valid = (s.buf c).valid ∧ ((s.brelse b).buf c).dev = (s.buf c).dev ∧
      ((s.brelse b).buf c).blockno = (s.buf c).blockno ∧ (s.brelse b).bytes c = s.bytes c := by
  have hbytes := bytes_setBuf (s := s) (b := b) (f := fun x => { x with refcnt := x.refcnt - 1 }) rfl c
  obtain ⟨l, hl⟩ := brelse_eq s b
  rw [hl]
  refine ⟨?_, ?_, ?_, hbytes⟩
  all_goals
    by_cases e : c = b
    · subst e; simp
    · simp only [setBuf_of_ne e]

namespace Kernel.CacheOk
variable {s : Kernel} {b : BufPtr}

theorem setBuf {f : Buf → Buf} (h : s.CacheOk) (hdata : (f (s.buf b)).data = (s.buf b).data)
    (hu : ∀ c, c ≠ b → (f (s.buf b)).dev = rootdev → (s.buf c).dev = rootdev →
      (f (s.buf b)).blockno ≠ (s.buf c).blockno) : (s.setBuf b f).CacheOk where
  pages c c' hc := by
    have hd : ∀ y, ((s.setBuf b f).buf y).data = (s.buf y).data := by
      intro y
      by_cases e : y = b
      · subst e; rw [setBuf_self, hdata]
      · rw [setBuf_of_ne e]
    rw [hd, hd] at hc
    exact h.pages c c' hc
  listed := h.listed
  unique c c' hc hc' hblk := by
    by_cases e : c = b
    · by_cases e' : c' = b
      · rw [e, e']
      · subst e
        rw [setBuf_self] at hc hblk
        rw [setBuf_of_ne e'] at hc' hblk
        exact absurd hblk (hu c' e' hc hc')
    · rw [setBuf_of_ne e] at hc hblk
      by_cases e' : c' = b
      · subst e'
        rw [setBuf_self] at hc' hblk
        exact absurd hblk.symm (hu c e hc' hc)
      · rw [setBuf_of_ne e'] at hc' hblk
        exact h.unique c c' hc hc' hblk

/-- A change that keeps the buffer's place. -/
theorem setBuf_same {f : Buf → Buf} (h : s.CacheOk) (hdata : (f (s.buf b)).data = (s.buf b).data)
    (hdev : (f (s.buf b)).dev = (s.buf b).dev) (hblk : (f (s.buf b)).blockno = (s.buf b).blockno) :
    (s.setBuf b f).CacheOk := by
  refine h.setBuf hdata fun c hne hd hc e => hne ?_
  rw [hdev] at hd
  rw [hblk] at e
  exact (h.unique b c hd hc e).symm

theorem setBytes (h : s.CacheOk) (b : BufPtr) (f : Block → Block) : (s.setBytes b f).CacheOk :=
  ⟨h.pages, h.listed, h.unique⟩

theorem brelse (h : s.CacheOk) (b : BufPtr) : (s.brelse b).CacheOk := by
  have hs := h.setBuf_same (b := b) (f := fun x => { x with refcnt := x.refcnt - 1 }) rfl rfl rfl
  unfold Kernel.brelse
  dsimp only
  split
  · refine ⟨hs.pages, fun c => ?_, hs.unique⟩
    by_cases e : c = b
    · simp [e]
    · exact List.mem_cons_of_mem _ ((List.mem_erase_of_ne e).mpr (hs.listed c))
  · exact hs

end Kernel.CacheOk

/-- A buffer without references is enough for `bget`. -/
theorem bget_ne_none {s : Kernel} {b : BufPtr} (hb : b ∈ s.lru) (hr : (s.buf b).refcnt = 0)
    (dev blockno : Nat) : (s.bget dev blockno).1 ≠ none := by
  unfold Kernel.bget
  split
  · simp
  · split
    · simp
    next hnone =>
      have := List.find?_eq_none.mp hnone b (List.mem_reverse.mpr hb)
      simp [hr] at this

end Txv6
