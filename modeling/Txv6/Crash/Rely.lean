import Txv6.Crash.Total

/-! # What a step leaves to the other processes -/
namespace Txv6
open Lib Lib.Prog

variable {s t : Kernel} {g : ProcPtr → Share} {p : ProcPtr} {a : Share} {h : Hist}
  {o : Option (ProcPtr × CommitPhase)} {b : BufPtr} {x : Nat} {q : ProcPtr}

namespace LogRely

theorem refl (a : Share) (s : Kernel) : LogRely a s s :=
  ⟨rfl, fun _ _ => rfl, fun _ _ => ⟨rfl, rfl⟩, fun _ _ => rfl, fun _ _ _ => rfl, fun _ => rfl⟩

theorem trans {u : Kernel} (h : LogRely a s t) (h' : LogRely a t u) : LogRely a s u where
  sb := h'.sb.trans h.sb
  valid b hb := (h'.valid b hb).trans (h.valid b hb)
  place b hb := ⟨(h'.place b hb).1.trans (h.place b hb).1, (h'.place b hb).2.trans (h.place b hb).2⟩
  bytes b hb := (h'.bytes b hb).trans (h.bytes b hb)
  disk b hb hd := by
    obtain ⟨hdev, hblk⟩ := h.place b (Share.uses_pos_of_held hb)
    have := h'.disk b hb (hdev.trans hd)
    rw [hblk] at this
    exact this.trans (h.disk b hb hd)
  lh hp := (h'.lh hp).trans (h.lh hp)

/-- What a process holds, it goes on holding. -/
theorem holds (h : LogRely a s t) (hb : b ∈ a.held) (hx : s.Holds b x) : t.Holds b x := by
  obtain ⟨hdev, hblk⟩ := h.place b (Share.uses_pos_of_held hb)
  exact ⟨(h.valid b hb).trans hx.valid, hdev.trans hx.dev, hblk.trans hx.blockno⟩

theorem of_sameBufs (hb : SameBufs s t) (hdisk : t.disk = s.disk) (hsb : t.sb = s.sb)
    (hlh : a.phase ≠ none → t.log.lh = s.log.lh) : LogRely a s t :=
  ⟨hsb, fun b _ => (hb b).1, fun b _ => ⟨(hb b).2.1, (hb b).2.2.1⟩, fun b _ => (hb b).2.2.2,
    fun _ _ _ => by rw [hdisk], hlh⟩

theorem of_setBytes {f : Block → Block} (hc : s.CacheOk) (hb : b ∉ a.held) : LogRely a s (s.setBytes b f) :=
  ⟨rfl, fun _ _ => rfl, fun _ _ => ⟨rfl, rfl⟩,
    fun _ hm => bytes_setBytes_of_ne hc (ne_of_mem_of_not_mem hm hb), fun _ _ _ => rfl, fun _ => rfl⟩

theorem of_diskWrite (hc : s.CacheOk) (hx : s.Holds b x) (hb : b ∉ a.held) : LogRely a s (s.diskWrite b) := by
  refine ⟨rfl, fun _ _ => rfl, fun _ _ => ⟨rfl, rfl⟩, fun _ _ => rfl, fun c hm hd => ?_, fun _ => rfl⟩
  rw [diskWrite_disk hx]
  refine Function.update_of_ne (fun e => ?_) _ _
  have ec := hc.unique c b hd hx.dev (e.trans hx.blockno.symm)
  exact hb (ec ▸ hm)

theorem of_setBuf {f : Buf → Buf} (hdata : (f (s.buf b)).data = (s.buf b).data)
    (hb : a.uses b = 0) : LogRely a s (s.setBuf b f) := by
  have hne : ∀ c, 0 < a.uses c → c ≠ b := by
    rintro c hc rfl
    rw [hb] at hc
    exact absurd hc (lt_irrefl _)
  refine ⟨rfl, fun c hm => ?_, fun c hc => ?_, fun c _ => bytes_setBuf hdata c, fun c _ _ => rfl, fun _ => rfl⟩
  · rw [setBuf_of_ne (hne c (Share.uses_pos_of_held hm))]
  · rw [setBuf_of_ne (hne c hc)]
    exact ⟨rfl, rfl⟩

end LogRely

namespace LogTot

section
variable (ht : LogTot o (s, h) g)
include ht

end

end LogTot
end Txv6
