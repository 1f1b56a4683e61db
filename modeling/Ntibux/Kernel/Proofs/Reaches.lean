/-
What a client of the heap can bring about.

The scheduler's calls take and give back blocks, and write into blocks in
use or outside the reserve. Each of these is a step of the heap's own
machine, so a call leaves a heap that the machine reaches (`Reaches`),
and what holds along every run of the heap holds under the scheduler.

A call writes a lot at once, and the machine a byte at a time:
`Reaches.writes` is the bridge. Byte by byte the blocks in use come to
what the call leaves in them (`Reaches.bytes_below`), and what is outside
the reserve follows in one step.
-/
import Ntibux.Kernel.RunList

namespace Ntibux

namespace HeapState

variable {h h₁ h' : HeapState} {m m' : Mem} {live : List Block} {e : Event}

/-- What the heap's clients may do takes the heap from `h` to `h'`. -/
def Reaches (h h' : HeapState) : Prop := ∃ tr, Run h tr h'

namespace Reaches

theorem refl (h : HeapState) : Reaches h h := ⟨[], .nil⟩

theorem trans (hr : Reaches h h₁) (hr' : Reaches h₁ h') : Reaches h h' := by
  obtain ⟨tr, hr⟩ := hr
  obtain ⟨tr', hr'⟩ := hr'
  exact ⟨tr ++ tr', hr.append hr'⟩

theorem step (hs : Step h e h') : Reaches h h' := ⟨_, .snoc .nil hs⟩

/-- The blocks in use, written byte by byte up to `n`. -/
theorem bytes_below (m : Mem) (bytes : Bytes) (live : List Block) (n : Nat) :
    ∃ p : Mem, Reaches ⟨m, live⟩ ⟨p, live⟩ ∧ p.kheap = m.kheap ∧
      p.frames = m.frames ∧
      (∀ x, p.bytes x = m.bytes x ∨ p.bytes x = bytes x) ∧
      ∀ x < n, (∃ b ∈ live, b.Has x) → p.bytes x = bytes x := by
  induction n with
  | zero => exact ⟨m, .refl _, rfl, rfl, fun _ => .inl rfl, nofun⟩
  | succ n ih =>
      obtain ⟨p, hr, hk, hf, heither, hbelow⟩ := ih
      by_cases hin : ∃ b ∈ live, b.Has n
      · obtain ⟨b, hb, hx⟩ := hin
        have hself : (p.storeByte n (bytes n)).bytes n = bytes n :=
          Function.update_self ..
        have hother : ∀ x, x ≠ n →
            (p.storeByte n (bytes n)).bytes x = p.bytes x :=
          fun x hne => Function.update_of_ne hne ..
        refine ⟨p.storeByte n (bytes n), hr.trans (step (.write hb hx)), hk,
          hf, fun x => ?_, fun x hlt hcov => ?_⟩
        · rcases eq_or_ne x n with rfl | hne
          · exact .inr hself
          · rw [hother x hne]
            exact heither x
        · rcases eq_or_ne x n with rfl | hne
          · exact hself
          · rw [hother x hne]
            exact hbelow x (by omega) hcov
      · refine ⟨p, hr, hk, hf, heither, fun x hlt hcov => ?_⟩
        rcases Nat.lt_succ_iff_lt_or_eq.mp hlt with hlt | rfl
        · exact hbelow x hlt hcov
        · exact absurd hcov hin

/-- What is written into the blocks in use and outside the reserve. -/
theorem writes (hk : m'.kheap = m.kheap) (hf : m'.frames = m.frames)
    (hloose : ∀ x, (⟨m, live⟩ : HeapState).reserve.Has x →
      (∀ b ∈ live, ¬b.Has x) → m'.bytes x = m.bytes x) :
    Reaches ⟨m, live⟩ ⟨m', live⟩ := by
  obtain ⟨p, hr, hpk, hpf, heither, hbelow⟩ := bytes_below m m'.bytes live
    (⟨m, live⟩ : HeapState).reserve.fin
  have hres : (⟨p, live⟩ : HeapState).reserve
      = (⟨m, live⟩ : HeapState).reserve := by
    unfold reserve
    rw [show (⟨p, live⟩ : HeapState).mem = p from rfl, hpk]
  refine hr.trans (step (.outside (s := ⟨p, live⟩) (hk.trans hpk.symm)
    (by rw [hf, ← hpf]) fun x hx => ?_))
  rw [hres] at hx
  by_cases hcov : ∃ b ∈ live, b.Has x
  · exact (hbelow x hx.2 hcov).symm
  · have hsame := hloose x hx fun b hb hbx => hcov ⟨b, hb, hbx⟩
    rcases heither x with h | h
    · rw [h, hsame]
    · exact h.symm

end Reaches

end HeapState

end Ntibux
