/-
What `map_range` can do to the heap that is calling it.

Growth runs under the heap's lock, so the only way out of `get_page` is
a directory entry that already has its table: a missing one sends it
into `kheap::alloc`, which never gets past the lock
(`Kalloc.StopsLocked`). A mapping that returns has therefore touched the
bitmap, the tables it found, and the bytes of the pages it mapped, and
nothing else (`Mapped`).
-/
import Ntibux.Mem.Paging
import Mathlib.Data.Nat.Bitwise
import Mathlib.Tactic.Ring

namespace Ntibux

/-- The allocator does not return while the heap's lock is held. -/
def Kalloc.StopsLocked (kalloc : Kalloc) : Prop :=
  ∀ size flags m r, m.kheap.locked = true → kalloc size flags m ≠ .ret r

-- ============================================================ page masks

/-- `& 0xfffff000` leaves a page address alone. -/
theorem pageMask_of_dvd {a : Nat} (ha : 4096 ∣ a) (hlt : a < 2 ^ 32) :
    a &&& 0xfffff000 = a := by
  obtain ⟨q, rfl⟩ := ha
  have hq : q < 2 ^ 20 := by omega
  have h1 : 4096 * q = q <<< 12 := by
    rw [Nat.shiftLeft_eq]
    ring
  have h2 : (0xfffff000 : Nat) = (2 ^ 20 - 1) <<< 12 := rfl
  rw [h1, h2, ← Nat.shiftLeft_and_distrib,
    Nat.and_two_pow_sub_one_of_lt_two_pow hq]

namespace Mem

variable {kalloc : Kalloc} {m m' : Mem} {p : PagePtr}
  {a v r flags frame range i fuel : Nat}

-- ====================================================== frames and tables

@[simp] theorem setPage_kheap : (m.setPage p v).kheap = m.kheap := rfl

@[simp] theorem setPage_bytes : (m.setPage p v).bytes = m.bytes := rfl

@[simp] theorem setPage_frames : (m.setPage p v).frames = m.frames := rfl

@[simp] theorem setPage_currentPd :
    (m.setPage p v).currentPd = m.currentPd := rfl

@[simp] theorem mmu_kheap : (m.mmu a p).kheap = m.kheap := by
  unfold mmu
  split <;> rfl

@[simp] theorem mmu_frames : (m.mmu a p).frames = m.frames := by
  unfold mmu
  split <;> rfl

@[simp] theorem mmu_currentPd : (m.mmu a p).currentPd = m.currentPd := by
  unfold mmu
  split <;> rfl

/-- The MMU changes what is read in its own page only. -/
theorem mmu_bytes_of_out {x : Nat} (h : x < a ∨ a + PAGESIZE ≤ x) :
    (m.mmu a p).bytes x = m.bytes x := by
  unfold mmu
  split
  · exact if_neg (by omega)
  · rfl

/-- What a claimed frame leaves alone. -/
structure Claimed (m m' : Mem) : Prop where
  kheap : m'.kheap = m.kheap
  bytes : m'.bytes = m.bytes
  currentPd : m'.currentPd = m.currentPd
  nframes : m'.frames.nframes = m.frames.nframes

/-- A frame that is claimed where it was asked for touches no memory. -/
theorem allocFrameAt_claimed
    (h : m.allocFrameAt p frame flags = .ret (r, m')) : Claimed m m' := by
  unfold allocFrameAt at h
  obtain ⟨free, -, h⟩ := Outcome.bind_eq_ret.mp h
  split at h
  case isTrue =>
    obtain ⟨frames, hf, h⟩ := Outcome.bind_eq_ret.mp h
    obtain ⟨w, -, hf⟩ := Outcome.bind_eq_ret.mp hf
    cases hf
    cases h
    exact ⟨rfl, rfl, rfl, rfl⟩
  case isFalse =>
    cases h
    exact ⟨rfl, rfl, rfl, rfl⟩

/-- Nor does the first free one. -/
theorem allocFrame_claimed (h : m.allocFrame p flags = .ret (r, m')) :
    Claimed m m' := by
  simp only [allocFrame] at h
  split at h
  · cases h
  · exact allocFrameAt_claimed h

/-- Under the lock, `get_page` returns only where the directory already
has a table, and changes nothing. -/
theorem getPage_locked (hk : kalloc.StopsLocked)
    (hl : m.kheap.locked = true)
    (h : m.getPage kalloc a = .ret (p, m')) : m' = m := by
  simp only [getPage] at h
  split at h
  case isFalse =>
    cases h
    rfl
  case isTrue =>
    split at h
    case isTrue =>
      obtain ⟨q, hq, -⟩ := Outcome.bind_eq_ret.mp h
      exact absurd hq (hk _ _ _ _ hl)
    case isFalse =>
      obtain ⟨q, hq, -⟩ := Outcome.bind_eq_ret.mp h
      unfold unpagedAlloc at hq
      rw [if_pos hl] at hq
      cases hq

-- =============================================================== mapping

/-- The effect of mapping under the lock: the heap and the directory are
as before, and memory reads as before outside `[a, a + n)`. -/
structure Mapped (m m' : Mem) (a n : Nat) : Prop where
  kheap : m'.kheap = m.kheap
  currentPd : m'.currentPd = m.currentPd
  nframes : m'.frames.nframes = m.frames.nframes
  bytes : ∀ x, x < a ∨ a + n ≤ x → m'.bytes x = m.bytes x

theorem Mapped.refl (m : Mem) (a n : Nat) : Mapped m m a n :=
  ⟨rfl, rfl, rfl, fun _ _ => rfl⟩

/-- Two neighbouring ranges mapped one after the other. -/
theorem Mapped.trans {m₁ : Mem} {n n' : Nat} (h : Mapped m m₁ a n)
    (h' : Mapped m₁ m' (a + n) n') : Mapped m m' a (n + n') := by
  refine ⟨h'.kheap.trans h.kheap, h'.currentPd.trans h.currentPd,
    h'.nframes.trans h.nframes, ?_⟩
  intro x hx
  rw [h'.bytes x (by omega), h.bytes x (by omega)]

/-- One page mapped under the lock. -/
theorem map_mapped (hk : kalloc.StopsLocked) (hl : m.kheap.locked = true)
    (ha : 4096 ∣ a) (halt : a < 2 ^ 32)
    (h : m.map kalloc a flags = .ret (r, m')) :
    Mapped m m' a PAGESIZE := by
  simp only [map, pageMask_of_dvd ha halt] at h
  obtain ⟨⟨q, m₁⟩, hp, h₁⟩ := Outcome.bind_eq_ret.mp h
  rw [getPage_locked hk hl hp] at h₁
  obtain ⟨⟨r', m₂⟩, hf, h₂⟩ := Outcome.bind_eq_ret.mp h₁
  have hc := allocFrame_claimed hf
  obtain ⟨rfl, rfl⟩ : r' = r ∧ _ = m' := by
    simpa only [Outcome.ret.injEq, Prod.mk.injEq] using h₂
  split
  · exact ⟨hc.kheap, hc.currentPd, hc.nframes, fun x _ => by rw [hc.bytes]⟩
  · refine ⟨by rw [mmu_kheap, hc.kheap], by rw [mmu_currentPd, hc.currentPd],
      by rw [mmu_frames, hc.nframes], fun x hx => ?_⟩
    rw [mmu_bytes_of_out hx, hc.bytes]

/-- The loop of `map_range` under the lock, from a page offset. -/
theorem mapRangeLoop_mapped (hk : kalloc.StopsLocked)
    (hl : m.kheap.locked = true) (ha : 4096 ∣ a) (hr : 4096 ∣ range)
    (hi : 4096 ∣ i) (hle : i ≤ range) (hpos : 0 < a)
    (hend : a + range ≤ 2 ^ 32)
    (h : mapRangeLoop kalloc a range flags fuel i m = .ret m') :
    Mapped m m' (a + i) (range - i) := by
  induction fuel generalizing i m with
  | zero => cases h
  | succ fuel ih =>
      unfold mapRangeLoop at h
      split at h
      case isFalse hge =>
        cases h
        exact Mapped.refl ..
      case isTrue hlt =>
        obtain ⟨⟨r, m₁⟩, hmap, h⟩ := Outcome.bind_eq_ret.mp h
        have hnext : i + 4096 ≤ range := by omega
        rw [u32_of_lt (by omega)] at hmap
        have hm := map_mapped hk hl (Nat.dvd_add ha hi) (by omega) hmap
        simp only at h
        split at h
        case isTrue => cases h
        case isFalse =>
          unfold PAGESIZE at h hm
          rw [u32_of_lt (by omega)] at h
          have hrec := ih (by rw [hm.kheap]; exact hl)
            (Nat.dvd_add hi (Nat.dvd_refl _)) hnext h
          have hsum : range - i = 4096 + (range - (i + 4096)) := by omega
          rw [hsum]
          exact hm.trans (by rw [Nat.add_assoc]; exact hrec)

/-- `map_range` under the lock. -/
theorem mapRange_mapped (hk : kalloc.StopsLocked)
    (hl : m.kheap.locked = true) (ha : 4096 ∣ a) (hr : 4096 ∣ range)
    (hpos : 0 < a) (hrpos : 0 < range) (hend : a + range ≤ 2 ^ 32)
    (h : m.mapRange kalloc fuel a range flags = .ret (r, m')) :
    Mapped m m' a range := by
  unfold mapRange at h
  rw [pageMask_of_dvd ha (by omega)] at h
  obtain ⟨m₁, hloop, h⟩ := Outcome.bind_eq_ret.mp h
  cases h
  have hm := mapRangeLoop_mapped hk hl ha hr (Nat.dvd_zero _)
    (Nat.zero_le _) hpos hend hloop
  simpa using hm

end Mem

end Ntibux
