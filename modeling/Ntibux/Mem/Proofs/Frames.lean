/-
How many frames `get_free_frame` still has to give.

`Frames.avail` counts the clear bits of the bitmap, with one catch of
the source built in: a clear bit 0 makes `get_free_frame` answer 0,
which its caller reads as "none", so then there is nothing to give at
all. `alloc_frame` panics exactly at `avail = 0` and otherwise takes one
away (`allocFrame_outcome`).
-/
import Ntibux.Mem.Proofs.Paging
import Mathlib.Data.Finset.Card
import Mathlib.Order.Interval.Finset.Nat

namespace Ntibux

namespace Frames

variable {f : Frames} {n i j w : Nat}

/-- Frame number `n` is not marked. -/
def Unused (f : Frames) (n : Nat) : Prop :=
  (f.words (index n)).testBit (off n) = false

instance (f : Frames) (n : Nat) : Decidable (f.Unused n) :=
  inferInstanceAs (Decidable (_ = _))

/-- The number of frames that `get_free_frame` can still give. -/
def avail (f : Frames) : Nat :=
  if f.Unused 0 then 0
  else ((Finset.range (32 * index f.nframes)).filter f.Unused).card

/-- The test for one bit. -/
theorem and_bit_eq_zero : w &&& 1 <<< j = 0 ↔ w.testBit j = false := by
  rw [Nat.one_shiftLeft, Nat.and_two_pow]
  have hpos := Nat.two_pow_pos j
  cases w.testBit j <;> simp

-- ============================================================= clear bits

theorem of_clearBit_some (h : clearBit w = some j) :
    j < 32 ∧ w.testBit j = false := by
  unfold clearBit at h
  have hm := List.mem_of_find?_eq_some h
  have hp := List.find?_some h
  exact ⟨List.mem_range.mp hm, and_bit_eq_zero.mp (by simpa using hp)⟩

theorem of_clearBit_none (h : clearBit w = none) (hj : j < 32) :
    w.testBit j = true := by
  unfold clearBit at h
  have hp := List.find?_eq_none.mp h j (List.mem_range.mpr hj)
  simpa [and_bit_eq_zero] using hp

/-- What the scan of one word finds. -/
theorem word_none (h : (if f.words i = 0xffffffff then none
    else (clearBit (f.words i)).map fun j => u32 ((i * 32 + j) <<< 12))
      = none) (hj : j < 32) : (f.words i).testBit j = true := by
  split at h
  case isTrue hw =>
    rw [hw, show (0xffffffff : Nat) = 2 ^ 32 - 1 from rfl,
      Nat.testBit_two_pow_sub_one]
    simpa using hj
  case isFalse => exact of_clearBit_none (Option.map_eq_none_iff.mp h) hj

/-- A stretch of clear words is that many frames, if frame 0 is used. -/
theorem le_avail {c : Nat} (h0 : ¬ f.Unused 0)
    (hz : ∀ j < c, f.words (i + j) = 0) (hle : i + c ≤ index f.nframes) :
    32 * c ≤ f.avail := by
  unfold avail
  rw [if_neg h0]
  have hsub : Finset.Ico (32 * i) (32 * (i + c))
      ⊆ (Finset.range (32 * index f.nframes)).filter f.Unused := by
    intro n hn
    obtain ⟨h1, h2⟩ := Finset.mem_Ico.mp hn
    refine Finset.mem_filter.mpr ⟨Finset.mem_range.mpr (by omega), ?_⟩
    have hw : f.words (index n) = 0 := by
      have hx : index n = i + (index n - i) := by
        unfold index
        omega
      rw [hx]
      refine hz _ ?_
      unfold index
      omega
    unfold Unused
    rw [hw, Nat.zero_testBit]
  have hcard := Finset.card_le_card hsub
  rw [Nat.card_Ico] at hcard
  omega

/-- On a machine of 4 GiB not every frame is available: frame 0 is in use,
or none is. -/
theorem avail_lt (hn : f.nframes ≤ 2 ^ 20) : f.avail < 2 ^ 20 := by
  unfold avail
  split
  case isTrue => decide
  case isFalse h0 =>
    have hsub : (Finset.range (32 * index f.nframes)).filter f.Unused
        ⊆ (Finset.range (2 ^ 20)).erase 0 := by
      intro n hn'
      obtain ⟨hlt, hu⟩ := Finset.mem_filter.mp hn'
      have hlt := Finset.mem_range.mp hlt
      refine Finset.mem_erase.mpr ⟨fun h => h0 (h ▸ hu),
        Finset.mem_range.mpr ?_⟩
      unfold index at hlt
      omega
    have hcard := Finset.card_le_card hsub
    rw [Finset.card_erase_of_mem (Finset.mem_range.mpr (by decide)),
      Finset.card_range] at hcard
    omega

/-- The first index at which a scan finds something. -/
theorem findSome?_range {α : Type} {N : Nat} {g : Nat → Option α} {b : α}
    (h : (List.range N).findSome? g = some b) :
    ∃ i < N, g i = some b ∧ ∀ j < i, g j = none := by
  induction N with
  | zero => cases h
  | succ N ih =>
      rw [List.range_succ, List.findSome?_append] at h
      cases hN : (List.range N).findSome? g with
      | some b' =>
          rw [hN] at h
          obtain ⟨i, hi, hb, hnone⟩ := ih (hN.trans h)
          exact ⟨i, Nat.lt_succ_of_lt hi, hb, hnone⟩
      | none =>
          rw [hN] at h
          refine ⟨N, Nat.lt_succ_self N, by simpa using h, ?_⟩
          intro j hj
          exact List.findSome?_eq_none_iff.mp hN j (List.mem_range.mpr hj)

/-- `get_free_frame` gives the address of the lowest unused frame, in 32
bits, and 0 if there is none. -/
theorem getFreeFrame_lowest (f : Frames) :
    (∃ n < 32 * index f.nframes, f.Unused n ∧ (∀ k < n, ¬f.Unused k)
        ∧ f.getFreeFrame = u32 (n * 4096))
      ∨ ((∀ n < 32 * index f.nframes, ¬f.Unused n)
        ∧ f.getFreeFrame = 0) := by
  have hoff : ∀ i j, j < 32 → off (i * 32 + j) = j
      ∧ index (i * 32 + j) = i := by
    intro i j hj
    unfold off index
    omega
  unfold getFreeFrame
  cases hs : (List.range (index f.nframes)).findSome? fun i =>
    if f.words i = 0xffffffff then none
    else (clearBit (f.words i)).map fun j => u32 ((i * 32 + j) <<< 12) with
  -- every word is full
  | none =>
      refine Or.inr ⟨?_, rfl⟩
      intro n hn hu
      have hall := List.findSome?_eq_none_iff.mp hs (index n)
        (List.mem_range.mpr (by unfold index at hn ⊢; omega))
      have hbit : (f.words (index n)).testBit (off n) = true :=
        word_none hall (Nat.mod_lt _ (by omega))
      unfold Unused at hu
      rw [hbit] at hu
      cases hu
  | some v =>
      left
      obtain ⟨i, hi, hv, hbelow⟩ := findSome?_range hs
      split at hv
      case isTrue => cases hv
      case isFalse =>
        obtain ⟨j, hj, rfl⟩ := Option.map_eq_some_iff.mp hv
        obtain ⟨hj32, hbit⟩ := of_clearBit_some hj
        obtain ⟨-, -, hjbelow⟩ := List.find?_range_eq_some.mp hj
        obtain ⟨ho, hx⟩ := hoff i j hj32
        refine ⟨i * 32 + j, by omega, ?_, ?_, ?_⟩
        · unfold Unused
          rw [ho, hx]
          exact hbit
        · intro k hk huk
          unfold Unused at huk
          -- below it, the frames of a full word or those before the bit
          rcases Nat.lt_or_ge (index k) i with hki | hki
          · have hbit := word_none (hbelow _ hki) (Nat.mod_lt k (by decide))
            have hfalse := huk.symm.trans hbit
            cases hfalse
          · have hik : index k = i := by
              unfold index at hki ⊢
              omega
            have hoff : off k < j := by
              unfold index at hik
              unfold off
              omega
            have hno := hjbelow _ hoff
            rw [hik] at huk
            rw [and_bit_eq_zero.mpr huk] at hno
            cases hno
        · rw [Option.getD_some, Nat.shiftLeft_eq]

/-- Nothing is available, and `get_free_frame` says 0; or it says an
unused frame, not frame 0. -/
theorem getFreeFrame_cases (hn : f.nframes ≤ 2 ^ 20) :
    (f.avail = 0 ∧ f.getFreeFrame = 0)
      ∨ (0 < f.avail ∧ ∃ n, 0 < n ∧ n < 32 * index f.nframes
        ∧ f.Unused n ∧ f.getFreeFrame = n * 4096) := by
  rcases f.getFreeFrame_lowest with ⟨n, hlt, hu, hlow, hf⟩ | ⟨hnone, hf⟩
  · by_cases h0 : n = 0
    · -- the scan stops at frame 0
      subst h0
      exact Or.inl ⟨if_pos hu, hf⟩
    · right
      have hpos : 0 < n := Nat.pos_of_ne_zero h0
      refine ⟨?_, n, hpos, hlt, hu, ?_⟩
      · unfold avail
        rw [if_neg (hlow 0 hpos), Finset.card_pos]
        exact ⟨n, Finset.mem_filter.mpr ⟨Finset.mem_range.mpr hlt, hu⟩⟩
      · rw [hf, u32_of_lt]
        unfold index at hlt
        omega
  · refine Or.inl ⟨?_, hf⟩
    unfold avail
    split
    · rfl
    · rw [Finset.card_eq_zero, Finset.filter_eq_empty_iff]
      intro n hn
      exact hnone n (Finset.mem_range.mp hn)

/-- The frame that `get_free_frame` gives is the lowest unused one. -/
theorem getFreeFrame_least (hn : f.nframes ≤ 2 ^ 20)
    (h : f.getFreeFrame ≠ 0) :
    ∃ n, f.getFreeFrame = n * 4096 ∧ 0 < n ∧ n < 32 * index f.nframes
      ∧ f.Unused n ∧ ∀ k < n, ¬f.Unused k := by
  rcases f.getFreeFrame_lowest with ⟨n, hlt, hu, hlow, hf⟩ | ⟨-, hf⟩
  · have heq : f.getFreeFrame = n * 4096 := by
      rw [hf, u32_of_lt]
      unfold index at hlt
      omega
    refine ⟨n, heq, ?_, hlt, hu, hlow⟩
    rw [heq] at h
    exact Nat.pos_of_ne_zero fun h0 => h (by rw [h0])
  · exact absurd hf h

-- ============================================================ marked bits

/-- The bitmap with the bit of frame `n` set. -/
def marked (f : Frames) (n : Nat) : Frames :=
  { f with
    words := Function.update f.words (index n)
      (f.words (index n) ||| 1 <<< off n) }

@[simp] theorem nframes_marked : (f.marked n).nframes = f.nframes := rfl

/-- The frame at an address that is the frame's. -/
theorem shiftRight_mul (n : Nat) : (n * 4096) >>> 12 = n := by
  rw [Nat.shiftRight_eq_div_pow]
  omega

theorem markFrame_eq (hlt : n < 32 * index f.nframes) :
    f.markFrame (n * 4096) = .ret (f.marked n) := by
  have hin : index n < index f.nframes := by
    unfold index at hlt ⊢
    omega
  simp only [markFrame, shiftRight_mul, word, if_pos hin,
    Outcome.ret_bind, marked]

theorem isFree_eq (hlt : n < 32 * index f.nframes) (hu : f.Unused n) :
    f.isFree (n * 4096) = .ret true := by
  have hin : index n < index f.nframes := by
    unfold index at hlt ⊢
    omega
  simp only [isFree, shiftRight_mul, word, if_pos hin, Outcome.ret_bind]
  rw [and_bit_eq_zero.mpr hu]
  rfl

/-- Marking a frame takes away that frame only. -/
theorem unused_marked_iff (i : Nat) :
    (f.marked n).Unused i ↔ f.Unused i ∧ i ≠ n := by
  unfold Unused marked
  simp only
  by_cases hx : index i = index n
  · rw [hx, Function.update_self, Nat.testBit_or, Nat.one_shiftLeft,
      Nat.testBit_two_pow, Bool.or_eq_false_iff, decide_eq_false_iff_not]
    refine and_congr_right fun _ => not_congr ?_
    unfold index at hx
    unfold off
    omega
  · rw [Function.update_of_ne hx]
    refine (and_iff_left ?_).symm
    intro heq
    subst heq
    exact hx rfl

/-- Marking an unused frame other than frame 0 takes one away. -/
theorem avail_marked (h0 : 0 < f.avail) (hlt : n < 32 * index f.nframes)
    (hu : f.Unused n) :
    (f.marked n).avail + 1 = f.avail := by
  unfold avail at h0 ⊢
  split at h0
  case isTrue => omega
  case isFalse hz =>
    rw [if_neg fun hm => hz ((unused_marked_iff 0).mp hm).1]
    simp only [unused_marked_iff, if_neg hz, nframes_marked]
    have hsplit : (Finset.range (32 * index f.nframes)).filter
        (fun i => f.Unused i ∧ i ≠ n)
        = ((Finset.range (32 * index f.nframes)).filter
            f.Unused).erase n := by
      ext i
      simp only [Finset.mem_filter, Finset.mem_erase]
      tauto
    rw [hsplit]
    exact Finset.card_erase_add_one
      (Finset.mem_filter.mpr ⟨Finset.mem_range.mpr hlt, hu⟩)

end Frames

namespace Mem

variable {m : Mem}

/-- `alloc_frame` takes an unused frame as long as one is available. -/
theorem allocFrame_takes (p : PagePtr) (flags : Nat)
    (hn : m.frames.nframes ≤ 2 ^ 20) (h0 : 0 < m.frames.avail) :
    ∃ n, n < 32 * Frames.index m.frames.nframes ∧ m.frames.Unused n ∧
      m.allocFrame p flags = .ret (1,
        { m with frames := m.frames.marked n }.setPage p
          (claim (n * 4096) flags)) ∧
      (m.frames.marked n).avail + 1 = m.frames.avail := by
  rcases Frames.getFreeFrame_cases hn with ⟨h, -⟩ | ⟨-, n, hpos, hlt, hu, hf⟩
  · omega
  · refine ⟨n, hlt, hu, ?_, Frames.avail_marked h0 hlt hu⟩
    unfold allocFrame allocFrameAt
    dsimp only
    rw [hf, if_neg (by omega), Frames.isFree_eq hlt hu, Outcome.ret_bind,
      if_pos rfl, Frames.markFrame_eq hlt, Outcome.ret_bind]

/-- `alloc_frame` panics when nothing is available, and otherwise uses
up one frame. -/
theorem allocFrame_outcome (p : PagePtr) (flags : Nat)
    (hn : m.frames.nframes ≤ 2 ^ 20) :
    (m.frames.avail = 0
        ∧ m.allocFrame p flags = .panic "no available frame found")
      ∨ (0 < m.frames.avail ∧ ∃ m', m.allocFrame p flags = .ret (1, m')
        ∧ Claimed m m' ∧ m'.frames.avail + 1 = m.frames.avail) := by
  by_cases h0 : 0 < m.frames.avail
  · obtain ⟨n, -, -, heq, havail⟩ := allocFrame_takes p flags hn h0
    exact Or.inr ⟨h0, _, heq, ⟨rfl, rfl, rfl, rfl⟩, havail⟩
  · have hz : m.frames.avail = 0 := by omega
    refine Or.inl ⟨hz, ?_⟩
    rcases Frames.getFreeFrame_cases hn with ⟨-, hf⟩ | ⟨h, -⟩
    · unfold allocFrame
      dsimp only
      rw [hf, if_pos rfl]
    · omega

end Mem

end Ntibux
