/-
The bits of a word: how many there are, and how long it is. The two agree
exactly for the words that are filled from the bottom. Over the words of a
bitmap, the lengths add up to the number of bits exactly if every word is
such a one.
-/
import Mathlib.Data.Nat.Count
import Mathlib.Data.Nat.Size

namespace Ntibux

variable {w n N : Nat}

/-- Whatever `P` holds of up to `n`, it holds of everything below. -/
def Filled (P : Nat → Prop) (n : Nat) : Prop :=
  ∀ j < n, P j → ∀ k < j, P k

instance (P : Nat → Prop) [DecidablePred P] (n : Nat) :
    Decidable (Filled P n) :=
  inferInstanceAs (Decidable (∀ j < n, P j → ∀ k < j, P k))

theorem lt_size_of_testBit {j : Nat} (h : w.testBit j = true) :
    j < w.size := by
  rw [Nat.lt_size]
  exact Nat.ge_two_pow_of_testBit h

/-- The top bit of a word is set. -/
theorem testBit_size_pred (h : w ≠ 0) : w.testBit (w.size - 1) = true := by
  have hpos : 0 < w.size := Nat.size_pos.mpr (Nat.pos_of_ne_zero h)
  have hle : 2 ^ (w.size - 1) ≤ w := Nat.lt_size.mp (by omega)
  have hlt : w < 2 ^ (w.size - 1 + 1) := by
    rw [Nat.sub_add_cancel hpos]
    exact Nat.lt_size_self w
  exact Nat.testBit_of_two_pow_le_and_two_pow_add_one_gt hle hlt

/-- The bits of a word are below its length. -/
theorem count_bits_eq (hw : w < 2 ^ n) :
    Nat.count (fun j => w.testBit j = true) n
      = Nat.count (fun j => w.testBit j = true) w.size := by
  obtain ⟨d, rfl⟩ := Nat.exists_eq_add_of_le (Nat.size_le.mpr hw)
  rw [Nat.count_add, Nat.add_eq_left, Nat.count_iff_forall_not]
  intro m _ hm
  have hlt := lt_size_of_testBit hm
  omega

theorem count_bits_le (hw : w < 2 ^ n) :
    Nat.count (fun j => w.testBit j = true) n ≤ w.size := by
  rw [count_bits_eq hw]
  exact Nat.count_le _

theorem count_bits_eq_iff (hw : w < 2 ^ n) :
    Nat.count (fun j => w.testBit j = true) n = w.size
      ↔ Filled (fun j => w.testBit j = true) n := by
  rw [count_bits_eq hw, Nat.count_iff_forall]
  constructor
  · intro h j _ hj k hk
    exact h k (hk.trans (lt_size_of_testBit hj))
  · intro h j hj
    have hne : w ≠ 0 := by
      rintro rfl
      cases hj
    have hsize := Nat.size_le.mpr hw
    have htop := testBit_size_pred hne
    rcases Nat.lt_or_ge j (w.size - 1) with hlt | hge
    · exact h (w.size - 1) (by omega) htop j hlt
    · rwa [show j = w.size - 1 by omega]

-- =============================================================== the words

/-- The lengths of the first words. -/
def lengths (words : Nat → Nat) : Nat → Nat
  | 0 => 0
  | N + 1 => lengths words N + (words N).size

section

variable {words : Nat → Nat} {b : Nat}

theorem lengths_le (hw : ∀ i < N, words i < 2 ^ b) :
    lengths words N ≤ b * N := by
  induction N with
  | zero => exact Nat.zero_le _
  | succ N ih =>
      have hrest := ih fun i hi => hw i (by omega)
      have hlast := Nat.size_le.mpr (hw N (by omega))
      rw [lengths, Nat.mul_succ]
      omega

/-- A property of the bits of the first words, bit `j` of word `i` being
number `b * i + j`. -/
theorem count_words_le (words : Nat → Nat) {P : Nat → Prop}
    [DecidablePred P]
    (hw : ∀ i < N, words i < 2 ^ b)
    (hP : ∀ i < N, ∀ j < b, P (b * i + j) ↔ (words i).testBit j = true) :
    Nat.count P (b * N) ≤ lengths words N
      ∧ (Nat.count P (b * N) = lengths words N
        ↔ ∀ i < N, Filled (fun j => P (b * i + j)) b) := by
  induction N with
  | zero => exact ⟨le_refl _, iff_of_true rfl nofun⟩
  | succ N ih =>
      obtain ⟨hle, hiff⟩ := ih (fun i hi => hw i (by omega))
        fun i hi => hP i (by omega)
      have hN := hw N (by omega)
      have hcount : Nat.count (fun j => P (b * N + j)) b
          = Nat.count (fun j => (words N).testBit j = true) b := by
        rw [Nat.count_eq_card_filter_range, Nat.count_eq_card_filter_range]
        congr 1
        apply Finset.filter_congr
        intro j hj
        exact hP N (by omega) j (Finset.mem_range.mp hj)
      have hfill : Filled (fun j => P (b * N + j)) b
          ↔ Filled (fun j => (words N).testBit j = true) b := by
        have hbit := hP N (by omega)
        constructor
        · intro h j hj hjb k hk
          exact (hbit k (by omega)).mp (h j hj ((hbit j hj).mpr hjb) k hk)
        · intro h j hj hjb k hk
          exact (hbit k (by omega)).mpr (h j hj ((hbit j hj).mp hjb) k hk)
      have hbits := count_bits_le hN
      have hall : (∀ i < N + 1, Filled (fun j => P (b * i + j)) b)
          ↔ (∀ i < N, Filled (fun j => P (b * i + j)) b)
            ∧ Filled (fun j => P (b * N + j)) b :=
        Nat.forall_lt_succ_right
      rw [Nat.mul_succ, Nat.count_add, lengths, hcount, hall, ← hiff, hfill,
        ← count_bits_eq_iff hN]
      omega

end

end Ntibux
