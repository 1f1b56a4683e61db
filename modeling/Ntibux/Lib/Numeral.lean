/-
The numeral of a number, most significant digit first, and the two ways
a printer gets at it: the leading power, by dividing until less than the
base is left, and then the digits from the top, by dividing by falling
powers (`falling`).

A reader goes the other way. `valueOf` is the number that digits are,
which need not be a numeral: zeros may be before it (`valueOf_zeros`), and
a machine word keeps the last of them only (`valueOf_mod_pow`).
-/
import Mathlib.Data.List.DropRight
import Mathlib.Data.Nat.Digits.Lemmas

namespace Ntibux

/-- The digits of `n`, without superfluous zeros; zero is one digit. -/
def numeral (base n : Nat) : List Nat :=
  if n = 0 then [0] else (Nat.digits base n).reverse

/-- The number that the digits are. -/
def valueOf (base : Nat) (ds : List Nat) : Nat := Nat.ofDigits base ds.reverse

/-- What dividing by `base ^ k` and the lower powers gives. -/
def falling (base : Nat) : Nat → Nat → List Nat
  | 0, n => [n]
  | k + 1, n => n / base ^ (k + 1) :: falling base k (n % base ^ (k + 1))

section

variable {base n k : Nat}

theorem numeral_of_lt (h : n < base) : numeral base n = [n] := by
  unfold numeral
  split
  · rename_i h0
    rw [h0]
  · rename_i h0
    rw [Nat.digits_of_lt base n h0 h]
    rfl

/-- The last digit apart. -/
theorem numeral_of_le (hb : 2 ≤ base) (h : base ≤ n) :
    numeral base n = numeral base (n / base) ++ [n % base] := by
  have hpos : 0 < n := by omega
  have hdiv : n / base ≠ 0 :=
    Nat.ne_of_gt (Nat.div_pos h (by omega))
  unfold numeral
  rw [if_neg (by omega), if_neg hdiv, Nat.digits_def' hb hpos,
    List.reverse_cons]

/-- The numeral has as many digits as powers of the base fit under it. -/
theorem length_numeral (hb : 2 ≤ base) :
    ∃ k, (numeral base n).length = k + 1 ∧ n < base ^ (k + 1)
      ∧ (k = 0 ∨ base ^ k ≤ n) := by
  by_cases h0 : n = 0
  · refine ⟨0, by rw [numeral_of_lt (by omega)]; rfl, ?_, .inl rfl⟩
    rw [h0]
    exact Nat.pow_pos (by omega)
  · have hlen : (numeral base n).length = (Nat.digits base n).length := by
      unfold numeral
      rw [if_neg h0, List.length_reverse]
    have hlt : n < base ^ (Nat.digits base n).length :=
      Nat.lt_base_pow_length_digits hb
    have hle := Nat.base_pow_length_digits_le' (base - 2) n h0
    rw [Nat.sub_add_cancel hb] at hle
    obtain ⟨k, hk⟩ : ∃ k, (Nat.digits base n).length = k + 1 := by
      refine ⟨_, (Nat.succ_pred ?_).symm⟩
      intro h
      rw [h, Nat.pow_zero] at hlt
      omega
    rw [hk] at hlt hle
    refine ⟨k, hlen.trans hk, hlt, .inr ?_⟩
    rw [Nat.pow_succ, Nat.mul_comm base] at hle
    exact Nat.le_of_mul_le_mul_right hle (by omega)

/-- The last of the falling divisions apart. -/
theorem falling_succ :
    falling base (k + 1) n = falling base k (n / base) ++ [n % base] := by
  induction k generalizing n with
  | zero => simp [falling]
  | succ k ih =>
      have hdiv : n % base ^ (k + 1 + 1) / base
          = n / base % base ^ (k + 1) := by
        rw [Nat.pow_succ base (k + 1), Nat.mul_comm (base ^ (k + 1)),
          Nat.mod_mul_right_div_self]
      have hmod : n % base ^ (k + 1 + 1) % base = n % base :=
        Nat.mod_mod_of_dvd n (Dvd.intro_left _ (Nat.pow_succ ..).symm)
      have hhead : n / base ^ (k + 1 + 1) = n / base / base ^ (k + 1) := by
        rw [Nat.div_div_eq_div_mul, Nat.pow_succ, Nat.mul_comm]
      rw [falling, ih, hdiv, hmod, hhead]
      rfl

/-- From the leading power on, the falling divisions are the numeral. -/
theorem falling_eq_numeral (hb : 2 ≤ base) (hlt : n < base ^ (k + 1))
    (hle : k = 0 ∨ base ^ k ≤ n) : falling base k n = numeral base n := by
  induction k generalizing n with
  | zero =>
      rw [Nat.pow_one] at hlt
      exact (numeral_of_lt hlt).symm
  | succ k ih =>
      have hn : base ^ (k + 1) ≤ n := by
        rcases hle with h | h
        · cases h
        · exact h
      have hbn : base ≤ n :=
        Nat.le_trans (Nat.le_self_pow (by omega) base) hn
      have hpow : base ^ k ≤ n / base := by
        rw [Nat.le_div_iff_mul_le (by omega)]
        exact hn
      rw [falling_succ, numeral_of_le hb hbn,
        ih (Nat.div_lt_of_lt_mul ?_) (.inr hpow)]
      rw [Nat.mul_comm]
      exact hlt

theorem mem_numeral_lt (hb : 2 ≤ base) {d : Nat} (hd : d ∈ numeral base n) :
    d < base := by
  unfold numeral at hd
  split at hd
  · rw [List.mem_singleton.mp hd]
    omega
  · exact Nat.digits_lt_base hb (List.mem_reverse.mp hd)

/-- The numeral of a positive number does not start with a zero. -/
theorem numeral_eq_cons (hn : n ≠ 0) :
    ∃ d ds, numeral base n = d :: ds ∧ d ≠ 0 := by
  have hne : Nat.digits base n ≠ [] := Nat.digits_ne_nil_iff_ne_zero.mpr hn
  have hlast := Nat.getLast_digit_ne_zero base hn
  refine ⟨_, (Nat.digits base n).dropLast.reverse, ?_, hlast⟩
  unfold numeral
  rw [if_neg hn, ← List.reverse_concat, List.dropLast_append_getLast hne]

-- =================================================================== values

section

variable {d : Nat} {ds : List Nat}

@[simp] theorem valueOf_nil : valueOf base [] = 0 := rfl

theorem valueOf_cons :
    valueOf base (d :: ds) = d * base ^ ds.length + valueOf base ds := by
  unfold valueOf
  rw [Nat.ofDigits_reverse_cons, Nat.mul_comm, Nat.add_comm]

/-- A numeral is the number that it is the numeral of. -/
theorem valueOf_numeral : valueOf base (numeral base n) = n := by
  unfold valueOf numeral
  split
  case isTrue h0 =>
    rw [h0]
    rfl
  case isFalse => rw [List.reverse_reverse, Nat.ofDigits_digits]

/-- Zeros before the digits do not count. -/
theorem valueOf_zeros (k : Nat) (ds : List Nat) :
    valueOf base (List.replicate k 0 ++ ds) = valueOf base ds := by
  unfold valueOf
  rw [List.reverse_append, List.reverse_replicate,
    Nat.ofDigits_append_replicate_zero]

theorem valueOf_eq_zero_iff (hb : 0 < base) :
    valueOf base ds = 0 ↔ ∀ d ∈ ds, d = 0 := by
  induction ds with
  | nil => simp
  | cons d ds ih =>
      have hpow : base ^ ds.length ≠ 0 := Nat.ne_of_gt (Nat.pow_pos hb)
      rw [valueOf_cons, Nat.add_eq_zero_iff, Nat.mul_eq_zero,
        or_iff_left hpow, ih, List.forall_mem_cons]

/-- Below a power of the base are the last digits. -/
theorem valueOf_mod_pow (hb : 0 < base) (h : ∀ d ∈ ds, d < base) (k : Nat) :
    valueOf base ds % base ^ k = valueOf base (ds.rtake k) := by
  have hrev : ∀ d ∈ ds.reverse, d < base :=
    fun d hd => h d (List.mem_reverse.mp hd)
  unfold valueOf
  rw [Nat.ofDigits_mod_pow_eq_ofDigits_take k hb _ hrev,
    List.rtake_eq_reverse_take_reverse, List.reverse_reverse]

/-- Digits that are off by a multiple of others. -/
theorem valueOf_add_mul {α : Type} (f g : α → Nat) (c : Nat) (l : List α) :
    valueOf base (l.map fun x => f x + c * g x)
      = valueOf base (l.map f) + c * valueOf base (l.map g) := by
  induction l with
  | nil => rfl
  | cons x l ih =>
      simp only [List.map_cons, valueOf_cons, List.length_map, ih]
      ring

end

end

end Ntibux
