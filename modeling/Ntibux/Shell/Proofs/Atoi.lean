/-
What number `atoi` reads, and that it reads back what `putuint_b` prints.

The loop takes every character for what `digitValue` says, which is the
digit (`digitOf`) but for the upper-case ones: `to_lower` has made them
lower-case letters, and `is_lower`, which looks at the character as it
was, has a zero taken off them and not an `a`, so each counts 39 too much.
A multiple of 39 is only lost in 32 bits if it was a multiple of 2^32
before, and since every upper-case digit is one too many in its place, it
is one when the last eight digits have none of them (`upper_dvd_iff`).
-/
import Mathlib.Data.List.TakeWhile
import Mathlib.Data.Nat.ModEq
import Ntibux.Lib.Numeral
import Ntibux.Shell.Commands
import Ntibux.Term.Proofs.Number

namespace Ntibux

-- ======================================================= what strings denote

/-- The digit that a character is, in the bases that have it. -/
def digitOf (c : UInt8) : Option Nat :=
  if 0x30 ≤ c ∧ c ≤ 0x39 then some (c.toNat - 0x30)
  else if 0x61 ≤ c ∧ c ≤ 0x66 then some (c.toNat - 0x61 + 10)
  else if 0x41 ≤ c ∧ c ≤ 0x46 then some (c.toNat - 0x41 + 10)
  else none

def isDigitIn (base : Nat) (c : UInt8) : Bool := (digitOf c).any (· < base)

/-- The base that the prefix of a string asks for, and what is behind the
prefix. -/
def radix : List UInt8 → Nat × List UInt8
  | [] => (10, [])
  | c :: s =>
      if c ≠ 0x30 then (10, c :: s)
      else
        match s with
        | [] => (8, [])
        | d :: s' =>
            if d = 0x78 ∨ d = 0x58 then (16, s')
            else if d = 0x62 ∨ d = 0x42 then (2, s')
            else (8, d :: s')

/-- The longest run of digits of the base that follows the prefix. -/
def digitRun (s : List UInt8) : List UInt8 :=
  (radix s).2.takeWhile (isDigitIn (radix s).1)

/-- The number that the string starts with. -/
def numberIn (s : List UInt8) : Nat :=
  valueOf (radix s).1 ((digitRun s).map fun c => (digitOf c).getD 0)

/-- `atoi` reads that number, and nothing behind the NUL. -/
def ReadsNumber (s : List UInt8) : Prop :=
  ∀ rest, atoi (s ++ 0 :: rest) = .ret (numberIn s % 2 ^ 32)

section

variable {base n k d out : Nat} {c : UInt8} {ds s t rest : List UInt8}

-- ================================================================ characters

/-- What the loop takes a character for. -/
def digitValue (c : UInt8) : Nat :=
  (toLower c).toNat - if isLower c then 0x61 - 10 else 0x30

/-- One for an upper-case letter. -/
def upper (c : UInt8) : Nat := if isUpper c then 1 else 0

theorem isDigitIn_iff :
    isDigitIn base c = true ↔
      (48 ≤ c.toNat ∧ c.toNat ≤ 57 ∧ c.toNat < 48 + base)
      ∨ (97 ≤ c.toNat ∧ c.toNat ≤ 102 ∧ c.toNat < 87 + base)
      ∨ (65 ≤ c.toNat ∧ c.toNat ≤ 70 ∧ c.toNat < 55 + base) := by
  unfold isDigitIn digitOf
  simp only [UInt8.le_iff_toNat_le, UInt8.reduceToNat]
  split
  · simp only [Option.any_some, decide_eq_true_eq]
    omega
  · split
    · simp only [Option.any_some, decide_eq_true_eq]
      omega
    · split
      · simp only [Option.any_some, decide_eq_true_eq]
        omega
      · simp only [Option.any_none, Bool.false_eq_true, false_iff]
        omega

/-- The code's tests are those for a digit of the base. -/
theorem isDigitBase_eq
    (hbase : base = 2 ∨ base = 8 ∨ base = 10 ∨ base = 16) :
    isDigitBase base = some (isDigitIn base) := by
  rcases hbase with rfl | rfl | rfl | rfl
  all_goals
    refine congrArg some (funext fun c => Bool.eq_iff_iff.mpr ?_)
    rw [isDigitIn_iff]
    simp only [isBdigit, isOdigit, isDigit, isXdigit,
      UInt8.le_iff_toNat_le, UInt8.reduceToNat, Bool.and_eq_true,
      Bool.or_eq_true, decide_eq_true_eq]
    omega

theorem isDigitIn_zero (base : Nat) : isDigitIn base 0 = false := rfl

/-- A NUL and a space end a number. -/
theorem isDigitIn_end (hc : c = 0 ∨ c = 0x20) (base : Nat) :
    isDigitIn base c = false := by
  rcases hc with rfl | rfl <;> rfl

theorem toLower_toNat (c : UInt8) :
    (toLower c).toNat = if isUpper c then c.toNat + 32 else c.toNat := by
  unfold toLower
  split
  · rename_i h
    simp only [isUpper, UInt8.le_iff_toNat_le, UInt8.reduceToNat,
      Bool.and_eq_true, decide_eq_true_eq] at h
    simp only [UInt8.toNat_add, UInt8.reduceToNat]
    omega
  · rfl

/-- Upper-case digits are taken for 39 more than they are. -/
theorem digitValue_eq (h : digitOf c = some d) :
    digitValue c = d + 39 * upper c := by
  unfold digitOf at h
  unfold digitValue upper
  rw [toLower_toNat]
  simp only [UInt8.le_iff_toNat_le, UInt8.reduceToNat, isUpper, isLower,
    Bool.and_eq_true, decide_eq_true_eq] at h ⊢
  split at h
  · cases h
    split <;> split <;> omega
  · split at h
    · cases h
      split <;> split <;> omega
    · split at h
      · cases h
        split <;> split <;> omega
      · cases h

/-- The bases up to ten have no letters. -/
theorem upper_eq_zero (hbase : base ≤ 10) (h : isDigitIn base c = true) :
    upper c = 0 := by
  rw [isDigitIn_iff] at h
  unfold upper
  rw [if_neg]
  simp only [isUpper, UInt8.le_iff_toNat_le, UInt8.reduceToNat,
    Bool.and_eq_true, decide_eq_true_eq]
  omega

-- ================================================================== the loop

theorem u32_mul_add (a b v : Nat) : u32 (u32 a * b + v) = u32 (a * b + v) :=
  ((Nat.mod_modEq a (2 ^ 32)).mul_right b).add_right v

/-- The loop goes over the digits and no further. -/
theorem atoiLoop_run {isDigit : UInt8 → Bool}
    (hds : ∀ x ∈ ds, isDigit x = true) (hc : isDigit c = false)
    (hout : out < 2 ^ 32) (rest : List UInt8) :
    atoiLoop isDigit base (ds ++ c :: rest) out
      = .ret (u32 (out * base ^ ds.length
        + valueOf base (ds.map digitValue))) := by
  induction ds generalizing out with
  | nil =>
      simp [atoiLoop, hc, u32_of_lt hout]
  | cons x ds ih =>
      have hx := hds x List.mem_cons_self
      have hrest := ih (fun y hy => hds y (List.mem_cons_of_mem x hy))
        (u32_lt (out * base + digitValue x))
      rw [List.cons_append]
      unfold atoiLoop
      rw [if_pos hx]
      refine hrest.trans (congrArg Outcome.ret ?_)
      rw [u32_mul_add, List.map_cons, valueOf_cons, List.length_map,
        List.length_cons, Nat.pow_succ]
      congr 1
      ring

/-- The digits of a string end, at its NUL if not before. -/
theorem exists_stop {p : UInt8 → Bool} (h0 : p 0 = false)
    (t rest : List UInt8) : ∃ c rest',
      t ++ 0 :: rest = t.takeWhile p ++ c :: rest' ∧ p c = false := by
  induction t with
  | nil => exact ⟨0, rest, rfl, h0⟩
  | cons c t ih =>
      cases hc : p c with
      | true =>
          obtain ⟨d, rest', heq, hd⟩ := ih
          refine ⟨d, rest', ?_, hd⟩
          rw [List.takeWhile_cons_of_pos hc, List.cons_append, heq]
          rfl
      | false =>
          refine ⟨c, t ++ 0 :: rest, ?_, hc⟩
          rw [List.takeWhile_cons_of_neg (by rw [hc]; exact Bool.false_ne_true)]
          rfl

-- ================================================================ the prefix

theorem toLower_eq_iff (h : 97 ≤ d) (h' : d ≤ 122) :
    toLower c = .ofNat d ↔ c = .ofNat d ∨ c = .ofNat (d - 32) := by
  have hd : (UInt8.ofNat d).toNat = d := by
    rw [UInt8.toNat_ofNat']
    omega
  have hd' : (UInt8.ofNat (d - 32)).toNat = d - 32 := by
    rw [UInt8.toNat_ofNat']
    omega
  rw [← UInt8.toNat_inj, ← UInt8.toNat_inj, ← UInt8.toNat_inj, hd, hd',
    toLower_toNat]
  simp only [isUpper, UInt8.le_iff_toNat_le, UInt8.reduceToNat,
    Bool.and_eq_true, decide_eq_true_eq]
  split <;> omega

theorem radix_base (s : List UInt8) : (radix s).1 = 2 ∨ (radix s).1 = 8
    ∨ (radix s).1 = 10 ∨ (radix s).1 = 16 := by
  unfold radix
  split
  · simp
  · split
    · simp
    · split
      · simp
      · split
        · simp
        · split <;> simp

/-- `atoi` picks the base by the prefix. -/
theorem atoi_radix (s rest : List UInt8) :
    atoi (s ++ 0 :: rest) = atoiBase ((radix s).2 ++ 0 :: rest) (radix s).1 := by
  have hx : ∀ d, toLower d = 0x78 ↔ d = 0x78 ∨ d = 0x58 :=
    fun d => toLower_eq_iff (c := d) (d := 120) (by omega) (by omega)
  have hb : ∀ d, toLower d = 0x62 ↔ d = 0x62 ∨ d = 0x42 :=
    fun d => toLower_eq_iff (c := d) (d := 98) (by omega) (by omega)
  cases s with
  | nil => rfl
  | cons c s =>
      simp only [List.cons_append, atoi, radix]
      by_cases hc : c = 0x30
      · rw [if_pos hc, if_neg (not_not.mpr hc)]
        cases s with
        | nil => rfl
        | cons d s =>
            simp only [List.cons_append, hx, hb]
            split
            · rfl
            · split <;> rfl
      · rw [if_neg hc, if_pos hc]
        rfl

/-- What `atoi` returns for a string, whatever is behind its NUL. -/
theorem atoi_string (s rest : List UInt8) :
    atoi (s ++ 0 :: rest) = .ret (u32 (valueOf (radix s).1
      ((digitRun s).map digitValue))) := by
  obtain ⟨c, rest', heq, hc⟩ :=
    exists_stop (isDigitIn_zero (radix s).1) (radix s).2 rest
  rw [atoi_radix, heq]
  unfold atoiBase
  rw [isDigitBase_eq (radix_base s)]
  dsimp only
  rw [atoiLoop_run (fun _ hx => List.mem_takeWhile_imp hx) hc
    (Nat.two_pow_pos 32), Nat.zero_mul, Nat.zero_add]
  rfl

-- ================================================================= the number

/-- What is too much is a multiple of 2^32 when no upper-case letter is in
the last eight digits. -/
theorem upper_dvd_iff (s : List UInt8) :
    2 ^ 32 ∣ valueOf (radix s).1 ((digitRun s).map upper)
      ↔ ∀ c ∈ (digitRun s).rtake 8, isUpper c = false := by
  have hup : ∀ c, upper c = 0 ↔ isUpper c = false := by
    intro c
    unfold upper
    cases isUpper c <;> simp
  have hone : ∀ c, upper c ≤ 1 := by
    intro c
    unfold upper
    split <;> omega
  have hdigit : ∀ c ∈ digitRun s, isDigitIn (radix s).1 c = true :=
    fun _ hc => List.mem_takeWhile_imp hc
  have hpos : 0 < (radix s).1 := by
    have h := radix_base s
    omega
  have hlast : ∀ c ∈ (digitRun s).rtake 8, c ∈ digitRun s :=
    fun _ hc => List.mem_of_mem_drop hc
  -- up to base 10 no digit is a letter
  by_cases hbase : (radix s).1 ≤ 10
  · have hall : ∀ c ∈ digitRun s, upper c = 0 :=
      fun c hc => upper_eq_zero hbase (hdigit c hc)
    have hzero : valueOf (radix s).1 ((digitRun s).map upper) = 0 :=
      (valueOf_eq_zero_iff hpos).mpr fun d hd => by
        obtain ⟨c, hc, rfl⟩ := List.mem_map.mp hd
        exact hall c hc
    rw [hzero]
    refine ⟨fun _ c hc => (hup c).mp (hall c (hlast c hc)), fun _ => ?_⟩
    exact Nat.dvd_zero _
  · have h16 : (radix s).1 = 16 := by
      have h := radix_base s
      omega
    have hlt : ∀ d ∈ (digitRun s).map upper, d < 16 := by
      intro d hd
      obtain ⟨c, -, rfl⟩ := List.mem_map.mp hd
      exact Nat.lt_of_le_of_lt (hone c) (by omega)
    -- in base 16 the last eight digits are the value modulo 2^32
    have hrtake : ((digitRun s).map upper).rtake 8
        = ((digitRun s).rtake 8).map upper := by
      unfold List.rtake
      rw [List.length_map, List.map_drop]
    rw [h16, Nat.dvd_iff_mod_eq_zero, show 2 ^ 32 = 16 ^ 8 from rfl,
      valueOf_mod_pow (by omega) hlt, hrtake,
      valueOf_eq_zero_iff (by omega), List.forall_mem_map]
    exact forall₂_congr fun c _ => hup c

/-- `atoi` reads the number exactly when no upper-case letter is in the
last eight digits of it.

An upper-case digit counts for 39 more than it is worth, so the value is off
by 39 times a number in the base, with ones at the places of those digits.
In 32 bits that is nothing exactly if 2^32 divides it, and since 39 is odd
and the base 16, if the ones are all above the eighth digit. -/
theorem atoi_reads_iff (s : List UInt8) :
    ReadsNumber s ↔ ∀ c ∈ (digitRun s).rtake 8, isUpper c = false := by
  have hvalues : (digitRun s).map digitValue = (digitRun s).map
      fun c => (digitOf c).getD 0 + 39 * upper c := by
    refine List.map_congr_left fun c hc => ?_
    have hdigit : isDigitIn (radix s).1 c = true :=
      List.mem_takeWhile_imp hc
    obtain ⟨d, hd, -⟩ := (Option.any_eq_true _ _).mp hdigit
    rw [hd]
    exact digitValue_eq hd
  have hatoi : ReadsNumber s ↔
      u32 (numberIn s + 39 * valueOf (radix s).1 ((digitRun s).map upper))
        = numberIn s % 2 ^ 32 := by
    unfold ReadsNumber
    simp only [atoi_string, hvalues, valueOf_add_mul, Outcome.ret.injEq,
      forall_const]
    rfl
  rw [hatoi, ← upper_dvd_iff]
  have hcop : Nat.Coprime (2 ^ 32) 39 := by decide
  rw [← hcop.dvd_mul_left]
  unfold u32
  constructor
  · intro h
    have hmod : numberIn s + 0 ≡ numberIn s
        + 39 * valueOf (radix s).1 ((digitRun s).map upper) [MOD 2 ^ 32] :=
      h.symm
    exact (Nat.modEq_zero_iff_dvd.mp
      (Nat.ModEq.add_left_cancel' _ hmod).symm)
  · rintro ⟨q, hq⟩
    rw [hq, Nat.add_mul_mod_self_left]

/-- "0xA" is 10, and read as 49. -/
theorem atoi_upper_digit :
    ¬∀ s : List UInt8, 0 ∉ s → ReadsNumber s := by
  intro h
  have hread := h [0x30, 0x78, 0x41] (by decide) []
  exact absurd hread (by decide)

-- ================================================================ round trip

/-- What is printed for a digit is taken for it. -/
theorem digitValue_digitChar (h : d < 16) : digitValue (digitChar d) = d := by
  have hall : ∀ d : Fin 16, digitValue (digitChar d.val) = d.val := by decide
  exact hall ⟨d, h⟩

theorem isDigitIn_digitChar (hb : base ≤ 16) (h : d < base) :
    isDigitIn base (digitChar d) = true := by
  have hall : ∀ d : Fin 16, digitOf (digitChar d.val) = some d.val := by
    decide
  unfold isDigitIn
  rw [hall ⟨d, Nat.lt_of_lt_of_le h hb⟩, Option.any_some]
  exact decide_eq_true h

/-- Digits printed are read back, up to a character that is none. -/
theorem atoiBase_digits
    (hbase : base = 2 ∨ base = 8 ∨ base = 10 ∨ base = 16)
    {l : List Nat} (hl : ∀ d ∈ l, d < base) (hc : isDigitIn base c = false)
    (rest : List UInt8) :
    atoiBase (l.map digitChar ++ c :: rest) base
      = .ret (u32 (valueOf base l)) := by
  have hb : base ≤ 16 := by omega
  have hds : ∀ x ∈ l.map digitChar, isDigitIn base x = true := by
    intro x hx
    obtain ⟨d, hd, rfl⟩ := List.mem_map.mp hx
    exact isDigitIn_digitChar hb (hl d hd)
  have hvalues : (l.map digitChar).map digitValue = l := by
    rw [List.map_map]
    refine (List.map_congr_left fun d hd => ?_).trans (List.map_id l)
    exact digitValue_digitChar (Nat.lt_of_lt_of_le (hl d hd) hb)
  unfold atoiBase
  rw [isDigitBase_eq hbase]
  dsimp only
  rw [atoiLoop_run hds hc (Nat.two_pow_pos 32), hvalues, Nat.zero_mul,
    Nat.zero_add]

/-- A padded numeral is a number with zeros before it. -/
theorem atoiBase_padded
    (hbase : base = 2 ∨ base = 8 ∨ base = 10 ∨ base = 16)
    (hn : n < 2 ^ 32) (hc : isDigitIn base c = false) (k : Nat)
    (rest : List UInt8) :
    atoiBase (padded base k n ++ c :: rest) base = .ret n := by
  have hzero : digitChar 0 = 0x30 := rfl
  have htext : padded base k n
      = (List.replicate (k - (numeral base n).length) 0
        ++ numeral base n).map digitChar := by
    unfold padded
    rw [List.map_append, List.map_replicate, hzero]
  rw [htext, atoiBase_digits hbase ?_ hc, valueOf_zeros, valueOf_numeral,
    u32_of_lt hn]
  intro d hd
  rcases List.mem_append.mp hd with hd | hd
  · rw [(List.mem_replicate.mp hd).2]
    omega
  · exact mem_numeral_lt (by omega) hd

/-- A decimal numeral starts with a zero only if it is one. -/
theorem atoi_numeral (hn : n < 2 ^ 32) (hc : c = 0 ∨ c = 0x20)
    (rest : List UInt8) : atoi (padded 10 0 n ++ c :: rest) = .ret n := by
  by_cases h0 : n = 0
  · subst h0
    have htext : padded 10 0 0 = [0x30] := rfl
    have hnone : atoiBase ([].map digitChar ++ c :: rest) 8
        = .ret (u32 (valueOf 8 [])) :=
      atoiBase_digits (by decide) (fun _ h => by cases h)
        (isDigitIn_end hc 8) rest
    rw [htext, List.singleton_append]
    rcases hc with rfl | rfl <;> exact hnone
  · obtain ⟨d, ds, hnum, hd⟩ : ∃ d ds, numeral 10 n = d :: ds ∧ d ≠ 0 :=
      numeral_eq_cons h0
    have hlt : d < 10 :=
      mem_numeral_lt (n := n) (by decide) (hnum ▸ List.mem_cons_self)
    have hfirst : digitChar d ≠ 0x30 := by
      intro heq
      have hvalue := digitValue_digitChar (Nat.lt_trans hlt (by decide))
      rw [heq] at hvalue
      exact hd hvalue.symm
    have hread : atoiBase (padded 10 0 n ++ c :: rest) 10 = .ret n :=
      atoiBase_padded (by decide) hn (isDigitIn_end hc 10) 0 rest
    have htext : padded 10 0 n = digitChar d :: ds.map digitChar := by
      unfold padded
      rw [hnum, Nat.zero_sub]
      rfl
    rw [htext, List.cons_append] at hread ⊢
    exact (if_neg hfirst).trans hread

/-- What `putuint_b` prints is read back by `atoi`, up to a NUL or a
space: a decimal as it is, and in the bases 16 and 2 behind the prefix,
with any padding.

Both ends meet in `padded`, the numeral with its zeros: the one prints it,
and the other stops at the first character that is no digit of the base. -/
theorem atoi_undoes_putuintB (hn : n < 2 ^ 32) (hc : c = 0 ∨ c = 0x20)
    (rest : List UInt8) (padding : Int) (t : Terminal) :
    (Terminal.Prints (fun fuel => t.putuintB .u32 fuel n 10 0)
        (padded 10 0 n) t
      ∧ atoi (padded 10 0 n ++ c :: rest) = .ret n)
    ∧ (Terminal.Prints (fun fuel => t.putuintB .u32 fuel n 16 padding)
        (padded 16 padding.toNat n) t
      ∧ atoi (ascii "0x" ++ padded 16 padding.toNat n ++ c :: rest) = .ret n)
    ∧ Terminal.Prints (fun fuel => t.putuintB .u32 fuel n 2 padding)
        (padded 2 padding.toNat n) t
      ∧ atoi (ascii "0b" ++ padded 2 padding.toNat n ++ c :: rest)
        = .ret n := by
  refine ⟨⟨?_, atoi_numeral hn hc rest⟩, ⟨?_, ?_⟩, ?_, ?_⟩
  · exact Terminal.putuintB_prints_int (by decide) (by decide) hn 0 t
  · exact Terminal.putuintB_prints_int (by decide) (by decide) hn padding t
  · rw [List.append_assoc]
    exact atoiBase_padded (by decide) hn (isDigitIn_end hc 16) _ rest
  · exact Terminal.putuintB_prints_int (by decide) (by decide) hn padding t
  · rw [List.append_assoc]
    exact atoiBase_padded (by decide) hn (isDigitIn_end hc 2) _ rest

/-- 48879, padded to eight digits, before a space. -/
theorem atoi_undoes_putuintB_word :
    atoi (ascii "0x" ++ padded 16 8 48879 ++ 0x20 :: ascii "1") = .ret 48879 :=
  (atoi_undoes_putuintB (by decide) (.inr rfl) (ascii "1") 8
    TermCall.console).2.1.2

end

end Ntibux
