/-
Which of two strings `strcmp` takes for the greater.

The strings' order and the value of `strcmp` are both decided where the
strings first differ, their NULs included (`firstDiff`): the order by the
two characters there as unsigned ones, the value by the second less the
first as signed ones. The operands are the wrong way round for the sign,
and it comes out right only where the signed characters are in the other
order than the unsigned ones.
-/
import Ntibux.Shell.Proofs.Strings
import Mathlib.Data.List.Lex

namespace Ntibux

/-- The characters in which the strings first differ, each ended by its
NUL. -/
def firstDiff : List UInt8 → List UInt8 → Option (UInt8 × UInt8)
  | [], [] => none
  | [], d :: _ => some (0, d)
  | c :: _, [] => some (c, 0)
  | c :: s, d :: t => if c = d then firstDiff s t else some (c, d)

/-- What C has `strcmp` come to: whatever is behind the NULs, it is zero,
negative or positive as the first string is the second one, before it or
behind it. -/
def Compares (s t : List UInt8) : Prop :=
  ∃ r, (∀ rest rest', strcmp (s ++ 0 :: rest) (t ++ 0 :: rest') = .ret r)
    ∧ (r = 0 ↔ s = t) ∧ (r < 0 ↔ List.Lex (· < ·) s t)
    ∧ (0 < r ↔ List.Lex (· < ·) t s)

section

variable {c d : UInt8} {s t : List UInt8}

-- ======================================================== the first difference

theorem firstDiff_eq_none : firstDiff s t = none ↔ s = t := by
  induction s generalizing t with
  | nil => cases t <;> simp [firstDiff]
  | cons c s ih =>
      cases t with
      | nil => simp [firstDiff]
      | cons d t =>
          unfold firstDiff
          split
          · rename_i h
            rw [ih, h, List.cons_inj_right]
          · rename_i h
            simp [h]

theorem firstDiff_ne (hs : 0 ∉ s) (ht : 0 ∉ t)
    (h : firstDiff s t = some (c, d)) : c ≠ d := by
  induction s generalizing t with
  | nil =>
      cases t with
      | nil => cases h
      | cons d' t =>
          cases h
          exact fun h0 => ht (h0 ▸ List.mem_cons_self)
  | cons c' s ih =>
      cases t with
      | nil =>
          cases h
          exact fun h0 => hs (h0 ▸ List.mem_cons_self)
      | cons d' t =>
          unfold firstDiff at h
          split at h
          case isTrue =>
            exact ih (fun h0 => hs (List.mem_cons_of_mem c' h0))
              (fun h0 => ht (List.mem_cons_of_mem d' h0)) h
          case isFalse hne =>
            cases h
            exact hne

theorem firstDiff_comm :
    firstDiff t s = (firstDiff s t).map Prod.swap := by
  induction s generalizing t with
  | nil => cases t <;> rfl
  | cons c s ih =>
      cases t with
      | nil => rfl
      | cons d t =>
          unfold firstDiff
          by_cases h : c = d
          · rw [if_pos h, if_pos h.symm, ih]
          · rw [if_neg h, if_neg (Ne.symm h)]
            rfl

/-- The order of the strings is that of the two characters. -/
theorem lex_iff_firstDiff (hs : 0 ∉ s) (ht : 0 ∉ t) :
    List.Lex (· < ·) s t ↔ ∃ c d, firstDiff s t = some (c, d) ∧ c < d := by
  induction s generalizing t with
  | nil =>
      cases t with
      | nil => simp [firstDiff]
      | cons d t =>
          have hpos : 0 < d := by
            refine UInt8.pos_iff_ne_zero.mpr fun h0 => ?_
            exact ht (h0 ▸ List.mem_cons_self)
          simp [firstDiff, hpos]
  | cons c s ih =>
      cases t with
      | nil => simp [firstDiff]
      | cons d t =>
          rw [List.cons_lex_cons_iff]
          unfold firstDiff
          by_cases h : c = d
          · have hlt : ¬c < d := by
              rw [h]
              exact UInt8.lt_irrefl d
            rw [if_pos h, ← ih (fun h0 => hs (List.mem_cons_of_mem c h0))
              fun h0 => ht (List.mem_cons_of_mem d h0)]
            simp [h]
          · rw [if_neg h]
            simp [h]

/-- The value of `strcmp` is the difference of the two characters. -/
theorem strcmp_firstDiff (hs : 0 ∉ s) (ht : 0 ∉ t)
    (rest rest' : List UInt8) :
    strcmp (s ++ 0 :: rest) (t ++ 0 :: rest')
      = .ret (match firstDiff s t with
        | none => 0
        | some (c, d) => d.toInt8.toInt - c.toInt8.toInt) := by
  induction s generalizing t with
  | nil =>
      cases t with
      | nil => rfl
      | cons d t => simp [strcmp, firstDiff]
  | cons c s ih =>
      cases t with
      | nil => simp [strcmp, firstDiff]
      | cons d t =>
          rw [List.mem_cons, not_or] at hs ht
          simp only [List.cons_append]
          unfold strcmp firstDiff
          by_cases h : c = d
          · rw [if_pos ⟨Ne.symm hs.1, Ne.symm ht.1, h⟩, if_pos h]
            exact ih hs.2 ht.2
          · rw [if_neg fun hgo => h hgo.2.2, if_neg h]

-- ================================================================= the sign

/-- The character as the target has it, signed. -/
theorem toInt8_toInt (c : UInt8) :
    c.toInt8.toInt
      = if c.toNat < 128 then (c.toNat : Int) else c.toNat - 256 := by
  have h : c.toInt8.toInt = (c.toNat : Int).bmod (2 ^ 8) :=
    BitVec.toInt_eq_toNat_bmod c.toBitVec
  have hlt := c.toNat_lt
  rw [h, Int.bmod_def]
  split <;> split <;> omega

/-- The difference has the sign of the unsigned order when one character
is above 0x7f and the other is not. -/
theorem sub_sign_iff (h : c ≠ d) :
    ((d.toInt8.toInt - c.toInt8.toInt < 0 ↔ c < d)
        ∧ (0 < d.toInt8.toInt - c.toInt8.toInt ↔ d < c))
      ↔ (0x80 ≤ c ↔ d < 0x80) := by
  have hne : c.toNat ≠ d.toNat := fun heq => h (UInt8.toNat_inj.mp heq)
  have hc := c.toNat_lt
  have hd := d.toNat_lt
  have h128 : (0x80 : UInt8).toNat = 128 := rfl
  rw [toInt8_toInt, toInt8_toInt, UInt8.lt_iff_toNat_lt,
    UInt8.lt_iff_toNat_lt, UInt8.le_iff_toNat_le, UInt8.lt_iff_toNat_lt,
    h128]
  split <;> split <;> omega

-- ============================================================== the comparison

/-- `strcmp` compares two strings as C has it exactly when they are equal,
or just one of the characters in which they first differ is above 0x7f. -/
theorem strcmp_compares_iff (hs : 0 ∉ s) (ht : 0 ∉ t) :
    Compares s t
      ↔ ∀ c d, firstDiff s t = some (c, d) → (0x80 ≤ c ↔ d < 0x80) := by
  have hval := strcmp_firstDiff hs ht
  have hlt := lex_iff_firstDiff hs ht
  have hgt := lex_iff_firstDiff ht hs
  rw [firstDiff_comm] at hgt
  cases hdiff : firstDiff s t with
  | none =>
      simp only [hdiff] at hval hlt hgt
      refine ⟨fun _ => nofun, fun _ => ⟨0, hval, ?_, ?_, ?_⟩⟩
      · simp [firstDiff_eq_none.mp hdiff]
      · simp [hlt]
      · simp [hgt]
  | some p =>
      obtain ⟨c, d⟩ := p
      have hne := firstDiff_ne hs ht hdiff
      have hst : s ≠ t := by
        intro heq
        rw [firstDiff_eq_none.mpr heq] at hdiff
        cases hdiff
      simp only [hdiff, Option.map_some, Prod.swap_prod_mk, Option.some.injEq,
        Prod.mk.injEq] at hval hlt hgt
      -- the difference of signed characters has the sign of the order
      -- unless just one of them is negative
      have hsign : (d.toInt8.toInt - c.toInt8.toInt < 0
            ↔ List.Lex (· < ·) s t)
          ∧ (0 < d.toInt8.toInt - c.toInt8.toInt ↔ List.Lex (· < ·) t s)
          ↔ (0x80 ≤ c ↔ d < 0x80) := by
        rw [← sub_sign_iff hne, hlt, hgt]
        simp
      constructor
      · rintro ⟨r, hr, -, hneg, hpos⟩ c' d' heq
        obtain ⟨rfl, rfl⟩ := Prod.mk.inj (Option.some.inj heq)
        obtain rfl := Outcome.ret.inj ((hval [] []).symm.trans (hr [] []))
        exact hsign.mp ⟨hneg, hpos⟩
      · intro h
        refine ⟨_, hval, ?_, hsign.mpr (h c d rfl)⟩
        rw [toInt8_sub_eq_zero]
        simp [hne, hst]

/-- Three letters in common, and then one above 0x7f against one that is
not; and a string against itself. The first pair comes out right because the
byte 0xe9 is negative as a `char`. -/
theorem strcmp_compares_high :
    Compares (ascii "caf" ++ [0xe9]) (ascii "cafard")
    ∧ Compares (ascii "print") (ascii "print") := by
  constructor
  · refine (strcmp_compares_iff (by decide) (by decide)).mpr fun c d h => ?_
    cases h
    decide
  · refine (strcmp_compares_iff (by decide) (by decide)).mpr fun c d h => ?_
    cases h

/-- "a" comes before "b", and the value is positive. -/
theorem strcmp_letters :
    ¬∀ s t : List UInt8, 0 ∉ s → 0 ∉ t → Compares s t := by
  intro h
  obtain ⟨r, hr, -, hneg, -⟩ :=
    h (ascii "a") (ascii "b") (by decide) (by decide)
  obtain rfl : 1 = r := Outcome.ret.inj (hr [] [])
  have hlex : List.Lex (· < ·) (ascii "a") (ascii "b") :=
    .rel (show (0x61 : UInt8) < 0x62 by decide)
  exact absurd (hneg.mpr hlex) (by decide)

end

end Ntibux
