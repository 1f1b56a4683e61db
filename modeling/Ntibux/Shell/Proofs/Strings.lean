/-
Strings as memory has them: what they spell, and that `strcmp` compares
and `strncpy` copies just that.
-/
import Ntibux.Shell.Basic
import Mathlib.Data.List.TakeWhile

namespace Ntibux

/-- The characters before the NUL. -/
def cString (l : List UInt8) : List UInt8 := l.takeWhile (· ≠ 0)

/-- The line is in memory at `p`, with its NUL. -/
structure Bytes.HasLine (b : Bytes) (p : Nat) (cs : List UInt8) :
    Prop where
  char : ∀ i (h : i < cs.length), b (p + i) = cs[i]
  nul : b (p + cs.length) = 0

section

variable {b : Bytes} {p : Nat} {c : UInt8} {l l' t : List UInt8}

theorem cString_cons_of_ne (h : c ≠ 0) :
    cString (c :: l) = c :: cString l :=
  List.takeWhile_cons_of_pos (decide_eq_true h)

theorem cString_zero (l : List UInt8) : cString (0 :: l) = [] := rfl

theorem cString_append_zero (h : 0 ∉ t) (l : List UInt8) :
    cString (t ++ 0 :: l) = t := by
  induction t with
  | nil => rfl
  | cons c t ih =>
      rw [List.mem_cons, not_or] at h
      rw [List.cons_append, cString_cons_of_ne (Ne.symm h.1), ih h.2]

theorem zero_not_mem_cString (l : List UInt8) : 0 ∉ cString l := by
  intro h
  have hne := List.mem_takeWhile_imp (p := fun c : UInt8 => c ≠ 0) h
  exact of_decide_eq_true hne rfl

-- ================================================================== memory

theorem Bytes.HasLine.tail (h : b.HasLine p (c :: t)) :
    b p = c ∧ b.HasLine (p + 1) t := by
  refine ⟨h.char 0 (Nat.zero_lt_succ _), fun i hi => ?_, ?_⟩
  · have hchar := h.char (i + 1) (Nat.succ_lt_succ hi)
    rw [Nat.add_assoc, Nat.add_comm 1 i]
    exact hchar
  · have hnul := h.nul
    rw [List.length_cons] at hnul
    rw [Nat.add_assoc, Nat.add_comm 1 t.length]
    exact hnul

theorem Bytes.hasLine_nil (h : b p = 0) : b.HasLine p [] :=
  ⟨fun _ hi => absurd hi (Nat.not_lt_zero _), h⟩

theorem Bytes.HasLine.cons (hc : b p = c) (h : b.HasLine (p + 1) t) :
    b.HasLine p (c :: t) := by
  have hplace : ∀ i, p + (i + 1) = p + 1 + i := fun i => by omega
  constructor
  · intro i hi
    cases i with
    | zero => exact hc
    | succ i =>
        rw [hplace]
        exact h.char i (Nat.lt_of_succ_lt_succ hi)
  · rw [List.length_cons, hplace]
    exact h.nul

/-- A line is its characters and the NUL. -/
theorem Bytes.HasLine.congr {b' : Bytes} (h : b.HasLine p t)
    (heq : ∀ x, p ≤ x → x ≤ p + t.length → b' x = b x) :
    b'.HasLine p t := by
  constructor
  · intro i hi
    rw [heq (p + i) (by omega) (by omega)]
    exact h.char i hi
  · rw [heq (p + t.length) (by omega) (Nat.le_refl _)]
    exact h.nul

theorem stretch_of_hasLine {n : Nat} (h : b.HasLine p t)
    (hn : t.length < n) : ∃ rest, b.stretch p n = t ++ 0 :: rest := by
  induction t generalizing p n with
  | nil =>
      obtain ⟨n, rfl⟩ : ∃ m, n = m + 1 := ⟨n - 1, by omega⟩
      refine ⟨b.stretch (p + 1) n, ?_⟩
      rw [Bytes.stretch, show b p = 0 from h.nul]
      rfl
  | cons c t ih =>
      obtain ⟨n, rfl⟩ : ∃ m, n = m + 1 := ⟨n - 1, by omega⟩
      obtain ⟨hc, ht⟩ := h.tail
      obtain ⟨rest, hrest⟩ := ih ht (Nat.lt_of_succ_lt_succ hn)
      refine ⟨rest, ?_⟩
      rw [Bytes.stretch, hc, hrest]
      rfl

/-- A line that ends in memory is what is read there. -/
theorem upFrom_of_hasLine (h : b.HasLine p t) (hp : p + t.length < 2 ^ 32) :
    ∃ rest, b.upFrom p = t ++ 0 :: rest :=
  stretch_of_hasLine h (by omega)

-- =================================================================== strcmp

theorem toInt8_sub_eq_zero (c d : UInt8) :
    d.toInt8.toInt - c.toInt8.toInt = 0 ↔ c = d := by
  constructor
  · intro h
    have heq : d.toInt8.toInt = c.toInt8.toInt := by omega
    have hint8 := Int8.toInt_inj.mp heq
    rw [← UInt8.toUInt8_toInt8 c, ← hint8, UInt8.toUInt8_toInt8]
  · rintro rfl
    exact Int.sub_self _

/-- The strings are compared, whatever is behind their NULs. -/
theorem strcmp_exact (h : 0 ∈ l) (h' : 0 ∈ l') :
    ∃ d, strcmp l l' = .ret d ∧ (d = 0 ↔ cString l = cString l') := by
  induction l generalizing l' with
  | nil => cases h
  | cons c l ih =>
      cases l' with
      | nil => cases h'
      | cons c' l' =>
          unfold strcmp
          by_cases hgo : c ≠ 0 ∧ c' ≠ 0 ∧ c = c'
          · obtain ⟨hc, hc', rfl⟩ := hgo
            rw [if_pos ⟨hc, hc, rfl⟩, cString_cons_of_ne hc,
              cString_cons_of_ne hc, List.cons_inj_right]
            exact ih ((List.mem_cons.mp h).resolve_left (Ne.symm hc))
              ((List.mem_cons.mp h').resolve_left (Ne.symm hc))
          · rw [if_neg hgo]
            refine ⟨_, rfl, (toInt8_sub_eq_zero c c').trans ?_⟩
            constructor
            · rintro rfl
              -- the loop ends on equal characters when they are NULs
              obtain rfl : c = 0 := by
                by_contra hc
                exact hgo ⟨hc, hc, rfl⟩
              rfl
            · intro heq
              by_cases hc : c = 0
              · subst hc
                by_contra hne
                rw [cString_zero, cString_cons_of_ne (Ne.symm hne)] at heq
                cases heq
              · rw [cString_cons_of_ne hc] at heq
                by_cases hc' : c' = 0
                · rw [hc', cString_zero] at heq
                  cases heq
                · rw [cString_cons_of_ne hc'] at heq
                  exact (List.cons.inj heq).1

-- ================================================================== strncpy

/-- The copy of a string that fits is that string. -/
theorem strncpyFrom_exact {m n i : Nat} {src : List UInt8}
    {dest : Vector UInt8 m} (h : 0 ∈ src) (hn : (cString src).length ≤ n)
    (hm : i + (cString src).length < m) :
    ∃ v, strncpyFrom i src n dest = .ret v ∧ ∃ rest,
      v.toList = dest.toList.take i ++ (cString src ++ 0 :: rest) := by
  have hstop : ∀ {i : Nat} {dest : Vector UInt8 m}, i < m →
      ∃ v, Outcome.store dest i 0 = .ret v ∧ ∃ rest,
        v.toList = dest.toList.take i ++ 0 :: rest := by
    intro i dest hi
    refine ⟨_, Outcome.store_ret dest hi 0, dest.toList.drop (i + 1), ?_⟩
    rw [Vector.toList_set, List.set_eq_take_append_cons_drop, if_pos]
    rwa [Vector.length_toList]
  induction src generalizing i n dest with
  | nil => cases h
  | cons c src ih =>
      by_cases hc : c = 0
      · subst hc
        cases n with
        | zero => exact hstop hm
        | succ n => exact hstop hm
      · rw [cString_cons_of_ne hc, List.length_cons] at hn hm
        obtain ⟨n, rfl⟩ : ∃ k, n = k + 1 := ⟨n - 1, by omega⟩
        have hi : i < m := by omega
        unfold strncpyFrom
        rw [if_pos hc, Outcome.store_ret dest hi, Outcome.ret_bind]
        obtain ⟨v, hv, rest, hrest⟩ := @ih n (i + 1) (dest.set i c hi)
          ((List.mem_cons.mp h).resolve_left (Ne.symm hc)) (by omega)
          (by omega)
        refine ⟨v, hv, rest, ?_⟩
        rw [hrest, Outcome.take_set_succ, List.append_assoc,
          cString_cons_of_ne hc]
        rfl

end

end Ntibux
