/-
What a sequence of keypresses types: the line that they ask for, and the
line that is longer by a NUL for each key without a character.

The two agree after some keys exactly if these are `Settled`: since a
moment when everything had been erased, each key had a character.
-/
import Mathlib.Data.List.Infix
import Mathlib.Data.List.Induction
import Ntibux.Term.Line

namespace Ntibux

namespace Keypress

/-- Ctrl-L. -/
def Clears (k : Keypress) : Prop := k.ctrl = true ∧ k.asc = 0x6c

/-- Backspace. -/
def Erases (k : Keypress) : Prop := k.asc = 0x08

def Newline (k : Keypress) : Prop := k.asc = 0x0a

/-- The key has no character. -/
def Silent (k : Keypress) : Prop := k.asc = 0

instance (k : Keypress) : Decidable k.Clears :=
  inferInstanceAs (Decidable (_ ∧ _))

instance (k : Keypress) : Decidable k.Erases :=
  inferInstanceAs (Decidable (_ = _))

instance (k : Keypress) : Decidable k.Newline :=
  inferInstanceAs (Decidable (_ = _))

instance (k : Keypress) : Decidable k.Silent :=
  inferInstanceAs (Decidable (_ = _))

/-- The character of a key, a tab as a space. -/
def char (k : Keypress) : UInt8 := if k.asc = 0x09 then 0x20 else k.asc

/-- What the key asks for. -/
def edit (line : List UInt8) (k : Keypress) : List UInt8 :=
  if k.Clears then line
  else if k.Erases then line.dropLast
  else if k.Silent then line
  else line ++ [k.char]

/-- The same, with a NUL for a key without a character. -/
def put (line : List UInt8) (k : Keypress) : List UInt8 :=
  if k.Clears then line
  else if k.Erases then line.dropLast
  else line ++ [k.char]

end Keypress

/-- The line that the keys ask for. -/
def typed (ks : List Keypress) : List UInt8 := ks.foldl Keypress.edit []

/-- The line with the NULs. -/
def putAll (ks : List Keypress) : List UInt8 := ks.foldl Keypress.put []

/-- There is a newline at the end of the line, or no room behind it. -/
def Ended (n : Nat) (line : List UInt8) : Prop :=
  line.getLast? = some 0x0a ∨ line.length = n - 1

/-- The keys that put something on the line. -/
def puts (ks : List Keypress) : Nat :=
  ks.countP fun k => ¬k.Clears ∧ ¬k.Erases

def erasures (ks : List Keypress) : Nat := ks.countP fun k => k.Erases

/-- All that the keys put on the line, they erase again. -/
def Erased (ks : List Keypress) : Prop :=
  ∀ suf, suf <:+ ks → puts suf ≤ erasures suf

/-- The keys without a character have been erased, and whatever was on the
line with them. -/
def Settled (ks : List Keypress) : Prop :=
  ∃ pre post, ks = pre ++ post ∧ Erased pre ∧ ∀ k ∈ post, ¬k.Silent

/-- The keypresses that `getchar` returns for some scancodes. -/
def pressesFrom : List UInt8 → Keys → List Keypress
  | [], _ => []
  | c :: codes, s =>
      if c = 0x1d ∨ c = 0x9d then
        pressesFrom codes { s with ctrl := c &&& 0x80 == 0 }
      else if c = 0x2a ∨ c = 0xaa then
        pressesFrom codes { s with shift := c &&& 0x80 == 0 }
      else if c = 0x38 ∨ c = 0xb8 then
        pressesFrom codes { s with alt := c &&& 0x80 == 0 }
      else if c &&& 0x80 ≠ 0 then pressesFrom codes s
      else
        match ascOf s.shift c with
        | .ret asc =>
            { asc, scancode := c, ctrl := s.ctrl, alt := s.alt }
              :: pressesFrom codes s
        | _ => []

def presses (s : Keys) : List Keypress := pressesFrom s.codes s

-- ================================================================ the lines

section

variable {k : Keypress} {ks : List Keypress} {line : List UInt8}

/-- One key more edits the line. -/
@[simp] theorem typed_concat :
    typed (ks ++ [k]) = k.edit (typed ks) := by
  unfold typed
  rw [List.foldl_append]
  rfl

/-- One key more is put on the line, whatever it is. -/
@[simp] theorem putAll_concat :
    putAll (ks ++ [k]) = k.put (putAll ks) := by
  unfold putAll
  rw [List.foldl_append]
  rfl

/-- A key counts as put if it neither clears nor erases. -/
theorem puts_concat : puts (ks ++ [k])
    = puts ks + if ¬k.Clears ∧ ¬k.Erases then 1 else 0 := by
  unfold puts
  rw [List.countP_append]
  congr 1
  by_cases h : ¬k.Clears ∧ ¬k.Erases <;> simp [h]

/-- And as an erasure if it erases. -/
theorem erasures_concat : erasures (ks ++ [k])
    = erasures ks + if k.Erases then 1 else 0 := by
  unfold erasures
  rw [List.countP_append]
  congr 1
  by_cases h : k.Erases <;> simp [h]

/-- No key does both. -/
theorem Keypress.Erases.not_clears (h : k.Erases) : ¬k.Clears := by
  rintro ⟨-, hl⟩
  rw [Keypress.Erases, hl] at h
  cases h

/-- To go through the last parts of the keys with one more is to go through
those without it and add it. -/
theorem suffix_concat {P : List Keypress → Prop} (h0 : P []) :
    (∀ suf, suf <:+ ks ++ [k] → P suf)
      ↔ ∀ suf, suf <:+ ks → P (suf ++ [k]) := by
  constructor
  · intro h suf hs
    exact h _ (List.suffix_concat_iff.mpr (.inr ⟨suf, rfl, hs⟩))
  · intro h suf hs
    rcases List.suffix_concat_iff.mp hs with rfl | ⟨suf', rfl, hs'⟩
    · exact h0
    · exact h suf' hs'

/-- How long the line with the NULs is. -/
theorem length_putAll_le (d : Nat) : (putAll ks).length ≤ d
    ↔ ∀ suf, suf <:+ ks → puts suf ≤ erasures suf + d := by
  induction ks using List.reverseRecOn generalizing d with
  | nil =>
      refine iff_of_true (Nat.zero_le _) fun suf h => ?_
      rw [List.suffix_nil.mp h]
      exact Nat.zero_le _
  | append_singleton ks k ih =>
      rw [suffix_concat (Nat.zero_le _), putAll_concat]
      simp only [puts_concat, erasures_concat]
      unfold Keypress.put
      -- the last key leaves the line, shortens it or puts a character
      by_cases hc : k.Clears
      · have he : ¬k.Erases := fun he => he.not_clears hc
        simp only [hc, he, not_true_eq_false, false_and, if_true, if_false,
          Nat.add_zero]
        exact ih d
      · by_cases he : k.Erases
        · simp only [hc, he, not_false_eq_true, not_true_eq_false,
            and_false, if_true, if_false, Nat.add_zero,
            List.length_dropLast]
          rw [Nat.sub_le_iff_le_add, ih]
          simp only [Nat.add_assoc, Nat.add_comm 1]
        · simp only [hc, he, not_false_eq_true, and_self, if_true, if_false,
            Nat.add_zero, List.length_append, List.length_singleton]
          cases d with
          | zero =>
              refine iff_of_false (by omega) fun h => ?_
              have hnil := h [] (List.nil_suffix)
              cases hnil
          | succ d =>
              rw [Nat.add_le_add_iff_right, ih]
              refine forall₂_congr fun suf _ => ?_
              omega

/-- Nothing is left on the line if and only if all that was put there was
erased. -/
theorem putAll_eq_nil : putAll ks = [] ↔ Erased ks := by
  rw [← List.length_eq_zero_iff, ← Nat.le_zero, length_putAll_le]
  rfl

/-- One more key: everything is erased, or it has a character. -/
theorem settled_concat : Settled (ks ++ [k])
    ↔ putAll (ks ++ [k]) = [] ∨ (Settled ks ∧ ¬k.Silent) := by
  rw [putAll_eq_nil]
  constructor
  · rintro ⟨pre, post, heq, hpre, hpost⟩
    rcases List.eq_nil_or_concat post with rfl | ⟨post', k', rfl⟩
    · rw [List.append_nil] at heq
      left
      rw [heq]
      exact hpre
    · right
      rw [List.concat_eq_append, ← List.append_assoc] at heq
      obtain ⟨rfl, hk⟩ := List.append_inj' heq rfl
      obtain rfl := (List.cons.inj hk).1
      exact ⟨⟨pre, post', rfl, hpre, fun k' hk' =>
        hpost k' (by simp [hk'])⟩, hpost k (by simp)⟩
  · rintro (h | ⟨⟨pre, post, rfl, hpre, hpost⟩, hk⟩)
    · exact ⟨_, [], (List.append_nil _).symm, h, nofun⟩
    · refine ⟨pre, post ++ [k], List.append_assoc _ _ _, hpre, ?_⟩
      intro k' hk'
      rcases List.mem_append.mp hk' with hk' | hk'
      · exact hpost k' hk'
      · rw [List.mem_singleton.mp hk']
        exact hk

/-- A key with a character does the same to both lines. -/
theorem Keypress.edit_eq_put (h : ¬k.Silent) : k.edit line = k.put line := by
  unfold Keypress.edit Keypress.put
  rw [if_neg h]

/-- A key without a character leaves a mark on the line and nothing in what
is typed. -/
theorem Keypress.Silent.put_eq (h : k.Silent) :
    k.edit line = line ∧ k.put line = line ++ [k.char] := by
  have hc : ¬k.Clears := by
    rintro ⟨-, hl⟩
    rw [Keypress.Silent, hl] at h
    cases h
  have he : ¬k.Erases := by
    intro he
    rw [Keypress.Silent, he] at h
    cases h
  unfold Keypress.edit Keypress.put
  rw [if_neg hc, if_neg he, if_pos h, if_neg hc, if_neg he]
  exact ⟨rfl, rfl⟩

/-- The line with the NULs is the longer one, and stays it until it is
empty. -/
theorem length_edit_lt {line' : List UInt8}
    (h : line.length < line'.length) (hne : k.put line' ≠ []) :
    (k.edit line).length < (k.put line').length := by
  have hpos : 0 < (k.put line').length := List.length_pos_iff.mpr hne
  unfold Keypress.edit Keypress.put at *
  by_cases hc : k.Clears
  · simp only [hc, if_true]
    exact h
  · by_cases he : k.Erases
    · simp only [hc, he, if_true, if_false, List.length_dropLast] at hpos ⊢
      omega
    · simp only [hc, he, if_false, List.length_append,
        List.length_singleton]
      split
      · omega
      · rw [List.length_append, List.length_singleton]
        omega

/-- A key that empties the longer of two lines empties the shorter. -/
theorem edit_eq_nil {line' : List UInt8}
    (h : line.length ≤ line'.length) (hnil : k.put line' = []) :
    k.edit line = [] := by
  unfold Keypress.edit Keypress.put at *
  by_cases hc : k.Clears
  · simp only [hc, if_true] at hnil ⊢
    rw [hnil] at h
    exact List.eq_nil_of_length_eq_zero (Nat.le_zero.mp h)
  · by_cases he : k.Erases
    · simp only [hc, he, if_true, if_false] at hnil ⊢
      have hlen := congrArg List.length hnil
      rw [List.length_dropLast, List.length_nil] at hlen
      apply List.eq_nil_of_length_eq_zero
      rw [List.length_dropLast]
      omega
    · simp [hc, he] at hnil

/-- After settled keys the two lines are the same, and otherwise the one
with the NULs is longer. -/
theorem typed_or (ks : List Keypress) :
    (Settled ks ∧ typed ks = putAll ks)
      ∨ (¬Settled ks ∧ (typed ks).length < (putAll ks).length) := by
  induction ks using List.reverseRecOn with
  | nil => exact .inl ⟨⟨[], [], rfl, putAll_eq_nil.mp rfl, nofun⟩, rfl⟩
  | append_singleton ks k ih =>
      rw [settled_concat]
      by_cases hnil : putAll (ks ++ [k]) = []
      · refine .inl ⟨.inl hnil, ?_⟩
        rw [putAll_concat] at hnil
        have hle : (typed ks).length ≤ (putAll ks).length := by
          rcases ih with ⟨-, heq⟩ | ⟨-, hlt⟩
          · rw [heq]
          · exact Nat.le_of_lt hlt
        rw [typed_concat, putAll_concat, hnil]
        exact edit_eq_nil hle hnil
      · rw [putAll_concat] at hnil
        rw [typed_concat, putAll_concat]
        simp only [hnil, false_or]
        rcases ih with ⟨hs, heq⟩ | ⟨hs, hlt⟩
        · by_cases hk : k.Silent
          · refine .inr ⟨fun h => h.2 hk, ?_⟩
            rw [hk.put_eq.1, hk.put_eq.2, heq, List.length_append]
            exact Nat.lt_succ_self _
          · refine .inl ⟨⟨hs, hk⟩, ?_⟩
            rw [heq]
            exact Keypress.edit_eq_put hk
        · exact .inr ⟨fun h => hs h.1, length_edit_lt hlt hnil⟩

/-- What is typed is never longer than what is put. -/
theorem length_typed_le (ks : List Keypress) :
    (typed ks).length ≤ (putAll ks).length := by
  rcases typed_or ks with ⟨-, heq⟩ | ⟨-, hlt⟩
  · rw [heq]
  · exact Nat.le_of_lt hlt

/-- The two are the same if and only if the keys have settled. -/
theorem typed_eq_iff : typed ks = putAll ks ↔ Settled ks := by
  rcases typed_or ks with ⟨hs, heq⟩ | ⟨hs, hlt⟩
  · exact iff_of_true heq hs
  · refine iff_of_false (fun heq => ?_) hs
    rw [heq] at hlt
    exact Nat.lt_irrefl _ hlt

-- ============================================================ where it ends

/-- What is in the line that the keys ask for are their characters. -/
theorem mem_typed {c : UInt8} (h : c ∈ typed ks) :
    ∃ k ∈ ks, ¬k.Silent ∧ k.char = c := by
  induction ks using List.reverseRecOn with
  | nil => cases h
  | append_singleton ks k ih =>
      have hrest : c ∈ typed ks → ∃ k' ∈ ks ++ [k], ¬k'.Silent
          ∧ k'.char = c := by
        intro h
        obtain ⟨k', hk', h'⟩ := ih h
        exact ⟨k', by simp [hk'], h'⟩
      rw [typed_concat, Keypress.edit] at h
      split at h
      · exact hrest h
      · split at h
        · exact hrest (List.mem_of_mem_dropLast h)
        · split at h
          · exact hrest h
          · rename_i hs
            rcases List.mem_append.mp h with h | h
            · exact hrest h
            · exact ⟨k, by simp, hs, (List.mem_singleton.mp h).symm⟩

/-- The key that ends a line is the one with a newline for its character. -/
theorem char_eq_newline : k.char = 0x0a ↔ k.Newline := by
  unfold Keypress.char Keypress.Newline
  split
  · rename_i h
    rw [h]
    decide
  · rfl

/-- The line that the keys ask for has no NUL. -/
theorem zero_not_mem_typed (ks : List Keypress) : 0 ∉ typed ks := by
  intro h
  obtain ⟨k, -, hs, hc⟩ := mem_typed h
  unfold Keypress.char at hc
  split at hc
  · cases hc
  · exact hs hc

/-- There has been no newline, and there is room for another character. -/
structure Open (n : Nat) (ks : List Keypress) : Prop where
  length_lt : (putAll ks).length < n - 1
  noNewline : ∀ k ∈ ks, ¬k.Newline

/-- While the loop goes on, the line that is asked for has not ended. -/
theorem Open.not_ended {n : Nat} (h : Open n ks) : ¬Ended n (typed ks) := by
  rintro (hlast | hlen)
  · obtain ⟨k, hk, -, hc⟩ := mem_typed (List.mem_of_getLast? hlast)
    exact h.noNewline k hk (char_eq_newline.mp hc)
  · have hle := length_typed_le ks
    have hlt := h.length_lt
    omega

/-- It is put like any other. -/
theorem Keypress.Newline.put_eq (h : k.Newline) :
    k.put line = line ++ [0x0a] := by
  have hc : ¬k.Clears := by
    rintro ⟨-, hl⟩
    rw [Keypress.Newline, hl] at h
    cases h
  have he : ¬k.Erases := by
    intro he
    rw [Keypress.Newline, he] at h
    cases h
  unfold Keypress.put
  rw [if_neg hc, if_neg he, char_eq_newline.mpr h]

/-- A key adds no more than one character. -/
theorem length_put_le : (k.put line).length ≤ line.length + 1 := by
  unfold Keypress.put
  split
  · exact Nat.le_succ _
  · split
    · rw [List.length_dropLast]
      omega
    · rw [List.length_append, List.length_singleton]

/-- The loop stops at a line that has ended. -/
theorem Open.ended {n : Nat} (h : Open n ks) (hs : ¬Open n (ks ++ [k])) :
    Ended n (putAll (ks ++ [k])) := by
  rw [putAll_concat]
  by_cases hk : k.Newline
  · left
    rw [hk.put_eq, List.getLast?_concat]
  · right
    have hle := @length_put_le k (putAll ks)
    have hlt := h.length_lt
    by_contra hne
    refine hs ⟨?_, fun k' hk' => ?_⟩
    · rw [putAll_concat]
      omega
    · rcases List.mem_append.mp hk' with hk' | hk'
      · exact h.noNewline k' hk'
      · rw [List.mem_singleton.mp hk']
        exact hk

end

end Ntibux
