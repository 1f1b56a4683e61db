/-
A row of 32-bit words in a byte memory, and the row that a stack growing
downwards gets when words are pushed on it: the last one pushed is the
first of the row (`words_below`), and the memory outside the row is as
before (`below_of_out`).
-/
import Ntibux.Lib.Bytes

namespace Ntibux

namespace Bytes

variable {b b' : Bytes} {a sp x : Nat} {ws vs : List Nat}

/-- The words from `a` on are `ws`. -/
def Words (b : Bytes) : Nat → List Nat → Prop
  | _, [] => True
  | a, w :: ws => b.read32 a = w ∧ Words b (a + 4) ws

@[simp] theorem words_nil : b.Words a [] := trivial

@[simp] theorem words_cons {w : Nat} :
    b.Words a (w :: ws) ↔ b.read32 a = w ∧ b.Words (a + 4) ws := Iff.rfl

/-- A row is in its own bytes. -/
theorem Words.congr (h : b.Words a ws)
    (heq : ∀ x, a ≤ x → x < a + 4 * ws.length → b' x = b x) :
    b'.Words a ws := by
  induction ws generalizing a with
  | nil => trivial
  | cons w ws ih =>
      obtain ⟨hw, hws⟩ := h
      rw [List.length_cons] at heq
      refine ⟨?_, ih hws fun x h1 h2 => heq x (by omega) (by omega)⟩
      rw [← hw]
      exact read32_congr fun x h1 h2 => heq x h1 (by omega)

theorem words_append : b.Words a (ws ++ vs)
    ↔ b.Words a ws ∧ b.Words (a + 4 * ws.length) vs := by
  induction ws generalizing a with
  | nil => simp
  | cons w ws ih =>
      have hlen : a + 4 + 4 * ws.length = a + 4 * (w :: ws).length := by
        rw [List.length_cons]
        omega
      rw [List.cons_append, words_cons, words_cons, ih, hlen, and_assoc]

/-- The words `ws` pushed below `sp`, one after the other. -/
def below (b : Bytes) : Nat → List Nat → Bytes
  | _, [] => b
  | sp, w :: ws => below (b.write32 (sp - 4) w) (sp - 4) ws

theorem below_append : b.below sp (ws ++ vs)
    = (b.below sp ws).below (sp - 4 * ws.length) vs := by
  induction ws generalizing b sp with
  | nil => rfl
  | cons w ws ih =>
      have hat : sp - 4 - 4 * ws.length = sp - 4 * (w :: ws).length := by
        rw [List.length_cons]
        omega
      rw [List.cons_append, ← hat]
      exact ih

theorem below_of_out (hlen : 4 * ws.length ≤ sp)
    (h : x < sp - 4 * ws.length ∨ sp ≤ x) : b.below sp ws x = b x := by
  induction ws generalizing b sp with
  | nil => rfl
  | cons w ws ih =>
      rw [List.length_cons] at hlen h
      unfold below
      rw [ih (by omega) (by omega), write32_of_out (by omega)]

/-- The row that has been pushed, the last word first. -/
theorem words_below (hlen : 4 * ws.length ≤ sp)
    (hws : ∀ w ∈ ws, w < 2 ^ 32) :
    (b.below sp ws).Words (sp - 4 * ws.length) ws.reverse := by
  induction ws generalizing b sp with
  | nil => trivial
  | cons w ws ih =>
      rw [List.length_cons] at hlen ⊢
      have hat : sp - 4 * (ws.length + 1) = sp - 4 - 4 * ws.length := by
        omega
      unfold below
      rw [List.reverse_cons, words_append, List.length_reverse, hat]
      refine ⟨ih (by omega) fun v hv => hws v (List.mem_cons_of_mem w hv),
        ?_, trivial⟩
      have hend : sp - 4 - 4 * ws.length + 4 * ws.length = sp - 4 := by
        omega
      rw [hend]
      calc ((b.write32 (sp - 4) w).below (sp - 4) ws).read32 (sp - 4)
          = (b.write32 (sp - 4) w).read32 (sp - 4) :=
            read32_congr fun x h1 _ => below_of_out (by omega) (.inr h1)
        _ = w := read32_write32_self (hws w (by simp))

end Bytes

end Ntibux
