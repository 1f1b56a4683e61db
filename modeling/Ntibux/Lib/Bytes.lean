/-
A byte-addressed store and its little-endian 32-bit words: what a word
write does to the bytes under it, and the frame facts (a write changes
its own four bytes, a read sees its own four bytes) that let a proof
move a linked structure across stores elsewhere.
-/
import Mathlib.Algebra.Group.Nat.Defs
import Mathlib.Tactic.Basic

namespace Ntibux

/-- The contents of a byte-addressed memory. -/
abbrev Bytes := Nat → UInt8

namespace Bytes

variable {b b' : Bytes} {a c v x : Nat}

/-- The little-endian 32-bit word at `a`. -/
def read32 (b : Bytes) (a : Nat) : Nat :=
  (b a).toNat + 2 ^ 8 * (b (a + 1)).toNat + 2 ^ 16 * (b (a + 2)).toNat
    + 2 ^ 24 * (b (a + 3)).toNat

/-- Store the 32-bit word `v` at `a`, little-endian. -/
def write32 (b : Bytes) (a v : Nat) : Bytes := fun x =>
  if x = a then UInt8.ofNat v
  else if x = a + 1 then UInt8.ofNat (v / 2 ^ 8)
  else if x = a + 2 then UInt8.ofNat (v / 2 ^ 16)
  else if x = a + 3 then UInt8.ofNat (v / 2 ^ 24)
  else b x

/-- `memset`: the `n` bytes from `a` on become `v`. -/
def fill (b : Bytes) (a n : Nat) (v : UInt8) : Bytes := fun x =>
  if a ≤ x ∧ x < a + n then v else b x

theorem fill_of_has (h : a ≤ x ∧ x < a + c) (v : UInt8) :
    b.fill a c v x = v := if_pos h

theorem fill_of_not (h : ¬ (a ≤ x ∧ x < a + c)) (v : UInt8) :
    b.fill a c v x = b x := if_neg h

/-- A byte is as before, or it is among those that were filled. -/
theorem fill_cases (b : Bytes) (a c : Nat) (v : UInt8) (x : Nat) :
    b.fill a c v x = b x ∨ a ≤ x ∧ x < a + c := by
  by_cases h : a ≤ x ∧ x < a + c
  · exact .inr h
  · exact .inl (fill_of_not h v)

/-- A word write changes only its own four bytes. -/
theorem write32_of_out (h : x < a ∨ a + 4 ≤ x) (v : Nat) :
    b.write32 a v x = b x := by
  unfold write32
  rw [if_neg (by omega), if_neg (by omega), if_neg (by omega),
    if_neg (by omega)]

theorem write32_congr (h : b' x = b x) (a v : Nat) :
    b'.write32 a v x = b.write32 a v x := by
  unfold write32
  rw [h]

/-- The `n` bytes from `c` on are copied to `a`. -/
def copy (b : Bytes) (a c n : Nat) : Bytes := fun x =>
  if a ≤ x ∧ x < a + n then b (c + (x - a)) else b x

theorem copy_at {i n : Nat} (hi : i < n) : b.copy a c n (a + i) = b (c + i) := by
  unfold copy
  rw [if_pos (by omega), Nat.add_sub_cancel_left]

theorem copy_of_out {n : Nat} (h : ¬(a ≤ x ∧ x < a + n)) :
    b.copy a c n x = b x := if_neg h

/-- A word that is read and written is four bytes copied. -/
theorem write32_read32 (b : Bytes) (a c : Nat) :
    b.write32 a (b.read32 c) = b.copy a c 4 := by
  have hbyte : ∀ (u : UInt8) (n : Nat), n % 256 = u.toNat →
      UInt8.ofNat n = u := by
    intro u n h
    apply UInt8.toNat_inj.mp
    rw [UInt8.toNat_ofNat', ← h]
  funext x
  have h0 := (b c).toNat_lt
  have h1 := (b (c + 1)).toNat_lt
  have h2 := (b (c + 2)).toNat_lt
  have h3 := (b (c + 3)).toNat_lt
  by_cases hx : a ≤ x ∧ x < a + 4
  · obtain ⟨i, rfl⟩ : ∃ i, x = a + i := ⟨x - a, by omega⟩
    have hi : i < 4 := by omega
    rw [copy_at hi]
    unfold write32 read32
    have hcases : i = 0 ∨ i = 1 ∨ i = 2 ∨ i = 3 := by omega
    rcases hcases with rfl | rfl | rfl | rfl
    · rw [if_pos (by omega)]
      refine hbyte (b c) _ ?_
      omega
    · rw [if_neg (by omega), if_pos rfl]
      exact hbyte _ _ (by omega)
    · rw [if_neg (by omega), if_neg (by omega), if_pos rfl]
      exact hbyte _ _ (by omega)
    · rw [if_neg (by omega), if_neg (by omega), if_neg (by omega),
        if_pos rfl]
      exact hbyte _ _ (by omega)
  · rw [copy_of_out hx, write32_of_out (by omega)]

/-- A word read sees only its own four bytes. -/
theorem read32_congr (h : ∀ x, a ≤ x → x < a + 4 → b' x = b x) :
    b'.read32 a = b.read32 a := by
  unfold read32
  rw [h a (by omega) (by omega), h (a + 1) (by omega) (by omega),
    h (a + 2) (by omega) (by omega), h (a + 3) (by omega) (by omega)]

/-- The same word at another address. -/
theorem read32_moved (h : ∀ i < 4, b' (c + i) = b (a + i)) :
    b'.read32 c = b.read32 a := by
  have h0 : b' c = b a := h 0 (by decide)
  unfold read32
  rw [h0, h 1 (by decide), h 2 (by decide), h 3 (by decide)]

theorem read32_lt (b : Bytes) (a : Nat) : b.read32 a < 2 ^ 32 := by
  unfold read32
  have h0 := (b a).toNat_lt
  have h1 := (b (a + 1)).toNat_lt
  have h2 := (b (a + 2)).toNat_lt
  have h3 := (b (a + 3)).toNat_lt
  omega

/-- A word just written reads back. -/
theorem read32_write32_self (hv : v < 2 ^ 32) :
    (b.write32 a v).read32 a = v := by
  unfold read32 write32
  simp only [if_true, if_neg (show a + 1 ≠ a by omega),
    if_neg (show a + 2 ≠ a by omega), if_neg (show a + 3 ≠ a by omega),
    if_neg (show a + 2 ≠ a + 1 by omega),
    if_neg (show a + 3 ≠ a + 1 by omega),
    if_neg (show a + 3 ≠ a + 2 by omega), UInt8.toNat_ofNat']
  omega

/-- A word write does not reach a word four bytes or more away. -/
theorem read32_write32_of_apart (h : a + 4 ≤ c ∨ c + 4 ≤ a) (v : Nat) :
    (b.write32 a v).read32 c = b.read32 c :=
  read32_congr fun _ h1 h2 => write32_of_out (by omega) v

end Bytes

end Ntibux
