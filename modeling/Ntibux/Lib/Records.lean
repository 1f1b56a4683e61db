/-
Records of a fixed size in a byte memory: 8- and 16-bit fields, the bytes
of one record, and a table that is filled record by record, in any order.
What is written is there (`fillTable_has`), and nothing else is touched
(`fillTable_of_out`).
-/
import Ntibux.Lib.Bytes
import Mathlib.Data.List.Nodup

namespace Ntibux

namespace Bytes

variable {b b' : Bytes} {a base w x v i : Nat} {r : List UInt8}
  {l : List (Nat × List UInt8)}

-- ================================================================== fields

/-- Store the byte `v` at `a`. -/
def write8 (b : Bytes) (a v : Nat) : Bytes := fun x =>
  if x = a then UInt8.ofNat v else b x

/-- Store the 16-bit word `v` at `a`, little-endian. -/
def write16 (b : Bytes) (a v : Nat) : Bytes :=
  (b.write8 a v).write8 (a + 1) (v / 2 ^ 8)

/-- The little-endian 16-bit word at `a`. -/
def read16 (b : Bytes) (a : Nat) : Nat :=
  (b a).toNat + 2 ^ 8 * (b (a + 1)).toNat

theorem read16_congr (h : ∀ x, a ≤ x → x < a + 2 → b' x = b x) :
    b'.read16 a = b.read16 a := by
  unfold read16
  rw [h a (by omega) (by omega), h (a + 1) (by omega) (by omega)]

theorem write8_of_ne (h : x ≠ a) (v : Nat) : b.write8 a v x = b x :=
  if_neg h

theorem write16_of_out (h : x < a ∨ a + 2 ≤ x) (v : Nat) :
    b.write16 a v x = b x := by
  unfold write16
  rw [write8_of_ne (by omega), write8_of_ne (by omega)]

theorem read16_write16_self (hv : v < 2 ^ 16) :
    (b.write16 a v).read16 a = v := by
  unfold read16 write16 write8
  rw [if_neg (by omega), if_pos rfl, if_pos rfl, UInt8.toNat_ofNat',
    UInt8.toNat_ofNat']
  omega

-- ================================================================= records

/-- The bytes `r` from `a` on. -/
def put (b : Bytes) (a : Nat) (r : List UInt8) : Bytes := fun x =>
  if a ≤ x ∧ x < a + r.length then r.getD (x - a) 0 else b x

/-- The bytes from `a` on are `r`. -/
def Has (b : Bytes) (a : Nat) (r : List UInt8) : Prop :=
  ∀ i < r.length, b (a + i) = r.getD i 0

theorem put_of_out (h : x < a ∨ a + r.length ≤ x) :
    b.put a r x = b x := if_neg (by omega)

theorem put_has : (b.put a r).Has a r := by
  intro i hi
  unfold put
  rw [if_pos (by omega), Nat.add_sub_cancel_left]

theorem Has.congr (h : b.Has a r)
    (heq : ∀ x, a ≤ x → x < a + r.length → b' x = b x) : b'.Has a r := by
  intro i hi
  rw [heq (a + i) (by omega) (by omega)]
  exact h i hi

-- ================================================================== tables

/-- Records put into a table at `base`, the first of the list first. -/
def fillTable (base w : Nat) (l : List (Nat × List UInt8)) (b : Bytes) :
    Bytes :=
  l.foldl (fun b p => b.put (base + w * p.1) p.2) b

/-- Two records of a table have no byte in common. -/
theorem record_apart {n m : Nat} (hne : n ≠ m)
    (hx : base + w * n ≤ x ∧ x < base + w * n + w) :
    x < base + w * m ∨ base + w * m + w ≤ x := by
  rcases Nat.lt_or_gt_of_ne hne with h | h
  · have hm : w * n + w ≤ w * m := by
      rw [← Nat.mul_succ]
      exact Nat.mul_le_mul_left w h
    omega
  · have hm : w * m + w ≤ w * n := by
      rw [← Nat.mul_succ]
      exact Nat.mul_le_mul_left w h
    omega

/-- A byte of no record that is put. -/
theorem fillTable_of_out (hlen : ∀ p ∈ l, p.2.length = w)
    (h : ∀ p ∈ l, x < base + w * p.1 ∨ base + w * p.1 + w ≤ x) :
    fillTable base w l b x = b x := by
  induction l generalizing b with
  | nil => rfl
  | cons p l ih =>
      have hp := h p List.mem_cons_self
      rw [← hlen p List.mem_cons_self] at hp
      have hfirst : b.put (base + w * p.1) p.2 x = b x := by
        apply put_of_out
        rw [hlen p List.mem_cons_self] at hp ⊢
        exact hp
      exact (ih (fun q hq => hlen q (List.mem_cons_of_mem p hq))
        (fun q hq => h q (List.mem_cons_of_mem p hq))).trans hfirst

/-- Each record that is put is there, if no two have one number. -/
theorem fillTable_has (hlen : ∀ p ∈ l, p.2.length = w)
    (hnd : (l.map Prod.fst).Nodup) {n : Nat} (hn : (n, r) ∈ l) :
    (fillTable base w l b).Has (base + w * n) r := by
  induction l generalizing b with
  | nil => exact absurd hn List.not_mem_nil
  | cons p l ih =>
      have hlen' : ∀ q ∈ l, q.2.length = w := fun q hq =>
        hlen q (List.mem_cons_of_mem p hq)
      rw [List.map_cons, List.nodup_cons] at hnd
      rcases List.mem_cons.mp hn with rfl | hn
      · have hr : r.length = w := hlen (n, r) List.mem_cons_self
        refine Has.congr (b := b.put (base + w * n) r) put_has ?_
        intro x h1 h2
        apply fillTable_of_out hlen'
        intro q hq
        have hne : n ≠ q.1 := fun h =>
          hnd.1 (List.mem_map.mpr ⟨q, hq, h.symm⟩)
        exact record_apart hne ⟨h1, by omega⟩
      · exact ih hlen' hnd.2 hn

end Bytes

end Ntibux
