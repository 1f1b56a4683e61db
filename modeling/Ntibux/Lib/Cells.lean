/-
Arrays of a fixed length, read and written with an index that nothing
checks: an index outside the array is a `fault`. A loop that fills a
stretch of an array has one rule, `fill_ret`, which says what is in every
cell afterwards.
-/
import Ntibux.Lib.Outcome

namespace Ntibux

namespace Outcome

variable {α : Type} {m : Nat}

/-- `v[k]`. -/
def load (v : Vector α m) (k : Nat) : Outcome α :=
  if h : k < m then ret v[k] else fault

/-- `v[k] = a`. -/
def store (v : Vector α m) (k : Nat) (a : α) : Outcome (Vector α m) :=
  if h : k < m then ret (v.set k a h) else fault

theorem load_ret (v : Vector α m) {k : Nat} (h : k < m) :
    load v k = ret v[k] :=
  dif_pos h

theorem store_ret (v : Vector α m) {k : Nat} (h : k < m) (a : α) :
    store v k a = ret (v.set k a h) :=
  dif_pos h

/-- A read in bounds, with the value for every index that `fill_ret` asks
for. -/
theorem load_getD (v : Vector α m) {k : Nat} (h : k < m) (d : α) :
    load v k = ret (v[k]?.getD d) := by
  rw [load_ret v h, Vector.getElem?_eq_getElem h, Option.getD_some]

theorem ofFn_getD (v : Vector α m) (d : α) :
    (Vector.ofFn fun k : Fin m => v[k.val]?.getD d) = v := by
  ext k hk
  rw [Vector.getElem_ofFn, Vector.getElem?_eq_getElem hk,
    Option.getD_some]

/-- The cell that is stored is the last one so far. -/
theorem take_set_succ (v : Vector α m) {k : Nat} (h : k < m) (a : α) :
    (v.set k a h).toList.take (k + 1) = v.toList.take k ++ [a] := by
  have hlen : k < (v.toList.set k a).length := by
    rw [List.length_set, Vector.length_toList]
    exact h
  rw [Vector.toList_set, List.take_add_one,
    List.take_set_of_le (Nat.le_refl k), List.getElem?_eq_getElem hlen,
    List.getElem_set_self]
  rfl

/-- `for (; n turns; ++k) v[k] = f(k)`. -/
def fill (f : Nat → Outcome α) (n k : Nat) (v : Vector α m) :
    Outcome (Vector α m) :=
  turns (fun k v => f k >>= store v k) n k v

/-- The cells that the loop came to have the new values, the others the
old ones. -/
theorem fill_ret {f : Nat → Outcome α} {g : Nat → α} {n k : Nat}
    (v : Vector α m) (hf : ∀ i < k + n, k ≤ i → f i = ret (g i))
    (hm : k + n ≤ m) :
    ∃ v', fill f n k v = ret v' ∧ ∀ i (hi : i < m),
      v'[i] = if k ≤ i ∧ i < k + n then g i else v[i] := by
  have hbody : ∀ (j : Nat) (u : Vector α m), j < k + n →
      (k ≤ j ∧ ∀ i (hi : i < m),
        u[i] = if k ≤ i ∧ i < j then g i else v[i]) →
      ∃ u', (f j >>= store u j) = ret u' ∧ (k ≤ j + 1 ∧ ∀ i (hi : i < m),
        u'[i] = if k ≤ i ∧ i < j + 1 then g i else v[i]) := by
    intro j u hj hP
    obtain ⟨hkj, hu⟩ := hP
    have hjm : j < m := by omega
    refine ⟨u.set j (g j) hjm, ?_, by omega, fun i hi => ?_⟩
    · rw [hf j hj hkj, ret_bind, store_ret u hjm]
    · rw [Vector.getElem_set]
      by_cases hij : j = i
      · rw [if_pos hij, if_pos (by omega), hij]
      · rw [if_neg hij, hu i hi]
        have hiff : (k ≤ i ∧ i < j + 1) ↔ (k ≤ i ∧ i < j) := by omega
        simp only [hiff]
  have hstart : k ≤ k ∧ ∀ i (hi : i < m),
      v[i] = if k ≤ i ∧ i < k then g i else v[i] := by
    refine ⟨Nat.le_refl k, fun i hi => ?_⟩
    rw [if_neg (by omega)]
  obtain ⟨v', hv', -, hcells⟩ := turns_ret hbody rfl hstart
  exact ⟨v', hv', hcells⟩

/-- A loop over the whole array leaves nothing of the old one. -/
theorem fill_all {f : Nat → Outcome α} {g : Nat → α} (v : Vector α m)
    (hf : ∀ i < m, f i = ret (g i)) :
    fill f m 0 v = ret (Vector.ofFn fun i => g i) := by
  obtain ⟨v', hv', hcells⟩ := fill_ret v (k := 0) (n := m) (g := g)
    (fun i hi _ => hf i (by omega)) (by omega)
  rw [hv']
  congr 1
  ext i hi
  rw [hcells i hi, if_pos (by omega), Vector.getElem_ofFn]

/-- A loop that copies the whole of another array. -/
theorem fill_load [Inhabited α] (v u : Vector α m) :
    fill (load u) m 0 v = ret u := by
  rw [fill_all v fun k hk => load_getD u hk default, ofFn_getD]

end Outcome

end Ntibux
