/-
Whatever is written, the cursor stays on the screen, no access leaves an
array, and the colours stay as they are.

A text is its characters one after another (`emit`), and the calls that
write a string come to that.
-/
import Ntibux.Term.Proofs.Screen

namespace Ntibux

namespace Terminal

variable {t t' : Terminal} {c : UInt8} {s s' : List UInt8}

/-- The cursor is on the screen. -/
structure Inside (t : Terminal) : Prop where
  x_lt : t.x < VGA_WIDTH
  y_lt : t.y < VGA_HEIGHT

/-- The characters of a text, one after another. -/
def emit : List UInt8 → Terminal → Outcome Terminal
  | [], t => .ret t
  | c :: s, t => do
      let t ← t.tputcNoup c
      emit s t

/-- The cursor is on the screen, and the colours are as they were. -/
structure Moved (t t' : Terminal) : Prop where
  inside : t'.Inside
  color : t'.color = t.color
  defColor : t'.defColor = t.defColor

theorem Moved.trans {t₁ : Terminal} (h : Moved t t₁) (h' : Moved t₁ t') :
    Moved t t' :=
  ⟨h'.inside, h'.color.trans h.color, h'.defColor.trans h.defColor⟩

-- ============================================================ characters

theorem tcurNextl_moved (hy : t.y < VGA_HEIGHT) :
    ∃ t', t.tcurNextl = .ret t' ∧ Moved t t' := by
  unfold tcurNextl
  split
  · rename_i hlt
    refine ⟨_, rfl, ⟨Nat.zero_lt_succ _, ?_⟩, rfl, rfl⟩
    show t.y + 1 < VGA_HEIGHT
    omega
  · obtain ⟨cache, h, -, -⟩ := tcurScroll_ret { t with x := 0 }
    exact ⟨_, h, ⟨Nat.zero_lt_succ _, hy⟩, rfl, rfl⟩

theorem tcurNext_moved (ht : t.Inside) :
    ∃ t', t.tcurNext = .ret t' ∧ Moved t t' := by
  unfold tcurNext
  split
  · rename_i hlt
    refine ⟨_, rfl, ⟨?_, ht.y_lt⟩, rfl, rfl⟩
    show t.x + 1 < VGA_WIDTH
    omega
  · obtain ⟨t', h, hm⟩ := tcurNextl_moved (t := { t with x := 0 }) ht.y_lt
    exact ⟨t', h, hm.inside, hm.color, hm.defColor⟩

/-- The cells left of the cursor are in the array. -/
theorem blankLeft_ret {x y : Nat} (v : UInt16) (hx : x < VGA_WIDTH)
    (hy : y < VGA_HEIGHT) (cache : Screen) :
    ∃ cache', blankLeft y v x cache = .ret cache' := by
  induction x generalizing cache with
  | zero => exact ⟨cache, rfl⟩
  | succ x ih =>
      unfold blankLeft
      rw [Outcome.store_ret cache (cell_lt hy hx), Outcome.ret_bind]
      exact ih (by omega) _

theorem tcurBeginning_moved (ht : t.Inside) :
    ∃ t', t.tcurBeginning = .ret t' ∧ Moved t t' := by
  obtain ⟨cache, h⟩ :=
    blankLeft_ret (vgaEntry 0x20 t.defColor) ht.x_lt ht.y_lt t.cacheBuffer
  unfold tcurBeginning
  rw [h, Outcome.ret_bind, updateVgaBuffer_eq]
  exact ⟨_, rfl, ⟨Nat.zero_lt_succ _, ht.y_lt⟩, rfl, rfl⟩

/-- One character moves the cursor on the screen. -/
theorem tputcNoup_moved (ht : t.Inside) (c : UInt8) :
    ∃ t', t.tputcNoup c = .ret t' ∧ Moved t t' := by
  unfold tputcNoup
  split
  · exact tcurNextl_moved ht.y_lt
  · split
    · exact tcurBeginning_moved ht
    · rw [Outcome.store_ret _ (cell_lt ht.y_lt ht.x_lt), Outcome.ret_bind]
      obtain ⟨t', h, hm⟩ := tcurNext_moved (t := { t with
        cacheBuffer := t.cacheBuffer.set _ (vgaEntry c t.color)
          (cell_lt ht.y_lt ht.x_lt) }) ⟨ht.x_lt, ht.y_lt⟩
      exact ⟨t', h, hm.inside, hm.color, hm.defColor⟩

-- ================================================================= texts

theorem emit_append (s s' : List UInt8) (t : Terminal) :
    emit (s ++ s') t = emit s t >>= emit s' := by
  induction s generalizing t with
  | nil => rfl
  | cons c s ih =>
      rw [List.cons_append, emit, emit]
      cases t.tputcNoup c with
      | ret t₁ => exact ih t₁
      | _ => rfl

theorem emit_moved (ht : t.Inside) (s : List UInt8) :
    ∃ t', emit s t = .ret t' ∧ Moved t t' := by
  induction s generalizing t with
  | nil => exact ⟨t, rfl, ht, rfl, rfl⟩
  | cons c s ih =>
      obtain ⟨t₁, h₁, hm₁⟩ := tputcNoup_moved ht c
      obtain ⟨t', h', hm'⟩ := ih hm₁.inside
      refine ⟨t', ?_, hm₁.trans hm'⟩
      rw [emit, h₁, Outcome.ret_bind, h']

/-- A string that ends with a NUL is the characters before it. -/
theorem putString_eq (h : 0 ∈ s) (t : Terminal) :
    putString s t = emit (s.takeWhile (· ≠ 0)) t := by
  induction s generalizing t with
  | nil => cases h
  | cons c s ih =>
      unfold putString
      by_cases hc : c = 0
      · rw [if_pos hc, List.takeWhile_cons_of_neg (by simpa using hc)]
        rfl
      · rw [if_neg hc, List.takeWhile_cons_of_pos (by simpa using hc), emit]
        have hmem : 0 ∈ s := by
          rcases List.mem_cons.mp h with h | h
          · exact absurd h.symm hc
          · exact h
        simp only [ih hmem]

theorem putChars_eq {n : Nat} (h : n ≤ s.length) (t : Terminal) :
    putChars n s t = emit (s.take n) t := by
  induction n generalizing s t with
  | zero => rfl
  | succ n ih =>
      cases s with
      | nil => cases h
      | cons c s =>
          unfold putChars
          rw [List.take_succ_cons, emit]
          simp only [ih (Nat.le_of_succ_le_succ h)]

/-- A string is written, and its length returned. -/
theorem tputsNoup_moved (ht : t.Inside) (h : 0 ∈ s) :
    ∃ t', t.tputsNoup s = .ret ((s.takeWhile (· ≠ 0)).length, t')
      ∧ Moved t t' := by
  obtain ⟨t', he, hm⟩ := emit_moved ht (s.takeWhile (· ≠ 0))
  refine ⟨t', ?_, hm⟩
  unfold tputsNoup
  rw [putString_eq h, he, Outcome.ret_bind, Outcome.pure_eq]

end Terminal

end Ntibux
