/-
`tread_line` over all sequences of scancodes.

The loop keeps the line with the NULs in its buffer (`Holds`), and stops
where that one ends. So it returns the line that the keys ask for exactly
if the keys that it has read are settled.
-/
import Ntibux.Term.Proofs.Cursor
import Ntibux.Term.Typing

namespace Ntibux

open Outcome (Gives)

-- ================================================================ scancodes

/-- Which keys the codes make does not depend on those still in the buffer.
-/
theorem pressesFrom_codes (codes codes' : List UInt8) (s : Keys) :
    pressesFrom codes { s with codes := codes' } = pressesFrom codes s := by
  induction codes generalizing s with
  | nil => rfl
  | cons c codes ih =>
      unfold pressesFrom
      split
      · exact ih { s with ctrl := c &&& 0x80 == 0 }
      · split
        · exact ih { s with shift := c &&& 0x80 == 0 }
        · split
          · exact ih { s with alt := c &&& 0x80 == 0 }
          · rw [ih s]

/-- A code without the release bit is an index into the tables. -/
theorem code_lt {c : UInt8} (h : ¬c &&& 0x80 ≠ 0) : c.toNat < 128 := by
  have hall : ∀ i : Fin 256, ¬(UInt8.ofFin i) &&& 0x80 ≠ 0 →
      (UInt8.ofFin i).toNat < 128 := by
    decide +kernel
  exact hall c.toFin h

/-- The characters of the table are ASCII. -/
theorem kbdus_lt : ∀ i : Fin 128, kbdus[i.val].toNat < 128 := by
  decide +kernel

/-- The indices into the tables are in bounds. -/
theorem ascOf_ret {c : UInt8} (h : c.toNat < 128) (shift : Bool) :
    ∃ asc, ascOf shift c = .ret asc := by
  unfold ascOf
  rw [Outcome.load_ret kbdus h, Outcome.ret_bind]
  cases shift with
  | false => exact ⟨_, rfl⟩
  | true =>
      simp only [if_true]
      rw [Outcome.load_ret uppercase (kbdus_lt ⟨_, h⟩), Outcome.ret_bind]
      exact ⟨_, rfl⟩

/-- `get_scancode` waits for a code, or returns that of the next
keypress. -/
theorem getScancodeFrom_or (codes : List UInt8) (s : Keys) :
    (getScancodeFrom codes s = .timeout ∧ pressesFrom codes s = [])
      ∨ ∃ c asc s', getScancodeFrom codes s = .ret (c, s')
        ∧ ascOf s'.shift c = .ret asc
        ∧ s'.codes.length < codes.length
        ∧ pressesFrom codes s = { asc, scancode := c, ctrl := s'.ctrl
                                  alt := s'.alt } :: presses s' := by
  induction codes generalizing s with
  | nil => exact .inl ⟨rfl, rfl⟩
  | cons c codes ih =>
      have hnext : ∀ s₁, (getScancodeFrom codes s₁ = .timeout
            ∧ pressesFrom codes s₁ = [])
          ∨ ∃ c' asc s', getScancodeFrom codes s₁ = .ret (c', s')
            ∧ ascOf s'.shift c' = .ret asc
            ∧ s'.codes.length < (c :: codes).length
            ∧ pressesFrom codes s₁ = { asc, scancode := c', ctrl := s'.ctrl
                                       alt := s'.alt } :: presses s' := by
        intro s₁
        rcases ih s₁ with h | ⟨c', asc, s', h₁, h₂, hlt, h₃⟩
        · exact .inl h
        · exact .inr ⟨c', asc, s', h₁, h₂, Nat.lt_succ_of_lt hlt, h₃⟩
      unfold getScancodeFrom pressesFrom
      split
      · exact hnext _
      · split
        · exact hnext _
        · split
          · exact hnext _
          · split
            · exact hnext _
            · rename_i hc
              obtain ⟨asc, hasc⟩ := ascOf_ret (code_lt hc) s.shift
              refine .inr ⟨c, asc, _, rfl, hasc, Nat.lt_succ_self _, ?_⟩
              rw [hasc]
              exact congrArg _ (pressesFrom_codes codes codes s).symm

namespace Terminal

variable {t : Terminal} {m n : Nat} {k : Keypress} {ks : List Keypress}
  {s : Line m} {cursor : UInt16}

-- =============================================================== the screen

/-- With the cursor inside, moving it in the hardware returns. -/
theorem updateCursor_ret (ht : t.Inside) (cursor : UInt16) :
    ∃ t', t.updateCursor cursor = .ret t' ∧ t'.Inside := by
  unfold updateCursor
  rw [Outcome.store_ret _ (cell_lt ht.y_lt ht.x_lt)]
  exact ⟨_, rfl, ht.x_lt, ht.y_lt⟩

/-- With the cursor inside, a character can be put, and leaves it inside. -/
theorem tputc_ret (ht : t.Inside) (c : UInt8) :
    ∃ t', t.tputc c = .ret t' ∧ t'.Inside := by
  obtain ⟨t', h, hm⟩ := tputcNoup_moved ht c
  unfold tputc
  rw [h, Outcome.ret_bind, updateVgaBuffer_eq]
  exact ⟨_, rfl, hm.inside.x_lt, hm.inside.y_lt⟩

/-- A step back leaves the cursor inside. -/
theorem stepBack_inside (ht : t.Inside) : t.stepBack.Inside := by
  have hx := ht.x_lt
  have hy := ht.y_lt
  unfold stepBack
  split
  · exact ⟨show t.x - 1 < VGA_WIDTH by omega, hy⟩
  · split
    · exact ⟨show VGA_WIDTH - 1 < VGA_WIDTH by decide,
        show t.y - 1 < VGA_HEIGHT by omega⟩
    · exact ht

/-- A character can be put in place. -/
theorem tputcXy_ret (ht : t.Inside) (c : UInt8) :
    ∃ t', t.tputcXy c t.x t.y = .ret t' ∧ t'.Inside := by
  unfold tputcXy tputcXyNoup
  rw [Outcome.store_ret _ (cell_lt ht.y_lt ht.x_lt)]
  simp only [Outcome.ret_bind, updateVgaBuffer_eq]
  exact ⟨_, rfl, ht.x_lt, ht.y_lt⟩

/-- The bound keys are looked for, and it is Ctrl-L that is found. -/
theorem checkBinds_ret (ht : t.Inside) (k : Keypress) :
    ∃ t', t.checkBinds k = .ret (decide k.Clears, t') ∧ t'.Inside := by
  unfold checkBinds
  by_cases hc : k.Clears
  · obtain ⟨t', h, -, hs⟩ := clear_shows t
    have hc' : k.ctrl = true ∧ k.asc = 0x6c := hc
    rw [if_pos hc', h, decide_eq_true hc]
    refine ⟨t', rfl, ?_, hs.window.y_lt⟩
    rw [hs.col]
    exact (Sheet.empty t.defColor).col_lt
  · have hc' : ¬(k.ctrl = true ∧ k.asc = 0x6c) := hc
    rw [if_neg hc', decide_eq_false hc]
    exact ⟨t, rfl, ht⟩

/-- A turn takes the next keypress, and waits if there is none. -/
theorem getchar_or (ht : t.Inside) (cursor : UInt16) (s : Keys) :
    (t.getchar cursor s = .timeout ∧ presses s = [])
      ∨ ∃ k s' t', t.getchar cursor s = .ret (k, s', t') ∧ t'.Inside
        ∧ s'.codes.length < s.codes.length
        ∧ presses s = k :: presses s' := by
  obtain ⟨t₁, h₁, ht₁⟩ := updateCursor_ret ht cursor
  unfold getchar
  rw [h₁, Outcome.ret_bind]
  rcases getScancodeFrom_or s.codes s with
    ⟨h, hp⟩ | ⟨c, asc, s', h, hasc, hlt, hp⟩
  · have hget : getScancode s = .timeout := h
    exact .inl ⟨by rw [hget]; rfl, hp⟩
  · have hget : getScancode s = .ret (c, s') := h
    refine .inr ⟨_, s', t₁, ?_, ht₁, hlt, hp⟩
    rw [hget, Outcome.ret_bind]
    simp only [hasc, Outcome.ret_bind]

-- ================================================================= the loop

/-- The first `i` cells of the buffer. -/
def Line.text (s : Line m) : List UInt8 := s.buf.toList.take s.i

/-- The loop after some keys. -/
structure Holds (ks : List Keypress) (s : Line m) : Prop where
  i_eq : s.i = (putAll ks).length
  text : s.text = putAll ks
  inside : s.term.Inside

/-- A keypress does to the text what it does to the line with the NULs,
and a newline stops the loop. -/
theorem treadKey_holds (h : Holds ks s) (hi : s.i < m) (k : Keypress) :
    ∃ s', treadKey k s = .ret (decide k.Newline, s')
      ∧ Holds (ks ++ [k]) s' ∧ s'.keys = s.keys := by
  obtain ⟨t₁, h₁, ht₁⟩ := checkBinds_ret h.inside k
  have hnewline : k.Newline → ¬k.Clears ∧ k.asc ≠ 0x08 := by
    intro hk
    refine ⟨fun hc => ?_, fun he => ?_⟩
    · have hl := hc.2
      rw [hk] at hl
      cases hl
    · rw [hk] at he
      cases he
  unfold treadKey
  rw [h₁, Outcome.ret_bind]
  -- a key that clears the screen is not looked at again
  by_cases hc : k.Clears
  · have hput : k.put (putAll ks) = putAll ks := if_pos hc
    have hnot : ¬k.Newline := fun hk => (hnewline hk).1 hc
    simp only [hc, hnot, decide_true, decide_false, if_true]
    refine ⟨_, rfl, ⟨?_, ?_, ht₁⟩, rfl⟩
    · rw [putAll_concat, hput]
      exact h.i_eq
    · rw [putAll_concat, hput]
      exact h.text
  · have hasc : (if k.asc = 0x09 then 0x20 else k.asc) = k.char := rfl
    have herase : k.char = 0x08 ↔ k.Erases := by
      unfold Keypress.char Keypress.Erases
      split
      · rename_i h9
        rw [h9]
        decide
      · rfl
    simp only [hc, decide_false, Bool.false_eq_true, if_false, hasc, herase]
    by_cases he : k.Erases
    · have hput : k.put (putAll ks) = (putAll ks).dropLast := by
        rw [Keypress.put, if_neg hc, if_pos he]
      have hnot : ¬k.Newline := fun hk => (hnewline hk).2 he
      simp only [he, hnot, decide_false, if_true]
      -- a backspace at the start of the line changes nothing
      by_cases hpos : 0 < s.i
      · obtain ⟨t₂, h₂, ht₂⟩ := tputcXy_ret (stepBack_inside ht₁) 0x20
        rw [if_pos hpos, h₂]
        refine ⟨_, rfl, ⟨?_, ?_, ht₂⟩, rfl⟩
        · rw [putAll_concat, hput, List.length_dropLast, ← h.i_eq]
        · show s.buf.toList.take (s.i - 1) = _
          rw [putAll_concat, hput, ← h.text, Line.text, List.dropLast_take]
          rw [Vector.length_toList]
          exact hi
      · have hnil : putAll ks = [] := by
          apply List.eq_nil_of_length_eq_zero
          rw [← h.i_eq]
          omega
        rw [if_neg hpos]
        refine ⟨_, rfl, ⟨?_, ?_, ht₁⟩, rfl⟩
        · rw [putAll_concat, hput, hnil]
          exact h.i_eq.trans (congrArg List.length hnil)
        · rw [putAll_concat, hput, hnil]
          exact h.text.trans hnil
    · have hput : k.put (putAll ks) = putAll ks ++ [k.char] := by
        rw [Keypress.put, if_neg hc, if_neg he]
      obtain ⟨t₂, h₂, ht₂⟩ := tputc_ret ht₁ k.char
      -- every other key is put into the buffer, and a newline ends the loop
      have hstop : (k.char == 0x0a) = decide k.Newline := by
        rw [Bool.eq_iff_iff, beq_iff_eq, decide_eq_true_iff]
        exact char_eq_newline
      simp only [he, if_false]
      rw [Outcome.store_ret s.buf hi, Outcome.ret_bind, h₂,
        Outcome.ret_bind, hstop]
      refine ⟨_, rfl, ⟨?_, ?_, ht₂⟩, rfl⟩
      · rw [putAll_concat, hput, List.length_append, ← h.i_eq]
        rfl
      · show (s.buf.set s.i k.char hi).toList.take (s.i + 1) = _
        rw [putAll_concat, hput, Outcome.take_set_succ, ← h.text]
        rfl

/-- One character more that is no newline leaves the line open while there
is room. -/
theorem Open.concat (h : Open n ks) (hlen : (putAll (ks ++ [k])).length < n - 1)
    (hk : ¬k.Newline) : Open n (ks ++ [k]) := by
  refine ⟨hlen, fun k' hk' => ?_⟩
  rcases List.mem_append.mp hk' with hk' | hk'
  · exact h.noNewline k' hk'
  · rw [List.mem_singleton.mp hk']
    exact hk

/-- The prefixes behind one more key. -/
theorem prefix_cons {P : List Keypress → Prop} {ks' : List Keypress}
    (h0 : P ks) (h : ∀ pre, pre <+: ks' → P (ks ++ [k] ++ pre)) :
    ∀ pre, pre <+: k :: ks' → P (ks ++ pre) := by
  intro pre hpre
  rcases List.prefix_cons_iff.mp hpre with rfl | ⟨pre', rfl, hpre'⟩
  · rw [List.append_nil]
    exact h0
  · have hp := h pre' hpre'
    rwa [List.append_assoc] at hp

/-- The loop goes on from open keys, up to the keypress that ends the
line; or all keys have been read and it waits for another. -/
theorem treadLoop_or (hm : m = n - 1) (h : Holds ks s) (ho : Open n ks) :
    (∃ ks' k s', Gives (fun fuel => treadLoop cursor n fuel s) s'
        ∧ presses s.keys = ks' ++ k :: presses s'.keys
        ∧ (∀ pre, pre <+: ks' → Open n (ks ++ pre))
        ∧ ¬Open n (ks ++ (ks' ++ [k])) ∧ Holds (ks ++ (ks' ++ [k])) s')
      ∨ ((∀ fuel, treadLoop cursor n fuel s = .timeout)
        ∧ ∀ pre, pre <+: presses s.keys → Open n (ks ++ pre)) := by
  -- on the codes that are left; each turn takes at least one
  induction hlen : s.keys.codes.length using Nat.strong_induction_on
    generalizing s ks with
  | _ len ih =>
      have hi : s.i < n - 1 := by
        rw [h.i_eq]
        exact ho.length_lt
      have hself : ∀ pre, pre <+: [] → Open n (ks ++ pre) := by
        intro pre hpre
        rw [List.prefix_nil.mp hpre, List.append_nil]
        exact ho
      rcases getchar_or h.inside cursor s.keys with
        ⟨hwait, hp⟩ | ⟨k, keys, t, hget, ht, hlt, hp⟩
      · right
        refine ⟨fun fuel => ?_, by rwa [hp]⟩
        cases fuel with
        | zero => rfl
        | succ fuel => rw [treadLoop, if_pos hi, hwait, Outcome.timeout_bind]
      · have h₁ : Holds ks { s with keys := keys, term := t } :=
          ⟨h.i_eq, h.text, ht⟩
        obtain ⟨s', hkey, h', hkeys⟩ :=
          treadKey_holds h₁ (show s.i < m by omega) k
        have hkeys : s'.keys = keys := hkeys
        have hturn : ∀ fuel, treadLoop cursor n (fuel + 1) s
            = if decide k.Newline = true then .ret s'
              else treadLoop cursor n fuel s' := by
          intro fuel
          rw [treadLoop, if_pos hi, hget, Outcome.ret_bind]
          simp only [hkey, Outcome.ret_bind]
        by_cases hnl : k.Newline
        · left
          refine ⟨[], k, s', .of_succ (.of_eq fun fuel => ?_), ?_, hself,
            ?_, h'⟩
          · rw [hturn, if_pos (decide_eq_true hnl)]
          · rw [hp, hkeys]
            rfl
          · exact fun ho' => ho'.noNewline k (by simp) hnl
        · have hgo : ∀ fuel, treadLoop cursor n (fuel + 1) s
              = treadLoop cursor n fuel s' := by
            intro fuel
            rw [hturn, if_neg (by simp [hnl])]
          by_cases hroom : s'.i < n - 1
          · have ho' : Open n (ks ++ [k]) :=
              Open.concat ho (by rw [← h'.i_eq]; exact hroom) hnl
            have hlt' : s'.keys.codes.length < len := by
              rw [hkeys, ← hlen]
              exact hlt
            rcases ih _ hlt' h' ho' rfl with
              ⟨ks', k', s'', hg, hp', hpre, hend, hh⟩ | ⟨hwait, hpre⟩
            · left
              refine ⟨k :: ks', k', s'', .of_succ ?_, ?_,
                prefix_cons ho hpre, ?_, ?_⟩
              · simp only [hgo]
                exact hg
              · rw [hp, ← hkeys, hp']
                rfl
              · rw [List.append_assoc] at hend
                exact hend
              · rw [List.append_assoc] at hh
                exact hh
            · right
              refine ⟨fun fuel => ?_, ?_⟩
              · cases fuel with
                | zero => rfl
                | succ fuel => rw [hgo, hwait]
              · rw [hp, ← hkeys]
                exact prefix_cons ho hpre
          · left
            refine ⟨[], k, s', .of_succ (.of_succ (.of_eq fun fuel => ?_)),
              ?_, hself, ?_, h'⟩
            · rw [hgo, treadLoop, if_neg hroom]
            · rw [hp, hkeys]
              rfl
            · intro ho'
              have hlen' := ho'.length_lt
              rw [List.nil_append, ← h'.i_eq] at hlen'
              exact hroom hlen'

/-- What the keys ask for: the line in the buffer is the one that they
type, which has ended, and had not before the last of them. -/
structure Line.Typed (n : Nat) (ks : List Keypress) (s : Line m) : Prop where
  text : s.text = typed ks
  ended : Ended n (typed ks)
  before : ∀ pre, pre <+: ks → pre ≠ ks → ¬Ended n (typed pre)
  noNul : 0 ∉ s.text

/-- `tread_line` returns a length in its bounds and writes nowhere else,
or waits for another key, and then the line has not ended. When it
returns, its buffer has what was typed exactly if the keys are settled:
the ones without a character have been erased, with all of the line
before them. -/
theorem treadLine_typed_iff {t : Terminal} (hn : 2 ≤ n) (ht : t.Inside)
    (cursor : UInt16) (keys : Keys) (buf : Vector UInt8 (n - 1)) :
    (∃ ks s, Gives (fun fuel => treadLine cursor n fuel keys buf t) s
        ∧ presses keys = ks ++ presses s.keys ∧ s.i ≤ n - 1
        ∧ (s.Typed n ks ↔ Settled ks))
      ∨ ((∀ fuel, treadLine cursor n fuel keys buf t = .timeout)
        ∧ ∀ pre, pre <+: presses keys → ¬Ended n (typed pre)) := by
  have h0 : Holds [] { keys := keys, i := 0, buf := buf, term := t } :=
    ⟨rfl, rfl, ht⟩
  have ho : Open n [] := ⟨show 0 < n - 1 by omega, nofun⟩
  -- the loop returns at the first key that ends the line, or waits
  rcases @treadLoop_or _ n _ _ cursor rfl h0 ho with
    ⟨ks, k, s, hg, hp, hpre, hend, hh⟩ | ⟨hwait, hpre⟩
  · left
    refine ⟨ks ++ [k], s, hg, ?_, ?_, ?_⟩
    · rw [hp, List.append_assoc]
      rfl
    · have hle := @length_put_le k (putAll ks)
      have hlt := (hpre ks (List.prefix_refl ks)).length_lt
      rw [hh.i_eq]
      rw [List.nil_append] at hlt ⊢
      rw [putAll_concat]
      omega
    · rw [List.nil_append] at hend hh
      rw [← typed_eq_iff]
      constructor
      · intro h
        rw [← h.text, hh.text]
      · intro heq
        refine ⟨by rw [heq, hh.text], ?_, ?_, ?_⟩
        · rw [heq]
          exact (hpre ks (List.prefix_refl ks)).ended hend
        · intro pre h hne
          rcases List.prefix_concat_iff.mp h with rfl | h
          · exact absurd rfl hne
          · exact (hpre pre h).not_ended
        · rw [hh.text, ← heq]
          exact zero_not_mem_typed _
  · exact .inr ⟨hwait, fun pre h => (hpre pre h).not_ended⟩

/-- `l`, `d`, a backspace, shift and `s`, and enter. -/
def keysOfCommand : Keys where
  codes := [0x26, 0xa6, 0x20, 0xa0, 0x0e, 0x8e, 0x2a, 0x1f, 0xaa, 0x1c]
  shift := false
  ctrl := false
  alt := false

/-- The keys of a command with a correction in it; all have characters, so
that the line is what was typed. -/
theorem treadLine_typed_command :
    ∃ ks s, Gives (fun fuel => treadLine 0 80 fuel keysOfCommand
        (Vector.replicate 79 0) TermCall.console) s
      ∧ ks <+: presses keysOfCommand ∧ s.Typed 80 ks := by
  have hpresses : ∀ k ∈ presses keysOfCommand, ¬k.Silent := by
    decide +kernel
  have hended : (typed (presses keysOfCommand)).getLast? = some 0x0a := by
    decide +kernel
  rcases @treadLine_typed_iff 80 TermCall.console (by decide)
      ⟨by decide, by decide⟩ 0 keysOfCommand (Vector.replicate 79 0) with
    ⟨ks, s, hg, hp, -, hiff⟩ | ⟨-, hnot⟩
  · have hpre : ks <+: presses keysOfCommand := ⟨_, hp.symm⟩
    refine ⟨ks, s, hg, hpre, hiff.mpr ⟨[], ks, rfl, ?_, ?_⟩⟩
    · exact putAll_eq_nil.mp rfl
    · exact fun k hk => hpresses k (hpre.subset hk)
  · exact absurd (.inl hended) (hnot _ (List.prefix_refl _))

/-- Right shift and enter. -/
def keysOfRightShift : Keys where
  codes := [0x36, 0xb6, 0x1c]
  shift := false
  ctrl := false
  alt := false

/-- Right shift has no character, and is a NUL at the start of the
line. -/
theorem treadLine_right_shift :
    presses keysOfRightShift
        = [⟨0, 0x36, false, false⟩, ⟨0x0a, 0x1c, false, false⟩]
      ∧ ∃ s, treadLine 0 80 2 keysOfRightShift (Vector.replicate 79 0)
          TermCall.console = .ret s
        ∧ s.text = [0, 0x0a] ∧ typed (presses keysOfRightShift) = [0x0a]
        ∧ ¬s.Typed 80 (presses keysOfRightShift) := by
  have hrun : (treadLine 0 80 2 keysOfRightShift (Vector.replicate 79 0)
      TermCall.console).holds (fun s => s.text == [0, 0x0a]) = true := by
    decide +kernel
  have htyped : typed (presses keysOfRightShift) = [0x0a] := by
    decide +kernel
  obtain ⟨s, hs, htext⟩ := Outcome.holds_iff.mp hrun
  have htext := eq_of_beq htext
  refine ⟨by decide +kernel, s, hs, htext, htyped, fun h => ?_⟩
  have heq := h.text
  rw [htext, htyped] at heq
  cases heq

end Terminal

end Ntibux
