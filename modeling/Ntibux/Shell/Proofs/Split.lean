/-
What `split` makes of a line.

Before each turn the array has the beginnings of the words so far, and the
separators so far are NULs (`Splitting`). A word that has begun ends at
the end of the line at the latest; so in the end the array lists exactly
the words, and there is room for them all, and for the null pointer behind
them, since there is a separator between two words.
-/
import Ntibux.Lib.Segments
import Ntibux.Shell.Proofs.Strings

namespace Ntibux

open Segments (closed opened)

/-- The characters of words have one key, and nothing else has. -/
def wordKey (cs : List UInt8) (i : Nat) : Option Unit :=
  match cs[i]? with
  | some c => if isSep c then none else some ()
  | none => none

/-- The words of a line: where each begins and ends. -/
def words (cs : List UInt8) : List (Nat × Nat) :=
  closed (wordKey cs) cs.length

/-- The characters of a word. -/
def wordText (cs : List UInt8) (r : Nat × Nat) : List UInt8 :=
  (cs.drop r.1).take (r.2 - r.1)

/-- The memory with NULs for the separators among `n` bytes. -/
def Bytes.cutUp (b : Bytes) (p n : Nat) : Bytes := fun x =>
  if p ≤ x ∧ x < p + n ∧ isSep (b x) = true then 0 else b x

namespace Interpreter

variable {b b' : Bytes} {p i : Nat} {cs : List UInt8} {s : Split}
  {v₀ : Splits}

/-- A character has a key if it is no separator. -/
theorem wordKey_ne_none (h : i < cs.length) :
    wordKey cs i ≠ none ↔ isSep cs[i] = false := by
  unfold wordKey
  rw [List.getElem?_eq_getElem h]
  cases hc : isSep cs[i] <;> simp [hc]

/-- Past the end of the line there is no key. -/
theorem wordKey_end (cs : List UInt8) :
    ∀ i ≥ cs.length, wordKey cs i = none := by
  intro i hi
  unfold wordKey
  rw [List.getElem?_eq_none hi]

/-- `split` before its turn for character `i`. -/
structure Splitting (b : Bytes) (p : Nat) (cs : List UInt8)
    (v₀ : Splits) (i : Nat) (s : Split) : Prop where
  i_eq : s.i = i
  last : isSep s.last = true ↔ i = 0 ∨ wordKey cs (i - 1) = none
  bytes : s.bytes = b.cutUp p i
  splitn : s.splitn = (opened (wordKey cs) i).length
  splits : ∀ k (hk : k < MAX_LINE_LEN / 2 + 1), s.splits[k]
    = ((opened (wordKey cs) i)[k]?.map (p + ·)).getD v₀[k]

/-- The loop starts with no word, and with a space for the character before
the first. -/
theorem splitting_zero (b : Bytes) (p : Nat) (cs : List UInt8)
    (v₀ : Splits) :
    Splitting b p cs v₀ 0
      { i := 0, splitn := 0, last := 0x20, bytes := b, splits := v₀ } := by
  refine ⟨rfl, iff_of_true rfl (.inl rfl), ?_, rfl, fun _ _ => rfl⟩
  funext x
  unfold Bytes.cutUp
  rw [if_neg (by omega)]

/-- One more byte. -/
theorem cutUp_succ (b : Bytes) (p i : Nat) : b.cutUp p (i + 1)
    = if isSep (b (p + i)) then Function.update (b.cutUp p i) (p + i) 0
      else b.cutUp p i := by
  funext x
  by_cases hx : x = p + i
  · subst hx
    unfold Bytes.cutUp
    cases hs : isSep (b (p + i)) <;> simp [hs]
  · have hsame : b.cutUp p (i + 1) x = b.cutUp p i x := by
      unfold Bytes.cutUp
      congr 1
      apply propext
      constructor
      · rintro ⟨h1, h2, h3⟩
        exact ⟨h1, by omega, h3⟩
      · rintro ⟨h1, h2, h3⟩
        exact ⟨h1, by omega, h3⟩
    rw [hsame]
    split
    · rw [Function.update_of_ne hx]
    · rfl

/-- The byte that a turn looks at is as it was. -/
theorem cutUp_next (b : Bytes) (p i : Nat) :
    b.cutUp p i (p + i) = b (p + i) := by
  unfold Bytes.cutUp
  rw [if_neg (by omega)]

/-- The other places of a list that one element is put behind. -/
theorem getElem?_concat_of_ne {L : List Nat} {a k : Nat}
    (h : k ≠ L.length) : (L ++ [a])[k]? = L[k]? := by
  rcases Nat.lt_or_gt_of_ne h with hlt | hgt
  · exact List.getElem?_append_left hlt
  · have hle : (L ++ [a]).length ≤ k := by
      rw [List.length_append, List.length_singleton]
      omega
    rw [List.getElem?_eq_none hle, List.getElem?_eq_none (by omega)]

/-- A turn: the character is a separator, or belongs to a word, which it
may begin. -/
theorem Splitting.turn (h : Splitting b p cs v₀ i s)
    (hb : b.HasLine p cs) (hi : i < cs.length)
    (hlen : cs.length < MAX_LINE_LEN) :
    ∃ s', splitTurn p cs[i] s = .ret s'
      ∧ Splitting b p cs v₀ (i + 1) s' := by
  have hbytes : (if isSep cs[i] then Function.update s.bytes (p + s.i) 0
      else s.bytes) = b.cutUp p (i + 1) := by
    rw [cutUp_succ, hb.char i hi, h.bytes, h.i_eq]
  have hkey := wordKey_ne_none hi
  have hlast : isSep cs[i] = true ↔ i + 1 = 0
      ∨ wordKey cs (i + 1 - 1) = none := by
    rw [Nat.add_sub_cancel, or_iff_right (Nat.succ_ne_zero i),
      ← Bool.not_eq_false, ← hkey, not_not]
  -- what the code tests is that a word begins here
  have hbegins : (¬isSep cs[i] = true ∧ isSep s.last = true)
      ↔ wordKey cs i ≠ none
        ∧ (i = 0 ∨ wordKey cs (i - 1) ≠ wordKey cs i) := by
    rw [Bool.not_eq_true, ← hkey, h.last]
    refine and_congr_right fun hne => or_congr_right ?_
    obtain ⟨⟨⟩, hunit⟩ := Option.ne_none_iff_exists'.mp hne
    rw [hunit]
    cases wordKey cs (i - 1) <;> simp
  unfold splitTurn
  rw [hbytes]
  by_cases hc : ¬isSep cs[i] = true ∧ isSep s.last = true
  · -- the array has room for another beginning
    have hopened : opened (wordKey cs) (i + 1)
        = opened (wordKey cs) i ++ [i] := by
      rw [opened, if_pos (hbegins.mp hc)]
    have hroom := (Segments.length_opened_le (wordKey cs) (i + 1)).1
    rw [hopened, List.length_append, List.length_singleton] at hroom
    have hlt : s.splitn < MAX_LINE_LEN / 2 + 1 := by
      rw [h.splitn]
      unfold MAX_LINE_LEN at hlen ⊢
      omega
    rw [if_pos hc, Outcome.store_ret s.splits hlt, Outcome.ret_bind]
    refine ⟨_, rfl, by rw [h.i_eq], hlast, rfl, ?_, fun k hk => ?_⟩
    · show s.splitn + 1 = _
      rw [hopened, List.length_append, h.splitn]
      rfl
    · show (s.splits.set s.splitn (p + s.i) hlt)[k] = _
      have hset : (s.splits.set s.splitn (p + s.i) hlt)[k]
          = if s.splitn = k then p + s.i else s.splits[k] :=
        Vector.getElem_set hlt hk
      rw [hset, h.i_eq, hopened, h.splitn]
      split
      case isTrue heq =>
        subst heq
        rw [List.getElem?_concat_length]
        rfl
      case isFalse hne =>
        rw [h.splits k hk, getElem?_concat_of_ne (Ne.symm hne)]
  · -- no word begins
    have hopened : opened (wordKey cs) (i + 1)
        = opened (wordKey cs) i := by
      rw [opened, if_neg (fun hn => hc (hbegins.mpr hn)), List.append_nil]
    rw [if_neg hc]
    refine ⟨_, rfl, by rw [h.i_eq], hlast, rfl, ?_, ?_⟩
    · rw [hopened]
      exact h.splitn
    · rw [hopened]
      exact h.splits

/-- The loop, from its turn for character `i` on. -/
theorem Splitting.loop {fuel : Nat} (h : Splitting b p cs v₀ i s)
    (hb : b.HasLine p cs) (hnul : 0 ∉ cs)
    (hlen : cs.length < MAX_LINE_LEN) (hi : i ≤ cs.length)
    (hfuel : cs.length < i + fuel) :
    ∃ s', splitLoop p fuel s = .ret s'
      ∧ Splitting b p cs v₀ cs.length s' := by
  induction fuel generalizing i s with
  | zero => omega
  | succ fuel ih =>
      have hchar : s.bytes (p + s.i) = b (p + i) := by
        rw [h.bytes, h.i_eq, cutUp_next]
      unfold splitLoop
      rw [hchar]
      rcases Nat.lt_or_eq_of_le hi with hlt | rfl
      · obtain ⟨s₁, hturn, h₁⟩ := h.turn hb hlt hlen
        have hne : cs[i] ≠ 0 := fun h0 => hnul (h0 ▸ List.getElem_mem hlt)
        rw [hb.char i hlt]
        simp only [if_pos hne]
        rw [hturn, Outcome.ret_bind]
        exact ih h₁ hlt (by omega)
      · rw [hb.nul]
        exact ⟨s, rfl, h⟩

-- =================================================================== words

/-- A place of the line that is in a word. -/
def InWord (cs : List UInt8) (i : Nat) : Prop :=
  ∃ c, cs[i]? = some c ∧ isSep c = false

/-- A run of characters that are not separators, as long as it goes. -/
structure IsWord (cs : List UInt8) (s e : Nat) : Prop where
  lt : s < e
  chars : ∀ i, s ≤ i → i < e → InWord cs i
  left : s = 0 ∨ ¬InWord cs (s - 1)
  right : ¬InWord cs e

/-- A place has a key if it is in a word. -/
theorem wordKey_ne_none_iff (cs : List UInt8) (i : Nat) :
    wordKey cs i ≠ none ↔ InWord cs i := by
  unfold wordKey InWord
  cases cs[i]? with
  | none => simp
  | some c => cases hc : isSep c <;> simp [hc]

/-- All places in words have the same key, so that a different one is found
outside only. -/
theorem wordKey_ne_iff {i j : Nat} (hj : wordKey cs j ≠ none) :
    wordKey cs i ≠ wordKey cs j ↔ ¬InWord cs i := by
  obtain ⟨⟨⟩, hunit⟩ := Option.ne_none_iff_exists'.mp hj
  rw [← wordKey_ne_none_iff, hunit]
  cases wordKey cs i <;> simp

/-- So the segments of the keys are the words of the line. -/
theorem isSegment_iff_isWord (cs : List UInt8) (s e : Nat) :
    IsSegment (wordKey cs) s e ↔ IsWord cs s e := by
  constructor
  · intro h
    refine ⟨h.lt, fun i hi hie => ?_, ?_, ?_⟩
    · rw [← wordKey_ne_none_iff, h.flat i hi hie]
      exact h.keyed
    · exact h.left.imp_right (wordKey_ne_iff h.keyed).mp
    · exact (wordKey_ne_iff h.keyed).mp h.right
  · intro h
    have hkey := (wordKey_ne_none_iff cs s).mpr
      (h.chars s (le_refl s) h.lt)
    refine ⟨h.lt, hkey, fun i hi hie => ?_, ?_, ?_⟩
    · by_contra hne
      exact (wordKey_ne_iff hkey).mp hne (h.chars i hi hie)
    · exact h.left.imp_right (wordKey_ne_iff hkey).mpr
    · exact (wordKey_ne_iff hkey).mpr h.right

/-- All of them are listed. -/
theorem mem_words (cs : List UInt8) (s e : Nat) :
    (s, e) ∈ words cs ↔ IsWord cs s e := by
  rw [← isSegment_iff_isWord]
  exact Segments.mem_closed_of_end (wordKey_end cs)

/-- They are listed in order, and none runs into the next. -/
theorem words_sorted (cs : List UInt8) :
    (words cs).Pairwise fun a b => a.2 ≤ b.1 :=
  Segments.closed_sorted _ _

/-- A word has a character at least and ends within the line. -/
theorem le_of_mem_words {r : Nat × Nat} (h : r ∈ words cs) :
    r.1 < r.2 ∧ r.2 ≤ cs.length := by
  obtain ⟨hseg, hle⟩ := Segments.mem_closed.mp h
  exact ⟨hseg.lt, hle⟩

/-- A letter and a separator in turn are the most words there can be. -/
theorem length_words_le (cs : List UInt8) :
    2 * (words cs).length ≤ cs.length + 1 := by
  have hopened := Segments.opened_of_none
    (wordKey_end cs cs.length (le_refl _))
  have hle := (Segments.length_opened_le (wordKey cs) cs.length).1
  rwa [hopened, List.length_map] at hle

-- =============================================================== the outcome

/-- What the array is to list: the beginnings of the words, and a null
pointer. -/
def tokens (p : Nat) (cs : List UInt8) : List Nat :=
  (words cs).map (fun r => p + r.1) ++ [0]

/-- What `split` makes of a line and of an array. -/
structure SplitInto (b : Bytes) (p : Nat) (cs : List UInt8)
    (v₀ v : Splits) (b' : Bytes) : Prop where
  room : (tokens p cs).length ≤ MAX_LINE_LEN / 2 + 1
  listed : ∀ k (hk : k < MAX_LINE_LEN / 2 + 1),
    v[k] = ((tokens p cs)[k]?).getD v₀[k]
  strings : ∀ r ∈ words cs, b'.HasLine (p + r.1) (wordText cs r)
  rest : b' = b.cutUp p cs.length

/-- The text of a word is as long as the word. -/
theorem length_wordText {r : Nat × Nat} (h : r ∈ words cs) :
    (wordText cs r).length = r.2 - r.1 := by
  obtain ⟨hlt, hle⟩ := le_of_mem_words h
  unfold wordText
  rw [List.length_take, List.length_drop]
  omega

/-- A word has no zero in it, since the line has none. -/
theorem zero_not_mem_wordText (hnul : 0 ∉ cs) (r : Nat × Nat) :
    0 ∉ wordText cs r :=
  fun h0 => hnul (List.mem_of_mem_drop (List.mem_of_mem_take h0))

/-- A word is what is read where it begins. -/
theorem SplitInto.upFrom {v : Splits} (h : SplitInto b p cs v₀ v b')
    {r : Nat × Nat} (hr : r ∈ words cs) (hend : p + cs.length < 2 ^ 32) :
    ∃ rest, b'.upFrom (p + r.1) = wordText cs r ++ 0 :: rest := by
  obtain ⟨hlt, hle⟩ := le_of_mem_words hr
  refine upFrom_of_hasLine (h.strings r hr) ?_
  rw [length_wordText hr]
  omega

/-- The words are cut out where they are. -/
theorem hasLine_cutUp (hb : b.HasLine p cs) {r : Nat × Nat}
    (h : r ∈ words cs) :
    (b.cutUp p cs.length).HasLine (p + r.1) (wordText cs r) := by
  have hword := (mem_words cs r.1 r.2).mp h
  obtain ⟨hlt, hle⟩ := le_of_mem_words h
  have hlength := length_wordText h
  refine ⟨fun i hi => ?_, ?_⟩
  · rw [hlength] at hi
    have hin : r.1 + i < cs.length := by omega
    have hchar : (wordText cs r)[i] = cs[r.1 + i] := by
      simp [wordText]
    have hsep : isSep cs[r.1 + i] = false := by
      obtain ⟨c, hc, hsep⟩ := hword.chars (r.1 + i) (by omega) (by omega)
      rw [List.getElem?_eq_getElem hin] at hc
      rwa [Option.some.inj hc]
    have hkept : b (p + (r.1 + i)) = cs[r.1 + i] := hb.char _ hin
    unfold Bytes.cutUp
    rw [hchar, Nat.add_assoc, hkept, hsep]
    rw [if_neg (by rintro ⟨_, _, ⟨⟩⟩)]
  · rw [hlength, Nat.add_assoc, Nat.add_sub_cancel' (le_of_lt hlt)]
    unfold Bytes.cutUp
    split
    case isTrue => rfl
    case isFalse hnot =>
      rcases Nat.lt_or_eq_of_le hle with hend | hend
      · -- what ends the word is a separator, and was overwritten
        refine absurd ?_ hnot
        have hchar := hb.char r.2 hend
        refine ⟨by omega, by omega, ?_⟩
        by_contra hsep
        refine hword.right ⟨cs[r.2], List.getElem?_eq_getElem hend, ?_⟩
        rwa [← hchar, ← Bool.not_eq_true]
      · rw [hend]
        exact hb.nul

/-- `split` returns on any line that fits, and cuts it up. -/
theorem split_into {fuel : Nat} (hb : b.HasLine p cs) (hnul : 0 ∉ cs)
    (hlen : cs.length < MAX_LINE_LEN) (hfuel : cs.length < fuel)
    (v₀ : Splits) :
    ∃ v, split fuel p v₀ b = .ret (v, b.cutUp p cs.length)
      ∧ SplitInto b p cs v₀ v (b.cutUp p cs.length) := by
  obtain ⟨s, hloop, hs⟩ := (splitting_zero b p cs v₀).loop hb hnul hlen
    (Nat.zero_le _) (show cs.length < 0 + fuel by omega)
  have hopened : opened (wordKey cs) cs.length
      = (words cs).map Prod.fst :=
    Segments.opened_of_none (wordKey_end cs _ (le_refl _))
  have hcount : s.splitn = (words cs).length := by
    rw [hs.splitn, hopened, List.length_map]
  have hle := length_words_le cs
  have hlt : s.splitn < MAX_LINE_LEN / 2 + 1 := by
    rw [hcount]
    unfold MAX_LINE_LEN at hlen ⊢
    omega
  unfold split
  rw [hloop, Outcome.ret_bind, Outcome.store_ret s.splits hlt,
    Outcome.ret_bind, hs.bytes]
  refine ⟨_, rfl, ?_, fun k hk => ?_, fun r hr => hasLine_cutUp hb hr, rfl⟩
  · unfold tokens
    rw [List.length_append, List.length_map, ← hcount]
    exact hlt
  · have hset : (s.splits.set s.splitn 0 hlt)[k]
        = if s.splitn = k then 0 else s.splits[k] :=
      Vector.getElem_set hlt hk
    have htokens : (words cs).length
        = ((words cs).map fun r => p + r.1).length :=
      (List.length_map _).symm
    unfold tokens
    rw [hset, hcount]
    split
    -- the null pointer that is put behind the words
    case isTrue heq =>
      rw [htokens] at heq
      subst heq
      rw [List.getElem?_concat_length]
      rfl
    case isFalse hne =>
      rw [htokens] at hne
      rw [hs.splits k hk, hopened,
        getElem?_concat_of_ne (Ne.symm hne), List.getElem?_map,
        List.getElem?_map, Option.map_map]
      rfl

end Interpreter

end Ntibux
