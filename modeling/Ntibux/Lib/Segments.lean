/-
The maximal segments of a sequence of optional keys: stretches of one key,
as long as they go.

A scanner that looks at one key and the one before it finds a segment when
it ends. `closed` is the list of those it has found, and it is exactly the
segments that have ended (`mem_closed`), from left to right
(`closed_sorted`); and no other list is (`eq_of_sorted`).
-/
import Mathlib.Data.List.Sort
import Mathlib.Order.Basic

namespace Ntibux

variable {κ : Type} [DecidableEq κ]

/-- `[s, e)` has one key, and the neighbours on both sides have not. -/
structure IsSegment (key : Nat → Option κ) (s e : Nat) : Prop where
  lt : s < e
  keyed : key s ≠ none
  flat : ∀ i, s ≤ i → i < e → key i = key s
  left : s = 0 ∨ key (s - 1) ≠ key s
  right : key e ≠ key s

namespace Segments

section

variable (key : Nat → Option κ)

/-- Where the stretch of `i` begins. -/
def start : Nat → Nat
  | 0 => 0
  | i + 1 => if key (i + 1) = key i then start i else i + 1

/-- The segments that end at `n` or before. -/
def closed : Nat → List (Nat × Nat)
  | 0 => []
  | n + 1 => closed n ++
      if key n ≠ none ∧ key (n + 1) ≠ key n then [(start key n, n + 1)]
      else []

/-- Where the segments begin that begin before `n`. -/
def opened : Nat → List Nat
  | 0 => []
  | n + 1 => opened n ++
      if key n ≠ none ∧ (n = 0 ∨ key (n - 1) ≠ key n) then [n] else []

end

variable {key : Nat → Option κ} {i n s e : Nat}

-- ================================================================ stretches

theorem start_le (key : Nat → Option κ) (i : Nat) : start key i ≤ i := by
  induction i with
  | zero => exact le_refl 0
  | succ i ih =>
      unfold start
      split
      · exact Nat.le_succ_of_le ih
      · exact le_refl _

/-- The stretch of `i` is one of its key. -/
theorem key_of_start_le (h : start key i ≤ n) (hn : n ≤ i) :
    key n = key i := by
  induction i with
  | zero =>
      obtain rfl : n = 0 := Nat.le_zero.mp hn
      rfl
  | succ i ih =>
      unfold start at h
      split at h
      case isTrue heq =>
        rcases Nat.lt_or_eq_of_le hn with hlt | rfl
        · exact (ih h (Nat.lt_succ_iff.mp hlt)).trans heq.symm
        · rfl
      case isFalse =>
        obtain rfl : n = i + 1 := by omega
        rfl

/-- What is to the left of it has another one. -/
theorem start_left (key : Nat → Option κ) (i : Nat) :
    start key i = 0 ∨ key (start key i - 1) ≠ key i := by
  induction i with
  | zero => exact .inl rfl
  | succ i ih =>
      unfold start
      split
      case isTrue heq =>
        rw [heq]
        exact ih
      case isFalse hne => exact .inr (Ne.symm hne)

/-- A segment is the stretch of its last place. -/
theorem start_of_isSegment (h : IsSegment key s (e + 1)) :
    start key e = s := by
  have hle : s ≤ e := Nat.lt_succ_iff.mp h.lt
  have hlast : key e = key s := h.flat e hle (Nat.lt_succ_self e)
  by_contra hne
  rcases Nat.lt_or_gt_of_ne hne with hlt | hgt
  · -- the place before the segment would be in the stretch
    have hin := @key_of_start_le _ _ key e (s - 1) (by omega) (by omega)
    rcases h.left with h0 | hleft
    · omega
    · exact hleft (hin.trans hlast)
  · have hstart := start_le key e
    rcases start_left key e with h0 | hleft
    · omega
    · refine hleft ?_
      rw [h.flat _ (by omega) (by omega), hlast]

theorem isSegment_start (hn : key n ≠ none) (h : key (n + 1) ≠ key n) :
    IsSegment key (start key n) (n + 1) := by
  have hle := start_le key n
  have hkey : key (start key n) = key n := key_of_start_le (le_refl _) hle
  refine ⟨Nat.lt_succ_of_le hle, by rwa [hkey], ?_, ?_, by rwa [hkey]⟩
  · intro i hi hin
    rw [hkey]
    exact key_of_start_le hi (Nat.lt_succ_iff.mp hin)
  · rw [hkey]
    exact start_left key n

-- ================================================================= the list

/-- The segments that the scanner has found are those that have ended. -/
theorem mem_closed : (s, e) ∈ closed key n ↔ IsSegment key s e ∧ e ≤ n := by
  induction n with
  | zero =>
      refine iff_of_false List.not_mem_nil ?_
      rintro ⟨h, he⟩
      have hlt := h.lt
      omega
  | succ n ih =>
      rw [closed, List.mem_append, ih]
      constructor
      · rintro (⟨h, he⟩ | h)
        · exact ⟨h, Nat.le_succ_of_le he⟩
        · split at h
          case isTrue hc =>
            obtain ⟨rfl, rfl⟩ := Prod.mk.inj (List.mem_singleton.mp h)
            exact ⟨isSegment_start hc.1 hc.2, le_refl _⟩
          case isFalse => cases h
      · rintro ⟨h, he⟩
        rcases Nat.lt_or_eq_of_le he with hlt | rfl
        · exact .inl ⟨h, Nat.lt_succ_iff.mp hlt⟩
        · right
          have hle : s ≤ n := Nat.lt_succ_iff.mp h.lt
          have hlast : key n = key s := h.flat n hle (Nat.lt_succ_self n)
          rw [if_pos ⟨hlast ▸ h.keyed, hlast ▸ h.right⟩, start_of_isSegment h]
          exact List.mem_singleton.mpr rfl

/-- A segment begins where an earlier one has ended, or later. -/
theorem le_start_of_isSegment (h : IsSegment key s e) (he : e ≤ n) :
    e ≤ start key n := by
  by_contra hlt
  have hle := start_le key n
  have hin : key e = key n := key_of_start_le (by omega) he
  have hlast : key (e - 1) = key s :=
    h.flat _ (by have := h.lt; omega) (by have := h.lt; omega)
  rcases Nat.lt_or_ge (e - 1) (start key n) with hs | hs
  · omega
  · have hpred := @key_of_start_le _ _ key n (e - 1) hs (by omega)
    exact h.right (by rw [hin, ← hpred, hlast])

theorem closed_sorted (key : Nat → Option κ) (n : Nat) :
    (closed key n).Pairwise fun a b => a.2 ≤ b.1 := by
  induction n with
  | zero => exact List.Pairwise.nil
  | succ n ih =>
      rw [closed, List.pairwise_append]
      refine ⟨ih, ?_, ?_⟩
      · split
        · exact List.pairwise_singleton _ _
        · exact List.Pairwise.nil
      · intro a ha b hb
        split at hb
        case isTrue hc =>
          obtain rfl := List.mem_singleton.mp hb
          obtain ⟨h, he⟩ := mem_closed.mp ha
          exact le_start_of_isSegment h he
        case isFalse => cases hb

theorem length_closed_succ : (closed key (n + 1)).length
    = (closed key n).length
      + if key n ≠ none ∧ key (n + 1) ≠ key n then 1 else 0 := by
  rw [closed, List.length_append]
  split <;> rfl

/-- There is one list of given segments from left to right. -/
theorem eq_of_sorted {l l' : List (Nat × Nat)}
    (hl : l.Pairwise fun a b => a.2 ≤ b.1)
    (hl' : l'.Pairwise fun a b => a.2 ≤ b.1)
    (hlt : ∀ a ∈ l, a.1 < a.2) (h : ∀ a, a ∈ l ↔ a ∈ l') : l = l' := by
  have hnodup : ∀ k : List (Nat × Nat), (∀ a ∈ k, a.1 < a.2) →
      (k.Pairwise fun a b => a.2 ≤ b.1) → k.Nodup := by
    intro k hk hp
    refine hp.imp_of_mem ?_
    rintro a b ha - hab rfl
    have hlt := hk a ha
    omega
  have hperm : l.Perm l' := (List.perm_ext_iff_of_nodup (hnodup l hlt hl)
    (hnodup l' (fun a ha => hlt a ((h a).mpr ha)) hl')).mpr h
  refine hperm.eq_of_pairwise ?_ hl hl'
  intro a b ha hb hab hba
  have hlta := hlt a ha
  have hltb := hlt b ((h b).mpr hb)
  omega

/-- If the keys come to an end, all segments have ended there. -/
theorem mem_closed_of_end (hn : ∀ j ≥ n, key j = none) :
    (s, e) ∈ closed key n ↔ IsSegment key s e := by
  rw [mem_closed, and_iff_left_iff_imp]
  intro h
  by_contra hlt
  have hlast := h.flat (e - 1) (by have := h.lt; omega)
    (by have := h.lt; omega)
  rw [hn _ (by omega)] at hlast
  exact h.keyed hlast.symm

/-- Every key is in a segment, if the keys come to an end. -/
theorem exists_segment (hi : key i ≠ none) (hn : ∀ j ≥ n, key j = none) :
    ∃ s e, IsSegment key s e ∧ s ≤ i ∧ i < e ∧ e ≤ n := by
  have hex : ∃ e, i ≤ e ∧ key (e + 1) ≠ key i := by
    refine ⟨max i n, Nat.le_max_left _ _, ?_⟩
    rw [hn _ (by omega)]
    exact Ne.symm hi
  classical
  obtain ⟨hie, hne⟩ := Nat.find_spec hex
  have hflat : ∀ j, i ≤ j → j ≤ Nat.find hex → key j = key i := by
    intro j hij hj
    rcases Nat.lt_or_eq_of_le hij with hlt | rfl
    · by_contra hkey
      refine Nat.find_min hex (m := j - 1) (by omega) ⟨by omega, ?_⟩
      rwa [Nat.sub_add_cancel (by omega)]
    · rfl
  have hlast := hflat _ hie (le_refl _)
  have hseg := @isSegment_start _ _ key (Nat.find hex) (by rwa [hlast])
    (by rwa [hlast])
  refine ⟨_, _, hseg, ?_, Nat.lt_succ_of_le hie, ?_⟩
  · by_contra hlt
    -- what is to the left of the segment has its key as well
    have hle := start_le key (Nat.find hex)
    rcases hseg.left with h0 | hleft
    · omega
    · refine hleft ?_
      rw [hflat _ (by omega) (by omega), hflat _ (by omega) hle]
  · by_contra hlt
    have hnone := hn (Nat.find hex) (by omega)
    rw [hlast] at hnone
    exact hi hnone

-- =============================================================== the starts

/-- A segment that has begun has ended, or is the stretch of the last
place. -/
theorem opened_succ (key : Nat → Option κ) (n : Nat) :
    opened key (n + 1) = (closed key n).map Prod.fst
      ++ if key n ≠ none then [start key n] else [] := by
  induction n with
  | zero => simp [opened, closed, start]
  | succ n ih =>
      rw [opened, ih, closed, start, List.map_append, List.append_assoc,
        List.append_assoc]
      congr 1
      by_cases heq : key (n + 1) = key n
      · by_cases hn : key n = none
        · simp [heq, hn]
        · simp [heq, hn]
      · by_cases hn : key n = none
        · rw [hn] at heq
          simp [heq, hn, Ne.symm heq]
        · simp [heq, hn, Ne.symm heq]

/-- Where there is no key, every segment that has begun has ended. -/
theorem opened_of_none (h : key n = none) :
    opened key n = (closed key n).map Prod.fst := by
  cases n with
  | zero => rfl
  | succ n =>
      rw [opened_succ, closed, List.map_append, h]
      congr 1
      by_cases hn : key n = none
      · simp [hn]
      · simp [hn, Ne.symm hn]

/-- With one key only, there is a place between two segments. -/
theorem length_opened_le [Subsingleton κ] (key : Nat → Option κ) (n : Nat) :
    2 * (opened key n).length ≤ n + 1
      ∧ (n = 0 ∨ key (n - 1) = none → 2 * (opened key n).length ≤ n) := by
  induction n with
  | zero => exact ⟨Nat.zero_le _, fun _ => Nat.zero_le _⟩
  | succ n ih =>
      obtain ⟨hle, hnone⟩ := ih
      rw [opened, List.length_append, Nat.add_sub_cancel]
      split
      case isTrue hc =>
        have hprev : n = 0 ∨ key (n - 1) = none := by
          refine hc.2.imp_right fun hne => ?_
          by_contra hkey
          obtain ⟨k, hk⟩ := Option.ne_none_iff_exists'.mp hkey
          obtain ⟨k', hk'⟩ := Option.ne_none_iff_exists'.mp hc.1
          exact hne (by rw [hk, hk', Subsingleton.elim k k'])
        have hbelow := hnone hprev
        refine ⟨by rw [List.length_singleton]; omega, fun h => ?_⟩
        rcases h with h | h
        · omega
        · exact absurd h hc.1
      case isFalse =>
        rw [List.length_nil]
        exact ⟨by omega, fun _ => by omega⟩

end Segments

end Ntibux
