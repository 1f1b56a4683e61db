/-
The frame bitmap as a set of frames, whatever has been marked and
unmarked in it, and what `frames::status` makes of it.

A bitmap `Records` a history of calls: the bit of a frame is what the last
call on that frame asked for. Everything is read off that: the tests, the
search, and the count, which is the length of each word and so the number
of its bits only if these fill it from the bottom.
-/
import Ntibux.Lib.Bits
import Ntibux.Mem.Bitmap
import Ntibux.Mem.Proofs.Entry

namespace Ntibux

open Outcome (Gives)

open Frames (Tracked index off)

namespace FrameCall

variable {c : FrameCall} {cs : List FrameCall} {f f₀ : Frames} {n : Nat}

/-- The bitmap after a call on a frame that it tracks. -/
def after (c : FrameCall) (f : Frames) : Frames :=
  match c with
  | markFrame faddr => f.marked (faddr >>> 12)
  | unmarkFrame faddr => f.cleared (faddr >>> 12)

theorem apply_tracked (h : Tracked f.nframes c.faddr) :
    c.apply f = .ret (c.after f) := by
  have hlt : index (c.faddr >>> 12) < index f.nframes := by
    have h2 := h.2
    rw [Nat.shiftRight_eq_div_pow]
    unfold index
    omega
  cases c with
  | markFrame faddr => exact Frames.markFrame_tracked hlt
  | unmarkFrame faddr => exact Frames.unmarkFrame_tracked hlt

@[simp] theorem nframes_after : (c.after f).nframes = f.nframes := by
  cases c <;> rfl

/-- A call decides about its own frame, and no other. -/
theorem unused_after : (c.after f).Unused n
    ↔ if c.faddr / 4096 = n then c.marks = false else f.Unused n := by
  have hshift : c.faddr >>> 12 = c.faddr / 4096 :=
    Nat.shiftRight_eq_div_pow _ _
  cases c with
  | markFrame faddr =>
      have hshift : faddr >>> 12 = faddr / 4096 := hshift
      show (f.marked (faddr >>> 12)).Unused n
        ↔ if faddr / 4096 = n then true = false else _
      rw [Frames.unused_marked_iff, hshift]
      by_cases h : faddr / 4096 = n
      · simp [h]
      · simp [h, Ne.symm h]
  | unmarkFrame faddr =>
      have hshift : faddr >>> 12 = faddr / 4096 := hshift
      show (f.cleared (faddr >>> 12)).Unused n
        ↔ if faddr / 4096 = n then false = false else _
      rw [Frames.unused_cleared_iff, hshift]
      by_cases h : faddr / 4096 = n
      · simp [h]
      · simp [h, Ne.symm h]

/-- The words stay words. -/
theorem words_after (h : ∀ i, f.words i < 2 ^ 32) (i : Nat) :
    (c.after f).words i < 2 ^ 32 := by
  have hbit : ∀ n, 1 <<< off n < 2 ^ 32 := by
    intro n
    rw [Nat.one_shiftLeft]
    exact Nat.pow_lt_pow_right (by decide) (Nat.mod_lt n (by decide))
  cases c with
  | markFrame faddr =>
      show Function.update f.words _ _ i < _
      rw [Function.update_apply]
      split
      · exact Nat.or_lt_two_pow (h _) (hbit _)
      · exact h i
  | unmarkFrame faddr =>
      show Function.update f.words _ _ i < _
      rw [Function.update_apply]
      split
      · exact Nat.lt_of_le_of_lt Nat.and_le_left (h _)
      · exact h i

theorem lastMarks_concat : lastMarks (cs ++ [c]) n
    = if c.faddr / 4096 = n then c.marks else lastMarks cs n := by
  unfold lastMarks
  rw [lastSet_concat]
  split <;> rfl

/-- No call is on a frame that no address is in. -/
theorem lastMarks_of_large {nframes : Nat}
    (hcs : ∀ c ∈ cs, Tracked nframes c.faddr) (h : 2 ^ 20 ≤ n) :
    lastMarks cs n = false := by
  induction cs using List.reverseRecOn with
  | nil => rfl
  | append_singleton cs c ih =>
      have hc := (hcs c (by simp)).1
      rw [lastMarks_concat, if_neg (by omega)]
      exact ih fun c hc => hcs c (by simp [hc])

theorem run_concat : run (cs ++ [c]) f = run cs f >>= c.apply := by
  induction cs generalizing f with
  | nil =>
      simp only [List.nil_append, run, Outcome.ret_bind]
      cases c.apply f <;> rfl
  | cons c' cs ih =>
      simp only [List.cons_append, run, ih, Outcome.bind_assoc]

end FrameCall

namespace Frames

open FrameCall (lastMarks)

variable {f f₀ : Frames} {cs : List FrameCall} {nframes n i words fuel : Nat}

/-- The bitmap after a history of calls. -/
structure Records (nframes : Nat) (cs : List FrameCall) (f : Frames) :
    Prop where
  nframes : f.nframes = nframes
  words : ∀ i, f.words i < 2 ^ 32
  unused : ∀ n, f.Unused n ↔ lastMarks cs n = false

/-- What `frames::init` sets up has no history. -/
theorem records_init {m m₀ : Mem} (h : m.framesInit nframes = .ret m₀) :
    Records nframes [] m₀.frames := by
  obtain ⟨⟨out, m'⟩, -, h⟩ := Outcome.bind_eq_ret.mp h
  obtain rfl := Outcome.ret.inj h
  refine ⟨rfl, fun _ => Nat.two_pow_pos 32, fun n => ?_⟩
  exact iff_of_true (Nat.zero_testBit _) rfl

/-- A call is put on record. -/
theorem Records.after {c : FrameCall} (h : Records nframes cs f) :
    Records nframes (cs ++ [c]) (c.after f) := by
  refine ⟨FrameCall.nframes_after.trans h.nframes,
    FrameCall.words_after h.words, fun n => ?_⟩
  rw [FrameCall.unused_after, FrameCall.lastMarks_concat]
  split
  · rfl
  · exact h.unused n

/-- Calls on frames that are tracked run, and are put on record. -/
theorem Records.run (h : Records nframes [] f₀)
    (hcs : ∀ c ∈ cs, Tracked nframes c.faddr) :
    ∃ f, FrameCall.run cs f₀ = .ret f ∧ Records nframes cs f := by
  induction cs using List.reverseRecOn with
  | nil => exact ⟨f₀, rfl, h⟩
  | append_singleton cs c ih =>
      obtain ⟨f, hf, hr⟩ := ih fun c hc => hcs c (by simp [hc])
      have hc : Tracked f.nframes c.faddr := by
        rw [hr.nframes]
        exact hcs c (by simp)
      refine ⟨c.after f, ?_, hr.after⟩
      rw [FrameCall.run_concat, hf, Outcome.ret_bind]
      exact FrameCall.apply_tracked hc

theorem Records.isFree {a : Nat} (h : Records nframes cs f)
    (ha : Tracked nframes a) :
    f.isFree a = .ret (!lastMarks cs (a / 4096)) := by
  have hlt : index (a >>> 12) < index f.nframes := by
    have h2 := ha.2
    rw [Nat.shiftRight_eq_div_pow, h.nframes]
    unfold index
    omega
  rw [isFree_tracked hlt, Nat.shiftRight_eq_div_pow]
  congr 1
  rw [Bool.eq_iff_iff, decide_eq_true_iff, h.unused]
  simp

-- ================================================================ the search

/-- The reads of `get_free_frame` are inside its array. -/
theorem searchFrom_eq (h : i + words ≤ index f.nframes) :
    f.searchFrom words i = .ret (((List.range' i words).findSome? fun i =>
      if f.words i = 0xffffffff then none
      else (clearBit (f.words i)).map fun j =>
        u32 ((i * 32 + j) <<< 12)).getD 0) := by
  induction words generalizing i with
  | zero => rfl
  | succ words ih =>
      have hword : f.word i = .ret (f.words i) := if_pos (by omega)
      have hrest := @ih (i + 1) (by omega)
      rw [searchFrom, hword, Outcome.ret_bind, List.range'_succ,
        List.findSome?_cons, hrest]
      split
      · rfl
      · cases clearBit (f.words i) <;> rfl

theorem search_eq (f : Frames) : f.search = .ret f.getFreeFrame := by
  unfold search getFreeFrame
  rw [searchFrom_eq (by omega), List.range_eq_range']

/-- The search over the history: the lowest frame that is not marked. -/
theorem Records.search (h : Records nframes cs f)
    (hcs : ∀ c ∈ cs, Tracked nframes c.faddr) :
    (∃ n, Tracked nframes (n * 4096) ∧ f.getFreeFrame = n * 4096
        ∧ lastMarks cs n = false ∧ ∀ k < n, lastMarks cs k = true)
      ∨ ((∀ a, Tracked nframes a → lastMarks cs (a / 4096) = true)
        ∧ f.getFreeFrame = 0) := by
  have hmarked : ∀ n, ¬f.Unused n → lastMarks cs n = true := by
    intro n hn
    rw [h.unused] at hn
    exact Bool.eq_true_of_not_eq_false hn
  rcases f.getFreeFrame_lowest with ⟨n, hlt, hu, hlow, hf⟩ | ⟨hnone, hf⟩
  · rw [h.nframes] at hlt
    have hlt : n < 32 * (nframes / 32) := hlt
    by_cases hn : n < 2 ^ 20
    · left
      refine ⟨n, ⟨by omega, by omega⟩, ?_, (h.unused n).mp hu,
        fun k hk => hmarked k (hlow k hk)⟩
      rw [hf, u32_of_lt (by omega)]
    · -- every frame with an address is marked, and the scan has run on
      right
      obtain rfl : n = 2 ^ 20 := by
        by_contra hne
        refine hlow (2 ^ 20) (by omega) ?_
        exact (h.unused _).mpr (FrameCall.lastMarks_of_large hcs (le_refl _))
      exact ⟨fun a ha => hmarked _ (hlow _ (by have := ha.1; omega)), hf⟩
  · right
    refine ⟨fun a ha => hmarked _ (hnone _ ?_), hf⟩
    rw [h.nframes]
    exact ha.2

/-- The bitmap is the set of the frames that were marked last, and its
search finds the lowest frame outside. No call reads or writes outside of
the array.

`Records` relates the words to the set `lastMarks` of the frames whose last
call marked them; each call keeps it with one more call in the list. While
frame 0 is in the set, an answer of 0 stands for no frame at all. -/
theorem bitmap_exact {m m₀ : Mem} (hinit : m.framesInit nframes = .ret m₀)
    (hcs : ∀ c ∈ cs, Tracked nframes c.faddr) :
    ∃ f, FrameCall.run cs m₀.frames = .ret f
      ∧ (∀ a, Tracked nframes a →
        f.isFree a = .ret (!lastMarks cs (a / 4096)))
      ∧ (∀ (c : FrameCall) a, Tracked nframes c.faddr →
        Tracked nframes a → c.faddr / 4096 ≠ a / 4096 →
        ∃ f', c.apply f = .ret f' ∧ f'.isFree a = f.isFree a)
      ∧ ∃ r, f.search = .ret r
        ∧ ((∃ n, Tracked nframes (n * 4096) ∧ r = n * 4096
            ∧ lastMarks cs n = false ∧ ∀ k < n, lastMarks cs k = true)
          ∨ ((∀ a, Tracked nframes a → lastMarks cs (a / 4096) = true)
            ∧ r = 0))
        ∧ (lastMarks cs 0 = true → (r = 0
          ↔ ∀ a, Tracked nframes a → lastMarks cs (a / 4096) = true)) := by
  obtain ⟨f, hf, hr⟩ := (records_init hinit).run hcs
  have hsearch := hr.search hcs
  refine ⟨f, hf, fun a => hr.isFree, ?_, f.getFreeFrame, f.search_eq,
    hsearch, ?_⟩
  · intro c a hc ha hne
    have hc' : Tracked f.nframes c.faddr := by
      rw [hr.nframes]
      exact hc
    refine ⟨c.after f, FrameCall.apply_tracked hc', ?_⟩
    rw [hr.after.isFree ha, hr.isFree ha, FrameCall.lastMarks_concat,
      if_neg hne]
  · intro h0
    rcases hsearch with ⟨n, hn, hget, hfree, -⟩ | ⟨hall, hget⟩
    · have hne : n ≠ 0 := by
        rintro rfl
        rw [h0] at hfree
        cases hfree
      refine iff_of_false (by omega) fun hall => ?_
      have hmarked := hall _ hn
      rw [Nat.mul_div_cancel _ (by decide), hfree] at hmarked
      cases hmarked
    · exact iff_of_true hget hall

/-- The calls of a boot: three frames are marked, one is given back. -/
theorem bitmap_exact_three :
    ∃ m₀ f, (Mem.new fun _ => 0).framesInit 64 = .ret m₀
      ∧ FrameCall.run [.markFrame 0, .markFrame 0x1000, .markFrame 0x20000,
        .unmarkFrame 0x1000] m₀.frames = .ret f
      ∧ f.isFree 0x1000 = .ret true ∧ f.isFree 0x20fff = .ret false
      ∧ f.search = .ret 0x1000 := by
  have hinit : (Mem.new fun _ => 0).framesInit 64 = .ret _ := rfl
  obtain ⟨f, hf, hfree, -, r, hr, hlow, -⟩ := bitmap_exact hinit
    (show ∀ c ∈ [FrameCall.markFrame 0, .markFrame 0x1000,
      .markFrame 0x20000, .unmarkFrame 0x1000], Tracked 64 c.faddr by decide)
  refine ⟨_, f, hinit, hf, hfree _ (by decide), hfree _ (by decide), ?_⟩
  rcases hlow with ⟨n, -, rfl, hfalse, hbelow⟩ | ⟨hall, -⟩
  · rcases Nat.lt_trichotomy n 1 with h | rfl | h
    · obtain rfl : n = 0 := by omega
      cases hfalse
    · exact hr
    · cases hbelow 1 h
  · cases hall 0x1000 (by decide)

-- ================================================================= status

/-- The loop over a word counts its length. -/
theorem shiftLoop_eq {w nbr : Nat} (h : w.size < fuel) :
    shiftLoop fuel w (u32 nbr) = .ret (u32 (nbr + w.size)) := by
  induction fuel generalizing w nbr with
  | zero => exact absurd h (Nat.not_lt_zero _)
  | succ fuel ih =>
      rw [shiftLoop]
      by_cases hw : w = 0
      · subst hw
        rfl
      · have hsize : w.size = (w / 2).size + 1 := by
          have hbit := Nat.bit_bodd_div2 w
          have hne : Nat.bit w.bodd w.div2 ≠ 0 := by
            rw [hbit]
            exact hw
          have hsize := Nat.size_bit hne
          rw [hbit, Nat.div2_val] at hsize
          exact hsize
        have hu : u32 (u32 nbr + 1) = u32 (nbr + 1) := by
          unfold u32
          omega
        rw [if_pos hw, Nat.shiftRight_one, hu, ih (by omega), hsize]
        congr 2
        omega

/-- The loop over the words adds up their lengths. -/
theorem usedPages_eq (h : Records nframes cs f) (hfuel : 32 < fuel) :
    f.usedPages fuel = .ret (u32 (lengths f.words (index nframes))) := by
  unfold usedPages
  have hturn : ∀ i nbr, i < index nframes → nbr = u32 (lengths f.words i) →
      ∃ nbr', (do
        let tmp ← f.word i
        shiftLoop fuel tmp nbr) = .ret nbr'
        ∧ nbr' = u32 (lengths f.words (i + 1)) := by
    rintro i _ hi rfl
    have hword : f.word i = .ret (f.words i) := by
      unfold word
      rw [h.nframes, if_pos hi]
    have hsize := Nat.size_le.mpr (h.words i)
    refine ⟨_, ?_, rfl⟩
    rw [hword, Outcome.ret_bind, shiftLoop_eq (by omega)]
    rfl
  rw [h.nframes]
  obtain ⟨nbr, hnbr, rfl⟩ := Outcome.turns_ret
    (P := fun i nbr => nbr = u32 (lengths f.words i)) hturn
    (Nat.zero_add _) rfl
  exact hnbr

/-- `status` prints the lengths of the words, added up. -/
theorem status_ends (h : Records nframes cs f) (hn : nframes < 2 ^ 32) :
    Outcome.Ends f.status (if nframes = 0 then .fault
      else .ret (statusCalls (lengths f.words (index nframes)) nframes
        (u32 (lengths f.words (index nframes) * 100) / nframes))) := by
  have hlt : lengths f.words (index nframes) < 2 ^ 32 := by
    have hle := lengths_le (N := index nframes) fun i _ => h.words i
    unfold index at hle ⊢
    omega
  refine ⟨33, fun fuel hfuel => ?_⟩
  unfold status
  rw [usedPages_eq h (by omega), u32_of_lt hlt, Outcome.ret_bind, h.nframes]

theorem Records.count_eq_iff (h : Records nframes cs f) :
    Nat.count (fun n => lastMarks cs n = true) (32 * (nframes / 32))
        = lengths f.words (index nframes)
      ↔ ∀ i < nframes / 32,
        Filled (fun j => lastMarks cs (32 * i + j) = true) 32 := by
  refine (count_words_le f.words (fun i _ => h.words i) ?_).2
  intro i _ j hj
  have hunused := h.unused (32 * i + j)
  have hindex : index (32 * i + j) = i := by
    unfold index
    omega
  have hoff : off (32 * i + j) = j := by
    unfold off
    omega
  unfold Unused at hunused
  rw [hindex, hoff] at hunused
  rw [← Bool.not_eq_false, ← Bool.not_eq_false, not_iff_not]
  exact hunused.symm

/-- `status` prints how many frames are marked exactly if its division is
not by zero and, in every word, the frames that are marked are the lowest
ones.

`count_bits` counts the shifts until nothing is left of a word, so it gives
the position of the highest frame that is marked. That is the number of
marked ones if there is no gap below. -/
theorem status_count_iff {m m₀ : Mem} (hn : nframes < 2 ^ 32)
    (hinit : m.framesInit nframes = .ret m₀)
    (hcs : ∀ c ∈ cs, Tracked nframes c.faddr) :
    ∃ f, FrameCall.run cs m₀.frames = .ret f
      ∧ ((∃ percent, Gives f.status (statusCalls
          (Nat.count (fun n => lastMarks cs n = true)
            (32 * (nframes / 32))) nframes percent))
        ↔ nframes ≠ 0 ∧ ∀ i < nframes / 32,
          Filled (fun j => lastMarks cs (32 * i + j) = true) 32) := by
  obtain ⟨f, hf, hr⟩ := (records_init hinit).run hcs
  refine ⟨f, hf, ?_⟩
  have hend := status_ends hr hn
  rw [← hr.count_eq_iff]
  by_cases h0 : nframes = 0
  · refine iff_of_false ?_ fun h => h.1 h0
    rintro ⟨percent, hg⟩
    rw [if_pos h0] at hend
    cases Outcome.Ends.unique (Gives.ends_iff.mp hg) hend
  · rw [if_neg h0] at hend
    constructor
    · rintro ⟨percent, hg⟩
      have heq := Gives.unique hg (Gives.ends_iff.mpr hend)
      unfold statusCalls at heq
      simp only [List.cons.injEq, PrintkCall.mk.injEq, Arg.int.injEq] at heq
      exact ⟨h0, heq.2.1.2.1⟩
    · intro h
      rw [h.2]
      exact ⟨_, hend⟩

/-- The frames of a kernel that starts, in the order in which they are
taken. -/
theorem status_count_boot :
    ∃ f percent, FrameCall.run [.markFrame 0, .markFrame 0x1000]
        { frames := 0, words := fun _ => 0, nframes := 64 } = .ret f
      ∧ Gives f.status (statusCalls 2 64 percent) := by
  have hinit : (Mem.new fun _ => 0).framesInit 64 = .ret _ := rfl
  obtain ⟨f, hf, hiff⟩ := status_count_iff (by decide) hinit
    (show ∀ c ∈ [FrameCall.markFrame 0, .markFrame 0x1000],
      Tracked 64 c.faddr by decide)
  obtain ⟨percent, hg⟩ := hiff.mpr ⟨by decide, by decide⟩
  exact ⟨f, percent, hf, hg⟩

/-- Frame 0 is given back, and `status` prints that two frames are in
use. -/
theorem status_of_freed :
    ∃ m₀ f, (Mem.new fun _ => 0).framesInit 64 = .ret m₀
      ∧ (∀ c ∈ [FrameCall.markFrame 0, .markFrame 0x1000, .unmarkFrame 0],
        Tracked 64 c.faddr)
      ∧ FrameCall.run [.markFrame 0, .markFrame 0x1000, .unmarkFrame 0]
        m₀.frames = .ret f
      ∧ Nat.count (fun n => lastMarks
        [.markFrame 0, .markFrame 0x1000, .unmarkFrame 0] n = true) 64 = 1
      ∧ Gives f.status (statusCalls 2 64 3) := by
  refine ⟨_, _, rfl, by decide, rfl, by decide, 3, fun fuel hfuel => ?_⟩
  obtain ⟨k, rfl⟩ : ∃ k, fuel = k + 3 := ⟨fuel - 3, by omega⟩
  rfl

end Frames

end Ntibux
