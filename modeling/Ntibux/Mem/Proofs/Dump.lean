/-
What `mem::dump` prints: the runs of mapped pages with the same flags.

The scan closes a run when it looks at the page behind it. So what it has
printed when it is at page `n` is the segments of the flags that are
closed there; and as its bound leaves out the last page, it prints all of
them exactly if the last two pages are not mapped.
-/
import Ntibux.Lib.Segments
import Ntibux.Mem.Dump
import Ntibux.Mem.Init

namespace Ntibux

open Outcome (Gives)

open Segments (closed start)

namespace Mem

variable {m : Mem} {pd : PageDirectory} {n i j s e : Nat}

/-- The entry of page number `n`. -/
def pageEntry (m : Mem) (pd : PageDirectory) (n : Nat) : Nat :=
  if pd.tables (n / 1024) = 0 then 0
  else m.pages (pd.tables (n / 1024)) (n % 1024)

/-- The flags of a mapped page of the address space. -/
def pageFlags (m : Mem) (pd : PageDirectory) (n : Nat) : Option Nat :=
  if n < 2 ^ 20 ∧ m.pageEntry pd n ≠ 0 then some (m.pageEntry pd n % 8)
  else none

/-- The line for the pages from `s` to `e`. -/
def runCall (m : Mem) (pd : PageDirectory) (r : Nat × Nat) : PrintkCall where
  format := ascii "0x%8x - 0x%8x %8x %cr%c\n" ++ [0]
  params := [.int (r.1 * 4096), .int (r.2 * 4096),
    .int ((r.2 - r.1) * 4096),
    flagLetter (m.pageEntry pd r.1) PAGE_USER 0x75,
    flagLetter (m.pageEntry pd r.1) PAGE_RW 0x77]

/-- The lines are those of the maximal runs of mapped pages with the same
flags, in increasing order. -/
def DumpExact (m : Mem) (pd : PageDirectory) (calls : List PrintkCall) :
    Prop :=
  ∃ runs : List (Nat × Nat), calls = runs.map (m.runCall pd)
    ∧ (runs.Pairwise fun a b => a.2 ≤ b.1)
    ∧ (∀ s e, (s, e) ∈ runs ↔ IsSegment (m.pageFlags pd) s e)
    ∧ ∀ n, m.pageFlags pd n ≠ none ↔ ∃ r ∈ runs, r.1 ≤ n ∧ n < r.2

-- ================================================================= entries

theorem entryOf_eq (hn : n < 2 ^ 20) :
    m.entryOf pd (n * 4096) = m.pageEntry pd n := by
  have hd : directoryIndex (n * 4096) = n / 1024 := by
    unfold directoryIndex
    rw [Nat.shiftRight_eq_div_pow, show 0x3ff = 2 ^ 10 - 1 from rfl,
      Nat.and_two_pow_sub_one_eq_mod]
    omega
  have ht : tableIndex (n * 4096) = n % 1024 := by
    unfold tableIndex
    rw [Nat.shiftRight_eq_div_pow, show 0x3ff = 2 ^ 10 - 1 from rfl,
      Nat.and_two_pow_sub_one_eq_mod]
    omega
  unfold entryOf pageEntry
  rw [hd, ht]
  by_cases h0 : pd.tables (n / 1024) = 0
  · simp [h0]
  · by_cases hp : m.pages (pd.tables (n / 1024)) (n % 1024) = 0
    · simp [h0, hp]
    · simp [h0, hp]

theorem pageFlags_eq_none (hn : n < 2 ^ 20) :
    m.pageFlags pd n = none ↔ m.pageEntry pd n = 0 := by
  unfold pageFlags
  by_cases h0 : m.pageEntry pd n = 0
  · rw [if_neg fun hc => hc.2 h0]
    exact iff_of_true rfl h0
  · rw [if_pos ⟨hn, h0⟩]
    exact iff_of_false (Option.some_ne_none _) h0

/-- Two mapped pages have the same flags. -/
theorem pageFlags_eq (hi : i < 2 ^ 20) (hj : j < 2 ^ 20)
    (hi0 : m.pageEntry pd i ≠ 0) (hj0 : m.pageEntry pd j ≠ 0) :
    m.pageFlags pd i = m.pageFlags pd j
      ↔ m.pageEntry pd i &&& 7 = m.pageEntry pd j &&& 7 := by
  unfold pageFlags
  rw [if_pos ⟨hi, hi0⟩, if_pos ⟨hj, hj0⟩, Option.some.injEq,
    show 7 = 2 ^ 3 - 1 from rfl, Nat.and_two_pow_sub_one_eq_mod,
    Nat.and_two_pow_sub_one_eq_mod]

/-- The letters are those of the flags. -/
theorem flagLetter_congr {a b flag : Nat} (h : a &&& 7 = b &&& 7)
    (hflag : 7 &&& flag = flag) (c : UInt8) :
    flagLetter a flag c = flagLetter b flag c := by
  have heq : a &&& flag = b &&& flag := by
    rw [← hflag, ← Nat.and_assoc, ← Nat.and_assoc, h]
  unfold flagLetter
  rw [heq]

/-- The line that the scan prints is that of the run. -/
theorem rangeCall_eq (hs : s ≤ n) (hn : n + 1 < 2 ^ 20)
    (h : m.pageEntry pd s &&& 7 = m.pageEntry pd n &&& 7) :
    rangeCall (s * 4096) ((n + 1) * 4096) (m.pageEntry pd n)
      = m.runCall pd (s, n + 1) := by
  unfold rangeCall runCall
  have hlen : u32 ((n + 1) * 4096 + (2 ^ 32 - s * 4096))
      = (n + 1 - s) * 4096 := by
    unfold u32
    omega
  rw [hlen, flagLetter_congr h rfl, flagLetter_congr h rfl]

-- ================================================================ the scan

/-- What the scan has when it has looked at page `n`. -/
structure Scanned (m : Mem) (pd : PageDirectory) (n : Nat) (d : Dump) :
    Prop where
  prev : d.prev = m.pageEntry pd n
  startAddr : m.pageEntry pd n ≠ 0 →
    d.startAddr = start (m.pageFlags pd) n * 4096
  printed : d.printed = (closed (m.pageFlags pd) n).map (m.runCall pd)

/-- The first turn begins a run, if there is one. -/
theorem scanned_zero (m : Mem) (pd : PageDirectory) :
    Scanned m pd 0
      (m.dumpTurn pd 0 { startAddr := 0, prev := 0, printed := [] }) := by
  have hentry : m.entryOf pd 0 = m.pageEntry pd 0 :=
    @entryOf_eq m pd 0 (by decide)
  unfold dumpTurn
  simp only [hentry]
  by_cases h0 : m.pageEntry pd 0 = 0
  · simp only [h0, ne_eq, not_true_eq_false, if_false, decide_false]
    exact ⟨h0.symm, fun h => absurd h0 h, rfl⟩
  · simp only [h0, ne_eq, not_false_eq_true, if_true]
    exact ⟨rfl, fun _ => (Nat.zero_mul _).symm, rfl⟩

/-- The line that is printed at the end of a run. -/
theorem Scanned.rangeCall {d : Dump} (h : Scanned m pd n d)
    (h0 : m.pageEntry pd n ≠ 0) (hn : n + 1 < 2 ^ 20) :
    Mem.rangeCall d.startAddr ((n + 1) * 4096) (m.pageEntry pd n)
      = m.runCall pd (start (m.pageFlags pd) n, n + 1) := by
  have hle := Segments.start_le (m.pageFlags pd) n
  have hkey : m.pageFlags pd (start (m.pageFlags pd) n) = m.pageFlags pd n :=
    Segments.key_of_start_le (le_refl _) hle
  have hstart : m.pageEntry pd (start (m.pageFlags pd) n) ≠ 0 := by
    intro hzero
    rw [(pageFlags_eq_none (by omega)).mpr hzero] at hkey
    exact h0 ((pageFlags_eq_none (by omega)).mp hkey.symm)
  rw [h.startAddr h0]
  exact rangeCall_eq hle hn
    ((pageFlags_eq (by omega) (by omega) hstart h0).mp hkey)

/-- A turn closes the run that ends there, and begins the one that begins
there. -/
theorem Scanned.succ {d : Dump} (h : Scanned m pd n d)
    (hn : n + 1 < 2 ^ 20) :
    Scanned m pd (n + 1) (m.dumpTurn pd ((n + 1) * 4096) d) := by
  have hentry : m.entryOf pd ((n + 1) * 4096) = m.pageEntry pd (n + 1) :=
    entryOf_eq hn
  have hnone := @pageFlags_eq_none m pd n (by omega)
  have hnone' := @pageFlags_eq_none m pd (n + 1) hn
  unfold dumpTurn
  simp only [hentry, h.prev]
  by_cases h0 : m.pageEntry pd n = 0
  · -- no run to close
    have hclosed : closed (m.pageFlags pd) (n + 1)
        = closed (m.pageFlags pd) n := by
      rw [closed, if_neg fun hc => hc.1 (hnone.mpr h0), List.append_nil]
    by_cases h1 : m.pageEntry pd (n + 1) = 0
    · simp only [h0, h1, ne_eq, not_true_eq_false, if_false, decide_false,
        Bool.false_eq_true]
      refine ⟨h1.symm, fun h => absurd h1 h, ?_⟩
      rw [hclosed]
      exact h.printed
    · simp only [h0, h1, ne_eq, not_false_eq_true, if_true,
        Bool.false_eq_true, if_false]
      refine ⟨rfl, fun _ => ?_, ?_⟩
      · rw [start, if_neg]
        rw [hnone.mpr h0, hnone']
        exact h1
      · rw [hclosed]
        exact h.printed
  · by_cases hflags : m.pageFlags pd (n + 1) = m.pageFlags pd n
    · -- the run goes on
      have h1 : m.pageEntry pd (n + 1) ≠ 0 := by
        intro h1
        rw [hnone'.mpr h1] at hflags
        exact h0 (hnone.mp hflags.symm)
      have hand := (pageFlags_eq hn (by omega) h1 h0).mp hflags
      simp only [h0, h1, hand, ne_eq, not_false_eq_true, not_true_eq_false,
        if_true, if_false, decide_false, Bool.false_eq_true]
      refine ⟨rfl, fun _ => ?_, ?_⟩
      · rw [start, if_pos hflags]
        exact h.startAddr h0
      · rw [closed, if_neg fun hc => hc.2 hflags, List.append_nil]
        exact h.printed
    · -- it ends
      have hclosed : closed (m.pageFlags pd) (n + 1)
          = closed (m.pageFlags pd) n
            ++ [(start (m.pageFlags pd) n, n + 1)] := by
        rw [closed, if_pos ⟨fun hc => h0 (hnone.mp hc), hflags⟩]
      have hprinted : d.printed
          ++ [Mem.rangeCall d.startAddr ((n + 1) * 4096) (m.pageEntry pd n)]
          = (closed (m.pageFlags pd) (n + 1)).map (m.runCall pd) := by
        rw [hclosed, List.map_append, h.printed, h.rangeCall h0 hn]
        rfl
      by_cases h1 : m.pageEntry pd (n + 1) = 0
      · simp only [h0, h1, ne_eq, not_true_eq_false, not_false_eq_true,
          if_false, if_true, decide_true]
        exact ⟨h1.symm, fun h => absurd h1 h, hprinted⟩
      · have hand : m.pageEntry pd (n + 1) &&& 7
            ≠ m.pageEntry pd n &&& 7 :=
          fun hand => hflags ((pageFlags_eq hn (by omega) h1 h0).mpr hand)
        simp only [h0, h1, hand, ne_eq, not_false_eq_true, if_false,
          if_true, decide_true]
        refine ⟨rfl, fun _ => ?_, hprinted⟩
        rw [start, if_neg hflags]

/-- The rest of the loop, from page `n + 1` on. -/
theorem Scanned.dumpLoop {d : Dump} {k : Nat} (h : Scanned m pd n d)
    (hk : n + 1 + k = 2 ^ 20 - 1) :
    ∃ d', Gives (fun fuel =>
        m.dumpLoop pd fuel ((n + 1) * 4096) d) d'
      ∧ Scanned m pd (2 ^ 20 - 2) d' := by
  induction k generalizing n d with
  | zero =>
      obtain rfl : n = 2 ^ 20 - 2 := by omega
      exact ⟨d, .of_succ (.of_eq fun _ => rfl), h⟩
  | succ k ih =>
      obtain ⟨d', hg, hd'⟩ := ih (h.succ (by omega)) (by omega)
      refine ⟨d', .of_succ ?_, hd'⟩
      have hlt : (n + 1) * 4096 < dumpEnd := by
        show _ < 4294963200
        omega
      have hnext : u32 ((n + 1) * 4096 + PAGESIZE) = (n + 1 + 1) * 4096 := by
        show ((n + 1) * 4096 + 4096) % 2 ^ 32 = _
        omega
      simp only [Mem.dumpLoop, if_pos hlt, hnext]
      exact hg

/-- The scan has printed the runs that it has closed. -/
theorem dump_gives (m : Mem) (pd : PageDirectory) :
    Gives (m.dump pd)
      ((closed (m.pageFlags pd) (2 ^ 20 - 2)).map (m.runCall pd)) := by
  obtain ⟨d, hg, hd⟩ := (scanned_zero m pd).dumpLoop
    (k := 2 ^ 20 - 2) (by decide)
  have hfirst : Gives (fun fuel => m.dumpLoop pd fuel 0
      { startAddr := 0, prev := 0, printed := [] }) d :=
    .of_succ hg
  have hall := hfirst.bind (f := fun _ (d : Dump) => .ret d.printed)
    (.of_eq fun _ => rfl)
  rw [hd.printed] at hall
  exact hall

-- =============================================================== the whole

theorem pageFlags_end (m : Mem) (pd : PageDirectory) :
    ∀ n ≥ 2 ^ 20, m.pageFlags pd n = none :=
  fun _ hn => if_neg fun h => absurd h.1 (Nat.not_lt.mpr hn)

/-- The lines of all runs are an exact dump. -/
theorem dumpExact_closed (m : Mem) (pd : PageDirectory) :
    m.DumpExact pd
      ((closed (m.pageFlags pd) (2 ^ 20)).map (m.runCall pd)) := by
  have hmem : ∀ s e, (s, e) ∈ closed (m.pageFlags pd) (2 ^ 20)
      ↔ IsSegment (m.pageFlags pd) s e :=
    fun _ _ => Segments.mem_closed_of_end (m.pageFlags_end pd)
  refine ⟨_, rfl, Segments.closed_sorted _ _, hmem, fun n => ?_⟩
  constructor
  · intro hn
    obtain ⟨s, e, hseg, hs, he, -⟩ :=
      Segments.exists_segment hn (m.pageFlags_end pd)
    exact ⟨(s, e), (hmem s e).mpr hseg, hs, he⟩
  · rintro ⟨⟨s, e⟩, hr, hs, he⟩
    have hseg := (hmem s e).mp hr
    rw [hseg.flat n hs he]
    exact hseg.keyed

/-- The scan closes all runs exactly if the last two pages are not
mapped. -/
theorem closed_eq_iff (m : Mem) (pd : PageDirectory) :
    (closed (m.pageFlags pd) (2 ^ 20)).length
        = (closed (m.pageFlags pd) (2 ^ 20 - 2)).length
      ↔ m.pageEntry pd (2 ^ 20 - 2) = 0
        ∧ m.pageEntry pd (2 ^ 20 - 1) = 0 := by
  have hlast := m.pageFlags_end pd (2 ^ 20) (le_refl _)
  rw [← pageFlags_eq_none (by decide), ← pageFlags_eq_none (by decide)]
  obtain ⟨N, hN⟩ : ∃ N, N = 2 ^ 20 - 2 := ⟨_, rfl⟩
  rw [show 2 ^ 20 = N + 1 + 1 by omega] at hlast ⊢
  rw [show N + 1 + 1 - 2 = N by omega, show N + 1 + 1 - 1 = N + 1 by omega,
    Segments.length_closed_succ, Segments.length_closed_succ, hlast]
  by_cases h1 : m.pageFlags pd (N + 1) = none
  · by_cases h0 : m.pageFlags pd N = none
    · simp [h0, h1]
    · simp [h0, h1, Ne.symm h0]
  · simp only [h1, Ne.symm h1, ne_eq, not_false_eq_true, and_self,
      if_true, and_false, iff_false]
    split <;> omega

theorem dumpExact_iff (m : Mem) (pd : PageDirectory) :
    m.DumpExact pd
        ((closed (m.pageFlags pd) (2 ^ 20 - 2)).map (m.runCall pd))
      ↔ m.pageEntry pd (2 ^ 20 - 2) = 0
        ∧ m.pageEntry pd (2 ^ 20 - 1) = 0 := by
  rw [← closed_eq_iff]
  constructor
  · rintro ⟨runs, heq, hsorted, hmem, -⟩
    have hruns : runs = closed (m.pageFlags pd) (2 ^ 20) := by
      refine Segments.eq_of_sorted hsorted (Segments.closed_sorted _ _)
        (fun a ha => ((hmem a.1 a.2).mp ha).lt) fun a => ?_
      rw [Segments.mem_closed_of_end (m.pageFlags_end pd)]
      exact hmem a.1 a.2
    have hlength := congrArg List.length heq
    rw [List.length_map, List.length_map, hruns] at hlength
    exact hlength.symm
  · intro hlength
    have hall := m.dumpExact_closed pd
    have hinit : closed (m.pageFlags pd) (2 ^ 20 - 2)
        <+: closed (m.pageFlags pd) (2 ^ 20) :=
      (List.prefix_append _ _).trans (List.prefix_append _ _)
    rw [hinit.eq_of_length hlength.symm]
    exact hall

/-- `mem::dump` comes to an end. What it prints is exact if and only if
neither of the last two pages of the address space is mapped.

A turn prints a range that has ended before its page, and the last turn is
the one on page 2^20 - 2. So the last page is never looked at, and a range
that reaches the page before it is never printed. -/
theorem dump_exact_iff (m : Mem) (pd : PageDirectory) :
    ∃ calls, Gives (m.dump pd) calls
      ∧ (m.DumpExact pd calls
        ↔ m.pageEntry pd (2 ^ 20 - 2) = 0
          ∧ m.pageEntry pd (2 ^ 20 - 1) = 0) :=
  ⟨_, m.dump_gives pd, m.dumpExact_iff pd⟩

/-- A directory that maps the last page, and nothing else. -/
def lastPageOnly : Mem :=
  { Mem.new fun _ => 0 with
    currentPd :=
      { tables := fun d => if d = 0x3ff then 0x1000 else 0
        paddrs := fun _ => 0 }
    pages := fun _ t => if t = 0x3ff then 0x3003 else 0 }

/-- The last page is not in the dump. -/
theorem dump_misses_last :
    let m := lastPageOnly
    Gives (m.dump m.currentPd) []
      ∧ m.pageFlags m.currentPd (2 ^ 20 - 1) = some 3
      ∧ ¬m.DumpExact m.currentPd [] := by
  intro m
  have hflags : m.pageFlags m.currentPd (2 ^ 20 - 1) = some 3 := by decide
  have hentry : ∀ n, m.pageEntry m.currentPd n ≠ 0 → 2 ^ 20 - 1 ≤ n := by
    intro n hn
    unfold pageEntry at hn
    by_cases hd : n / 1024 = 0x3ff
    · by_cases ht : n % 1024 = 0x3ff
      · omega
      · simp [m, lastPageOnly, hd, ht] at hn
    · simp [m, lastPageOnly, hd] at hn
  have hnone : closed (m.pageFlags m.currentPd) (2 ^ 20 - 2) = [] := by
    rw [List.eq_nil_iff_forall_not_mem]
    rintro ⟨s, e⟩ hmem
    obtain ⟨hseg, he⟩ := Segments.mem_closed.mp hmem
    have hlt := hseg.lt
    have hs := hentry s fun h => hseg.keyed (if_neg fun hc => hc.2 h)
    omega
  have hg := m.dump_gives m.currentPd
  have hexact := m.dumpExact_iff m.currentPd
  rw [hnone] at hg hexact
  refine ⟨hg, hflags, fun h => ?_⟩
  have hlast := (hexact.mp h).2
  cases hlast

end Mem

end Ntibux
