/-
A copy of a directory: its structure.

The loop over a table keeps `TableCopy` and the loop over the directory
`DirCopy`, each an account of the entries behind the loop's index. A
frame that a turn takes was unused until then and is marked from then
on, so no two entries get the same: those of the turns before are marked
when the next is taken.
-/
import Ntibux.Mem.Clone
import Ntibux.Mem.Proofs.Entry

namespace Ntibux

variable {e n : Nat}

-- ================================================================ entries

/-- A claimed entry keeps the flags of an entry that is present. -/
theorem flags_claim (hn : n < 2 ^ 20) (he : e &&& PAGE_PRESENT ≠ 0) :
    claim (n * 4096) (e &&& 0xfff) &&& 0xfff = e &&& 0xfff := by
  have hmod : ∀ x : Nat, x &&& 0xfff = x % 4096 :=
    fun x => Nat.and_two_pow_sub_one_eq_mod x 12
  have hodd : e % 2 = 1 := by
    have hone : e &&& PAGE_PRESENT = e % 2 :=
      Nat.and_two_pow_sub_one_eq_mod e 1
    omega
  have hor : PAGE_PRESENT ||| e % 4096 = e % 4096 := by
    apply Nat.eq_of_testBit_eq
    intro i
    rw [Nat.testBit_or]
    cases i with
    | zero =>
        rw [Nat.testBit_zero, Nat.testBit_zero]
        simp [hodd, Nat.mod_mod_of_dvd e (show 2 ∣ 4096 by decide)]
    | succ i => simp [PAGE_PRESENT, Nat.testBit_succ]
  rw [hmod, hmod, claim_eq hn (Nat.mod_lt e (by decide)), hor]
  omega

namespace Mem

variable {m m₁ m' : Mem} {this out i : Nat} {kalloc : Kalloc}

-- =============================================================== one table

/-- Frames were taken and none was given back. -/
structure Taken (f f' : Frames) : Prop where
  nframes : f'.nframes = f.nframes
  unused : ∀ n, f'.Unused n → f.Unused n

theorem Taken.refl (f : Frames) : Taken f f := ⟨rfl, fun _ h => h⟩

/-- Two calls that only take frames are one that does. -/
theorem Taken.trans {f f₁ f' : Frames} (h : Taken f f₁) (h' : Taken f₁ f') :
    Taken f f' :=
  ⟨h'.nframes.trans h.nframes, fun n hn => h.unused n (h'.unused n hn)⟩

/-- Marking a frame as used takes it, and gives no other one back. -/
theorem Taken.marked (f : Frames) (n : Nat) : Taken f (f.marked n) :=
  ⟨rfl, fun i h => ((Frames.unused_marked_iff i).mp h).1⟩

/-- The entry `e'` is a copy of `e`, with a frame that was unused in `f`
and is marked in `f'`. -/
structure Copied (f f' : Frames) (e e' : Nat) : Prop where
  ne_zero : e' ≠ 0
  flags : e' &&& 0xfff = e &&& 0xfff
  tracked : frameOf e' < 32 * Frames.index f.nframes
  unused : f.Unused (frameOf e')
  marked : ¬f'.Unused (frameOf e')

/-- A copied entry stays one while further frames are taken: its own is
still marked. -/
theorem Copied.later {f f' f'' : Frames} {e e' : Nat}
    (h : Copied f f' e e') (ht : Taken f' f'') : Copied f f'' e e' :=
  { h with marked := fun hu => h.marked (ht.unused _ hu) }

/-- It is one as well if we look from further back: what is unused now was
unused then, since none was given back. -/
theorem Copied.earlier {f f₀ f' : Frames} {e e' : Nat}
    (h : Copied f f' e e') (ht : Taken f₀ f) : Copied f₀ f' e e' :=
  { h with
    tracked := ht.nframes ▸ h.tracked
    unused := ht.unused _ h.unused }

/-- The number of entries in use among the first `i` of a table. -/
def entries (m : Mem) (pt i : Nat) : Nat :=
  (List.range i).countP fun j => m.pages pt j ≠ 0

/-- One entry more counts if it is in use. -/
theorem entries_succ (m : Mem) (pt i : Nat) :
    m.entries pt (i + 1)
      = m.entries pt i + if m.pages pt i ≠ 0 then 1 else 0 := by
  unfold entries
  rw [List.range_succ, List.countP_append, List.countP_singleton]
  simp only [decide_eq_true_eq]

/-- The count looks at this one table. -/
theorem entries_congr {pt k : Nat} (h : m.pages pt = m₁.pages pt) :
    m.entries pt k = m₁.entries pt k := by
  unfold entries
  rw [h]

/-- Fewer entries of a table hold no more in use. -/
theorem entries_le (m : Mem) (pt : Nat) (h : i ≤ n) :
    m.entries pt i ≤ m.entries pt n := by
  induction h with
  | refl => exact le_rfl
  | step _ ih =>
      rw [Nat.succ_eq_add_one, entries_succ]
      exact ih.trans (Nat.le_add_right _ _)

/-- The first `i` entries of the table `this` are copied to `out`, which
was empty in `m₁`. -/
structure TableCopy (m₁ : Mem) (this out i : Nat) (m : Mem) : Prop where
  kheap : m.kheap = m₁.kheap
  kernelPd : m.kernelPd = m₁.kernelPd
  currentPd : m.currentPd = m₁.currentPd
  pages : ∀ a, a ≠ out → m.pages a = m₁.pages a
  rest : ∀ j, i ≤ j → m.pages out j = 0
  zero : ∀ j < i, m₁.pages this j = 0 → m.pages out j = 0
  copied : ∀ j < i, m₁.pages this j ≠ 0 →
    Copied m₁.frames m.frames (m₁.pages this j) (m.pages out j)
  apart : ∀ j < i, ∀ j' < i, m₁.pages this j ≠ 0 → m₁.pages this j' ≠ 0 →
    frameOf (m.pages out j) = frameOf (m.pages out j') → j = j'
  taken : Taken m₁.frames m.frames
  avail : m.frames.avail + m₁.entries this i = m₁.frames.avail

/-- An entry of the table was set, and a page copied. -/
structure EntrySet (m : Mem) (p : PagePtr) (n v : Nat) (m' : Mem) :
    Prop where
  kheap : m'.kheap = m.kheap
  kernelPd : m'.kernelPd = m.kernelPd
  currentPd : m'.currentPd = m.currentPd
  frames : m'.frames = m.frames.marked n
  pages : m'.pages = Function.update m.pages p.1
    (Function.update (m.pages p.1) p.2 v)

/-- While a frame is left, an entry that is in use is copied: the copy gets
a frame that was unused, with the flags of the original, and one frame fewer
is left. -/
theorem cloneEntry_set (regs : Nat → Regs) (hn : m.frames.nframes ≤ 2 ^ 20)
    (hne : m.pages this i ≠ 0) (h0 : 0 < m.frames.avail) :
    ∃ n m', n < 32 * Frames.index m.frames.nframes ∧ m.frames.Unused n ∧
      m.cloneEntry regs this out i = .ret m' ∧
      EntrySet m (out, i) n (claim (n * 4096) (m.pages this i &&& 0xfff)) m' ∧
      m'.frames.avail + 1 = m.frames.avail := by
  obtain ⟨n, hlt, hu, heq, havail⟩ := allocFrame_takes (out, i)
    (m.pages this i &&& 0xfff) hn h0
  unfold cloneEntry
  rw [if_pos hne, heq]
  exact ⟨n, _, hlt, hu, rfl, ⟨rfl, rfl, rfl, rfl, rfl⟩, havail⟩

/-- One turn of the loop over a table, at an entry that is 0. -/
theorem TableCopy.turn_zero (regs : Nat → Regs)
    (hc : TableCopy m₁ this out i m) (hne : out ≠ this)
    (h0 : m₁.pages this i = 0) :
    m.cloneEntry regs this out i = .ret m ∧
      TableCopy m₁ this out (i + 1) m := by
  have hthis : m.pages this = m₁.pages this := hc.pages this hne.symm
  have hsucc := entries_succ m₁ this i
  rw [if_neg (by simpa using h0)] at hsucc
  refine ⟨?_, { hc with
    rest := fun j hj => hc.rest j (by omega)
    zero := ?_
    copied := ?_
    apart := ?_
    avail := ?_ }⟩
  · unfold cloneEntry
    rw [if_neg (by rw [hthis]; simpa using h0)]
  · intro j hj hz
    rcases Nat.lt_succ_iff_lt_or_eq.mp hj with hj | rfl
    · exact hc.zero j hj hz
    · exact hc.rest j le_rfl
  · intro j hj hnz
    rcases Nat.lt_succ_iff_lt_or_eq.mp hj with hj | rfl
    · exact hc.copied j hj hnz
    · exact absurd h0 hnz
  · intro j hj j' hj' hnz hnz' heq
    rcases Nat.lt_succ_iff_lt_or_eq.mp hj with hj | rfl
    · rcases Nat.lt_succ_iff_lt_or_eq.mp hj' with hj' | rfl
      · exact hc.apart j hj j' hj' hnz hnz' heq
      · exact absurd h0 hnz'
    · exact absurd h0 hnz
  · rw [hsucc]
    exact hc.avail

/-- The copy of entry `i` has its flags, and the frame that was taken. -/
theorem EntrySet.copied {e : Nat} {f₀ : Frames}
    (hset : EntrySet m (out, i) n (claim (n * 4096) (e &&& 0xfff)) m')
    (hlt : n < 32 * Frames.index m.frames.nframes)
    (hu : m.frames.Unused n) (hn : m.frames.nframes ≤ 2 ^ 20)
    (hp : e &&& PAGE_PRESENT ≠ 0) (ht : Taken f₀ m.frames) :
    frameOf (m'.pages out i) = n ∧
      Copied f₀ m'.frames e (m'.pages out i) := by
  have hnlt : n < 2 ^ 20 := by
    unfold Frames.index at hlt
    omega
  have hself : m'.pages out i = claim (n * 4096) (e &&& 0xfff) := by
    rw [hset.pages, Function.update_self, Function.update_self]
  have hframe : frameOf (m'.pages out i) = n := by
    rw [hself]
    exact frameOf_claim hnlt (lt_of_le_of_lt Nat.and_le_right (by decide))
  refine ⟨hframe, ?_, ?_, ?_, ?_, ?_⟩
  · rw [hself]
    exact claim_ne_zero _ _
  · rw [hself]
    exact flags_claim hnlt hp
  · rw [hframe, ← ht.nframes]
    exact hlt
  · rw [hframe]
    exact ht.unused n hu
  · rw [hframe, hset.frames]
    exact fun hm => ((Frames.unused_marked_iff n).mp hm).2 rfl

/-- At an entry in use, whose copy gets a frame that no entry before it
has: theirs are marked, and this one was unused. -/
theorem TableCopy.turn_copied (regs : Nat → Regs)
    (hc : TableCopy m₁ this out i m) (hne : out ≠ this)
    (hn : m₁.frames.nframes ≤ 2 ^ 20) (hi : i < 1024)
    (h0 : m₁.pages this i ≠ 0)
    (hp : m₁.pages this i &&& PAGE_PRESENT ≠ 0)
    (havail : m₁.entries this 1024 ≤ m₁.frames.avail) :
    ∃ m', m.cloneEntry regs this out i = .ret m' ∧
      TableCopy m₁ this out (i + 1) m' := by
  have hthis : m.pages this = m₁.pages this := hc.pages this hne.symm
  have hsucc := entries_succ m₁ this i
  rw [if_pos h0] at hsucc
  have hle := entries_le m₁ this (show i + 1 ≤ 1024 from hi)
  have hpos : 0 < m.frames.avail := by
    have := hc.avail
    omega
  have hnf : m.frames.nframes ≤ 2 ^ 20 := hc.taken.nframes ▸ hn
  obtain ⟨n, m', hlt, hu, hret, hset, hav⟩ := cloneEntry_set regs hnf
    (show m.pages this i ≠ 0 by rw [hthis]; exact h0) hpos
  rw [hthis] at hset
  obtain ⟨hframe, hcopy⟩ := hset.copied hlt hu hnf hp hc.taken
  have hother : ∀ j, j ≠ i → m'.pages out j = m.pages out j := by
    intro j hj
    rw [hset.pages, Function.update_self, Function.update_of_ne hj]
  have htaken : Taken m.frames m'.frames := by
    rw [hset.frames]
    exact .marked _ n
  -- an earlier copy has its frame marked, and this one was unused
  have hnew : ∀ j < i, m₁.pages this j ≠ 0 →
      frameOf (m'.pages out j) ≠ n := by
    intro j hj hnz heq
    rw [hother j (by omega)] at heq
    exact (hc.copied j hj hnz).marked (heq ▸ hu)
  refine ⟨m', hret, hset.kheap.trans hc.kheap,
    hset.kernelPd.trans hc.kernelPd, hset.currentPd.trans hc.currentPd, ?_,
    ?_, ?_, ?_, ?_, hc.taken.trans htaken, ?_⟩
  · intro a ha
    rw [hset.pages, Function.update_of_ne ha]
    exact hc.pages a ha
  · intro j hj
    rw [hother j (by omega)]
    exact hc.rest j (by omega)
  · intro j hj hz
    rcases Nat.lt_succ_iff_lt_or_eq.mp hj with hj | rfl
    · rw [hother j (by omega)]
      exact hc.zero j hj hz
    · exact absurd hz h0
  · intro j hj hnz
    rcases Nat.lt_succ_iff_lt_or_eq.mp hj with hj | rfl
    · rw [hother j (by omega)]
      exact (hc.copied j hj hnz).later htaken
    · exact hcopy
  · intro j hj j' hj' hnz hnz' heq
    rcases Nat.lt_succ_iff_lt_or_eq.mp hj with hj | rfl
    · rcases Nat.lt_succ_iff_lt_or_eq.mp hj' with hj' | rfl
      · rw [hother j (by omega), hother j' (by omega)] at heq
        exact hc.apart j hj j' hj' hnz hnz' heq
      · rw [hframe] at heq
        exact absurd heq (hnew j hj hnz)
    · rcases Nat.lt_succ_iff_lt_or_eq.mp hj' with hj' | rfl
      · rw [hframe] at heq
        exact absurd heq.symm (hnew j' hj' hnz')
      · rfl
  · have := hc.avail
    omega

/-- One turn of the loop over a table. -/
theorem TableCopy.turn (regs : Nat → Regs)
    (hc : TableCopy m₁ this out i m) (hne : out ≠ this)
    (hn : m₁.frames.nframes ≤ 2 ^ 20) (hi : i < 1024)
    (hp : ∀ j < 1024, m₁.pages this j ≠ 0 →
      m₁.pages this j &&& PAGE_PRESENT ≠ 0)
    (havail : m₁.entries this 1024 ≤ m₁.frames.avail) :
    ∃ m', m.cloneEntry regs this out i = .ret m' ∧
      TableCopy m₁ this out (i + 1) m' := by
  by_cases h0 : m₁.pages this i = 0
  · exact ⟨m, hc.turn_zero regs hne h0⟩
  · exact hc.turn_copied regs hne hn hi h0 (hp i hi h0) havail

variable {used : Kheap → Nat → Prop} {pool : Nat → Prop}
  {room : Kheap → Nat}

/-- The table at `out` is new, and a copy of `this`. -/
structure TableCloned (used : Kheap → Nat → Prop) (pool : Nat → Prop)
    (m : Mem) (this out : Nat) (m' : Mem) : Prop where
  ne_zero : out ≠ 0
  inPool : pool out
  fresh : ¬used m.kheap out
  taken : used m'.kheap out
  keeps : ∀ b, used m.kheap b → used m'.kheap b
  kernelPd : m'.kernelPd = m.kernelPd
  currentPd : m'.currentPd = m.currentPd
  pages : ∀ a, a ≠ out → m'.pages a = m.pages a
  zero : ∀ j < 1024, m.pages this j = 0 → m'.pages out j = 0
  copied : ∀ j < 1024, m.pages this j ≠ 0 →
    Copied m.frames m'.frames (m.pages this j) (m'.pages out j)
  apart : ∀ j < 1024, ∀ j' < 1024, m.pages this j ≠ 0 →
    m.pages this j' ≠ 0 →
      frameOf (m'.pages out j) = frameOf (m'.pages out j') → j = j'
  frames : Taken m.frames m'.frames
  avail : m'.frames.avail + m.entries this 1024 = m.frames.avail

/-- A table is copied if the heap has room for one request and there are as
many frames as the table has entries in use. -/
theorem cloneTable_cloned (regs : Nat → Regs)
    (hs : Serves kalloc used pool room)
    (hroom : 0 < room m.kheap) (hn : m.frames.nframes ≤ 2 ^ 20)
    (hused : used m.kheap this)
    (hp : ∀ j < 1024, m.pages this j ≠ 0 →
      m.pages this j &&& PAGE_PRESENT ≠ 0)
    (havail : m.entries this 1024 ≤ m.frames.avail) :
    ∃ out m', m.cloneTable kalloc regs this = .ret (out, m') ∧
      TableCloned used pool m this out m' ∧
      room m.kheap ≤ room m'.kheap + 1 := by
  obtain ⟨out, m₁, hret, hg, hleft⟩ := hs sizeofPageTable (by decide) m hroom
  have hne : out ≠ this := by
    intro heq
    exact hg.fresh (heq ▸ hused)
  have hnew : ∀ a, a ≠ out → (m₁.newTable out).pages a = m.pages a := by
    intro a ha
    show Function.update m₁.pages out _ a = _
    rw [Function.update_of_ne ha, hg.pages]
  have hthis : (m₁.newTable out).pages this = m.pages this :=
    hnew this hne.symm
  have hframes : (m₁.newTable out).frames = m.frames := hg.frames
  have hentries : ∀ k, (m₁.newTable out).entries this k
      = m.entries this k := fun _ => entries_congr hthis
  -- the turns start with a new table of zeros
  have hstart : TableCopy (m₁.newTable out) this out 0
      (m₁.newTable out) := by
    refine ⟨rfl, rfl, rfl, fun _ _ => rfl, ?_, nofun, nofun, nofun, .refl _,
      rfl⟩
    intro j _
    exact congrFun (Function.update_self out _ m₁.pages) j
  obtain ⟨m', hloop, hc⟩ := Outcome.turns_ret (k := 1024)
    (fun i m hi (h : TableCopy (m₁.newTable out) this out i m) =>
      h.turn regs hne (hframes ▸ hn) hi
        (by rw [hthis]; exact hp)
        (by rw [hentries, hframes]; exact havail)) (Nat.zero_add 1024)
    hstart
  refine ⟨out, m', ?_, ?_, ?_⟩
  · unfold cloneTable
    rw [hret, Outcome.ret_bind]
    dsimp only
    rw [hloop, Outcome.ret_bind]
  · have hkheap : m'.kheap = m₁.kheap := hc.kheap
    refine ⟨hg.ne_zero, hg.inPool, hg.fresh, hkheap ▸ hg.taken,
      fun b hb => hkheap ▸ hg.keeps b hb, hc.kernelPd.trans hg.kernelPd,
      hc.currentPd.trans hg.currentPd, ?_, ?_, ?_, ?_, hframes ▸ hc.taken, ?_⟩
    · exact fun a ha => (hc.pages a ha).trans (hnew a ha)
    · rw [← hthis]
      exact hc.zero
    · rw [← hthis, ← hframes]
      exact hc.copied
    · rw [← hthis]
      exact hc.apart
    · rw [← hentries, ← hframes]
      exact hc.avail
  · rw [hc.kheap]
    exact hleft

end Mem

-- ============================================================ a directory

namespace Directories

open Mem

variable {used : Kheap → Nat → Prop} {pool : Nat → Prop}
  {room : Kheap → Nat} {kalloc : Kalloc}
  {pds pds₀ : Directories} {m m₀ : Mem} {this out i : Nat}

/-- The frames that the first `i` tables of a copy take. -/
def needUpTo (pds : Directories) (m : Mem) (this i : Nat) : Nat :=
  ((List.range i).map fun i =>
    if pds.Own m.kernelPd this i then
      m.entries ((pds this).tables i) 1024 else 0).sum

/-- A table of the directory's own takes a frame for each of its entries; a
shared one takes none. -/
theorem needUpTo_succ (pds : Directories) (m : Mem) (this i : Nat) :
    pds.needUpTo m this (i + 1) = pds.needUpTo m this i
      + if pds.Own m.kernelPd this i then
          m.entries ((pds this).tables i) 1024 else 0 := by
  unfold needUpTo
  rw [List.range_succ, List.map_append, List.sum_append]
  simp

/-- The first tables take no more than all of them. -/
theorem needUpTo_le (pds : Directories) (m : Mem) (this : Nat)
    (h : i ≤ n) : pds.needUpTo m this i ≤ pds.needUpTo m this n := by
  induction h with
  | refl => exact le_rfl
  | step _ ih =>
      rw [Nat.succ_eq_add_one, needUpTo_succ]
      exact ih.trans (Nat.le_add_right _ _)

/-- The first `i` entries of the directory `this` are copied to `out`,
which was empty in `pds₀`. -/
structure DirCopy (used : Kheap → Nat → Prop) (pool : Nat → Prop)
    (room : Kheap → Nat) (pds₀ : Directories) (m₀ : Mem)
    (this out i : Nat) (pds : Directories) (m : Mem) : Prop where
  kernelPd : m.kernelPd = m₀.kernelPd
  currentPd : m.currentPd = m₀.currentPd
  others : ∀ a, a ≠ out → pds a = pds₀ a
  rest : ∀ j, i ≤ j → (pds out).tables j = 0
  null : ∀ j < i, (pds₀ this).tables j = 0 → (pds out).tables j = 0
  shared : ∀ j < i, (pds₀ this).tables j ≠ 0 →
    ¬pds₀.Own m₀.kernelPd this j →
      (pds out).tables j = (pds₀ this).tables j ∧
        (pds out).paddrs j = (pds₀ this).paddrs j
  keeps : ∀ a, used m₀.kheap a → used m.kheap a
  pages : ∀ a, used m₀.kheap a → m.pages a = m₀.pages a
  table : ∀ j < i, pds₀.Own m₀.kernelPd this j →
    (pds out).tables j ≠ 0 ∧ ¬used m₀.kheap ((pds out).tables j) ∧
      used m.kheap ((pds out).tables j) ∧ pool ((pds out).tables j) ∧
      (pds out).paddrs j = m₀.getPaddr ((pds out).tables j) ||| 7
  tables_apart : ∀ j < i, ∀ j' < i, pds₀.Own m₀.kernelPd this j →
    pds₀.Own m₀.kernelPd this j' →
      (pds out).tables j = (pds out).tables j' → j = j'
  zero : ∀ j < i, pds₀.Own m₀.kernelPd this j → ∀ t < 1024,
    pds₀.entry m₀ this (j, t) = 0 → pds.entry m out (j, t) = 0
  copied : ∀ p, p.1 < i → pds₀.Copies m₀ this p →
    Copied m₀.frames m.frames (pds₀.entry m₀ this p) (pds.entry m out p)
  apart : ∀ p q, p.1 < i → q.1 < i → pds₀.Copies m₀ this p →
    pds₀.Copies m₀ this q →
      frameOf (pds.entry m out p) = frameOf (pds.entry m out q) → p = q
  taken : Taken m₀.frames m.frames
  avail : m.frames.avail + pds₀.needUpTo m₀ this i = m₀.frames.avail
  room : room m₀.kheap ≤ room m.kheap + i

/-- What a turn of the loop makes of entry `i`. -/
structure DirTurn (used : Kheap → Nat → Prop) (pool : Nat → Prop)
    (room : Kheap → Nat) (pds₀ : Directories) (m₀ : Mem)
    (this out i : Nat) (pds : Directories) (m : Mem) (pds' : Directories)
    (m' : Mem) : Prop where
  kernelPd : m'.kernelPd = m.kernelPd
  currentPd : m'.currentPd = m.currentPd
  others : ∀ a, a ≠ out → pds' a = pds a
  tables : ∀ j, j ≠ i → (pds' out).tables j = (pds out).tables j
  paddrs : ∀ j, j ≠ i → (pds' out).paddrs j = (pds out).paddrs j
  keeps : ∀ a, used m.kheap a → used m'.kheap a
  pages : ∀ a, used m.kheap a → m'.pages a = m.pages a
  null : (pds₀ this).tables i = 0 → (pds' out).tables i = 0
  shared : (pds₀ this).tables i ≠ 0 → ¬pds₀.Own m₀.kernelPd this i →
    (pds' out).tables i = (pds₀ this).tables i ∧
      (pds' out).paddrs i = (pds₀ this).paddrs i
  table : pds₀.Own m₀.kernelPd this i →
    (pds' out).tables i ≠ 0 ∧ ¬used m.kheap ((pds' out).tables i) ∧
      used m'.kheap ((pds' out).tables i) ∧ pool ((pds' out).tables i) ∧
      (pds' out).paddrs i = m₀.getPaddr ((pds' out).tables i) ||| 7
  zero : pds₀.Own m₀.kernelPd this i → ∀ t < 1024,
    pds₀.entry m₀ this (i, t) = 0 → pds'.entry m' out (i, t) = 0
  copied : ∀ t, pds₀.Copies m₀ this (i, t) →
    Copied m.frames m'.frames (pds₀.entry m₀ this (i, t))
      (pds'.entry m' out (i, t))
  apart : ∀ t t', pds₀.Copies m₀ this (i, t) →
    pds₀.Copies m₀ this (i, t') →
      frameOf (pds'.entry m' out (i, t)) =
        frameOf (pds'.entry m' out (i, t')) → t = t'
  taken : Taken m.frames m'.frames
  avail : m'.frames.avail + (if pds₀.Own m₀.kernelPd this i then
    m₀.entries ((pds₀ this).tables i) 1024 else 0) = m.frames.avail
  room : room m.kheap ≤ room m'.kheap + 1

/-- One entry more is copied. -/
theorem DirCopy.extend {pds' : Directories} {m' : Mem}
    (hc : DirCopy used pool room pds₀ m₀ this out i pds m)
    (ht : DirTurn used pool room pds₀ m₀ this out i pds m pds' m') :
    DirCopy used pool room pds₀ m₀ this out (i + 1) pds' m' := by
  have hlt : ∀ {j}, j < i + 1 → j < i ∨ j = i :=
    fun h => Nat.lt_succ_iff_lt_or_eq.mp h
  -- what was copied before is untouched
  have hentry : ∀ p : Mem.Page, p.1 < i → pds₀.Own m₀.kernelPd this p.1 →
      pds'.entry m' out p = pds.entry m out p := by
    intro p hp hown
    unfold entry
    rw [ht.tables p.1 (by omega), ht.pages _ (hc.table p.1 hp hown).2.2.1]
  have hold : ∀ p : Mem.Page, p.1 < i → pds₀.Copies m₀ this p →
      ¬m.frames.Unused (frameOf (pds'.entry m' out p)) := by
    intro p hp hcp
    rw [hentry p hp hcp.own]
    exact (hc.copied p hp hcp).marked
  constructor
  · exact ht.kernelPd.trans hc.kernelPd
  · exact ht.currentPd.trans hc.currentPd
  · exact fun a ha => (ht.others a ha).trans (hc.others a ha)
  · intro j hj
    rw [ht.tables j (by omega)]
    exact hc.rest j (by omega)
  · intro j hj h0
    rcases hlt hj with hj | rfl
    · rw [ht.tables j (by omega)]
      exact hc.null j hj h0
    · exact ht.null h0
  · intro j hj hne hown
    rcases hlt hj with hj | rfl
    · rw [ht.tables j (by omega), ht.paddrs j (by omega)]
      exact hc.shared j hj hne hown
    · exact ht.shared hne hown
  · exact fun a ha => ht.keeps a (hc.keeps a ha)
  · exact fun a ha => (ht.pages a (hc.keeps a ha)).trans (hc.pages a ha)
  · intro j hj hown
    rcases hlt hj with hj | rfl
    · rw [ht.tables j (by omega), ht.paddrs j (by omega)]
      obtain ⟨h1, h2, h3, h4⟩ := hc.table j hj hown
      exact ⟨h1, h2, ht.keeps _ h3, h4⟩
    · obtain ⟨h1, h2, h3, h4⟩ := ht.table hown
      exact ⟨h1, fun h => h2 (hc.keeps _ h), h3, h4⟩
  · intro j hj j' hj' hown hown' heq
    rcases hlt hj with hj | rfl
    · rcases hlt hj' with hj' | rfl
      · rw [ht.tables j (by omega), ht.tables j' (by omega)] at heq
        exact hc.tables_apart j hj j' hj' hown hown' heq
      · rw [ht.tables j (by omega)] at heq
        have hused := (hc.table j hj hown).2.2.1
        exact absurd (heq ▸ hused) (ht.table hown').2.1
    · rcases hlt hj' with hj' | rfl
      · rw [ht.tables j' (by omega)] at heq
        have hused := (hc.table j' hj' hown').2.2.1
        exact absurd (heq ▸ hused) (ht.table hown).2.1
      · rfl
  · intro j hj hown t htlt h0
    rcases hlt hj with hj | rfl
    · rw [hentry (j, t) hj hown]
      exact hc.zero j hj hown t htlt h0
    · exact ht.zero hown t htlt h0
  · intro p hp hcp
    rcases hlt hp with hp | hp
    · rw [hentry p hp hcp.own]
      exact (hc.copied p hp hcp).later ht.taken
    · obtain ⟨j, t⟩ := p
      obtain rfl : j = i := hp
      exact (ht.copied t hcp).earlier hc.taken
  · intro p q hp hq hcp hcq heq
    rcases hlt hp with hp | hp
    · rcases hlt hq with hq | hq
      · rw [hentry p hp hcp.own, hentry q hq hcq.own] at heq
        exact hc.apart p q hp hq hcp hcq heq
      · obtain ⟨j, t⟩ := q
        obtain rfl : j = i := hq
        have hun := (ht.copied t hcq).unused
        exact absurd (heq ▸ hun) (hold p hp hcp)
    · obtain ⟨j, t⟩ := p
      obtain rfl : j = i := hp
      rcases hlt hq with hq | hq
      · have hun := (ht.copied t hcp).unused
        exact absurd (heq ▸ hun) (hold q hq hcq)
      · obtain ⟨j', t'⟩ := q
        obtain rfl : j' = j := hq
        rw [ht.apart t t' hcp hcq heq]
  · exact hc.taken.trans ht.taken
  · have h1 := hc.avail
    have h2 := ht.avail
    rw [needUpTo_succ]
    omega
  · have h1 := hc.room
    have h2 := ht.room
    omega

@[simp] theorem setTable_tables (a d pt paddr : Nat) :
    (pds.setTable a d pt paddr a).tables =
      Function.update (pds a).tables d pt := by
  unfold setTable
  rw [Function.update_self]

@[simp] theorem setTable_paddrs (a d pt paddr : Nat) :
    (pds.setTable a d pt paddr a).paddrs =
      Function.update (pds a).paddrs d paddr := by
  unfold setTable
  rw [Function.update_self]

/-- Other directories keep what they hold. -/
theorem setTable_other {a b : Nat} (h : b ≠ a) (d pt paddr : Nat) :
    pds.setTable a d pt paddr b = pds b :=
  Function.update_of_ne h _ _

/-- What the loop over a directory rests on. -/
structure Setting (kalloc : Kalloc) (used : Kheap → Nat → Prop)
    (pool : Nat → Prop) (room : Kheap → Nat) (pds₀ : Directories)
    (m₀ : Mem) (this out : Nat) : Prop where
  serves : Serves kalloc used pool room
  out_ne : this ≠ out
  kernel_ne : m₀.kernelPd ≠ out
  nframes : m₀.frames.nframes ≤ 2 ^ 20
  tables : ∀ j < 1024, (pds₀ this).tables j ≠ 0 →
    used m₀.kheap ((pds₀ this).tables j)
  current : ∀ j < 1024, m₀.currentPd.tables j ≠ 0 →
    used m₀.kheap (m₀.currentPd.tables j)
  mapped : ∀ a, pool a → m₀.entry (pageOf a) ≠ 0
  present : ∀ j < 1024, (pds₀ this).tables j ≠ 0 → ∀ t < 1024,
    m₀.pages ((pds₀ this).tables j) t ≠ 0 →
      m₀.pages ((pds₀ this).tables j) t &&& PAGE_PRESENT ≠ 0
  avail : pds₀.needUpTo m₀ this 1024 ≤ m₀.frames.avail
  room : 1024 ≤ room m₀.kheap

/-- The kernel's directory stays as it was, since the copy is another one.
-/
theorem DirCopy.kernel
    (hc : DirCopy used pool room pds₀ m₀ this out i pds m)
    (hset : Setting kalloc used pool room pds₀ m₀ this out) :
    pds m.kernelPd = pds₀ m₀.kernelPd := by
  rw [hc.kernelPd]
  exact hc.others _ hset.kernel_ne

/-- The table that an address of the pool is reached by is in use, so
that what is mapped there stays. -/
theorem Setting.reach {a : Nat} {m' : Mem}
    (hset : Setting kalloc used pool room pds₀ m₀ this out) (ha : pool a)
    (hpd : m'.currentPd = m₀.currentPd)
    (hpages : ∀ b, used m₀.kheap b → m'.pages b = m₀.pages b) :
    m'.getPaddr a = m₀.getPaddr a ∧
      m'.entry (pageOf a) = m₀.entry (pageOf a) := by
  have hne : m₀.currentPd.tables (directoryIndex a) ≠ 0 := by
    intro h0
    apply hset.mapped a ha
    unfold Mem.entry
    exact if_pos h0
  have hsame := hpages _ (hset.current _ (directoryIndex_lt a) hne)
  constructor
  · unfold getPaddr
    rw [hpd, hsame]
  · unfold Mem.entry
    rw [hpd]
    show (if m₀.currentPd.tables (directoryIndex a) = 0 then 0
      else m'.pages (m₀.currentPd.tables (directoryIndex a)) _) = _
    rw [hsame]
    rfl

/-- One turn of the loop over a directory, at an entry without a table. -/
theorem Setting.turn_null (regs : Nat → Nat → Regs)
    (hset : Setting kalloc used pool room pds₀ m₀ this out)
    (hc : DirCopy used pool room pds₀ m₀ this out i pds m)
    (h0 : (pds₀ this).tables i = 0) :
    cloneEntry kalloc regs this out i (pds, m) = .ret (pds, m) ∧
      DirCopy used pool room pds₀ m₀ this out (i + 1) pds m := by
  have hown : ¬pds₀.Own m₀.kernelPd this i := fun h => h.1 h0
  refine ⟨?_, hc.extend ⟨rfl, rfl, fun _ _ => rfl, fun _ _ => rfl,
    fun _ _ => rfl, fun _ h => h, fun _ _ => rfl,
    fun _ => hc.rest i le_rfl, fun h => absurd h0 h,
    fun h => absurd h hown, fun h => absurd h hown,
    fun t h => absurd h.own hown, fun t t' h => absurd h.own hown, .refl _,
    ?_, Nat.le_succ _⟩⟩
  · unfold cloneEntry
    dsimp only
    rw [hc.others this hset.out_ne, if_neg (by simpa using h0)]
  · rw [if_neg hown]
    rfl

/-- At an entry with the kernel's table, which the copy shares. -/
theorem Setting.turn_shared (regs : Nat → Nat → Regs)
    (hset : Setting kalloc used pool room pds₀ m₀ this out)
    (hc : DirCopy used pool room pds₀ m₀ this out i pds m)
    (h0 : (pds₀ this).tables i ≠ 0)
    (hk : (pds₀ this).tables i = (pds₀ m₀.kernelPd).tables i) :
    ∃ pds', cloneEntry kalloc regs this out i (pds, m) = .ret (pds', m) ∧
      DirCopy used pool room pds₀ m₀ this out (i + 1) pds' m := by
  have hown : ¬pds₀.Own m₀.kernelPd this i := fun h => h.2 hk
  refine ⟨pds.setTable out i ((pds₀ this).tables i)
    ((pds₀ this).paddrs i), ?_, hc.extend ⟨rfl, rfl,
    fun a ha => setTable_other ha _ _ _, ?_, ?_, fun _ h => h,
    fun _ _ => rfl, fun h => absurd h h0, ?_, fun h => absurd h hown,
    fun h => absurd h hown, fun t h => absurd h.own hown,
    fun t t' h => absurd h.own hown, .refl _, ?_, Nat.le_succ _⟩⟩
  · unfold cloneEntry
    dsimp only
    rw [hc.others this hset.out_ne, hc.kernel hset, if_pos h0, if_pos hk]
  · intro j hj
    rw [setTable_tables, Function.update_of_ne hj]
  · intro j hj
    rw [setTable_paddrs, Function.update_of_ne hj]
  · intro _ _
    rw [setTable_tables, setTable_paddrs, Function.update_self,
      Function.update_self]
    exact ⟨rfl, rfl⟩
  · rw [if_neg hown]
    rfl

/-- At an entry with a table of its own, for which there are memory and
frames left. -/
theorem Setting.cloneTable_own (regs : Nat → Nat → Regs)
    (hset : Setting kalloc used pool room pds₀ m₀ this out)
    (hi : i < 1024) (hc : DirCopy used pool room pds₀ m₀ this out i pds m)
    (hown : pds₀.Own m₀.kernelPd this i) :
    ∃ pt m', m.cloneTable kalloc (regs i) ((pds₀ this).tables i)
        = .ret (pt, m') ∧
      TableCloned used pool m ((pds₀ this).tables i) pt m' ∧
      room m.kheap ≤ room m'.kheap + 1 := by
  have hused := hset.tables i hi hown.1
  have hpages := hc.pages _ hused
  have hneed := needUpTo_succ pds₀ m₀ this i
  rw [if_pos hown] at hneed
  have hle := needUpTo_le pds₀ m₀ this (show i + 1 ≤ 1024 from hi)
  have h1 := hc.avail
  have h2 := hset.avail
  have h3 := hc.room
  have h4 := hset.room
  exact cloneTable_cloned (regs i) hset.serves (by omega)
    (hc.taken.nframes ▸ hset.nframes) (hc.keeps _ hused)
    (by rw [hpages]; exact hset.present i hi hown.1)
    (by rw [entries_congr hpages]; omega)

/-- The copy gets the table at `pt`, and its physical address. -/
theorem Setting.turn_own (regs : Nat → Nat → Regs)
    (hset : Setting kalloc used pool room pds₀ m₀ this out)
    (hi : i < 1024) (hc : DirCopy used pool room pds₀ m₀ this out i pds m)
    (hown : pds₀.Own m₀.kernelPd this i) :
    ∃ s, cloneEntry kalloc regs this out i (pds, m) = .ret s ∧
      DirCopy used pool room pds₀ m₀ this out (i + 1) s.1 s.2 := by
  obtain ⟨pt, m', hret, ht, hleft⟩ := hset.cloneTable_own regs hi hc hown
  have hpages : m.pages ((pds₀ this).tables i)
      = m₀.pages ((pds₀ this).tables i) :=
    hc.pages _ (hset.tables i hi hown.1)
  have hkept : ∀ a, used m.kheap a → m'.pages a = m.pages a := by
    intro a ha
    apply ht.pages a
    intro heq
    exact ht.fresh (heq ▸ ha)
  -- the table is found where it was, whatever the copy has written
  have hpaddr : m'.getPaddr pt = m₀.getPaddr pt :=
    (hset.reach ht.inPool (ht.currentPd.trans hc.currentPd)
      fun b hb => (hkept b (hc.keeps b hb)).trans (hc.pages b hb)).1
  refine ⟨(pds.setTable out i pt (m'.getPaddr pt ||| 7), m'), ?_,
    hc.extend ⟨ht.kernelPd, ht.currentPd,
    fun a ha => setTable_other ha _ _ _, ?_, ?_, ht.keeps, hkept,
    fun h => absurd h hown.1, fun _ h => absurd hown h, ?_, ?_, ?_, ?_,
    ht.frames, ?_, hleft⟩⟩
  · unfold cloneEntry
    dsimp only
    rw [hc.others this hset.out_ne, hc.kernel hset, if_pos hown.1,
      if_neg hown.2, hret, Outcome.ret_bind]
  · intro j hj
    rw [setTable_tables, Function.update_of_ne hj]
  · intro j hj
    rw [setTable_paddrs, Function.update_of_ne hj]
  · intro _
    rw [setTable_tables, setTable_paddrs, Function.update_self,
      Function.update_self, hpaddr]
    exact ⟨ht.ne_zero, ht.fresh, ht.taken, ht.inPool, rfl⟩
  · intro _ t htlt hz
    unfold entry
    rw [setTable_tables, Function.update_self]
    exact ht.zero t htlt (hpages.symm ▸ hz)
  · intro t hcp
    unfold entry
    rw [setTable_tables, Function.update_self, ← hpages]
    exact ht.copied t hcp.table_lt (hpages.symm ▸ hcp.ne_zero)
  · intro t t' hcp hcp' heq
    unfold entry at heq
    rw [setTable_tables, Function.update_self] at heq
    exact ht.apart t hcp.table_lt t' hcp'.table_lt
      (hpages.symm ▸ hcp.ne_zero) (hpages.symm ▸ hcp'.ne_zero) heq
  · rw [if_pos hown, ← entries_congr hpages]
    exact ht.avail

/-- One turn of the loop over a directory. -/
theorem Setting.turn (regs : Nat → Nat → Regs)
    (hset : Setting kalloc used pool room pds₀ m₀ this out)
    (hi : i < 1024) (hc : DirCopy used pool room pds₀ m₀ this out i pds m) :
    ∃ s, cloneEntry kalloc regs this out i (pds, m) = .ret s ∧
      DirCopy used pool room pds₀ m₀ this out (i + 1) s.1 s.2 := by
  by_cases h0 : (pds₀ this).tables i = 0
  · exact ⟨(pds, m), hset.turn_null regs hc h0⟩
  · by_cases hk : (pds₀ this).tables i = (pds₀ m₀.kernelPd).tables i
    · obtain ⟨pds', hret, hc'⟩ := hset.turn_shared regs hc h0 hk
      exact ⟨(pds', m), hret, hc'⟩
    · exact hset.turn_own regs hi hc ⟨h0, hk⟩

-- ============================================== the directory of the copy

section Opened

variable {E : Nat} {pds' : Directories} {m' : Mem}

/-- The directories with a new and empty one at `E`. -/
def opened (pds : Directories) (E : Nat) : Directories :=
  Function.update pds E ⟨fun _ => 0, fun _ => 0⟩

/-- Only the directory at `E` is new. -/
theorem opened_other {a : Nat} (h : a ≠ E) : pds.opened E a = pds a :=
  Function.update_of_ne h _ _

/-- The loop starts with nothing copied. -/
theorem DirCopy.start :
    DirCopy used pool room (pds.opened E) m₀ this E 0 (pds.opened E) m₀ := by
  refine ⟨rfl, rfl, fun _ _ => rfl, fun j _ => ?_, nofun, nofun,
    fun _ h => h, fun _ _ => rfl, nofun, nofun, nofun, nofun, nofun,
    .refl _, rfl, le_rfl⟩
  exact congrFun (congrArg PageDirectory.tables
    (Function.update_self E _ pds)) j

variable (hg : Given used pool m E m₀) (huse : pds.InUse used m this)
include hg huse

/-- The directory to copy is in use, so the new one is not laid over it. -/
theorem InUse.opened_this : pds.opened E this = pds this :=
  opened_other fun heq => hg.fresh (heq ▸ huse.self)

/-- Neither is it laid over the kernel's. -/
theorem InUse.opened_kernel :
    pds.opened E m₀.kernelPd = pds m.kernelPd := by
  rw [hg.kernelPd]
  exact opened_other fun heq => hg.fresh (heq ▸ huse.kernel)

/-- Hence the tables that are the directory's own are the same as before the
first request. -/
theorem InUse.opened_own (i : Nat) :
    (pds.opened E).Own m₀.kernelPd this i ↔ pds.Own m.kernelPd this i := by
  unfold Own
  rw [huse.opened_this hg, huse.opened_kernel hg]

/-- So are its entries. -/
theorem InUse.opened_entry (p : Mem.Page) :
    (pds.opened E).entry m₀ this p = pds.entry m this p := by
  unfold entry
  rw [huse.opened_this hg, hg.pages]

/-- So are the pages that it will copy. -/
theorem InUse.opened_copies {p : Mem.Page} (h : pds.Copies m this p) :
    (pds.opened E).Copies m₀ this p := by
  refine ⟨h.dir_lt, h.table_lt, (huse.opened_own hg p.1).mpr h.own, ?_⟩
  rw [huse.opened_this hg, hg.pages]
  exact h.ne_zero

/-- The frames that we asked for before the first request are the ones that
the loop takes. -/
theorem InUse.opened_need :
    (pds.opened E).needUpTo m₀ this 1024 = pds.need m this := by
  unfold needUpTo need entries
  simp only [huse.opened_own hg, huse.opened_this hg, hg.pages]

/-- What the loop rests on holds behind the first request. -/
theorem InUse.setting (hserves : Serves kalloc used pool room)
    (hroom : 1024 ≤ room m₀.kheap)
    (hmapped : ∀ a, pool a → m.entry (pageOf a) ≠ 0)
    (hpresent : ∀ i < 1024, (pds this).tables i ≠ 0 → ∀ j < 1024,
      m.pages ((pds this).tables i) j ≠ 0 →
        m.pages ((pds this).tables i) j &&& PAGE_PRESENT ≠ 0)
    (hnframes : m.frames.nframes ≤ 2 ^ 20)
    (hfree : pds.need m this ≤ m.frames.avail) :
    Setting kalloc used pool room (pds.opened E) m₀ this E := by
  have hthis := huse.opened_this hg
  refine ⟨hserves, fun heq => hg.fresh (heq ▸ huse.self), ?_,
    hg.frames ▸ hnframes, ?_, ?_, ?_, ?_, ?_, hroom⟩
  · rw [hg.kernelPd]
    exact fun heq => hg.fresh (heq ▸ huse.kernel)
  · rw [hthis]
    exact fun j hj h => hg.keeps _ (huse.tables j hj h)
  · rw [hg.currentPd]
    exact fun j hj h => hg.keeps _ (huse.current j hj h)
  · intro a ha
    unfold Mem.entry
    rw [hg.currentPd, hg.pages]
    exact hmapped a ha
  · rw [hthis, hg.pages]
    exact hpresent
  · rw [huse.opened_need hg, hg.frames]
    exact hfree

/-- What the loop leaves behind its last entry is a copy of `this` as it
was before the first request. -/
theorem InUse.cloned
    (hset : Setting kalloc used pool room (pds.opened E) m₀ this E)
    (hc : DirCopy used pool room (pds.opened E) m₀ this E 1024 pds' m') :
    Cloned used pds m this E pds' m' := by
  have hthis := huse.opened_this hg
  have hown := huse.opened_own hg
  have hcopies := fun p h => huse.opened_copies hg (p := p) h
  refine ⟨⟨hg.ne_zero, hg.fresh⟩, ?_, ?_, ?_, ?_, ?_, ?_, ?_, ?_, ?_, ?_,
    ?_⟩
  · intro i hi
    -- a table of its own has a copy, and a shared one is there as it is
    constructor
    · intro h0
      by_contra hne
      by_cases ho : pds.Own m.kernelPd this i
      · exact (hc.table i hi ((hown i).mpr ho)).1 h0
      · rw [(hc.shared i hi (hthis ▸ hne) fun h => ho ((hown i).mp h)).1,
          hthis] at h0
        exact hne h0
    · exact fun h0 => hc.null i hi (hthis ▸ h0)
  · intro i hi hne ho
    have hs := hc.shared i hi (hthis ▸ hne) fun h => ho ((hown i).mp h)
    rwa [hthis] at hs
  · intro i hi ho
    obtain ⟨-, hfresh, -, hpool, hpaddr⟩ := hc.table i hi ((hown i).mpr ho)
    obtain ⟨hsame, hent⟩ := hset.reach hpool hc.currentPd hc.pages
    refine ⟨fun h => hfresh (hg.keeps _ h), ?_, hsame ▸ hpaddr⟩
    rw [hent]
    exact hset.mapped _ hpool
  · intro i hi j hj ho ho'
    exact hc.tables_apart i hi j hj ((hown i).mpr ho) ((hown j).mpr ho')
  · intro i hi ho j hj
    constructor
    · intro h0
      by_contra hne
      have hcp : pds.Copies m this (i, j) := ⟨hi, hj, ho, hne⟩
      exact (hc.copied (i, j) hi (hcopies _ hcp)).ne_zero h0
    · intro h0
      exact hc.zero i hi ((hown i).mpr ho) j hj
        ((huse.opened_entry hg _).trans h0)
  · intro p hp
    rw [← huse.opened_entry hg]
    exact (hc.copied p hp.dir_lt (hcopies p hp)).flags
  · intro p hp
    have hcp := hc.copied p hp.dir_lt (hcopies p hp)
    have htracked := hcp.tracked
    refine ⟨hg.frames ▸ htracked, hg.frames ▸ hcp.unused, ?_, hcp.marked⟩
    rw [Frames.index_lt_iff, hc.taken.nframes]
    exact htracked
  · intro p q hp hq
    exact hc.apart p q hp.dir_lt hq.dir_lt (hcopies p hp) (hcopies q hq)
  · exact fun a ha => (hc.others a ha).trans (opened_other ha)
  · intro i hi hne
    rw [← hg.pages]
    exact hc.pages _ (hg.keeps _ (huse.tables i hi hne))
  · intro n hn
    refine ⟨?_, fun h => hn.used (hg.frames ▸ hc.taken.unused n h)⟩
    rw [hc.taken.nframes, hg.frames]
    exact hn.tracked

end Opened

-- ============================================================== the copy

/-- A heap that hands out what comes next, two pages at a time. -/
def handOn : Kalloc := fun size _ m =>
  .ret (m.kheap.freeZone,
    { m with kheap := { m.kheap with
        freeZone := m.kheap.freeZone + 8192 } }.zero m.kheap.freeZone size)

/-- Memory from 4 MiB on, for as many requests as a copy may make. -/
def zone (a : Nat) : Prop := 0x400000 ≤ a ∧ a < 0x400000 + 1025 * 8192

/-- The requests that the zone has room for. -/
def zoneRoom (k : Kheap) : Nat :=
  if 0x400000 ≤ k.freeZone then
    (0x400000 + 1025 * 8192 - k.freeZone) / 8192
  else 0

/-- A heap that only hands on serves every request that its zone has room
for: what it gives lies in the zone and behind all it gave before. -/
theorem handOn_serves :
    Serves handOn (fun k a => a < k.freeZone) zone zoneRoom := by
  intro size _ m hroom
  unfold zoneRoom at hroom
  split at hroom
  · rename_i hlow
    refine ⟨m.kheap.freeZone, _, rfl, ⟨by omega, ⟨hlow, by omega⟩,
      Nat.lt_irrefl _, ?_, ?_, rfl, rfl, rfl, rfl⟩, ?_⟩
    · change m.kheap.freeZone < m.kheap.freeZone + 8192
      omega
    · intro b hb
      change b < m.kheap.freeZone + 8192
      exact Nat.lt_add_right _ hb
    · change zoneRoom m.kheap ≤
        (if 0x400000 ≤ m.kheap.freeZone + 8192 then
          (0x400000 + 1025 * 8192 - (m.kheap.freeZone + 8192)) / 8192
        else 0) + 1
      unfold zoneRoom
      rw [if_pos hlow, if_pos (by omega)]
      omega
  · omega

/-- A machine with the kernel's directory at 0x3000, whose tables are all
the one at 0x1000, and a directory at 0x2000 with a table of its own. -/
def twin : Mem :=
  { Mem.new fun _ => 0 with
    frames := { frames := 0, words := fun i => if i = 0 then 1 else 0
                nframes := 64 }
    kheap := { (Mem.new fun _ => 0).kheap with freeZone := 0x400000 }
    kernelPd := 0x3000
    currentPd := ⟨fun _ => 0x1000, fun _ => 0x1007⟩
    pages := fun a j =>
      if a = 0x1000 then 3 else if a = 0x4000 ∧ j = 5 then 0x9007 else 0 }

def twins : Directories := fun a =>
  if a = 0x2000 then
    ⟨fun i => if i = 0 then 0x1000 else if i = 1 then 0x4000 else 0,
      fun i => if i = 0 then 0x1007 else if i = 1 then 0x4007 else 0⟩
  else ⟨fun _ => 0x1000, fun _ => 0x1007⟩

end Directories

end Ntibux
