/-
Ranges of pages: what `map_range` covers, and that `unmap_range` undoes
it.

The two loops take the same pages in the same order, however their start
is aligned (`turnPage`). `Spread` is the state between them: the pages of
the turns from `i` to `k` have the frames `f`, and everything else is as
it was. `map_range` moves `k` up and `unmap_range` moves `i` up, until
nothing is left between the two.

The last byte of a range can be behind the last of these pages, because
the start is rounded down and the length is not adjusted; and a range of
the whole address space has no end for a 32-bit offset.
-/
import Ntibux.Mem.Proofs.Points

namespace Ntibux

namespace Mem

variable {kalloc : Kalloc} {m m' m₁ : Mem} {p : PagePtr} {q : Page}
  {a v x i j k n vaddr range flags frame fuel cost : Nat} {f : Nat → Nat}
  {ps : Page → Prop}

-- ============================================================== the turns

/-- The page of an address starts at it or less than a page below. -/
theorem pageMask_le (v : Nat) (hv : v < 2 ^ 32) :
    v &&& 0xfffff000 ≤ v ∧ v < (v &&& 0xfffff000) + 4096 := by
  rw [and_pageMask]
  omega

/-- The loop takes a turn for each page that begins inside the range. -/
theorem lt_turns_iff : j < turns range ↔ PAGESIZE * j < range := by
  unfold turns PAGESIZE
  omega

/-- Both loops ask for the page of turn `j`. -/
theorem turn_page (v : Nat) :
    pageOf (u32 (v + PAGESIZE * j)) = turnPage v j := by
  unfold turnPage pageOf
  rw [directoryIndex_eq, directoryIndex_eq, tableIndex_eq, tableIndex_eq,
    and_pageMask]
  unfold u32 PAGESIZE
  rw [Prod.mk.injEq]
  omega

/-- No page comes twice. -/
theorem turnPage_inj (hi : PAGESIZE * i ≤ 0xfffff000)
    (hj : PAGESIZE * j ≤ 0xfffff000) (h : turnPage v i = turnPage v j) :
    i = j := by
  have hs := (samePage_iff (u32_lt _) (u32_lt _)).mp
    ((pageOf_eq_iff (u32_lt _) (u32_lt _)).mp h)
  rw [and_pageMask] at hs
  unfold u32 PAGESIZE at hs
  unfold PAGESIZE at hi hj
  omega

-- ================================================================ one turn

/-- A page maps with what `get_page` reaches and a frame. -/
theorem Reached.map (flags : Nat)
    (hp : m.getPage kalloc (v &&& 0xfffff000) = .ret (p, m₁))
    (hr : Reached m₁ (v &&& 0xfffff000) p m₁)
    (hn : m₁.frames.nframes ≤ 2 ^ 20) (h0 : 0 < m₁.frames.avail) :
    ∃ n m', m.map kalloc v flags = .ret (1, m') ∧
      n < 32 * Frames.index m₁.frames.nframes ∧ m₁.frames.Unused n ∧
      m'.frames = m₁.frames.marked n ∧
      EntryPut m₁ (pageOf v) (claim (n * 4096) flags) m' ∧
      (m₁.frames.marked n).avail + 1 = m₁.frames.avail := by
  obtain ⟨n, hlt, hu, halloc, havail⟩ := allocFrame_takes p flags hn h0
  have hmmu : SameTables ({ m₁ with frames := m₁.frames.marked n }.setPage p
      (claim (n * 4096) flags)) _ :=
    mmu_same (a := v &&& 0xfffff000) (p := p)
  obtain ⟨hframes, hput⟩ := hr.put hmmu
  rw [pageOf_mask] at hput
  refine ⟨n, _, ?_, hlt, hu, hframes, hput, havail⟩
  unfold Mem.map
  simp only [hp, Outcome.ret_bind, halloc]
  rfl

/-- What was reached once is reached again without another table. -/
theorem Reached.self (h : Reached m a p m₁) : Reached m₁ a p m₁ :=
  ⟨h.apart, rfl, fun _ _ => rfl, h.ptr, h.table⟩

-- ============================================================ what is taken

/-- The pages of the turns from `i` to `k` have the frames `f`, which
were free; the rest is as in `m`. -/
structure Spread (m : Mem) (vaddr flags : Nat) (f : Nat → Nat) (i k : Nat)
    (m' : Mem) : Prop where
  apart : m'.TablesApart
  nframes : m'.frames.nframes = m.frames.nframes
  tracked : ∀ j < k, f j < 32 * Frames.index m.frames.nframes
  free : ∀ j < k, m.frames.Unused (f j)
  frames_apart : ∀ j < k, ∀ j' < k, f j = f j' → j = j'
  held : ∀ j, i ≤ j → j < k →
    m'.entry (turnPage vaddr j) = claim (f j * 4096) flags
  other : ∀ q : Page, q.1 < 0x400 → q.2 < 0x400 →
    (∀ j, i ≤ j → j < k → q ≠ turnPage vaddr j) → m'.entry q = m.entry q
  unused : ∀ n, m'.frames.Unused n ↔
    m.frames.Unused n ∧ ∀ j, i ≤ j → j < k → n ≠ f j

/-- Before the first turn nothing has been handed out. -/
theorem Spread.nil (ha : m.TablesApart) : Spread m vaddr flags f 0 0 m := by
  refine ⟨ha, rfl, nofun, nofun, nofun, fun j _ hj => absurd hj (by omega),
    fun _ _ _ _ => rfl, fun n => ?_⟩
  exact ⟨fun h => ⟨h, fun j _ hj => absurd hj (by omega)⟩, fun h => h.1⟩

/-- One more page is mapped. -/
theorem Spread.take (hs : Spread m vaddr flags f 0 k m₁)
    (hlt : n < 32 * Frames.index m.frames.nframes)
    (hu : m₁.frames.Unused n) (hframes : m'.frames = m₁.frames.marked n)
    (hput : EntryPut m₁ (turnPage vaddr k) (claim (n * 4096) flags) m')
    (hpages : ∀ j < k, turnPage vaddr j ≠ turnPage vaddr k) :
    ∃ f, Spread m vaddr flags f 0 (k + 1) m' := by
  have hself : Function.update f k n k = n := Function.update_self ..
  have hold : ∀ j < k, Function.update f k n j = f j :=
    fun j hj => Function.update_of_ne (by omega) ..
  -- the frame is none of those taken so far
  have hnew := (hs.unused n).mp hu
  have hdir : ∀ j, (turnPage vaddr j).1 < 0x400 :=
    fun j => directoryIndex_lt _
  refine ⟨Function.update f k n, hput.apart, ?_, fun j hj => ?_,
    fun j hj => ?_, fun j hj j' hj' heq => ?_, fun j h0 hj => ?_,
    fun q hq hq' hne => ?_, fun g => ?_⟩
  · rw [hframes]
    exact hs.nframes
  · rcases Nat.lt_succ_iff_lt_or_eq.mp hj with hj | rfl
    · rw [hold j hj]
      exact hs.tracked j hj
    · rw [hself]
      exact hlt
  · rcases Nat.lt_succ_iff_lt_or_eq.mp hj with hj | rfl
    · rw [hold j hj]
      exact hs.free j hj
    · rw [hself]
      exact hnew.1
  · rcases Nat.lt_succ_iff_lt_or_eq.mp hj with hj | rfl
    · rcases Nat.lt_succ_iff_lt_or_eq.mp hj' with hj' | rfl
      · rw [hold j hj, hold j' hj'] at heq
        exact hs.frames_apart j hj j' hj' heq
      · rw [hold j hj, hself] at heq
        exact absurd heq.symm (hnew.2 j (Nat.zero_le j) hj)
    · rcases Nat.lt_succ_iff_lt_or_eq.mp hj' with hj' | rfl
      · rw [hself, hold j' hj'] at heq
        exact absurd heq (hnew.2 j' (Nat.zero_le j') hj')
      · rfl
  · rcases Nat.lt_succ_iff_lt_or_eq.mp hj with hj | rfl
    · rw [hput.entry _ (hdir j), if_neg (hpages j hj), hold j hj]
      exact hs.held j h0 hj
    · rw [hput.entry _ (hdir j), if_pos rfl, hself]
  · rw [hput.entry q hq, if_neg (hne k (Nat.zero_le k) (by omega))]
    exact hs.other q hq hq' fun j h0 hj => hne j h0 (by omega)
  · rw [hframes, Frames.unused_marked_iff, hs.unused]
    constructor
    · intro h
      refine ⟨h.1.1, fun j h0 hj => ?_⟩
      rcases Nat.lt_succ_iff_lt_or_eq.mp hj with hj | rfl
      · rw [hold j hj]
        exact h.1.2 j h0 hj
      · rw [hself]
        exact h.2
    · intro h
      refine ⟨⟨h.1, fun j h0 hj => ?_⟩, ?_⟩
      · rw [← hold j hj]
        exact h.2 j h0 (by omega)
      · rw [← hself]
        exact h.2 k (Nat.zero_le k) (by omega)

/-- The first of the pages is unmapped. It had no entry before. -/
theorem Spread.give (hs : Spread m vaddr flags f i k m₁) (hik : i < k)
    (hf : flags < 0x1000) (hn : m.frames.nframes ≤ 2 ^ 20)
    (h0 : m.entry (turnPage vaddr i) = 0) (hv : pageOf v = turnPage vaddr i)
    (hu : Unmapped m₁ v m') (ha : m'.TablesApart)
    (hpages : ∀ j, i < j → j < k → turnPage vaddr j ≠ turnPage vaddr i) :
    Spread m vaddr flags f (i + 1) k m' := by
  have hfn : f i < 2 ^ 20 := by
    have hlt := hs.tracked i hik
    unfold Frames.index at hlt
    omega
  have hframe : frameOf (m₁.entry (pageOf v)) = f i := by
    rw [hv, hs.held i (Nat.le_refl i) hik]
    exact frameOf_claim hfn hf
  refine ⟨ha, ?_, hs.tracked, hs.free, hs.frames_apart, fun j hij hj => ?_,
    fun q hq hq' hne => ?_, fun g => ?_⟩
  · rw [hu.frames]
    exact hs.nframes
  · rw [hu.entry _ (directoryIndex_lt _) (tableIndex_lt _), hv,
      if_neg (hpages j hij hj)]
    exact hs.held j (by omega) hj
  · rw [hu.entry q hq hq', hv]
    by_cases hqi : q = turnPage vaddr i
    · rw [if_pos hqi, hqi, h0]
    · rw [if_neg hqi]
      refine hs.other q hq hq' fun j hij hj => ?_
      rcases Nat.eq_or_lt_of_le hij with rfl | hij
      · exact hqi
      · exact hne j hij hj
  · rw [hu.frames, Frames.unused_cleared_iff, hframe, hs.unused]
    constructor
    · intro h
      rcases h with h | rfl
      · exact ⟨h.1, fun j hij hj => h.2 j (by omega) hj⟩
      · refine ⟨hs.free i hik, fun j hij hj heq => ?_⟩
        have := hs.frames_apart i hik j hj heq
        omega
    · intro h
      by_cases hg : g = f i
      · exact .inr hg
      · refine .inl ⟨h.1, fun j hij hj => ?_⟩
        rcases Nat.eq_or_lt_of_le hij with rfl | hij
        · exact hg
        · exact h.2 j hij hj

-- ============================================================== the loops

/-- `map_range` has taken `j` turns. -/
structure Taking (kalloc : Kalloc) (m : Mem) (vaddr range flags j : Nat)
    (m' : Mem) : Prop where
  comes : (RangeCall.map vaddr range flags).Comes kalloc m (PAGESIZE * j) m'
  spread : ∃ f, Spread m vaddr flags f 0 j m'
  avail : m'.frames.avail + j = m.frames.avail

/-- A turn of `map_range` over an unmapped page takes one of the frames that
are left. -/
theorem Taking.turn (h : Taking kalloc m vaddr range flags j m₁)
    (hlt : PAGESIZE * j < range) (hn : m.frames.nframes ≤ 2 ^ 20)
    (hr : range ≤ 0xfffff000)
    (hs : (PageEvent.range (.map vaddr range flags)).Each kalloc
      (TableComes kalloc) m)
    (hfree : turns range ≤ m.frames.avail) :
    ∃ m', m₁.map kalloc (u32 ((vaddr &&& 0xfffff000) + PAGESIZE * j)) flags
        = .ret (1, m') ∧
      Taking kalloc m vaddr range flags (j + 1) m' := by
  obtain ⟨f, hf⟩ := h.spread
  have hj : j < turns range := lt_turns_iff.mpr hlt
  have havail := h.avail
  obtain ⟨p, m₂, hp, hreach⟩ := (hs _ m₁ h.comes hlt).reached hf.apart
  dsimp only [RangeCall.turn, PageCall.vaddr] at hp hreach
  have hn₂ : m₂.frames.nframes ≤ 2 ^ 20 := by
    rw [hreach.frames, hf.nframes]
    exact hn
  have h0 : 0 < m₂.frames.avail := by
    rw [hreach.frames]
    omega
  obtain ⟨n, m', hmap, hlt', hu, hframes, hput, hav⟩ :=
    hreach.self.map flags hp hn₂ h0
  rw [hreach.frames] at hlt' hu hframes hav
  rw [hf.nframes] at hlt'
  have hpages : ∀ i < j, turnPage vaddr i ≠ turnPage vaddr j := by
    intro i hi heq
    have heq := turnPage_inj (by unfold PAGESIZE at hlt ⊢; omega)
      (by omega) heq
    omega
  refine ⟨m', hmap, ?_, ?_, ?_⟩
  · rw [Nat.mul_succ]
    exact h.comes.next hlt ⟨1, hmap⟩
  · exact hf.take hlt' hu hframes (hput.reached hreach) hpages
  · rw [hframes]
    omega

/-- The loop of `map_range`, given the memory for tables that it asks
for and enough frames. -/
theorem mapRange_spread (ha : m.TablesApart)
    (hn : m.frames.nframes ≤ 2 ^ 20) (hr : range ≤ 0xfffff000)
    (hs : (PageEvent.range (.map vaddr range flags)).Each kalloc
      (TableComes kalloc) m)
    (hfree : turns range ≤ m.frames.avail) :
    ∃ m₁ f, Outcome.Gives
        (fun fuel => m.mapRange kalloc fuel vaddr range flags) (1, m₁) ∧
      Spread m vaddr flags f 0 (turns range) m₁ := by
  have hturn : ∀ j m₁, PAGESIZE * j < range →
      Taking kalloc m vaddr range flags j m₁ → ∃ m',
        Outcome.Gives (fun _ => orPanic (m₁.map kalloc
          (u32 ((vaddr &&& 0xfffff000) + PAGESIZE * j)) flags)) m' ∧
        Taking kalloc m vaddr range flags (j + 1) m' := by
    intro j m₁ hlt h
    obtain ⟨m', hmap, h'⟩ := h.turn hlt hn hr hs hfree
    refine ⟨m', .of_eq fun _ => ?_, h'⟩
    rw [hmap]
    rfl
  obtain ⟨m', hg, h⟩ := pageLoop_gives
    (fun _ i m =>
      orPanic (m.map kalloc (u32 ((vaddr &&& 0xfffff000) + i)) flags))
    (Taking kalloc m vaddr range flags) hr hturn (turns range) 0 m
    (Nat.zero_add _) ⟨.start, ⟨fun _ => 0, .nil ha⟩, rfl⟩
  obtain ⟨f, hf⟩ := h.spread
  refine ⟨m', f, ?_, hf⟩
  simp only [mapRange, mapRangeLoop_eq]
  exact hg.bind (.of_eq fun _ => rfl)

/-- `unmap_range` has taken `j` turns over what `map_range` mapped. -/
structure Giving (kalloc : Kalloc) (m m₁ : Mem) (vaddr range flags : Nat)
    (f : Nat → Nat) (j : Nat) (m' : Mem) : Prop where
  comes : (RangeCall.unmap vaddr range).Comes kalloc m₁ (PAGESIZE * j) m'
  spread : Spread m vaddr flags f j (turns range) m'

/-- A turn of `unmap_range` finds the entry that the same turn of
`map_range` made, and gives its frame back. -/
theorem Giving.turn {m₂ : Mem}
    (h : Giving kalloc m m₁ vaddr range flags f j m₂)
    (hlt : PAGESIZE * j < range) (hn : m.frames.nframes ≤ 2 ^ 20)
    (hf : flags < 0x1000) (hr : range ≤ 0xfffff000)
    (hnew : ∀ j < turns range, m.entry (turnPage vaddr j) = 0)
    (hb : (PageEvent.range (.unmap vaddr range)).Each kalloc TakesBack m₁) :
    ∃ m', Outcome.Gives
        (fun fuel => m₂.unmap kalloc fuel (u32 (vaddr + PAGESIZE * j)))
        (1, m') ∧
      Giving kalloc m m₁ vaddr range flags f (j + 1) m' := by
  have hj : j < turns range := lt_turns_iff.mpr hlt
  have hv := turn_page (j := j) vaddr
  have hentry := h.spread.held j (Nat.le_refl j) hj
  have hfj := h.spread.tracked j hj
  have hlt20 : f j < 2 ^ 20 := by
    unfold Frames.index at hfj
    omega
  have hpresent : m₂.Present (pageOf (u32 (vaddr + PAGESIZE * j))) := by
    refine ⟨directoryIndex_lt _, tableIndex_lt _, ?_⟩
    rw [hv, hentry]
    exact claim_ne_zero _ _
  have htracked : Frames.index (frameOf
        (m₂.entry (pageOf (u32 (vaddr + PAGESIZE * j)))))
      < Frames.index m₂.frames.nframes := by
    rw [hv, hentry, frameOf_claim hlt20 hf, h.spread.nframes]
    exact Frames.index_lt_iff.mpr hfj
  obtain ⟨m', hg⟩ := unmap_gives kalloc hpresent htracked
    (hb _ m₂ h.comes hlt)
  obtain ⟨fuel, hret⟩ := hg.ret
  have hu := unmap_unmapped h.spread.apart hret
  refine ⟨m', hg, ?_, ?_⟩
  · rw [Nat.mul_succ]
    exact h.comes.next hlt ⟨fuel, 1, hret⟩
  · refine h.spread.give hj hf hn (hnew j hj) hv hu
      (hu.apart h.spread.apart) ?_
    intro i hi hik heq
    have hilt := lt_turns_iff.mp hik
    have heq := turnPage_inj (by omega) (by omega) heq
    omega

/-- The loop of `unmap_range` over what `map_range` mapped. -/
theorem unmapRange_spread (hs : Spread m vaddr flags f 0 (turns range) m₁)
    (hn : m.frames.nframes ≤ 2 ^ 20) (hf : flags < 0x1000)
    (hr : range ≤ 0xfffff000)
    (hnew : ∀ j < turns range, m.entry (turnPage vaddr j) = 0)
    (hb : (PageEvent.range (.unmap vaddr range)).Each kalloc TakesBack m₁) :
    ∃ m', Outcome.Gives
        (fun fuel => m₁.unmapRange kalloc fuel vaddr range) (1, m') ∧
      Spread m vaddr flags f (turns range) (turns range) m' := by
  have hturn : ∀ j m₂, PAGESIZE * j < range →
      Giving kalloc m m₁ vaddr range flags f j m₂ → ∃ m',
        Outcome.Gives (fun fuel =>
          m₂.unmap kalloc fuel (u32 (vaddr + PAGESIZE * j)) >>=
            fun r => .ret r.2) m' ∧
        Giving kalloc m m₁ vaddr range flags f (j + 1) m' := by
    intro j m₂ hlt h
    obtain ⟨m', hg, h'⟩ := h.turn hlt hn hf hr hnew hb
    exact ⟨m', hg.bind (.of_eq fun _ => rfl), h'⟩
  obtain ⟨m', hg, h⟩ := pageLoop_gives
    (fun fuel i m => m.unmap kalloc fuel (u32 (vaddr + i)) >>=
      fun r => .ret r.2)
    (Giving kalloc m m₁ vaddr range flags f) hr hturn (turns range) 0 m₁
    (Nat.zero_add _) ⟨.start, hs⟩
  refine ⟨m', ?_, h.spread⟩
  simp only [unmapRange, unmapRangeLoop_eq]
  exact hg.bind (.of_eq fun _ => rfl)

-- ============================================================= coverage

/-- A table that comes without a change to the bitmap comes at no cost in
frames. -/
theorem TableComes.atCost {c : PageCall} (h : TableComes kalloc m c) :
    TableAtCost kalloc ps 0 m c := by
  intro h0
  obtain ⟨pt, m₁, halloc, hf⟩ := h h0
  exact ⟨pt, m₁, halloc, hf.ne_zero, hf.fresh, hf.currentPd,
    by rw [hf.frames], by rw [hf.frames]; exact Nat.le_add_right _ _,
    fun q _ => hf.same.entry q⟩

/-- `get_page` with a heap that may have to grow. -/
theorem TableAtCost.found {c : PageCall} (h : TableAtCost kalloc ps cost m c)
    (ha : m.TablesApart) : ∃ p m₁,
      m.getPage kalloc (c.vaddr &&& 0xfffff000) = .ret (p, m₁) ∧
      Reached m₁ (c.vaddr &&& 0xfffff000) p m₁ ∧
      m₁.frames.nframes = m.frames.nframes ∧
      m.frames.avail ≤ m₁.frames.avail + cost ∧
      ∀ q : Page, ps q → q.1 < 0x400 → m₁.entry q = m.entry q := by
  unfold TableAtCost at h
  rw [← directoryIndex_mask] at h
  obtain ⟨p, m₁, hp⟩ := getPage_ret fun h0 => by
    obtain ⟨pt, m₁, halloc, -⟩ := h h0
    exact ⟨pt, m₁, halloc⟩
  refine ⟨p, m₁, hp, ?_⟩
  rcases getPage_cases hp with ⟨hne, rfl, rfl⟩
    | ⟨h0, pt, m₂, paddr, halloc, rfl, rfl, -⟩
  · exact ⟨⟨ha, rfl, fun _ _ => rfl, rfl, hne⟩, rfl, Nat.le_add_right _ _,
      fun _ _ _ => rfl⟩
  · obtain ⟨pt', m', halloc', hb⟩ := h h0
    rw [halloc] at halloc'
    obtain ⟨rfl, rfl⟩ := Prod.mk.inj (Outcome.ret.inj halloc')
    have ha₂ : m₂.TablesApart := by
      unfold TablesApart
      rw [hb.currentPd]
      exact ha
    have hr : Reached m₂ _ _ _ := newTable_reached paddr ha₂
      (by rw [hb.currentPd]; exact h0) hb.ne_zero
      (by rw [hb.currentPd]; exact hb.fresh)
    exact ⟨hr.self, hb.nframes, hb.avail,
      fun q hq hdir => (hr.entry q hdir).trans (hb.entry q hq)⟩

/-- The page of a byte behind the start, and the turn it has. -/
theorem pageOf_eq_turnPage (hx : (v &&& 0xfffff000) + PAGESIZE * j ≤ x)
    (hx' : x < (v &&& 0xfffff000) + PAGESIZE * (j + 1)) (hlt : x < 2 ^ 32) :
    pageOf x = turnPage v j := by
  unfold turnPage
  rw [pageOf_eq_iff hlt (u32_lt _), samePage_iff hlt (u32_lt _),
    u32_of_lt (by omega)]
  rw [and_pageMask] at hx hx' ⊢
  unfold PAGESIZE at hx hx' ⊢
  omega

/-- The page of a turn has an address of the range in it. -/
theorem touches_turnPage (hv : v < 2 ^ 32) (hend : v + range ≤ 2 ^ 32)
    (hj : PAGESIZE * j < range) : Touches v range (turnPage v j) := by
  have hle := (pageMask_le v hv).1
  refine ⟨(v &&& 0xfffff000) + PAGESIZE * j, Nat.le_add_right _ _,
    by omega, ?_⟩
  refine pageOf_eq_turnPage (Nat.le_refl _) ?_ (by omega)
  unfold PAGESIZE
  omega

/-- `map_range` has taken `j` turns, as far as the pages of the range
go. -/
structure Covering (kalloc : Kalloc) (m : Mem)
    (vaddr range flags cost j : Nat) (m' : Mem) : Prop where
  comes : (RangeCall.map vaddr range flags).Comes kalloc m (PAGESIZE * j) m'
  apart : m'.TablesApart
  nframes : m'.frames.nframes = m.frames.nframes
  avail : m.frames.avail ≤ m'.frames.avail + j * (cost + 1)
  mapped : ∀ i < j, m'.entry (turnPage vaddr i) &&& 0xfff
    = (PAGE_PRESENT ||| flags) &&& 0xfff
  other : ∀ q, Touches vaddr range q → (∀ i < j, q ≠ turnPage vaddr i) →
    m'.entry q = m.entry q

/-- A turn of `map_range` leaves its page mapped, whether it was so before
or not, for a frame of its own and those that its table cost. -/
theorem Covering.turn (h : Covering kalloc m vaddr range flags cost j m₁)
    (hlt : PAGESIZE * j < range) (hv : vaddr < 2 ^ 32)
    (hend : vaddr + range ≤ 2 ^ 32) (hn : m.frames.nframes ≤ 2 ^ 20)
    (hs : (PageEvent.range (.map vaddr range flags)).Each kalloc
      (TableAtCost kalloc (Touches vaddr range) cost) m)
    (hfree : turns range * (cost + 1) ≤ m.frames.avail) :
    ∃ m', m₁.map kalloc (u32 ((vaddr &&& 0xfffff000) + PAGESIZE * j)) flags
        = .ret (1, m') ∧
      Covering kalloc m vaddr range flags cost (j + 1) m' := by
  have hj : j < turns range := lt_turns_iff.mpr hlt
  obtain ⟨p, m₂, hp, hreach, hnf, hcost, hsame⟩ :=
    (hs _ m₁ h.comes hlt).found h.apart
  dsimp only [RangeCall.turn, PageCall.vaddr] at hp hreach
  have havail := h.avail
  have hbudget : (j + 1) * (cost + 1) ≤ turns range * (cost + 1) :=
    Nat.mul_le_mul_right _ hj
  rw [Nat.succ_mul] at hbudget
  have hn₂ : m₂.frames.nframes ≤ 2 ^ 20 := by
    rw [hnf, h.nframes]
    exact hn
  obtain ⟨n, m', hmap, -, -, hframes, hput, hav⟩ :=
    hreach.map flags hp hn₂ (by omega)
  have hput : EntryPut m₂ (turnPage vaddr j) (claim (n * 4096) flags) m' :=
    hput
  have hdir : ∀ q, Touches vaddr range q → q.1 < 0x400 := by
    intro q hq
    obtain ⟨x, -, -, rfl⟩ := hq
    exact directoryIndex_lt x
  refine ⟨m', hmap, ?_, hput.apart, ?_, ?_, fun i hi => ?_,
    fun q hq hne => ?_⟩
  · rw [Nat.mul_succ]
    exact h.comes.next hlt ⟨1, hmap⟩
  · rw [hframes, Frames.nframes_marked, hnf]
    exact h.nframes
  · rw [hframes, Nat.succ_mul]
    omega
  · have hti : Touches vaddr range (turnPage vaddr i) := by
      refine touches_turnPage hv hend (Nat.lt_of_le_of_lt ?_ hlt)
      exact Nat.mul_le_mul_left _ (by omega)
    rw [hput.entry _ (hdir _ hti)]
    -- an earlier page is this one, or was left alone
    by_cases hij : turnPage vaddr i = turnPage vaddr j
    · rw [if_pos hij]
      exact claim_flags _ _
    · have hne : i ≠ j := fun heq => hij (by rw [heq])
      rw [if_neg hij, hsame _ hti (hdir _ hti)]
      exact h.mapped i (by omega)
  · rw [hput.entry _ (hdir q hq), if_neg (hne j (by omega)),
      hsame q hq (hdir q hq)]
    exact h.other q hq fun i hi => hne i (by omega)

/-- With enough frames for all its turns, `map_range` comes to its end. -/
theorem mapRange_covering (ha : m.TablesApart) (hv : vaddr < 2 ^ 32)
    (hend : vaddr + range ≤ 2 ^ 32) (hn : m.frames.nframes ≤ 2 ^ 20)
    (hr : range ≤ 0xfffff000)
    (hs : (PageEvent.range (.map vaddr range flags)).Each kalloc
      (TableAtCost kalloc (Touches vaddr range) cost) m)
    (hfree : turns range * (cost + 1) ≤ m.frames.avail) :
    ∃ m', Outcome.Gives
        (fun fuel => m.mapRange kalloc fuel vaddr range flags) (1, m') ∧
      Covering kalloc m vaddr range flags cost (turns range) m' := by
  have hturn : ∀ j m₁, PAGESIZE * j < range →
      Covering kalloc m vaddr range flags cost j m₁ → ∃ m',
        Outcome.Gives (fun _ => orPanic (m₁.map kalloc
          (u32 ((vaddr &&& 0xfffff000) + PAGESIZE * j)) flags)) m' ∧
        Covering kalloc m vaddr range flags cost (j + 1) m' := by
    intro j m₁ hlt h
    obtain ⟨m', hmap, h'⟩ := h.turn hlt hv hend hn hs hfree
    refine ⟨m', .of_eq fun _ => ?_, h'⟩
    rw [hmap]
    rfl
  obtain ⟨m', hg, h⟩ := pageLoop_gives
    (fun _ i m =>
      orPanic (m.map kalloc (u32 ((vaddr &&& 0xfffff000) + i)) flags))
    (Covering kalloc m vaddr range flags cost) hr hturn (turns range) 0 m
    (Nat.zero_add _)
    ⟨.start, ha, rfl, by omega, nofun, fun _ _ _ => rfl⟩
  refine ⟨m', ?_, h⟩
  simp only [mapRange, mapRangeLoop_eq]
  exact hg.bind (.of_eq fun _ => rfl)

/-- A byte of the range is behind the pages of the turns, or in one. -/
theorem Covering.mappedAs_iff
    (h : Covering kalloc m vaddr range flags cost (turns range) m')
    (hv : vaddr < 2 ^ 32) (hend : vaddr + range ≤ 2 ^ 32)
    (hx : vaddr ≤ x) (hx' : x < vaddr + range) :
    m'.MappedAs flags x ↔
      ((vaddr &&& 0xfffff000) + PAGESIZE * turns range ≤ x →
        m.MappedAs flags x) := by
  have hle := (pageMask_le vaddr hv).1
  have hlt : x < 2 ^ 32 := by omega
  obtain ⟨j, hj⟩ : ∃ j, j = (x - (vaddr &&& 0xfffff000)) / PAGESIZE :=
    ⟨_, rfl⟩
  have hbounds : (vaddr &&& 0xfffff000) + PAGESIZE * j ≤ x
      ∧ x < (vaddr &&& 0xfffff000) + PAGESIZE * (j + 1) := by
    unfold PAGESIZE at hj ⊢
    omega
  have hpage := pageOf_eq_turnPage hbounds.1 hbounds.2 hlt
  unfold MappedAs
  -- the page of `x` is the `j`-th from the start: a turn maps it or none
  by_cases hin : j < turns range
  · refine iff_of_true ?_ fun hbehind => ?_
    · rw [hpage]
      exact h.mapped j hin
    · have hstep : PAGESIZE * (j + 1) ≤ PAGESIZE * turns range :=
        Nat.mul_le_mul_left _ hin
      omega
  · have hbehind : (vaddr &&& 0xfffff000) + PAGESIZE * turns range ≤ x := by
      have hstep : PAGESIZE * turns range ≤ PAGESIZE * j :=
        Nat.mul_le_mul_left _ (by omega)
      omega
    have hother : m'.entry (pageOf x) = m.entry (pageOf x) := by
      refine h.other _ ⟨x, by omega, hx', rfl⟩ fun i hi heq => ?_
      have hlti := lt_turns_iff.mp hi
      have hbase : (vaddr &&& 0xfffff000) + PAGESIZE * i < 2 ^ 32 := by omega
      unfold turnPage at heq
      have hs := (samePage_iff hlt (u32_lt _)).mp
        ((pageOf_eq_iff hlt (u32_lt _)).mp heq)
      rw [u32_of_lt hbase, and_pageMask] at hs
      rw [and_pageMask] at hbehind
      unfold PAGESIZE at hs hbehind
      omega
    rw [hother]
    exact ⟨fun h _ => h, fun h => h hbehind⟩

-- ============================================================= the results

/-- A range that the frames suffice for is one that the 32-bit offset gets
past: a whole address space would need frame 0 as well. -/
theorem range_le_of_avail (hn : m.frames.nframes ≤ 2 ^ 20)
    (hfree : turns range ≤ m.frames.avail) : range ≤ 0xfffff000 := by
  have hlt := Frames.avail_lt hn
  unfold turns PAGESIZE at hfree
  omega

/-- What `map_range` covers. It returns, and every byte of the range is
mapped with the flags, exactly if the bytes behind the last page it maps,
if there are any, had these flags already. -/
theorem mapRange_covers_iff (kalloc : Kalloc) (m : Mem)
    (vaddr range flags cost : Nat) (hv : vaddr < 2 ^ 32)
    (hend : vaddr + range ≤ 2 ^ 32) (ha : m.TablesApart)
    (hn : m.frames.nframes ≤ 2 ^ 20)
    (hs : (PageEvent.range (.map vaddr range flags)).Each kalloc
      (TableAtCost kalloc (Touches vaddr range) cost) m)
    (hfree : turns range * (cost + 1) ≤ m.frames.avail) :
    (∃ m', Outcome.Gives
        (fun fuel => m.mapRange kalloc fuel vaddr range flags) (1, m') ∧
      ∀ x, vaddr ≤ x → x < vaddr + range → m'.MappedAs flags x)
    ↔ ∀ x, vaddr ≤ x → x < vaddr + range →
      (vaddr &&& 0xfffff000) + PAGESIZE * turns range ≤ x →
        m.MappedAs flags x := by
  have hr : range ≤ 0xfffff000 := range_le_of_avail hn
    (Nat.le_trans (Nat.le_mul_of_pos_right _ (Nat.succ_pos cost)) hfree)
  -- the one run there is, so both directions are about its end
  obtain ⟨m₁, hg₁, hc⟩ := mapRange_covering ha hv hend hn hr hs hfree
  constructor
  · intro h
    obtain ⟨m', hg, hcover⟩ := h
    obtain rfl : m' = m₁ := congrArg Prod.snd (hg.unique hg₁)
    exact fun x hx hx' =>
      (hc.mappedAs_iff hv hend hx hx').mp (hcover x hx hx')
  · intro h
    exact ⟨m₁, hg₁, fun x hx hx' =>
      (hc.mappedAs_iff hv hend hx hx').mpr (h x hx hx')⟩

/-- The turns of a loop one after another, from offset `n` on: `P` is asked
in the state before each, and `fin` in the state at the end. -/
def turnByTurn (kalloc : Kalloc) (r : RangeCall)
    (P : Mem → PageCall → Bool) (fin : Mem → Bool) (k n : Nat) (m : Mem) :
    Bool :=
  if r.range ≤ n then fin m
  else match k with
  | 0 => false
  | k + 1 => P m (r.turn n) && ((r.turn n).next kalloc 20 m).holds fun m' =>
      turnByTurn kalloc r P fin k (n + PAGESIZE) m'

/-- Wherever the loop comes from there on, `P` or `fin` has been asked. -/
theorem of_turnByTurn {r : RangeCall} {P : Mem → PageCall → Bool}
    {fin : Mem → Bool} (h : turnByTurn kalloc r P fin k n m₁ = true)
    (hc : r.Comes kalloc m n m₁) (hle : n ≤ i)
    (hc' : r.Comes kalloc m i m') :
    if r.range ≤ i then fin m' = true else P m' (r.turn i) = true := by
  induction k generalizing n m₁ with
  | zero =>
      unfold turnByTurn at h
      split at h
      case isTrue hge =>
        obtain rfl := hc'.eq_of_range_le hc hge hle
        obtain rfl := hc.unique hc'
        rwa [if_pos hge]
      case isFalse => cases h
  | succ k ih =>
      unfold turnByTurn at h
      split at h
      case isTrue hge =>
        obtain rfl := hc'.eq_of_range_le hc hge hle
        obtain rfl := hc.unique hc'
        rwa [if_pos hge]
      case isFalse hlt =>
        obtain ⟨hP, hrest⟩ := Bool.and_eq_true_iff.mp h
        obtain ⟨m₂, hnext, hrest⟩ := Outcome.holds_iff.mp hrest
        rcases Nat.eq_or_lt_of_le hle with rfl | hlt'
        · obtain rfl := hc.unique hc'
          rwa [if_neg hlt]
        · -- offsets are a page apart, so the next one is not past `i`
          have hstep : n + PAGESIZE ≤ i := by
            have hd := hc.dvd
            have hd' := hc'.dvd
            unfold PAGESIZE
            omega
          exact ih hrest (hc.next (Nat.lt_of_not_le hlt) (next_does hnext))
            hstep

/-- The table of the page goes back to the heap, whether it is left empty
or not. -/
def goesBack (m : Mem) (c : PageCall) : Bool :=
  let d := directoryIndex c.vaddr
  (m.freeFrame (m.currentPd.tables d, tableIndex c.vaddr)).holds fun m₁ =>
    (m₁.kheapFree 20 (m.currentPd.tables d) sizeofPageTable).holds
      fun _ => true

/-- The test on a state gives that the heap takes the table back there. -/
theorem of_goesBack {c : PageCall} (h : m.goesBack c = true) :
    TakesBack m c := by
  intro m₁ hfree _
  unfold goesBack at h
  dsimp only at h
  rw [hfree, Outcome.holds_ret] at h
  obtain ⟨m₂, hfree', -⟩ := Outcome.holds_iff.mp h
  exact ⟨20, m₂, hfree'⟩

/-- A machine of 64 frames, with frame 0 marked and nothing mapped. Page
tables go to 0x200000 and up, and its heap knows blocks of one page and of
two. -/
def bare : Mem :=
  { barred with
    frames := { frames := 0, words := fun i => if i = 0 then 1 else 0
                nframes := 64 }
    kheap := { barred.kheap with minOrder := 12, maxOrder := 13, orders := 2 } }

/-- A directory without tables has none in two places. -/
theorem bare_apart : bare.TablesApart :=
  fun _ _ _ _ hne => absurd rfl hne

/-- The machine of the examples has a word of the bitmap free. -/
theorem bare_avail : 32 * 1 ≤ bare.frames.avail :=
  Frames.le_avail (i := 1) (by decide) (by decide) (by decide)

/-- Memory for the tables comes to every range of three pages or less that
was walked through. -/
theorem bare_comes {fin : Mem → Bool}
    (h : turnByTurn (kheapAlloc 0) (.map vaddr range flags) comesHere fin 3 0
      bare = true) :
    (PageEvent.range (.map vaddr range flags)).Each (kheapAlloc 0)
      (TableComes (kheapAlloc 0)) bare := by
  intro n m₁ hc hlt
  have hseen := of_turnByTurn h .start (Nat.zero_le n) hc
  rw [if_neg (Nat.not_le.mpr hlt)] at hseen
  exact of_comesHere hseen

/-- The test on each turn gives what the theorem asks of the heap, at no
cost in frames. -/
theorem bare_cost {fin : Mem → Bool}
    (h : turnByTurn (kheapAlloc 0) (.map vaddr range flags) comesHere fin 3 0
      bare = true) :
    (PageEvent.range (.map vaddr range flags)).Each (kheapAlloc 0)
      (TableAtCost (kheapAlloc 0) ps 0) bare :=
  fun n m₁ hc hlt => (bare_comes h n m₁ hc hlt).atCost

/-- Three pages in two tables, the first byte asked for in the middle of
the first page. The rounding takes nothing away here, because the last byte
is in the third page all the same. -/
theorem mapRange_covers_iff_bare : ∃ m',
    Outcome.Gives (fun fuel =>
      bare.mapRange (kheapAlloc 0) fuel 0x3fe800 0x2800 3) (1, m') ∧
    m'.MappedAs 3 0x3fe800 ∧ m'.MappedAs 3 0x3fffff ∧
    m'.MappedAs 3 0x400fff := by
  have hturns : turnByTurn (kheapAlloc 0) (.map 0x3fe800 0x2800 3) comesHere
      (fun _ => true) 3 0 bare = true := by decide +kernel
  obtain ⟨m', hg, hcover⟩ := (mapRange_covers_iff (kheapAlloc 0) bare
    0x3fe800 0x2800 3 0 (by decide) (by decide) bare_apart (by decide)
    (bare_cost hturns) (Nat.le_trans (by decide) bare_avail)).mpr
    fun x _ hx' hbehind => by
      change 0x401000 ≤ x at hbehind
      omega
  exact ⟨m', hg, hcover _ (by decide) (by decide),
    hcover _ (by decide) (by decide), hcover _ (by decide) (by decide)⟩

/-- Two bytes are asked for, on two sides of a page boundary; there are
frames and memory for tables, and the second byte is not mapped. -/
theorem bare_misses : ∃ kalloc m vaddr range flags,
    vaddr + range ≤ 2 ^ 32 ∧ m.TablesApart ∧
    (PageEvent.range (.map vaddr range flags)).Each kalloc
      (TableComes kalloc) m ∧
    32 ≤ m.frames.avail ∧
    ¬∃ m', Outcome.Gives
        (fun fuel => m.mapRange kalloc fuel vaddr range flags) (1, m') ∧
      ∀ x, vaddr ≤ x → x < vaddr + range → m'.MappedAs flags x := by
  have hturns : turnByTurn (kheapAlloc 0) (.map 0xfff 2 3) comesHere
      (fun _ => true) 3 0 bare = true := by decide +kernel
  refine ⟨kheapAlloc 0, bare, 0xfff, 2, 3, by decide, bare_apart,
    bare_comes hturns, bare_avail, fun h => ?_⟩
  obtain ⟨m', hg, hcover⟩ := h
  obtain ⟨m₁, hg₁, hc⟩ : ∃ m₁, Outcome.Gives
        (fun fuel => bare.mapRange (kheapAlloc 0) fuel 0xfff 2 3) (1, m₁) ∧
      Covering (kheapAlloc 0) bare 0xfff 2 3 0 (turns 2) m₁ :=
    mapRange_covering bare_apart (by decide) (by decide) (by decide)
      (by decide) (bare_cost hturns)
      (Nat.le_trans (by decide) bare_avail)
  obtain rfl : m' = m₁ := congrArg Prod.snd (hg.unique hg₁)
  have hbyte := (hc.mappedAs_iff (by decide) (by decide) (by decide)
    (by decide)).mp (hcover 0x1000 (by decide) (by decide)) (by decide)
  exact absurd hbyte (by decide)

/-- `unmap_range` undoes `map_range`: on any directory that shares no
table and any bitmap, for any start, range and flags, where none of the
pages was mapped before and the frames suffice, and where the heap supplies
the tables and takes back those that are left empty. -/
theorem mapRange_unmapRange (kalloc : Kalloc) (m : Mem)
    (vaddr range flags : Nat) (ha : m.TablesApart)
    (hn : m.frames.nframes ≤ 2 ^ 20) (hf : flags < 0x1000)
    (hnew : ∀ j < turns range, m.entry (turnPage vaddr j) = 0)
    (hfree : turns range ≤ m.frames.avail)
    (hs : (PageEvent.range (.map vaddr range flags)).Each kalloc
      (TableComes kalloc) m)
    (hb : ∀ m₁, (RangeCall.map vaddr range flags).Does kalloc m m₁ →
      (PageEvent.range (.unmap vaddr range)).Each kalloc TakesBack m₁) :
    ∃ m₁ m',
      Outcome.Gives (fun fuel => m.mapRange kalloc fuel vaddr range flags)
        (1, m₁) ∧
      Outcome.Gives (fun fuel => m₁.unmapRange kalloc fuel vaddr range)
        (1, m') ∧
      m'.frames.nframes = m.frames.nframes ∧
      (∀ n, m'.frames.Unused n ↔ m.frames.Unused n) ∧
      ∀ w, m'.entry (pageOf w) = m.entry (pageOf w) ∧
        (m.entry (pageOf w) ≠ 0 → m'.getPaddr w = m.getPaddr w) := by
  have hr := range_le_of_avail hn hfree
  obtain ⟨m₁, f, hmap, hsp⟩ := mapRange_spread ha hn hr hs hfree
  obtain ⟨fuel, hret⟩ := hmap.ret
  obtain ⟨m', hunmap, hsp'⟩ := unmapRange_spread hsp hn hf hr hnew
    (hb m₁ ⟨fuel, 1, hret⟩)
  have hentry : ∀ w, m'.entry (pageOf w) = m.entry (pageOf w) := by
    intro w
    refine hsp'.other _ (directoryIndex_lt w) (tableIndex_lt w) ?_
    intro j h1 h2
    omega
  refine ⟨m₁, m', hmap, hunmap, hsp'.nframes, fun n => ?_, fun w =>
    ⟨hentry w, fun hne => ?_⟩⟩
  · rw [hsp'.unused]
    exact ⟨fun h => h.1, fun h => ⟨h, fun j h1 h2 => by omega⟩⟩
  · have hne' : m'.entry (pageOf w) ≠ 0 := (hentry w).symm ▸ hne
    rw [getPaddr_eq (table_of_entry hne'), getPaddr_eq (table_of_entry hne),
      hentry]

/-- Three pages are mapped behind two new tables, and all of it goes again:
the first table with its second page, the other with its only one. -/
theorem mapRange_unmapRange_bare : ∃ m₁ m',
    Outcome.Gives (fun fuel =>
      bare.mapRange (kheapAlloc 0) fuel 0x3fe800 0x2800 3) (1, m₁) ∧
    Outcome.Gives (fun fuel =>
      m₁.unmapRange (kheapAlloc 0) fuel 0x3fe800 0x2800) (1, m') ∧
    (∀ n, m'.frames.Unused n ↔ bare.frames.Unused n) ∧
    m'.entry (pageOf 0x3fe000) = 0 ∧ m'.entry (pageOf 0x400abc) = 0 := by
  have hturns : turnByTurn (kheapAlloc 0) (.map 0x3fe800 0x2800 3) comesHere
      (turnByTurn (kheapAlloc 0) (.unmap 0x3fe800 0x2800) goesBack
        (fun _ => true) 3 0) 3 0 bare = true := by decide +kernel
  have hback : ∀ m₁,
      (RangeCall.map 0x3fe800 0x2800 3).Does (kheapAlloc 0) bare m₁ →
        (PageEvent.range (.unmap 0x3fe800 0x2800)).Each (kheapAlloc 0)
          TakesBack m₁ := by
    intro m₁ hd n m₂ hc hlt
    obtain ⟨e, hce, hle⟩ := hd.comes
    have hend := of_turnByTurn hturns .start (Nat.zero_le e) hce
    rw [if_pos hle] at hend
    have hseen := of_turnByTurn hend .start (Nat.zero_le n) hc
    rw [if_neg (Nat.not_le.mpr hlt)] at hseen
    exact of_goesBack hseen
  obtain ⟨m₁, m', hmap, hunmap, -, hframes, hentry⟩ := mapRange_unmapRange
    (kheapAlloc 0) bare 0x3fe800 0x2800 3 bare_apart (by decide)
    (by decide) (fun _ _ => rfl) (Nat.le_trans (by decide) bare_avail)
    (bare_comes hturns) hback
  exact ⟨m₁, m', hmap, hunmap, hframes, (hentry 0x3fe000).1,
    (hentry 0x400abc).1⟩

end Mem

end Ntibux
