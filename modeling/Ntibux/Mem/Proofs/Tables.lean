/-
Who holds the frames.

The entries of a directory and the bitmap are a ledger (`ledger`): pages
hold frames, and the bitmap marks what is held. Each call is one move of
it or none (`call_account`), so nobody shares a frame along any run, and
a frame is leaked exactly where an entry was written over.
-/
import Ntibux.Lib.Ledger
import Ntibux.Mem.Proofs.Entry

namespace Ntibux

namespace Mem

variable {kalloc : Kalloc} {m m' m₀ m₁ : Mem} {p : PagePtr} {q : Page}
  {c : PageCall} {r : RangeCall} {e : PageEvent}
  {tr : List (Mem × PageEvent)}
  {a d t v n i flags frame fuel range res : Nat}

-- ============================================================= the ledger

/-- Pages and the frames they hold. -/
def ledger (m : Mem) : Ledger Page Nat where
  hold q :=
    if q.1 < 0x400 ∧ q.2 < 0x400 ∧ m.entry q ≠ 0
      then some (frameOf (m.entry q)) else none
  used := m.Marked

/-- In the ledger a page holds the frame that its entry names. -/
theorem hold_iff : m.ledger.hold q = some n
    ↔ m.Present q ∧ frameOf (m.entry q) = n := by
  show (if _ then _ else _) = _ ↔ _
  split
  · rename_i h
    rw [Option.some.injEq]
    exact ⟨fun hn => ⟨⟨h.1, h.2.1, h.2.2⟩, hn⟩, fun hn => hn.2⟩
  · rename_i h
    refine ⟨nofun, ?_⟩
    intro hn
    exact absurd ⟨hn.1.dir_lt, hn.1.table_lt, hn.1.ne_zero⟩ h

/-- It holds one if it is present. -/
theorem hold_ne_none_iff : m.ledger.hold q ≠ none ↔ m.Present q := by
  rw [Option.ne_none_iff_exists']
  constructor
  · intro h
    obtain ⟨n, hn⟩ := h
    exact (hold_iff.mp hn).1
  · intro h
    exact ⟨_, hold_iff.mpr ⟨h, rfl⟩⟩

/-- A frame with two pages is one that the ledger has twice. -/
theorem unshared_iff : m.Unshared ↔ m.ledger.Sound := by
  constructor
  · intro h
    refine ⟨?_, ?_⟩
    · intro q n hq
      obtain ⟨hp, rfl⟩ := hold_iff.mp hq
      exact h.marked q hp
    · intro q q' n hq hq'
      obtain ⟨hp, hn⟩ := hold_iff.mp hq
      obtain ⟨hp', hn'⟩ := hold_iff.mp hq'
      exact h.apart q q' hp hp' (hn.trans hn'.symm)
  · intro h
    refine ⟨?_, ?_⟩
    · intro q q' hp hp' heq
      exact h.unshared q q' _ (hold_iff.mpr ⟨hp, heq⟩)
        (hold_iff.mpr ⟨hp', rfl⟩)
    · intro q hp
      exact h.used q _ (hold_iff.mpr ⟨hp, rfl⟩)

/-- A frame that is marked without a page is one that the ledger has lost.
-/
theorem unleaked_iff : m.Unleaked ↔ m.ledger.Full := by
  unfold Unleaked Ledger.Full
  simp only [hold_iff]
  rfl

/-- The ledger reads the bitmap and the entries. -/
theorem ledger_congr (hf : m'.frames = m.frames)
    (he : ∀ q : Page, q.1 < 0x400 → q.2 < 0x400 → m'.entry q = m.entry q) :
    m'.ledger = m.ledger := by
  unfold ledger
  congr 1
  · funext q
    by_cases hq : q.1 < 0x400 ∧ q.2 < 0x400
    · rw [he q hq.1 hq.2]
    · rw [if_neg fun h => hq ⟨h.1, h.2.1⟩, if_neg fun h => hq ⟨h.1, h.2.1⟩]
  · funext n
    apply propext
    constructor
    · intro h
      exact ⟨hf ▸ h.tracked, hf ▸ h.used⟩
    · intro h
      exact ⟨hf ▸ h.tracked, hf ▸ h.used⟩

/-- The ledger is read off the bitmap, the directory and the tables. -/
theorem SameTables.ledger (h : SameTables m m') : m'.ledger = m.ledger :=
  ledger_congr h.frames fun q _ _ => h.entry q

/-- What the ledger says of a page whose entry was replaced. -/
theorem ledger_replaced {o : Option Nat}
    (hq : q.1 < 0x400 ∧ q.2 < 0x400)
    (he : ∀ q' : Page, q'.1 < 0x400 → q'.2 < 0x400 →
      m'.entry q' = if q' = q then v else m.entry q')
    (ho : o = if v ≠ 0 then some (frameOf v) else none) (q' : Page) :
    m'.ledger.hold q' = if q' = q then o else m.ledger.hold q' := by
  show (if _ then _ else _) = _
  by_cases hqq : q' = q
  · rw [if_pos hqq, ho, hqq, he q hq.1 hq.2, if_pos rfl]
    by_cases hv : v = 0
    · rw [if_neg fun h => h.2.2 hv, if_neg fun h => h hv]
    · rw [if_pos ⟨hq.1, hq.2, hv⟩, if_pos hv]
  · rw [if_neg hqq]
    show _ = if _ then _ else _
    by_cases hb : q'.1 < 0x400 ∧ q'.2 < 0x400
    · rw [he q' hb.1 hb.2, if_neg hqq]
    · rw [if_neg fun h => hb ⟨h.1, h.2.1⟩, if_neg fun h => hb ⟨h.1, h.2.1⟩]

-- ======================================================= the single calls

/-- What `get_page` leaves behind: the directory has a table for the
page, and says of every page what it said before. -/
structure Reached (m : Mem) (a : Nat) (p : PagePtr) (m' : Mem) : Prop where
  apart : m'.TablesApart
  frames : m'.frames = m.frames
  entry : ∀ q : Page, q.1 < 0x400 → m'.entry q = m.entry q
  ptr : p = (m'.currentPd.tables (directoryIndex a), tableIndex a)
  table : m'.currentPd.tables (directoryIndex a) ≠ 0

/-- A table is put up empty for the page. -/
theorem newTable_reached {pt : Nat} (paddr : Nat) (ha : m.TablesApart)
    (h0 : m.currentPd.tables (directoryIndex a) = 0) (hne : pt ≠ 0)
    (hfresh : ∀ d < 0x400, m.currentPd.tables d ≠ pt) :
    Reached m a (pt, tableIndex a)
      ((m.newTable pt).setTable (directoryIndex a) pt paddr) := by
  have hself : Function.update m.currentPd.tables (directoryIndex a) pt
      (directoryIndex a) = pt := Function.update_self ..
  refine ⟨?_, rfl, fun q hq => entry_newTable h0 hfresh hq, ?_, ?_⟩
  · intro e he e' he' hne heq
    change Function.update m.currentPd.tables _ pt e ≠ 0 at hne
    change Function.update m.currentPd.tables _ pt e
      = Function.update m.currentPd.tables _ pt e' at heq
    by_cases hed : e = directoryIndex a
    · by_cases hed' : e' = directoryIndex a
      · exact hed.trans hed'.symm
      · rw [hed, hself, Function.update_of_ne hed'] at heq
        exact absurd heq.symm (hfresh e' he')
    · rw [Function.update_of_ne hed] at hne heq
      by_cases hed' : e' = directoryIndex a
      · rw [hed', hself] at heq
        exact absurd heq (hfresh e he)
      · rw [Function.update_of_ne hed'] at heq
        exact ha e he e' he' hne heq
  · show _ = (Function.update m.currentPd.tables _ pt _, _)
    rw [hself]
  · show Function.update m.currentPd.tables _ pt _ ≠ 0
    rw [hself]
    exact hne

/-- `get_page` finds the page's entry, in a new table where there was none,
and no page is the worse for it. -/
theorem getPage_reached (ha : m.TablesApart)
    (hs : m.currentPd.tables (directoryIndex a) = 0 →
      ∀ pt m', m.tableAlloc kalloc = .ret (pt, m') → FreshTable m pt m')
    (h : m.getPage kalloc a = .ret (p, m')) : Reached m a p m' := by
  rcases getPage_cases h with ⟨hne, rfl, rfl⟩
    | ⟨h0, pt, m₁, paddr, halloc, rfl, rfl, -⟩
  · exact ⟨ha, rfl, fun _ _ => rfl, rfl, hne⟩
  · have hfresh := hs h0 pt m₁ halloc
    have ha₁ : m₁.TablesApart := by
      unfold TablesApart
      rw [hfresh.currentPd]
      exact ha
    have hr : Reached m₁ a _ _ := newTable_reached paddr ha₁
      (by rw [hfresh.currentPd]; exact h0) hfresh.ne_zero
      (by rw [hfresh.currentPd]; exact hfresh.fresh)
    exact { hr with
      frames := hr.frames.trans hfresh.frames
      entry := fun q hq => (hr.entry q hq).trans (hfresh.same.entry q) }

/-- What the MMU makes of a new entry is seen in the bytes, not in the
tables. -/
theorem mmu_same : SameTables m (m.mmu a p) := by
  unfold mmu
  split <;> exact ⟨rfl, rfl, rfl, rfl⟩

/-- `alloc_frame` at a frame: it is taken, or it becomes the entry's. -/
theorem allocFrameAt_cases
    (h : m.allocFrameAt p frame flags = .ret (res, m')) :
    Frames.index (frame >>> 12) < Frames.index m.frames.nframes ∧
      (¬m.frames.Unused (frame >>> 12) ∧ res = 0 ∧ m' = m ∨
        m.frames.Unused (frame >>> 12) ∧ res = 1 ∧
          m' = { m with frames := m.frames.marked (frame >>> 12) }.setPage p
            (claim frame flags)) := by
  obtain ⟨b, hb, h⟩ := Outcome.bind_eq_ret.mp h
  obtain ⟨hlt, rfl⟩ := Frames.isFree_inv hb
  refine ⟨hlt, ?_⟩
  split at h
  case isTrue hu =>
    obtain ⟨f, hf, h⟩ := Outcome.bind_eq_ret.mp h
    cases h
    rw [Frames.markFrame_inv hf]
    exact .inr ⟨decide_eq_true_iff.mp hu, rfl, rfl⟩
  case isFalse hu =>
    cases h
    exact .inl ⟨fun h => hu (decide_eq_true_iff.mpr h), rfl, rfl⟩

/-- A frame that is free becomes the page's. -/
theorem Reached.take (hr : Reached m a p m₁) (hn : n < 2 ^ 20)
    (hf : flags < 0x1000)
    (hlt : Frames.index n < Frames.index m.frames.nframes)
    (hu : m.frames.Unused n)
    (hm' : SameTables ({ m₁ with frames := m₁.frames.marked n }.setPage p
      (claim (n * 4096) flags)) m') :
    m'.TablesApart ∧ Ledger.Step m.ledger (.take (pageOf a) n) m'.ledger := by
  have hd := directoryIndex_lt a
  have ht := tableIndex_lt a
  refine ⟨?_, ?_⟩
  · unfold TablesApart
    rw [hm'.currentPd]
    exact hr.apart
  · rw [hm'.ledger, hr.ptr]
    constructor
    · exact fun hmk => hmk.used hu
    · refine ledger_replaced (v := claim (n * 4096) flags) ⟨hd, ht⟩ ?_ ?_
      · intro q hq _
        rw [← hr.entry q hq]
        exact entry_setPage hr.apart hd hr.table hq
      · rw [if_pos (claim_ne_zero _ _), frameOf_claim hn hf]
    · intro g
      constructor
      · intro hg
        have hused : ¬(m₁.frames.marked n).Unused g := hg.used
        rw [Frames.unused_marked_iff, hr.frames, not_and_or,
          not_not] at hused
        have htr : Frames.index g < Frames.index m₁.frames.nframes :=
          hg.tracked
        rw [hr.frames] at htr
        rcases hused with hused | hused
        · exact .inr ⟨htr, hused⟩
        · exact .inl hused
      · intro hg
        have hused : ¬(m₁.frames.marked n).Unused g := by
          rw [Frames.unused_marked_iff, hr.frames, not_and_or, not_not]
          rcases hg with rfl | hg
          · exact .inr rfl
          · exact .inl hg.used
        refine ⟨?_, hused⟩
        show Frames.index g < Frames.index m₁.frames.nframes
        rw [hr.frames]
        rcases hg with rfl | hg
        · exact hlt
        · exact hg.tracked

-- ======================================================== what a call does

/-- What a call makes of the ledger: nothing, or one move. -/
structure Account (m : Mem) (c : PageCall) (m' : Mem) : Prop where
  apart : m'.TablesApart
  nframes : m'.frames.nframes = m.frames.nframes
  ledger : m'.ledger = m.ledger ∧ ¬m.Overwrites c ∨
    ∃ e, Ledger.Step m.ledger e m'.ledger ∧
      (m.ledger.Overwrites e ↔ m.Overwrites c)

/-- The account of a call that takes a free frame for its page. -/
theorem Reached.account (hr : Reached m (v &&& 0xfffff000) p m₁)
    (hn : n < 2 ^ 20) (hf : flags < 0x1000)
    (hlt : Frames.index n < Frames.index m.frames.nframes)
    (hu : m.frames.Unused n)
    (hm' : SameTables ({ m₁ with frames := m₁.frames.marked n }.setPage p
      (claim (n * 4096) flags)) m')
    (ho : m.Present (pageOf v) ↔ m.Overwrites c) : Account m c m' := by
  obtain ⟨hapart, hstep⟩ := hr.take hn hf hlt hu hm'
  rw [pageOf_mask] at hstep
  refine ⟨hapart, ?_, .inr ⟨_, hstep, hold_ne_none_iff.trans ho⟩⟩
  rw [hm'.frames]
  show m₁.frames.nframes = m.frames.nframes
  rw [hr.frames]

/-- `map` claims a frame for the page, or does nothing at all. -/
theorem map_account (ha : m.TablesApart)
    (hn : m.frames.nframes ≤ 2 ^ 20) (hf : flags < 0x1000)
    (hs : m.Supplied kalloc (.map v flags))
    (h : m.map kalloc v flags = .ret (res, m')) :
    Account m (.map v flags) m' := by
  obtain ⟨⟨p, m₁⟩, hp, h⟩ := Outcome.bind_eq_ret.mp h
  obtain ⟨⟨r, m₂⟩, hf₂, h⟩ := Outcome.bind_eq_ret.mp h
  have hr := getPage_reached ha
    (by rw [directoryIndex_mask]; exact hs) hp
  have hn₁ : m₁.frames.nframes ≤ 2 ^ 20 := by
    rw [hr.frames]
    exact hn
  simp only [allocFrame] at hf₂
  split at hf₂
  · cases hf₂
  · rename_i h0
    rcases Frames.getFreeFrame_cases hn₁ with ⟨-, hz⟩
      | ⟨-, n, -, hlt, hu, heq⟩
    · exact absurd hz h0
    · have hsh := Frames.shiftRight_mul n
      have hn20 : n < 2 ^ 20 := by
        unfold Frames.index at hlt
        omega
      rw [heq] at hf₂
      obtain ⟨-, ⟨hbusy, -⟩ | ⟨-, rfl, rfl⟩⟩ := allocFrameAt_cases hf₂
      · rw [hsh] at hbusy
        exact absurd hu hbusy
      · cases h
        rw [hsh]
        rw [hr.frames] at hlt hu
        exact hr.account hn20 hf (Frames.index_lt_iff.mpr hlt) hu mmu_same
          Iff.rfl

/-- `map_at` claims the frame that it was given if it is free, and does
nothing otherwise. -/
theorem mapAt_account (ha : m.TablesApart) (hf : flags < 0x1000)
    (hs : m.Supplied kalloc (.mapAt v a flags))
    (h : m.mapAt kalloc v a flags = .ret (res, m')) :
    Account m (.mapAt v a flags) m' := by
  obtain ⟨⟨p, m₁⟩, hp, h₁⟩ := Outcome.bind_eq_ret.mp h
  obtain ⟨⟨r, m₂⟩, hf₂, h₂⟩ := Outcome.bind_eq_ret.mp h₁
  have hr := getPage_reached ha
    (by rw [directoryIndex_mask]; exact hs) hp
  have hn20 : frameOf a < 2 ^ 20 := by
    rw [frameOf_eq]
    omega
  have haddr : a &&& 0xfffff000 = frameOf a * 4096 := by
    rw [and_pageMask, frameOf_eq]
  obtain ⟨hlt, hcase⟩ := allocFrameAt_cases hf₂
  change Frames.index (frameOf a) < _ at hlt
  rw [hr.frames] at hlt
  rcases hcase with ⟨hbusy, rfl, rfl⟩ | ⟨hu, rfl, rfl⟩
  · -- the frame is taken, and no entry changes
    cases h₂
    change ¬m₂.frames.Unused (frameOf a) at hbusy
    rw [hr.frames] at hbusy
    refine ⟨hr.apart, congrArg _ hr.frames, .inl ⟨?_, ?_⟩⟩
    · exact ledger_congr hr.frames fun q hq _ => hr.entry q hq
    · intro ho
      exact ho.2 ⟨hlt, hbusy⟩
  · cases h₂
    change m₁.frames.Unused (frameOf a) at hu
    rw [hr.frames] at hu
    refine hr.account hn20 hf hlt hu ?_ ?_
    · rw [← haddr]
      exact mmu_same
    · refine (and_iff_left ?_).symm
      exact fun hm => hm.used hu

/-- What `unmap` leaves behind: the page's entry is gone and its frame
is free, and the table is taken down if that was the last entry. -/
structure Unmapped (m : Mem) (v : Nat) (m' : Mem) : Prop where
  present : m.Present (pageOf v)
  frames : m'.frames = m.frames.cleared (frameOf (m.entry (pageOf v)))
  entry : ∀ q : Page, q.1 < 0x400 → q.2 < 0x400 →
    m'.entry q = if q = pageOf v then 0 else m.entry q
  tables : m'.currentPd.tables = m.currentPd.tables
      ∧ (¬∀ t < 0x400, m'.entry (directoryIndex v, t) = 0)
    ∨ (∀ t < 0x400, m'.entry (directoryIndex v, t) = 0) ∧
      m'.currentPd.tables
        = Function.update m.currentPd.tables (directoryIndex v) 0
  paddrs : m'.currentPd.paddrs = m.currentPd.paddrs
  pages : m'.pages = (m.setPage (m.currentPd.tables (directoryIndex v),
    tableIndex v) 0).pages
  pagingEnabled : m'.pagingEnabled = m.pagingEnabled

/-- The frame is given back and the entry is 0. -/
def unmapPage (m : Mem) (v : Nat) : Mem :=
  ({ m with frames := m.frames.cleared (frameOf (m.entry (pageOf v))) } :
    Mem).setPage (m.currentPd.tables (directoryIndex v), tableIndex v) 0

/-- Where `unmap` returns: the page was mapped, and if the table has no
entry left, the heap gets it back. -/
theorem unmap_cases (h : m.unmap kalloc fuel v = .ret (res, m')) :
    m.currentPd.tables (directoryIndex v) ≠ 0 ∧ m.Present (pageOf v) ∧
      ((¬∀ t < 0x400, (m.unmapPage v).pages
          (m.currentPd.tables (directoryIndex v)) t = 0) ∧
        m' = m.unmapPage v ∨
      (∀ t < 0x400, (m.unmapPage v).pages
          (m.currentPd.tables (directoryIndex v)) t = 0) ∧
        ∃ m₃, SameTables (m.unmapPage v) m₃ ∧
          m' = { m₃ with currentPd := { m₃.currentPd with
            tables := Function.update m₃.currentPd.tables
              (directoryIndex v) 0 } }) := by
  simp only [unmap] at h
  split at h
  · cases h
  · rename_i hmapped
    rw [not_or] at hmapped
    obtain ⟨htable, hne⟩ := hmapped
    obtain ⟨⟨p, m₁⟩, hp, h⟩ := Outcome.bind_eq_ret.mp h
    obtain ⟨m₂, hfree, h⟩ := Outcome.bind_eq_ret.mp h
    obtain ⟨-, hm₁, hptr⟩ | ⟨h0, -⟩ := getPage_cases hp
    · rw [directoryIndex_mask, tableIndex_mask] at hptr
      rw [hm₁, hptr] at hfree
      have hentry : m.entry (pageOf v)
          = m.pages (m.currentPd.tables (directoryIndex v))
            (tableIndex v) := if_neg htable
      obtain ⟨f, hf, hfree⟩ := Outcome.bind_eq_ret.mp hfree
      have hpage : ({ m with frames := f } : Mem).page
          (m.currentPd.tables (directoryIndex v), tableIndex v) ≠ 0 := hne
      simp only [if_neg hpage] at hfree
      have hframes : f = m.frames.cleared (frameOf (m.entry (pageOf v))) := by
        rw [hentry]
        exact Frames.unmarkFrame_inv hf
      have hm₂ : m₂ = m.unmapPage v := by
        unfold unmapPage
        rw [← hframes]
        exact (Outcome.ret.inj hfree).symm
      rw [hm₂] at h
      refine ⟨htable, ⟨directoryIndex_lt v, tableIndex_lt v, hentry ▸ hne⟩,
        ?_⟩
      split at h
      -- another entry of the table is in use
      case isFalse hscan =>
        cases h
        refine .inl ⟨fun hall => hscan ?_, rfl⟩
        exact (scanTable_eq rfl).mpr fun t _ ht => hall t ht
      -- the table is empty and goes back to the heap
      case isTrue hscan =>
        obtain ⟨m₃, h₃, h⟩ := Outcome.bind_eq_ret.mp h
        cases h
        refine .inr ⟨fun t ht => ?_, m₃, kheapFree_same h₃, rfl⟩
        exact (scanTable_eq rfl).mp hscan t (Nat.zero_le _) ht
    · rw [directoryIndex_mask] at h0
      exact absurd h0 htable

/-- An `unmap` that returns found the page present, and has taken its entry
and its frame. -/
theorem unmap_unmapped (ha : m.TablesApart)
    (h : m.unmap kalloc fuel v = .ret (res, m')) : Unmapped m v m' := by
  have hd := directoryIndex_lt v
  obtain ⟨htable, hpresent, hcase⟩ := unmap_cases h
  have hentry : ∀ q : Page, q.1 < 0x400 →
      (m.unmapPage v).entry q = if q = pageOf v then 0 else m.entry q :=
    fun q hq => entry_setPage (m := { m with
      frames := m.frames.cleared (frameOf (m.entry (pageOf v))) })
      ha hd htable hq
  have hat : ∀ t, (m.unmapPage v).entry (directoryIndex v, t)
      = (m.unmapPage v).pages (m.currentPd.tables (directoryIndex v)) t :=
    fun _ => if_neg htable
  rcases hcase with ⟨hleft, rfl⟩ | ⟨hempty, m₃, hs, rfl⟩
  · refine ⟨hpresent, rfl, fun q hq _ => hentry q hq, .inl ⟨rfl, ?_⟩, rfl,
      rfl, rfl⟩
    exact fun hall => hleft fun t ht => (hat t).symm.trans (hall t ht)
  · have hempty₃ : ∀ t < 0x400, m₃.entry (directoryIndex v, t) = 0 := by
      intro t ht
      rw [hs.entry, hat]
      exact hempty t ht
    refine ⟨hpresent, hs.frames, ?_, .inr ⟨?_, ?_⟩, ?_, hs.pages,
      hs.pagingEnabled⟩
    · intro q hq hq'
      rw [entry_untable hq' hempty₃, hs.entry, hentry q hq]
    · intro t ht
      rw [entry_untable ht hempty₃]
      exact hempty₃ t ht
    · show Function.update m₃.currentPd.tables _ _ = _
      rw [hs.currentPd]
      rfl
    · show m₃.currentPd.paddrs = _
      rw [hs.currentPd]
      rfl

/-- With one entry less, or one table less, no table has come to stand in
two places. -/
theorem Unmapped.apart (hu : Unmapped m v m') (ha : m.TablesApart) :
    m'.TablesApart := by
  intro d hd d' hd' hne heq
  rcases hu.tables with ⟨ht, -⟩ | ⟨-, ht⟩
  · rw [ht] at hne heq
    exact ha d hd d' hd' hne heq
  · rw [ht] at hne heq
    have hdv : d ≠ directoryIndex v := by
      intro hdv
      rw [hdv, Function.update_self] at hne
      exact hne rfl
    rw [Function.update_of_ne hdv] at hne heq
    by_cases hdv' : d' = directoryIndex v
    · rw [hdv', Function.update_self] at heq
      exact absurd heq hne
    · rw [Function.update_of_ne hdv'] at heq
      exact ha d hd d' hd' hne heq

/-- For the ledger that is a release. -/
theorem Unmapped.account (hu : Unmapped m v m') (ha : m.TablesApart) :
    Account m (.unmap v) m' := by
  have hd := directoryIndex_lt v
  have ht := tableIndex_lt v
  refine ⟨hu.apart ha, by rw [hu.frames]; rfl, ?_⟩
  refine .inr ⟨.drop (pageOf v), ?_, Iff.rfl⟩
  constructor
  · exact hold_iff.mpr ⟨hu.present, rfl⟩
  · exact ledger_replaced ⟨hd, ht⟩ hu.entry (by simp)
  · intro g
    have hused : ¬m'.frames.Unused g ↔ ¬m.frames.Unused g
        ∧ g ≠ frameOf (m.entry (pageOf v)) := by
      rw [hu.frames, Frames.unused_cleared_iff, not_or]
    have hn : m'.frames.nframes = m.frames.nframes := by
      rw [hu.frames]
      rfl
    constructor
    · intro hg
      have hboth := hused.mp hg.used
      exact ⟨⟨hn ▸ hg.tracked, hboth.1⟩, hboth.2⟩
    · intro hg
      exact ⟨hn ▸ hg.1.tracked, hused.mpr ⟨hg.1.used, hg.2⟩⟩

/-- What any single call does. -/
theorem call_account (ha : m.TablesApart)
    (hn : m.frames.nframes ≤ 2 ^ 20) (hf : m.FlagsFit c)
    (hs : m.Supplied kalloc c) (h : c.Does kalloc m m') :
    Account m c m' := by
  cases c with
  | getPage v =>
      obtain ⟨p, hp⟩ := h
      have hr := getPage_reached ha hs hp
      refine ⟨hr.apart, congrArg _ hr.frames, .inl ⟨?_, id⟩⟩
      exact ledger_congr hr.frames fun q hq _ => hr.entry q hq
  | map v flags =>
      obtain ⟨res, h⟩ := h
      exact map_account ha hn hf hs h
  | mapAt v a flags =>
      obtain ⟨res, h⟩ := h
      exact mapAt_account ha hf hs h
  | unmap v =>
      obtain ⟨fuel, res, h⟩ := h
      exact (unmap_unmapped ha h).account ha

end Mem

end Ntibux
