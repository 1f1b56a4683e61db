/-
The two halves of a page directory.

`get_page` writes both halves of an entry, `unmap` only the pointer. So
the halves agree as long as no table is taken down (`Level.step`), and an
`unmap` that takes one down leaves the CPU walking it (`unmap_stale`).

With paging on, where a table is depends on the entry of the page it is
in. The invariant therefore says as well that each table's page has a
table (`Level.reached`), so that putting up a table elsewhere, or writing
another page's entry, moves none.
-/
import Ntibux.Mem.Proofs.Boot

namespace Ntibux

namespace Mem

variable {kalloc : Kalloc} {m m' m₀ m₁ : Mem} {p : PagePtr} {q : Page}
  {c : PageCall} {r : RangeCall} {e : PageEvent}
  {tr : List (Mem × PageEvent)}
  {a d t v n i pt flags frame fuel range res : Nat}

-- ========================================================== the invariant

/-- The halves agree, and every table is in the directory's reach. -/
structure Level (m : Mem) : Prop where
  agree : m.HalvesAgree
  apart : m.TablesApart
  reached : m.pagingEnabled = true → ∀ d < 0x400,
    m.currentPd.tables d ≠ 0 →
      m.currentPd.tables (directoryIndex (m.currentPd.tables d)) ≠ 0

/-- An empty directory is level. -/
theorem Zeroed.level (hz : Zeroed m) : Level m := by
  refine ⟨⟨?_, ?_⟩, ?_, ?_⟩
  · intro d hd
    exact iff_of_true (hz d hd).1 (hz d hd).2
  · intro d hd hne
    exact absurd (hz d hd).1 hne
  · intro d hd d' _ hne
    exact absurd (hz d hd).1 hne
  · intro _ d hd hne
    exact absurd (hz d hd).1 hne

/-- What the halves say depends on the directory and on where its tables
are. -/
theorem Level.congr (hl : Level m) (hpd : m'.currentPd = m.currentPd)
    (hon : m'.pagingEnabled = m.pagingEnabled)
    (hp : ∀ d < 0x400, m.currentPd.tables d ≠ 0 →
      m'.tablePaddr (m.currentPd.tables d)
        = m.tablePaddr (m.currentPd.tables d)) : Level m' := by
  refine ⟨⟨?_, ?_⟩, ?_, ?_⟩
  · rw [hpd]
    exact hl.agree.null_iff
  · intro d hd hne
    rw [hpd] at hne ⊢
    rw [hp d hd hne]
    exact hl.agree.paddr d hd hne
  · unfold TablesApart
    rw [hpd]
    exact hl.apart
  · rw [hon, hpd]
    exact hl.reached

/-- The physical address of a table is read off one entry. -/
theorem tablePaddr_congr (hon : m'.pagingEnabled = m.pagingEnabled)
    (hp : m.pagingEnabled = true →
      m'.pages (m'.currentPd.tables (directoryIndex pt)) (tableIndex pt)
        = m.pages (m.currentPd.tables (directoryIndex pt))
          (tableIndex pt)) :
    m'.tablePaddr pt = m.tablePaddr pt := by
  unfold tablePaddr
  rw [hon]
  split
  · rename_i h
    unfold getPaddr
    rw [hp h]
  · rfl

-- ============================================================ putting up

/-- A table put up at `pt` for entry `d` of the directory. -/
structure PutUp (m : Mem) (d pt : Nat) (m' : Mem) : Prop where
  missing : m.currentPd.tables d = 0
  ne_zero : pt ≠ 0
  fresh : ∀ e < 0x400, m.currentPd.tables e ≠ pt
  reached : m.pagingEnabled = true →
    m.currentPd.tables (directoryIndex pt) ≠ 0
  pagingEnabled : m'.pagingEnabled = m.pagingEnabled
  table : m'.currentPd.tables d = pt
  paddr : m'.currentPd.paddrs d = m'.tablePaddr pt ||| 7
  other : ∀ e, e ≠ d → m'.currentPd.tables e = m.currentPd.tables e
    ∧ m'.currentPd.paddrs e = m.currentPd.paddrs e
  unmoved : ∀ e < 0x400, m.currentPd.tables e ≠ 0 →
    m'.tablePaddr (m.currentPd.tables e)
      = m.tablePaddr (m.currentPd.tables e)

/-- A table that is put up goes into both halves, at the address that the
CPU will find it at. -/
theorem PutUp.level (hu : PutUp m d pt m') (hl : Level m) : Level m' := by
  have hkeep : ∀ e, m.currentPd.tables e ≠ 0 →
      m'.currentPd.tables e = m.currentPd.tables e := by
    intro e he
    refine (hu.other e ?_).1
    intro hed
    rw [hed] at he
    exact he hu.missing
  refine ⟨⟨?_, ?_⟩, ?_, ?_⟩
  · intro e he
    by_cases hed : e = d
    · rw [hed, hu.table, hu.paddr]
      refine iff_of_false hu.ne_zero ?_
      rw [Nat.or_eq_zero_iff]
      exact fun h => absurd h.2 (by decide)
    · rw [(hu.other e hed).1, (hu.other e hed).2]
      exact hl.agree.null_iff e he
  · intro e he hne
    by_cases hed : e = d
    · rw [hed, hu.table]
      exact hu.paddr
    · rw [(hu.other e hed).1] at hne ⊢
      rw [(hu.other e hed).2, hu.unmoved e he hne]
      exact hl.agree.paddr e he hne
  · intro e he e' he' hne heq
    by_cases hed : e = d <;> by_cases hed' : e' = d
    · exact hed.trans hed'.symm
    · rw [hed, hu.table, (hu.other e' hed').1] at heq
      -- the new table is no other entry's
      exact absurd heq.symm (hu.fresh e' he')
    · rw [hed', hu.table, (hu.other e hed).1] at heq
      exact absurd heq (hu.fresh e he)
    · rw [(hu.other e hed).1] at hne heq
      rw [(hu.other e' hed').1] at heq
      exact hl.apart e he e' he' hne heq
  · intro hon e he hne
    rw [hu.pagingEnabled] at hon
    by_cases hed : e = d
    · rw [hed, hu.table, hkeep _ (hu.reached hon)]
      exact hu.reached hon
    · rw [(hu.other e hed).1] at hne ⊢
      have hr := hl.reached hon e he hne
      rw [hkeep _ hr]
      exact hr

/-- With paging on, a table that is put up is in no page of its own
range. -/
theorem PutUp.holdsTable (hu : PutUp m d pt m')
    (hon : m.pagingEnabled = true) (hq : q.1 = d)
    (h : m'.HoldsTable q) : m.HoldsTable q := by
  obtain ⟨e, he, hne, hpage⟩ := h
  by_cases hed : e = d
  · exfalso
    rw [hed, hu.table] at hpage
    have hdir : directoryIndex pt = d := by
      rw [← hq, ← hpage]
      rfl
    exact hu.reached hon (hdir ▸ hu.missing)
  · rw [(hu.other e hed).1] at hne hpage
    exact ⟨e, he, hne, hpage⟩

/-- The halves are level, and the directory has a table for the page. -/
structure Found (m : Mem) (a : Nat) (p : PagePtr) (m' : Mem) : Prop where
  level : Level m'
  pagingEnabled : m'.pagingEnabled = m.pagingEnabled
  ptr : p = (m'.currentPd.tables (directoryIndex a), tableIndex a)
  table : m'.currentPd.tables (directoryIndex a) ≠ 0
  holdsTable : m.pagingEnabled = true → m'.HoldsTable (pageOf a) →
    m.HoldsTable (pageOf a)
  marked : ∀ n, m.Marked n → m'.Marked n

/-- `get_page` puts up a table where there is none, and leaves the halves
level. -/
theorem getPage_found (hl : Level m)
    (hs : m.currentPd.tables (directoryIndex a) = 0 →
      ∀ pt m', m.tableAlloc kalloc = .ret (pt, m') → HousedTable m pt m')
    (h : m.getPage kalloc a = .ret (p, m')) : Found m a p m' := by
  rcases getPage_cases h with ⟨hne, rfl, rfl⟩
    | ⟨h0, pt, m₁, paddr, halloc, hm', rfl, hpaddr⟩
  · exact ⟨hl, rfl, rfl, hne, fun _ h => h, fun _ h => h⟩
  · have hh := hs h0 pt m₁ halloc
    have hon : m'.pagingEnabled = m.pagingEnabled := by
      rw [hm']
      exact hh.pagingEnabled
    have htables : m'.currentPd.tables
        = Function.update m.currentPd.tables (directoryIndex a) pt := by
      rw [hm', ← hh.currentPd]
      rfl
    have hpaddrs : m'.currentPd.paddrs
        = Function.update m.currentPd.paddrs (directoryIndex a) paddr := by
      rw [hm', ← hh.currentPd]
      rfl
    have hpages : m'.pages = Function.update m₁.pages pt fun _ => 0 := by
      rw [hm']
      rfl
    have hput : PutUp m (directoryIndex a) pt m' := by
      refine ⟨h0, hh.ne_zero, hh.fresh, hh.reached, hon, ?_, ?_, ?_, ?_⟩
      · rw [htables, Function.update_self]
      · rw [hpaddrs, Function.update_self, hpaddr, ← hon]
        rfl
      · intro e he
        rw [htables, hpaddrs, Function.update_of_ne he,
          Function.update_of_ne he]
        exact ⟨rfl, rfl⟩
      · intro e he hne
        rw [← hh.unmoved e he hne]
        refine tablePaddr_congr (hon.trans hh.pagingEnabled.symm) ?_
        intro hon₁
        -- the table's page is not in the new table's range
        have hr := hl.reached (hh.pagingEnabled.symm.trans hon₁) e he hne
        have hde : directoryIndex (m.currentPd.tables e)
            ≠ directoryIndex a := by
          intro heq
          rw [heq] at hr
          exact hr h0
        rw [htables, hpages, hh.currentPd, Function.update_of_ne hde,
          Function.update_of_ne (hh.fresh _ (directoryIndex_lt _))]
    have hself : m'.currentPd.tables (directoryIndex a) = pt := hput.table
    refine ⟨hput.level hl, hon, ?_, ?_, ?_, ?_⟩
    · rw [hself]
    · rw [hself]
      exact hh.ne_zero
    · intro hon h
      exact hput.holdsTable hon rfl h
    · intro n hn
      obtain ⟨htr, hused⟩ := hh.marked n hn
      rw [hm']
      exact ⟨htr, hused⟩

-- ======================================================= writing an entry

/-- An entry is written of a page that has no table in it. -/
theorem Level.setPage (hl : Level m)
    (hh : m.pagingEnabled = true → ¬m.HoldsTable (pageOf a))
    (hpd : m'.currentPd = m.currentPd)
    (hp : m'.pages = (m.setPage
      (m.currentPd.tables (directoryIndex a), tableIndex a) v).pages)
    (hon : m'.pagingEnabled = m.pagingEnabled) : Level m' := by
  refine hl.congr hpd hon fun d hd htd => tablePaddr_congr hon ?_
  intro hpaging
  have hr := hl.reached hpaging d hd htd
  rw [hpd, hp]
  show Function.update m.pages _ (Function.update _ _ v) _ _ = _
  by_cases htab : m.currentPd.tables (directoryIndex (m.currentPd.tables d))
      = m.currentPd.tables (directoryIndex a)
  · have hdir := hl.apart _ (directoryIndex_lt _) _ (directoryIndex_lt _)
      hr htab
    have hidx : tableIndex (m.currentPd.tables d) ≠ tableIndex a := by
      intro hidx
      refine hh hpaging ⟨d, hd, htd, ?_⟩
      unfold pageOf
      rw [hdir, hidx]
    rw [htab, Function.update_self, Function.update_of_ne hidx]
  · rw [Function.update_of_ne htab]

/-- A frame is claimed for the page, or refused. -/
theorem Found.claim (hf : Found m (v &&& 0xfffff000) p m₁)
    (hh : m.pagingEnabled = true → ¬m.HoldsTable (pageOf v))
    (hm' : SameTables ({ m₁ with frames := m₁.frames.marked n }.setPage p
      (claim frame flags)) m') : Level m' := by
  have hptr := hf.ptr
  have hholds := hf.holdsTable
  rw [pageOf_mask] at hholds
  rw [directoryIndex_mask, tableIndex_mask] at hptr
  refine hf.level.setPage (a := v) (v := Ntibux.claim frame flags) ?_
    hm'.currentPd ?_ hm'.pagingEnabled
  · intro hon hd
    rw [hf.pagingEnabled] at hon
    exact hh hon (hholds hon hd)
  · rw [hm'.pages, hptr]
    rfl

-- ============================================================== the calls

/-- `map` writes one entry, which moves a table only if a table was in that
page. -/
theorem Level.map (hl : Level m) (hs : m.Housed kalloc (.map v flags))
    (hk : m.LeavesTables (.map v flags))
    (h : m.map kalloc v flags = .ret (res, m')) : Level m' := by
  obtain ⟨⟨p, m₁⟩, hp, h₁⟩ := Outcome.bind_eq_ret.mp h
  obtain ⟨⟨r, m₂⟩, hf₂, h₂⟩ := Outcome.bind_eq_ret.mp h₁
  have hf := getPage_found hl (by rw [directoryIndex_mask]; exact hs) hp
  simp only [allocFrame] at hf₂
  split at hf₂
  · cases hf₂
  · obtain ⟨-, ⟨-, rfl, rfl⟩ | ⟨-, rfl, rfl⟩⟩ := allocFrameAt_cases hf₂
    · cases h₂
      exact hf.level
    · cases h₂
      exact hf.claim hk mmu_same

/-- So does `map_at`. -/
theorem Level.mapAt (hl : Level m) (hs : m.Housed kalloc (.mapAt v a flags))
    (hk : m.LeavesTables (.mapAt v a flags))
    (h : m.mapAt kalloc v a flags = .ret (res, m')) : Level m' := by
  obtain ⟨⟨p, m₁⟩, hp, h₁⟩ := Outcome.bind_eq_ret.mp h
  obtain ⟨⟨r, m₂⟩, hf₂, h₂⟩ := Outcome.bind_eq_ret.mp h₁
  have hf := getPage_found hl (by rw [directoryIndex_mask]; exact hs) hp
  obtain ⟨hlt, ⟨-, rfl, rfl⟩ | ⟨hu, rfl, rfl⟩⟩ := allocFrameAt_cases hf₂
  · cases h₂
    exact hf.level
  · cases h₂
    refine hf.claim (fun hon => hk hon ?_) mmu_same
    intro hm
    exact (hf.marked _ hm).used hu

/-- `unmap` of a page that is not the last of its table. -/
theorem Level.unmap (hl : Level m) (hk : m.LeavesTables (.unmap v))
    (h : m.unmap kalloc fuel v = .ret (res, m')) : Level m' := by
  have hu := unmap_unmapped hl.apart h
  have hpd : m'.currentPd.tables = m.currentPd.tables := by
    rcases hu.tables with ⟨ht, -⟩ | ⟨hempty, -⟩
    · exact ht
    · obtain ⟨t, ht, hne, hused⟩ := hk.1
      have hq := hempty t ht
      rw [hu.entry _ (directoryIndex_lt v) ht, if_neg] at hq
      · exact absurd hq hused
      · exact fun heq => hne (Prod.mk.inj heq).2
  exact hl.setPage hk.2 (congrArg₂ PageDirectory.mk hpd hu.paddrs)
    hu.pages hu.pagingEnabled

/-- `unmap` of the last page of a table leaves the CPU walking it. -/
theorem unmap_stale (ha : m.HalvesAgree) (hap : m.TablesApart)
    (hlast : ¬m.SharesTable (pageOf v))
    (h : m.unmap kalloc fuel v = .ret (res, m')) :
    m'.currentPd.tables (directoryIndex v) = 0
      ∧ m'.currentPd.paddrs (directoryIndex v) ≠ 0 := by
  have hu := unmap_unmapped hap h
  have hd := directoryIndex_lt v
  have htable : m.currentPd.tables (directoryIndex v) ≠ 0 := by
    intro h0
    exact hu.present.ne_zero (if_pos h0)
  have hempty : ∀ t < 0x400, m'.entry (directoryIndex v, t) = 0 := by
    intro t ht
    rw [hu.entry _ hd ht]
    split
    · rfl
    · rename_i hne
      by_contra hused
      refine hlast ⟨t, ht, ?_, hused⟩
      intro heq
      rw [heq] at hne
      exact hne rfl
  refine ⟨?_, ?_⟩
  · rcases hu.tables with ⟨-, hno⟩ | ⟨-, ht⟩
    · exact absurd hempty hno
    · rw [ht, Function.update_self]
  · rw [hu.paddrs]
    exact fun h0 => htable ((ha.null_iff _ hd).mpr h0)

/-- Each call keeps the halves level, as long as it takes no table down. -/
theorem Level.call (hl : Level m) (hs : m.Housed kalloc c)
    (hk : m.LeavesTables c) (h : c.Does kalloc m m') : Level m' := by
  cases c with
  | getPage v =>
      obtain ⟨p, hp⟩ := h
      exact (getPage_found hl hs hp).level
  | map v flags =>
      obtain ⟨res, h⟩ := h
      exact hl.map hs hk h
  | mapAt v a flags =>
      obtain ⟨res, h⟩ := h
      exact hl.mapAt hs hk h
  | unmap v =>
      obtain ⟨fuel, res, h⟩ := h
      exact hl.unmap hk h

-- =============================================================== the runs

/-- Hence so do the turns of a call on a range. -/
theorem Level.comes (hl : Level m)
    (hs : (PageEvent.range r).Each kalloc (Housed kalloc) m)
    (hk : (PageEvent.range r).Each kalloc LeavesTables m)
    (hc : r.Comes kalloc m n m₁) : Level m₁ := by
  induction hc with
  | start => exact hl
  | @next n m₁ m₂ hn hc hd ih =>
      exact ih.call (hs n m₁ hc hn) (hk n m₁ hc hn) hd

/-- Turning paging on changes how addresses are read. The tables are where
they were if they were mapped to themselves. -/
theorem Level.enablePaging (hl : Level m) (hoff : m.pagingEnabled = false)
    (hi : m.TablesIdentity) : Level m.enablePaging := by
  refine ⟨⟨hl.agree.null_iff, ?_⟩, hl.apart, fun _ d hd hne =>
    (hi d hd hne).1⟩
  intro d hd hne
  have hp := hl.agree.paddr d hd hne
  unfold tablePaddr at hp ⊢
  rw [if_neg (by simp [hoff])] at hp
  have haddr : m.enablePaging.getPaddr (m.currentPd.tables d)
      = m.currentPd.tables d := (hi d hd hne).2
  show m.currentPd.paddrs d
    = m.enablePaging.getPaddr (m.currentPd.tables d) ||| 7
  rw [haddr]
  exact hp

/-- And so does any step. -/
theorem Level.step (hl : Level m) (hs : e.Each kalloc (Housed kalloc) m)
    (hk : e.LeavesTables kalloc m) (h : TableStep kalloc m e m') :
    Level m' := by
  cases h with
  | call h => exact hl.call hs hk.1 h
  | range h =>
      obtain ⟨n, hc, -⟩ := h.comes
      exact hl.comes hs hk.1 hc
  | enablePaging hoff => exact hl.enablePaging hoff (hk.2 rfl)
  | outside hf hpd hp he =>
      refine hl.congr hpd he fun d _ _ => tablePaddr_congr he fun _ => ?_
      rw [hpd, hp]

-- ============================================================== bring-up

/-- Putting up the list table of the heap changes no page table. -/
theorem blocksPut_same (h : m.blocksPut = .ret m') : SameTables m m' := by
  obtain ⟨⟨b, m₁⟩, hb, h⟩ := Outcome.bind_eq_ret.mp h
  obtain ⟨-, rfl⟩ := unpagedAlloc_zeroed hb
  cases h
  exact ⟨rfl, rfl, rfl, rfl⟩

/-- Neither does putting the reserve into its list. -/
theorem reservePut_same {zone : Nat} (h : m.reservePut zone = .ret m') :
    SameTables m m' := by
  obtain ⟨m₁, hset, h⟩ := Outcome.bind_eq_ret.mp h
  obtain ⟨first, -, h⟩ := Outcome.bind_eq_ret.mp h
  cases h
  have hs := setFreeBlock_same hset
  exact ⟨hs.frames, hs.currentPd, hs.pages, hs.pagingEnabled⟩

/-- What leaves the tables alone is work outside the paging code. -/
theorem SameTables.outside (h : SameTables m m') :
    TableStep kalloc m .outside m' :=
  .outside h.frames h.currentPd h.pages h.pagingEnabled

/-- `mem::init` is a run from a zeroed directory. -/
theorem init_run {ram : Bytes} {kend highMem : Nat}
    (h : (new ram).init kalloc kend fuel highMem = .ret m) :
    ∃ s tr, Zeroed s ∧ Run (TableStep kalloc) s tr m := by
  obtain ⟨s₁, s₂, s₃, s₄, s₅, s₆, h₁, h₂, h₃, h₄, h₅, h₆, rfl⟩ :=
    init_stages h
  have hp := prepare_prepared rfl h₁
  have hs₂ := range_sameHeap hp.off (by simp [imageCall]) h₂
  have hs₃ := blocksPut_same h₃
  have hoff₃ := hs₃.pagingEnabled.trans hs₂.off
  have hs₄ := range_sameHeap hoff₃ (by simp [usedCall]) h₄
  have hs₅ := range_sameHeap hs₄.off (by simp [reserveCall]) h₅
  have hs₆ := reservePut_same h₆
  have hoff₆ := hs₆.pagingEnabled.trans hs₅.off
  have r₂ : Run (TableStep kalloc) s₁ _ s₂ := .snoc .nil (.range h₂)
  have r₅ := ((r₂.snoc hs₃.outside).snoc (.range h₄)).snoc (.range h₅)
  have r₇ := (r₅.snoc hs₆.outside).snoc (.enablePaging hoff₆)
  exact ⟨s₁, _, fun d _ => hp.zeroed d, r₇⟩

-- ============================================================= the results

/-- Along a run that takes no table down and moves none, the CPU walks
the tables that the kernel uses.

The invariant is `Level`. Besides the agreement it says that no table stands
in two places, and that with paging on every table is mapped through a table
that is there, without which the addresses that the CPU follows could change
under the directory. -/
theorem run_halvesAgree (hz : Zeroed m₀)
    (hr : Run (TableStep kalloc) m₀ tr m)
    (hs : ∀ p ∈ tr, p.2.Each kalloc (Housed kalloc) p.1)
    (hk : ∀ p ∈ tr, p.2.LeavesTables kalloc p.1) : m.HalvesAgree := by
  have hl : Level m := hr.invariant
    (fun m e => e.Each kalloc (Housed kalloc) m ∧ e.LeavesTables kalloc m)
    (fun p hp => ⟨hs p hp, hk p hp⟩) hz.level
    fun _ _ _ hl hok hstep => hl.step hok.1 hok.2 hstep
  exact hl.agree

/-- Before paging, fresh memory is in reach, and the tables are where
their pointers say. -/
theorem Supplied.housed (hoff : m.pagingEnabled = false)
    (hs : m.Supplied kalloc c) : m.Housed kalloc c := by
  intro h0 pt m' halloc
  have hf := hs h0 pt m' halloc
  refine ⟨hf.ne_zero, hf.fresh, hf.currentPd, hf.pagingEnabled, ?_, ?_, ?_⟩
  · intro hon
    exact absurd (hon.symm.trans hoff) (by decide)
  · intro d _ _
    exact tablePaddr_congr hf.pagingEnabled fun hon =>
      absurd (hon.symm.trans hoff) (by decide)
  · intro n hn
    exact ⟨hf.frames ▸ hn.tracked, hf.frames ▸ hn.used⟩

/-- Paging is off and no table is taken down. -/
def leavesTables (m : Mem) (c : PageCall) : Bool :=
  !m.pagingEnabled && match c with
  | .unmap vaddr => (List.range 0x400).any fun t =>
      decide (t ≠ tableIndex vaddr
        ∧ m.entry (directoryIndex vaddr, t) ≠ 0)
  | _ => true

/-- The test on a state gives that a call before paging leaves the tables
alone. -/
theorem of_leavesTables (h : m.leavesTables c = true) :
    m.pagingEnabled = false ∧ m.LeavesTables c := by
  unfold leavesTables at h
  obtain ⟨hoff, hc⟩ := Bool.and_eq_true_iff.mp h
  have hoff : m.pagingEnabled = false := by simpa using hoff
  have hon : m.pagingEnabled ≠ true := by simp [hoff]
  refine ⟨hoff, ?_⟩
  cases c with
  | getPage v => trivial
  | map v flags => exact fun h => absurd h hon
  | mapAt v a flags => exact fun h => absurd h hon
  | unmap v =>
      refine ⟨?_, fun h => absurd h hon⟩
      obtain ⟨t, ht, hused⟩ := List.any_eq_true.mp hc
      obtain ⟨hne, hused⟩ := of_decide_eq_true hused
      exact ⟨t, List.mem_range.mp ht, hne, hused⟩

/-- Three pages of one table are mapped and one is unmapped. -/
theorem run_halvesAgree_barred : ∃ tr m,
    Run (TableStep (kheapAlloc 0)) barred tr m
      ∧ (m.currentPd.tables 0, m.currentPd.paddrs 0) = (0x200000, 0x200007)
      ∧ m.HalvesAgree := by
  have hrun : (Run.follow (callNext (kheapAlloc 0)) (callTidy leavesTables)
      [.call (.mapAt 0 0 3), .call (.map 0x1000 3), .call (.map 0x2000 3),
        .call (.unmap 0x1000)] barred).map
      (fun m => (m.currentPd.tables 0, m.currentPd.paddrs 0))
        = some (0x200000, 0x200007) := by
    decide +kernel
  obtain ⟨tr, m, hr, -, hs, hP, hv⟩ := callRun hrun
  refine ⟨tr, m, hr, hv, run_halvesAgree (fun _ _ => ⟨rfl, rfl⟩) hr ?_ ?_⟩
  · intro p hp
    have hs := hs p hp
    obtain ⟨c, hc, hP⟩ := hP p hp
    rw [hc] at hs ⊢
    exact Supplied.housed (of_leavesTables hP).1 hs
  · intro p hp
    obtain ⟨c, hc, hP⟩ := hP p hp
    rw [hc]
    exact ⟨(of_leavesTables hP).2, nofun⟩

/-- On a booted 8 MiB machine a page is mapped in a region of its own and
unmapped again: the table goes back to the heap, and the CPU goes on
walking it. -/
theorem booted_stale : ∃ kalloc m₀ tr m, Zeroed m₀
    ∧ Run (TableStep kalloc) m₀ tr m ∧ m.currentPd.tables 256 = 0
    ∧ m.currentPd.paddrs 256 ≠ 0 ∧ ¬m.HalvesAgree := by
  have hcheck : ((new fun _ => 0).init (kheapAlloc 30) 0x120000 2000
      7168).holds (fun m =>
        ((PageCall.map 0x40000000 3).next (kheapAlloc 30) 30 m).holds
          fun m => ((PageCall.unmap 0x40000000).next (kheapAlloc 30) 30
            m).holds fun m => decide (m.currentPd.tables 256 = 0
              ∧ m.currentPd.paddrs 256 ≠ 0)) = true := by
    decide +kernel
  obtain ⟨m, hboot, hcheck⟩ := Outcome.holds_iff.mp hcheck
  obtain ⟨m₁, h₁, hcheck⟩ := Outcome.holds_iff.mp hcheck
  obtain ⟨m₂, h₂, hcheck⟩ := Outcome.holds_iff.mp hcheck
  obtain ⟨ht, hp⟩ := of_decide_eq_true hcheck
  obtain ⟨s, tr, hz, hr⟩ := init_run hboot
  have hr₂ := (hr.snoc (.call (next_does h₁))).snoc (.call (next_does h₂))
  refine ⟨_, s, _, m₂, hz, hr₂, ht, hp, ?_⟩
  intro ha
  exact hp ((ha.null_iff 256 (by decide)).mp ht)

end Mem

end Ntibux
