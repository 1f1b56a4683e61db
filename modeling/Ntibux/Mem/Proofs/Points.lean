/-
Mapping and unmapping one page, as updates of one entry.

The split of an address in two indices and an offset keeps the pages of
the 32-bit addresses apart (`pageOf_eq_iff`), so what `map` and `unmap`
do to one entry of one table is what they do to the translation.
`mapAt_outcome` and `unmap_gives` say that they return, too.
-/
import Ntibux.Mem.Ranges
import Ntibux.Mem.Proofs.Owners

namespace Ntibux

namespace Mem

variable {kalloc : Kalloc} {m m' m₁ : Mem} {p : PagePtr} {q : Page}
  {a v w e n flags frame fuel fuel' res : Nat}

-- ============================================================== the pages

theorem samePage_iff (hv : v < 2 ^ 32) (hw : w < 2 ^ 32) :
    SamePage v w ↔ v / 4096 = w / 4096 := by
  unfold SamePage
  rw [and_pageMask, and_pageMask]
  omega

/-- Pages of 32-bit addresses are told apart by their indices. -/
theorem pageOf_eq_iff (hv : v < 2 ^ 32) (hw : w < 2 ^ 32) :
    pageOf v = pageOf w ↔ SamePage v w := by
  rw [samePage_iff hv hw]
  unfold pageOf
  rw [Prod.mk.injEq, directoryIndex_eq, directoryIndex_eq, tableIndex_eq,
    tableIndex_eq]
  omega

theorem and_offset (a : Nat) : a &&& 0xfff = a % 4096 :=
  Nat.and_two_pow_sub_one_eq_mod a 12

/-- The flags of a claimed entry, whatever was asked for. -/
theorem claim_flags (frame flags : Nat) :
    claim frame flags &&& 0xfff = (PAGE_PRESENT ||| flags) &&& 0xfff := by
  have hlow : frame &&& 0xfffff000 &&& 0xfff = 0 := by
    rw [and_pageMask, and_offset]
    omega
  unfold claim
  rw [Nat.or_assoc, Nat.and_or_distrib_right, hlow, Nat.zero_or]

-- =============================================================== get_page

/-- `get_page` returns where there is a table or memory for one. -/
theorem getPage_ret (h : m.currentPd.tables (directoryIndex a) = 0 →
      ∃ pt m₁, m.tableAlloc kalloc = .ret (pt, m₁)) :
    ∃ p m', m.getPage kalloc a = .ret (p, m') := by
  simp only [getPage]
  split
  case isFalse => exact ⟨_, _, rfl⟩
  case isTrue h0 =>
    obtain ⟨pt, m₁, halloc⟩ := h h0
    unfold tableAlloc at halloc
    split
    case isTrue hon =>
      rw [if_pos hon] at halloc
      rw [halloc]
      exact ⟨_, _, rfl⟩
    case isFalse hoff =>
      rw [if_neg hoff] at halloc
      rw [halloc]
      exact ⟨_, _, rfl⟩

/-- It reaches the page and changes nothing but for the table. -/
theorem TableComes.reached {c : PageCall} (h : TableComes kalloc m c)
    (ha : m.TablesApart) : ∃ p m₁,
      m.getPage kalloc (c.vaddr &&& 0xfffff000) = .ret (p, m₁) ∧
        Reached m (c.vaddr &&& 0xfffff000) p m₁ := by
  unfold TableComes at h
  rw [← directoryIndex_mask] at h
  obtain ⟨p, m₁, hp⟩ := getPage_ret fun h0 => by
    obtain ⟨pt, m₁, halloc, -⟩ := h h0
    exact ⟨pt, m₁, halloc⟩
  refine ⟨p, m₁, hp, getPage_reached ha (fun h0 pt m' halloc => ?_) hp⟩
  obtain ⟨pt', m'', halloc', hf⟩ := h h0
  rw [halloc] at halloc'
  obtain ⟨rfl, rfl⟩ := Prod.mk.inj (Outcome.ret.inj halloc')
  exact hf

/-- The entry of a page is `e` now, and the other entries are as
before. -/
structure EntryPut (m : Mem) (q : Page) (e : Nat) (m' : Mem) : Prop where
  apart : m'.TablesApart
  table : m'.currentPd.tables q.1 ≠ 0
  entry : ∀ q' : Page, q'.1 < 0x400 →
    m'.entry q' = if q' = q then e else m.entry q'

/-- A table put up on the way changes no other entry. -/
theorem EntryPut.reached (h : EntryPut m₁ q e m') (hr : Reached m a p m₁) :
    EntryPut m q e m' :=
  { h with entry := fun q' hq => by rw [h.entry q' hq, hr.entry q' hq] }

/-- A frame is claimed for an entry of a table that is there. -/
theorem Reached.put {f : Frames} (hr : Reached m a p m₁)
    (hs : SameTables ({ m₁ with frames := f }.setPage p e) m') :
    m'.frames = f ∧ EntryPut m (pageOf a) e m' := by
  rw [hr.ptr] at hs
  refine ⟨hs.frames, ?_, ?_, fun q' hq => ?_⟩
  · unfold TablesApart
    rw [hs.currentPd]
    exact hr.apart
  · rw [hs.currentPd]
    exact hr.table
  · rw [hs.entry, ← hr.entry q' hq]
    exact entry_setPage hr.apart (directoryIndex_lt a) hr.table hq

-- ================================================================ mapping

/-- Mapping a page to a frame of the bitmap: if the frame is free the
page gets it, and else nothing changes. -/
theorem mapAt_outcome {paddr : Nat} (ha : m.TablesApart)
    (ht : TableComes kalloc m (.mapAt v paddr flags))
    (hlt : Frames.index (frameOf paddr) < Frames.index m.frames.nframes) :
    ∃ r m', m.mapAt kalloc v paddr flags = .ret (r, m') ∧
      (m.frames.Unused (frameOf paddr) ∧ r = 1 ∧
          m'.frames = m.frames.marked (frameOf paddr) ∧
          EntryPut m (pageOf v) (claim (paddr &&& 0xfffff000) flags) m'
        ∨ ¬m.frames.Unused (frameOf paddr) ∧ r = 0 ∧
          m'.frames = m.frames ∧
          ∀ q : Page, q.1 < 0x400 → m'.entry q = m.entry q) := by
  obtain ⟨p, m₁, hp, hr⟩ := ht.reached ha
  rw [← hr.frames] at hlt ⊢
  have hfree : m₁.frames.isFree (paddr &&& 0xfffff000)
      = .ret (decide (m₁.frames.Unused (frameOf paddr))) :=
    Frames.isFree_tracked hlt
  have hmark : m₁.frames.markFrame (paddr &&& 0xfffff000)
      = .ret (m₁.frames.marked (frameOf paddr)) :=
    Frames.markFrame_tracked hlt
  dsimp only [PageCall.vaddr] at hp hr
  have hmap : m.mapAt kalloc v paddr flags =
      (m₁.allocFrameAt p (paddr &&& 0xfffff000) flags >>= fun r =>
        .ret (r.1, if r.1 = 0 then r.2 else r.2.mmu (v &&& 0xfffff000) p)) := by
    unfold mapAt
    simp only [hp, Outcome.ret_bind]
  rw [hmap]
  unfold allocFrameAt
  by_cases hu : m₁.frames.Unused (frameOf paddr)
  · rw [hfree, Outcome.ret_bind, decide_eq_true hu, if_pos rfl, hmark]
    have hmmu : SameTables ({ m₁ with
        frames := m₁.frames.marked (frameOf paddr) }.setPage p
          (claim (paddr &&& 0xfffff000) flags)) _ :=
      mmu_same (a := v &&& 0xfffff000) (p := p)
    obtain ⟨hframes, hput⟩ := hr.put hmmu
    rw [pageOf_mask] at hput
    exact ⟨1, _, rfl, .inl ⟨hu, rfl, hframes, hput⟩⟩
  · rw [hfree, Outcome.ret_bind, decide_eq_false hu,
      if_neg Bool.false_ne_true]
    exact ⟨0, _, rfl, .inr ⟨hu, rfl, rfl, hr.entry⟩⟩

-- ============================================================== unmapping

/-- A page with a frame of the bitmap can be unmapped, if the heap takes
its table back where that is left empty. -/
theorem unmap_gives (kalloc : Kalloc) (hp : m.Present (pageOf v))
    (hlt : Frames.index (frameOf (m.entry (pageOf v)))
      < Frames.index m.frames.nframes)
    (ht : m.TakesBack (.unmap v)) :
    ∃ m', Outcome.Gives (fun fuel => m.unmap kalloc fuel v) (1, m') := by
  obtain ⟨d, hd⟩ : ∃ d, d = directoryIndex v := ⟨_, rfl⟩
  obtain ⟨pt, hpt⟩ : ∃ pt, pt = m.currentPd.tables d := ⟨_, rfl⟩
  have htable : pt ≠ 0 := by
    rw [hpt, hd]
    exact table_of_entry hp.ne_zero
  have hentry : m.entry (pageOf v) = m.pages pt (tableIndex v) := by
    rw [hpt, hd]
    exact if_neg (table_of_entry hp.ne_zero)
  rw [hentry] at hlt
  have hne : m.pages pt (tableIndex v) ≠ 0 := hentry ▸ hp.ne_zero
  -- the page is found and its frame given back
  have hget : m.getPage kalloc (v &&& 0xfffff000)
      = .ret ((pt, tableIndex v), m) := by
    unfold getPage
    dsimp only
    rw [directoryIndex_mask, tableIndex_mask, ← hd, ← hpt, if_neg htable]
  obtain ⟨m₁, hfree⟩ : ∃ m₁, m.freeFrame (pt, tableIndex v) = .ret m₁ := by
    have hun : m.frames.unmarkFrame (m.page (pt, tableIndex v) &&& 0xfffff000)
        = .ret _ := Frames.unmarkFrame_tracked hlt
    unfold freeFrame
    rw [hun]
    exact ⟨_, rfl⟩
  have hpd : m₁.currentPd = m.currentPd := by
    obtain ⟨f, -, hfree⟩ := Outcome.bind_eq_ret.mp hfree
    obtain rfl := Outcome.ret.inj hfree
    split <;> rfl
  have hunmap : ∀ fuel, m.unmap kalloc fuel v =
      if m₁.scanTable pt 0x400 0 = 0x400 then do
        let m ← m₁.kheapFree fuel pt sizeofPageTable
        .ret (1, { m with currentPd := { m.currentPd with
          tables := Function.update m.currentPd.tables d 0 } })
      else .ret (1, m₁) := by
    intro fuel
    have hmapped : ¬(pt = 0 ∨ m.pages pt (tableIndex v) = 0) := by
      rw [not_or]
      exact ⟨htable, hne⟩
    unfold unmap
    dsimp only
    rw [← hd, ← hpt, if_neg hmapped, hget, Outcome.ret_bind]
    dsimp only
    rw [hfree, Outcome.ret_bind, hpd, ← hpt]
  by_cases hscan : m₁.scanTable pt 0x400 0 = 0x400
  · have hempty : ∀ t < 0x400, m₁.entry (d, t) = 0 := by
      intro t h
      unfold Mem.entry
      rw [hpd, ← hpt, if_neg htable]
      exact (scanTable_eq rfl).mp hscan t (Nat.zero_le _) h
    obtain ⟨fuel, m₂, hback⟩ : ∃ fuel m₂,
        m₁.kheapFree fuel pt sizeofPageTable = .ret m₂ := by
      rw [hpt, hd] at hfree ⊢
      exact ht m₁ hfree (hd ▸ hempty)
    have hgives : Outcome.Gives
        (fun fuel => m₁.kheapFree fuel pt sizeofPageTable) m₂ :=
      .of_below (fun n hn => kheapFree_below hn) hback
    simp only [hunmap, if_pos hscan]
    exact ⟨_, hgives.bind (.of_eq fun _ => rfl)⟩
  · simp only [hunmap, if_neg hscan]
    exact ⟨_, .of_eq fun _ => rfl⟩

-- ============================================================= the results

/-- Mapping is a point update. On any directory that shares no table and
any bitmap: where the memory for a missing table is fresh, `map` to a
frame of the bitmap gives every address of the page its translation and
the page its flags and leaves every other entry alone, or it answers 0
and leaves all of them and the bitmap alone. `unmap` of a mapped page
makes that page's entry zero and no other, also where the table goes
back to the heap. -/
theorem map_unmap_point (kalloc : Kalloc) (m : Mem) (v : Nat)
    (hv : v < 2 ^ 32) (ha : m.TablesApart) :
    (∀ p flags, flags < 0x1000 →
      Frames.index (frameOf p) < Frames.index m.frames.nframes →
      TableComes kalloc m (.mapAt v p flags) →
        ∃ r m', m.mapAt kalloc v p flags = .ret (r, m') ∧
          ((r = 1 ∧ ∀ w < 2 ^ 32,
              (SamePage v w →
                m'.getPaddr w = (p &&& 0xfffff000) + (w &&& 0xfff) ∧
                m'.entry (pageOf w) &&& 0xfff = PAGE_PRESENT ||| flags) ∧
              (¬SamePage v w → m'.entry (pageOf w) = m.entry (pageOf w)))
            ∨ r = 0 ∧ m'.frames = m.frames ∧
              ∀ w < 2 ^ 32, m'.entry (pageOf w) = m.entry (pageOf w)))
    ∧ (m.Present (pageOf v) →
      (∀ fuel r m', m.unmap kalloc fuel v = .ret (r, m') →
        ∀ w < 2 ^ 32, m'.entry (pageOf w)
          = if SamePage v w then 0 else m.entry (pageOf w)) ∧
      (Frames.index (frameOf (m.entry (pageOf v)))
          < Frames.index m.frames.nframes →
        m.TakesBack (.unmap v) →
          ∃ m', Outcome.Gives (fun fuel => m.unmap kalloc fuel v)
            (1, m'))) := by
  refine ⟨fun p flags hf hlt ht => ?_, fun hp => ⟨fun fuel r m' h w hw => ?_,
    unmap_gives kalloc hp⟩⟩
  · -- the frame was free and is claimed, or nothing has happened
    obtain ⟨r, m', hmap, hcase⟩ := mapAt_outcome ha ht hlt
    refine ⟨r, m', hmap, ?_⟩
    rcases hcase with ⟨-, hr, -, hput⟩ | ⟨-, hr, hframes, hentry⟩
    · refine .inl ⟨hr, fun w hw => ⟨fun hs => ?_, fun hs => ?_⟩⟩
      · have hpage : pageOf w = pageOf v :=
          ((pageOf_eq_iff hv hw).mpr hs).symm
        have he : m'.entry (pageOf w)
            = claim (p &&& 0xfffff000) flags := by
          rw [hput.entry _ (directoryIndex_lt w), if_pos hpage]
        have hdir : directoryIndex w = directoryIndex v :=
          congrArg Prod.fst hpage
        have haddr : p &&& 0xfffff000 = frameOf p * 4096 := by
          rw [and_pageMask, frameOf_eq]
        have hn : frameOf p < 2 ^ 20 := by
          rw [frameOf_eq]
          omega
        refine ⟨?_, ?_⟩
        · rw [getPaddr_eq (hdir ▸ hput.table), he, haddr, frameOf_claim hn hf,
            and_offset, u32_of_lt (by omega)]
        · rw [he, claim_flags, and_offset]
          exact Nat.mod_eq_of_lt
            (Nat.or_lt_two_pow (n := 12) (by decide) hf)
      · rw [hput.entry _ (directoryIndex_lt w), if_neg]
        exact fun hpage => hs ((pageOf_eq_iff hv hw).mp hpage.symm)
    · exact .inr ⟨hr, hframes, fun w _ => hentry _ (directoryIndex_lt w)⟩
  · rw [(unmap_unmapped ha h).entry _ (directoryIndex_lt w) (tableIndex_lt w)]
    -- the page's own entry, or another's
    by_cases hs : SamePage v w
    · rw [if_pos hs, if_pos ((pageOf_eq_iff hv hw).mpr hs).symm]
    · rw [if_neg hs, if_neg]
      exact fun hpage => hs ((pageOf_eq_iff hv hw).mp hpage.symm)

/-- Two pages are mapped, in one table. -/
def twoPages : Mem :=
  { barred with
    frames := { frames := 0, words := fun i => if i = 0 then 6 else 0
                nframes := 64 }
    currentPd := ⟨fun d => if d = 0 then 0x1000 else 0, fun _ => 0⟩
    pages := fun _ j => if j = 1 then 0x1003 else if j = 2 then 0x2003
      else 0 }

/-- The first of them is mapped to another frame, and unmapped. -/
theorem map_unmap_point_twoPages :
    (∃ m', twoPages.mapAt (kheapAlloc 0) 0x1234 0x5678 7 = .ret (1, m') ∧
      m'.getPaddr 0x1abc = 0x5abc ∧ m'.entry (0, 2) = 0x2003) ∧
    ∃ fuel m', twoPages.unmap (kheapAlloc 0) fuel 0x1234 = .ret (1, m') ∧
      m'.entry (0, 1) = 0 ∧ m'.entry (0, 2) = 0x2003 := by
  have ha : twoPages.TablesApart := by
    intro d _ d' _ hne heq
    change (if d = 0 then 0x1000 else 0) ≠ 0 at hne
    change (if d = 0 then 0x1000 else 0)
      = (if d' = 0 then 0x1000 else 0) at heq
    have hd : d = 0 := by
      by_contra hd
      exact hne (if_neg hd)
    rw [if_pos hd] at heq
    by_contra hdd
    rw [if_neg fun hd' => hdd (hd.trans hd'.symm)] at heq
    exact absurd heq (by decide)
  obtain ⟨hmap, hunmap⟩ := map_unmap_point (kheapAlloc 0) twoPages 0x1234
    (by decide) ha
  have hcomes : TableComes (kheapAlloc 0) twoPages (.mapAt 0x1234 0x5678 7) :=
    fun h0 => absurd h0 (by decide)
  refine ⟨?_, ?_⟩
  · obtain ⟨r, m', hret, hcase⟩ := hmap 0x5678 7 (by decide) (by decide) hcomes
    have hr : (twoPages.mapAt (kheapAlloc 0) 0x1234 0x5678 7).holds
        (fun r => r.1 = 1) = true := by decide +kernel
    rw [hret, Outcome.holds_ret, decide_eq_true_eq] at hr
    change r = 1 at hr
    subst hr
    rcases hcase with ⟨-, hw⟩ | ⟨h0, -⟩
    · exact ⟨m', hret, ((hw 0x1abc (by decide)).1 (by decide)).1,
        (hw 0x2000 (by decide)).2 (by decide)⟩
    · exact absurd h0 (by decide)
  · obtain ⟨hany, hgives⟩ := hunmap ⟨by decide, by decide, by decide⟩
    have hback : twoPages.TakesBack (.unmap 0x1234) := by
      intro m₁ hfree hempty
      have htwo : (twoPages.freeFrame (0x1000, 1)).holds
          (fun m => m.entry (0, 2) ≠ 0) = true := by decide +kernel
      have hfree' : twoPages.freeFrame (0x1000, 1) = .ret m₁ := hfree
      rw [hfree', Outcome.holds_ret, decide_eq_true_eq] at htwo
      exact absurd (hempty 2 (by decide)) htwo
    obtain ⟨m', hm'⟩ := hgives (by decide) hback
    obtain ⟨fuel, hret⟩ := hm'.ret
    exact ⟨fuel, m', hret, hany fuel 1 m' hret 0x1000 (by decide),
      hany fuel 1 m' hret 0x2000 (by decide)⟩

end Mem

end Ntibux
