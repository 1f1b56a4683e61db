/-
What bring-up gets right, and where it falls short.

The structures go in a row and are mapped to themselves, with one page
to spare for the page tables that this takes. Two things are not looked
at: whether one page is enough, and whether the zone of the heap, which
is fixed before `free_blocks` is put at the same place, is still clear of
it all (`init_apart_iff`).

The first link word of the heap is written before paging, where the
address of the reserve is a physical one, and read after it, where it is
the reserve's first frame (`init_oneBlock_iff`).
-/
import Ntibux.Mem.Proofs.Bringup

namespace Ntibux

namespace Mem

open Layout

variable {kalloc : Kalloc} {m p : Mem} {ram : Bytes} {q : Page}
  {a d n x kend total highMem fuel : Nat}

-- ================================================================ the boot

/-- What `mem::init` leaves, as numbers. -/
theorem init_laid (ht : u32 (highMem <<< 10) = total)
    (hend : spareEnd kend total ≤ 2 ^ 32)
    (hbring : bringUpEnd kend total < 2 ^ 32)
    (h12 : 12 ≤ Layout.maxOrder total)
    (h : (new ram).init kalloc kend fuel highMem = .ret m) :
    ∃ p, Laid kend total ram p ∧ m = p.enablePaging := by
  have ht32 : total < 2 ^ 32 := by
    rw [← ht]
    exact Nat.mod_lt _ (by decide)
  obtain ⟨s₁, s₂, s₃, s₄, s₅, s₆, h₁, h₂, h₃, h₄, h₅, h₆, rfl⟩ :=
    init_stages h
  have hs₁ := (prepare_prepared ht h₁).stage ht32 hend h12
  have hs₂ := hs₁.image ht32 hend h₂
  rw [newFreeZone_eq hs₂.maxOrder ht32 hs₂.freeZone] at h₅ h₆
  obtain ⟨hs₃, hat, hblocks⟩ := hs₂.blocksPut ht32 hend h12 h₃
  obtain ⟨hs₄, ⟨n, hg⟩, hfits⟩ := hs₃.used ht32 hend hbring h₄
  have hr := hs₄.reserved ht32 hbring h12 h₅
  refine ⟨s₆, hs₄.laid hfits ?_ ?_ hr ?_ h₆, rfl⟩
  · rw [hg.kheap]
    exact hat
  · rw [hg.kheap]
    exact hblocks
  · exact (@zone_bounds kend total ht32 h12).2.1

/-- `mem::init` returns only if the reserve's list is in the table. -/
theorem init_maxOrder (ht : u32 (highMem <<< 10) = total)
    (h : (new ram).init kalloc kend fuel highMem = .ret m) :
    12 ≤ Layout.maxOrder total := by
  obtain ⟨s₁, s₂, s₃, s₄, s₅, s₆, h₁, h₂, h₃, h₄, h₅, h₆, rfl⟩ :=
    init_stages h
  have hp := prepare_prepared ht h₁
  have hs₂ := range_sameHeap hp.off (by simp [imageCall]) h₂
  have hs₃ : s₃.pagingEnabled = false
      ∧ s₃.kheap.minOrder = s₂.kheap.minOrder
      ∧ s₃.kheap.reserveOrder = s₂.kheap.reserveOrder := by
    obtain ⟨⟨b, m₁⟩, halloc, h₃⟩ := Outcome.bind_eq_ret.mp h₃
    obtain ⟨-, rfl⟩ := unpagedAlloc_zeroed halloc
    cases h₃
    exact ⟨hs₂.off, rfl, rfl⟩
  have hs₄ := range_sameHeap hs₃.1 (by simp [usedCall]) h₄
  have hs₅ := range_sameHeap hs₄.off (by simp [reserveCall]) h₅
  have hin := (reservePut_inv h₆).inTable.1
  rw [hs₅.kheap, hs₄.kheap] at hin
  change s₃.kheap.minOrder ≤ s₃.kheap.reserveOrder at hin
  rw [hs₃.2.1, hs₃.2.2, hs₂.kheap] at hin
  change s₁.kheap.minOrder ≤ s₁.kheap.reserveOrder at hin
  rw [hp.minOrder, hp.reserveOrder] at hin
  exact Nat.le_trans hin (Nat.min_le_right _ _)

-- ============================================================ translation

theorem number_pageOf (hx : x < 2 ^ 32) : number (pageOf x) = x / 4096 := by
  unfold number pageOf
  rw [directoryIndex_eq, tableIndex_eq]
  omega

-- =========================================================== what is there

theorem fits_lt (ht : total < 2 ^ 32) (hfits : Layout.Fits kend total) :
    spareEnd kend total + 2 ^ 17 ≤ 2 ^ 32 := by
  unfold Layout.Fits tracked PAGESIZE at hfits
  omega

/-- The tables in use: the kernel's, and those from the spare page on. -/
theorem Laid.table_cases (hl : Laid kend total ram p) (hd : d < 0x400)
    (hne : p.currentPd.tables d ≠ 0) :
    (∃ e, e < regions kend ∧ p.currentPd.tables d
        = tablesAt kend total + 4096 * e)
      ∨ ∃ j < extraTables kend total, p.currentPd.tables d
        = spareAt kend total + 4096 * j := by
  have hle := @regions_le kend total
  have htab := hl.tables d hd
  split at htab
  · rename_i hlt
    by_cases hk : d < regions kend
    · refine .inl ⟨d, hk, ?_⟩
      rw [htab]
      unfold tableAt
      rw [if_pos hk, Nat.add_zero]
    · refine .inr ⟨d - regions kend, ?_, ?_⟩
      · unfold extraTables
        omega
      · rw [htab, tableAt_extra (by omega)]
  · rename_i hge
    split at htab
    · rename_i hdz
      refine .inr ⟨regions (spareEnd kend total) - regions kend, ?_, ?_⟩
      · unfold extraTables
        rw [if_neg (by omega)]
        exact Nat.lt_succ_self _
      · rw [htab, tableAt_extra hle]
    · exact absurd htab hne

/-- There is a table on each page from the spare page on. -/
theorem Laid.extra {j : Nat} (hl : Laid kend total ram p)
    (ht : total < 2 ^ 32) (hj : j < extraTables kend total) :
    ∃ d < 0x400, p.currentPd.tables d = spareAt kend total + 4096 * j := by
  have hle := @regions_le kend total
  have hend := fits_lt ht hl.fits
  have hreg : regions (spareEnd kend total) ≤ 0x400 := by
    unfold regions
    omega
  by_cases hlt : j < regions (spareEnd kend total) - regions kend
  · refine ⟨regions kend + j, by omega, ?_⟩
    rw [hl.tables _ (by omega), if_pos (by omega),
      tableAt_extra (Nat.le_add_right _ _), Nat.add_sub_cancel_left]
  · -- the one for the reserve
    have hzone : zoneAt kend total < 2 ^ 32 := Nat.mod_lt _ (by decide)
    unfold extraTables at hj
    split at hj
    · omega
    · rename_i hge
      refine ⟨zoneAt kend total / 0x400000, by omega, ?_⟩
      rw [hl.tables _ (by omega), if_neg hge, if_pos rfl, tableAt_extra hle]
      congr 2
      omega

/-- What was handed out lies between the image and the end. -/
theorem Laid.handed_bounds (hl : Laid kend total ram p)
    (ht : total < 2 ^ 32) (h12 : 12 ≤ Layout.maxOrder total)
    (hx : p.Handed x) : bitmapAt kend ≤ x ∧ x < bringUpEnd kend total := by
  have hmax := maxOrder_le ht
  have hdir := (le_pageUp (a := bitmapAt kend + bitmapSize total)).1
  change _ ≤ directoryAt kend total at hdir
  have htab : tablesAt kend total = directoryAt kend total + 8192 := rfl
  have hblk : blocksAt kend total
      = tablesAt kend total + 4096 * regions kend := rfl
  have hspare : spareAt kend total = blocksAt kend total + 4096 := rfl
  have hend : bringUpEnd kend total
      = spareAt kend total + 4096 * extraTables kend total := rfl
  rcases hx with hx | hx | hx | ⟨d, hd, hne, hx⟩
  · rw [hl.frames, hl.nframes] at hx
    change _ ∧ x < bitmapAt kend + bitmapSize total at hx
    omega
  · rw [hl.kernelPd] at hx
    unfold sizeofPageDirectory at hx
    omega
  · rw [hl.freeBlocksAt, hl.orders] at hx
    omega
  · unfold sizeofPageTable at hx
    rcases hl.table_cases hd hne with ⟨e, he, htd⟩ | ⟨j, hj, htd⟩
    · rw [htd] at hx
      omega
    · rw [htd] at hx
      omega

/-- A page that the reserve does not take is mapped to itself up to the
end of the spare page. -/
theorem Laid.identity (hl : Laid kend total ram p) (ht : total < 2 ^ 32)
    (hx : x < spareEnd kend total)
    (hno : ¬InReserve kend total (x / 4096)) : p.Identity x := by
  have hend := fits_lt ht hl.fits
  have hnum := number_pageOf (x := x) (by omega)
  have hE := @spareEnd_dvd kend total
  have hlt : x / 4096 < spareEnd kend total / 4096 := by omega
  obtain ⟨hne, hframe⟩ := hl.mapped (pageOf x) (directoryIndex_lt x)
    (tableIndex_lt x) (by rw [hnum]; exact hno) (by rw [hnum]; exact hlt)
  rw [hnum] at hframe
  refine ⟨⟨directoryIndex_lt x, tableIndex_lt x, hne⟩, ?_, ?_, ?_⟩
  · rw [getPaddr_eq (table_of_entry hne), hframe, u32_of_lt (by omega)]
    omega
  · rw [frameOf_eq, hl.nframes]
    have hfits := hl.fits
    unfold Layout.Fits tracked at hfits
    unfold Frames.index
    omega
  · rw [hl.unused, frameOf_eq]
    generalize 2 ^ Layout.reserveOrder total = k
    omega

/-- Past the spare page, only the reserve is mapped. -/
theorem Laid.inReserve (hl : Laid kend total ram p) (hx : x < 2 ^ 32)
    (hge : spareEnd kend total ≤ x) (hp : p.Present (pageOf x)) :
    InReserve kend total (x / 4096) := by
  by_contra hno
  have hnum := number_pageOf hx
  refine hp.ne_zero (hl.unmapped (pageOf x) (directoryIndex_lt x)
    (tableIndex_lt x) (by rw [hnum]; exact hno) ?_)
  rw [hnum]
  exact Nat.div_le_div_right hge

/-- A byte of a reserve page is in the zone. -/
theorem InReserve.in_zone (ht : total < 2 ^ 32)
    (h12 : 12 ≤ Layout.maxOrder total)
    (h : InReserve kend total (x / 4096)) : zoneAt kend total ≤ x
      ∧ x < zoneAt kend total + 2 ^ Layout.maxOrder total := by
  obtain ⟨-, hr4096, -, hrmax, hzone, -⟩ :=
    @zone_bounds kend total ht h12
  have hz4096 := @zone_dvd kend total ht h12
  have hrle : 2 ^ Layout.reserveOrder total ≤ 2 ^ Layout.maxOrder total :=
    Nat.le_of_dvd (Nat.two_pow_pos _) hrmax
  unfold InReserve at h
  omega

-- ====================================================== regions kept apart

/-- The zone begins past the tables, or where 32 bits end. -/
theorem zone_cases (ht : total < 2 ^ 32)
    (h12 : 12 ≤ Layout.maxOrder total)
    (hb : blocksAt kend total ≤ 2 ^ 32) :
    blocksAt kend total ≤ zoneAt kend total ∨ zoneAt kend total = 0 := by
  have hmax := maxOrder_le ht
  have hpow : 2 ^ Layout.maxOrder total ∣ 2 ^ 32 :=
    Nat.pow_dvd_pow 2 (by omega)
  unfold zoneAt
  generalize Layout.maxOrder total = o at hpow
  have hpos : 0 < 2 ^ o := Nat.two_pow_pos o
  obtain ⟨c, hc⟩ : ∃ c, c = (blocksAt kend total + (2 ^ o - 1)) / 2 ^ o
      * 2 ^ o := ⟨_, rfl⟩
  rw [← hc]
  have hdvd : 2 ^ o ∣ c := by
    rw [hc]
    exact Nat.dvd_mul_left _ _
  have hlow : blocksAt kend total + (2 ^ o - 1) < c + 2 ^ o := by
    rw [hc]
    exact Nat.lt_div_mul_add hpos
  have hhigh : c ≤ blocksAt kend total + (2 ^ o - 1) := by
    rw [hc]
    exact Nat.div_mul_le_self _ _
  rcases Nat.lt_trichotomy c (2 ^ 32) with hlt | heq | hgt
  · left
    rw [u32_of_lt hlt]
    omega
  · right
    rw [heq]
    rfl
  · have := add_le_of_dvd_of_lt hpow hdvd hgt
    omega

/-- The regions stay apart exactly if the layout is clear. -/
theorem Laid.regionsApart_iff (hl : Laid kend total ram p)
    (ht : total < 2 ^ 32) (h20 : 2 ^ 20 ≤ total)
    (h12 : 12 ≤ Layout.maxOrder total) :
    p.RegionsApart ↔ Clear kend total := by
  obtain ⟨hmax, hr4096, -, hrmax, hzone, hztop⟩ :=
    @zone_bounds kend total ht h12
  have hz4096 := @zone_dvd kend total ht h12
  have hend := fits_lt ht hl.fits
  have hspare : spareEnd kend total = spareAt kend total + 4096 := rfl
  have hblk : spareAt kend total = blocksAt kend total + 4096 := rfl
  have hup : bringUpEnd kend total
      = spareAt kend total + 4096 * extraTables kend total := rfl
  constructor
  · intro h
    have hfree : ∀ x, p.Handed x → ¬(zoneAt kend total ≤ x
        ∧ x < zoneAt kend total + 2 ^ Layout.maxOrder total) := by
      intro x hx
      have hout := h.outside x hx
      rw [hl.freeZone, hl.maxOrder] at hout
      exact hout
    have hextra : ∀ j < extraTables kend total,
        p.Handed (spareAt kend total + 4096 * j) := by
      intro j hj
      obtain ⟨d, hd, htd⟩ := hl.extra ht hj
      refine .inr (.inr (.inr ⟨d, hd, ?_, ?_, ?_⟩))
      · rw [htd]
        omega
      · exact Nat.le_of_eq htd
      · rw [htd]
        unfold sizeofPageTable
        omega
    refine ⟨?_, ?_⟩
    · -- a second table is past the spare page: not mapped, or the reserve
      by_contra hk
      have hx := hextra 1 (by omega)
      rw [Nat.mul_one, ← hspare] at hx
      have hin := hl.inReserve (by omega) (Nat.le_refl _)
        (h.identity _ hx).present
      exact hfree _ hx (hin.in_zone ht h12)
    · by_contra hno
      rw [not_or, Nat.not_le, Nat.not_le] at hno
      obtain ⟨hlow, hhigh⟩ := hno
      rcases @zone_cases kend total ht h12 (by omega) with hge | h0
      · rcases Nat.eq_or_lt_of_le hge with heq | hgt
        · -- `free_blocks` is the beginning of the zone
          refine hfree (blocksAt kend total) (.inr (.inr (.inl ⟨?_, ?_⟩))) ?_
          · exact Nat.le_of_eq hl.freeBlocksAt
          · rw [hl.freeBlocksAt, hl.orders]
            omega
          · rw [heq]
            exact ⟨Nat.le_refl _, Nat.lt_add_of_pos_right
              (Nat.two_pow_pos _)⟩
        · -- a table is
          have hdir : 4096 ∣ directoryAt kend total := pageUp_dvd
          have hb4096 : 4096 ∣ blocksAt kend total := by
            unfold blocksAt tablesAt sizeofPageDirectory
            omega
          refine hfree _ (hextra ((zoneAt kend total - spareAt kend total)
            / 4096) (by omega)) ?_
          have hpos := Nat.two_pow_pos (Layout.maxOrder total)
          omega
      · -- the zone begins at address 0 and reaches up to the bitmap
        refine hfree (bitmapAt kend) (.inl ⟨?_, ?_⟩) ?_
        · exact Nat.le_of_eq hl.frames
        · rw [hl.frames, hl.nframes]
          unfold PAGESIZE Frames.index
          omega
        · omega
  · intro h
    obtain ⟨hk, hclear⟩ := h
    have hfree : ∀ x, p.Handed x → ¬(zoneAt kend total ≤ x
        ∧ x < zoneAt kend total + 2 ^ Layout.maxOrder total) := by
      intro x hx
      have hbounds := hl.handed_bounds ht h12 hx
      omega
    refine ⟨?_, ?_⟩
    · intro x hx
      have hbounds := hl.handed_bounds ht h12 hx
      refine hl.identity ht (by omega) ?_
      intro hin
      exact hfree x hx (hin.in_zone ht h12)
    · intro x hx
      rw [hl.freeZone, hl.maxOrder]
      exact hfree x hx

/-- Where things are is in the directory before the CPU looks at it. -/
theorem enablePaging_identity : p.enablePaging.Identity x ↔ p.Identity x :=
  ⟨fun h => ⟨⟨h.present.dir_lt, h.present.table_lt, h.present.ne_zero⟩,
      h.paddr, ⟨h.marked.tracked, h.marked.used⟩⟩,
    fun h => ⟨⟨h.present.dir_lt, h.present.table_lt, h.present.ne_zero⟩,
      h.paddr, ⟨h.marked.tracked, h.marked.used⟩⟩⟩

theorem enablePaging_regionsApart :
    p.enablePaging.RegionsApart ↔ p.RegionsApart := by
  constructor
  · intro h
    exact ⟨fun x hx => enablePaging_identity.mp (h.identity x hx), h.outside⟩
  · intro h
    exact ⟨fun x hx => enablePaging_identity.mpr (h.identity x hx),
      h.outside⟩

-- ======================================================== the first block

/-- The flags of a directory entry stay out of its address. -/
theorem or_seven_mask {t : Nat} (hd : 4096 ∣ t) (ht : t < 2 ^ 32) :
    (t ||| 7) &&& 0xfffff000 = t := by
  obtain ⟨c, rfl⟩ := hd
  have hor : 4096 * c ||| 7 = 4096 * c + 7 :=
    (Nat.two_pow_add_eq_or_of_lt (i := 12) (by decide) c).symm
  rw [hor, and_pageMask]
  omega

/-- After paging is on, the first word of the zone is that of the
reserve's first frame. -/
theorem Laid.load_zone (hl : Laid kend total ram p) (ht : total < 2 ^ 32)
    (h12 : 12 ≤ Layout.maxOrder total) (hsep : Separate kend total) :
    p.enablePaging.load (zoneAt kend total)
      = (ram.write32 (zoneAt kend total) 0).read32
        (spareEnd kend total) := by
  obtain ⟨hk, habove⟩ := hsep
  obtain ⟨hmax, hr4096, -, hrmax, hzone, hztop⟩ :=
    @zone_bounds kend total ht h12
  have hz4096 := @zone_dvd kend total ht h12
  have hend := fits_lt ht hl.fits
  have hE := @spareEnd_dvd kend total
  have hspare : spareEnd kend total = spareAt kend total + 4096 := rfl
  have hup : bringUpEnd kend total
      = spareAt kend total + 4096 * extraTables kend total := rfl
  refine (Bytes.read32_moved (b := p.bytes) (a := spareEnd kend total)
    ?_).trans (Bytes.read32_congr fun x h1 _ => hl.bytes x (.inr (by omega)))
  intro i hi
  have hx : zoneAt kend total + i < 2 ^ 32 := by
    have hpos := Nat.le_of_dvd (Nat.two_pow_pos _) hrmax
    have := Nat.le_of_dvd (Nat.two_pow_pos _) hr4096
    omega
  have hnum : number (pageOf (zoneAt kend total + i))
      = zoneAt kend total / 4096 := by
    rw [number_pageOf hx]
    omega
  have hin : InReserve kend total
      (number (pageOf (zoneAt kend total + i))) := by
    have := Nat.le_of_dvd (Nat.two_pow_pos _) hr4096
    rw [hnum]
    refine ⟨Nat.le_refl _, Nat.lt_add_of_pos_right ?_⟩
    exact Nat.div_pos this (by decide)
  have hentry := hl.reserve (pageOf (zoneAt kend total + i))
    (directoryIndex_lt _) (tableIndex_lt _) hin
  rw [hnum, Nat.sub_self, Nat.add_zero] at hentry
  have hne : p.entry (pageOf (zoneAt kend total + i)) ≠ 0 := by
    rw [hentry]
    exact claim_ne_zero _ _
  have htab := table_of_entry hne
  -- the CPU finds the table the kernel uses
  have hpt : p.currentPd.paddrs (directoryIndex (zoneAt kend total + i))
      &&& 0xfffff000
      = p.currentPd.tables (directoryIndex (zoneAt kend total + i)) := by
    rw [hl.paddrs _ (directoryIndex_lt _) htab]
    have hdir : 4096 ∣ directoryAt kend total := pageUp_dvd
    have hblk : spareAt kend total
        = tablesAt kend total + 4096 * regions kend + 4096 := rfl
    have htabs : tablesAt kend total = directoryAt kend total + 8192 := rfl
    rcases hl.table_cases (directoryIndex_lt _) htab with ⟨e, he, htd⟩
      | ⟨j, hj, htd⟩
    · exact or_seven_mask (by rw [htd]; omega) (by rw [htd]; omega)
    · exact or_seven_mask (by rw [htd]; omega) (by rw [htd]; omega)
  have hpage : p.pages (p.currentPd.tables (directoryIndex
      (zoneAt kend total + i))) (tableIndex (zoneAt kend total + i))
      = p.entry (pageOf (zoneAt kend total + i)) := (if_neg htab).symm
  have hmask : (zoneAt kend total + i) &&& 0xfff
      = (zoneAt kend total + i) % 4096 :=
    Nat.and_two_pow_sub_one_eq_mod _ 12
  have haddr : (p.entry (pageOf (zoneAt kend total + i)) &&& 0xfffff000)
      = spareEnd kend total := by
    have hfr := @frameOf_claim (spareEnd kend total / 4096)
      MAP_KERNEL_DATA (by omega) (by decide)
    rw [hentry, and_pageMask, ← frameOf_eq, hfr]
    omega
  show p.bytes ((p.pages (p.currentPd.paddrs _ &&& 0xfffff000) _
    &&& 0xfffff000) + _) = _
  rw [hpt, hpage, haddr, hmask]
  have hlow : (zoneAt kend total + i) % 4096 = i := by omega
  rw [hlow]

/-- The heap's lists after bring-up hang on one word. -/
theorem Laid.oneBlock_iff (hl : Laid kend total ram p) (ht : total < 2 ^ 32)
    (h12 : 12 ≤ Layout.maxOrder total) (hsep : Separate kend total) :
    p.enablePaging.OneBlock ↔ LinkReads kend total ram := by
  have hload := hl.load_zone ht h12 hsep
  obtain ⟨-, hr4096, -, hrmax, hzone, -⟩ :=
    @zone_bounds kend total ht h12
  have hz4096 := @zone_dvd kend total ht h12
  have hE := @spareEnd_dvd kend total
  -- the link is read at the reserve's first frame, and written at its address
  have hzero : (ram.write32 (zoneAt kend total) 0).read32
      (spareEnd kend total) = 0 ↔ LinkReads kend total ram := by
    unfold LinkReads
    by_cases heq : zoneAt kend total = spareEnd kend total
    · rw [heq, Bytes.read32_write32_self (by decide)]
      exact iff_of_true rfl (.inl rfl)
    · rw [Bytes.read32_write32_of_apart (by omega), or_iff_right heq]
  have hhead : p.kheap.head p.kheap.reserveOrder = zoneAt kend total := by
    unfold Kheap.head
    rw [hl.freeBlocks, hl.reserveOrder, hl.minOrder, Function.update_self]
  have hzne : zoneAt kend total ≠ 0 := by
    have h := hsep.2
    unfold bringUpEnd spareAt at h
    omega
  rw [← hzero, ← hload]
  constructor
  · intro h
    have hc : Chain p.enablePaging.load (p.kheap.head p.kheap.reserveOrder)
        [p.kheap.freeZone] := h.reserve
    rw [hl.freeZone] at hc
    exact hc.2.2
  · intro h0
    refine ⟨?_, ?_⟩
    · show Chain _ (p.kheap.head p.kheap.reserveOrder) [p.kheap.freeZone]
      rw [hhead, hl.freeZone]
      exact ⟨rfl, hzne, h0⟩
    · intro k hk hne
      obtain ⟨hmin, -⟩ := hk
      change p.kheap.minOrder ≤ k at hmin
      change k ≠ p.kheap.reserveOrder at hne
      show p.kheap.head k = 0
      rw [hl.minOrder] at hmin
      rw [hl.reserveOrder] at hne
      have hr12 : 12 ≤ Layout.reserveOrder total := by
        unfold Layout.reserveOrder
        omega
      unfold Kheap.head
      rw [hl.freeBlocks, hl.minOrder, Function.update_of_ne (by omega)]

-- ============================================================= the results

/-- With memory and room enough, what bring-up hands out stays mapped to
itself and out of the heap's zone exactly if its layout is clear.

`init_laid` has the memory behind bring-up, store by store, as a function of
the layout alone. Turning paging on keeps the regions where they are, so
that the question is one about intervals. -/
theorem init_apart_iff (ht : u32 (highMem <<< 10) = total)
    (h20 : 2 ^ 20 ≤ total) (hfit : Layout.Fits kend total)
    (h : (new ram).init kalloc kend fuel highMem = .ret m) :
    m.RegionsApart ↔ Clear kend total := by
  have ht32 : total < 2 ^ 32 := by
    rw [← ht]
    exact Nat.mod_lt _ (by decide)
  have h12 := init_maxOrder ht h
  have hend := fits_lt ht32 hfit
  have hbring : bringUpEnd kend total < 2 ^ 32 := by
    obtain ⟨-, -, -, -, -, hsmall⟩ :=
      @layout_bounds kend total ht32 (by omega)
    have hk : kend ≤ bitmapAt kend ∧ bitmapAt kend ≤ kend + 0xfff :=
      le_pageUp
    have hspare : spareEnd kend total = spareAt kend total + 4096 := rfl
    have hextra : extraTables kend total ≤ 4 := by
      unfold extraTables regions
      split <;> omega
    unfold bringUpEnd
    omega
  obtain ⟨p, hl, rfl⟩ := init_laid ht (by omega) hbring h12 h
  exact enablePaging_regionsApart.trans (hl.regionsApart_iff ht32 h20 h12)

/-- An 8 MiB machine with the kernel image up to 0x120000. -/
theorem init_apart_iff_small : ∃ m, (new fun _ => 0).init (kheapAlloc 0)
    0x120000 2000 7168 = .ret m ∧ m.RegionsApart := by
  have hcheck : ((new fun _ => 0).init (kheapAlloc 0) 0x120000 2000
      7168).holds (fun _ => true) = true := by
    decide +kernel
  obtain ⟨m, hboot, -⟩ := Outcome.holds_iff.mp hcheck
  refine ⟨m, hboot, (@init_apart_iff _ _ _ _ 7340032 _ _ rfl (by decide) ?_
    hboot).mpr ?_⟩
  · unfold Layout.Fits
    decide
  · unfold Clear
    decide +kernel

/-- The same machine with a kernel image up to 0x1fc000: `free_blocks`
is put where the heap's zone begins. -/
theorem init_overlaps : ∃ m, (new fun _ => 0).init (kheapAlloc 0)
    0x1fc000 2000 7168 = .ret m ∧ Layout.Fits 0x1fc000 (u32 (7168 <<< 10))
    ∧ 2 ^ 20 ≤ u32 (7168 <<< 10)
    ∧ m.kheap.freeBlocksAt = m.kheap.freeZone ∧ ¬m.RegionsApart := by
  have hcheck : ((new fun _ => 0).init (kheapAlloc 0) 0x1fc000 2000
      7168).holds (fun m => decide (m.kheap.freeBlocksAt = m.kheap.freeZone
        ∧ 0 < m.kheap.orders)) = true := by
    decide +kernel
  obtain ⟨m, hboot, hm⟩ := Outcome.holds_iff.mp hcheck
  obtain ⟨hat, horders⟩ := of_decide_eq_true hm
  refine ⟨m, hboot, ?_, by decide, hat, ?_⟩
  · unfold Layout.Fits
    decide
  · intro h
    refine h.outside m.kheap.freeBlocksAt (.inr (.inr (.inl ⟨?_, ?_⟩))) ?_
    · exact Nat.le_refl _
    · omega
    · rw [hat]
      exact ⟨Nat.le_refl _, Nat.lt_add_of_pos_right (Nat.two_pow_pos _)⟩

/-- Whatever RAM holds, bring-up leaves the reserve as the heap's one
block exactly if the link word that it wrote is the one that is read.

The link of the one block is stored at a physical address while paging is
off and read through the mapping when it is on. Where the two are the same
place, or the word there is 0 all the same, the list ends. -/
theorem init_oneBlock_iff (ht : u32 (highMem <<< 10) = total)
    (hsep : Separate kend total)
    (h : (new ram).init kalloc kend fuel highMem = .ret m) :
    m.OneBlock ↔ LinkReads kend total ram := by
  have ht32 : total < 2 ^ 32 := by
    rw [← ht]
    exact Nat.mod_lt _ (by decide)
  have h12 := init_maxOrder ht h
  obtain ⟨hmax, hr4096, -, hrmax, -, hztop⟩ :=
    @zone_bounds kend total ht32 h12
  have hpos := Nat.le_of_dvd (Nat.two_pow_pos _)
    (Nat.dvd_trans hr4096 hrmax)
  have hspare : spareEnd kend total = spareAt kend total + 4096 := rfl
  have hup : bringUpEnd kend total
      = spareAt kend total + 4096 * extraTables kend total := rfl
  have habove := hsep.2
  obtain ⟨p, hl, rfl⟩ := init_laid ht (by omega) (by omega) h12 h
  exact hl.oneBlock_iff ht32 h12 hsep

/-- On an 8 MiB machine whose RAM reads zero. -/
theorem init_oneBlock_iff_small : ∃ m, (new fun _ => 0).init
    (kheapAlloc 0) 0x120000 2000 7168 = .ret m ∧ m.OneBlock := by
  have hcheck : ((new fun _ => 0).init (kheapAlloc 0) 0x120000 2000
      7168).holds (fun _ => true) = true := by
    decide +kernel
  obtain ⟨m, hboot, -⟩ := Outcome.holds_iff.mp hcheck
  refine ⟨m, hboot, (@init_oneBlock_iff _ _ _ _ 7340032 _ _ rfl ?_
    hboot).mpr (.inr rfl)⟩
  unfold Separate
  decide +kernel

/-- On one whose RAM does not, the list goes on into what the reserve's
first frame happened to hold. -/
theorem init_garbage : ∃ m, (new fun _ => 1).init (kheapAlloc 0) 0x120000
    2000 7168 = .ret m ∧ Separate 0x120000 (u32 (7168 <<< 10))
    ∧ m.load m.kheap.freeZone = 0x1010101 ∧ ¬m.OneBlock := by
  have hcheck : ((new fun _ => 1).init (kheapAlloc 0) 0x120000 2000
      7168).holds (fun m => decide (m.load m.kheap.freeZone = 0x1010101))
        = true := by
    decide +kernel
  obtain ⟨m, hboot, hm⟩ := Outcome.holds_iff.mp hcheck
  have hload := of_decide_eq_true hm
  refine ⟨m, hboot, ?_, hload, ?_⟩
  · unfold Separate
    decide +kernel
  · intro h
    have h0 : m.load m.kheap.freeZone = 0 := h.reserve.2.2
    rw [hload] at h0
    exact absurd h0 (by decide)

end Mem

end Ntibux
