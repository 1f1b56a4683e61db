/-
What bring-up leaves.

Both identity-mapping calls map one more page to the frame of its own
number, from page 0 on without a gap, so one invariant says where either
of them is (`Identified`): how many pages are mapped, and with them the
marked frames and the page tables. The reserve then takes the frames that
follow, one by one (`Reserved`).
-/
import Ntibux.Mem.Proofs.Boot
import Ntibux.Lib.Dyadic

namespace Ntibux

namespace Mem

open Layout

variable {kalloc : Kalloc} {m m' m₀ m₁ : Mem} {ram : Bytes}
  {slot : Nat → Nat} {q : Page}
  {a d e n x z kend total highMem fuel flags range : Nat}

-- ============================================================ page numbers

/-- The number of a page. -/
def number (q : Page) : Nat := q.1 * 0x400 + q.2

/-- The tables that the first `x` pages have their entries in. -/
def tableCount (x : Nat) : Nat := (x + 0x3ff) / 0x400

theorem pageOf_mul (hx : x < 2 ^ 20) :
    pageOf (4096 * x) = (x / 0x400, x % 0x400) := by
  unfold pageOf
  rw [directoryIndex_eq, tableIndex_eq]
  congr 1 <;> omega

theorem eq_pageOf_mul_iff (hx : x < 2 ^ 20) (hq : q.2 < 0x400) :
    q = pageOf (4096 * x) ↔ number q = x := by
  obtain ⟨d, t⟩ := q
  rw [pageOf_mul hx, Prod.mk.injEq]
  unfold number
  simp only at hq ⊢
  omega

theorem frameOf_mul (hx : x < 2 ^ 20) : frameOf (4096 * x) = x := by
  rw [frameOf_eq]
  omega

-- ======================================================== identity mapping

/-- Addresses for page tables, each entry of the directory its own. -/
structure Slots (slot : Nat → Nat) : Prop where
  ne_zero : ∀ d, slot d ≠ 0
  inj : ∀ d d', slot d = slot d' → d = d'

/-- The first `x` pages are mapped to their own frames, and that is
all. -/
structure Identified (slot : Nat → Nat) (x : Nat) (m : Mem) : Prop where
  off : m.pagingEnabled = false
  apart : m.TablesApart
  tables : ∀ d < 0x400,
    m.currentPd.tables d = if d < tableCount x then slot d else 0
  paddrs : ∀ d < 0x400, d < tableCount x →
    m.currentPd.paddrs d = slot d ||| 7
  mapped : ∀ q : Page, q.1 < 0x400 → q.2 < 0x400 → number q < x →
    m.entry q ≠ 0 ∧ frameOf (m.entry q) = number q
  unmapped : ∀ q : Page, q.1 < 0x400 → q.2 < 0x400 → x ≤ number q →
    m.entry q = 0
  unused : ∀ n, m.frames.Unused n ↔ x ≤ n

/-- The next page's table is there, or its memory is fresh. -/
theorem Identified.ready (hi : Identified slot x m) (hs : Slots slot)
    (hx : x < 2 ^ 20) (hz : x % 0x400 = 0 →
      m.kheap.freeZone = slot (x / 0x400) ∧ 4096 ∣ m.kheap.freeZone
        ∧ m.kheap.freeZone + 4096 < 2 ^ 32) : m.Ready (4096 * x) := by
  intro h0
  have hd : directoryIndex (4096 * x) = x / 0x400 :=
    congrArg Prod.fst (pageOf_mul hx)
  rw [hd, hi.tables _ (by omega)] at h0
  have hfirst : x % 0x400 = 0 := by
    by_contra hne
    rw [if_pos (by unfold tableCount; omega)] at h0
    exact hs.ne_zero _ h0
  obtain ⟨heq, hdvd, hlt⟩ := hz hfirst
  refine ⟨?_, hdvd, hlt, ?_⟩
  · rw [heq]
    exact hs.ne_zero _
  · intro d hd
    rw [heq, hi.tables d hd]
    split
    · rename_i hlt
      intro hdd
      have := hs.inj _ _ hdd
      unfold tableCount at hlt
      omega
    · exact (hs.ne_zero _).symm

/-- The next page is mapped to its own frame. -/
theorem Identified.put (hi : Identified slot x m) (hs : Slots slot)
    (hx : x < 2 ^ 20) (hf : flags < 0x1000)
    (hz : x % 0x400 = 0 → m.kheap.freeZone = slot (x / 0x400))
    (hp : Put m (4096 * x) x flags m') :
    Identified slot (x + 1) m'
      ∧ Grew (tableCount (x + 1) - tableCount x) m m' := by
  have hd : directoryIndex (4096 * x) = x / 0x400 :=
    congrArg Prod.fst (pageOf_mul hx)
  have hd400 : x / 0x400 < 0x400 := by omega
  have hold := hp.old
  have hnew := hp.new
  rw [hd] at hold hnew
  -- the directory
  have hpd : m'.pagingEnabled = false
      ∧ (∀ d < 0x400, m'.currentPd.tables d
        = if d < tableCount (x + 1) then slot d else 0)
      ∧ (∀ d < 0x400, d < tableCount (x + 1) →
        m'.currentPd.paddrs d = slot d ||| 7)
      ∧ Grew (tableCount (x + 1) - tableCount x) m m' := by
    by_cases hfirst : x % 0x400 = 0
    · have hc : tableCount x = x / 0x400 := by
        unfold tableCount
        omega
      have hc' : tableCount (x + 1) = x / 0x400 + 1 := by
        unfold tableCount
        omega
      have h0 : m.currentPd.tables (x / 0x400) = 0 := by
        rw [hi.tables _ hd400, if_neg (by omega)]
      obtain ⟨ht, ha, hg⟩ := hnew h0
      rw [hz hfirst] at ht ha
      rw [hc, hc', Nat.add_sub_cancel_left]
      refine ⟨hg.off, ?_, ?_, hg⟩
      · intro d hd
        rw [ht]
        by_cases hdx : d = x / 0x400
        · rw [hdx, Function.update_self, if_pos (by omega)]
        · rw [Function.update_of_ne hdx, hi.tables d hd, hc]
          by_cases hlt : d < x / 0x400
          · rw [if_pos hlt, if_pos (by omega)]
          · rw [if_neg hlt, if_neg (by omega)]
      · intro d hd hlt
        rw [ha]
        by_cases hdx : d = x / 0x400
        · rw [hdx, Function.update_self]
        · rw [Function.update_of_ne hdx]
          exact hi.paddrs d hd (by omega)
    · have hc : tableCount (x + 1) = tableCount x := by
        unfold tableCount
        omega
      have hne : m.currentPd.tables (x / 0x400) ≠ 0 := by
        rw [hi.tables _ hd400, if_pos (by unfold tableCount; omega)]
        exact hs.ne_zero _
      obtain ⟨hcur, hg⟩ := hold hne
      rw [hc, Nat.sub_self, hcur]
      exact ⟨hg.off, hi.tables, hi.paddrs, hg⟩
  obtain ⟨hoff, htables, hpaddrs, hgrew⟩ := hpd
  refine ⟨⟨hoff, hp.apart, htables, hpaddrs, ?_, ?_, ?_⟩, hgrew⟩
  · intro q hq hq' hlt
    rw [hp.entry q hq]
    split
    · rename_i heq
      rw [(eq_pageOf_mul_iff hx hq').mp heq]
      exact ⟨claim_ne_zero _ _, frameOf_claim hx hf⟩
    · rename_i hne
      rw [eq_pageOf_mul_iff hx hq'] at hne
      exact hi.mapped q hq hq' (by omega)
  · intro q hq hq' hle
    rw [hp.entry q hq, if_neg]
    · exact hi.unmapped q hq hq' (by omega)
    · rw [eq_pageOf_mul_iff hx hq']
      omega
  · intro n
    rw [hp.unused, hi.unused]
    omega

/-- The pages that a range call comes to. -/
theorem comes_le {r : RangeCall} (hc : r.Comes kalloc m n m₁) :
    n / 4096 ≤ (r.range + 0xfff) / 4096 := by
  have hd := hc.dvd
  rcases Nat.eq_zero_or_pos n with h0 | hpos
  · omega
  · have := hc.lt_range (i := n - 4096) (by omega) (by omega)
    omega

/-- The turns of an identity-mapping call. -/
theorem Identified.comes (hi : Identified slot x m) (hs : Slots slot)
    (hf : flags < 0x1000) (he : e = x + (range + 0xfff) / 4096)
    (he20 : e ≤ 2 ^ 20) (hdvd : 4096 ∣ m.kheap.freeZone)
    (hz : ∀ d, tableCount x ≤ d → d < tableCount e →
      slot d = m.kheap.freeZone + 4096 * (d - tableCount x))
    (hlt : m.kheap.freeZone + 4096 * (tableCount e - tableCount x) < 2 ^ 32)
    (hc : (RangeCall.mapAt (4096 * x) (4096 * x) range flags).Comes kalloc
      m n m₁) :
    Identified slot (x + n / 4096) m₁
      ∧ Grew (tableCount (x + n / 4096) - tableCount x) m m₁
      ∧ (0 < n → Frames.index (x + n / 4096 - 1)
        < Frames.index m.frames.nframes) := by
  induction hc with
  | start =>
      rw [Nat.zero_div, Nat.add_zero, Nat.sub_self]
      exact ⟨hi, Grew.refl hi.off, fun h => absurd h (Nat.lt_irrefl 0)⟩
  | @next n m₁ m₂ hn hc hd ih =>
      obtain ⟨hi₁, hg₁, -⟩ := ih
      have hdn := hc.dvd
      change n < range at hn
      -- the page of this turn
      obtain ⟨y, hy⟩ : ∃ y, y = x + n / 4096 := ⟨_, rfl⟩
      have hye : y < e := by omega
      have hnext : x + (n + PAGESIZE) / 4096 = y + 1 := by
        unfold PAGESIZE
        omega
      rw [← hy] at hi₁ hg₁
      rw [hnext]
      have hv : u32 ((4096 * x &&& 0xfffff000) + n) = 4096 * y := by
        rw [pageMask_of_dvd (Nat.dvd_mul_right _ _) (by omega),
          u32_of_lt (by omega)]
        omega
      obtain ⟨res, hd⟩ := hd
      simp only [hv] at hd
      have hfz := hg₁.freeZone
      have hslot : y % 0x400 = 0 → m₁.kheap.freeZone = slot (y / 0x400)
          ∧ 4096 ∣ m₁.kheap.freeZone
          ∧ m₁.kheap.freeZone + 4096 < 2 ^ 32 := by
        intro hfirst
        have hcy : tableCount y = y / 0x400 := by
          unfold tableCount
          omega
        have hcx : tableCount x ≤ y / 0x400 := by
          unfold tableCount
          omega
        have hce : y / 0x400 < tableCount e := by
          unfold tableCount
          omega
        rw [hfz, hz _ hcx hce, hcy]
        omega
      have hu : m₁.frames.Unused (frameOf (4096 * y)) := by
        rw [frameOf_mul (by omega), hi₁.unused]
      have hp := mapAt_put hi₁.off hi₁.apart
        (hi₁.ready hs (by omega) hslot) hu hd
      rw [frameOf_mul (by omega)] at hp
      obtain ⟨hi₂, hg₂⟩ := hi₁.put hs (by omega) hf
        (fun h => (hslot h).1) hp
      refine ⟨hi₂, ?_, fun _ => ?_⟩
      · have hsum : tableCount (y + 1) - tableCount x
            = (tableCount y - tableCount x)
              + (tableCount (y + 1) - tableCount y) := by
          unfold tableCount
          omega
        rw [hsum]
        exact hg₁.trans hg₂
      · rw [← hg₁.nframes, Nat.add_sub_cancel]
        exact hp.tracked

/-- An identity-mapping call that returns. -/
theorem Identified.does (hi : Identified slot x m) (hs : Slots slot)
    (hf : flags < 0x1000) (he : e = x + (range + 0xfff) / 4096)
    (he20 : e ≤ 2 ^ 20) (hdvd : 4096 ∣ m.kheap.freeZone)
    (hz : ∀ d, tableCount x ≤ d → d < tableCount e →
      slot d = m.kheap.freeZone + 4096 * (d - tableCount x))
    (hlt : m.kheap.freeZone + 4096 * (tableCount e - tableCount x) < 2 ^ 32)
    (h : (RangeCall.mapAt (4096 * x) (4096 * x) range flags).Does kalloc
      m m') :
    Identified slot e m' ∧ Grew (tableCount e - tableCount x) m m'
      ∧ (x < e → Frames.index (e - 1) < Frames.index m.frames.nframes) := by
  obtain ⟨n, hc, hn⟩ := h.comes
  have hle := comes_le hc
  have hdn := hc.dvd
  change range ≤ n at hn
  change n / 4096 ≤ (range + 0xfff) / 4096 at hle
  have hend : x + n / 4096 = e := by omega
  obtain ⟨hi', hg, htr⟩ := hi.comes hs hf he he20 hdvd hz hlt hc
  rw [hend] at hi' hg htr
  exact ⟨hi', hg, fun hxe => htr (by omega)⟩

-- ============================================================= the reserve

/-- `i` pages from page `N` on have the frames from `x` on. -/
structure Reserved (m₀ : Mem) (N x i : Nat) (m : Mem) : Prop where
  off : m.pagingEnabled = false
  apart : m.TablesApart
  entry : ∀ q : Page, q.1 < 0x400 → q.2 < 0x400 →
    m.entry q = if N ≤ number q ∧ number q < N + i
      then claim ((x + (number q - N)) * 4096) MAP_KERNEL_DATA
      else m₀.entry q
  unused : ∀ n, m.frames.Unused n ↔ x + i ≤ n
  old : i = 0 ∨ m₀.currentPd.tables (N / 0x400) ≠ 0 →
    m.currentPd = m₀.currentPd ∧ Grew 0 m₀ m
  new : 0 < i → m₀.currentPd.tables (N / 0x400) = 0 →
    m.currentPd.tables = Function.update m₀.currentPd.tables
        (N / 0x400) m₀.kheap.freeZone
      ∧ m.currentPd.paddrs = Function.update m₀.currentPd.paddrs
        (N / 0x400) (m₀.kheap.freeZone ||| 7)
      ∧ Grew 1 m₀ m

/-- One page more of the reserve. -/
theorem Reserved.put {N i k : Nat} (hr : Reserved m₀ N x i m)
    (hN : N + i < 2 ^ 20) (hreg : (N + i) / 0x400 = N / 0x400)
    (hne : m₀.kheap.freeZone ≠ 0)
    (hp : Put m (4096 * (N + i)) k MAP_KERNEL_DATA m')
    (hk : ∀ j < k, ¬m.frames.Unused j) : Reserved m₀ N x (i + 1) m' := by
  have hd : directoryIndex (4096 * (N + i)) = N / 0x400 := by
    rw [← hreg]
    exact congrArg Prod.fst (pageOf_mul hN)
  have hold := hp.old
  have hnew := hp.new
  rw [hd] at hold hnew
  -- the frame is the next one
  obtain rfl : k = x + i := by
    have hle := (hr.unused k).mp hp.free
    by_contra hne
    exact hk (x + i) (by omega) ((hr.unused _).mpr (Nat.le_refl _))
  have hoff : m'.pagingEnabled = false := by
    by_cases h0 : m.currentPd.tables (N / 0x400) = 0
    · exact (hnew h0).2.2.off
    · exact (hold h0).2.off
  refine ⟨hoff, hp.apart, ?_, ?_, ?_, ?_⟩
  · intro q hq hq'
    rw [hp.entry q hq]
    by_cases heq : q = pageOf (4096 * (N + i))
    · have hnum := (eq_pageOf_mul_iff hN hq').mp heq
      rw [if_pos heq, if_pos (by omega), hnum, Nat.add_sub_cancel_left]
    · have hnum := heq
      rw [eq_pageOf_mul_iff hN hq'] at hnum
      rw [if_neg heq, hr.entry q hq hq']
      by_cases hin : N ≤ number q ∧ number q < N + i
      · rw [if_pos hin, if_pos (by omega)]
      · rw [if_neg hin, if_neg (by omega)]
  · intro n
    rw [hp.unused, hr.unused]
    omega
  · intro h
    rcases h with h | h
    · exact absurd h (Nat.succ_ne_zero i)
    · obtain ⟨hpd, hg⟩ := hr.old (.inr h)
      have hne' : m.currentPd.tables (N / 0x400) ≠ 0 := by
        rw [hpd]
        exact h
      obtain ⟨hpd', hg'⟩ := hold hne'
      exact ⟨hpd'.trans hpd, hg.trans hg'⟩
  · intro _ h0
    rcases Nat.eq_zero_or_pos i with hi0 | hipos
    · obtain ⟨hpd, hg⟩ := hr.old (.inl hi0)
      have hz : m.kheap.freeZone = m₀.kheap.freeZone := hg.freeZone
      rw [hpd, hz] at hnew
      obtain ⟨ht, ha, hg'⟩ := hnew h0
      exact ⟨ht, ha, hg.trans hg'⟩
    · obtain ⟨ht, ha, hg⟩ := hr.new hipos h0
      have hne' : m.currentPd.tables (N / 0x400) ≠ 0 := by
        rw [ht, Function.update_self]
        exact hne
      obtain ⟨hpd', hg'⟩ := hold hne'
      refine ⟨by rw [hpd', ht], by rw [hpd', ha], hg.trans hg'⟩

/-- The turns of the call that maps the reserve. -/
theorem Reserved.comes {N : Nat} (hr : Reserved m₀ N x 0 m₀)
    (hn : m₀.frames.nframes ≤ 2 ^ 20) (hne : m₀.kheap.freeZone ≠ 0)
    (hready : m₀.Ready (4096 * N)) (hend : 4096 * N + range ≤ 2 ^ 32)
    (hd : 4096 ∣ range)
    (hreg : ∀ i, 4096 * i < range → (N + i) / 0x400 = N / 0x400)
    (hc : (RangeCall.map (4096 * N) range MAP_KERNEL_DATA).Comes kalloc
      m₀ n m) : Reserved m₀ N x (n / 4096) m := by
  induction hc with
  | start => exact hr
  | @next n m₁ m₂ hlt hc hdoes ih =>
      have hdn := hc.dvd
      change n < range at hlt
      obtain ⟨i, rfl⟩ := hdn
      rw [Nat.mul_div_cancel_left _ (by decide)] at ih
      have hnext : (4096 * i + PAGESIZE) / 4096 = i + 1 := by
        unfold PAGESIZE
        omega
      rw [hnext]
      have hv : u32 ((4096 * N &&& 0xfffff000) + 4096 * i)
          = 4096 * (N + i) := by
        rw [pageMask_of_dvd (Nat.dvd_mul_right _ _) (by omega),
          u32_of_lt (by omega)]
        omega
      obtain ⟨res, hdoes⟩ := hdoes
      simp only [hv] at hdoes
      have hn₁ : m₁.frames.nframes ≤ 2 ^ 20 := by
        rcases Nat.eq_zero_or_pos i with h0 | hpos
        · rw [(ih.old (.inl h0)).2.nframes]
          exact hn
        · by_cases ht : m₀.currentPd.tables (N / 0x400) = 0
          · rw [(ih.new hpos ht).2.2.nframes]
            exact hn
          · rw [(ih.old (.inr ht)).2.nframes]
            exact hn
      have hdir : directoryIndex (4096 * (N + i)) = N / 0x400 := by
        rw [← hreg i hlt]
        exact congrArg Prod.fst (pageOf_mul (by omega))
      have hdir₀ : directoryIndex (4096 * N) = N / 0x400 :=
        congrArg Prod.fst (pageOf_mul (by omega))
      -- where this turn needs a table, no turn before has put it up, and the
      -- next free page is the one that it was
      have hready₁ : m₁.Ready (4096 * (N + i)) := by
        intro h0
        rw [hdir] at h0
        unfold Ready at hready
        rw [hdir₀] at hready
        by_cases ht : m₀.currentPd.tables (N / 0x400) = 0
        · rcases Nat.eq_zero_or_pos i with hi0 | hpos
          · obtain ⟨hpd, hg⟩ := ih.old (.inl hi0)
            have hz : m₁.kheap.freeZone = m₀.kheap.freeZone := hg.freeZone
            rw [hpd, hz]
            exact hready ht
          · obtain ⟨htab, -⟩ := ih.new hpos ht
            rw [htab, Function.update_self] at h0
            exact absurd h0 hne
        · rw [(ih.old (.inr ht)).1] at h0
          exact absurd h0 ht
      obtain ⟨k, hput, hleast⟩ :=
        map_put ih.off ih.apart hready₁ hn₁ hdoes
      exact ih.put (by omega) (hreg i hlt) hne hput hleast

/-- The call that maps the reserve, when it returns. -/
theorem reserved_does {N : Nat} (hoff : m₀.pagingEnabled = false)
    (ha : m₀.TablesApart) (hu : ∀ n, m₀.frames.Unused n ↔ x ≤ n)
    (hn : m₀.frames.nframes ≤ 2 ^ 20) (hne : m₀.kheap.freeZone ≠ 0)
    (hready : m₀.Ready (4096 * N)) (hend : 4096 * N + range ≤ 2 ^ 32)
    (hd : 4096 ∣ range)
    (hreg : ∀ i, 4096 * i < range → (N + i) / 0x400 = N / 0x400)
    (h : (RangeCall.map (4096 * N) range MAP_KERNEL_DATA).Does kalloc
      m₀ m) : Reserved m₀ N x (range / 4096) m := by
  have hstart : Reserved m₀ N x 0 m₀ := by
    refine ⟨hoff, ha, ?_, ?_, fun _ => ⟨rfl, Grew.refl hoff⟩, ?_⟩
    · intro q _ _
      rw [if_neg (by omega)]
    · intro n
      rw [hu, Nat.add_zero]
    · intro hpos
      exact absurd hpos (Nat.lt_irrefl 0)
  obtain ⟨n, hc, hle⟩ := h.comes
  have hn' := comes_le hc
  have hdn := hc.dvd
  change range ≤ n at hle
  change n / 4096 ≤ (range + 0xfff) / 4096 at hn'
  have hr := hstart.comes hn hne hready hend hd hreg hc
  rw [show n / 4096 = range / 4096 by omega] at hr
  exact hr

-- ============================================================= the stages

/-- Before paging, with `x` pages identity mapped and memory handed out
up to `z`. -/
structure Stage (kend total : Nat) (ram : Bytes) (x z : Nat) (m : Mem) :
    Prop where
  identified : Identified (tableAt kend total) x m
  freeZone : m.kheap.freeZone = z
  start : m.kheap.kheapStart = bitmapAt kend
  minOrder : m.kheap.minOrder = 12
  maxOrder : m.kheap.maxOrder = Layout.maxOrder total
  orders : m.kheap.orders = Layout.maxOrder total - 11
  reserveOrder : m.kheap.reserveOrder = Layout.reserveOrder total
  frames : m.frames.frames = bitmapAt kend
  nframes : m.frames.nframes = total / PAGESIZE
  kernelPd : m.kernelPd = directoryAt kend total
  bytes : ∀ y, y < bitmapAt kend ∨ z ≤ y → m.bytes y = ram y

theorem tableAt_slots : Slots (tableAt kend total) := by
  constructor
  · intro d
    unfold tableAt tablesAt sizeofPageDirectory
    omega
  · intro d d' h
    unfold tableAt at h
    split at h <;> split at h <;> omega

/-- What the numbers are bounded by, where nothing wraps. -/
theorem layout_bounds (ht : total < 2 ^ 32)
    (hend : spareEnd kend total ≤ 2 ^ 32) :
    kend + 0xfff < 2 ^ 32 ∧ bitmapSize total ≤ 2 ^ 17
      ∧ bitmapAt kend + bitmapSize total + 0xfff < 2 ^ 32
      ∧ directoryAt kend total + sizeofPageDirectory < 2 ^ 32
      ∧ blocksAt kend total + 8192 ≤ 2 ^ 32
      ∧ spareEnd kend total ≤ bitmapAt kend + 2 ^ 23 := by
  have hb : bitmapSize total ≤ 2 ^ 17 := by
    unfold bitmapSize PAGESIZE
    omega
  have h1 := (le_pageUp (a := kend)).1
  have h2 := (le_pageUp (a := bitmapAt kend + bitmapSize total))
  unfold spareEnd spareAt blocksAt tablesAt directoryAt at hend
  unfold spareEnd spareAt blocksAt tablesAt directoryAt bitmapAt
  unfold bitmapAt at h2 hend
  unfold sizeofPageDirectory at *
  unfold regions at *
  omega

theorem maxOrder_le (ht : total < 2 ^ 32) : Layout.maxOrder total ≤ 29 := by
  have hclog : Nat.clog 2 total ≤ 32 :=
    (Nat.clog_le_iff_le_pow (by decide)).mpr (Nat.le_of_lt ht)
  unfold Layout.maxOrder
  omega

theorem bitmapAt_le_spareAt : bitmapAt kend ≤ spareAt kend total := by
  have := (le_pageUp (a := bitmapAt kend + bitmapSize total)).1
  unfold spareAt blocksAt tablesAt directoryAt
  omega

/-- Where `mem::init` begins to map. -/
theorem Prepared.stage (hp : Prepared kend total ram m)
    (ht : total < 2 ^ 32) (hend : spareEnd kend total ≤ 2 ^ 32)
    (h12 : 12 ≤ Layout.maxOrder total) :
    Stage kend total ram 0 (tablesAt kend total) m := by
  obtain ⟨hk, hb, hbm, hpd, -, -⟩ := layout_bounds ht hend
  have hframes : m.frames.frames = bitmapAt kend := by
    rw [hp.frames]
    exact pageUp_eq hk
  have hsize : u32 (bitmapSize total) = bitmapSize total :=
    u32_of_lt (by omega)
  have hkernelPd : m.kernelPd = directoryAt kend total := by
    rw [hp.kernelPd, hframes, hsize,
      u32_of_lt (n := bitmapAt kend + bitmapSize total) (by omega)]
    exact pageUp_eq hbm
  have hfree : m.kheap.freeZone = tablesAt kend total := by
    rw [hp.freeZone, hkernelPd]
    exact u32_of_lt hpd
  have hmax := maxOrder_le ht
  refine ⟨⟨hp.off, ?_, ?_, ?_, ?_, ?_, ?_⟩, hfree, hp.start.trans hframes,
    hp.minOrder, hp.maxOrder, ?_, hp.reserveOrder, hframes, hp.nframes,
    hkernelPd, ?_⟩
  · intro d _ d' _ hne
    exact absurd (hp.zeroed d).1 hne
  · intro d _
    rw [(hp.zeroed d).1, if_neg (by unfold tableCount; omega)]
  · intro d _ hlt
    unfold tableCount at hlt
    omega
  · intro q _ _ hlt
    exact absurd hlt (Nat.not_lt_zero _)
  · intro q _ _ _
    exact if_pos (hp.zeroed q.1).1
  · intro n
    refine iff_of_true ?_ (Nat.zero_le n)
    show (m.frames.words _).testBit _ = false
    rw [hp.words, Nat.zero_testBit]
  · rw [hp.orders]
    unfold u32
    omega
  · intro y hy
    have hd := le_pageUp (a := bitmapAt kend + bitmapSize total)
    have hdir : bitmapAt kend + bitmapSize total
        ≤ directoryAt kend total := hd.1
    rcases hp.bytes y with h | h | h
    · exact h
    · rw [hframes, hsize] at h
      unfold tablesAt at hy
      omega
    · rw [hkernelPd] at h
      unfold tablesAt at hy
      omega

/-- More pages and more tables. -/
theorem Stage.grew (hs : Stage kend total ram x z m)
    (hi : Identified (tableAt kend total) e m') (hg : Grew n m m')
    (hz : bitmapAt kend ≤ z) :
    Stage kend total ram e (z + 4096 * n) m' := by
  refine ⟨hi, ?_, ?_, ?_, ?_, ?_, ?_, hg.frames.trans hs.frames,
    hg.nframes.trans hs.nframes, hg.kernelPd.trans hs.kernelPd, ?_⟩
  · rw [hg.freeZone, hs.freeZone]
  · rw [hg.kheap]
    exact hs.start
  · rw [hg.kheap]
    exact hs.minOrder
  · rw [hg.kheap]
    exact hs.maxOrder
  · rw [hg.kheap]
    exact hs.orders
  · rw [hg.kheap]
    exact hs.reserveOrder
  · intro y hy
    rcases hg.bytes y with h | h
    · rw [h]
      exact hs.bytes y (by omega)
    · rw [hs.freeZone] at h
      omega

/-- The kernel image is mapped. -/
theorem Stage.image (hs : Stage kend total ram 0 (tablesAt kend total) m)
    (ht : total < 2 ^ 32) (hend : spareEnd kend total ≤ 2 ^ 32)
    (h : (imageCall kend).Does kalloc m m') :
    Stage kend total ram (bitmapAt kend / 4096) (blocksAt kend total)
      m' := by
  obtain ⟨hk, -, -, -, hblocks, -⟩ := layout_bounds ht hend
  have hcount : tableCount (bitmapAt kend / 4096) = regions kend := by
    unfold tableCount bitmapAt pageUp regions
    omega
  have hdir : 4096 ∣ directoryAt kend total := pageUp_dvd
  have hblk : blocksAt kend total
      = tablesAt kend total + 4096 * regions kend := rfl
  have h0 : tableCount 0 = 0 := rfl
  obtain ⟨hi, hg, -⟩ := hs.identified.does (e := bitmapAt kend / 4096)
    tableAt_slots (by decide) (by unfold bitmapAt pageUp; omega)
    (by unfold bitmapAt pageUp; omega)
    (by rw [hs.freeZone]; unfold tablesAt sizeofPageDirectory; omega)
    (by
      intro d _ hd
      rw [hcount] at hd
      rw [hs.freeZone, h0, Nat.sub_zero]
      unfold tableAt
      rw [if_pos hd, Nat.add_zero])
    (by rw [hcount, h0, hs.freeZone]; omega) h
  rw [hcount, h0, Nat.sub_zero] at hg
  refine hs.grew hi hg ?_
  have := (le_pageUp (a := bitmapAt kend + bitmapSize total)).1
  unfold tablesAt directoryAt
  omega

/-- `free_blocks` gets a page. -/
theorem Stage.blocksPut
    (hs : Stage kend total ram x (blocksAt kend total) m)
    (ht : total < 2 ^ 32) (hend : spareEnd kend total ≤ 2 ^ 32)
    (h12 : 12 ≤ Layout.maxOrder total) (h : m.blocksPut = .ret m') :
    Stage kend total ram x (spareAt kend total) m'
      ∧ m'.kheap.freeBlocksAt = blocksAt kend total
      ∧ m'.kheap.freeBlocks = fun _ => 0 := by
  obtain ⟨-, -, -, -, hblocks, -⟩ := layout_bounds ht hend
  have hmax := maxOrder_le ht
  have hdvd : 4096 ∣ blocksAt kend total := by
    have hdir : 4096 ∣ directoryAt kend total := pageUp_dvd
    unfold blocksAt tablesAt sizeofPageDirectory
    omega
  obtain ⟨⟨b, m₁⟩, halloc, h⟩ := Outcome.bind_eq_ret.mp h
  obtain ⟨hb, hm₁⟩ := unpagedAlloc_zeroed halloc
  have hsize : u32 (4 * m.kheap.orders)
      = 4 * (Layout.maxOrder total - 11) := by
    rw [hs.orders, u32_of_lt (by omega)]
  rw [hs.freeZone] at hb
  -- behind the array the address is rounded up to a page
  have hz : u32 (m₁.kheap.freeZone + 0xfff) &&& 0xfffff000
      = spareAt kend total := by
    rw [hm₁, handOut_kheap]
    show u32 (u32 (b + _) + 0xfff) &&& _ = _
    rw [hsize, hb, u32_of_lt (n := blocksAt kend total + _) (by omega),
      pageUp_eq (by omega)]
    unfold pageUp spareAt
    omega
  have hi := hs.identified
  have hm' := Outcome.ret.inj h
  simp only [hz] at hm'
  subst hm'
  subst hm₁
  refine ⟨⟨⟨hi.off, hi.apart, hi.tables, hi.paddrs, hi.mapped, hi.unmapped,
    hi.unused⟩, rfl, hs.start, hs.minOrder, hs.maxOrder, hs.orders,
    hs.reserveOrder, hs.frames, hs.nframes, hs.kernelPd, ?_⟩, hb, rfl⟩
  intro y hy
  rcases Bytes.fill_cases m.bytes b (u32 (4 * m.kheap.orders)) 0 y with hf
    | hf
  · refine hf.trans (hs.bytes y ?_)
    unfold spareAt at hy
    omega
  · have := (le_pageUp (a := bitmapAt kend + bitmapSize total)).1
    rw [hsize, hb] at hf
    unfold spareAt blocksAt tablesAt directoryAt at *
    omega

/-- What has been handed out is mapped, and the spare page. -/
theorem Stage.used
    (hs : Stage kend total ram (bitmapAt kend / 4096) (spareAt kend total) m)
    (ht : total < 2 ^ 32) (hend : spareEnd kend total ≤ 2 ^ 32)
    (hbring : bringUpEnd kend total < 2 ^ 32)
    (h : m.usedCall.Does kalloc m m') :
    Stage kend total ram (spareEnd kend total / 4096)
        (spareAt kend total
          + 4096 * (regions (spareEnd kend total) - regions kend)) m'
      ∧ (∃ n, Grew n m m') ∧ Layout.Fits kend total := by
  obtain ⟨-, -, -, -, -, hsmall⟩ := layout_bounds ht hend
  have hS : 4096 ∣ bitmapAt kend := pageUp_dvd
  have hdir : 4096 ∣ directoryAt kend total := pageUp_dvd
  have hE : 4096 ∣ spareAt kend total := by
    unfold spareAt blocksAt tablesAt sizeofPageDirectory
    omega
  have hE' : spareEnd kend total = spareAt kend total + 4096 := rfl
  have hle := @bitmapAt_le_spareAt kend total
  have hcount : tableCount (bitmapAt kend / 4096) = regions kend := by
    unfold tableCount bitmapAt pageUp regions
    omega
  have hcount' : tableCount (spareEnd kend total / 4096)
      = regions (spareEnd kend total) := by
    unfold tableCount regions
    omega
  have hcall : m.usedCall = .mapAt (4096 * (bitmapAt kend / 4096))
      (4096 * (bitmapAt kend / 4096))
      (spareEnd kend total - bitmapAt kend) MAP_KERNEL_DATA := by
    -- the length is a difference of addresses in 32 bits
    have hlen : u32 (spareAt kend total + (2 ^ 32 - bitmapAt kend)
        + PAGESIZE) = spareEnd kend total - bitmapAt kend := by
      unfold u32 PAGESIZE
      omega
    unfold usedCall
    rw [hs.start, hs.freeZone, Nat.mul_div_cancel' hS, hlen]
  rw [hcall] at h
  obtain ⟨hi, hg, htr⟩ := hs.identified.does
    (e := spareEnd kend total / 4096) tableAt_slots (by decide)
    (by omega) (by omega) (by rw [hs.freeZone]; exact hE)
    (by
      intro d hd _
      rw [hcount] at hd ⊢
      rw [hs.freeZone]
      unfold tableAt spareAt blocksAt
      rw [if_neg (by omega)]
      omega)
    (by
      rw [hcount, hcount', hs.freeZone]
      unfold bringUpEnd extraTables at hbring
      omega) h
  rw [hcount, hcount'] at hg
  refine ⟨hs.grew hi hg hle, ⟨_, hg⟩, ?_⟩
  have htr := htr (by omega)
  rw [hs.nframes] at htr
  unfold Frames.index at htr
  unfold Layout.Fits tracked
  omega

-- ====================================================== what init leaves

/-- A page of the reserve. -/
def InReserve (kend total n : Nat) : Prop :=
  zoneAt kend total / 4096 ≤ n
    ∧ n < zoneAt kend total / 4096 + 2 ^ Layout.reserveOrder total / 4096

/-- The machine when paging is about to go on. -/
structure Laid (kend total : Nat) (ram : Bytes) (m : Mem) : Prop where
  fits : Layout.Fits kend total
  minOrder : m.kheap.minOrder = 12
  maxOrder : m.kheap.maxOrder = Layout.maxOrder total
  orders : m.kheap.orders = Layout.maxOrder total - 11
  reserveOrder : m.kheap.reserveOrder = Layout.reserveOrder total
  freeZone : m.kheap.freeZone = zoneAt kend total
  freeBlocksAt : m.kheap.freeBlocksAt = blocksAt kend total
  freeBlocks : m.kheap.freeBlocks = Function.update (fun _ => 0)
    (Layout.reserveOrder total - 12) (zoneAt kend total)
  frames : m.frames.frames = bitmapAt kend
  nframes : m.frames.nframes = total / PAGESIZE
  kernelPd : m.kernelPd = directoryAt kend total
  tables : ∀ d < 0x400, m.currentPd.tables d
    = if d < regions (spareEnd kend total) then tableAt kend total d
      else if d = zoneAt kend total / 0x400000
        then tableAt kend total (regions (spareEnd kend total)) else 0
  paddrs : ∀ d < 0x400, m.currentPd.tables d ≠ 0 →
    m.currentPd.paddrs d = m.currentPd.tables d ||| 7
  reserve : ∀ q : Page, q.1 < 0x400 → q.2 < 0x400 →
    InReserve kend total (number q) →
      m.entry q = claim ((spareEnd kend total / 4096
        + (number q - zoneAt kend total / 4096)) * 4096) MAP_KERNEL_DATA
  mapped : ∀ q : Page, q.1 < 0x400 → q.2 < 0x400 →
    ¬InReserve kend total (number q) →
      number q < spareEnd kend total / 4096 →
        m.entry q ≠ 0 ∧ frameOf (m.entry q) = number q
  unmapped : ∀ q : Page, q.1 < 0x400 → q.2 < 0x400 →
    ¬InReserve kend total (number q) →
      spareEnd kend total / 4096 ≤ number q → m.entry q = 0
  unused : ∀ n, m.frames.Unused n ↔ spareEnd kend total / 4096
    + 2 ^ Layout.reserveOrder total / 4096 ≤ n
  bytes : ∀ y, y < bitmapAt kend ∨ bringUpEnd kend total ≤ y →
    m.bytes y = ram.write32 (zoneAt kend total) 0 y

/-- The zone: aligned to the largest order, and below 4 GiB. -/
theorem zone_bounds (ht : total < 2 ^ 32)
    (h12 : 12 ≤ Layout.maxOrder total) :
    Layout.maxOrder total ≤ 29 ∧ 4096 ∣ 2 ^ Layout.reserveOrder total
      ∧ 2 ^ Layout.reserveOrder total ≤ 2 ^ 18
      ∧ 2 ^ Layout.reserveOrder total ∣ 2 ^ Layout.maxOrder total
      ∧ 2 ^ Layout.maxOrder total ∣ zoneAt kend total
      ∧ zoneAt kend total + 2 ^ Layout.maxOrder total ≤ 2 ^ 32 := by
  have hmax := maxOrder_le ht
  have hpow : 2 ^ Layout.maxOrder total ∣ 2 ^ 32 :=
    Nat.pow_dvd_pow 2 (by omega)
  have hzone : 2 ^ Layout.maxOrder total ∣ zoneAt kend total := by
    unfold zoneAt u32
    exact (Nat.dvd_mod_iff hpow).mpr (Nat.dvd_mul_left _ _)
  refine ⟨hmax, ?_, ?_, ?_, hzone, ?_⟩
  · exact Nat.pow_dvd_pow 2 (m := 12) (by unfold Layout.reserveOrder; omega)
  · exact Nat.pow_le_pow_right (by decide) (Nat.min_le_left _ _)
  · exact Nat.pow_dvd_pow 2 (Nat.min_le_right _ _)
  · exact add_le_of_dvd_of_lt hzone hpow (Nat.mod_lt _ (by decide))

/-- The zone begins on a page. -/
theorem zone_dvd (ht : total < 2 ^ 32)
    (h12 : 12 ≤ Layout.maxOrder total) : 4096 ∣ zoneAt kend total := by
  obtain ⟨-, hr4096, -, hrmax, hzone, -⟩ := @zone_bounds kend total ht h12
  exact Nat.dvd_trans hr4096 (Nat.dvd_trans hrmax hzone)

theorem regions_le : regions kend ≤ regions (spareEnd kend total) := by
  have h1 := (le_pageUp (a := kend)).1
  have h2 := (le_pageUp (a := bitmapAt kend + bitmapSize total)).1
  unfold bitmapAt at h2
  unfold regions spareEnd spareAt blocksAt tablesAt directoryAt bitmapAt
  unfold sizeofPageDirectory
  omega

theorem spareEnd_dvd : 4096 ∣ spareEnd kend total := by
  have hdir : 4096 ∣ directoryAt kend total := pageUp_dvd
  unfold spareEnd spareAt blocksAt tablesAt sizeofPageDirectory
  omega

theorem tableCount_spareEnd : tableCount (spareEnd kend total / 4096)
    = regions (spareEnd kend total) := by
  have hE := @spareEnd_dvd kend total
  unfold tableCount regions
  omega

/-- The tables from the spare page on. -/
theorem tableAt_extra (h : regions kend ≤ d) :
    tableAt kend total d
      = spareAt kend total + 4096 * (d - regions kend) := by
  unfold tableAt spareAt blocksAt
  rw [if_neg (by omega)]
  omega

/-- The reserve is mapped. -/
theorem Stage.reserved
    (hs : Stage kend total ram (spareEnd kend total / 4096)
      (spareAt kend total
        + 4096 * (regions (spareEnd kend total) - regions kend)) m₀)
    (ht : total < 2 ^ 32) (hbring : bringUpEnd kend total < 2 ^ 32)
    (h12 : 12 ≤ Layout.maxOrder total)
    (h : (m₀.reserveCall (zoneAt kend total)).Does kalloc m₀ m) :
    Reserved m₀ (zoneAt kend total / 4096) (spareEnd kend total / 4096)
      (2 ^ Layout.reserveOrder total / 4096) m := by
  obtain ⟨hmax, hr4096, hr18, hrmax, hzone, hztop⟩ :=
    @zone_bounds kend total ht h12
  have hi := hs.identified
  have hrz : 2 ^ Layout.reserveOrder total ∣ zoneAt kend total :=
    Nat.dvd_trans hrmax hzone
  have hz4096 : 4096 ∣ zoneAt kend total := Nat.dvd_trans hr4096 hrz
  have hrle : 2 ^ Layout.reserveOrder total ≤ 2 ^ Layout.maxOrder total :=
    Nat.le_of_dvd (Nat.two_pow_pos _) hrmax
  -- the reserve stays in one region
  have hr22 : 2 ^ Layout.reserveOrder total ∣ 0x400000 :=
    Nat.pow_dvd_pow 2 (n := 22) (by unfold Layout.reserveOrder; omega)
  have hroom : zoneAt kend total % 0x400000
      + 2 ^ Layout.reserveOrder total ≤ 0x400000 :=
    add_le_of_dvd_of_lt ((Nat.dvd_mod_iff hr22).mpr hrz) hr22
      (Nat.mod_lt _ (by decide))
  have hcall : m₀.reserveCall (zoneAt kend total)
      = .map (4096 * (zoneAt kend total / 4096))
        (2 ^ Layout.reserveOrder total) MAP_KERNEL_DATA := by
    unfold reserveCall
    rw [hs.reserveOrder, shl1_of_lt (by unfold Layout.reserveOrder; omega),
      Nat.mul_div_cancel' hz4096]
  have hcount : tableCount (spareEnd kend total / 4096)
      = regions (spareEnd kend total) := tableCount_spareEnd
  have hslot : m₀.kheap.freeZone
      = tableAt kend total (regions (spareEnd kend total)) := by
    rw [hs.freeZone, tableAt_extra regions_le]
  have hpos : m₀.kheap.freeZone ≠ 0 := by
    rw [hslot]
    exact tableAt_slots.ne_zero _
  rw [hcall] at h
  refine reserved_does hi.off hi.apart hi.unused ?_ hpos ?_ (by omega)
    hr4096 ?_ h
  · rw [hs.nframes]
    unfold PAGESIZE
    omega
  · -- a table that is missing goes to the end of what is handed out
    intro h0
    have hdir : directoryIndex (4096 * (zoneAt kend total / 4096))
        = zoneAt kend total / 0x400000 := by
      rw [Nat.mul_div_cancel' hz4096, directoryIndex_eq]
      omega
    rw [hdir, hi.tables _ (by omega), hcount] at h0
    have hge : ¬zoneAt kend total / 0x400000
        < regions (spareEnd kend total) := by
      intro hlt
      rw [if_pos hlt] at h0
      exact tableAt_slots.ne_zero _ h0
    refine ⟨hpos, ?_, ?_, ?_⟩
    · have hd : 4096 ∣ directoryAt kend total := pageUp_dvd
      rw [hs.freeZone]
      unfold spareAt blocksAt tablesAt sizeofPageDirectory
      omega
    · have hextra : bringUpEnd kend total = spareAt kend total
          + 4096 * (regions (spareEnd kend total) - regions kend + 1) := by
        unfold bringUpEnd extraTables
        rw [if_neg hge]
      have hz := hs.freeZone
      omega
    · intro d hd
      rw [hslot, hi.tables d hd, hcount]
      split
      · intro heq
        have := tableAt_slots.inj _ _ heq
        omega
      · exact (tableAt_slots.ne_zero _).symm
  · intro i hi
    omega

/-- The directory with the reserve mapped, and what was handed out. -/
theorem Reserved.directory {i : Nat}
    (hs : Stage kend total ram (spareEnd kend total / 4096)
      (spareAt kend total
        + 4096 * (regions (spareEnd kend total) - regions kend)) m₀)
    (hr : Reserved m₀ (zoneAt kend total / 4096)
      (spareEnd kend total / 4096) i m) (hi : 0 < i) :
    (∀ d < 0x400, m.currentPd.tables d
        = if d < regions (spareEnd kend total) then tableAt kend total d
          else if d = zoneAt kend total / 0x400000
            then tableAt kend total (regions (spareEnd kend total)) else 0)
      ∧ (∀ d < 0x400, m.currentPd.tables d ≠ 0 →
        m.currentPd.paddrs d = m.currentPd.tables d ||| 7)
      ∧ ∃ n, Grew n m₀ m ∧ m₀.kheap.freeZone + 4096 * n
        = bringUpEnd kend total := by
  have hid := hs.identified
  have hdir : zoneAt kend total / 4096 / 0x400
      = zoneAt kend total / 0x400000 := by omega
  have hold := hr.old
  have hnew := hr.new hi
  rw [hdir] at hold hnew
  have htables := hid.tables
  have hpaddrs := hid.paddrs
  rw [tableCount_spareEnd] at htables hpaddrs
  have hT : zoneAt kend total / 0x400000 < 0x400 := by
    have hlt : zoneAt kend total < 2 ^ 32 := Nat.mod_lt _ (by decide)
    omega
  have hslot : m₀.kheap.freeZone
      = tableAt kend total (regions (spareEnd kend total)) := by
    rw [hs.freeZone, tableAt_extra regions_le]
  by_cases hin : zoneAt kend total / 0x400000
      < regions (spareEnd kend total)
  · -- the region has a table already
    have hne : m₀.currentPd.tables (zoneAt kend total / 0x400000) ≠ 0 := by
      rw [htables _ hT, if_pos hin]
      exact tableAt_slots.ne_zero _
    obtain ⟨hpd, hg⟩ := hold (.inr hne)
    rw [hpd]
    refine ⟨?_, ?_, 0, hg, ?_⟩
    · intro d hd
      rw [htables d hd]
      split
      · rfl
      · rw [if_neg (by omega)]
    · intro d hd hne
      rw [htables d hd] at hne ⊢
      split at hne
      · rename_i hlt
        rw [if_pos hlt]
        exact hpaddrs d hd hlt
      · exact absurd rfl hne
    · rw [hs.freeZone]
      unfold bringUpEnd extraTables
      rw [if_pos hin, Nat.mul_zero, Nat.add_zero, Nat.add_zero]
  · -- the region gets one
    have h0 : m₀.currentPd.tables (zoneAt kend total / 0x400000) = 0 := by
      rw [htables _ hT, if_neg hin]
    obtain ⟨ht, ha, hg⟩ := hnew h0
    rw [ht, ha, hslot]
    refine ⟨?_, ?_, 1, hg, ?_⟩
    · intro d hd
      by_cases hdz : d = zoneAt kend total / 0x400000
      · rw [hdz, Function.update_self, if_neg hin, if_pos rfl]
      · rw [Function.update_of_ne hdz, htables d hd, if_neg hdz]
    · intro d hd hne
      by_cases hdz : d = zoneAt kend total / 0x400000
      · rw [hdz, Function.update_self, Function.update_self]
      · rw [Function.update_of_ne hdz] at hne ⊢
        rw [Function.update_of_ne hdz]
        rw [htables d hd] at hne ⊢
        split at hne
        · rename_i hlt
          rw [if_pos hlt]
          exact hpaddrs d hd hlt
        · exact absurd rfl hne
    · rw [tableAt_extra regions_le]
      unfold bringUpEnd extraTables
      rw [if_neg hin]
      omega

/-- The heap is set up on the reserve. -/
theorem Stage.laid
    (hs : Stage kend total ram (spareEnd kend total / 4096)
      (spareAt kend total
        + 4096 * (regions (spareEnd kend total) - regions kend)) m₀)
    (hfits : Layout.Fits kend total)
    (hat : m₀.kheap.freeBlocksAt = blocksAt kend total)
    (hblocks : m₀.kheap.freeBlocks = fun _ => 0)
    (hr : Reserved m₀ (zoneAt kend total / 4096)
      (spareEnd kend total / 4096) (2 ^ Layout.reserveOrder total / 4096) m₁)
    (hpos : 4096 ∣ 2 ^ Layout.reserveOrder total)
    (hput : m₁.reservePut (zoneAt kend total) = .ret m) :
    Laid kend total ram m := by
  have hid := hs.identified
  have hi : 0 < 2 ^ Layout.reserveOrder total / 4096 :=
    Nat.div_pos (Nat.le_of_dvd (Nat.two_pow_pos _) hpos) (by decide)
  -- the reserve cost a table or none; with it bring-up ends
  obtain ⟨htables, hpaddrs, n, hg, hend⟩ := hr.directory hs hi
  have ho := reservePut_inv hput
  have hheap := hg.kheap
  have hentry : ∀ q, m.entry q = m₁.entry q := by
    intro q
    unfold entry
    rw [ho.currentPd, ho.pages]
  constructor
  case fits => exact hfits
  case minOrder =>
    rw [ho.minOrder, hheap]
    exact hs.minOrder
  case maxOrder =>
    rw [ho.maxOrder, hheap]
    exact hs.maxOrder
  case orders =>
    rw [ho.orders, hheap]
    exact hs.orders
  case reserveOrder =>
    rw [ho.reserveOrder, hheap]
    exact hs.reserveOrder
  case freeZone => exact ho.freeZone
  case freeBlocksAt =>
    rw [ho.freeBlocksAt, hheap]
    exact hat
  case freeBlocks =>
    rw [ho.freeBlocks, hheap]
    simp only [hblocks, hs.reserveOrder, hs.minOrder]
  case frames =>
    rw [ho.frames]
    exact hg.frames.trans hs.frames
  case nframes =>
    rw [ho.frames]
    exact hg.nframes.trans hs.nframes
  case kernelPd =>
    rw [ho.kernelPd]
    exact hg.kernelPd.trans hs.kernelPd
  case tables =>
    rw [ho.currentPd]
    exact htables
  case paddrs =>
    rw [ho.currentPd]
    exact hpaddrs
  case reserve =>
    intro q hq hq' hin
    rw [hentry, hr.entry q hq hq']
    exact if_pos hin
  case mapped =>
    intro q hq hq' hnot hlt
    rw [hentry, (hr.entry q hq hq').trans (if_neg hnot)]
    exact hid.mapped q hq hq' hlt
  case unmapped =>
    intro q hq hq' hnot hle
    rw [hentry, (hr.entry q hq hq').trans (if_neg hnot)]
    exact hid.unmapped q hq hq' hle
  case unused =>
    rw [ho.frames]
    exact hr.unused
  case bytes =>
    intro y hy
    rw [ho.bytes]
    -- the list's first link is written in the zone, at the same address
    apply Bytes.write32_congr
    have hle := @bitmapAt_le_spareAt kend total
    rw [hs.freeZone] at hend
    rcases hg.bytes y with hb | hb
    · refine hb.trans (hs.bytes y ?_)
      rcases hy with hy | hy
      · exact .inl hy
      · refine .inr ?_
        omega
    · rw [hs.freeZone] at hb
      omega

end Mem

end Ntibux
