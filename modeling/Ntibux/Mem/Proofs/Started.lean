/-
The heap from bring-up to the day when everything has come back.

# The start

`mem::init` leaves the heap in the state that every run of it begins in
(`init_initial`), if its layout is separate and the first link word is
the one that is read. So what holds along every run holds from boot on,
and the heap never hands out what bring-up did (`boot_run_sound`).

# The end

When all that was handed out has been given back, and no request has
dropped a block on the way, the free blocks fill the reserve and no two
of them are buddies. Then there is only one (`Block.eq_of_tiles`): the
heap is in its initial state again, with the reserve it has grown to
(`run_emptied_initial`).
-/
import Ntibux.Mem.Proofs.Regions
import Ntibux.Mem.Proofs.Calls

namespace Ntibux

namespace HeapState

open Buddy (Zone Heap)
open Mem Layout

variable {z : Zone} {h : Heap z} {s s₀ : HeapState} {kalloc : Kalloc}
  {m p : Mem} {ram : Bytes} {tr : List (HeapState × Event)}
  {fuel highMem kend total : Nat}

-- ============================================================== the start

/-- What `mem::init` leaves is where the heap's runs begin. -/
theorem Laid.initial (hl : Laid kend total ram p) (ht : total < 2 ^ 32)
    (h12 : 12 ≤ Layout.maxOrder total) (hlocked : p.kheap.locked = false)
    (hone : p.enablePaging.OneBlock) (hpos : 0 < zoneAt kend total) :
    Initial ⟨p.enablePaging, []⟩ := by
  obtain ⟨hmax29, -, -, -, hzone, htop⟩ := @zone_bounds kend total ht h12
  have hmin : p.kheap.minOrder = 12 := hl.minOrder
  have hmax : p.kheap.maxOrder = Layout.maxOrder total := hl.maxOrder
  have hres : p.kheap.reserveOrder = Layout.reserveOrder total :=
    hl.reserveOrder
  have hfree : p.kheap.freeZone = zoneAt kend total := hl.freeZone
  have hr12 : 12 ≤ Layout.reserveOrder total := Nat.le_min.mpr ⟨by decide, h12⟩
  have hr : Layout.reserveOrder total ≤ Layout.maxOrder total :=
    Nat.min_le_right _ _
  have hword := Nat.two_pow_pos (Layout.maxOrder total)
  -- the head of the top list, and the link that its block reads back
  obtain ⟨hhead, -, hlink⟩ := hone.reserve
  constructor
  · show 12 ≤ p.kheap.minOrder
    omega
  · show p.kheap.minOrder ≤ p.kheap.reserveOrder
    omega
  · show p.kheap.reserveOrder ≤ p.kheap.maxOrder
    omega
  · show p.kheap.maxOrder < 32
    omega
  · show p.kheap.orders = p.kheap.maxOrder - p.kheap.minOrder + 1
    have horders := hl.orders
    omega
  · show 0 < p.kheap.freeZone
    omega
  · show p.kheap.freeZone < 2 ^ 32
    omega
  · show 2 ^ p.kheap.maxOrder ∣ p.kheap.freeZone
    rw [hmax, hfree]
    exact hzone
  · exact hlocked
  · show p.frames.nframes ≤ 2 ^ 20
    rw [hl.nframes]
    unfold PAGESIZE
    omega
  · exact hhead
  · exact hlink
  · intro k hk hkmax hne
    refine hone.others k ⟨hk, ?_⟩ hne
    show k - p.kheap.minOrder < p.kheap.orders
    change p.kheap.minOrder ≤ k at hk
    change k ≤ p.kheap.maxOrder at hkmax
    have horders := hl.orders
    omega
  · rfl

theorem reservePut_locked {zone : Nat} {m' : Mem}
    (h : m.reservePut zone = .ret m') :
    m'.kheap.locked = m.kheap.locked := by
  obtain ⟨m₁, hset, h⟩ := Outcome.bind_eq_ret.mp h
  obtain ⟨first, -, h⟩ := Outcome.bind_eq_ret.mp h
  unfold setFreeBlock at hset
  split at hset
  case isFalse => cases hset
  case isTrue =>
    cases hset
    cases h
    rfl

/-- Bring-up does not leave the lock taken. -/
theorem init_unlocked (ht : u32 (highMem <<< 10) = total)
    (h : (new ram).init kalloc kend fuel highMem = .ret m) :
    m.kheap.locked = false := by
  obtain ⟨s₁, s₂, s₃, s₄, s₅, s₆, h₁, h₂, h₃, h₄, h₅, h₆, rfl⟩ :=
    init_stages h
  have hp := prepare_prepared ht h₁
  have hs₂ := range_sameHeap hp.off (by simp [imageCall]) h₂
  have hs₃ : s₃.pagingEnabled = false
      ∧ s₃.kheap.locked = s₂.kheap.locked := by
    obtain ⟨⟨b, m₁⟩, halloc, h₃⟩ := Outcome.bind_eq_ret.mp h₃
    obtain ⟨-, rfl⟩ := unpagedAlloc_zeroed halloc
    cases h₃
    exact ⟨hs₂.off, rfl⟩
  have hs₄ := range_sameHeap hs₃.1 (by simp [usedCall]) h₄
  have hs₅ := range_sameHeap hs₄.off (by simp [reserveCall]) h₅
  show s₆.kheap.locked = false
  rw [reservePut_locked h₆, hs₅.kheap, hs₄.kheap]
  show s₃.kheap.locked = false
  rw [hs₃.2, hs₂.kheap]
  exact hp.unlocked

/-- Bring-up on a layout with room, as far as its pages go. -/
theorem init_separate (ht : u32 (highMem <<< 10) = total)
    (hsep : Separate kend total)
    (h : (new ram).init kalloc kend fuel highMem = .ret m) :
    12 ≤ Layout.maxOrder total ∧ 0 < zoneAt kend total
      ∧ ∃ p, Laid kend total ram p ∧ m = p.enablePaging := by
  have ht32 : total < 2 ^ 32 := ht ▸ u32_lt _
  have h12 := init_maxOrder ht h
  obtain ⟨-, hr4096, -, hrmax, -, hztop⟩ :=
    @zone_bounds kend total ht32 h12
  have hpos := Nat.le_of_dvd (Nat.two_pow_pos _)
    (Nat.dvd_trans hr4096 hrmax)
  have hspare : spareEnd kend total = spareAt kend total + 4096 := rfl
  have hblk : spareAt kend total = blocksAt kend total + 4096 := rfl
  have hup : bringUpEnd kend total
      = spareAt kend total + 4096 * extraTables kend total := rfl
  have habove := hsep.2
  exact ⟨h12, by omega, init_laid ht (by omega) (by omega) h12 h⟩

/-- After bring-up the heap is where all its runs begin. -/
theorem init_initial (ht : u32 (highMem <<< 10) = total)
    (hsep : Separate kend total) (hlink : LinkReads kend total ram)
    (h : (new ram).init kalloc kend fuel highMem = .ret m) :
    Initial ⟨m, []⟩ := by
  have ht32 : total < 2 ^ 32 := ht ▸ u32_lt _
  have hfree := init_unlocked ht h
  obtain ⟨h12, hpos, p, hl, rfl⟩ := init_separate ht hsep h
  exact Laid.initial hl ht32 h12 hfree
    ((hl.oneBlock_iff ht32 h12 hsep).mpr hlink) hpos

/-- What bring-up handed out stays clear of all that the heap will. -/
theorem init_handed (ht : u32 (highMem <<< 10) = total)
    (h20 : 2 ^ 20 ≤ total) (hsep : Separate kend total)
    (h : (new ram).init kalloc kend fuel highMem = .ret m) :
    m.RegionsApart := by
  have ht32 : total < 2 ^ 32 := ht ▸ u32_lt _
  obtain ⟨h12, -, p, hl, rfl⟩ := init_separate ht hsep h
  exact enablePaging_regionsApart.mpr
    ((hl.regionsApart_iff ht32 h20 h12).mpr ⟨hsep.1, .inl hsep.2⟩)

/-- What the heap knows of the bytes that bring-up handed out: it never
has one of them. -/
theorem run_outside (ht : u32 (highMem <<< 10) = total)
    (h20 : 2 ^ 20 ≤ total) (hsep : Separate kend total)
    (hlink : LinkReads kend total ram)
    (h : (new ram).init kalloc kend fuel highMem = .ret m)
    (hr : Run ⟨m, []⟩ tr s) :
    ∀ b, b ∈ s.live ∨ s.Free b → ∀ x, b.Has x → ¬m.Handed x := by
  obtain ⟨hp, -, hg⟩ := run_good (init_initial ht hsep hlink h) hr
  intro b hb x hx hhanded
  have hin := (hg.safe.within b hb).has hx
  rw [hg.reserve_eq] at hin
  refine (init_handed ht h20 hsep h).outside x hhanded ⟨hin.1, ?_⟩
  exact Nat.lt_of_lt_of_le hin.2 (Nat.add_le_add_left
    (Nat.pow_le_pow_right (by decide) hp.le_max) _)

/-- No two buddies of a heap in order are both free. -/
theorem Good.coalesced (hg : Good s h) : Coalesced s := by
  intro k hk a ha hb
  rw [hg.sim.reserveOrder] at hk
  exact hg.noPair k hk a (hg.free_iff.mp ha) (hg.free_iff.mp hb)

/-- From boot on, along every run: the blocks in use and the free ones
are inside the reserve, aligned and apart, no two buddies are both free,
and none of them has a byte that bring-up handed out.

Bring-up leaves a heap to start from (`init_initial`), and every run from
there keeps the invariant. No block of the heap reaches out of the reserve,
which is why none has a byte that bring-up handed out (`run_outside`). -/
theorem boot_run_sound (ht : u32 (highMem <<< 10) = total)
    (h20 : 2 ^ 20 ≤ total) (hsep : Separate kend total)
    (hlink : LinkReads kend total ram)
    (h : (new ram).init kalloc kend fuel highMem = .ret m)
    (hr : Run ⟨m, []⟩ tr s) :
    Safe s ∧ Coalesced s ∧ ∀ b, b ∈ s.live ∨ s.Free b →
      ∀ x, b.Has x → ¬m.Handed x := by
  obtain ⟨_, -, hg⟩ := run_good (init_initial ht hsep hlink h) hr
  exact ⟨hg.safe, hg.coalesced, run_outside ht h20 hsep hlink h hr⟩

/-- On an 8 MiB machine, behind two requests, growth and a `free`. -/
theorem boot_run_sound_small : ∃ m tr s, (new fun _ => 0).init (kheapAlloc 0)
    0x120000 2000 7168 = .ret m
      ∧ Run ⟨m, []⟩ tr s ∧ tr.map Prod.snd = session
      ∧ s.live = [⟨0x280000, 19⟩] ∧ Safe s ∧ Coalesced s := by
  obtain ⟨m, tr, s, -, hboot, -, hr, hev, -, hlive, -⟩ := booted_run
  obtain ⟨hsafe, hpair, -⟩ := @boot_run_sound _ _ _ _ _ _ _ _ 7340032 rfl
    (by decide) (by unfold Separate; decide +kernel) (.inr rfl) hboot hr
  exact ⟨m, tr, s, hboot, hr, hev, hlive, hsafe, hpair⟩

-- ================================================================ the end

/-- At the start the one free block is the reserve. -/
theorem Initial.complete (hi : Initial s) : Complete s := by
  intro x hx
  refine .inr ⟨s.reserve, ⟨hi.min_le, hi.le_max, ?_⟩, hx⟩
  refine ⟨[s.mem.kheap.freeZone], ?_, List.mem_singleton_self _⟩
  show Chain _ (s.mem.kheap.head s.mem.kheap.reserveOrder) _
  rw [hi.head]
  exact ⟨rfl, Nat.ne_of_gt hi.zone_pos, hi.link⟩

/-- Without a dropped block the reserve stays covered. -/
theorem run_covered (hi : Initial s₀) (hr : Run s₀ tr s)
    (hkeep : ∀ p ∈ tr, ¬Drops p.1 p.2) :
    ∃ h : Heap hi.zone, Good s h ∧ Complete s := by
  refine Ntibux.Run.invariant (P := fun s => ∃ h : Heap hi.zone,
    Good s h ∧ Complete s) (fun s e => ¬Drops s e) hr hkeep
    ⟨_, hi.good, hi.complete⟩ ?_
  rintro s e s' ⟨h, hg, hc⟩ hd hs
  obtain ⟨h', -, hg'⟩ := hg.step hs
  exact ⟨h', hg', (hg.step_complete hs).mpr ⟨hc, hd⟩⟩

/-- Nothing is in use: the one free block is the reserve. -/
theorem Good.free_emptied (hg : Good s h) (hc : Complete s)
    (hlive : s.live = []) : ∀ b, h.Free b ↔ b = h.reserve := by
  have hall := hg.complete_iff.mp hc
  rw [hlive] at hall
  refine Block.eq_of_tiles h.reserve_aligned
    (fun b hb => (hg.inv.free_ok b hb).aligned)
    (fun b hb => (hg.inv.free_ok b hb).within) hg.inv.free_apart ?_
    hg.noPair
  intro x hx
  rcases hall x hx with ⟨b, hb, -⟩ | hfree
  · cases hb
  · exact hfree

/-- The reserve is in the list of its order, and the others are empty. -/
theorem Good.lists_emptied (hg : Good s h) (hc : Complete s)
    (hlive : s.live = []) : h.free h.reserveOrder = [z.base] ∧
      ∀ k, k ≠ h.reserveOrder → h.free k = [] := by
  have hlists : ∀ k a, a ∈ h.free k ↔ a = z.base ∧ k = h.reserveOrder := by
    intro k a
    have hone := hg.free_emptied hc hlive ⟨a, k⟩
    unfold Heap.reserve at hone
    rw [Block.mk.injEq] at hone
    exact hone
  constructor
  · rw [← List.perm_singleton, List.perm_ext_iff_of_nodup
      (hg.inv.nodup _) (List.nodup_singleton _)]
    intro a
    rw [hlists, List.mem_singleton]
    exact and_iff_left rfl
  · intro k hk
    refine List.eq_nil_iff_forall_not_mem.mpr fun a ha => ?_
    exact hk ((hlists k a).mp ha).2

/-- After a run that has dropped no block, and when all that was handed
out is back, the heap is in its initial state again, with the reserve
that it has grown to.

The reserve is covered, and nothing of it is in use, so that all of it is
free; and since no two buddies are, there is one block only. -/
theorem run_emptied_initial (hi : Initial s₀) (hr : Run s₀ tr s)
    (hkeep : ∀ p ∈ tr, ¬Drops p.1 p.2) (hlive : s.live = []) :
    Initial s := by
  obtain ⟨h, hg, hc⟩ := run_covered hi hr hkeep
  have hs := hg.sim
  obtain ⟨htop, hrest⟩ := hg.lists_emptied hc hlive
  have hchain := hs.chain h.reserveOrder h.min_le h.le_max
  rw [htop] at hchain
  have hinTable := run_inTable_iff hi hr
  have hmm : s.mem.kheap.minOrder ≤ s.mem.kheap.maxOrder := by
    rw [hs.minOrder, hs.maxOrder]
    exact hi.zone.min_le_max
  constructor
  · rw [hs.minOrder]
    exact hs.page_le
  · rw [hs.minOrder, hs.reserveOrder]
    exact h.min_le
  · rw [hs.reserveOrder, hs.maxOrder]
    exact h.le_max
  · rw [hs.maxOrder]
    exact hi.zone.max_lt
  · -- how long the table is, from the orders that are in it
    have hlast := (hinTable s.mem.kheap.maxOrder).mpr ⟨hmm, Nat.le_refl _⟩
    have hpast := mt (hinTable (s.mem.kheap.maxOrder + 1)).mp (by omega)
    unfold Kheap.InTable at hlast hpast
    omega
  · rw [hs.freeZone]
    exact hi.zone.base_pos
  · rw [hs.freeZone]
    exact hi.zone.base_lt
  · rw [hs.maxOrder, hs.freeZone]
    exact hi.zone.base_dvd
  · exact hg.unlocked
  · exact hg.frames_le
  · rw [hs.reserveOrder, hs.freeZone]
    exact hchain.1
  · rw [hs.freeZone]
    exact hchain.2.2
  · intro k hmin hmax hne
    rw [hs.minOrder] at hmin
    rw [hs.maxOrder] at hmax
    rw [hs.reserveOrder] at hne
    have hnil := hs.chain k hmin hmax
    rw [hrest k hne] at hnil
    exact hnil
  · exact hlive

/-- On a booted 8 MiB machine both requests come back, and the reserve
that they have made grow is one free block. -/
theorem run_emptied_initial_booted : ∃ m tr s, Initial ⟨m, []⟩
    ∧ Run ⟨m, []⟩ tr s ∧ tr.length = 4 ∧ Initial s := by
  obtain ⟨m, tr, s, s', -, hi, hr, hev, hkeep, -, -, hs', hlive⟩ :=
    booted_run
  refine ⟨m, _, _, hi, hr.snoc hs', ?_,
    run_emptied_initial hi (hr.snoc hs') ?_ hlive⟩
  · rw [List.length_append, ← List.length_map Prod.snd, hev]
    rfl
  · intro p hp
    rcases List.mem_append.mp hp with hp | hp
    · exact hkeep p hp
    · rw [List.mem_singleton.mp hp]
      exact id

end HeapState

end Ntibux
