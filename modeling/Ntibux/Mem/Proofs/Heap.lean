/-
What the kernel heap guarantees, and where it falls short.

Safety, coalescing and the refinement of the in-memory lists hold along
every run. Three things do not, and for each the exact condition is
given in terms of the state before the step:

- the reserve stays covered as long as no request above the reserve
  order meets a free reserve (`run_complete_iff`);
- `alloc` stays off its own lock as long as the pages that growth maps
  have a page table (`alloc_never_spins_iff`);
- `buddy_alloc` comes to an end unless it has to grow and cannot
  (`buddyAlloc_finishes_iff`).

The machines of the counterexamples are the ones `mem::init` sets up
(`booted`), for a kernel image that ends at 0x120000 and memory that
reads zero.
-/
import Ntibux.Mem.Init
import Ntibux.Mem.Proofs.Growth
import Ntibux.Mem.Proofs.Run

namespace Ntibux

namespace HeapState

open Buddy (Zone Heap)

variable {z : Zone} {h : Heap z} {s s₀ s' : HeapState} {e : Event}
  {tr : List (HeapState × Event)} {b : Block}
  {fuel size order flags out : Nat}

-- ======================================================= booted machines

/-- The memory that `mem::init` sets up for `highMem` kilobytes above the
first megabyte. Paging is off while it runs, so the allocator it is
given is never asked. -/
def booted (highMem : Nat) : Outcome Mem :=
  Mem.init (Mem.kheapAlloc 0) 0x120000 2000 highMem (Mem.new fun _ => 0)

/-- The heap of `m` is in the state `enable_paging` aims at. -/
def looksInitial (m : Mem) : Bool :=
  decide (12 ≤ m.kheap.minOrder ∧ m.kheap.minOrder ≤ m.kheap.reserveOrder
    ∧ m.kheap.reserveOrder ≤ m.kheap.maxOrder ∧ m.kheap.maxOrder < 32
    ∧ m.kheap.orders = m.kheap.maxOrder - m.kheap.minOrder + 1
    ∧ 0 < m.kheap.freeZone ∧ m.kheap.freeZone < 2 ^ 32
    ∧ 2 ^ m.kheap.maxOrder ∣ m.kheap.freeZone ∧ m.kheap.locked = false
    ∧ m.frames.nframes ≤ 2 ^ 20
    ∧ m.kheap.head m.kheap.reserveOrder = m.kheap.freeZone
    ∧ m.load m.kheap.freeZone = 0)
  && (List.range 32).all fun k => decide (m.kheap.minOrder ≤ k →
    k ≤ m.kheap.maxOrder → k ≠ m.kheap.reserveOrder → m.kheap.head k = 0)

theorem initial_of_looksInitial {m : Mem} (hm : looksInitial m = true) :
    Initial ⟨m, []⟩ := by
  unfold looksInitial at hm
  rw [Bool.and_eq_true, decide_eq_true_eq, List.all_eq_true] at hm
  obtain ⟨⟨h1, h2, h3, h4, h5, h6, h7, h8, h9, h10, h11, h12⟩, h13⟩ := hm
  refine ⟨h1, h2, h3, h4, h5, h6, h7, h8, h9, h10, h11, h12, ?_, rfl⟩
  intro k hmin hmax hne
  have hk := h13 k (List.mem_range.mpr (Nat.lt_of_le_of_lt hmax h4))
  exact (decide_eq_true_eq.mp hk) hmin hmax hne

/-- What a booted 8 MiB machine looks like. -/
theorem booted_small : ∃ m, booted 7168 = .ret m ∧ Initial ⟨m, []⟩
    ∧ m.kheap.minOrder = 12 ∧ m.kheap.reserveOrder = 18
    ∧ m.kheap.maxOrder = 20 ∧ Mem.IsOrder m.kheap 5000 13
    ∧ 192 ≤ m.frames.avail := by
  have hcheck : (booted 7168).holds (fun m => looksInitial m
      && decide (m.kheap.minOrder = 12 ∧ m.kheap.reserveOrder = 18
        ∧ m.kheap.maxOrder = 20 ∧ m.frames.nframes = 1792
        ∧ Mem.getOrder 20 5000 m.kheap = .ret 13 ∧ ¬ m.frames.Unused 0)
      && (List.range 6).all fun j => decide (m.frames.words (12 + j) = 0))
      = true := by
    decide +kernel
  obtain ⟨m, hboot, hm⟩ := Outcome.holds_iff.mp hcheck
  simp only [Bool.and_eq_true, decide_eq_true_eq, List.all_eq_true,
    List.mem_range] at hm
  obtain ⟨⟨hinit, hmin, hres, hmax, hn, ho, h0⟩, hz⟩ := hm
  refine ⟨m, hboot, initial_of_looksInitial hinit, hmin, hres, hmax,
    ⟨20, ho⟩, ?_⟩
  refine Frames.le_avail (c := 6) h0 hz ?_
  rw [hn]
  decide

/-- Two pages, zeroed; half a megabyte, for which the reserve grows twice;
and the two pages come back. -/
def session : List Event :=
  [.alloc 5000 13 ALLOC_ZEROED 0x200000, .alloc 0x80000 19 0 0x280000,
    .free 0x200000 5000 13]

/-- They can be asked for on that machine. No request drops a block: the
reserve was split when it had to grow. The half megabyte is left, and can
come back as well. -/
theorem booted_run : ∃ m tr s s', booted 7168 = .ret m ∧ Initial ⟨m, []⟩
    ∧ Run ⟨m, []⟩ tr s ∧ tr.map Prod.snd = session
    ∧ (∀ p ∈ tr, ¬Drops p.1 p.2)
    ∧ s.live = [⟨0x280000, 19⟩] ∧ s.mem.kheap.reserveOrder = 20
    ∧ Step s (.free 0x280000 0x80000 19) s' ∧ s'.live = [] := by
  have hcheck : (booted 7168).holds (fun m =>
      (m.kheapAlloc 20 5000 ALLOC_ZEROED).holds fun r₁ =>
        decide (r₁.1 = 0x200000
          ∧ Mem.getOrder 20 0x80000 r₁.2.kheap = .ret 19
          ∧ r₁.2.kheap.head r₁.2.kheap.reserveOrder = 0
          ∧ r₁.2.kheap.maxOrder = 20)
        && (r₁.2.kheapAlloc 300 0x80000 0).holds fun r₂ =>
          decide (r₂.1 = 0x280000
            ∧ Mem.getOrder 20 5000 r₂.2.kheap = .ret 13)
          && (Mem.kheapFree 20 0x200000 5000 r₂.2).holds fun m₃ =>
            decide (m₃.kheap.reserveOrder = 20
              ∧ Mem.getOrder 20 0x80000 m₃.kheap = .ret 19)
            && (Mem.kheapFree 20 0x280000 0x80000 m₃).holds fun _ => true)
      = true := by
    decide +kernel
  obtain ⟨m, hboot, hi, -, hres, hmax, ho, -⟩ := booted_small
  rw [hboot, Outcome.holds_ret] at hcheck
  obtain ⟨⟨out₁, m₁⟩, ha₁, hcheck⟩ := Outcome.holds_iff.mp hcheck
  rw [Bool.and_eq_true, decide_eq_true_eq] at hcheck
  obtain ⟨⟨rfl, ho₁, hsplit, hmax₁⟩, hcheck⟩ := hcheck
  obtain ⟨⟨out₂, m₂⟩, ha₂, hcheck⟩ := Outcome.holds_iff.mp hcheck
  rw [Bool.and_eq_true, decide_eq_true_eq] at hcheck
  obtain ⟨⟨rfl, ho₂⟩, hcheck⟩ := hcheck
  obtain ⟨m₃, hf₃, hcheck⟩ := Outcome.holds_iff.mp hcheck
  rw [Bool.and_eq_true, decide_eq_true_eq] at hcheck
  obtain ⟨⟨hres₃, ho₃⟩, hcheck⟩ := hcheck
  obtain ⟨m₄, hf₄, -⟩ := Outcome.holds_iff.mp hcheck
  have hs₁ : Step ⟨m, []⟩ (.alloc 5000 13 ALLOC_ZEROED 0x200000)
      ⟨m₁, [⟨0x200000, 13⟩]⟩ := .alloc ho (by rw [hmax]; decide) ha₁
  have hs₂ : Step ⟨m₁, [⟨0x200000, 13⟩]⟩ (.alloc 0x80000 19 0 0x280000)
      ⟨m₂, [⟨0x280000, 19⟩, ⟨0x200000, 13⟩]⟩ :=
    .alloc ⟨20, ho₁⟩ (by rw [hmax₁]; decide) ha₂
  have hs₃ : Step ⟨m₂, [⟨0x280000, 19⟩, ⟨0x200000, 13⟩]⟩
      (.free 0x200000 5000 13) ⟨m₃, [⟨0x280000, 19⟩]⟩ :=
    .free (b := ⟨0x200000, 13⟩)
      (List.mem_cons_of_mem _ (List.mem_singleton_self _)) ⟨20, ho₂⟩ hf₃
  have hs₄ : Step ⟨m₃, [⟨0x280000, 19⟩]⟩ (.free 0x280000 0x80000 19)
      ⟨m₄, []⟩ :=
    .free (b := ⟨0x280000, 19⟩) (List.mem_singleton_self _) ⟨20, ho₃⟩ hf₄
  refine ⟨m, _, _, _, hboot, hi, ((Run.nil.snoc hs₁).snoc hs₂).snoc hs₃, rfl,
    ?_, rfl, hres₃, hs₄, rfl⟩
  -- the first request finds a block, and the second grows while the top
  -- list is empty: neither drops one
  intro p hp
  simp only [List.nil_append, List.cons_append, List.mem_cons,
    List.not_mem_nil, or_false] at hp
  rcases hp with rfl | rfl | rfl
  · rintro ⟨hlt, -⟩
    change m.kheap.reserveOrder < 13 at hlt
    omega
  · rintro ⟨-, hne⟩
    exact hne hsplit
  · exact id

-- ================================================================ safety

/-- Live and free blocks lie in the reserve, aligned and pairwise
apart. -/
theorem Good.safe (hg : Good s h) : Safe s := by
  have hok : ∀ b, b ∈ s.live ∨ s.Free b → h.Ok b := by
    intro b hb
    rcases hb with hb | hb
    · exact hg.inv.used_ok b hb
    · exact hg.inv.free_ok b (hg.free_iff.mp hb)
  refine ⟨fun b hb => ?_, fun b hb => (hok b hb).aligned,
    hg.inv.used_apart, fun b hb c hc => ?_, fun b c hb hc hne => ?_⟩
  · rw [hg.reserve_eq]
    exact (hok b hb).within
  · exact hg.inv.mixed_apart b hb c (hg.free_iff.mp hc)
  · exact hg.inv.free_apart b c (hg.free_iff.mp hb) (hg.free_iff.mp hc) hne

/-- Along every run, live and free blocks lie in the reserve, aligned
and pairwise apart; no `alloc` hands out memory that is in use.

All of it is in the invariant `Good`, which has the blocks in use and the
free ones inside the reserve and pairwise apart, and which a run keeps
(`run_good`). What `alloc` hands out is in use behind the step, so it is
apart from what was in use before. -/
theorem run_safe (hi : Initial s₀) (hr : Run s₀ tr s) :
    Safe s ∧ ∀ size order flags out s',
      Step s (.alloc size order flags out) s' →
        ∀ b ∈ s.live, Block.Apart ⟨out, order⟩ b := by
  obtain ⟨h, -, hg⟩ := run_good hi hr
  refine ⟨hg.safe, ?_⟩
  intro size order flags out s' hs
  cases hs with
  | alloc ho hmax hr =>
      obtain ⟨n, h', -, hg', -, -⟩ := hg.alloc ho hmax hr
      exact (List.pairwise_cons.mp hg'.inv.used_apart).1

/-- Behind the session one block is live, and the grown reserve is safe. -/
theorem run_safe_booted : ∃ s₀ tr s, Run s₀ tr s
    ∧ tr.map Prod.snd = session ∧ s.live = [⟨0x280000, 19⟩] ∧ Safe s := by
  obtain ⟨m, tr, s, -, -, hi, hr, hev, -, hlive, -⟩ := booted_run
  exact ⟨_, tr, s, hr, hev, hlive, (run_safe hi hr).1⟩

-- ============================================================== coverage

/-- Along a run the reserve is covered exactly as long as no step has
dropped a block: what growth drops never comes back.

The induction is on the run: `step_complete` says that the reserve is
covered behind a step if it was before and the step drops nothing, and in no
other case. A dropped block is in no list and in nobody's hands, which is
why no later step brings it back. -/
theorem run_complete_iff (hi : Initial s₀) (hr : Run s₀ tr s) :
    Complete s ↔ ∀ p ∈ tr, ¬ Drops p.1 p.2 := by
  induction hr with
  | nil =>
      rw [hi.good.complete_iff, hi.live]
      refine iff_of_true (fun x hx => ?_) (by simp)
      refine Or.inr ⟨hi.heap.reserve, ?_, hx⟩
      show s₀.mem.kheap.freeZone
        ∈ (if s₀.mem.kheap.reserveOrder = s₀.mem.kheap.reserveOrder
          then [s₀.mem.kheap.freeZone] else [])
      rw [if_pos rfl]
      exact List.mem_singleton_self _
  | @snoc tr s s' e hr hs ih =>
      obtain ⟨h, -, hg⟩ := run_good hi hr
      rw [hg.step_complete hs, ih]
      simp only [List.mem_append, List.mem_singleton, or_imp, forall_and,
        forall_eq]

/-- A reserve that grew when it was split is covered. -/
theorem run_complete_iff_booted : ∃ s₀ tr s, Run s₀ tr s
    ∧ tr.map Prod.snd = session ∧ s.mem.kheap.reserveOrder = 20
    ∧ Complete s := by
  obtain ⟨m, tr, s, -, -, hi, hr, hev, hkeep, -, hres, -⟩ := booted_run
  exact ⟨_, tr, s, hr, hev, hres, (run_complete_iff hi hr).mpr hkeep⟩

/-- A booted 8 MiB machine loses its first reserve to the first request
for half a megabyte. -/
theorem booted_incomplete : ∃ m s e, booted 7168 = .ret m
    ∧ Initial ⟨m, []⟩ ∧ Run ⟨m, []⟩ [(⟨m, []⟩, e)] s ∧ ¬ Complete s := by
  have hcheck : (booted 7168).holds (fun m =>
      decide (Mem.getOrder 20 0x80000 m.kheap = .ret 19)
        && (m.kheapAlloc 300 0x80000 0).holds fun _ => true) = true := by
    decide +kernel
  obtain ⟨m, hboot, hi, -, hres, hmax, -, -⟩ := booted_small
  rw [hboot, Outcome.holds_ret] at hcheck
  obtain ⟨ho, hr⟩ := (Bool.and_eq_true _ _).mp hcheck
  obtain ⟨⟨out, m'⟩, hr, -⟩ := Outcome.holds_iff.mp hr
  have hs : Step ⟨m, []⟩ (.alloc 0x80000 19 0 out) ⟨m', [⟨out, 19⟩]⟩ :=
    Step.alloc (s := ⟨m, []⟩) ⟨20, decide_eq_true_eq.mp ho⟩
      (by rw [hmax]; decide) hr
  refine ⟨m, _, _, hboot, hi, Run.snoc Run.nil hs, fun hc => ?_⟩
  refine ((hi.good.step_complete hs).mp hc).2 ⟨?_, ?_⟩
  · show m.kheap.reserveOrder < 19
    omega
  · rw [hi.head]
    exact Nat.ne_of_gt hi.zone_pos

-- ============================================================ coalescing

/-- Along every run no two buddies are both free, and `buddy_free` of a
live block returns without a look at a list above the reserve order.

The first half is the part `noPair` of the invariant. For the second, the
lists above the reserve order are cut off the table: a loop that looked
there would be a fault. It goes on for as long as it finds a free buddy, and
there are only so many free blocks. -/
theorem run_coalesced (hi : Initial s₀) (hr : Run s₀ tr s) :
    Coalesced s ∧ ∀ b ∈ s.live,
      (∀ fuel, Mem.buddyFree fuel b.addr b.order (cutTable s.mem) ≠ .fault)
        ∧ ∃ fuel m',
          Mem.buddyFree fuel b.addr b.order (cutTable s.mem) = .ret m' := by
  obtain ⟨h, -, hg⟩ := run_good hi hr
  refine ⟨fun k hk a ha hb => ?_, fun b hb => ?_⟩
  · rw [hg.sim.reserveOrder] at hk
    exact hg.noPair k hk a (hg.free_iff.mp ha) (hg.free_iff.mp hb)
  · have hs := hg.sim
    have hcut : Mem.Sim hi.zone h.reserveOrder (cutTable s.mem) h := by
      refine ⟨hs.page_le, hs.minOrder, hs.maxOrder, hs.freeZone,
        hs.reserveOrder, fun k hmin hk => ?_, fun k hmin hk =>
          hs.chain k hmin (Nat.le_trans hk h.le_max)⟩
      have h1 := hs.minOrder
      have h2 := hs.reserveOrder
      show s.mem.kheap.minOrder ≤ k ∧ k - s.mem.kheap.minOrder
        < s.mem.kheap.reserveOrder - s.mem.kheap.minOrder + 1
      omega
    obtain ⟨n, hn⟩ := Mem.exists_length_le h.free h.reserveOrder
    have hfree := fun fuel => Mem.buddyFree_sim fuel hcut (hg.inv_cons hb)
      (Nat.le_refl _) hn
    refine ⟨fun fuel hf => ?_, n + 2 + h.reserveOrder, ?_⟩
    · rcases hfree fuel with ⟨ht, -⟩ | ⟨m', h', hret, -⟩
      · rw [ht] at hf
        cases hf
      · rw [hret] at hf
        cases hf
    · rcases hfree (n + 2 + h.reserveOrder) with ⟨-, hle⟩ | ⟨m', h', hret, -⟩
      · omega
      · exact ⟨m', hret⟩

/-- Behind the session's `free` no two buddies are left. -/
theorem run_coalesced_booted : ∃ s₀ tr s, Run s₀ tr s
    ∧ tr.map Prod.snd = session ∧ Coalesced s := by
  obtain ⟨m, tr, s, -, -, hi, hr, hev, -⟩ := booted_run
  exact ⟨_, tr, s, hr, hev, (run_coalesced hi hr).1⟩

-- ============================================================ refinement

/-- What a call leaves of the blocks that stay live, and what a zeroed
request clears. -/
def Keeps (s : HeapState) (e : Event) (s' : HeapState) : Prop :=
  match e with
  | .alloc size _ flags out =>
      (∀ b ∈ s.live, ∀ x, b.Has x → s'.mem.bytes x = s.mem.bytes x)
        ∧ (flags &&& ALLOC_ZEROED ≠ 0 →
          ∀ x, out ≤ x → x < out + size → s'.mem.bytes x = 0)
  | .free _ _ _ =>
      ∀ b ∈ s'.live, ∀ x, b.Has x → s'.mem.bytes x = s.mem.bytes x
  | _ => True

theorem Good.step_keeps (hg : Good s h) (hs : Step s e s') :
    Keeps s e s' := by
  cases hs with
  | alloc ho hmax hr =>
      obtain ⟨n, h', -, -, hkept, hz⟩ := hg.alloc ho hmax hr
      exact ⟨hkept.bytes, hz⟩
  | free hb ho hr =>
      obtain ⟨h', -, -, hkept⟩ := hg.free hb ho hr
      exact hkept.bytes
  | write hb hx => trivial
  | outside hk hn hb => trivial

/-- The in-memory lists are the list machine's, along every run: each
chain ends in null after the blocks the list machine has there, without
repetition. No call changes a byte of a block that stays live.

`Sim` ties each chain to a list, `run_good` has one run of the list machine
for the run in memory, and `heapRun_unique` says that the calls leave no
choice of it. -/
theorem run_refines (hi : Initial s₀) (hr : Run s₀ tr s) :
    (∃ h, Heap.Run hi.heap (tr.map Prod.snd) h
        ∧ (∀ h', Heap.Run hi.heap (tr.map Prod.snd) h' → h' = h)
        ∧ ∀ k, s.mem.kheap.minOrder ≤ k → k ≤ s.mem.kheap.maxOrder →
          Chain s.mem.load (s.mem.kheap.head k) (h.free k)
            ∧ (h.free k).Nodup)
      ∧ ∀ e s', Step s e s' → Keeps s e s' := by
  obtain ⟨h, hrun, hg⟩ := run_good hi hr
  refine ⟨⟨h, hrun, fun h' hrun' => heapRun_unique hrun' hrun,
    fun k hmin hmax => ⟨?_, hg.inv.nodup k⟩⟩, fun e s' hs =>
      hg.step_keeps hs⟩
  rw [hg.sim.minOrder] at hmin
  rw [hg.sim.maxOrder] at hmax
  exact hg.sim.chain k hmin hmax

/-- The chains behind the session, and what the next call keeps. -/
theorem run_refines_booted : ∃ s₀ tr s, Run s₀ tr s
    ∧ tr.map Prod.snd = session
    ∧ (∀ k, s.mem.kheap.minOrder ≤ k → k ≤ s.mem.kheap.maxOrder →
      ∃ l, Chain s.mem.load (s.mem.kheap.head k) l ∧ l.Nodup)
    ∧ ∀ e s', Step s e s' → Keeps s e s' := by
  obtain ⟨m, tr, s, -, -, hi, hr, hev, -⟩ := booted_run
  obtain ⟨⟨h, -, -, hc⟩, hk⟩ := run_refines hi hr
  exact ⟨_, tr, s, hr, hev,
    fun k hmin hmax => ⟨h.free k, hc k hmin hmax⟩, hk⟩

-- =============================================== growth under the own lock

/-- A block for the request is on some list. -/
def FreeFrom (s : HeapState) (order : Nat) : Prop :=
  ∃ k, order ≤ k ∧ k ≤ s.mem.kheap.maxOrder ∧ s.mem.kheap.head k ≠ 0

/-- At the start the reserve is free. -/
theorem Initial.freeFrom (hi : Initial s)
    (ho : order ≤ s.mem.kheap.reserveOrder) : s.FreeFrom order := by
  refine ⟨_, ho, hi.le_max, ?_⟩
  rw [hi.head]
  exact Nat.ne_of_gt hi.zone_pos

/-- Where growth starts to map. -/
def growthBase (s : HeapState) : Nat :=
  s.mem.kheap.freeZone + 2 ^ s.mem.kheap.reserveOrder

/-- How many pages growth for the request maps: up to the first reserve
that is larger than the request, or to the whole zone. -/
def growthPages (s : HeapState) (order : Nat) : Nat :=
  Mem.pagesTo s.mem.kheap.reserveOrder
    (min (max order s.mem.kheap.reserveOrder + 1) s.mem.kheap.maxOrder)

/-- Two ways for a request to come to an end: a free block, or growth
that is not blocked and either runs out of frames or makes room. -/
def CanFinish (s : HeapState) (order : Nat) : Prop :=
  s.FreeFrom order
    ∨ (¬ s.mem.Blocked s.growthBase (s.growthPages order)
      ∧ (s.mem.frames.avail < s.growthPages order
        ∨ (order < s.mem.kheap.maxOrder
          ∧ s.mem.kheap.reserveOrder < s.mem.kheap.maxOrder)))

namespace Good

theorem freeFrom_iff (hg : Good s h) (hmin : z.minOrder ≤ order) :
    s.FreeFrom order ↔ ∃ k, order ≤ k ∧ h.free k ≠ [] := by
  have hs := hg.sim
  unfold FreeFrom
  rw [hs.maxOrder]
  constructor
  · intro hex
    obtain ⟨k, hk, hmax, hne⟩ := hex
    exact ⟨k, hk, fun hnil =>
      hne ((hs.head_eq_zero_iff (Nat.le_trans hmin hk) hmax).mpr hnil)⟩
  · intro hex
    obtain ⟨k, hk, hne⟩ := hex
    have hkr : k ≤ h.reserveOrder := by
      by_contra hlt
      exact hne (hg.inv.free_above (Nat.not_le.mp hlt))
    have hmax := Nat.le_trans hkr h.le_max
    exact ⟨k, hk, hmax, fun h0 =>
      hne ((hs.head_eq_zero_iff (Nat.le_trans hmin hk) hmax).mp h0)⟩

/-- With a block on a list, the request is served without growth. -/
theorem alloc_of_freeFrom (hg : Good s h) (hmin : z.minOrder ≤ order)
    (hf : s.FreeFrom order) (fuel : Nat) :
    (Mem.buddyAlloc (Mem.kheapAlloc fuel) fuel order (s.mem.setLock true)
        = .timeout ∧ fuel ≤ z.maxOrder + 1)
      ∨ ∃ r, Mem.buddyAlloc (Mem.kheapAlloc fuel) fuel order
        (s.mem.setLock true) = .ret r := by
  obtain ⟨k, hk, hne⟩ := (hg.freeFrom_iff hmin).mp hf
  have hkr : k ≤ h.reserveOrder := by
    by_contra hlt
    exact hne (hg.inv.free_above (Nat.not_le.mp hlt))
  have hmax := h.le_max
  have hstops := Mem.kheapAlloc_stopsLocked fuel
  rcases Mem.buddyAlloc_of_free fuel hstops rfl (hg.sim.setLock true)
      hg.inv hmin hk hkr hne with ⟨ht, hle⟩ | hr
  · exact Or.inl ⟨ht, by omega⟩
  · exact Or.inr hr

/-- Without one, the request comes to what growth comes to. -/
theorem alloc_maps (hg : Good s h) (hmin : z.minOrder ≤ order)
    (hmax : order ≤ z.maxOrder) (hf : ¬ s.FreeFrom order) (fuel : Nat) :
    (s.mem.setLock true).Maps s.growthBase (s.growthPages order)
      (fuel ≤ 2 ^ 20 + 66
        ∨ ((order = z.maxOrder ∨ h.reserveOrder = z.maxOrder)
          ∧ s.mem.Fits s.growthBase (s.growthPages order)))
      (fun _ => order < z.maxOrder ∧ h.reserveOrder < z.maxOrder)
      (Mem.buddyAlloc (Mem.kheapAlloc fuel) fuel order
        (s.mem.setLock true)) := by
  have hs := hg.sim
  cases fuel with
  | zero => exact .timeout (Or.inl (by omega))
  | succ fuel =>
      have hnone : ∀ k, order ≤ k → h.free k = [] := by
        intro k hk
        by_contra hne
        exact hf ((hg.freeFrom_iff hmin).mpr ⟨k, hk, hne⟩)
      have hmap := Mem.buddyAlloc_maps (fuel + 1)
        (Mem.kheapAlloc_spinsLocked fuel) rfl (hs.setLock true) hg.inv
        hg.frames_le hmin hmax hnone
      have hbase : s.growthBase = z.base + 2 ^ h.reserveOrder := by
        unfold growthBase
        rw [hs.freeZone, hs.reserveOrder]
      have hpages : s.growthPages order
          = Mem.growthPages z h.reserveOrder order := by
        unfold growthPages Mem.growthPages
        rw [hs.maxOrder, hs.reserveOrder]
      have hlt := z.max_lt
      rw [hbase, hpages]
      refine hmap.mono ?_
      intro hor
      rcases hor with hle | hstuck
      · exact Or.inl (by omega)
      · exact Or.inr hstuck

/-- `buddy_alloc` comes to an end exactly when it can. -/
theorem finishes_iff (hg : Good s h) (hmin : z.minOrder ≤ order)
    (hmax : order ≤ z.maxOrder) :
    (∃ fuel, (Mem.buddyAlloc (Mem.kheapAlloc fuel) fuel order
      (s.mem.setLock true)).Finished) ↔ s.CanFinish order := by
  unfold CanFinish
  rw [hg.sim.maxOrder, hg.sim.reserveOrder]
  by_cases hf : s.FreeFrom order
  · refine iff_of_true ⟨z.maxOrder + 2, ?_⟩ (Or.inl hf)
    rcases hg.alloc_of_freeFrom hmin hf (z.maxOrder + 2) with
      ⟨-, hle⟩ | ⟨r, hr⟩
    · omega
    · rw [hr]
      trivial
  · rw [or_iff_right hf]
    have hmaps := hg.alloc_maps hmin hmax hf
    constructor
    · intro hex
      obtain ⟨fuel, hfin⟩ := hex
      have hx := hmaps fuel
      generalize Mem.buddyAlloc (Mem.kheapAlloc fuel) fuel order
        (s.mem.setLock true) = x at hfin hx
      cases hx with
      | ret hfit hd => exact ⟨hfit.1, Or.inr hd⟩
      | panic hb hlt => exact ⟨hb, Or.inl hlt⟩
      | spin hb => exact hfin.elim
      | timeout hl => exact hfin.elim
    · intro hand
      obtain ⟨hb, hcase⟩ := hand
      -- fuel for every page of the address space and for every order
      refine ⟨2 ^ 20 + 67, ?_⟩
      have hx := hmaps (2 ^ 20 + 67)
      generalize Mem.buddyAlloc (Mem.kheapAlloc (2 ^ 20 + 67)) (2 ^ 20 + 67)
        order (s.mem.setLock true) = x at hx ⊢
      cases hx with
      | ret hfit hd => trivial
      | panic hb hlt => trivial
      | spin hb' => exact absurd hb' hb
      | timeout hl =>
          exfalso
          rcases hl with hle | ⟨hstuck, hfit⟩
          · omega
          · have hfit' := hfit.2
            omega

/-- With frames enough, `alloc` waits for its own lock exactly when it
has to grow into a page without a table. -/
theorem never_spins_iff (flags : Nat) (hg : Good s h)
    (ho : Mem.IsOrder s.mem.kheap size order)
    (hmax : order ≤ s.mem.kheap.maxOrder)
    (hfr : s.growthPages order ≤ s.mem.frames.avail) :
    (∀ fuel, Mem.kheapAlloc fuel size flags s.mem ≠ .spin)
      ↔ s.FreeFrom order ∨ ∀ i < s.growthPages order,
        ¬ s.mem.Missing (s.growthBase + 4096 * i) := by
  have hmin : z.minOrder ≤ order := by
    rw [← hg.sim.minOrder]
    exact ho.spec.1
  rw [hg.sim.maxOrder] at hmax
  -- `alloc` spins when its `buddy_alloc` does
  have hcall : ∀ fuel, Mem.kheapAlloc (fuel + 1) size flags s.mem = .spin ↔
      Mem.getOrder fuel size s.mem.kheap = .ret order
        ∧ Mem.buddyAlloc (Mem.kheapAlloc fuel) fuel order
          (s.mem.setLock true) = .spin := by
    intro fuel
    have hgo : Mem.getOrder fuel size (s.mem.setLock true).kheap
        = Mem.getOrder fuel size s.mem.kheap := rfl
    simp only [Mem.kheapAlloc, hg.unlocked, Bool.false_eq_true, if_false, hgo]
    cases hord : Mem.getOrder fuel size s.mem.kheap with
    | ret o =>
        obtain rfl := ho.spec.2.2 s.mem.kheap fuel o rfl hord
        rw [Outcome.ret_bind]
        cases Mem.buddyAlloc (Mem.kheapAlloc fuel) fuel o
          (s.mem.setLock true) <;> simp
    | spin =>
        exfalso
        exact Mem.getOrder_ne_spin hord
    | panic msg => simp
    | fault => simp
    | timeout => simp
  by_cases hf : s.FreeFrom order
  · refine iff_of_true (fun fuel hspin => ?_) (Or.inl hf)
    cases fuel with
    | zero => cases hspin
    | succ fuel =>
        have hb := ((hcall fuel).mp hspin).2
        rcases hg.alloc_of_freeFrom hmin hf fuel with ⟨ht, -⟩ | ⟨r, hr⟩
        · rw [ht] at hb
          cases hb
        · rw [hr] at hb
          cases hb
  · rw [or_iff_right hf]
    have hmaps := hg.alloc_maps hmin hmax hf
    constructor
    · intro hno i hi hm
      -- a page without a table: the wait for the lock, with enough fuel
      have hbl : s.mem.Blocked s.growthBase (s.growthPages order) :=
        ⟨i, hi, hm, by omega⟩
      obtain ⟨n, hn⟩ := ho.eventually
      refine hno (n + 2 ^ 20 + 67 + 1) ((hcall _).mpr
        ⟨hn _ (by omega), ?_⟩)
      have hx := hmaps (n + 2 ^ 20 + 67)
      generalize Mem.buddyAlloc (Mem.kheapAlloc (n + 2 ^ 20 + 67))
        (n + 2 ^ 20 + 67) order (s.mem.setLock true) = x at hx ⊢
      cases hx with
      | ret hfit hd => exact absurd hbl hfit.1
      | panic hb hlt => exact absurd hbl hb
      | spin hb => rfl
      | timeout hl =>
          rcases hl with hle | ⟨-, hfit⟩
          · omega
          · exact absurd hbl hfit.1
    · intro hall fuel hspin
      cases fuel with
      | zero => cases hspin
      | succ fuel =>
          have hb := ((hcall fuel).mp hspin).2
          have hx := hmaps fuel
          rw [hb] at hx
          cases hx with
          | spin hbl =>
              obtain ⟨i, hi, hm, -⟩ := hbl
              exact hall i hi hm

end Good

/-- `alloc` of less than the largest order, with frames enough, never
asks for its own lock exactly when a free block is there or every page
that growth maps has its table.

The lock is asked for a second time only through `get_page`, for a page
table, while growth maps its pages. So the condition is on the directory, at
the pages that growth would map. -/
theorem alloc_never_spins_iff (hi : Initial s₀) (hr : Run s₀ tr s)
    (ho : Mem.IsOrder s.mem.kheap size order)
    (hlt : order < s.mem.kheap.maxOrder)
    (hfr : s.growthPages order ≤ s.mem.frames.avail) :
    (∀ fuel, Mem.kheapAlloc fuel size flags s.mem ≠ .spin)
      ↔ s.FreeFrom order ∨ ∀ i < s.growthPages order,
        ¬ s.mem.Missing (s.growthBase + 4096 * i) := by
  obtain ⟨h, -, hg⟩ := run_good hi hr
  exact hg.never_spins_iff flags ho (Nat.le_of_lt hlt) hfr

/-- The booted 8 MiB machine has its whole reserve free, so a request for
5000 bytes never waits for the lock. -/
theorem alloc_never_spins_iff_booted : ∃ m, booted 7168 = .ret m
    ∧ ∀ fuel, Mem.kheapAlloc fuel 5000 0 m ≠ .spin := by
  obtain ⟨m, hboot, hi, -, hres, hmax, ho, hfr⟩ := booted_small
  have hlt : 13 < m.kheap.maxOrder := by omega
  have hpages : growthPages ⟨m, []⟩ 13 ≤ m.frames.avail := by
    refine Nat.le_trans ?_ hfr
    unfold growthPages
    simp only [hres, hmax]
    decide
  refine ⟨m, hboot, (alloc_never_spins_iff hi Run.nil ho hlt hpages).mpr
    (Or.inl (hi.freeFrom ?_))⟩
  simp only [hres]
  decide

/-- A booted 64 MiB machine, with frames enough: the first request for 4
MiB grows into the next directory entry, asks the heap for a page table
and waits for the lock it holds. -/
theorem booted_spins : ∃ m, booted 64512 = .ret m ∧ Initial ⟨m, []⟩
    ∧ m.pagingEnabled = true ∧ Mem.IsOrder m.kheap 0x400000 22
    ∧ 22 < m.kheap.maxOrder
    ∧ growthPages ⟨m, []⟩ 22 ≤ m.frames.avail
    ∧ ∃ fuel, Mem.kheapAlloc fuel 0x400000 0 m = .spin := by
  have hcheck : (booted 64512).holds (fun m => looksInitial m
      && decide (m.pagingEnabled = true ∧ m.kheap.reserveOrder = 18
        ∧ m.kheap.maxOrder = 23 ∧ m.kheap.minOrder = 12
        ∧ m.kheap.freeZone = 0x800000
        ∧ m.frames.nframes = 16128 ∧ m.currentPd.tables 3 = 0
        ∧ Mem.getOrder 30 0x400000 m.kheap = .ret 22
        ∧ ¬ m.frames.Unused 0)
      && (List.range 62).all fun j => decide (m.frames.words (12 + j) = 0))
      = true := by
    decide +kernel
  obtain ⟨m, hboot, hm⟩ := Outcome.holds_iff.mp hcheck
  simp only [Bool.and_eq_true, decide_eq_true_eq, List.all_eq_true,
    List.mem_range] at hm
  obtain ⟨⟨hinit, hpg, hres, hmax, hmin, hfz, hn, hpd, ho, h0⟩, hz⟩ := hm
  have hi := initial_of_looksInitial hinit
  have hpages : growthPages ⟨m, []⟩ 22 = 1984 := by
    unfold growthPages
    simp only [hres, hmax]
    decide
  have hfr : growthPages ⟨m, []⟩ 22 ≤ m.frames.avail := by
    rw [hpages]
    refine Frames.le_avail (c := 62) h0 hz ?_
    rw [hn]
    decide
  have hord : Mem.IsOrder m.kheap 0x400000 22 := ⟨30, ho⟩
  refine ⟨m, hboot, hi, hpg, hord, by omega, hfr, ?_⟩
  by_contra hno
  have hnever := (Good.never_spins_iff 0 hi.good hord
    (by simp only [hmax]; decide) hfr).mp fun fuel hs => hno ⟨fuel, hs⟩
  rcases hnever with ⟨k, hk, hkm, hne⟩ | hall
  · refine hne (hi.others k ?_ hkm ?_)
    · simp only [hmin]
      omega
    · simp only [hres]
      omega
  · -- the 960th page is the first of directory entry 3
    refine hall 960 (by omega) ?_
    unfold Mem.Missing growthBase
    simp only [hfz, hres]
    exact hpd

/-- `buddy_alloc`, called with the lock held as `alloc` does, returns or
panics exactly when a block is free, or growth is not blocked and either
runs out of frames or makes room for the request.

`CanFinish` has the cases of the loop: nothing to grow for; a doubling that
panics, since the frames run out before a table is missing; doublings that
all come back, and make room. -/
theorem buddyAlloc_finishes_iff (hi : Initial s₀) (hr : Run s₀ tr s)
    (hmin : s.mem.kheap.minOrder ≤ order)
    (hmax : order ≤ s.mem.kheap.maxOrder) :
    (∃ fuel, (Mem.buddyAlloc (Mem.kheapAlloc fuel) fuel order
      (s.mem.setLock true)).Finished) ↔ s.CanFinish order := by
  obtain ⟨h, -, hg⟩ := run_good hi hr
  rw [hg.sim.minOrder] at hmin
  rw [hg.sim.maxOrder] at hmax
  exact hg.finishes_iff hmin hmax

/-- On that machine the search for a block of order 13 comes to an end. -/
theorem buddyAlloc_finishes_iff_booted : ∃ m, booted 7168 = .ret m
    ∧ ∃ fuel, (Mem.buddyAlloc (Mem.kheapAlloc fuel) fuel 13
      (m.setLock true)).Finished := by
  obtain ⟨m, hboot, hi, hmin, hres, hmax, -, -⟩ := booted_small
  refine ⟨m, hboot, (buddyAlloc_finishes_iff hi Run.nil
    (by simp only [hmin]; decide) (by simp only [hmax]; decide)).mpr
    (Or.inl (hi.freeFrom ?_))⟩
  simp only [hres]
  decide

/-- On a booted 8 MiB machine the request for the largest order never
ends: growth stops at that order, the loop waits for one more. -/
theorem booted_diverges : ∃ m, booted 7168 = .ret m ∧ Initial ⟨m, []⟩
    ∧ ∀ fuel, ¬ (Mem.buddyAlloc (Mem.kheapAlloc fuel) fuel
      m.kheap.maxOrder (m.setLock true)).Finished := by
  obtain ⟨m, hboot, hi, hmin, hres, hmax, -, hfr⟩ := booted_small
  refine ⟨m, hboot, hi, fun fuel hfin => ?_⟩
  have hcan : CanFinish ⟨m, []⟩ m.kheap.maxOrder :=
    (hi.good.finishes_iff hi.zone.min_le_max (Nat.le_refl _)).mp
      ⟨fuel, hfin⟩
  rcases hcan with ⟨k, hk, hkm, hne⟩ | ⟨-, hlt | ⟨hlt, -⟩⟩
  · refine hne (hi.others k ?_ hkm ?_)
    · simp only [hmin]
      omega
    · simp only [hres]
      omega
  · have hpages : growthPages ⟨m, []⟩ m.kheap.maxOrder = 192 := by
      unfold growthPages
      simp only [hres, hmax]
      decide
    rw [hpages] at hlt
    have hlt' : m.frames.avail < 192 := hlt
    omega
  · exact absurd hlt (Nat.lt_irrefl _)

end HeapState

end Ntibux
