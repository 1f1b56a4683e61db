/-
One call on a heap that a run has reached.

A block that is allocated and given straight back leaves every free list
as it was, as long as the reserve did not grow (`run_alloc_free`).

The list table is never left by a `free` of a live block, nor by an
`alloc` whose order the heap has; an `alloc` above the largest order
looks at its own list before anything compares the two
(`run_inBounds_iff`).
-/
import Ntibux.Mem.Proofs.Order

namespace Ntibux

namespace Mem

open Buddy (Zone Heap Inv)

variable {z : Zone} {h h' : Heap z} {m m' m₁ : Mem} {used : List Block}
  {kalloc : Kalloc} {k a v r i range order fuel flags addr size : Nat}
  {p : PagePtr} {b : Block}

-- ========================================================= the list table

/-- The list table has as many entries as before, and the lock is as it
was. -/
structure SameOrders (m m' : Mem) : Prop where
  orders : m'.kheap.orders = m.kheap.orders
  locked : m'.kheap.locked = m.kheap.locked

theorem SameOrders.refl (m : Mem) : SameOrders m m := ⟨rfl, rfl⟩

/-- Calls that keep the size of the list table keep it together. -/
theorem SameOrders.trans (h : SameOrders m m₁) (h' : SameOrders m₁ m') :
    SameOrders m m' :=
  ⟨h'.orders.trans h.orders, h'.locked.trans h.locked⟩

theorem SameOrders.of_kheap (h : m'.kheap = m.kheap) : SameOrders m m' :=
  ⟨congrArg Kheap.orders h, congrArg Kheap.locked h⟩

/-- An entry of the list table is written, which makes the table no longer.
-/
theorem setFreeBlock_orders (h : m.setFreeBlock k v = .ret m') :
    SameOrders m m' := by
  unfold setFreeBlock at h
  split at h
  · cases h
    exact ⟨rfl, rfl⟩
  · cases h

/-- Under the lock, mapping leaves the heap's record alone. -/
theorem map_kheap (hk : kalloc.StopsLocked) (hl : m.kheap.locked = true)
    (h : m.map kalloc a flags = .ret (r, m')) : m'.kheap = m.kheap := by
  unfold map at h
  obtain ⟨⟨q, m₁⟩, hp, h⟩ := Outcome.bind_eq_ret.mp h
  rw [getPage_locked hk hl hp] at h
  obtain ⟨⟨r', m₂⟩, hf, h⟩ := Outcome.bind_eq_ret.mp h
  cases h
  have hc := allocFrame_claimed hf
  split
  · exact hc.kheap
  · rw [mmu_kheap, hc.kheap]

/-- While the lock of the heap is held, `map_range` changes nothing of the
heap: a page table that needs memory spins instead. -/
theorem mapRangeLoop_kheap (hk : kalloc.StopsLocked)
    (hl : m.kheap.locked = true)
    (h : mapRangeLoop kalloc a range flags fuel i m = .ret m') :
    m'.kheap = m.kheap := by
  induction fuel generalizing i m with
  | zero => cases h
  | succ fuel ih =>
      unfold mapRangeLoop at h
      split at h
      case isFalse =>
        cases h
        rfl
      case isTrue =>
        obtain ⟨⟨r, m₁⟩, hmap, h⟩ := Outcome.bind_eq_ret.mp h
        have hm := map_kheap hk hl hmap
        simp only at h
        split at h
        case isTrue => cases h
        case isFalse => exact (ih (by rw [hm]; exact hl) h).trans hm

/-- Doubling the reserve raises its order and leaves the list table as long
as it was. -/
theorem doubleReserve_orders (hk : kalloc.StopsLocked)
    (hl : m.kheap.locked = true)
    (h : m.doubleReserve kalloc fuel = .ret m') : SameOrders m m' := by
  unfold doubleReserve at h
  split at h
  case isTrue =>
    cases h
    exact SameOrders.refl m
  case isFalse =>
    obtain ⟨⟨r, m₁⟩, hmap, h⟩ := Outcome.bind_eq_ret.mp h
    obtain ⟨old, -, h⟩ := Outcome.bind_eq_ret.mp h
    obtain ⟨m₂, hset, h⟩ := Outcome.bind_eq_ret.mp h
    cases h
    unfold mapRange at hmap
    obtain ⟨m₃, hloop, hmap⟩ := Outcome.bind_eq_ret.mp hmap
    cases hmap
    have hs₁ := SameOrders.of_kheap (mapRangeLoop_kheap hk hl hloop)
    have hs₂ := setFreeBlock_orders hset
    exact ⟨hs₂.orders.trans hs₁.orders, hs₂.locked.trans hs₁.locked⟩

/-- So does doubling it again and again. -/
theorem reserveLoop_orders (hk : kalloc.StopsLocked)
    (hl : m.kheap.locked = true)
    (h : reserveLoop kalloc order fuel m = .ret m') : SameOrders m m' := by
  induction fuel generalizing m with
  | zero => cases h
  | succ fuel ih =>
      unfold reserveLoop at h
      split at h
      case isFalse =>
        cases h
        exact SameOrders.refl _
      case isTrue =>
        split at h
        case isTrue => cases h
        case isFalse =>
          obtain ⟨m₁, hd, h⟩ := Outcome.bind_eq_ret.mp h
          have hs := doubleReserve_orders hk hl hd
          exact hs.trans (ih (hs.locked.trans hl) h)

/-- An allocation grows the reserve at most. -/
theorem buddyAlloc_orders (hk : kalloc.StopsLocked)
    (hl : m.kheap.locked = true)
    (h : buddyAlloc kalloc fuel order m = .ret (a, m')) :
    SameOrders m m' := by
  induction fuel generalizing order m a m' with
  | zero => cases h
  | succ fuel ih =>
      unfold buddyAlloc at h
      obtain ⟨first, -, h⟩ := Outcome.bind_eq_ret.mp h
      obtain ⟨m₁, hloop, h⟩ := Outcome.bind_eq_ret.mp h
      have hs₁ : SameOrders m m₁ := by
        split at hloop
        · exact reserveLoop_orders hk hl hloop
        · rw [Outcome.ret.inj hloop]
          exact SameOrders.refl _
      obtain ⟨out, -, h⟩ := Outcome.bind_eq_ret.mp h
      split at h
      · obtain ⟨m₂, hset, h⟩ := Outcome.bind_eq_ret.mp h
        cases h
        exact hs₁.trans (setFreeBlock_orders hset)
      · obtain ⟨⟨out', m₂⟩, hrec, h⟩ := Outcome.bind_eq_ret.mp h
        obtain ⟨next, -, h⟩ := Outcome.bind_eq_ret.mp h
        obtain ⟨m₃, hset, h⟩ := Outcome.bind_eq_ret.mp h
        cases h
        have hs₂ := ih (hs₁.locked.trans hl) hrec
        have hs₃ := setFreeBlock_orders hset
        exact hs₁.trans (hs₂.trans ⟨hs₃.orders, hs₃.locked⟩)

/-- The lock is taken and given back around it. -/
theorem kheapAlloc_orders
    (h : kheapAlloc fuel size flags m = .ret (a, m')) :
    m'.kheap.orders = m.kheap.orders := by
  obtain ⟨n, order, m₁, -, -, hb, rfl⟩ := kheapAlloc_eq_ret h
  have hs := buddyAlloc_orders (kheapAlloc_stopsLocked n) rfl hb
  have heq : m₁.kheap.orders = m.kheap.orders := hs.orders
  split <;> exact heq

/-- Coalescing moves blocks from list to list. -/
theorem buddyFree_orders (h : buddyFree fuel addr order m = .ret m') :
    SameOrders m m' := by
  induction fuel generalizing addr order m with
  | zero => cases h
  | succ fuel ih =>
      unfold buddyFree at h
      obtain ⟨tmp, -, h⟩ := Outcome.bind_eq_ret.mp h
      obtain ⟨found, -, h⟩ := Outcome.bind_eq_ret.mp h
      split at h
      · obtain ⟨next, -, h⟩ := Outcome.bind_eq_ret.mp h
        have hs := setFreeBlock_orders h
        exact ⟨hs.orders, hs.locked⟩
      · obtain ⟨m₁, hst, h⟩ := Outcome.bind_eq_ret.mp h
        have hs : SameOrders m m₁ := by
          cases tmp with
          | head k => exact setFreeBlock_orders hst
          | cell c =>
              cases hst
              exact ⟨rfl, rfl⟩
        exact hs.trans (ih h)

/-- So does the whole of `kheap::free`. -/
theorem kheapFree_orders (h : kheapFree fuel addr size m = .ret m') :
    m'.kheap.orders = m.kheap.orders := by
  obtain ⟨order, m₁, -, hb, rfl⟩ := kheapFree_eq_ret h
  exact (buddyFree_orders hb).orders

-- ============================================================= get_order

/-- `get_order` answers or needs more fuel. -/
theorem getOrder_outcome (fuel size : Nat) (kh : Kheap) :
    getOrder fuel size kh = .timeout
      ∨ ∃ order, getOrder fuel size kh = .ret order := by
  have hloop : ∀ fuel k, getOrderLoop size fuel k = .timeout
      ∨ ∃ o, getOrderLoop size fuel k = .ret o := by
    intro fuel
    induction fuel with
    | zero => exact fun _ => .inl rfl
    | succ fuel ih =>
        intro k
        unfold getOrderLoop
        split
        · exact ih (k + 1)
        · exact .inr ⟨k, rfl⟩
  unfold getOrder
  rcases hloop fuel 0 with ht | ⟨o, ho⟩
  · rw [ht]
    exact .inl rfl
  · rw [ho]
    exact .inr ⟨_, rfl⟩

/-- Up to `2^31` there is an order for the size. -/
theorem exists_isOrder (kh : Kheap) (hsize : size ≤ 2 ^ 31) :
    ∃ order, IsOrder kh size order :=
  ⟨_, (getOrder_gives kh hsize).ret⟩

-- ============================================================ outcomes

/-- An `alloc` that returns has found a list for its order. -/
theorem kheapAlloc_order (h : kheapAlloc fuel size flags m = .ret (a, m')) :
    ∃ order, IsOrder m.kheap size order ∧ m.kheap.InTable order := by
  obtain ⟨n, order, m₁, -, ho, hb, -⟩ := kheapAlloc_eq_ret h
  refine ⟨order, ⟨n, ho⟩, ?_⟩
  cases n with
  | zero => cases hb
  | succ n =>
      unfold buddyAlloc at hb
      obtain ⟨first, hf, -⟩ := Outcome.bind_eq_ret.mp hb
      unfold Kheap.getFreeBlock at hf
      split at hf
      · assumption
      · cases hf

/-- An order without a list is a fault before anything else is looked
at. -/
theorem kheapAlloc_fault (hl : m.kheap.locked = false)
    (ho : IsOrder m.kheap size order) (ht : ¬ m.kheap.InTable order)
    (flags : Nat) : ∃ fuel, kheapAlloc fuel size flags m = .fault := by
  obtain ⟨n, hn⟩ := ho.eventually
  refine ⟨n + 1 + 1, ?_⟩
  have hget : (m.setLock true).kheap.getFreeBlock order = .fault :=
    if_neg ht
  have hord : getOrder (n + 1) size (m.setLock true).kheap = .ret order :=
    hn (n + 1) (Nat.le_succ n)
  have hb : buddyAlloc (kheapAlloc (n + 1)) (n + 1) order (m.setLock true)
      = .fault := by
    unfold buddyAlloc
    rw [hget, Outcome.fault_bind]
  unfold kheapAlloc
  rw [if_neg (by rw [hl]; exact Bool.false_ne_true)]
  dsimp only
  rw [hord, Outcome.ret_bind, hb, Outcome.fault_bind]

/-- What `buddy_alloc` never does, `alloc` never does. -/
theorem kheapAlloc_ne_fault (ho : IsOrder m.kheap size order)
    (hb : ∀ fuel, buddyAlloc (kheapAlloc fuel) fuel order (m.setLock true)
      ≠ .fault) : kheapAlloc fuel size flags m ≠ .fault := by
  intro hf
  cases fuel with
  | zero => cases hf
  | succ fuel =>
      unfold kheapAlloc at hf
      dsimp only at hf
      split at hf
      case isTrue => cases hf
      case isFalse =>
        rcases getOrder_outcome fuel size (m.setLock true).kheap with
          ht | ⟨o, hret⟩
        · rw [ht] at hf
          cases hf
        · obtain rfl := ho.spec.2.2 (m.setLock true).kheap fuel o rfl hret
          rw [hret, Outcome.ret_bind] at hf
          have hne := hb fuel
          generalize buddyAlloc (kheapAlloc fuel) fuel o (m.setLock true) = x
            at hf hne
          cases x with
          | fault => exact hne rfl
          | _ => cases hf

/-- `free` of a block in hand returns, given the fuel for it, and meets
no fault on the way. -/
theorem kheapFree_outcome (hs : Sim z z.maxOrder m h)
    (hl : m.kheap.locked = false) (hi : Inv h (b :: used))
    (ho : IsOrder m.kheap size b.order) :
    (∀ fuel, kheapFree fuel b.addr size m ≠ .fault)
      ∧ ∃ n, ∀ fuel, n ≤ fuel →
        ∃ m', kheapFree fuel b.addr size m = .ret m' := by
  obtain ⟨l, hlen⟩ := exists_length_le h.free h.reserveOrder
  have hfree := fun fuel => buddyFree_sim fuel (hs.setLock true) hi h.le_max
    hlen
  have hcall : ∀ fuel, getOrder fuel size m.kheap = .ret b.order →
      kheapFree fuel b.addr size m
        = (do
          let m ← buddyFree fuel b.addr b.order (m.setLock true)
          .ret (m.setLock false)) := by
    intro fuel hret
    have hord : getOrder fuel size (m.setLock true).kheap = .ret b.order :=
      hret
    unfold kheapFree
    rw [if_neg (by rw [hl]; exact Bool.false_ne_true)]
    dsimp only
    rw [hord, Outcome.ret_bind]
  constructor
  · -- no fuel meets a fault: the order is found, or the fuel runs out
    intro fuel hf
    rcases getOrder_outcome fuel size m.kheap with ht | ⟨o, hret⟩
    · have hord : getOrder fuel size (m.setLock true).kheap = .timeout := ht
      unfold kheapFree at hf
      rw [if_neg (by rw [hl]; exact Bool.false_ne_true)] at hf
      dsimp only at hf
      rw [hord] at hf
      cases hf
    · obtain rfl := ho.spec.2.2 m.kheap fuel o rfl hret
      rw [hcall fuel hret] at hf
      rcases hfree fuel with ⟨ht, -⟩ | ⟨m', h', hr, -⟩
      · rw [ht] at hf
        cases hf
      · rw [hr] at hf
        cases hf
  · obtain ⟨n, hn⟩ := ho.eventually
    refine ⟨n + (l + 2 + h.reserveOrder), fun fuel hle => ?_⟩
    rw [hcall fuel (hn fuel (by omega))]
    rcases hfree fuel with ⟨-, hlt⟩ | ⟨m', h', hr, -⟩
    · omega
    · rw [hr]
      exact ⟨_, rfl⟩

-- ============================================================= contents

/-- A block handed out without growth holds what was there before: the
allocator reads its link and writes into the halves that it splits
off. -/
theorem buddyAlloc_content (hk : kalloc.StopsLocked)
    (hl : m.kheap.locked = true) (hs : Sim z z.maxOrder m h)
    (hi : Inv h used) (hmin : z.minOrder ≤ order)
    (hmax : order ≤ z.maxOrder)
    (hr : buddyAlloc kalloc fuel order m = .ret (a, m'))
    (hgrow : m'.kheap.reserveOrder = m.kheap.reserveOrder) :
    ∀ x, Block.Has ⟨a, order⟩ x → m'.bytes x = m.bytes x := by
  induction fuel generalizing order a m' with
  | zero => cases hr
  | succ fuel ih =>
      obtain ⟨h', ha, hs', -⟩ := buddyAlloc_sim hk hl hs hi hmin hmax hr
      have hsame : h'.reserveOrder = h.reserveOrder := by
        rw [← hs'.reserveOrder, hgrow, hs.reserveOrder]
      simp only [buddyAlloc, hs.getFreeBlock hmin hmax, Outcome.ret_bind,
        hs.head_eq_zero_iff hmin hmax] at hr
      rcases Buddy.alloc_cases ha with ⟨rest, hfree, -⟩
        | ⟨-, hle, h₁, rest, hloop, -, rfl⟩ | ⟨hnil, hlt, h₁, -, -⟩
      · -- popped
        obtain ⟨hx, hxne, -⟩ := hs.pop hmin hmax hfree
        rw [if_neg (by simp [hfree]), Outcome.ret_bind,
          hs.getFreeBlock hmin hmax, Outcome.ret_bind, hx, if_pos hxne,
          hs.setFreeBlock hmin hmax, Outcome.ret_bind] at hr
        cases hr
        exact fun _ _ => rfl
      · -- the reserve would have grown
        have hgrown := (Buddy.reserveLoop_reached hle hloop).1
        have hsame' : h₁.reserveOrder = h.reserveOrder := hsame
        omega
      · -- split off a larger block
        rw [if_pos hnil] at hr
        obtain ⟨m₁, hloop, hr⟩ := Outcome.bind_eq_ret.mp hr
        obtain rfl : m = m₁ := by
          cases fuel with
          | zero => cases hloop
          | succ fuel =>
              unfold reserveLoop at hloop
              rw [if_neg (by rw [hs.reserveOrder]; omega)] at hloop
              exact Outcome.ret.inj hloop
        have hrmax := h.le_max
        rw [hs.getFreeBlock hmin hmax, Outcome.ret_bind,
          (hs.head_eq_zero_iff hmin hmax).mpr hnil,
          if_neg (by simp)] at hr
        obtain ⟨⟨out, m₂⟩, hrec, hr⟩ := Outcome.bind_eq_ret.mp hr
        have hmin' : z.minOrder ≤ order + 1 := Nat.le_succ_of_le hmin
        have hmax' : order + 1 ≤ z.maxOrder := by omega
        obtain ⟨h₂, ha₂, hs₂, -⟩ :=
          buddyAlloc_sim hk hl hs hi hmin' hmax' hrec
        have hd : 2 ^ (order + 1) ∣ out :=
          ((Buddy.alloc_grows hi hmin' ha₂).inv.used_ok ⟨out, order + 1⟩
            (by simp)).aligned
        have h32 := z.max_lt
        have htwo : 2 ≤ order := Nat.le_trans z.two_le_min hmin
        simp only [shl1_of_lt (show order < 32 by omega),
          xor_two_pow_of_dvd hd, hs₂.getFreeBlock hmin hmax,
          Outcome.ret_bind] at hr
        rw [setFreeBlock_store (hs₂.table order hmin hmax),
          Outcome.ret_bind] at hr
        cases hr
        intro x hx
        have hbefore := ih hmin' hmax' hrec hgrow x
          ((Block.lower_within a order).has hx)
        rw [← hbefore]
        exact bytes_store_of_apart (b := ⟨a + 2 ^ order, order⟩)
          (Block.halves_apart a order).symm htwo hx _

/-- A block that is not asked to be zeroed is handed out with what was in
it, unless the heap had to grow for it. -/
theorem kheapAlloc_content (hs : Sim z z.maxOrder m h) (hi : Inv h used)
    (ho : IsOrder m.kheap size order) (hmax : order ≤ z.maxOrder)
    (hflags : flags &&& ALLOC_ZEROED = 0)
    (hr : kheapAlloc fuel size flags m = .ret (a, m'))
    (hgrow : m'.kheap.reserveOrder = m.kheap.reserveOrder) :
    ∀ x, Block.Has ⟨a, order⟩ x → m'.bytes x = m.bytes x := by
  have hmin := ho.spec.1
  rw [hs.minOrder] at hmin
  obtain ⟨n, m₁, hb, rfl⟩ := ho.kheapAlloc_eq_ret hr
  rw [if_neg (not_not.mpr hflags)] at hgrow ⊢
  have hcontent := buddyAlloc_content (kheapAlloc_stopsLocked n) rfl
    (hs.setLock true) hi hmin hmax hb hgrow
  exact hcontent

end Mem

namespace HeapState

open Buddy (Zone Heap)

variable {z : Zone} {h : Heap z} {s s₀ s' : HeapState} {e : Event}
  {tr : List (HeapState × Event)} {fuel size order flags out : Nat}
  {m₁ m₂ : Mem}

/-- No call makes the list table longer or shorter. -/
theorem Step.orders (hs : Step s e s') :
    s'.mem.kheap.orders = s.mem.kheap.orders := by
  cases hs with
  | alloc _ _ hr => exact Mem.kheapAlloc_orders hr
  | free _ _ hr => exact Mem.kheapFree_orders hr
  | write _ _ => rfl
  | outside hk _ _ => exact congrArg Kheap.orders hk

/-- Along every run the list table has one entry for each order. -/
theorem run_inTable_iff (hi : Initial s₀) (hr : Run s₀ tr s) (k : Nat) :
    s.mem.kheap.InTable k
      ↔ s.mem.kheap.minOrder ≤ k ∧ k ≤ s.mem.kheap.maxOrder := by
  obtain ⟨h, -, hg⟩ := run_good hi hr
  have horders : s.mem.kheap.orders
      = hi.zone.maxOrder - hi.zone.minOrder + 1 :=
    Ntibux.Run.invariant (P := fun s => s.mem.kheap.orders
        = hi.zone.maxOrder - hi.zone.minOrder + 1)
      (fun _ _ => True) hr (fun _ _ => trivial) hi.orders
      fun _ _ _ hP _ hs => (Step.orders hs).trans hP
  have hle := hi.zone.min_le_max
  unfold Kheap.InTable
  rw [horders, hg.sim.minOrder, hg.sim.maxOrder]
  omega

-- ====================================================== alloc then free

/-- An `alloc` on a heap that a run has reached returns a block without
growing the reserve (a `double_reserve` that comes back to its caller
raises the reserve order). Given back at once, with the same size, the
block leaves every free list as it was before the `alloc`. -/
theorem run_alloc_free (hi : Initial s₀) (hr : Run s₀ tr s)
    (ha : Mem.kheapAlloc fuel size flags s.mem = .ret (out, m₁))
    (hgrow : m₁.kheap.reserveOrder = s.mem.kheap.reserveOrder) :
    ∃ n, ∀ fuel', n ≤ fuel' → ∃ m₂,
      Mem.kheapFree fuel' out size m₁ = .ret m₂
      ∧ ∀ k, s.mem.kheap.minOrder ≤ k → k ≤ s.mem.kheap.maxOrder →
        ∃ l, Chain s.mem.load (s.mem.kheap.head k) l
          ∧ Chain m₂.load (m₂.kheap.head k) l := by
  obtain ⟨h, -, hg⟩ := run_good hi hr
  obtain ⟨order, ho, htable⟩ := Mem.kheapAlloc_order ha
  have hmax := ((run_inTable_iff hi hr order).mp htable).2
  obtain ⟨n, h₁, halloc, hg₁, -, -⟩ := hg.alloc ho hmax ha
  have hmin : hi.zone.minOrder ≤ order := by
    rw [← hg.sim.minOrder]
    exact ho.spec.1
  -- the list machine's answer to the `free` is the heap before the call
  have hsame : h₁.reserveOrder = h.reserveOrder := by
    rw [← hg₁.sim.reserveOrder, hgrow, hg.sim.reserveOrder]
  have hback := Buddy.release_alloc hg.inv hg.noPair hmin halloc hsame
  have ho₁ : Mem.IsOrder m₁.kheap size order := by
    obtain ⟨f, hf⟩ := ho
    refine ⟨f, ?_⟩
    have hm : m₁.kheap.minOrder = s.mem.kheap.minOrder := by
      rw [hg₁.sim.minOrder, hg.sim.minOrder]
    unfold Mem.getOrder at hf ⊢
    rw [hm]
    exact hf
  obtain ⟨-, n', hfree⟩ := Mem.kheapFree_outcome (b := ⟨out, order⟩)
    hg₁.sim hg₁.unlocked hg₁.inv ho₁
  refine ⟨n', fun fuel' hle => ?_⟩
  obtain ⟨m₂, hm₂⟩ := hfree fuel' hle
  obtain ⟨h₂, hrel, hs₂, -⟩ := Mem.kheapFree_sim hg₁.sim hg₁.inv ho₁ hm₂
  obtain rfl := Buddy.release_unique hrel hback
  refine ⟨m₂, hm₂, fun k hkmin hkmax => ⟨h₂.free k, ?_, ?_⟩⟩
  · exact hg.sim.chain k (hg.sim.minOrder ▸ hkmin) (hg.sim.maxOrder ▸ hkmax)
  · exact hs₂.chain k (hg.sim.minOrder ▸ hkmin) (hg.sim.maxOrder ▸ hkmax)

/-- On the heap of a booted kernel: 5000 bytes are allocated and freed, and
each list is the chain that it was. -/
theorem run_alloc_free_booted : ∃ m out m₁, booted 7168 = .ret m
    ∧ Mem.kheapAlloc 20 5000 ALLOC_ZEROED m = .ret (out, m₁)
    ∧ ∃ n, ∀ fuel, n ≤ fuel → ∃ m₂, Mem.kheapFree fuel out 5000 m₁ = .ret m₂
      ∧ ∀ k, m.kheap.minOrder ≤ k → k ≤ m.kheap.maxOrder →
        ∃ l, Chain m.load (m.kheap.head k) l
          ∧ Chain m₂.load (m₂.kheap.head k) l := by
  have hcheck : (booted 7168).holds (fun m =>
      (m.kheapAlloc 20 5000 ALLOC_ZEROED).holds
        fun r => decide (r.2.kheap.reserveOrder = 18)) = true := by
    decide +kernel
  obtain ⟨m, hboot, hi, -, hres, -⟩ := booted_small
  rw [hboot, Outcome.holds_ret] at hcheck
  obtain ⟨⟨out, m₁⟩, ha, hgrow⟩ := Outcome.holds_iff.mp hcheck
  have hsame : m₁.kheap.reserveOrder = m.kheap.reserveOrder := by
    rw [hres]
    exact decide_eq_true_eq.mp hgrow
  exact ⟨m, out, m₁, hboot, ha,
    run_alloc_free hi (Run.nil : Run ⟨m, []⟩ [] ⟨m, []⟩) ha hsame⟩

-- ============================================================= bounds

/-- No access to the list table leaves it: not in an `alloc` of this
size, nor in a `free` of any live block; and an order that the heap does
not have makes `alloc` panic. -/
structure InBounds (s : HeapState) (size order : Nat) : Prop where
  alloc : ∀ fuel flags, Mem.kheapAlloc fuel size flags s.mem ≠ .fault
  free : ∀ b ∈ s.live, ∀ fuel n, Mem.IsOrder s.mem.kheap n b.order →
    Mem.kheapFree fuel b.addr n s.mem ≠ .fault
  panics : s.mem.kheap.maxOrder < order → ∀ flags, ∃ fuel msg,
    Mem.kheapAlloc fuel size flags s.mem = .panic msg

/-- An `alloc` of an order that the heap has meets no fault. -/
theorem Good.alloc_ne_fault (hg : Good s h)
    (ho : Mem.IsOrder s.mem.kheap size order)
    (hmax : order ≤ s.mem.kheap.maxOrder) :
    Mem.kheapAlloc fuel size flags s.mem ≠ .fault := by
  have hmin : z.minOrder ≤ order := by
    rw [← hg.sim.minOrder]
    exact ho.spec.1
  rw [hg.sim.maxOrder] at hmax
  refine Mem.kheapAlloc_ne_fault ho fun fuel hf => ?_
  by_cases hfree : s.FreeFrom order
  · rcases hg.alloc_of_freeFrom hmin hfree fuel with ⟨ht, -⟩ | ⟨r, hret⟩
    · rw [ht] at hf
      cases hf
    · rw [hret] at hf
      cases hf
  · have hx := hg.alloc_maps hmin hmax hfree fuel
    rw [hf] at hx
    cases hx

/-- The list table is not left exactly when the heap has the order that
is asked for.

`alloc` indexes the table with the order it was asked for, before it looks
whether the heap has such blocks. The table has an entry for every order of
the heap, from `run_inTable_iff`, and a live block has an order of the heap,
so `free` stays inside anyway. -/
theorem run_inBounds_iff (hi : Initial s₀) (hr : Run s₀ tr s)
    (hsize : size ≤ 2 ^ 31) :
    ∃ order, Mem.IsOrder s.mem.kheap size order
      ∧ (InBounds s size order ↔ order ≤ s.mem.kheap.maxOrder) := by
  obtain ⟨h, -, hg⟩ := run_good hi hr
  obtain ⟨order, ho⟩ := Mem.exists_isOrder s.mem.kheap hsize
  refine ⟨order, ho, fun hb => ?_, fun hmax => ?_⟩
  · by_contra hlt
    have htable : ¬ s.mem.kheap.InTable order := fun ht =>
      hlt ((run_inTable_iff hi hr order).mp ht).2
    obtain ⟨fuel, hf⟩ := Mem.kheapAlloc_fault hg.unlocked ho htable 0
    exact hb.alloc fuel 0 hf
  · refine ⟨fun fuel flags => hg.alloc_ne_fault ho hmax,
      fun b hb fuel n hn => ?_, fun hlt => absurd hmax (Nat.not_le.mpr hlt)⟩
    exact (Mem.kheapFree_outcome hg.sim hg.unlocked (hg.inv_cons hb) hn).1
      fuel

/-- A request of 5000 bytes is in bounds there. -/
theorem run_inBounds_iff_booted : ∃ m order, booted 7168 = .ret m
    ∧ Mem.IsOrder m.kheap 5000 order ∧ InBounds ⟨m, []⟩ 5000 order := by
  obtain ⟨m, hboot, hi, -, -, hmax, ho, -⟩ := booted_small
  obtain ⟨order, ho', hiff⟩ := run_inBounds_iff hi
    (Run.nil : Run ⟨m, []⟩ [] ⟨m, []⟩) (show 5000 ≤ 2 ^ 31 by decide)
  refine ⟨m, order, hboot, ho', hiff.mpr ?_⟩
  obtain ⟨f, hf⟩ := ho'
  rw [ho.spec.2.2 m.kheap f order rfl hf, hmax]
  decide

/-- The largest heap order of a booted 8 MiB machine is 20. A request
for 2 GiB, of order 31, reads the list table past its end. -/
theorem booted_reads_past : ∃ m fuel, booted 7168 = .ret m
    ∧ Initial ⟨m, []⟩ ∧ Mem.IsOrder m.kheap (2 ^ 31) 31
    ∧ m.kheap.maxOrder = 20 ∧ Mem.kheapAlloc fuel (2 ^ 31) 0 m = .fault
    ∧ ¬ InBounds ⟨m, []⟩ (2 ^ 31) 31 := by
  have hcheck : (booted 7168).holds (fun m => decide
      (Mem.getOrder 40 (2 ^ 31) m.kheap = .ret 31)) = true := by
    decide +kernel
  obtain ⟨m, hboot, hi, -, -, hmax, -⟩ := booted_small
  rw [hboot, Outcome.holds_ret, decide_eq_true_eq] at hcheck
  have ho : Mem.IsOrder m.kheap (2 ^ 31) 31 := ⟨40, hcheck⟩
  have htable : ¬ m.kheap.InTable 31 := by
    intro ht
    have hle := ((run_inTable_iff hi
      (Run.nil : Run ⟨m, []⟩ [] ⟨m, []⟩) 31).mp ht).2
    simp only [hmax] at hle
    omega
  obtain ⟨fuel, hf⟩ := Mem.kheapAlloc_fault hi.unlocked ho htable 0
  exact ⟨m, fuel, hboot, hi, ho, hmax, hf, fun hb => hb.alloc fuel 0 hf⟩

end HeapState

end Ntibux
