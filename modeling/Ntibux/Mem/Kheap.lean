/-
The buddy allocator of mem.cpp, function by function.

The free list of an order is threaded through the first word of its
free blocks, so the list code reads and writes memory (`Mem.load`,
`Mem.store`). `buddy_free` removes a block through a pointer that
starts at the list head and goes on into the blocks: `Slot` is that
pointer.

Each loop and each recursion takes a fuel; `kheapAlloc (fuel + 1)` hands
`kheapAlloc fuel` to the mapping code, which closes the cycle
`alloc -> buddy_alloc -> double_reserve -> map_range -> map -> get_page
-> alloc`.
-/
import Ntibux.Mem.Paging

namespace Ntibux

namespace Mem

-- ============================================================= get_order

/-- The loop of `kheap::get_order` from shift count `order`. -/
def getOrderLoop (size : Nat) : Nat → Nat → Outcome Nat
  | 0, _ => .timeout
  | fuel + 1, order =>
      if shl1 order < size then getOrderLoop size fuel (order + 1)
      else .ret order

/-- `kheap::get_order(size)`. -/
def getOrder (fuel size : Nat) (k : Kheap) : Outcome Nat := do
  let order ← getOrderLoop size fuel 0
  .ret (if order < k.minOrder then k.minOrder else order)

/-- `order` is what `get_order(size)` returns. -/
def IsOrder (k : Kheap) (size order : Nat) : Prop :=
  ∃ fuel, getOrder fuel size k = .ret order

-- ======================================================== double_reserve

/-- `kheap::double_reserve`. -/
def doubleReserve (kalloc : Kalloc) (fuel : Nat) (m : Mem) :
    Outcome Mem :=
  if m.kheap.maxOrder ≤ m.kheap.reserveOrder then .ret m
  else do
    let (_, m) ← m.mapRange kalloc fuel
      (u32 (m.kheap.freeZone + shl1 m.kheap.reserveOrder))
      (shl1 m.kheap.reserveOrder) MAP_KERNEL_DATA
    let r := m.kheap.reserveOrder
    let new := u32 (m.kheap.freeZone + shl1 r)
    let old ← m.kheap.getFreeBlock r
    let m := m.store new (if old ≠ 0 then m.load old else 0)
    let m ← m.setFreeBlock r new
    .ret { m with kheap := { m.kheap with reserveOrder := r + 1 } }

-- =========================================================== buddy_alloc

/-- The growth loop of `kheap::buddy_alloc(order)`. -/
def reserveLoop (kalloc : Kalloc) (order : Nat) :
    Nat → Mem → Outcome Mem
  | 0, _ => .timeout
  | fuel + 1, m =>
      if m.kheap.reserveOrder ≤ order then
        if m.kheap.maxOrder < order then .panic "too big alloc for buddy"
        else do
          let m ← m.doubleReserve kalloc fuel
          reserveLoop kalloc order fuel m
      else .ret m

/-- `kheap::buddy_alloc(order)`. -/
def buddyAlloc (kalloc : Kalloc) :
    Nat → Nat → Mem → Outcome (Nat × Mem)
  | 0, _, _ => .timeout
  | fuel + 1, order, m => do
      let first ← m.kheap.getFreeBlock order
      let m ← (if first = 0 then reserveLoop kalloc order fuel m
        else .ret m)
      let out ← m.kheap.getFreeBlock order
      if out ≠ 0 then do
        -- free block found
        let m ← m.setFreeBlock order (m.load out)
        .ret (out, m)
      else do
        -- split an higher order block
        let (out, m) ← buddyAlloc kalloc fuel (order + 1) m
        let buddy := out ^^^ shl1 order
        let next ← m.kheap.getFreeBlock order
        let m ← (m.store buddy next).setFreeBlock order buddy
        .ret (out, m)

-- ============================================================ buddy_free

/-- A `void *` to a cell that holds a block address: a list head, or the
first word of a block. -/
inductive Slot
  | head (order : Nat)
  | cell (addr : Nat)
  deriving DecidableEq, Repr

/-- `*tmp`. -/
def loadSlot (m : Mem) : Slot → Outcome Nat
  | .head order => m.kheap.getFreeBlock order
  | .cell addr => .ret (m.load addr)

/-- `*tmp = v`. -/
def storeSlot (m : Mem) (v : Nat) : Slot → Outcome Mem
  | .head order => m.setFreeBlock order v
  | .cell addr => .ret (m.store addr v)

/-- The search loop of `kheap::buddy_free`: the slot that holds `buddy`,
or the one that ends the list. -/
def findSlot (buddy : Nat) : Nat → Slot → Mem → Outcome Slot
  | 0, _, _ => .timeout
  | fuel + 1, tmp, m => do
      let v ← m.loadSlot tmp
      if v ≠ 0 ∧ v ≠ buddy then findSlot buddy fuel (.cell v) m
      else .ret tmp

/-- `kheap::buddy_free(addr, order)`. -/
def buddyFree : Nat → Nat → Nat → Mem → Outcome Mem
  | 0, _, _, _ => .timeout
  | fuel + 1, addr, order, m => do
      let buddy := addr ^^^ shl1 order
      let tmp ← findSlot buddy fuel (.head order) m
      let found ← m.loadSlot tmp
      if found = 0 then do
        -- buddy is alloced: push addr in front of free list
        let next ← m.kheap.getFreeBlock order
        (m.store addr next).setFreeBlock order addr
      else do
        -- buddy is free too, recursive merge
        let m ← m.storeSlot (m.load buddy) tmp
        buddyFree fuel (addr &&& not32 (shl1 order)) (order + 1) m

-- ========================================================= alloc and free

/-- `kheap::alloc(size, flags)`. -/
def kheapAlloc : Nat → Kalloc
  | 0 => fun _ _ _ => .timeout
  | fuel + 1 => fun size flags m =>
      if m.kheap.locked then .spin
      else do
        let m := m.setLock true
        let order ← getOrder fuel size m.kheap
        let (out, m) ← buddyAlloc (kheapAlloc fuel) fuel order m
        let m := if flags &&& ALLOC_ZEROED ≠ 0 then m.zero out size else m
        .ret (out, m.setLock false)

/-- `kheap::free(addr, size)`. -/
def kheapFree (fuel addr size : Nat) (m : Mem) : Outcome Mem :=
  if m.kheap.locked then .spin
  else do
    let m := m.setLock true
    let order ← getOrder fuel size m.kheap
    let m ← buddyFree fuel addr order m
    .ret (m.setLock false)

section Returned

variable {fuel size flags addr out : Nat} {m m' : Mem}

/-- A `kheap::alloc` that has returned took a block of the size's order,
under the lock, and cleared the size if so asked. -/
theorem kheapAlloc_eq_ret
    (hr : kheapAlloc fuel size flags m = .ret (out, m')) :
    ∃ n order m₁, fuel = n + 1
      ∧ getOrder n size (m.setLock true).kheap = .ret order
      ∧ buddyAlloc (kheapAlloc n) n order (m.setLock true) = .ret (out, m₁)
      ∧ m' = (if flags &&& ALLOC_ZEROED ≠ 0 then m₁.zero out size
          else m₁).setLock false := by
  cases fuel with
  | zero => cases hr
  | succ fuel =>
      simp only [kheapAlloc] at hr
      split at hr
      case isTrue => cases hr
      case isFalse =>
        obtain ⟨order, ho, hr⟩ := Outcome.bind_eq_ret.mp hr
        obtain ⟨⟨out', m₁⟩, hb, hr⟩ := Outcome.bind_eq_ret.mp hr
        cases hr
        exact ⟨fuel, order, m₁, rfl, ho, hb, rfl⟩

/-- A `kheap::free` that has returned gave back a block of the size's
order, under the lock. -/
theorem kheapFree_eq_ret (hr : kheapFree fuel addr size m = .ret m') :
    ∃ order m₁, getOrder fuel size (m.setLock true).kheap = .ret order
      ∧ buddyFree fuel addr order (m.setLock true) = .ret m₁
      ∧ m' = m₁.setLock false := by
  simp only [kheapFree] at hr
  split at hr
  case isTrue => cases hr
  case isFalse =>
    obtain ⟨order, ho, hr⟩ := Outcome.bind_eq_ret.mp hr
    obtain ⟨m₁, hb, hr⟩ := Outcome.bind_eq_ret.mp hr
    cases hr
    exact ⟨order, m₁, ho, hb, rfl⟩

end Returned

end Mem

end Ntibux
