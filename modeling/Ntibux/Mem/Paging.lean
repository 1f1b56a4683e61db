/-
The mapping half of mem.cpp: frames are claimed for page-table entries,
and page tables are allocated as the directory needs them.

`get_page` calls `kheap::alloc`, and `kheap::alloc` comes back here when
the reserve grows. The cycle is cut at that call: everything in this
file takes the heap's allocator as the parameter `kalloc`, and
`Mem/Kheap.lean` closes the loop by passing the allocator itself.
-/
import Ntibux.Mem.Basic

namespace Ntibux

/-- What `kheap::alloc(size, flags)` looks like to its callers. -/
abbrev Kalloc := Nat → Nat → Mem → Outcome (Nat × Mem)

namespace Mem

-- ================================================================ frames

/-- `mem::alloc_frame(p, frame, flags)`. -/
def allocFrameAt (p : PagePtr) (frame flags : Nat) (m : Mem) :
    Outcome (Nat × Mem) := do
  let free ← m.frames.isFree frame
  if free then do
    let frames ← m.frames.markFrame frame
    .ret (1, { m with frames := frames }.setPage p (claim frame flags))
  else .ret (0, m)

/-- `mem::alloc_frame(p, flags)`. -/
def allocFrame (p : PagePtr) (flags : Nat) (m : Mem) :
    Outcome (Nat × Mem) :=
  let frame := m.frames.getFreeFrame
  if frame = 0 then .panic "no available frame found"
  else m.allocFrameAt p frame flags

-- ================================================================ tables

/-- `mem::get_paddr`. -/
def getPaddr (m : Mem) (vaddr : Nat) : Nat :=
  u32 ((m.pages (m.currentPd.tables (directoryIndex vaddr))
    (tableIndex vaddr) &&& 0xfffff000) + (vaddr &&& 0xfff))

/-- `kheap::unpaged_alloc(size, flags)`. -/
def unpagedAlloc (size flags : Nat) (m : Mem) : Outcome (Nat × Mem) :=
  if m.kheap.locked then .spin
  else
    let out := if flags &&& ALLOC_ALIGNED ≠ 0
      then u32 (m.kheap.freeZone + 0xfff) &&& 0xfffff000
      else m.kheap.freeZone
    let m := { m with
      kheap := { m.kheap with freeZone := u32 (out + size) } }
    .ret (out, if flags &&& ALLOC_ZEROED ≠ 0 then m.zero out size else m)

/-- `mem::get_page`: the entry of `address`, behind a new zeroed table if
the directory has none there yet. -/
def getPage (kalloc : Kalloc) (address : Nat) (m : Mem) :
    Outcome (PagePtr × Mem) := do
  let d := directoryIndex address
  if m.currentPd.tables d = 0 then do
    if m.pagingEnabled then do
      let (pt, m) ←
        kalloc sizeofPageTable (ALLOC_ALIGNED ||| ALLOC_ZEROED) m
      let m := (m.newTable pt).setTable d pt (m.currentPd.paddrs d)
      let m := m.setTable d pt (m.getPaddr pt ||| 7)
      .ret ((m.currentPd.tables d, tableIndex address), m)
    else do
      let (pt, m) ←
        m.unpagedAlloc sizeofPageTable (ALLOC_ALIGNED ||| ALLOC_ZEROED)
      let m := (m.newTable pt).setTable d pt (pt ||| 7)
      .ret ((m.currentPd.tables d, tableIndex address), m)
  else .ret ((m.currentPd.tables d, tableIndex address), m)

-- =============================================================== mapping

/-- The MMU, once paging is on: the page `vaddr` whose entry is `p` now
reads what the entry's frame holds. Not code of the source; it is what
a write to a live page table does. -/
def mmu (vaddr : Nat) (p : PagePtr) (m : Mem) : Mem :=
  if m.pagingEnabled then
    { m with bytes := fun x =>
        if vaddr ≤ x ∧ x < vaddr + PAGESIZE then
          m.ram ((m.page p &&& 0xfffff000) + (x - vaddr))
        else m.bytes x }
  else m

/-- `mem::map(vaddr, flags)`. -/
def map (kalloc : Kalloc) (vaddr flags : Nat) (m : Mem) :
    Outcome (Nat × Mem) := do
  let vaddr := vaddr &&& 0xfffff000
  let (p, m) ← m.getPage kalloc vaddr
  let (r, m) ← m.allocFrame p flags
  .ret (r, if r = 0 then m else m.mmu vaddr p)

/-- `mem::map(vaddr, paddr, flags)`. -/
def mapAt (kalloc : Kalloc) (vaddr paddr flags : Nat) (m : Mem) :
    Outcome (Nat × Mem) := do
  let vaddr := vaddr &&& 0xfffff000
  let paddr := paddr &&& 0xfffff000
  let (p, m) ← m.getPage kalloc vaddr
  let (r, m) ← m.allocFrameAt p paddr flags
  .ret (r, if r = 0 then m else m.mmu vaddr p)

/-- The loop of `mem::map_range(vaddr, range, flags)` from offset `i`. -/
def mapRangeLoop (kalloc : Kalloc) (vaddr range flags : Nat) :
    Nat → Nat → Mem → Outcome Mem
  | 0, _, _ => .timeout
  | fuel + 1, i, m =>
      if i < range then do
        let (r, m) ← m.map kalloc (u32 (vaddr + i)) flags
        if r = 0 then .panic "can't map requested memory"
        else
          mapRangeLoop kalloc vaddr range flags fuel
            (u32 (i + PAGESIZE)) m
      else .ret m

/-- `mem::map_range(vaddr, range, flags)`. -/
def mapRange (kalloc : Kalloc) (fuel vaddr range flags : Nat) (m : Mem) :
    Outcome (Nat × Mem) := do
  let m ← mapRangeLoop kalloc (vaddr &&& 0xfffff000) range flags fuel 0 m
  .ret (1, m)

/-- The loop of `mem::map_range(vaddr, paddr, range, flags)` from offset
`i`. -/
def mapRangeAtLoop (kalloc : Kalloc) (vaddr paddr range flags : Nat) :
    Nat → Nat → Mem → Outcome Mem
  | 0, _, _ => .timeout
  | fuel + 1, i, m =>
      if i < range then do
        let (r, m) ←
          m.mapAt kalloc (u32 (vaddr + i)) (u32 (paddr + i)) flags
        if r = 0 then .panic "can't map requested memory"
        else
          mapRangeAtLoop kalloc vaddr paddr range flags fuel
            (u32 (i + PAGESIZE)) m
      else .ret m

/-- `mem::map_range(vaddr, paddr, range, flags)`. -/
def mapRangeAt (kalloc : Kalloc) (fuel vaddr paddr range flags : Nat)
    (m : Mem) : Outcome (Nat × Mem) := do
  let m ← mapRangeAtLoop kalloc (vaddr &&& 0xfffff000)
    (paddr &&& 0xfffff000) range flags fuel 0 m
  .ret (1, m)

end Mem

end Ntibux
