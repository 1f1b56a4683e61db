/-
`mem::init`: from the image the boot loader leaves to a kernel that runs
on its own page tables.

`kend`, the end of the kernel image, comes from the linker and is a
parameter. The page directory, the bitmap and `free_blocks` are objects
of their own in the model (`Mem/Basic.lean`); the memory reserved for
them is on record by its address.
-/
import Ntibux.Mem.Paging

namespace Ntibux

namespace Mem

-- ============================================================ kheap::init

/-- The loop that finds the order of the whole memory. -/
def maxOrderLoop (total : Nat) : Nat → Nat → Outcome Nat
  | 0, _ => .timeout
  | fuel + 1, order =>
      if shl1 order < total ∧ order < 32 then
        maxOrderLoop total fuel (order + 1)
      else .ret order

/-- The loop that finds the order of the reserve. -/
def reserveOrderLoop (reserve : Nat) : Nat → Nat → Outcome Nat
  | 0, _ => .timeout
  | fuel + 1, order =>
      if shl1 order < reserve then
        reserveOrderLoop reserve fuel (order + 1)
      else .ret order

/-- `kheap::init(reserve)`. -/
def kheapInit (kend fuel reserve : Nat) (m : Mem) : Outcome Mem :=
  if m.kheap.locked then .spin
  else do
    let minOrder := 12
    let maxOrder ← maxOrderLoop m.total fuel minOrder
    let maxOrder := maxOrder - 3 -- 1/8 of the total memory
    let orders := u32 (maxOrder + 1 + (2 ^ 32 - minOrder))
    let reserve := u32 (reserve + 0xfff) &&& 0xfffff000
    let r ← reserveOrderLoop reserve fuel m.kheap.reserveOrder
    let r := if r < minOrder then minOrder else r
    let r := if maxOrder < r then maxOrder else r
    let start := u32 (kend + 0xfff) &&& 0xfffff000
    .ret { m with
      kheap := { m.kheap with
        minOrder := minOrder, maxOrder := maxOrder, orders := orders
        reserveOrder := r, kheapStart := start, freeZone := start } }

-- ================================================= frames and kernel image

/-- `frames::init(nframes)`. -/
def framesInit (nframes : Nat) (m : Mem) : Outcome Mem := do
  let (frames, m) ←
    m.unpagedAlloc (u32 (4 * Frames.index nframes)) ALLOC_ZEROED
  .ret { m with
    frames := { frames := frames, words := fun _ => 0, nframes := nframes } }

/-- `mem::identity_map_kernel`. -/
def identityMapKernel (kalloc : Kalloc) (kend fuel : Nat) (m : Mem) :
    Outcome Mem := do
  let (pd, m) ←
    m.unpagedAlloc sizeofPageDirectory (ALLOC_ALIGNED ||| ALLOC_ZEROED)
  let m := { m with
    kernelPd := pd
    currentPd := { tables := fun _ => 0, paddrs := fun _ => 0 } }
  let (_, m) ← m.mapRangeAt kalloc fuel 0 0 kend MAP_KERNEL_CODE
  .ret m

-- ========================================================= enabling paging

/-- `kheap::enable_paging`. -/
def kheapEnablePaging (kalloc : Kalloc) (fuel : Nat) (m : Mem) :
    Outcome Mem := do
  let top := shl1 m.kheap.maxOrder
  let newFreeZone := u32 (m.kheap.freeZone + (top - 1)) &&& not32 (top - 1)
  let (blocks, m) ←
    m.unpagedAlloc (u32 (4 * m.kheap.orders)) ALLOC_ZEROED
  let freeZone := u32 (m.kheap.freeZone + 0xfff) &&& 0xfffff000
  let m := { m with
    kheap := { m.kheap with
      freeBlocksAt := blocks, freeBlocks := fun _ => 0
      freeZone := freeZone } }
  -- identity map the memory used so far, and one page more
  let (_, m) ← m.mapRangeAt kalloc fuel m.kheap.kheapStart
    m.kheap.kheapStart
    (u32 (m.kheap.freeZone + (2 ^ 32 - m.kheap.kheapStart) + PAGESIZE))
    MAP_KERNEL_DATA
  let (_, m) ← m.mapRange kalloc fuel newFreeZone
    (shl1 m.kheap.reserveOrder) MAP_KERNEL_DATA
  let m := { m with kheap := { m.kheap with freeZone := newFreeZone } }
  let m ← m.setFreeBlock m.kheap.reserveOrder m.kheap.freeZone
  let first ← m.kheap.getFreeBlock m.kheap.reserveOrder
  .ret (m.store first 0)

/-- `mem::enable_paging`: from here on memory reads as the directory that
the CPU walks says. -/
def enablePaging (m : Mem) : Mem :=
  { m with
    pagingEnabled := true
    ram := m.bytes
    bytes := fun x =>
      let pt := m.currentPd.paddrs (directoryIndex x) &&& 0xfffff000
      m.bytes ((m.pages pt (tableIndex x) &&& 0xfffff000) + (x &&& 0xfff)) }

/-- `mem::init(high_mem)`. -/
def init (kalloc : Kalloc) (kend fuel highMem : Nat) (m : Mem) :
    Outcome Mem := do
  let m := { m with total := u32 (highMem <<< 10) }
  let m ← m.kheapInit kend fuel (PAGESIZE * 64)
  let m ← m.framesInit (m.total / PAGESIZE)
  let m ← m.identityMapKernel kalloc kend fuel
  let m ← m.kheapEnablePaging kalloc fuel
  .ret m.enablePaging

/-- `mem` as its constructor and the boot loader leave it, over the
physical memory `ram`. -/
def new (ram : Bytes) : Mem where
  kheap :=
    { minOrder := 0, maxOrder := 0, orders := 0, reserveOrder := 0
      kheapStart := 0, freeZone := 0, freeBlocksAt := 0
      freeBlocks := fun _ => 0, locked := false }
  frames := { frames := 0, words := fun _ => 0, nframes := 0 }
  kernelPd := 0
  currentPd := { tables := fun _ => 0, paddrs := fun _ => 0 }
  pages := fun _ _ => 0
  total := 0
  pagingEnabled := false
  bytes := ram
  ram := ram

end Mem

end Ntibux
