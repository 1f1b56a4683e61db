/-
Where bring-up puts things.

What `mem::init` allocates before paging goes in a row after the kernel
image: the bitmap, the page directory, a page table for each 4 MiB that
the image reaches into, and `free_blocks`, on a page of its own. One
spare page follows, for a page table that mapping all this may need. The
reserve begins at the first boundary of the largest order after the
kernel's tables, in virtual memory; its frames are the ones after the
spare page.

`Layout` is this as arithmetic in the end of the image and the size of
memory. What `mem::init` leaves is compared with it.
-/
import Ntibux.Mem.Tables
import Ntibux.Lib.Chain
import Mathlib.Data.Nat.Log

namespace Ntibux

namespace Layout

-- ============================================================= arithmetic

/-- The first page boundary from `a` on. -/
def pageUp (a : Nat) : Nat := (a + 0xfff) / 4096 * 4096

/-- The 4 MiB regions that `[0, a)` reaches into. -/
def regions (a : Nat) : Nat := (a + 0x3fffff) / 0x400000

-- ============================================================== the regions

section

variable (kend total : Nat)

/-- The frames that the bitmap has a bit for. -/
def tracked : Nat := 32 * (total / PAGESIZE / 32)

/-- The bitmap. -/
def bitmapAt : Nat := pageUp kend

def bitmapSize : Nat := 4 * (total / PAGESIZE / 32)

/-- The kernel's page directory. -/
def directoryAt : Nat := pageUp (bitmapAt kend + bitmapSize total)

/-- The page tables of the kernel image. -/
def tablesAt : Nat := directoryAt kend total + sizeofPageDirectory

/-- `free_blocks`. -/
def blocksAt : Nat := tablesAt kend total + 4096 * regions kend

/-- The spare page. -/
def spareAt : Nat := blocksAt kend total + 4096

def spareEnd : Nat := spareAt kend total + 4096

/-- The page table of a region: the kernel's in a row, then those put up
from the spare page on. -/
def tableAt (d : Nat) : Nat :=
  tablesAt kend total + 4096 * d + if d < regions kend then 0 else 4096

-- ================================================================ the zone

/-- The largest order: an eighth of the memory. -/
def maxOrder : Nat := max 12 (Nat.clog 2 total) - 3

/-- The order of the reserve of 64 pages, as far as it fits. -/
def reserveOrder : Nat := min 18 (maxOrder total)

/-- Where the reserve begins. -/
def zoneAt : Nat :=
  u32 ((blocksAt kend total + (2 ^ maxOrder total - 1))
    / 2 ^ maxOrder total * 2 ^ maxOrder total)

/-- The page tables put up from the spare page on: for what is mapped
up to the end of the spare page, and for the reserve. -/
def extraTables : Nat :=
  (regions (spareEnd kend total) - regions kend)
    + if zoneAt kend total / 0x400000 < regions (spareEnd kend total)
      then 0 else 1

/-- The end of all that is handed out before paging. -/
def bringUpEnd : Nat := spareAt kend total + 4096 * extraTables kend total

-- ========================================================== the conditions

/-- Image, structures and spare page lie in frames of the bitmap. -/
def Fits : Prop := spareEnd kend total ≤ 4096 * tracked total

/-- The spare page is enough, and the zone is clear of what was handed
out: above it, or, where it wraps to address 0, below. -/
def Clear : Prop :=
  extraTables kend total ≤ 1
    ∧ (bringUpEnd kend total ≤ zoneAt kend total
      ∨ zoneAt kend total + 2 ^ maxOrder total ≤ bitmapAt kend)

/-- Neither the reserve nor its frames meet what was there before: the
zone is above it all, and no page table is past the spare page. -/
def Separate : Prop :=
  extraTables kend total ≤ 1 ∧ bringUpEnd kend total ≤ zoneAt kend total

/-- The link word of the first block, written at the physical address
`zoneAt`, is read back from the reserve's first frame. -/
def LinkReads (ram : Bytes) : Prop :=
  zoneAt kend total = spareEnd kend total
    ∨ ram.read32 (spareEnd kend total) = 0

end

end Layout

namespace Mem

-- ========================================================= the statements

/-- The byte was handed out before paging: for the bitmap, the page
directory, `free_blocks` or a page table. -/
def Handed (m : Mem) (x : Nat) : Prop :=
  (m.frames.frames ≤ x
      ∧ x < m.frames.frames + 4 * Frames.index m.frames.nframes)
    ∨ (m.kernelPd ≤ x ∧ x < m.kernelPd + sizeofPageDirectory)
    ∨ (m.kheap.freeBlocksAt ≤ x
      ∧ x < m.kheap.freeBlocksAt + 4 * m.kheap.orders)
    ∨ ∃ d < 0x400, m.currentPd.tables d ≠ 0 ∧ m.currentPd.tables d ≤ x
      ∧ x < m.currentPd.tables d + sizeofPageTable

/-- The byte is mapped to itself and its frame is marked. -/
structure Identity (m : Mem) (x : Nat) : Prop where
  present : m.Present (pageOf x)
  paddr : m.getPaddr x = x
  marked : m.Marked (frameOf x)

/-- What was handed out keeps its place, and the heap keeps off it. -/
structure RegionsApart (m : Mem) : Prop where
  identity : ∀ x, m.Handed x → m.Identity x
  outside : ∀ x, m.Handed x →
    ¬(m.kheap.freeZone ≤ x
      ∧ x < m.kheap.freeZone + 2 ^ m.kheap.maxOrder)

/-- The list of the reserve's order is the reserve, the others are
empty. -/
structure OneBlock (m : Mem) : Prop where
  reserve : Chain m.load (m.kheap.head m.kheap.reserveOrder)
    [m.kheap.freeZone]
  others : ∀ k, m.kheap.InTable k → k ≠ m.kheap.reserveOrder →
    m.kheap.head k = 0

end Mem

end Ntibux
