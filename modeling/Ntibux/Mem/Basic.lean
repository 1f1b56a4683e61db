/-
The data model of `class mem` (mem.hpp): the frame bitmap, the page
directory with its tables, and the kernel heap with its free lists, in
one state `Mem` that every function of mem.cpp reads and writes.

# What is modelled how

- `u32` values are naturals, and each operation that can leave 32 bits
  wraps (`u32`); `1U << n` takes its count modulo 32, as the shift the
  compiler emits does (`shl1`).
- The frame bitmap and `free_blocks` are arrays without a bounds check
  in the source. Here an index past the allocated length is
  `Outcome.fault`.
- A `page_table` is an object of its own, found by its address
  (`pages`): page-table memory is not aliased with the bytes the heap
  hands out.
- `bytes` is memory as the running code sees it: physical memory until
  `mem::enable_paging`, and from then on what the page tables answer.
  Mapping a page therefore changes what is read there, to whatever the
  frame holds (`ram`), and nothing is assumed about `ram`.
- The spinlock of the heap is the bit `locked`. On one CPU, taking a
  lock that is already held by the flow that asks for it never ends
  (`Outcome.spin`).
-/
import Ntibux.Lib.Outcome
import Ntibux.Lib.Bytes
import Ntibux.Lib.Word
import Mathlib.Logic.Function.Basic

namespace Ntibux

-- ============================================================ constants

def PAGESIZE : Nat := 4096

def PAGE_PRESENT : Nat := 1

def ALLOC_ALIGNED : Nat := 1

def ALLOC_ZEROED : Nat := 2

/-- `1 | MAP_KERN | MAP_RO`. -/
def MAP_KERNEL_CODE : Nat := 1

/-- `1 | MAP_KERN | MAP_RW`. -/
def MAP_KERNEL_DATA : Nat := 3

/-- `sizeof(page_table)`: 1024 entries of four bytes. -/
def sizeofPageTable : Nat := 4096

/-- `sizeof(page_directory)`: 1024 pointers and 1024 entries. -/
def sizeofPageDirectory : Nat := 8192

-- ========================================================= frame bitmap

/-- `class frames`: one bit a frame, 32 frames a word, in an array that
starts at `frames`. -/
structure Frames where
  frames : Nat
  words : Nat → Nat
  nframes : Nat

namespace Frames

def off (b : Nat) : Nat := b % 32

def index (b : Nat) : Nat := b / 32

/-- The word `frames[i]`, if the array has it. -/
def word (f : Frames) (i : Nat) : Outcome Nat :=
  if i < index f.nframes then .ret (f.words i) else .fault

def isFree (f : Frames) (faddr : Nat) : Outcome Bool := do
  let n := faddr >>> 12
  let w ← f.word (index n)
  .ret (w &&& 1 <<< off n == 0)

def markFrame (f : Frames) (faddr : Nat) : Outcome Frames := do
  let n := faddr >>> 12
  let w ← f.word (index n)
  .ret { f with
    words := Function.update f.words (index n) (w ||| 1 <<< off n) }

def unmarkFrame (f : Frames) (faddr : Nat) : Outcome Frames := do
  let n := faddr >>> 12
  let w ← f.word (index n)
  .ret { f with
    words := Function.update f.words (index n)
      (w &&& not32 (1 <<< off n)) }

/-- The first clear bit of a word, lowest first. -/
def clearBit (w : Nat) : Option Nat :=
  (List.range 32).find? fun j => w &&& 1 <<< j == 0

/-- The address of the lowest clear frame, `0` when there is none (and
also when that frame is frame 0). -/
def getFreeFrame (f : Frames) : Nat :=
  ((List.range (index f.nframes)).findSome? fun i =>
    if f.words i = 0xffffffff then none
    else (clearBit (f.words i)).map fun j =>
      u32 ((i * 32 + j) <<< 12)).getD 0

end Frames

-- ======================================================= page directory

/-- `struct page_directory`: the table pointers the kernel follows, and
the entries the CPU walks. -/
structure PageDirectory where
  tables : Nat → Nat
  paddrs : Nat → Nat

/-- A `page *`: entry `snd` of the table at address `fst`. -/
abbrev PagePtr := Nat × Nat

/-- `page::claim`: the entry that maps a frame. -/
def claim (frame flags : Nat) : Nat :=
  (frame &&& 0xfffff000) ||| PAGE_PRESENT ||| flags

/-- `(address >> 22) & 0x3ff`. -/
def directoryIndex (address : Nat) : Nat := address >>> 22 &&& 0x3ff

/-- `(address >> 12) & 0x3ff`. -/
def tableIndex (address : Nat) : Nat := address >>> 12 &&& 0x3ff

-- ========================================================== kernel heap

/-- `class kheap`. The fields no function reads back (`min_alloc`,
`max_alloc`, the heap's own `paging_enabled`) are left out. The array
`freeBlocks` starts at `freeBlocksAt`. -/
structure Kheap where
  minOrder : Nat
  maxOrder : Nat
  orders : Nat
  reserveOrder : Nat
  kheapStart : Nat
  freeZone : Nat
  freeBlocksAt : Nat
  freeBlocks : Nat → Nat
  locked : Bool

namespace Kheap

/-- The list of `order` has an entry in `free_blocks`. -/
def InTable (k : Kheap) (order : Nat) : Prop :=
  k.minOrder ≤ order ∧ order - k.minOrder < k.orders

instance (k : Kheap) (order : Nat) : Decidable (k.InTable order) :=
  inferInstanceAs (Decidable (_ ∧ _))

/-- The head of the free list of `order`. -/
def head (k : Kheap) (order : Nat) : Nat :=
  k.freeBlocks (order - k.minOrder)

/-- Read `get_free_block(order)`. -/
def getFreeBlock (k : Kheap) (order : Nat) : Outcome Nat :=
  if k.InTable order then .ret (k.head order) else .fault

/-- The heap with the list head of `order` replaced. -/
def setHead (k : Kheap) (order v : Nat) : Kheap :=
  { k with freeBlocks :=
      Function.update k.freeBlocks (order - k.minOrder) v }

end Kheap

-- ============================================================ the state

/-- `class mem`, with the memory its code runs on. `kernelPd` is where
the kernel's page directory is. -/
structure Mem where
  kheap : Kheap
  frames : Frames
  kernelPd : Nat
  currentPd : PageDirectory
  pages : Nat → Nat → Nat
  total : Nat
  pagingEnabled : Bool
  bytes : Bytes
  ram : Bytes

namespace Mem

/-- `*(u32*)a`. -/
def load (m : Mem) (a : Nat) : Nat := m.bytes.read32 a

/-- `*(u32*)a = v`. -/
def store (m : Mem) (a v : Nat) : Mem :=
  { m with bytes := m.bytes.write32 a v }

/-- `memset(a, 0, n)`. -/
def zero (m : Mem) (a n : Nat) : Mem :=
  { m with bytes := m.bytes.fill a n 0 }

/-- The heap's spinlock set to `b`. -/
def setLock (m : Mem) (b : Bool) : Mem :=
  { m with kheap := { m.kheap with locked := b } }

/-- Write `get_free_block(order)`. -/
def setFreeBlock (m : Mem) (order v : Nat) : Outcome Mem :=
  if m.kheap.InTable order then
    .ret { m with kheap := m.kheap.setHead order v }
  else .fault

/-- The entry a `page *` points to. -/
def page (m : Mem) (p : PagePtr) : Nat := m.pages p.1 p.2

/-- Overwrite the entry a `page *` points to. -/
def setPage (m : Mem) (p : PagePtr) (v : Nat) : Mem :=
  { m with
    pages := Function.update m.pages p.1
      (Function.update (m.pages p.1) p.2 v) }

/-- A page table freshly allocated and zeroed at `pt`. -/
def newTable (m : Mem) (pt : Nat) : Mem :=
  { m with pages := Function.update m.pages pt fun _ => 0 }

/-- Entry `d` of both halves of the directory. -/
def setTable (m : Mem) (d pt paddr : Nat) : Mem :=
  { m with currentPd :=
      { tables := Function.update m.currentPd.tables d pt
        paddrs := Function.update m.currentPd.paddrs d paddr } }

end Mem

end Ntibux
