/-
The unmapping half of mem.cpp: a frame is given back, and a page table
that is left without an entry goes back to the heap.
-/
import Ntibux.Mem.Kheap

namespace Ntibux

namespace Mem

/-- `mem::free_frame(p)`, with `page::free`. -/
def freeFrame (p : PagePtr) (m : Mem) : Outcome Mem := do
  let frames ← m.frames.unmarkFrame (m.page p &&& 0xfffff000)
  let m := { m with frames := frames }
  -- an entry that is zero is logged and left alone
  .ret (if m.page p = 0 then m else m.setPage p 0)

/-- The scan of `mem::unmap` for an entry in use, from entry `i`; the
fuel is the number of entries. -/
def scanTable (m : Mem) (pt : Nat) : Nat → Nat → Nat
  | 0, i => i
  | fuel + 1, i =>
      if i < 0x400 ∧ m.pages pt i = 0 then scanTable m pt fuel (i + 1)
      else i

/-- `mem::unmap(vaddr)`. -/
def unmap (kalloc : Kalloc) (fuel vaddr : Nat) (m : Mem) :
    Outcome (Nat × Mem) := do
  let d := directoryIndex vaddr
  let t := tableIndex vaddr
  let vaddr := vaddr &&& 0xfffff000
  if m.currentPd.tables d = 0 ∨ m.pages (m.currentPd.tables d) t = 0 then
    .panic "unmapping non mapped page"
  else do
    let (p, m) ← m.getPage kalloc vaddr
    let m ← m.freeFrame p
    let i := m.scanTable (m.currentPd.tables d) 0x400 0
    if i = 0x400 then do
      -- this page table is now unused
      let m ← m.kheapFree fuel (m.currentPd.tables d) sizeofPageTable
      .ret (1, { m with currentPd := { m.currentPd with
        tables := Function.update m.currentPd.tables d 0 } })
    else .ret (1, m)

/-- The loop of `mem::unmap_range(vaddr, range)` from offset `i`. -/
def unmapRangeLoop (kalloc : Kalloc) (vaddr range : Nat) :
    Nat → Nat → Mem → Outcome Mem
  | 0, _, _ => .timeout
  | fuel + 1, i, m =>
      if i < range then do
        let (_, m) ← m.unmap kalloc fuel (u32 (vaddr + i))
        unmapRangeLoop kalloc vaddr range fuel (u32 (i + PAGESIZE)) m
      else .ret m

/-- `mem::unmap_range(vaddr, range)`. -/
def unmapRange (kalloc : Kalloc) (fuel vaddr range : Nat) (m : Mem) :
    Outcome (Nat × Mem) := do
  let m ← unmapRangeLoop kalloc vaddr range fuel 0 m
  .ret (1, m)

end Mem

end Ntibux
