/-
What is said of a page and of a range of pages.

The heap's part in it is the memory of page tables: where `get_page`
finds no table the heap has to supply one, and where `unmap` leaves a
table without an entry the heap has to take it back. Both are asked of
the states in which the heap is called, and of no others.
-/
import Ntibux.Mem.Tables

namespace Ntibux

namespace Mem

-- ============================================================== the pages

/-- The two addresses are in one page. -/
def SamePage (v w : Nat) : Prop := v &&& 0xfffff000 = w &&& 0xfffff000

instance (v w : Nat) : Decidable (SamePage v w) :=
  inferInstanceAs (Decidable (_ = _))

/-- The byte is in a page that is mapped with the flags. -/
def MappedAs (m : Mem) (flags x : Nat) : Prop :=
  m.entry (pageOf x) &&& 0xfff = (PAGE_PRESENT ||| flags) &&& 0xfff

instance (m : Mem) (flags x : Nat) : Decidable (m.MappedAs flags x) :=
  inferInstanceAs (Decidable (_ = _))

/-- The number of turns of a loop over a range. -/
def turns (range : Nat) : Nat := (range + 0xfff) / PAGESIZE

/-- The page of turn `j`. -/
def turnPage (vaddr j : Nat) : Page :=
  pageOf (u32 ((vaddr &&& 0xfffff000) + PAGESIZE * j))

/-- A byte of the page belongs to the range, the start rounded down. -/
def Touches (vaddr range : Nat) (q : Page) : Prop :=
  ∃ x, vaddr &&& 0xfffff000 ≤ x ∧ x < vaddr + range ∧ pageOf x = q

-- =============================================================== the heap

/-- Where there is no table, the heap gives fresh memory for one. -/
def TableComes (kalloc : Kalloc) (m : Mem) (c : PageCall) : Prop :=
  m.currentPd.tables (directoryIndex c.vaddr) = 0 →
    ∃ pt m₁, m.tableAlloc kalloc = .ret (pt, m₁) ∧ FreshTable m pt m₁

/-- The memory is no other table's. Getting it takes at most `cost`
frames, and changes no entry of the pages `ps`. -/
structure TableBought (ps : Page → Prop) (cost : Nat) (m : Mem) (pt : Nat)
    (m' : Mem) : Prop where
  ne_zero : pt ≠ 0
  fresh : ∀ d < 0x400, m.currentPd.tables d ≠ pt
  currentPd : m'.currentPd = m.currentPd
  nframes : m'.frames.nframes = m.frames.nframes
  avail : m.frames.avail ≤ m'.frames.avail + cost
  entry : ∀ q, ps q → m'.entry q = m.entry q

/-- The same of a heap that may have to grow for it. -/
def TableAtCost (kalloc : Kalloc) (ps : Page → Prop) (cost : Nat) (m : Mem)
    (c : PageCall) : Prop :=
  m.currentPd.tables (directoryIndex c.vaddr) = 0 →
    ∃ pt m₁, m.tableAlloc kalloc = .ret (pt, m₁) ∧
      TableBought ps cost m pt m₁

/-- The table of the page, where `free_frame` leaves it without an entry,
is taken back by the heap. -/
def TakesBack (m : Mem) (c : PageCall) : Prop :=
  let d := directoryIndex c.vaddr
  ∀ m₁, m.freeFrame (m.currentPd.tables d, tableIndex c.vaddr) = .ret m₁ →
    (∀ t < 0x400, m₁.entry (d, t) = 0) →
      ∃ fuel m₂, m₁.kheapFree fuel (m.currentPd.tables d) sizeofPageTable
        = .ret m₂

end Mem

end Ntibux
