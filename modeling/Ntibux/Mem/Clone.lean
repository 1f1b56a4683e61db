/-
Copies of page tables and page directories.

A directory is found by its address here (`Directories`), as a table is
by its own, so that a copy and its original can be told apart. The
directory in use stays the `currentPd` of the state: no function of this
file writes to it.

`copy_page` is in assembly, and reads neither of its arguments: what it
copies, and to where, are the registers `esi` and `edi` at the call,
which the callers do not set. They are a parameter of each loop, one
pair for each call. What is written over is the contents of physical
pages; tables, directories and the bitmap are objects of their own, as
in `Basic`.
-/
import Ntibux.Mem.Tables

namespace Ntibux

/-- The page directories, by address. -/
abbrev Directories := Nat → PageDirectory

/-- The string registers. -/
structure Regs where
  esi : Nat
  edi : Nat

/-- `rep movsd`, with the direction flag clear. -/
def movsd : Nat → Nat → Nat → Bytes → Bytes
  | 0, _, _, b => b
  | ecx + 1, esi, edi, b =>
      movsd ecx (u32 (esi + 4)) (u32 (edi + 4))
        (b.write32 edi (b.read32 esi))

namespace Mem

/-- `copy_page(dst, src)`. Paging is off while it copies; the code sees
what it wrote wherever a page is mapped there. -/
def copyPage (r : Regs) (_dst _src : Nat) (m : Mem) : Mem :=
  let ram := movsd (PAGESIZE / 4) r.esi r.edi m.ram
  { m with
    ram := ram
    bytes := fun x =>
      if m.entry (pageOf x) ≠ 0 ∧
          u32 (m.getPaddr x + (2 ^ 32 - r.edi)) < PAGESIZE then
        ram (m.getPaddr x)
      else m.bytes x }

/-- One turn of the loop of `page_table::clone`. -/
def cloneEntry (regs : Nat → Regs) (this out i : Nat) (m : Mem) :
    Outcome Mem :=
  if m.pages this i ≠ 0 then do
    let (_, m) ← m.allocFrame (out, i) (m.pages this i &&& 0xfff)
    .ret (m.copyPage (regs i) (m.pages out i &&& 0xfffff000)
      (m.pages this i &&& 0xfffff000))
  else .ret m

/-- `page_table::clone`. -/
def cloneTable (kalloc : Kalloc) (regs : Nat → Regs) (this : Nat)
    (m : Mem) : Outcome (Nat × Mem) := do
  let (out, m) ← kalloc sizeofPageTable (ALLOC_ALIGNED ||| ALLOC_ZEROED) m
  let m ← Outcome.turns (cloneEntry regs this out) 1024 0 (m.newTable out)
  .ret (out, m)

end Mem

namespace Directories

/-- Entry `d` of both halves of the directory at `a`. -/
def setTable (pds : Directories) (a d pt paddr : Nat) : Directories :=
  Function.update pds a
    { tables := Function.update (pds a).tables d pt
      paddrs := Function.update (pds a).paddrs d paddr }

/-- One turn of the loop of `page_directory::clone`. -/
def cloneEntry (kalloc : Kalloc) (regs : Nat → Nat → Regs)
    (this out i : Nat) (s : Directories × Mem) :
    Outcome (Directories × Mem) :=
  let (pds, m) := s
  if (pds this).tables i ≠ 0 then
    if (pds this).tables i = (pds m.kernelPd).tables i then
      -- share kernel code/data
      .ret (pds.setTable out i ((pds this).tables i) ((pds this).paddrs i),
        m)
    else do
      let (pt, m) ← m.cloneTable kalloc (regs i) ((pds this).tables i)
      .ret (pds.setTable out i pt (m.getPaddr pt ||| 7), m)
  else .ret (pds, m)

/-- `page_directory::clone`. -/
def clone (kalloc : Kalloc) (regs : Nat → Nat → Regs) (this : Nat)
    (pds : Directories) (m : Mem) : Outcome (Nat × Directories × Mem) := do
  let (out, m) ←
    kalloc sizeofPageDirectory (ALLOC_ALIGNED ||| ALLOC_ZEROED) m
  let pds := Function.update pds out ⟨fun _ => 0, fun _ => 0⟩
  let (pds, m) ←
    Outcome.turns (cloneEntry kalloc regs this out) 1024 0 (pds, m)
  .ret (out, pds, m)

end Directories

-- ================================================================ the heap

/-- An answer of `kheap::alloc`: memory that was not in use, in the
heap's pool, for which nothing was mapped. -/
structure Given (used : Kheap → Nat → Prop) (pool : Nat → Prop) (m : Mem)
    (a : Nat) (m' : Mem) : Prop where
  ne_zero : a ≠ 0
  inPool : pool a
  fresh : ¬used m.kheap a
  taken : used m'.kheap a
  keeps : ∀ b, used m.kheap b → used m'.kheap b
  frames : m'.frames = m.frames
  kernelPd : m'.kernelPd = m.kernelPd
  currentPd : m'.currentPd = m.currentPd
  pages : m'.pages = m.pages

/-- Memory for the copy of the table `this`: it is not the table's own,
and getting it writes to no entry, no physical page and no bit of the
bitmap. -/
structure CopyMemory (m : Mem) (this out : Nat) (m' : Mem) : Prop where
  ne : out ≠ this
  frames : m'.frames = m.frames
  pages : m'.pages = m.pages
  ram : m'.ram = m.ram

/-- The pages of the table `out` have the bytes of the pages of `this`,
and no other physical page has changed. -/
structure SameContents (this out : Nat) (m m' : Mem) : Prop where
  same : ∀ j < 1024, m.pages this j ≠ 0 → ∀ k < PAGESIZE,
    m'.ram (Mem.frameOf (m'.pages out j) * PAGESIZE + k)
      = m'.ram (Mem.frameOf (m.pages this j) * PAGESIZE + k)
  others : ∀ x < 2 ^ 32,
    (∀ j < 1024, m.pages this j ≠ 0 →
      Mem.frameOf (m'.pages out j) ≠ x / PAGESIZE) → m'.ram x = m.ram x

/-- At each call `esi` is where the page is and `edi` where its copy
goes. -/
def RegsFit (regs : Nat → Regs) (m : Mem) (this out : Nat) (m' : Mem) :
    Prop :=
  ∀ j < 1024, m.pages this j ≠ 0 →
    regs j = ⟨Mem.frameOf (m.pages this j) * PAGESIZE,
      Mem.frameOf (m'.pages out j) * PAGESIZE⟩

/-- The heap serves a request for a table or a directory as long as it
has room, and loses no more room than for one. -/
def Serves (kalloc : Kalloc) (used : Kheap → Nat → Prop)
    (pool : Nat → Prop) (room : Kheap → Nat) : Prop :=
  ∀ size ≤ sizeofPageDirectory, ∀ m, 0 < room m.kheap → ∃ a m',
    kalloc size (ALLOC_ALIGNED ||| ALLOC_ZEROED) m = .ret (a, m') ∧
      Given used pool m a m' ∧ room m.kheap ≤ room m'.kheap + 1

-- ========================================================== the statement

namespace Directories

/-- Entry `i` of the directory has a table of its own, which is not the
kernel's. -/
def Own (pds : Directories) (kernel this i : Nat) : Prop :=
  (pds this).tables i ≠ 0 ∧ (pds this).tables i ≠ (pds kernel).tables i

instance (pds : Directories) (kernel this i : Nat) :
    Decidable (pds.Own kernel this i) :=
  inferInstanceAs (Decidable (_ ∧ _))

/-- The page `p` of the directory has an entry, in a table of its own. -/
structure Copies (pds : Directories) (m : Mem) (this : Nat) (p : Mem.Page) :
    Prop where
  dir_lt : p.1 < 1024
  table_lt : p.2 < 1024
  own : pds.Own m.kernelPd this p.1
  ne_zero : m.pages ((pds this).tables p.1) p.2 ≠ 0

/-- The entry of a page of the directory. -/
def entry (pds : Directories) (m : Mem) (this : Nat) (p : Mem.Page) : Nat :=
  m.pages ((pds this).tables p.1) p.2

/-- The number of frames that a copy takes. -/
def need (pds : Directories) (m : Mem) (this : Nat) : Nat :=
  ((List.range 1024).map fun i =>
    if pds.Own m.kernelPd this i then
      (List.range 1024).countP fun j => m.pages ((pds this).tables i) j ≠ 0
    else 0).sum

/-- What a directory and its copy are made of is in use. -/
structure InUse (used : Kheap → Nat → Prop) (pds : Directories) (m : Mem)
    (this : Nat) : Prop where
  self : used m.kheap this
  kernel : used m.kheap m.kernelPd
  tables : ∀ i < 1024, (pds this).tables i ≠ 0 →
    used m.kheap ((pds this).tables i)
  current : ∀ i < 1024, m.currentPd.tables i ≠ 0 →
    used m.kheap (m.currentPd.tables i)

/-- `E` is a copy of `this`. -/
structure Cloned (used : Kheap → Nat → Prop) (pds : Directories) (m : Mem)
    (this E : Nat) (pds' : Directories) (m' : Mem) : Prop where
  new : E ≠ 0 ∧ ¬used m.kheap E
  null_iff : ∀ i < 1024,
    (pds' E).tables i = 0 ↔ (pds this).tables i = 0
  /-- The kernel's tables are shared. -/
  shared : ∀ i < 1024, (pds this).tables i ≠ 0 →
    ¬pds.Own m.kernelPd this i →
      (pds' E).tables i = (pds this).tables i ∧
        (pds' E).paddrs i = (pds this).paddrs i
  /-- Every other table is new. -/
  table : ∀ i < 1024, pds.Own m.kernelPd this i →
    ¬used m.kheap ((pds' E).tables i) ∧
      m'.entry (Mem.pageOf ((pds' E).tables i)) ≠ 0 ∧
      (pds' E).paddrs i = m'.getPaddr ((pds' E).tables i) ||| 7
  tables_apart : ∀ i < 1024, ∀ j < 1024, pds.Own m.kernelPd this i →
    pds.Own m.kernelPd this j →
      (pds' E).tables i = (pds' E).tables j → i = j
  zero_iff : ∀ i < 1024, pds.Own m.kernelPd this i → ∀ j < 1024,
    pds'.entry m' E (i, j) = 0 ↔ pds.entry m this (i, j) = 0
  flags : ∀ p, pds.Copies m this p →
    pds'.entry m' E p &&& 0xfff = pds.entry m this p &&& 0xfff
  /-- Every page has a frame that was free. -/
  frame : ∀ p, pds.Copies m this p →
    Mem.frameOf (pds'.entry m' E p) < 32 * Frames.index m.frames.nframes ∧
      m.frames.Unused (Mem.frameOf (pds'.entry m' E p)) ∧
      m'.Marked (Mem.frameOf (pds'.entry m' E p))
  frames_apart : ∀ p q, pds.Copies m this p → pds.Copies m this q →
    Mem.frameOf (pds'.entry m' E p) = Mem.frameOf (pds'.entry m' E q) →
      p = q
  /-- The original stays as it was, like every other directory. -/
  others : ∀ a, a ≠ E → pds' a = pds a
  original : ∀ i < 1024, (pds this).tables i ≠ 0 →
    m'.pages ((pds this).tables i) = m.pages ((pds this).tables i)
  marked : ∀ n, m.Marked n → m'.Marked n

end Directories

end Ntibux
