/-
Runs of the mapping calls on one page directory.

# The steps

- A single call is `get_page`, `map` in its two forms or `unmap`; a
  range call is the loop over one of them. A call that panics has no
  step. `Comes` is the state in which a range call begins the turn at an
  offset, so that what is asked of a single call can be asked of every
  turn (`Each`).
- Paging goes on once.
- `outside` is the rest of the kernel: the heap and memory change as
  they like, the bitmap and the directory stay.

# The two views of a page

`entry` is what the kernel finds for a page, null where there is no
table. `tables` and `paddrs` are the two halves of the directory, the
pointer the kernel follows and the entry the CPU walks.
-/
import Ntibux.Mem.Init
import Ntibux.Mem.Unmap
import Ntibux.Mem.Proofs.Frames
import Ntibux.Lib.Run

namespace Ntibux

/-- A call for one page. -/
inductive PageCall
  | getPage (vaddr : Nat)
  | map (vaddr flags : Nat)
  | mapAt (vaddr paddr flags : Nat)
  | unmap (vaddr : Nat)
  deriving DecidableEq, Repr

/-- A call for a range of pages. -/
inductive RangeCall
  | map (vaddr range flags : Nat)
  | mapAt (vaddr paddr range flags : Nat)
  | unmap (vaddr range : Nat)
  deriving DecidableEq, Repr

inductive PageEvent
  | call (c : PageCall)
  | range (r : RangeCall)
  | enablePaging
  | outside
  deriving DecidableEq, Repr

-- ============================================================== the calls

/-- The address of the page. -/
def PageCall.vaddr : PageCall → Nat
  | .getPage vaddr => vaddr
  | .map vaddr _ => vaddr
  | .mapAt vaddr _ _ => vaddr
  | .unmap vaddr => vaddr

section

variable (kalloc : Kalloc)

/-- The call returns. -/
def PageCall.Does (m : Mem) (c : PageCall) (m' : Mem) : Prop :=
  match c with
  | .getPage vaddr => ∃ p, m.getPage kalloc vaddr = .ret (p, m')
  | .map vaddr flags => ∃ r, m.map kalloc vaddr flags = .ret (r, m')
  | .mapAt vaddr paddr flags =>
      ∃ r, m.mapAt kalloc vaddr paddr flags = .ret (r, m')
  | .unmap vaddr => ∃ fuel r, m.unmap kalloc fuel vaddr = .ret (r, m')

/-- The state it leaves. -/
def PageCall.next (fuel : Nat) (c : PageCall) (m : Mem) : Outcome Mem :=
  match c with
  | .getPage vaddr => do
      let (_, m) ← m.getPage kalloc vaddr
      .ret m
  | .map vaddr flags => do
      let (_, m) ← m.map kalloc vaddr flags
      .ret m
  | .mapAt vaddr paddr flags => do
      let (_, m) ← m.mapAt kalloc vaddr paddr flags
      .ret m
  | .unmap vaddr => do
      let (_, m) ← m.unmap kalloc fuel vaddr
      .ret m

namespace RangeCall

/-- The length of the range, in bytes. -/
def range : RangeCall → Nat
  | .map _ range _ => range
  | .mapAt _ _ range _ => range
  | .unmap _ range => range

/-- The call that the loop makes at offset `n`. -/
def turn (r : RangeCall) (n : Nat) : PageCall :=
  match r with
  | .map vaddr _ flags => .map (u32 ((vaddr &&& 0xfffff000) + n)) flags
  | .mapAt vaddr paddr _ flags =>
      .mapAt (u32 ((vaddr &&& 0xfffff000) + n))
        (u32 ((paddr &&& 0xfffff000) + n)) flags
  | .unmap vaddr _ => .unmap (u32 (vaddr + n))

/-- The call returns. -/
def Does (m : Mem) (r : RangeCall) (m' : Mem) : Prop :=
  match r with
  | .map vaddr range flags =>
      ∃ fuel r, m.mapRange kalloc fuel vaddr range flags = .ret (r, m')
  | .mapAt vaddr paddr range flags => ∃ fuel r,
      m.mapRangeAt kalloc fuel vaddr paddr range flags = .ret (r, m')
  | .unmap vaddr range =>
      ∃ fuel r, m.unmapRange kalloc fuel vaddr range = .ret (r, m')

/-- The loop comes to offset `n` in the state reached. -/
inductive Comes (r : RangeCall) (m : Mem) : Nat → Mem → Prop
  | start : Comes r m 0 m
  | next {n : Nat} {m₁ m₂ : Mem} (hn : n < r.range) (h : Comes r m n m₁)
      (hd : (r.turn n).Does kalloc m₁ m₂) : Comes r m (n + PAGESIZE) m₂

end RangeCall

/-- Every call of the event, on its own or as a turn of a range. -/
def PageEvent.Each (P : Mem → PageCall → Prop) (m : Mem) :
    PageEvent → Prop
  | .call c => P m c
  | .range r =>
      ∀ n m₁, r.Comes kalloc m n m₁ → n < r.range → P m₁ (r.turn n)
  | _ => True

-- =============================================================== the runs

/-- One step of a run. -/
inductive TableStep (m : Mem) : PageEvent → Mem → Prop
  | call {c : PageCall} {m' : Mem} (h : c.Does kalloc m m') :
      TableStep m (.call c) m'
  | range {r : RangeCall} {m' : Mem} (h : r.Does kalloc m m') :
      TableStep m (.range r) m'
  | enablePaging (h : m.pagingEnabled = false) :
      TableStep m .enablePaging m.enablePaging
  | outside {m' : Mem} (hf : m'.frames = m.frames)
      (hpd : m'.currentPd = m.currentPd) (hp : m'.pages = m.pages)
      (he : m'.pagingEnabled = m.pagingEnabled) : TableStep m .outside m'

end

namespace Mem

-- ========================================================= what is there

/-- A page of the directory, by the entries that lead to it. -/
abbrev Page := Nat × Nat

/-- The page of an address. -/
def pageOf (vaddr : Nat) : Page := (directoryIndex vaddr, tableIndex vaddr)

/-- What the kernel finds for a page. -/
def entry (m : Mem) (p : Page) : Nat :=
  if m.currentPd.tables p.1 = 0 then 0
  else m.pages (m.currentPd.tables p.1) p.2

/-- The frame number in an entry. -/
def frameOf (e : Nat) : Nat := (e &&& 0xfffff000) >>> 12

/-- The page has an entry. -/
structure Present (m : Mem) (p : Page) : Prop where
  dir_lt : p.1 < 0x400
  table_lt : p.2 < 0x400
  ne_zero : m.entry p ≠ 0

/-- The frame is marked in the bitmap. -/
structure Marked (m : Mem) (n : Nat) : Prop where
  tracked : Frames.index n < Frames.index m.frames.nframes
  used : ¬m.frames.Unused n

/-- No two entries of the directory share a table. -/
def TablesApart (m : Mem) : Prop :=
  ∀ d < 0x400, ∀ d' < 0x400, m.currentPd.tables d ≠ 0 →
    m.currentPd.tables d = m.currentPd.tables d' → d = d'

/-- No page is present and no frame is marked. The bitmap is for frames
of a 32-bit address. -/
structure Blank (m : Mem) : Prop where
  entry : ∀ p, ¬m.Present p
  unmarked : ∀ n, ¬m.Marked n
  apart : m.TablesApart
  frames_le : m.frames.nframes ≤ 2 ^ 20

-- ===================================================== page-table memory

/-- The physical address of a table. -/
def tablePaddr (m : Mem) (pt : Nat) : Nat :=
  if m.pagingEnabled then m.getPaddr pt else pt

/-- Where `get_page` gets the memory for a table from. -/
def tableAlloc (kalloc : Kalloc) (m : Mem) : Outcome (Nat × Mem) :=
  if m.pagingEnabled then
    kalloc sizeofPageTable (ALLOC_ALIGNED ||| ALLOC_ZEROED) m
  else m.unpagedAlloc sizeofPageTable (ALLOC_ALIGNED ||| ALLOC_ZEROED)

/-- The memory is no other table's, and getting it maps nothing. -/
structure FreshTable (m : Mem) (pt : Nat) (m' : Mem) : Prop where
  ne_zero : pt ≠ 0
  fresh : ∀ d < 0x400, m.currentPd.tables d ≠ pt
  frames : m'.frames = m.frames
  currentPd : m'.currentPd = m.currentPd
  pages : m'.pages = m.pages
  pagingEnabled : m'.pagingEnabled = m.pagingEnabled

/-- The memory that the call puts up a table in, if it has to, is
fresh. -/
def Supplied (kalloc : Kalloc) (m : Mem) (c : PageCall) : Prop :=
  m.currentPd.tables (directoryIndex c.vaddr) = 0 →
    ∀ pt m', m.tableAlloc kalloc = .ret (pt, m') → FreshTable m pt m'

/-- The memory is no other table's, it is in a page whose table is there,
and getting it moves no table and frees no frame. -/
structure HousedTable (m : Mem) (pt : Nat) (m' : Mem) : Prop where
  ne_zero : pt ≠ 0
  fresh : ∀ d < 0x400, m.currentPd.tables d ≠ pt
  currentPd : m'.currentPd = m.currentPd
  pagingEnabled : m'.pagingEnabled = m.pagingEnabled
  reached : m.pagingEnabled = true →
    m.currentPd.tables (directoryIndex pt) ≠ 0
  unmoved : ∀ d < 0x400, m.currentPd.tables d ≠ 0 →
    m'.tablePaddr (m.currentPd.tables d)
      = m.tablePaddr (m.currentPd.tables d)
  marked : ∀ n, m.Marked n → m'.Marked n

/-- The memory that the call puts up a table in, if it has to, is in the
directory's reach. The heap may grow for it. -/
def Housed (kalloc : Kalloc) (m : Mem) (c : PageCall) : Prop :=
  m.currentPd.tables (directoryIndex c.vaddr) = 0 →
    ∀ pt m', m.tableAlloc kalloc = .ret (pt, m') → HousedTable m pt m'

/-- The flags stay clear of the frame's bits. -/
def FlagsFit (_ : Mem) : PageCall → Prop
  | .map _ flags => flags < 0x1000
  | .mapAt _ _ flags => flags < 0x1000
  | _ => True

-- ========================================================= the statements

/-- No frame is behind two pages, and each is marked. -/
structure Unshared (m : Mem) : Prop where
  apart : ∀ p q, m.Present p → m.Present q →
    frameOf (m.entry p) = frameOf (m.entry q) → p = q
  marked : ∀ p, m.Present p → m.Marked (frameOf (m.entry p))

/-- Every marked frame is behind a page. -/
def Unleaked (m : Mem) : Prop :=
  ∀ n, m.Marked n → ∃ p, m.Present p ∧ frameOf (m.entry p) = n

/-- The call puts an entry where there is one. -/
def Overwrites (m : Mem) : PageCall → Prop
  | .map vaddr _ => m.Present (pageOf vaddr)
  | .mapAt vaddr paddr _ =>
      m.Present (pageOf vaddr) ∧ ¬m.Marked (frameOf paddr)
  | _ => False

-- ========================================================== the two halves

/-- The directory is empty in both halves. -/
def Zeroed (m : Mem) : Prop :=
  ∀ d < 0x400, m.currentPd.tables d = 0 ∧ m.currentPd.paddrs d = 0

/-- The CPU walks the tables that the kernel uses, and no others. -/
structure HalvesAgree (m : Mem) : Prop where
  null_iff : ∀ d < 0x400, m.currentPd.tables d = 0
    ↔ m.currentPd.paddrs d = 0
  paddr : ∀ d < 0x400, m.currentPd.tables d ≠ 0 →
    m.currentPd.paddrs d = m.tablePaddr (m.currentPd.tables d) ||| 7

/-- The page has a page table in it. -/
def HoldsTable (m : Mem) (p : Page) : Prop :=
  ∃ d < 0x400, m.currentPd.tables d ≠ 0
    ∧ pageOf (m.currentPd.tables d) = p

/-- The page is not the last one of its table. -/
def SharesTable (m : Mem) (p : Page) : Prop :=
  ∃ t < 0x400, t ≠ p.2 ∧ m.entry (p.1, t) ≠ 0

/-- The call takes no table down, and with paging on it leaves alone the
entry of a page that a table is in. -/
def LeavesTables (m : Mem) : PageCall → Prop
  | .getPage _ => True
  | .map vaddr _ => m.pagingEnabled = true → ¬m.HoldsTable (pageOf vaddr)
  | .mapAt vaddr paddr _ => m.pagingEnabled = true →
      ¬m.Marked (frameOf paddr) → ¬m.HoldsTable (pageOf vaddr)
  | .unmap vaddr => m.SharesTable (pageOf vaddr)
      ∧ (m.pagingEnabled = true → ¬m.HoldsTable (pageOf vaddr))

/-- Each table is where its physical address says, once the directory is
in use. -/
def TablesIdentity (m : Mem) : Prop :=
  ∀ d < 0x400, m.currentPd.tables d ≠ 0 →
    m.currentPd.tables (directoryIndex (m.currentPd.tables d)) ≠ 0
      ∧ m.getPaddr (m.currentPd.tables d) = m.currentPd.tables d

end Mem

/-- The event leaves the tables where they are. -/
def PageEvent.LeavesTables (kalloc : Kalloc) (m : Mem) (e : PageEvent) :
    Prop :=
  e.Each kalloc Mem.LeavesTables m ∧ (e = .enablePaging → m.TablesIdentity)

end Ntibux
