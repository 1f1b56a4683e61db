/-
The tables that the processor finds its segments and its interrupt gates
in: `GDT::init` (gdt.cpp) and `IDT::init` (idt.cpp), byte by byte, and how
the processor takes an interrupt through them.

The GDT is at `GDT_ENTRIES_ADDRESS`; the two headers, the entries of the
IDT and the stubs are where the image has them (`Place`). `IDT::init` also
programs the interrupt controllers; the bytes that it sends are `remap`.
-/
import Ntibux.Kernel.Switch
import Ntibux.Lib.Records

namespace Ntibux

-- ================================================================ segments

def GDT_ENTRIES_ADDRESS : Nat := 0x800

/-- `sizeof(struct tss)`. -/
def sizeofTss : Nat := 104

namespace GDT

def sizeofEntry : Nat := 8

/-- `GDT::access`. -/
def DEF : Nat := 0x90
def WRITEABLE_DATA : Nat := 0x2
def READABLE_CODE : Nat := 0x2
def GROWS_UP : Nat := 0x0
def GROWS_DOWN : Nat := 0x4
def NON_CONFORMING : Nat := 0x0
def CODE : Nat := 0x8
def DATA : Nat := 0x0
def KERNEL : Nat := 0x0
def USER : Nat := 0x60

/-- `GDT::access(raw).raw`. -/
def access (raw : Nat) : Nat := raw ||| DEF

/-- `GDT::flags`. -/
def MODE_32B : Nat := 0x4
def GRANULARITY_4KB : Nat := 0x8

/-- `GDT::flags(raw).raw`. -/
def flags (raw : Nat) : Nat := raw &&& 0xf

/-- `GDT::set_gate`, for the entries at `gdt`. `high_limit` and `flags` are
the halves of one byte. -/
def setGate (gdt n base limit acc flags : Nat) (b : Bytes) : Bytes :=
  let e := gdt + sizeofEntry * n
  let b := b.write16 (e + 2) (base &&& 0xffff)
  let b := b.write8 (e + 4) ((base >>> 16) &&& 0xff)
  let b := b.write8 (e + 7) ((base >>> 24) &&& 0xff)
  let b := b.write16 e (limit &&& 0xffff)
  let b := b.write8 (e + 6)
    ((b (e + 6)).toNat / 16 * 16 + ((limit >>> 16) &&& 0xf))
  let b := b.write8 (e + 6) ((b (e + 6)).toNat % 16 + 16 * (flags &&& 0xf))
  b.write8 (e + 5) acc

/-- The arguments of the calls of `set_gate`, in their order. -/
def gates (tss : Nat) : List (Nat × Nat × Nat × Nat × Nat) :=
  let fl := flags (GRANULARITY_4KB ||| MODE_32B)
  [(0, 0, 0, 0, 0),
    -- kernel code, data and stack
    (1, 0, 0xffffffff,
      access (KERNEL ||| CODE ||| READABLE_CODE ||| NON_CONFORMING), fl),
    (2, 0, 0xffffffff,
      access (KERNEL ||| DATA ||| WRITEABLE_DATA ||| GROWS_UP), fl),
    (3, 0, 0xffffffff,
      access (KERNEL ||| DATA ||| WRITEABLE_DATA ||| GROWS_DOWN), fl),
    -- user code, data and stack
    (4, 0, 0xffffffff,
      access (USER ||| CODE ||| READABLE_CODE ||| NON_CONFORMING), fl),
    (5, 0, 0xffffffff,
      access (USER ||| DATA ||| WRITEABLE_DATA ||| GROWS_UP), fl),
    (6, 0, 0xffffffff,
      access (USER ||| DATA ||| WRITEABLE_DATA ||| GROWS_DOWN), fl),
    (7, tss, sizeofTss, 0x89, fl)]

end GDT

-- =================================================================== gates

namespace IDT

def IDT_ENTRIES : Nat := 256
def IDT_PRESENT : Nat := 0x80
def IDT_GATE32 : Nat := 0x8
def IDT_DEFAULT : Nat := 0x6
def IDT_ALL : Nat := 0xc0

def sizeofEntry : Nat := 8

/-- `sizeof(idt_header)`. -/
def sizeofHeader : Nat := 6

/-- `IDT::set_gate`, for the entries at `idt`. -/
def setGate (idt n handler ss flags : Nat) (b : Bytes) : Bytes :=
  let e := idt + sizeofEntry * n
  let b := b.write16 e (handler &&& 0xffff)
  let b := b.write16 (e + 6) ((handler >>> 16) &&& 0xffff)
  let b := b.write16 (e + 2) ss
  let b := b.write8 (e + 4) 0
  b.write8 (e + 5) flags

end IDT

/-- Where the image has what the processor is told of. -/
structure Place where
  /-- `gdt.gdt_ptr` -/
  gdtPtr : Nat
  /-- `gdt.tss` -/
  tss : Nat
  /-- `idt`, the header and behind it the entries -/
  idt : Nat
  /-- `isr_n` -/
  isr : Nat → Nat
  /-- `pic_isr_n` -/
  picIsr : Nat → Nat

namespace Place

variable (p : Place)

/-- `idt.entries`. -/
def entries : Nat := p.idt + IDT.sizeofHeader

/-- The arguments of the calls of `IDT::set_gate`: the vector and the
stub. -/
def stubs : List (Nat × Nat) :=
  (List.range 32).map (fun n => (n, p.isr n)) ++
    (List.range 16).map fun n => (n + 32, p.picIsr n)

/-- The addresses are addresses, and the tables and headers are clear of
each other. -/
structure Ok : Prop where
  tss : p.tss < 2 ^ 32
  isr : ∀ n < 32, p.isr n < 2 ^ 32
  picIsr : ∀ n < 16, p.picIsr n < 2 ^ 32
  gdt_low : GDT_ENTRIES_ADDRESS + 64 ≤ p.gdtPtr
  idt_low : GDT_ENTRIES_ADDRESS + 64 ≤ p.idt
  apart : p.gdtPtr + 6 ≤ p.idt ∨ p.idt + 2054 ≤ p.gdtPtr
  idt_lt : p.idt + 2054 ≤ 2 ^ 32

end Place

/-- `GDT::init`, up to `lgdt`. -/
def GDT.init (p : Place) (b : Bytes) : Bytes :=
  let b := (GDT.gates p.tss).foldl (fun b (n, base, limit, acc, fl) =>
    GDT.setGate GDT_ENTRIES_ADDRESS n base limit acc fl b) b
  -- `gdt_entries_size` is one more than the last number
  let b := b.write16 p.gdtPtr (GDT.sizeofEntry * 8 - 1)
  b.write32 (p.gdtPtr + 2) GDT_ENTRIES_ADDRESS

/-- `IDT::init`, up to `lidt`. -/
def IDT.init (p : Place) (b : Bytes) : Bytes :=
  let b := b.write32 (p.idt + 2) p.entries
  let b := b.write16 p.idt (IDT.sizeofEntry * IDT.IDT_ENTRIES - 1)
  p.stubs.foldl (fun b (n, handler) =>
    IDT.setGate p.entries n handler SS_KCODE
      (IDT.IDT_PRESENT ||| IDT.IDT_GATE32 ||| IDT.IDT_DEFAULT
        ||| IDT.IDT_ALL) b) b

-- =========================================================== the processor

/-- What `lgdt` or `lidt` loads: a limit and a base. -/
structure TableRegister where
  limit : Nat
  base : Nat
  deriving DecidableEq, Repr

def TableRegister.load (b : Bytes) (a : Nat) : TableRegister where
  limit := b.read16 a
  base := b.read32 (a + 2)

/-- A segment, as the processor reads it from its descriptor. -/
structure Segment where
  base : Nat
  limit : Nat
  access : Nat
  flags : Nat
  deriving DecidableEq, Repr

def Segment.read (b : Bytes) (a : Nat) : Segment where
  base := b.read16 (a + 2) + 2 ^ 16 * (b (a + 4)).toNat
    + 2 ^ 24 * (b (a + 7)).toNat
  limit := b.read16 a + 2 ^ 16 * ((b (a + 6)).toNat % 16)
  access := (b (a + 5)).toNat
  flags := (b (a + 6)).toNat / 16

/-- It is present, and code of the ring `ring`. -/
def Segment.IsCode (s : Segment) (ring : Nat) : Prop :=
  s.access.testBit 7 = true ∧ s.access.testBit 4 = true ∧
    s.access.testBit 3 = true ∧ s.access / 32 % 4 = ring

instance (s : Segment) (ring : Nat) : Decidable (s.IsCode ring) :=
  inferInstanceAs (Decidable (_ ∧ _ ∧ _ ∧ _))

/-- It is all 4 GiB, from 0 on: the limit counts pages. -/
def Segment.Flat (s : Segment) : Prop :=
  s.base = 0 ∧ s.limit = 2 ^ 20 - 1 ∧ s.flags.testBit 3 = true ∧
    s.flags.testBit 2 = true

/-- A gate, as the processor reads it from its descriptor. -/
structure Gate where
  offset : Nat
  selector : Nat
  kind : Nat
  dpl : Nat
  present : Bool
  deriving DecidableEq, Repr

def Gate.read (b : Bytes) (a : Nat) : Gate where
  offset := b.read16 a + 2 ^ 16 * b.read16 (a + 6)
  selector := b.read16 (a + 2)
  kind := (b (a + 5)).toNat % 32
  dpl := (b (a + 5)).toNat / 32 % 4
  present := (b (a + 5)).toNat.testBit 7

/-- A 32-bit interrupt gate. -/
def INTERRUPT_GATE : Nat := 0xe

/-- The vector `n` comes, in ring 0 and not by an `int` instruction:
through its gate and the segment that the gate names, to the offset in it.
A gate or a segment that does not fit is another exception. -/
def Core.raise (gdtr idtr : TableRegister) (n : Nat) (code : Option Nat)
    (c : Core) : Option Core :=
  if idtr.limit < 8 * n + 7 then none
  else
    let g := Gate.read c.cpu.bytes (idtr.base + 8 * n)
    if g.present = false ∨ g.kind ≠ INTERRUPT_GATE then none
    else if gdtr.limit < g.selector / 8 * 8 + 7 then none
    else
      let s := Segment.read c.cpu.bytes (gdtr.base + g.selector / 8 * 8)
      if s.IsCode 0 then
        some { c.deliver code with eip := g.offset, cs := g.selector }
      else none

-- ========================================================== the statements

/-- The stub that is at `isr_n`. -/
def isrStub (n : Nat) : Stub :=
  if n ∈ [8, 10, 11, 12, 13, 14, 17, 30] then .err n else .noerr n

/-- The stub for the vector `n`, and its address. -/
def stubOf (n : Nat) : Stub := if n < 32 then isrStub n else .pic (n - 32)

def Place.stubAt (p : Place) (n : Nat) : Nat :=
  if n < 32 then p.isr n else p.picIsr (n - 32)

/-- `struct int_registers`, up to the words that the processor pushes for
code of another ring only. -/
structure IntRegisters where
  ds : Nat
  edi : Nat
  esi : Nat
  ebp : Nat
  esp : Nat
  ebx : Nat
  edx : Nat
  ecx : Nat
  eax : Nat
  intNbr : Nat
  /-- or `pic_int_nbr` -/
  errCode : Nat
  eip : Nat
  cs : Nat
  eflags : Nat
  deriving DecidableEq, Repr

/-- The fields, from the address `a` of the struct on. -/
def IntRegisters.read (b : Bytes) (a : Nat) : IntRegisters where
  ds := b.read32 a
  edi := b.read32 (a + 4)
  esi := b.read32 (a + 8)
  ebp := b.read32 (a + 12)
  esp := b.read32 (a + 16)
  ebx := b.read32 (a + 20)
  edx := b.read32 (a + 24)
  ecx := b.read32 (a + 28)
  eax := b.read32 (a + 32)
  intNbr := b.read32 (a + 36)
  errCode := b.read32 (a + 40)
  eip := b.read32 (a + 44)
  cs := b.read32 (a + 48)
  eflags := b.read32 (a + 52)

/-- The error code that a handler finds: the processor's, or the number of
the line, or 0. -/
def codeOf (n : Nat) (code : Option Nat) : Nat :=
  if n < 32 then code.getD 0 else n - 32

/-- What a handler for the vector `n` is to find, when `c` was
interrupted. -/
def Core.registers (c : Core) (n : Nat) (code : Option Nat) :
    IntRegisters where
  ds := c.cpu.eax / 2 ^ 16 * 2 ^ 16 + c.ds
  edi := c.cpu.edi
  esi := c.cpu.esi
  ebp := c.cpu.ebp
  esp := c.cpu.esp - 20
  ebx := c.cpu.ebx
  edx := c.cpu.edx
  ecx := c.cpu.ecx
  eax := c.cpu.eax
  intNbr := n
  errCode := codeOf n code
  eip := c.eip
  cs := c.cs
  eflags := c.cpu.eflags

/-- The byte is one of the tables. -/
def Place.InTables (p : Place) (x : Nat) : Prop :=
  GDT_ENTRIES_ADDRESS ≤ x ∧ x < GDT_ENTRIES_ADDRESS + 64 ∨
    p.entries ≤ x ∧ x < p.entries + 2048

/-- What `GDT::init` and then `IDT::init` have left. -/
def Place.boot (p : Place) (b : Bytes) : Bytes := IDT.init p (GDT.init p b)

/-- What `lgdt` and `lidt` have loaded. -/
def Place.gdtr (p : Place) (b : Bytes) : TableRegister :=
  .load (GDT.init p b) p.gdtPtr

def Place.idtr (p : Place) (b : Bytes) : TableRegister :=
  .load (p.boot b) p.idt

end Ntibux
