/-
What is put into a descriptor is what the processor reads from it, and an
interrupt comes to its stub and its handler.

# The tables

A call of `set_gate` puts eight bytes (`GDT.setGate_eq`,
`IDT.setGate_eq`), so each `init` fills a table, and the entries are read
back one by one (`segment_boot`, `gate_boot`).

# The way of an interrupt

The gate gives the address of the stub, its segment is all memory, and
what the stub pushes is, from the address that the call of the C handler
leaves its argument at, a `struct int_registers` (`raise_boot`).
-/
import Ntibux.Kernel.Descriptors
import Ntibux.Kernel.Proofs.Switch

namespace Ntibux

variable {p : Place} {b b' : Bytes} {n a x : Nat} {r : List UInt8}

-- ============================================================ a descriptor

/-- The eight bytes of an entry of the GDT. -/
def GDT.record (base limit acc flags : Nat) : List UInt8 :=
  [.ofNat (limit &&& 0xffff), .ofNat ((limit &&& 0xffff) / 2 ^ 8),
    .ofNat (base &&& 0xffff), .ofNat ((base &&& 0xffff) / 2 ^ 8),
    .ofNat ((base >>> 16) &&& 0xff), .ofNat acc,
    .ofNat ((limit >>> 16) % 16 + 16 * (flags % 16)),
    .ofNat ((base >>> 24) &&& 0xff)]

/-- The eight bytes of an entry of the IDT. -/
def IDT.record (handler ss flags : Nat) : List UInt8 :=
  [.ofNat (handler &&& 0xffff), .ofNat ((handler &&& 0xffff) / 2 ^ 8),
    .ofNat ss, .ofNat (ss / 2 ^ 8), .ofNat 0, .ofNat flags,
    .ofNat ((handler >>> 16) &&& 0xffff),
    .ofNat (((handler >>> 16) &&& 0xffff) / 2 ^ 8)]

/-- A byte of eight is one of them, any other is elsewhere. -/
theorem eight_cases (a x : Nat) :
    (∃ i, (i = 0 ∨ i = 1 ∨ i = 2 ∨ i = 3 ∨ i = 4 ∨ i = 5 ∨ i = 6 ∨ i = 7)
      ∧ x = a + i) ∨ (x < a ∨ a + 8 ≤ x) := by
  by_cases h : a ≤ x ∧ x < a + 8
  · exact .inl ⟨x - a, by omega, by omega⟩
  · exact .inr (by omega)

/-- The two halves of the byte that `high_limit` and `flags` share. -/
theorem halves (b : Bytes) (e old high flags : Nat) :
    (b.write8 e (old / 16 * 16 + (high &&& 0xf)) e).toNat % 16
      + 16 * (flags &&& 0xf) = high % 16 + 16 * (flags % 16) := by
  have hand : ∀ k : Nat, k &&& 0xf = k % 16 := fun k =>
    Nat.and_two_pow_sub_one_eq_mod k 4
  unfold Bytes.write8
  rw [if_pos rfl, hand, hand, UInt8.toNat_ofNat']
  omega

/-- The stores of `GDT::set_gate` put eight bytes in a row. -/
theorem GDT.setGate_eq (gdt n base limit acc flags : Nat) (b : Bytes) :
    GDT.setGate gdt n base limit acc flags b
      = b.put (gdt + 8 * n) (GDT.record base limit acc flags) := by
  unfold GDT.setGate GDT.sizeofEntry
  generalize gdt + 8 * n = e
  dsimp only
  rw [halves]
  funext x
  obtain ⟨i, hi, rfl⟩ | hx := eight_cases e x
  · unfold Bytes.put
    rw [if_pos ⟨by omega, by simp [GDT.record]; omega⟩,
      Nat.add_sub_cancel_left]
    rcases hi with rfl | rfl | rfl | rfl | rfl | rfl | rfl | rfl <;>
      simp [Bytes.write8, Bytes.write16, GDT.record, Nat.add_assoc]
  · rw [Bytes.put_of_out (by simpa [GDT.record] using hx)]
    simp only [Bytes.write16]
    repeat rw [Bytes.write8_of_ne (by omega)]

/-- Those of `IDT::set_gate` do so as well. -/
theorem IDT.setGate_eq (idt n handler ss flags : Nat) (b : Bytes) :
    IDT.setGate idt n handler ss flags b
      = b.put (idt + 8 * n) (IDT.record handler ss flags) := by
  unfold IDT.setGate IDT.sizeofEntry
  generalize idt + 8 * n = e
  funext x
  obtain ⟨i, hi, rfl⟩ | hx := eight_cases e x
  · unfold Bytes.put
    rw [if_pos ⟨by omega, by simp [IDT.record]; omega⟩,
      Nat.add_sub_cancel_left]
    rcases hi with rfl | rfl | rfl | rfl | rfl | rfl | rfl | rfl <;>
      simp [Bytes.write8, Bytes.write16, IDT.record, Nat.add_assoc]
  · rw [Bytes.put_of_out (by simpa [IDT.record] using hx)]
    simp only [Bytes.write16]
    repeat rw [Bytes.write8_of_ne (by omega)]

/-- `>>` and `&` are the division and the remainder. -/
theorem field_eq (v k m : Nat) :
    (v >>> k) &&& (2 ^ m - 1) = v / 2 ^ k % 2 ^ m := by
  rw [Nat.and_two_pow_sub_one_eq_mod, Nat.shiftRight_eq_div_pow]

/-- A field at the bottom of a word is a remainder. -/
theorem field_zero (v m : Nat) : v &&& (2 ^ m - 1) = v % 2 ^ m :=
  Nat.and_two_pow_sub_one_eq_mod v m

/-- The number in a byte of a record. -/
theorem Bytes.Has.byte (h : b.Has a r) {i v : Nat} (hi : i < r.length)
    (hv : r.getD i 0 = UInt8.ofNat v) : (b (a + i)).toNat = v % 2 ^ 8 := by
  rw [h i hi, hv, UInt8.toNat_ofNat']

/-- What `GDT::set_gate` is given, the processor reads: all but the upper
bits of the limit and of the flags, for which there is no place. -/
theorem Segment.read_record {base limit acc flags : Nat}
    (h : b.Has a (GDT.record base limit acc flags))
    (hbase : base < 2 ^ 32) :
    Segment.read b a
      = ⟨base, limit % 2 ^ 20, acc % 2 ^ 8, flags % 16⟩ := by
  have hlen : (GDT.record base limit acc flags).length = 8 := rfl
  have h0 : (b a).toNat = _ := h.byte (i := 0) (by omega) rfl
  have h1 := h.byte (i := 1) (by omega) rfl
  have h2 := h.byte (i := 2) (by omega) rfl
  have h3 : (b (a + 2 + 1)).toNat = _ := h.byte (i := 3) (by omega) rfl
  have h4 := h.byte (i := 4) (by omega) rfl
  have h5 := h.byte (i := 5) (by omega) rfl
  have h6 := h.byte (i := 6) (by omega) rfl
  have h7 := h.byte (i := 7) (by omega) rfl
  have hlow : base &&& 0xffff = base % 2 ^ 16 := field_zero base 16
  have hmid : (base >>> 16) &&& 0xff = base / 2 ^ 16 % 2 ^ 8 :=
    field_eq base 16 8
  have hhigh : (base >>> 24) &&& 0xff = base / 2 ^ 24 % 2 ^ 8 :=
    field_eq base 24 8
  have hlimit : limit &&& 0xffff = limit % 2 ^ 16 := field_zero limit 16
  unfold Segment.read Bytes.read16
  rw [h0, h1, h2, h3, h4, h5, h6, h7, hlow, hmid, hhigh, hlimit,
    Nat.shiftRight_eq_div_pow]
  congr 1 <;> omega

/-- What `IDT::set_gate` is given, the processor reads. -/
theorem Gate.read_record {handler ss flags : Nat}
    (h : b.Has a (IDT.record handler ss flags))
    (hhandler : handler < 2 ^ 32) (hss : ss < 2 ^ 16) :
    Gate.read b a
      = { offset := handler, selector := ss, kind := flags % 2 ^ 8 % 32
          dpl := flags % 2 ^ 8 / 32 % 4
          present := (flags % 2 ^ 8).testBit 7 } := by
  have hlen : (IDT.record handler ss flags).length = 8 := rfl
  have h0 : (b a).toNat = _ := h.byte (i := 0) (by omega) rfl
  have h1 := h.byte (i := 1) (by omega) rfl
  have h2 := h.byte (i := 2) (by omega) rfl
  have h3 : (b (a + 2 + 1)).toNat = _ := h.byte (i := 3) (by omega) rfl
  have h5 := h.byte (i := 5) (by omega) rfl
  have h6 := h.byte (i := 6) (by omega) rfl
  have h7 : (b (a + 6 + 1)).toNat = _ := h.byte (i := 7) (by omega) rfl
  have hlow : handler &&& 0xffff = handler % 2 ^ 16 := field_zero handler 16
  have hhigh : (handler >>> 16) &&& 0xffff
      = handler / 2 ^ 16 % 2 ^ 16 := field_eq handler 16 16
  unfold Gate.read Bytes.read16
  rw [h0, h1, h2, h3, h5, h6, h7, hlow, hhigh]
  congr 1 <;> omega

-- ============================================================== the tables

namespace Place

/-- The entries of the IDT as records. -/
def records (p : Place) : List (Nat × List UInt8) :=
  p.stubs.map fun s => (s.1, IDT.record s.2 SS_KCODE 0xce)

/-- The entries of the GDT as records. -/
def segments (p : Place) : List (Nat × List UInt8) :=
  (GDT.gates p.tss).map fun g =>
    (g.1, GDT.record g.2.1 g.2.2.1 g.2.2.2.1 g.2.2.2.2)

end Place

/-- `GDT::init` fills its table and then the operand of `lgdt`. -/
theorem GDT.init_eq (p : Place) (b : Bytes) : GDT.init p b
    = ((b.fillTable GDT_ENTRIES_ADDRESS 8 p.segments).write16 p.gdtPtr
        63).write32 (p.gdtPtr + 2) GDT_ENTRIES_ADDRESS := by
  unfold GDT.init Place.segments Bytes.fillTable
  rw [List.foldl_map]
  simp only [GDT.setGate_eq]
  rfl

/-- `IDT::init` fills the operand of `lidt` and then its table. -/
theorem IDT.init_eq (p : Place) (b : Bytes) : IDT.init p b
    = ((b.write32 (p.idt + 2) p.entries).write16 p.idt 2047).fillTable
        p.entries 8 p.records := by
  unfold IDT.init Place.records Bytes.fillTable
  rw [List.foldl_map]
  simp only [IDT.setGate_eq]
  rfl

namespace Place

/-- Each vector has one stub. -/
theorem stubs_nodup (p : Place) : (p.stubs.map Prod.fst).Nodup := by
  have hfst : p.stubs.map Prod.fst
      = List.range 32 ++ (List.range 16).map (· + 32) := by
    simp [stubs, Function.comp_def]
  rw [hfst]
  decide

/-- Each vector below 48 has a stub. -/
theorem stubAt_mem (p : Place) (hn : n < 48) :
    (n, p.stubAt n) ∈ p.stubs := by
  unfold stubs stubAt
  by_cases h : n < 32
  · rw [if_pos h]
    exact List.mem_append_left _
      (List.mem_map.mpr ⟨n, List.mem_range.mpr h, rfl⟩)
  · rw [if_neg h]
    refine List.mem_append_right _ (List.mem_map.mpr ⟨n - 32,
      List.mem_range.mpr (by omega), ?_⟩)
    rw [Nat.sub_add_cancel (by omega)]

/-- No other vector has one. -/
theorem stubs_lt {s : Nat × Nat} (hs : s ∈ p.stubs) : s.1 < 48 := by
  unfold stubs at hs
  rcases List.mem_append.mp hs with h | h <;>
    obtain ⟨n, hn, rfl⟩ := List.mem_map.mp h <;>
    have hn := List.mem_range.mp hn <;> dsimp only <;> omega

/-- A stub is code of the kernel's, at an address of 32 bits. -/
theorem Ok.stubAt_lt (hp : p.Ok) (hn : n < 48) : p.stubAt n < 2 ^ 32 := by
  unfold stubAt
  split
  · exact hp.isr n ‹_›
  · exact hp.picIsr _ (by omega)

/-- A record of the IDT takes eight bytes. -/
theorem records_length {q : Nat × List UInt8} (hq : q ∈ p.records) :
    q.2.length = 8 := by
  obtain ⟨s, -, rfl⟩ := List.mem_map.mp hq
  rfl

/-- So does one of the GDT. -/
theorem segments_length {q : Nat × List UInt8} (hq : q ∈ p.segments) :
    q.2.length = 8 := by
  obtain ⟨g, -, rfl⟩ := List.mem_map.mp hq
  rfl

/-- A record of the IDT lies within its table. -/
theorem records_lt {q : Nat × List UInt8} (hq : q ∈ p.records) :
    q.1 < 48 := by
  obtain ⟨s, hs, rfl⟩ := List.mem_map.mp hq
  exact stubs_lt hs

/-- A record of the GDT within its own. -/
theorem segments_lt {q : Nat × List UInt8} (hq : q ∈ p.segments) :
    q.1 < 8 := by
  have hfst : p.segments.map Prod.fst = List.range 8 := by
    unfold segments
    rw [List.map_map]
    rfl
  exact List.mem_range.mp (hfst ▸ List.mem_map_of_mem hq)

-- ------------------------------------------------------------- after boot

/-- What `GDT::init` has left outside the header. -/
theorem gdtInit_of_out (hx : x < p.gdtPtr ∨ p.gdtPtr + 6 ≤ x) :
    GDT.init p b x = b.fillTable GDT_ENTRIES_ADDRESS 8 p.segments x := by
  rw [GDT.init_eq, Bytes.write32_of_out (by omega),
    Bytes.write16_of_out (by omega)]

/-- What `lgdt` is given, at any place. -/
theorem gdtr_eq (p : Place) (b : Bytes) : p.gdtr b = ⟨63, GDT_ENTRIES_ADDRESS⟩ := by
  unfold gdtr TableRegister.load
  rw [GDT.init_eq, Bytes.read32_write32_self (by decide)]
  congr 1
  rw [Bytes.read16_congr fun x h1 h2 => Bytes.write32_of_out (by omega) _]
  exact Bytes.read16_write16_self (by decide)

/-- The header of the IDT is none of its entries. -/
theorem Ok.idtr_eq (hp : p.Ok) : p.idtr b = ⟨2047, p.entries⟩ := by
  have hlt := hp.idt_lt
  have hheader : ∀ x, p.idt ≤ x → x < p.idt + 6 → p.boot b x
      = (((GDT.init p b).write32 (p.idt + 2) p.entries).write16 p.idt
        2047) x := by
    intro x h1 h2
    unfold boot
    rw [IDT.init_eq]
    refine Bytes.fillTable_of_out (fun q hq => records_length hq)
      fun q _ => .inl ?_
    show x < p.idt + 6 + 8 * q.1
    omega
  have hbase : (p.boot b).read32 (p.idt + 2)
      = ((GDT.init p b).write32 (p.idt + 2) p.entries).read32 (p.idt + 2) :=
    Bytes.read32_congr fun x h1 h2 => (hheader x (by omega) (by omega)).trans
      (Bytes.write16_of_out (by omega) _)
  have hentries : p.entries < 2 ^ 32 := by
    show p.idt + 6 < 2 ^ 32
    omega
  unfold idtr TableRegister.load
  rw [Bytes.read16_congr fun x h1 h2 => hheader x h1 (by omega),
    Bytes.read16_write16_self (by decide), hbase,
    Bytes.read32_write32_self hentries]

/-- The gate of each of the 48 vectors leads to its stub, with interrupts
off; of the rings without the interrupt's right, 2 may raise it by `int`,
3 may not. -/
theorem Ok.gate_boot (hp : p.Ok)
    (hkeep : ∀ x, p.InTables x → b' x = p.boot b x) (hn : n < 48) :
    Gate.read b' (p.entries + 8 * n)
      = ⟨p.stubAt n, SS_KCODE, INTERRUPT_GATE, 2, true⟩ := by
  have hrec : (n, IDT.record (p.stubAt n) SS_KCODE 0xce) ∈ p.records :=
    List.mem_map.mpr ⟨_, p.stubAt_mem hn, rfl⟩
  have hfst : (p.records.map Prod.fst).Nodup := by
    unfold records
    rw [List.map_map]
    exact p.stubs_nodup
  have hboot : (p.boot b).Has (p.entries + 8 * n)
      (IDT.record (p.stubAt n) SS_KCODE 0xce) := by
    unfold boot
    rw [IDT.init_eq]
    exact Bytes.fillTable_has (fun q hq => records_length hq) hfst hrec
  have hlen : (IDT.record (p.stubAt n) SS_KCODE 0xce).length = 8 := rfl
  have hhere : b'.Has (p.entries + 8 * n)
      (IDT.record (p.stubAt n) SS_KCODE 0xce) :=
    hboot.congr fun x h1 h2 => hkeep x (.inr ⟨by omega, by omega⟩)
  rw [Gate.read_record hhere (hp.stubAt_lt hn) (by decide)]
  rfl

/-- The other vectors have no gate. -/
theorem Ok.gate_missing (hp : p.Ok)
    (hzero : ∀ x, p.entries ≤ x → x < p.entries + 2048 → b x = 0)
    (hkeep : ∀ x, p.InTables x → b' x = p.boot b x) (hn : 48 ≤ n)
    (hlt : n < 256) : (Gate.read b' (p.entries + 8 * n)).present = false := by
  have hlow := hp.idt_low
  have happ := hp.apart
  have hgdt := hp.gdt_low
  have hentries : p.entries = p.idt + 6 := rfl
  have hbyte : b' (p.entries + 8 * n + 5) = 0 := by
    rw [hkeep _ (.inr ⟨by omega, by omega⟩)]
    unfold boot
    rw [IDT.init_eq, Bytes.fillTable_of_out (fun q hq => records_length hq)
      (fun q hq => .inr (by have := records_lt hq; omega)),
      Bytes.write16_of_out (by omega), Bytes.write32_of_out (by omega),
      gdtInit_of_out (by omega),
      Bytes.fillTable_of_out (fun q hq => segments_length hq)
        (fun q hq => .inr (by
          have := segments_lt hq
          unfold GDT_ENTRIES_ADDRESS at *
          omega))]
    exact hzero _ (by omega) (by omega)
  show (b' (p.entries + 8 * n + 5)).toNat.testBit 7 = false
  rw [hbyte]
  rfl

/-- The segments are those of the calls. -/
theorem Ok.segment_boot (hp : p.Ok)
    (hkeep : ∀ x, p.InTables x → b' x = p.boot b x)
    {base limit acc fl : Nat} (hg : (n, base, limit, acc, fl)
      ∈ GDT.gates p.tss) (hbase : base < 2 ^ 32) :
    Segment.read b' (GDT_ENTRIES_ADDRESS + 8 * n)
      = ⟨base, limit % 2 ^ 20, acc % 2 ^ 8, fl % 16⟩ := by
  have hrec : (n, GDT.record base limit acc fl) ∈ p.segments :=
    List.mem_map.mpr ⟨_, hg, rfl⟩
  have hn := segments_lt hrec
  have hfst : (p.segments.map Prod.fst).Nodup := by
    unfold segments
    rw [List.map_map]
    show (List.range 8).Nodup
    exact List.nodup_range
  have hlow := hp.idt_low
  have hgdt := hp.gdt_low
  have hentries : p.entries = p.idt + 6 := rfl
  refine Segment.read_record ?_ hbase
  refine (Bytes.fillTable_has (b := b) (fun q hq => segments_length hq) hfst
    hrec).congr fun x h1 h2 => ?_
  have hlen : (GDT.record base limit acc fl).length = 8 := rfl
  unfold GDT_ENTRIES_ADDRESS at *
  rw [hkeep x (.inl ⟨by unfold GDT_ENTRIES_ADDRESS; omega, by
    unfold GDT_ENTRIES_ADDRESS; omega⟩)]
  unfold boot
  rw [IDT.init_eq, Bytes.fillTable_of_out (fun q hq => records_length hq)
    (fun q _ => .inl (by omega)), Bytes.write16_of_out (by omega),
    Bytes.write32_of_out (by omega), gdtInit_of_out (by omega)]
  rfl

end Place

-- ==================================================== the way of an interrupt

/-- The fields of a row of fourteen words. -/
theorem IntRegisters.read_eq {r : IntRegisters}
    (h : b.Words a [r.ds, r.edi, r.esi, r.ebp, r.esp, r.ebx, r.edx, r.ecx,
      r.eax, r.intNbr, r.errCode, r.eip, r.cs, r.eflags]) :
    IntRegisters.read b a = r := by
  simp only [Bytes.words_cons, Nat.add_assoc] at h
  obtain ⟨h0, h1, h2, h3, h4, h5, h6, h7, h8, h9, h10, h11, h12, h13, -⟩ := h
  unfold IntRegisters.read
  rw [h0, h1, h2, h3, h4, h5, h6, h7, h8, h9, h10, h11, h12, h13]

/-- What the stub of a vector leaves for its handler, as a struct. -/
theorem Stub.row_eq {code : Option Nat} (hn : n < 48)
    (hcode : code.isSome = (stubOf n).hasCode) (c : Core) :
    (stubOf n).row code c
      = let r := c.registers n code
        [r.ds, r.edi, r.esi, r.ebp, r.esp, r.ebx, r.edx, r.ecx, r.eax,
          r.intNbr, r.errCode, r.eip, r.cs, r.eflags] := by
  unfold Core.registers codeOf Stub.row
  unfold stubOf at hcode ⊢
  by_cases h : n < 32
  · rw [if_pos h] at hcode ⊢
    unfold isrStub at hcode ⊢
    by_cases herr : n ∈ [8, 10, 11, 12, 13, 14, 17, 30]
    · rw [if_pos herr] at hcode ⊢
      cases code with
      | none => cases hcode
      | some v => simp [Stub.words, h]
    · rw [if_neg herr] at hcode ⊢
      cases code with
      | none => simp [Stub.words, h]
      | some v => cases hcode
  · rw [if_neg h] at hcode ⊢
    have hnbr : n - 32 + 32 = n := by omega
    cases code with
    | none => simp [Stub.words, h, hnbr]
    | some v => cases hcode

/-- The words of a stub. -/
theorem Stub.words_lt (hn : n < 48) : ∀ w ∈ (stubOf n).words, w < 2 ^ 32 := by
  unfold stubOf isrStub
  intro w hw
  split at hw
  · split at hw
    · simp only [Stub.words, List.mem_cons, List.not_mem_nil,
        or_false] at hw
      omega
    · simp only [Stub.words, List.mem_cons, List.not_mem_nil,
        or_false] at hw
      omega
  · simp only [Stub.words, List.mem_cons, List.not_mem_nil, or_false] at hw
    omega

/-- Interrupts are off behind an interrupt gate. -/
theorem gate_clears (v : Nat) :
    (v &&& not32 EFLAGS_GATE).testBit 9 = false := by
  rw [Nat.testBit_and]
  have hbit : (not32 EFLAGS_GATE).testBit 9 = false := by decide
  rw [hbit, Bool.and_false]

/-- From the tables that `GDT::init` and `IDT::init` leave, as long as
nothing writes there: an interrupt by any of the 32 vectors of the
processor or of the 16 lines, at any instruction and with any registers,
comes to the stub of its vector, with interrupts off and in the kernel's
code segment, which is all memory; and what the stub leaves as the
argument of `interrupt_handler` or `pic_interrupt_handler` is a
`struct int_registers` with the vector, the error code or the line, and
all registers as they were. By any other vector, none comes. -/
theorem Core.raise_boot {i : Image} {c : Core} {code : Option Nat}
    (hp : p.Ok) (hok : c.Ok)
    (hzero : ∀ x, p.entries ≤ x → x < p.entries + 2048 → b x = 0)
    (hkeep : ∀ x, p.InTables x → c.cpu.bytes x = p.boot b x)
    (hcode : code.isSome = (stubOf n).hasCode)
    (hword : ∀ w ∈ code, w < 2 ^ 32) (hroom : 128 ≤ c.cpu.esp)
    (hsem : i.semaphore + 4 ≤ c.cpu.esp - 128
      ∨ c.cpu.esp ≤ i.semaphore) :
    if n < 48 then
      ∃ d, c.raise (p.gdtr b) (p.idtr b) n code = some d ∧
        d.eip = p.stubAt n ∧ d.cs = SS_KCODE ∧
        d.cpu.eflags.testBit 9 = false ∧
        (Segment.read c.cpu.bytes
          ((p.gdtr b).base + d.cs / 8 * 8)).Flat ∧
        ∃ e, d.stub i (stubOf n) = e ∧ e.eip = (stubOf n).handler i ∧
          IntRegisters.read e.cpu.bytes (e.cpu.esp + 4)
            = c.registers n code
    else c.raise (p.gdtr b) (p.idtr b) n code = none := by
  rw [Place.gdtr_eq, hp.idtr_eq]
  split
  case isTrue hn =>
    have hgate := hp.gate_boot hkeep hn
    have hgate1 : (1, 0, 0xffffffff,
        GDT.access (GDT.KERNEL ||| GDT.CODE ||| GDT.READABLE_CODE |||
          GDT.NON_CONFORMING),
        GDT.flags (GDT.GRANULARITY_4KB ||| GDT.MODE_32B))
          ∈ GDT.gates p.tss :=
      List.mem_cons_of_mem _ List.mem_cons_self
    -- the gate names the second segment of the GDT
    have hcodeSeg : Segment.read c.cpu.bytes (GDT_ENTRIES_ADDRESS + 8)
        = ⟨0, 2 ^ 20 - 1, 0x9a, 0xc⟩ :=
      hp.segment_boot hkeep hgate1 (by decide)
    have hsel : SS_KCODE / 8 * 8 = 8 := rfl
    obtain ⟨eax, e, bytes, hstub, -, -, hrow, -⟩ :=
      Core.stub_eq hok hcode hword (Stub.words_lt hn) hroom hsem
    refine ⟨{ c.deliver code with eip := p.stubAt n, cs := SS_KCODE }, ?_,
      rfl, rfl, gate_clears _, ?_, _, rfl, rfl, ?_⟩
    · unfold Core.raise
      dsimp only
      rw [if_neg (by omega), hgate]
      dsimp only
      rw [if_neg (by decide), hsel, if_neg (by omega), hcodeSeg,
        if_pos (by decide)]
    · dsimp only
      rw [hsel, hcodeSeg]
      exact ⟨rfl, rfl, rfl, rfl⟩
    · have hsame : Core.stub i { c.deliver code with
            eip := p.stubAt n, cs := SS_KCODE } (stubOf n)
          = (c.deliver code).stub i (stubOf n) := rfl
      have hat : c.cpu.esp - 60 + 4 = c.cpu.esp - 56 := by omega
      rw [hsame, hstub]
      dsimp only
      rw [hat]
      apply IntRegisters.read_eq
      rw [Stub.row_eq hn hcode] at hrow
      exact hrow
  case isFalse hn =>
    unfold Core.raise
    dsimp only
    -- past the 48 stubs the IDT is zero, and past 256 entries at an end
    by_cases hlt : n < 256
    · have hgate := hp.gate_missing hzero hkeep (by omega) hlt
      rw [if_neg (by omega), if_pos (.inl hgate)]
    · rw [if_pos (by omega)]

/-- An image at 1 MiB. -/
def samplePlace : Place where
  gdtPtr := 0x103000
  tss := 0x103100
  idt := 0x104000
  isr n := 0x100000 + 16 * n
  picIsr n := 0x100800 + 16 * n

/-- There is a place for the tables. -/
theorem samplePlace_ok : samplePlace.Ok where
  tss := by decide
  isr n hn := show 0x100000 + 16 * n < 2 ^ 32 by omega
  picIsr n hn := show 0x100800 + 16 * n < 2 ^ 32 by omega
  gdt_low := by decide
  idt_low := by decide
  apart := .inl (by decide)
  idt_lt := by decide

/-- Right after the tables have been loaded. -/
def sampleCore : Core where
  cpu :=
    { eax := 1, ebx := 2, ecx := 3, edx := 4, esi := 5, edi := 6, ebp := 7
      esp := 0x200000, eflags := 0x202
      bytes := samplePlace.boot fun _ => 0 }
  eip := 0x100c00
  cs := SS_KCODE
  ds := SS_KDATA
  es := SS_KDATA
  fs := SS_KDATA
  gs := SS_KDATA

def sampleImage : Image where
  semaphore := 0x103200
  firstRet := 0x101000
  label := 0x101001
  back := 0x101010
  handler := 0x101020
  picHandler := 0x101030
  handlerBack := 0x101040
  iretAt := 0x101050

/-- A page fault on writing. -/
theorem Core.raise_boot_fault : ∃ d e,
    sampleCore.raise (samplePlace.gdtr fun _ => 0)
      (samplePlace.idtr fun _ => 0) 14 (some 2) = some d ∧
    d.eip = 0x1000e0 ∧ d.stub sampleImage (.err 14) = e ∧
    e.eip = 0x101020 ∧
    IntRegisters.read e.cpu.bytes (e.cpu.esp + 4)
      = { ds := 0x10, edi := 6, esi := 5, ebp := 7, esp := 0x1fffec, ebx := 2
          edx := 4, ecx := 3, eax := 1, intNbr := 14, errCode := 2
          eip := 0x100c00, cs := 0x8, eflags := 0x202 } := by
  have hok : sampleCore.Ok := by
    constructor <;> decide
  have h := Core.raise_boot (n := 14) (b := fun _ => 0) (c := sampleCore)
    (i := sampleImage) samplePlace_ok hok (fun _ _ _ => rfl)
    (fun _ _ => rfl)
    (show (some 2).isSome = (stubOf 14).hasCode by decide)
    (by decide) (by decide) (.inl (by decide))
  rw [if_pos (by decide)] at h
  obtain ⟨d, hd, heip, -, -, -, e, he, hhandler, hregs⟩ := h
  exact ⟨d, e, hd, heip, he, hhandler, hregs⟩

end Ntibux
