/-
Two interrupt controllers of the 8259 kind, the second one at line 2 of
the first: what a byte to one of their ports does, and which interrupt a
line leads to.

A controller takes three or four initialization words, the first at its
command port and the others at its data port; then a byte at the data
port is its mask, and an end of interrupt at the command port takes the
line of the highest priority out of service. A line in service holds back
itself and all lines behind it.
-/
import Mathlib.Algebra.Group.Nat.Defs
import Mathlib.Tactic.Basic

namespace Ntibux

/-- The word that the data port takes next. -/
inductive PicStage
  | icw2 | icw3 | icw4 | ready
  deriving DecidableEq, Repr

structure Pic where
  stage : PicStage
  single : Bool
  needsIcw4 : Bool
  /-- the vector of line 0 -/
  offset : Nat
  cascade : Nat
  mode : Nat
  /-- the lines that are masked -/
  imr : Nat
  /-- the lines in service -/
  isr : Nat
  deriving DecidableEq, Repr

namespace Pic

variable (p : Pic) (v i : Nat)

/-- Out of service: the lowest line that is in it. -/
def endOfInterrupt : Pic := { p with isr := p.isr &&& (p.isr - 1) }

/-- The command port: the first initialization word, or a command. Of the
commands, only the end of interrupt is there. -/
def command : Pic :=
  if v.testBit 4 then
    { p with
      stage := .icw2, single := v.testBit 1, needsIcw4 := v.testBit 0
      imr := 0, isr := 0 }
  else if v = 0x20 then p.endOfInterrupt
  else p

/-- The data port. -/
def data : Pic :=
  match p.stage with
  | .icw2 =>
      { p with
        offset := v / 8 * 8
        stage := if p.single = false then .icw3
          else if p.needsIcw4 then .icw4 else .ready }
  | .icw3 =>
      { p with
        cascade := v, stage := if p.needsIcw4 then .icw4 else .ready }
  | .icw4 => { p with mode := v, stage := .ready }
  | .ready => { p with imr := v }

/-- The line is neither masked nor held back. -/
def Takes : Prop :=
  p.stage = .ready ∧ p.imr.testBit i = false ∧ p.isr % 2 ^ (i + 1) = 0

instance : Decidable (p.Takes i) :=
  inferInstanceAs (Decidable (_ ∧ _ ∧ _))

/-- The line goes into service. -/
def enter : Pic := { p with isr := p.isr ||| 2 ^ i }

end Pic

structure Pics where
  master : Pic
  slave : Pic
  deriving DecidableEq, Repr

def PIC1_CMD : Nat := 0x20
def PIC1_DATA : Nat := 0x21
def PIC2_CMD : Nat := 0xa0
def PIC2_DATA : Nat := 0xa1

namespace Pics

variable (p : Pics)

/-- `outb(port, v)`. -/
def outb (port v : Nat) : Pics :=
  if port = PIC1_CMD then { p with master := p.master.command v }
  else if port = PIC1_DATA then { p with master := p.master.data v }
  else if port = PIC2_CMD then { p with slave := p.slave.command v }
  else if port = PIC2_DATA then { p with slave := p.slave.data v }
  else p

/-- One byte after another. -/
def outbs (l : List (Nat × Nat)) : Pics :=
  l.foldl (fun p w => p.outb w.1 w.2) p

/-- An interrupt comes in at the line `k`: the vector it has, and the
controllers once the processor has taken it. At line 2 there is nothing
but the other controller. -/
def request (k : Nat) : Option (Nat × Pics) :=
  if k < 8 then
    if k ≠ 2 ∧ p.master.Takes k then
      some (p.master.offset + k, { p with master := p.master.enter k })
    else none
  else if k < 16 ∧ p.slave.Takes (k - 8) ∧ p.master.Takes 2 ∧
      p.master.cascade.testBit 2 = true ∧ p.slave.cascade = 2 then
    some (p.slave.offset + (k - 8),
      { master := p.master.enter 2, slave := p.slave.enter (k - 8) })
  else none

end Pics

-- ============================================================== in service

namespace Pic

variable {p : Pic} {i : Nat}

/-- A line that went into service alone is out of it after one end of
interrupt. -/
theorem endOfInterrupt_enter (h : p.isr = 0) :
    (p.enter i).endOfInterrupt = p := by
  have hbit : 2 ^ i &&& (2 ^ i - 1) = 0 := by
    rw [Nat.and_two_pow_sub_one_eq_mod, Nat.mod_self]
  unfold endOfInterrupt enter
  dsimp only
  rw [h, Nat.zero_or, hbit, ← h]

theorem takes_of_idle (hs : p.stage = .ready) (hm : p.imr = 0)
    (h : p.isr = 0) : p.Takes i := by
  refine ⟨hs, ?_, ?_⟩
  · rw [hm]
    exact Nat.zero_testBit i
  · rw [h]
    exact Nat.zero_mod _

end Pic

end Ntibux
