/-
`mem::dump`: the ranges of mapped pages of a page directory, and what it
prints for them.
-/
import Ntibux.Mem.Basic
import Ntibux.Term.Printk

namespace Ntibux

def PAGE_RW : Nat := 2

def PAGE_USER : Nat := 4

namespace Mem

/-- The variables of `mem::dump`, with what has been printed. -/
structure Dump where
  startAddr : Nat
  prev : Nat
  printed : List PrintkCall

/-- The entry of an address; 0 if it has none. -/
def entryOf (m : Mem) (pd : PageDirectory) (addr : Nat) : Nat :=
  let table := pd.tables (directoryIndex addr)
  if table ≠ 0 ∧ m.pages table (tableIndex addr) ≠ 0 then
    m.pages table (tableIndex addr)
  else 0

/-- `(prev & flag) ? c : '-'`. -/
def flagLetter (prev flag : Nat) (c : UInt8) : Arg :=
  if prev &&& flag ≠ 0 then .int c.toNat else .int 0x2d

/-- The line of a range, from the addresses at its two ends. -/
def rangeCall (startAddr addr prev : Nat) : PrintkCall where
  format := ascii "0x%8x - 0x%8x %8x %cr%c\n" ++ [0]
  params := [.int startAddr, .int addr,
    .int (u32 (addr + (2 ^ 32 - startAddr))),
    flagLetter prev PAGE_USER 0x75, flagLetter prev PAGE_RW 0x77]

/-- The body of the loop. -/
def dumpTurn (m : Mem) (pd : PageDirectory) (addr : Nat) (s : Dump) :
    Dump :=
  let current := m.entryOf pd addr
  let (startAddr, dump) :=
    if current ≠ 0 then
      if s.prev = 0 then (addr, false)
      else (s.startAddr, decide (current &&& 7 ≠ s.prev &&& 7))
    else (s.startAddr, decide (s.prev ≠ 0))
  if dump then
    { startAddr := addr, prev := current
      printed := s.printed ++ [rangeCall startAddr addr s.prev] }
  else { startAddr := startAddr, prev := current, printed := s.printed }

/-- `1024U * 1024U * 4096U - 4096`. -/
def dumpEnd : Nat := u32 (u32 (1024 * 1024 * 4096) + (2 ^ 32 - 4096))

/-- `for (addr = 0; addr < dumpEnd; addr += PAGESIZE)`. -/
def dumpLoop (m : Mem) (pd : PageDirectory) :
    Nat → Nat → Dump → Outcome Dump
  | 0, _, _ => .timeout
  | fuel + 1, addr, s =>
      if addr < dumpEnd then
        dumpLoop m pd fuel (u32 (addr + PAGESIZE)) (m.dumpTurn pd addr s)
      else .ret s

/-- `mem::dump(pd)`. -/
def dump (m : Mem) (pd : PageDirectory) (fuel : Nat) :
    Outcome (List PrintkCall) := do
  let s ← m.dumpLoop pd fuel 0 { startAddr := 0, prev := 0, printed := [] }
  .ret s.printed

end Mem

end Ntibux
