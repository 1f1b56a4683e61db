/-
The command table and the dispatcher (interpreter.cpp), and the string
functions of misc.cpp that it uses.

A string that is read is the memory from its first character on, and
reading past the end of that memory is a `fault`. `interpret` is modelled
up to the call of the handler, which is a tail call: it says which one is
called, with which arguments and on which memory.
-/
import Ntibux.Lib.Bytes
import Ntibux.Lib.Cells
import Ntibux.Term.Printk
import Mathlib.Logic.Function.Basic

namespace Ntibux

def MAX_LINE_LEN : Nat := 1024

def MAX_COMMAND_NAME_LEN : Nat := 32

def MAX_COMMANDS_NUMBER : Nat := 64

/-- `char *splits[MAX_LINE_LEN / 2 + 1]`. -/
abbrev Splits : Type := Vector Nat (MAX_LINE_LEN / 2 + 1)

-- ================================================================== strings

/-- The `n` bytes of memory from `p` on. -/
def Bytes.stretch (b : Bytes) (p : Nat) : Nat → List UInt8
  | 0 => []
  | n + 1 => b p :: b.stretch (p + 1) n

/-- The memory from `p` to its end. -/
def Bytes.upFrom (b : Bytes) (p : Nat) : List UInt8 :=
  b.stretch p (2 ^ 32 - p)

def isSep (c : UInt8) : Bool := c == 0x20 || c == 0x09 || c == 0x0a

/-- `strcmp(s1, s2)`, the difference of the characters as the code takes
it. -/
def strcmp : List UInt8 → List UInt8 → Outcome Int
  | c :: s1, d :: s2 =>
      if c ≠ 0 ∧ d ≠ 0 ∧ c = d then strcmp s1 s2
      else .ret (d.toInt8.toInt - c.toInt8.toInt)
  | _, _ => .fault

/-- `strncpy(dest, src, n)` from index `i` on. The zero that ends the copy
is not counted in `n`. -/
def strncpyFrom {m : Nat} :
    Nat → List UInt8 → Nat → Vector UInt8 m → Outcome (Vector UInt8 m)
  | i, _, 0, dest => Outcome.store dest i 0
  | _, [], _ + 1, _ => .fault
  | i, c :: src, n + 1, dest =>
      if c ≠ 0 then do
        let dest ← Outcome.store dest i c
        strncpyFrom (i + 1) src n dest
      else Outcome.store dest i 0

-- ============================================================= interpreter

/-- `class command`, over what a handler is. -/
structure Command (α : Type) where
  name : Vector UInt8 MAX_COMMAND_NAME_LEN
  run : α

/-- `class interpreter`: the first `commands_nbr` entries of its array. -/
structure Interpreter (α : Type) where
  commands : List (Command α)

namespace Interpreter

variable {α : Type}

def new : Interpreter α where
  commands := []

/-- `add_command(name, fun)`, over the characters `old` that are in the
name of the new entry. -/
def addCommand (old : Vector UInt8 MAX_COMMAND_NAME_LEN)
    (name : List UInt8) (run : α) (s : Interpreter α) :
    Outcome (Nat × Interpreter α) :=
  if ¬s.commands.length < MAX_COMMANDS_NUMBER then .ret (0, s)
  else do
    let name ← strncpyFrom 0 name MAX_COMMAND_NAME_LEN old
    .ret (1, { commands := s.commands ++ [{ name := name, run := run }] })

/-- A call of `add_command`. -/
structure Registration (α : Type) where
  old : Vector UInt8 MAX_COMMAND_NAME_LEN
  name : List UInt8
  run : α

/-- One call of `add_command` after the other. -/
def addCommands :
    List (Registration α) → Interpreter α → Outcome (Interpreter α)
  | [], s => .ret s
  | r :: regs, s => do
      let (_, s) ← s.addCommand r.old r.name r.run
      addCommands regs s

/-- What `interpret` comes to: a handler is called, or it returns by
itself, with what it has printed. -/
inductive Dispatch (α : Type) : Type
  | call (run : α) (args : Splits) (bytes : Bytes)
  | ret (value : Nat) (printed : List PrintkCall)

/-- The call of `printk` for a command that is not there. -/
def notFound (cmd : Nat) : PrintkCall where
  format := ascii "%12gcommand%14g %s%12g not found%r\n" ++ [0]
  params := [.str cmd]

/-- `exec_cmd(cmd, args)`, from an entry of the table on. -/
def execFrom (cmd : Nat) (args : Splits) (bytes : Bytes) :
    List (Command α) → Outcome (Dispatch α)
  | [] => .ret (.ret 1 [notFound cmd])
  | c :: commands => do
      let diff ← strcmp (bytes.upFrom cmd) c.name.toList
      if diff = 0 then .ret (.call c.run args bytes)
      else execFrom cmd args bytes commands

def execCmd (cmd : Nat) (args : Splits) (bytes : Bytes)
    (s : Interpreter α) : Outcome (Dispatch α) :=
  execFrom cmd args bytes s.commands

-- ==================================================================== split

/-- The variables of `split`, with the memory that it works on. -/
structure Split where
  i : Nat
  splitn : Nat
  last : UInt8
  bytes : Bytes
  splits : Splits

/-- The body of the loop, for the character `c` of `string[i]`. -/
def splitTurn (string : Nat) (c : UInt8) (s : Split) : Outcome Split := do
  let bytes := if isSep c then Function.update s.bytes (string + s.i) 0
    else s.bytes
  if ¬isSep c ∧ isSep s.last then do
    let splits ← Outcome.store s.splits s.splitn (string + s.i)
    .ret { i := s.i + 1, splitn := s.splitn + 1, last := c, bytes, splits }
  else .ret { s with i := s.i + 1, last := c, bytes }

/-- `while (string[i])`. -/
def splitLoop (string : Nat) : Nat → Split → Outcome Split
  | 0, _ => .timeout
  | fuel + 1, s =>
      let c := s.bytes (string + s.i)
      if c ≠ 0 then do
        let s ← splitTurn string c s
        splitLoop string fuel s
      else .ret s

/-- `split(string, splits)`. -/
def split (fuel string : Nat) (splits : Splits) (bytes : Bytes) :
    Outcome (Splits × Bytes) := do
  let s ← splitLoop string fuel
    { i := 0, splitn := 0, last := 0x20, bytes, splits }
  let splits ← Outcome.store s.splits s.splitn 0
  .ret (splits, s.bytes)

/-- `interpret(line)`. -/
def interpret (fuel line : Nat) (bytes : Bytes) (s : Interpreter α) :
    Outcome (Dispatch α) :=
  if bytes line = 0 then .ret (.ret 0 [])
  else do
    let (splits, bytes) ← split fuel line (Vector.replicate _ 0) bytes
    let first ← Outcome.load splits 0
    if first = 0 then .ret (.ret 0 [])
    else s.execCmd first splits bytes

end Interpreter

end Ntibux
