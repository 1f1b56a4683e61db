/-
The command table as memory has it: `interpreter::add_command` on the
bytes of the interpreter object, where the name of a command is the first
field of its entry and the pointer to its handler is right behind it.
-/
import Ntibux.Kernel.RunList
import Ntibux.Shell.Commands

namespace Ntibux

namespace Mem

/-- `&this->commands[i]`. -/
def commandAt (this i : Nat) : Nat := this + Shell.COMMAND_SIZE * i

/-- `&this->commands_nbr`. -/
def commandsNbr (this : Nat) : Nat := commandAt this MAX_COMMANDS_NUMBER

/-- `&this->commands[this->commands_nbr]`. -/
def nextCommand (m : Mem) (this : Nat) : Nat :=
  commandAt this (m.load (commandsNbr this))

/-- `interpreter::add_command(name, fun)`, with the two words of the
pointer to member as one value. -/
def addCommand (m : Mem) (this : Nat) (name : List UInt8) (run : Nat) :
    Nat × Mem :=
  if ¬m.load (commandsNbr this) < MAX_COMMANDS_NUMBER then (0, m)
  else
    let m := m.strncpy (m.nextCommand this) name MAX_COMMAND_NAME_LEN
    let m := m.store64 (m.nextCommand this + MAX_COMMAND_NAME_LEN) run
    (1, m.store (commandsNbr this) (u32 (m.load (commandsNbr this) + 1)))

/-- The bytes from `a` on are those of the array. -/
def HasArray {k : Nat} (m : Mem) (a : Nat) (v : Vector UInt8 k) : Prop :=
  ∀ i (h : i < k), m.bytes (a + i) = v[i]

/-- The entry at `a` holds the command, with the value of its pointer. -/
structure HasCommand (m : Mem) (a : Nat) (c : Command Nat) : Prop where
  name : m.HasArray a c.name
  run : m.load64 (a + MAX_COMMAND_NAME_LEN) = c.run

/-- The interpreter object at `this` holds the commands of `s`. -/
structure HasTable (m : Mem) (this : Nat) (s : Interpreter Nat) :
    Prop where
  nbr : m.load (commandsNbr this) = s.commands.length
  command : ∀ i (h : i < s.commands.length),
    m.HasCommand (commandAt this i) s.commands[i]

end Mem

end Ntibux
