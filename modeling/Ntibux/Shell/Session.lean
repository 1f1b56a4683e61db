/-
The loop of `shell` (kernel.cpp): a prompt, a line from the keyboard, and
`interpret` on it, again and again.

The line is read into the array `buf` of the stack, and `interpret` works
on the memory that this array is part of. The commands that `interpret`
calls are a parameter, as what they leave of the terminal and of the
memory; where they do not come back, neither does the loop.
-/
import Ntibux.Lib.Run
import Ntibux.Shell.Proofs.Commands
import Ntibux.Term.Proofs.Cursor
import Ntibux.Term.Typing

namespace Ntibux

variable {α : Type}

/-- The variables of the shell, and what its commands are. -/
structure Host (α : Type) where
  interp : Interpreter α
  /-- the address of `buf` -/
  buf : Nat
  cursor : UInt16
  logLevel : UInt8
  /-- what a command leaves of the terminal and of the memory -/
  call : α → Splits → Terminal × Bytes → Outcome (Terminal × Bytes)

/-- The keyboard, the terminal and the memory. -/
structure Session where
  keys : Keys
  term : Terminal
  bytes : Bytes

namespace Interpreter

/-- The memory that `interpret(line)` leaves, if it returns by itself. -/
def memoryAfter (fuel line : Nat) (bytes : Bytes) : Outcome Bytes :=
  if bytes line = 0 then .ret bytes
  else do
    let (_, bytes) ← split fuel line (Vector.replicate _ 0) bytes
    .ret bytes

end Interpreter

namespace Terminal

/-- Calls of `printk`, one after another. -/
def printks (memory : Nat → List UInt8) (logLevel : UInt8) (fuel : Nat) :
    List PrintkCall → Terminal → Outcome Terminal
  | [], t => .ret t
  | c :: cs, t => do
      let (_, t) ← t.printk memory logLevel fuel c.format c.params
      printks memory logLevel fuel cs t

end Terminal

namespace Host

open Interpreter (Dispatch)

variable (h : Host α)

/-- The part of `buf` that `tread_line` may write to. -/
def line (bytes : Bytes) : Vector UInt8 (MAX_LINE_LEN - 1) :=
  Vector.ofFn fun i => bytes (h.buf + i)

/-- The memory with that part written back. -/
def store (v : Vector UInt8 (MAX_LINE_LEN - 1)) (bytes : Bytes) : Bytes :=
  fun x =>
    if h.buf ≤ x ∧ x < h.buf + (MAX_LINE_LEN - 1) then
      v.toList.getD (x - h.buf) 0
    else bytes x

/-- A turn of the loop, up to what `interpret` comes to. -/
def readCommand (fuel : Nat) (s : Session) :
    Outcome (Dispatch α × Session) := do
  let t := s.term.resetColor
  let (_, t) ← t.tputs (ascii "> " ++ [0])
  let l ← Terminal.treadLine h.cursor MAX_LINE_LEN fuel s.keys
    (h.line s.bytes) t
  let bytes := Function.update (h.store l.buf s.bytes) (h.buf + l.i) 0
  let d ← h.interp.interpret fuel h.buf bytes
  .ret (d, { keys := l.keys, term := l.term, bytes })

/-- The rest of the turn: the command runs, or what is to be printed is
printed. -/
def answer (fuel : Nat) (s : Session) : Dispatch α → Outcome Session
  | .call run args bytes => do
      let (term, bytes) ← h.call run args (s.term, bytes)
      .ret { s with term, bytes }
  | .ret _ printed => do
      let bytes ← Interpreter.memoryAfter fuel h.buf s.bytes
      let term ← Terminal.printks bytes.upFrom h.logLevel fuel printed s.term
      .ret { s with term, bytes }

/-- A turn of `while (1)`. -/
def turn (fuel : Nat) (s : Session) : Outcome (Dispatch α × Session) := do
  let (d, s) ← h.readCommand fuel s
  let s ← h.answer fuel s d
  .ret (d, s)

/-- A turn that comes to its end, with what `interpret` came to in it. -/
def Step (s : Session) (d : Dispatch α) (s' : Session) : Prop :=
  Outcome.Gives (fun fuel => h.turn fuel s) (d, s')

/-- A run, with the state before each turn and what came of it. -/
abbrev Run := Ntibux.Run h.Step

-- ========================================================== the statements

/-- `buf` is an array, the table is that of the registrations, and a
command leaves the cursor on the screen. -/
structure Ok (regs : List (Interpreter.Registration α)) : Prop where
  buf_ne : h.buf ≠ 0
  buf_end : h.buf + MAX_LINE_LEN ≤ 2 ^ 32
  table : Interpreter.Registered regs h.interp
  call : ∀ run args t b t' b', h.call run args (t, b) = .ret (t', b') →
    t.Inside → t'.Inside

end Host

/-- The keys are those of one line: with the last of them, and not before,
there is a newline or no room for another character. -/
def LineOf (n : Nat) (ks : List Keypress) : Prop :=
  ∃ ks' k, ks = ks' ++ [k] ∧ (∀ pre, pre <+: ks' → Open n pre) ∧ ¬Open n ks

/-- What the line is as a string. -/
def stringOf (ks : List Keypress) : List UInt8 := cString (putAll ks)

namespace Interpreter

open Shell (HasArgs texts)

/-- The line has been run: nothing is called for a line without words, the
first command that has the name of the first word is called with all the
words, or it is printed of the first word, which is in the line at `p`,
that there is none. -/
def Ran (regs : List (Registration α)) (p : Nat) (line : List UInt8) :
    Dispatch α → Prop
  | .call run args bytes => ∃ cmd rest g, texts line = cmd :: rest ∧
      regs.find? (fun g => cString g.name = cmd) = some g ∧ run = g.run ∧
      HasArgs bytes args (cmd :: rest)
  | .ret value printed =>
      (texts line = [] ∧ value = 0 ∧ printed = []) ∨
      ∃ cmd rest r, texts line = cmd :: rest ∧
        (∀ g ∈ regs, cString g.name ≠ cmd) ∧ value = 1 ∧
        (words line).head? = some r ∧ printed = [notFound (p + r.1)]

end Interpreter

end Ntibux
