/-
The keyboard buffer (terminal.hpp `class kbd_buf`, terminal.cpp): the
interrupt handler puts scancodes in, `get_scancode` takes them out, and
nothing but the two indices says what is in it.

`Keyboard` sets beside the buffer what has gone through it: the codes put
so far, which of them each cell holds (by its number, the first put is
number 0), and the codes returned, with their numbers.
-/
import Mathlib.Logic.Function.Basic
import Ntibux.Lib.Run

namespace Ntibux

def KEYBOARD_BUFFER_SIZE : Nat := 256

structure KbdBuf where
  rindex : Nat
  windex : Nat
  buffer : Vector UInt8 KEYBOARD_BUFFER_SIZE
  rindex_lt : rindex < KEYBOARD_BUFFER_SIZE
  windex_lt : windex < KEYBOARD_BUFFER_SIZE

namespace KbdBuf

/-- `kbd_buf()`: the indices are cleared and the buffer is not. -/
def new (buffer : Vector UInt8 KEYBOARD_BUFFER_SIZE) : KbdBuf where
  rindex := 0
  windex := 0
  buffer := buffer
  rindex_lt := by decide
  windex_lt := by decide

variable (b : KbdBuf)

def put (c : UInt8) : KbdBuf where
  rindex := b.rindex
  windex := (b.windex + 1) % KEYBOARD_BUFFER_SIZE
  buffer := b.buffer.set b.windex c b.windex_lt
  rindex_lt := b.rindex_lt
  windex_lt := Nat.mod_lt _ (by decide)

def get : UInt8 × KbdBuf :=
  have := b.rindex_lt
  (b.buffer[b.rindex],
    { b with
      rindex := (b.rindex + 1) % KEYBOARD_BUFFER_SIZE
      rindex_lt := Nat.mod_lt _ (by decide) })

def available : Bool := b.rindex != b.windex

/-- How many codes `get` would return before `available` is zero. -/
def count : Nat :=
  (b.windex + KEYBOARD_BUFFER_SIZE - b.rindex) % KEYBOARD_BUFFER_SIZE

end KbdBuf

-- =============================================================== history

structure Keyboard where
  kb : KbdBuf
  puts : List UInt8
  holds : Nat → Option Nat
  reads : List Nat
  gets : List UInt8

inductive KbdEvent : Type
  | put (c : UInt8)
  | get
  deriving DecidableEq, Repr

namespace Keyboard

variable (s : Keyboard)

/-- Nothing has gone through the buffer yet, whatever is in its cells. -/
def new (buffer : Vector UInt8 KEYBOARD_BUFFER_SIZE) : Keyboard where
  kb := KbdBuf.new buffer
  puts := []
  holds _ := none
  reads := []
  gets := []

def put (c : UInt8) : Keyboard :=
  { s with
    kb := s.kb.put c
    puts := s.puts ++ [c]
    holds := Function.update s.holds s.kb.windex (some s.puts.length) }

def get : Keyboard :=
  { s with
    kb := s.kb.get.2
    reads := s.reads ++ (s.holds s.kb.rindex).toList
    gets := s.gets ++ [s.kb.get.1] }

/-- `get` is called only when there is something to get. -/
def next : KbdEvent → Keyboard → Option Keyboard
  | .put c, s => some (s.put c)
  | .get, s => if s.kb.available then some s.get else none

def Step (s : Keyboard) (e : KbdEvent) (s' : Keyboard) : Prop :=
  s.next e = some s'

/-- The numbers of the codes that `get` would return, in order. -/
def readable : List (Option Nat) :=
  (List.range s.kb.count).map fun i =>
    s.holds ((s.kb.rindex + i) % KEYBOARD_BUFFER_SIZE)

/-- What is pending once the event has brought its code. -/
def pending : KbdEvent → List (Option Nat)
  | .put _ => s.readable ++ [some s.puts.length]
  | .get => s.readable

-- ================================================================ claims

/-- A code that has not been read and that no newer one has replaced in
its cell makes the buffer available. -/
def Heard : Prop :=
  (∃ k < KEYBOARD_BUFFER_SIZE, ∃ n, s.holds k = some n ∧ n ∉ s.reads) →
    s.kb.available = true

/-- What was returned is what was put, in order and each code once. -/
def InOrder : Prop :=
  s.gets.Sublist s.puts ∧ s.reads.Pairwise (· < ·)
    ∧ s.gets.map some = s.reads.map (s.puts[·]?)

/-- A pending code is lost in a step when it is neither readable
afterwards nor returned by the step. That happens only when more than
`KEYBOARD_BUFFER_SIZE - 1` are pending, and then that many of them
remain. -/
def LosesFew (e : KbdEvent) (s' : Keyboard) : Prop :=
  (∃ n, some n ∈ s.pending e ∧ some n ∉ s'.readable ∧ n ∉ s'.reads) →
    KEYBOARD_BUFFER_SIZE - 1 < (s.pending e).length
    ∧ KEYBOARD_BUFFER_SIZE - 1
      ≤ ((s.pending e).filter (· ∈ s'.readable)).length

/-- Nothing is lost silently, in any state of the run and by any step of
it. -/
def LosesNothing (tr : List (Keyboard × KbdEvent)) (s : Keyboard) : Prop :=
  (∀ p ∈ tr, p.1.Heard ∧ p.1.InOrder
    ∧ ∀ s', p.1.next p.2 = some s' → p.1.LosesFew p.2 s')
  ∧ s.Heard ∧ s.InOrder

end Keyboard

end Ntibux
