/-
`spinlock::lock` and `spinlock::release`, instruction by instruction, for
any number of contenders whose instructions come in any order.

The model of the scheduler has a lock as a flag that one step tests and
sets. Here `lock` is the loop that it is in spinlock.cpp: a `test` that
may see a word which is stale when the `bts` comes, and the flags that
each contender has between the two. What the flag of the other model says
about the word and the contenders of this one is `HeldBy`.
-/
import Ntibux.Lib.Run
import Ntibux.Lib.Word
import Ntibux.Sched.HeapLock
import Mathlib.Data.List.Count
import Mathlib.Logic.Function.Basic

namespace Ntibux

-- =============================================================== the loop

/-- The next instruction of a contender, with the flag that it reads. -/
inductive SpinPc
  /-- before `lock()` is called -/
  | out
  | test
  | jnz (zf : Bool)
  | bts
  | jc (cf : Bool)
  /-- `lock()` has returned, `release()` is not called yet -/
  | held
  /-- the `mov` of `release()` -/
  | mov
  deriving DecidableEq, Repr

/-- The bit has been set by this contender, and not cleared. -/
def SpinPc.Owns : SpinPc → Prop
  | .jc cf => cf = false
  | .held => True
  | .mov => True
  | _ => False

instance (pc : SpinPc) : Decidable pc.Owns := by
  cases pc <;> unfold SpinPc.Owns <;> infer_instance

/-- The contender is in the loop. -/
def SpinPc.Waits : SpinPc → Prop
  | .test => True
  | .jnz _ => True
  | .bts => True
  | .jc cf => cf = true
  | _ => False

instance (pc : SpinPc) : Decidable pc.Waits := by
  cases pc <;> unfold SpinPc.Waits <;> infer_instance

/-- The word `locked`, and the contenders. -/
structure Spinlock (ι : Type) where
  locked : Nat
  pc : ι → SpinPc

namespace Spinlock

variable {ι : Type} [DecidableEq ι]

/-- A contender goes on to another instruction. -/
def goto (s : Spinlock ι) (i : ι) (pc : SpinPc) : Spinlock ι :=
  { s with pc := Function.update s.pc i pc }

/-- The contender `i` runs one instruction, or calls `lock()` or
`release()`. -/
def next (i : ι) (s : Spinlock ι) : Spinlock ι :=
  match s.pc i with
  | .out => s.goto i .test
  | .test => s.goto i (.jnz (s.locked &&& 1 == 0))
  | .jnz zf => s.goto i (if zf then .bts else .test)
  -- the old bit and the new word in one access
  | .bts =>
      { s.goto i (.jc (s.locked.testBit 0)) with locked := s.locked ||| 1 }
  | .jc cf => s.goto i (if cf then .test else .held)
  | .held => s.goto i .mov
  | .mov => { s.goto i .out with locked := 0 }

/-- A step of the contender `i`. -/
def Step (s : Spinlock ι) (i : ι) (s' : Spinlock ι) : Prop := s' = s.next i

/-- A run, with the state and the contender of each step. -/
abbrev Run : Spinlock ι → List (Spinlock ι × ι) → Spinlock ι → Prop :=
  Ntibux.Run Step

/-- As the constructor leaves it, with nobody there yet. -/
structure Free (s : Spinlock ι) : Prop where
  locked : s.locked = 0
  pc : ∀ i, s.pc i = .out

end Spinlock

-- ========================================================= the statements

/-- A lock goes from hand to hand. -/
inductive Change (ι : Type)
  | take (i : ι)
  | give (i : ι)
  deriving DecidableEq, Repr

/-- What a lock has been through since it was free, and who has it in the
end: it is taken while nobody has it, and given back by who took it. -/
inductive Hands {ι : Type} : List (Change ι) → Option ι → Prop
  | nil : Hands [] none
  | take {l : List (Change ι)} (i : ι) (h : Hands l none) :
      Hands (l ++ [.take i]) (some i)
  | give {l : List (Change ι)} {i : ι} (h : Hands l (some i)) :
      Hands (l ++ [.give i]) none

namespace Spinlock

variable {ι : Type} [DecidableEq ι]

/-- The step takes the lock, or gives it back: a `bts` that finds the bit
clear, and the `mov`. -/
def change (p : Spinlock ι × ι) : Option (Change ι) :=
  match p.1.pc p.2 with
  | .bts => if p.1.locked.testBit 0 then none else some (.take p.2)
  | .mov => some (.give p.2)
  | _ => none

/-- The lock is that of `h`, of nobody else, and the word says if there is
one. -/
structure HeldBy (s : Spinlock ι) (h : Option ι) : Prop where
  word : s.locked = if h.isSome then 1 else 0
  owner : ∀ i, (s.pc i).Owns ↔ h = some i

end Spinlock

-- ========================================================= the heap's lock

/-- Where the other model has a task that is at this instruction. -/
def SpinPc.heapPc (pc : SpinPc) : Sched.HeapPc :=
  if pc.Waits then .lock else if pc.Owns then .body else .out

namespace Sched

/-- The scheduler's machine, with the heap's lock as it is. -/
structure Spinning where
  sched : State
  lock : Spinlock Nat

namespace Spinning

/-- The state with the word as a flag, and with the loop as one point. -/
def shared (f : Spinning) : Shared where
  sched := f.sched
  locked := f.lock.locked.testBit 0
  own := fun t => (f.lock.pc t).heapPc

/-- What happens next: an event of the scheduler's machine, or an
instruction of the lock, run by the task on the CPU in its own code. -/
inductive Event
  | sched (e : Sched.Event)
  | own
  deriving DecidableEq, Repr

/-- A task's own code is on the CPU. -/
def Own (f : Spinning) : Prop :=
  f.sched.lost = false ∧ f.sched.stack = [] ∧
    f.sched.runner ≠ f.sched.idle

instance (f : Spinning) : Decidable f.Own :=
  inferInstanceAs (Decidable (_ ∧ _))

/-- A new task has called nothing yet. -/
def begin (f : Spinning) : Sched.Event → Nat → SpinPc
  | .alloc t _ => Function.update f.lock.pc t .out
  | _ => f.lock.pc

/-- One event. As in the other model, a task calls the heap with
interrupts on, and a step of the scheduler that runs the heap waits until
the word is clear. -/
def apply (e : Event) (f : Spinning) : Option Spinning :=
  match e with
  | .own =>
      if f.Own ∧ (f.lock.pc f.sched.runner = .out → f.sched.intf = true)
      then some { f with lock := f.lock.next f.sched.runner }
      else none
  | .sched (.call c) =>
      if f.shared.At .out then
        (Sched.apply (.call c) f.sched).map fun s => { f with sched := s }
      else none
  | .sched e =>
      if f.shared.Spins e then some f
      else
        (Sched.apply e f.sched).map fun s =>
          { sched := s, lock := { f.lock with pc := f.begin e } }

/-- A step of the machine. -/
def Step (f : Spinning) (e : Event) (f' : Spinning) : Prop := apply e f = some f'

/-- A run, with the state and the event of each step. -/
abbrev Run := Ntibux.Run Step

/-- What the other model sees of a step: nothing, where the task only goes
from one instruction of the loop to another. -/
def seen (p : Spinning × Event) : Option Shared.Event :=
  match p.2 with
  | .sched e => some (.sched e)
  | .own =>
      match p.1.lock.pc p.1.sched.runner with
      | .out => some .enter
      | .bts => some .lock
      | .mov => some .release
      | _ => none

end Spinning

end Sched

end Ntibux
