/-
The heap's lock between the scheduler and the tasks that call the heap
themselves.

A task's own code can be inside `kheap::alloc` or `kheap::free`
(`HeapPc`), with interrupts on as it was called: the timer can take the
CPU from it there, and it goes on where it was. `new_task` and the kills
call the heap too, with interrupts off; each such call is one step here,
with the step of the scheduler it is part of, and waits for the lock
first.

Who waits turns the loop of `spinlock::lock`: with interrupts on, until
the timer switches to the task that holds the lock; with interrupts off,
for ever (`Stuck`).
-/
import Ntibux.Sched.Run

namespace Ntibux.Sched

-- ========================================================= heap callers

namespace State

/-- A kill of this id comes to a task, the running one or one of the
list. -/
def Hits (s : State) (id : Nat) : Prop :=
  id = (s.task s.current).id ∨ ∃ t ∈ s.tasks, (s.task t).id = id

instance (s : State) (id : Nat) : Decidable (s.Hits id) :=
  inferInstanceAs (Decidable (_ ∨ _))

/-- The next step of the innermost call runs `kheap::alloc` or
`kheap::free`. -/
def CallsHeap (s : State) : Prop :=
  match s.stack.head? with
  | some (.newTask _ .alloc) => True
  | some (.kill .body) => (s.task s.current).id ≠ 0
  | some (.killTask id .body) => id = (s.task s.current).id ∧ id ≠ 0
  | some (.killTask id .scan) => ∃ t ∈ s.tasks, (s.task t).id = id
  | _ => False

instance (s : State) : Decidable s.CallsHeap := by
  unfold CallsHeap
  split <;> infer_instance

end State

/-- Where a task's own code is in `kheap::alloc` or `kheap::free`, if it
is there. -/
inductive HeapPc
  | out | lock | body
  deriving DecidableEq, Repr

/-- The scheduler's machine, with the word of the heap's lock and the
point that each task's own code has come to. -/
structure Shared where
  sched : State
  locked : Bool
  own : Nat → HeapPc

namespace Shared

/-- What happens next: an event of the scheduler's machine, or a step of
the running task's own code: a call of `kheap::alloc` or `kheap::free`,
a turn of `lock.lock()`, or `lock.release()` and the return. -/
inductive Event
  | sched (e : Sched.Event)
  | enter
  | lock
  | release
  deriving DecidableEq, Repr

/-- The own code of the running task goes on. -/
def setOwn (m : Shared) (pc : HeapPc) : Shared :=
  { m with own := Function.update m.own m.sched.runner pc }

/-- The running task's own code is on the CPU, at `pc`. -/
def At (m : Shared) (pc : HeapPc) : Prop :=
  m.sched.lost = false ∧ m.sched.stack = [] ∧
    m.sched.runner ≠ m.sched.idle ∧ m.own m.sched.runner = pc

instance (m : Shared) (pc : HeapPc) : Decidable (m.At pc) :=
  inferInstanceAs (Decidable (_ ∧ _))

/-- A step of the scheduler's machine that runs the heap finds the lock
taken. -/
def Spins (m : Shared) (e : Sched.Event) : Prop :=
  m.locked = true ∧ m.sched.CallsHeap ∧ e ≠ .irq

instance (m : Shared) (e : Sched.Event) : Decidable (m.Spins e) :=
  inferInstanceAs (Decidable (_ ∧ _))

/-- The heap call that a new task's own code is in: none, whatever the
last task at this address was at. -/
def begin (m : Shared) : Sched.Event → Nat → HeapPc
  | .alloc t _ => Function.update m.own t .out
  | _ => m.own

/-- One event. A task's own code makes no other call while it is in one,
and calls the heap with interrupts on. -/
def apply (e : Event) (m : Shared) : Option Shared :=
  match e with
  | .enter =>
      if m.At .out ∧ m.sched.intf = true then some (m.setOwn .lock) else none
  | .lock =>
      if m.At .lock then
        if m.locked then some m
        else some { m.setOwn .body with locked := true }
      else none
  | .release =>
      if m.At .body then some { m.setOwn .out with locked := false }
      else none
  | .sched (.call c) =>
      if m.At .out then
        (Sched.apply (.call c) m.sched).map fun s => { m with sched := s }
      else none
  | .sched e =>
      if m.Spins e then some m
      else
        (Sched.apply e m.sched).map fun s =>
          { m with sched := s, own := m.begin e }

/-- A step of the machine. -/
def Step (m : Shared) (e : Event) (m' : Shared) : Prop := apply e m = some m'

/-- The machine when `kernel_main` has run `push_ints`: nobody is in the
heap, nobody sleeps. -/
structure Initial (m : Shared) : Prop where
  sched : Sched.Initial m.sched
  awake : ∀ t ∈ m.sched.objects, (m.sched.task t).sleep = 0
  locked : m.locked = false
  own : ∀ t, m.own t = .out

/-- A run, with the state and the event of each step. -/
abbrev Run := Ntibux.Run Step

-- ======================================================== the statements

/-- The events of tasks that call the heap, start tasks, kill and yield,
with the timer. -/
def Event.ofHeap : Event → Bool
  | .sched .exec => true
  | .sched .irq => true
  | .sched (.call .yield) => true
  | .sched (.call .newTask) => true
  | .sched (.call .killMe) => true
  | .sched (.call (.killTask _)) => true
  | .sched (.alloc _ _) => true
  | .enter => true
  | .lock => true
  | .release => true
  | _ => false

/-- The flow on the CPU is at `lock.lock()` of the heap's lock, with
interrupts off, and a task that was preempted holds the lock. -/
structure Stuck (m : Shared) : Prop where
  lost : m.sched.lost = false
  waits : m.sched.CallsHeap ∨
    m.sched.stack = [] ∧ m.own m.sched.runner = .lock
  intf : m.sched.intf = false
  held : ∃ t, t ≠ m.sched.runner ∧ m.own t = .body

/-- The next step is the `pop_ints` of `new_task`, or of a kill that
comes to a task, and the heap's lock is taken. -/
def Intrudes (m : Shared) (e : Event) : Prop :=
  e = .sched .exec ∧ m.locked = true ∧
    match m.sched.stack.head? with
    | some (.newTask _ .pop) => True
    | some (.kill .pop) => (m.sched.task m.sched.current).id ≠ 0
    | some (.killTask id .pop) => m.sched.Hits id
    | _ => False

instance (m : Shared) (e : Event) : Decidable (m.Intrudes e) := by
  unfold Intrudes
  have hm : Decidable (match m.sched.stack.head? with
      | some (.newTask _ .pop) => True
      | some (.kill .pop) => (m.sched.task m.sched.current).id ≠ 0
      | some (.killTask id .pop) => m.sched.Hits id
      | _ => False) := by
    split <;> infer_instance
  exact inferInstanceAs (Decidable (_ ∧ _ ∧ _))

end Shared

end Ntibux.Sched
