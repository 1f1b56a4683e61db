/-
The scheduler on the kernel heap: what `new_task` takes from the heap,
and what a kill gives back.

`new_task` and the kills call the heap with interrupts off, so what they
take or give back is part of the one step of the scheduler that does it.
`heap` is everything else that happens to the heap, as in a run of the
heap alone: the calls a task makes itself, the writes into a block in
use (`task::init` makes some, into the new stack), and the rest of the
kernel.

A block is given back only while it is in use, as in the heap's own
runs.
-/
import Ntibux.Mem.Run
import Ntibux.Sched.Run

namespace Ntibux

-- ============================================================ constants

/-- `sizeof(task)`: fourteen words, the name and two links. -/
def sizeofTask : Nat := 96

def KERNEL_STACK_SIZE : Nat := 16384

-- ============================================================= the state

/-- The scheduler and the heap; `stack t` is the field of the task `t`
that says where its stack ends. -/
structure Kernel where
  sched : Sched.State
  heap : HeapState
  stack : Nat → Nat

/-- The task objects that a step gives back, in the order of the calls of
`kheap::free`. -/
def Sched.State.freed (s : Sched.State) : Sched.Event → List Nat
  | .exec =>
      match s.stack with
      | .kill .body :: _ => [s.current]
      | .killTask id .body :: _ =>
          if id = (s.task s.current).id then [s.current] else []
      | .killTask id .scan :: _ =>
          s.tasks.filter fun t => (s.task t).id = id
      | _ => []
  | _ => []

namespace Kernel

/-- What happens next: a step of the scheduler, the allocations of
`new_task` with what they return and the flag that the stack holds, or
something that only the heap takes part in. -/
inductive Event
  | sched (e : Sched.Event)
  | create (t stack : Nat) (flag : Bool)
  | heap (e : Ntibux.Event)

/-- A step of the scheduler's own: no allocation, and nothing that no
code does. -/
def plain : Sched.Event → Bool
  | .alloc _ _ => false
  | .killTo _ => false
  | _ => true

/-- `kheap::free(t, sizeof(task))` for one task object after the
other. -/
inductive Frees : List Nat → HeapState → HeapState → Prop
  | nil {h : HeapState} : Frees [] h h
  | cons {h h₁ h' : HeapState} {t order : Nat} {ts : List Nat}
      (hf : HeapState.Step h (.free t sizeofTask order) h₁)
      (hr : Frees ts h₁ h') : Frees (t :: ts) h h'

/-- One step. -/
inductive Step : Kernel → Event → Kernel → Prop
  | sched {k : Kernel} {e : Sched.Event} {s : Sched.State} {h : HeapState}
      (hp : plain e = true) (hs : Sched.Step k.sched e s)
      (hf : Frees (k.sched.freed e) k.heap h) :
      Step k (.sched e) ⟨s, h, k.stack⟩
  | create {k : Kernel} {t stack order order' : Nat} {flag : Bool}
      {s : Sched.State} {h h' : HeapState}
      (hs : Sched.Step k.sched (.alloc t flag) s)
      (ht : HeapState.Step k.heap (.alloc sizeofTask order ALLOC_ZEROED t) h)
      (ha : HeapState.Step h
        (.alloc KERNEL_STACK_SIZE order' ALLOC_ALIGNED stack) h') :
      Step k (.create t stack flag)
        ⟨s, h', Function.update k.stack t (u32 (stack + KERNEL_STACK_SIZE))⟩
  | heap {k : Kernel} {e : Ntibux.Event} {h : HeapState}
      (hh : HeapState.Step k.heap e h) :
      Step k (.heap e) ⟨k.sched, h, k.stack⟩

/-- The kernel when `kernel_main` has run `push_ints`: a heap that has
served `scheduler::init`, and whatever else the boot asked of it. The
smallest block is a page. -/
structure Initial (k : Kernel) : Prop where
  sched : Sched.Initial k.sched
  heap : ∃ h₀ tr, HeapState.Initial h₀ ∧ h₀.mem.kheap.minOrder = 12 ∧
    HeapState.Run h₀ tr k.heap
  objects : ∀ t ∈ k.sched.objects, ⟨t, 12⟩ ∈ k.heap.live

/-- A run, with the state and the event of each step. -/
abbrev Run := Ntibux.Run Step

-- ======================================================== the statements

/-- A task gives a block back by a call of its own. -/
def Event.givesBack : Event → Bool
  | .heap (.free _ _ _) => true
  | _ => false

/-- The step is an execution of `new_task`. -/
def Event.creates : Event → Bool
  | .create _ _ _ => true
  | _ => false

/-- `kill_task`, called by another task, comes to the task `t`. -/
structure KillTask (k : Kernel) (t : Nat) (k' : Kernel) : Prop where
  scan : k.sched.stack.head? =
    some (.killTask (k.sched.task t).id .scan)
  listed : t ∈ k.sched.tasks
  other : k.sched.runner ≠ t
  step : Step k (.sched .exec) k'

/-- The same blocks are in use. -/
def SameBlocks (k k' : Kernel) : Prop :=
  ∀ b, b ∈ k'.heap.live ↔ b ∈ k.heap.live

/-- Of the two blocks of a task, the object at `t` is given back and the
stack at `a` is not. -/
structure Leaks (k : Kernel) (t a : Nat) (k' : Kernel) : Prop where
  object : ⟨t, 12⟩ ∉ k'.heap.live
  stack : ⟨a, 14⟩ ∈ k'.heap.live
  new : ⟨a, 14⟩ ∉ k.heap.live

end Kernel

end Ntibux
