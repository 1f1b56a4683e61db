/-
What the scheduler's memory says, and what its calls come to on that.

The bytes of the task objects and of the list say what a `Sched.State`
says: the order of the tasks, their ids and their times. On such a state
a call that nothing interrupts is the list machine's own code run to its
end (`Event.on`). Whether the calls on bytes and the calls on lists stay
in step, with the heap moving bytes around in between, is the question
here.
-/
import Ntibux.Kernel.RunList

namespace Ntibux

namespace Running

open Mem (field)

-- ============================================================== the lists

/-- A call on the lists, from its first statement to its last. -/
def Event.on (a : Sched.State) : Event → Sched.State
  | .newTask t =>
      let a := a.initTask t false
      { a with tasks := a.tasks ++ [t] }
  | .yield => (a.yieldBody []).goto []
  | .tick => a.tick
  | .killTask id => a.killScan id
  | .heap _ => a

/-- The calls of a run, one after another. -/
def onLists (a : Sched.State) (tr : List (Running × Event)) : Sched.State :=
  tr.foldl (fun a p => p.2.on a) a

-- ============================================================== the bytes

/-- The object at `t` has the fields of `o` that a call reads. -/
structure Shows (m : Mem) (t : Nat) (o : Sched.Task) : Prop where
  id : m.load (field t .id) = o.id
  lastSwitched : m.load64 (field t .lastSwitched) = o.lastSwitched
  sleep : m.load64 (field t .sleep) = o.sleep
  cpuTime : m.load64 (field t .cpuTime) = o.cpuTime

/-- The memory says what `a` says. -/
structure Reads (s : Running) (a : Sched.State) : Prop where
  ticks : s.ticks = a.ticks
  nextId : s.sched.nextId = a.nextId
  current : s.sched.current = a.current
  idle : s.sched.idle = a.idle
  list : Sched.RunList s.mem.links s.sched.tasks a.tasks
  task : ∀ t ∈ s.sched.idle :: a.tasks, Shows s.mem t (a.task t)

/-- The state that the memory says, where the list is `l`. -/
def view (s : Running) (l : List Nat) : Sched.State where
  ticks := s.ticks
  interruptsSemaphore := 1
  intf := true
  locked := false
  nextId := s.sched.nextId
  current := s.sched.current
  idle := s.sched.idle
  tasks := l
  task t :=
    { id := s.id t
      lastSwitched := s.mem.load64 (field t .lastSwitched)
      sleep := s.mem.load64 (field t .sleep)
      cpuTime := s.mem.load64 (field t .cpuTime)
      ctx := none }
  objects := s.sched.idle :: l
  runner := s.sched.current
  stack := []
  lost := false

-- =============================================================== cpu time

/-- The step is a timer interrupt. -/
def Event.ticks : Event → Bool
  | .tick => true
  | _ => false

/-- The timer interrupts that a task is charged for after one more
step. -/
def charge (t n : Nat) : Running × Event → Nat
  | (_, .newTask u) => if u = t then 0 else n
  | (s, .tick) => if s.sched.current = t then n + 1 else n
  | _ => n

/-- The timer interrupts that came while `t` ran, since it was made. -/
def charged (t : Nat) (tr : List (Running × Event)) : Nat :=
  tr.foldl (charge t) 0

end Running

end Ntibux
