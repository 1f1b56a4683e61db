/-
The scheduler on one CPU: scheduler.cpp with the assembly it stands on
(`push_ints`, `pop_ints`, `context_switch`, the interrupt stubs) and the
timer interrupt, as a machine that takes one small step at a time.

# The flow on the CPU

`stack` is what the running flow still has to do, innermost call first:
one `Frame` for each call that has not returned, with the point it has
reached. An empty stack is a task's own code. A switch puts the rest of
the stack away in the task (`Ctx`) and takes another task's; what is
saved is used up when it is loaded, since the stack memory under it is
written over from then on. Loading a context that is not there any more
leaves a CPU of which nothing is known (`lost`).

Between two steps an interrupt can arrive whenever `intf` is on. The
steps inside a frame are the instructions between which that matters:
`pop_ints` and `push_ints` start with `cli` and are one step each, and
so is the body of `yield`, which runs with the lock held.

# What is modelled how

- A `task *` is a number, null is 0. `objects` are the task objects the
  heap has handed out and not got back; the address of a new one comes
  with the event, and so does the interrupt flag in its first context,
  which `task::init` leaves as it finds it: the `memset` before it
  clears another part of the stack.
- `tasks` is the circular list as the sequence its head spells.
- Page directories are left out (every task has the kernel's), and so
  are the fields of a task that no modelled function reads.
- Ticks and sleep times are `u64`, and wrap. `interrupts_semaphore` is an
  integer.
- A `PANIC` stops the machine: there is no next state.
-/
import Mathlib.Logic.Function.Basic
import Mathlib.Data.List.Basic
import Ntibux.Lib.Run
import Ntibux.Lib.Word

namespace Ntibux.Sched

-- ============================================================ constants

/-- In ticks. -/
def TIME_SLICE : Nat := 10

/-- `1000 / CLOCK_FREQ`, in milliseconds. -/
def MS_INTERVAL : Nat := 2

def KERNEL_TASK_ID : Nat := 0

def IDLE_TASK_ID : Nat := 1

def AVAILABLE_IDS : Nat := 100

-- ================================================================ frames

/-- `scheduler::yield`. -/
inductive YieldPc
  | pop | lock | body | release | push
  deriving DecidableEq, Repr

/-- `scheduler::perform_context_switch`, once `current` is set. -/
inductive SwitchPc
  | release | load
  deriving DecidableEq, Repr

/-- The second half of `context_switch`. -/
inductive ResumePc
  | popf | push
  deriving DecidableEq, Repr

/-- What an interrupt stub calls: the timer's handler, or the handler of
an exception that ends the task. -/
inductive IsrKind
  | timer | fault
  deriving DecidableEq, Repr

/-- An interrupt stub with its handler. -/
inductive IsrPc
  | pop | handler | inc | dec | push | iret
  deriving DecidableEq, Repr

/-- `scheduler::new_task`. -/
inductive NewTaskPc
  | pop | alloc | lock | pushBack | release | push
  deriving DecidableEq, Repr

/-- `scheduler::kill_current_task`. -/
inductive KillPc
  | pop | lock | body
  deriving DecidableEq, Repr

/-- `scheduler::kill_task`. -/
inductive KillTaskPc
  | pop | lock | body | scan | release | push
  deriving DecidableEq, Repr

/-- A call that has not returned. -/
inductive Frame
  | yield (pc : YieldPc)
  | switch (old : Option Nat) (next : Nat) (pc : SwitchPc)
  | resume (flag : Bool) (pc : ResumePc)
  | isr (kind : IsrKind) (flag : Bool) (pc : IsrPc)
  | newTask (task : Nat) (pc : NewTaskPc)
  | kill (pc : KillPc)
  | killTask (id : Nat) (pc : KillTaskPc)
  deriving DecidableEq, Repr

-- ============================================================= the state

/-- What `context_switch` saves on a task's stack: the interrupt flag,
and the calls to go on with. -/
structure Ctx where
  flag : Bool
  frames : List Frame
  deriving DecidableEq, Repr

/-- `class task`. -/
structure Task where
  id : Nat
  lastSwitched : Nat
  sleep : Nat
  cpuTime : Nat
  ctx : Option Ctx

/-- The scheduler, the timer and the CPU. `runner` is the task whose
stack the CPU is on. -/
structure State where
  ticks : Nat
  interruptsSemaphore : Int
  intf : Bool
  locked : Bool
  nextId : Nat
  current : Nat
  idle : Nat
  tasks : List Nat
  task : Nat → Task
  objects : List Nat
  runner : Nat
  stack : List Frame
  lost : Bool

namespace State

/-- `push_ints`. -/
def pushInts (s : State) : State :=
  { s with
    interruptsSemaphore := s.interruptsSemaphore + 1
    intf := decide (1 ≤ s.interruptsSemaphore + 1) }

/-- `pop_ints`. -/
def popInts (s : State) : State :=
  { s with
    interruptsSemaphore := s.interruptsSemaphore - 1
    intf := decide (1 ≤ s.interruptsSemaphore - 1) }

/-- Go on with other calls. -/
def goto (s : State) (stack : List Frame) : State :=
  { s with stack := stack }

/-- `lock.lock()`: one turn of the spin loop, or the lock and on to
`stack`. -/
def lockThen (s : State) (stack : List Frame) : State :=
  if s.locked then s else { s with locked := true, stack := stack }

/-- `lock.release()`. -/
def release (s : State) : State := { s with locked := false }

/-- A task's fields changed. -/
def setTask (s : State) (t : Nat) (v : Task) : State :=
  { s with task := Function.update s.task t v }

-- =========================================================== select_next

end State

/-- `list::rotate`: the first element goes to the end. -/
def rotate : List Nat → List Nat
  | [] => []
  | t :: ts => ts ++ [t]

/-- The loop of `scheduler::select_next`. -/
def selectLoop (ticks : Nat) :
    List Nat → (Nat → Task) → Option Nat × (Nat → Task)
  | [], f => (none, f)
  | it :: rest, f =>
      if (f it).sleep ≠ 0 then
        let sleeped := u64 (ticks + (2 ^ 64 - (f it).lastSwitched))
        if (f it).sleep ≤ sleeped then
          -- wake up
          (some it, Function.update f it { f it with sleep := 0 })
        else
          -- sleep more
          selectLoop ticks rest (Function.update f it { f it with
            sleep := (f it).sleep - sleeped, lastSwitched := ticks })
      else (some it, f)

namespace State

/-- `scheduler::select_next`. -/
def selectNext (s : State) : Option Nat × State :=
  let tasks := rotate s.tasks
  let r := selectLoop s.ticks tasks s.task
  (r.1, { s with tasks := tasks, task := r.2 })

-- ====================================================== context switches

/-- `perform_context_switch(old, next)`, up to the release of the lock,
called with `rest` to return to. -/
def performContextSwitch (old : Option Nat) (next : Nat)
    (rest : List Frame) (s : State) : State :=
  { s.setTask next { s.task next with lastSwitched := s.ticks } with
    current := next
    stack := .switch old next .release :: rest }

/-- The body of `yield`, under the lock. -/
def yieldBody (rest : List Frame) (s : State) : State :=
  if s.current = 0 then s.goto (.yield .release :: rest)
  else
    let old := s.current
    let s := s.setTask old { s.task old with lastSwitched := s.ticks }
    let (next, s) := s.selectNext
    match next with
    | none =>
        -- no other task to switch to
        if old = s.idle then s.goto (.yield .release :: rest)
        else if (s.task old).sleep ≠ 0 then
          s.performContextSwitch (some old) s.idle
            (.yield .release :: rest)
        else s.goto (.yield .release :: rest)
    | some next =>
        if old = next then s.goto (.yield .release :: rest)
        else s.performContextSwitch (some old) next rest

/-- The first half of `context_switch`: the rest of this flow is saved in
`old`, unless there is none to save it in. -/
def saveContext (old : Option Nat) (rest : List Frame) (s : State) : State :=
  match old with
  | none => s
  | some old =>
      s.setTask old { s.task old with ctx := some ⟨s.intf, rest⟩ }

/-- The second half: `next`'s context is loaded. -/
def loadContext (next : Nat) (s : State) : State :=
  match (s.task next).ctx with
  | none => { s with runner := next, stack := [], lost := true }
  | some c =>
      ({ s with runner := next }.setTask next
        { s.task next with ctx := none }).goto
          (.resume c.flag .popf :: c.frames)

/-- `context_switch`. -/
def contextSwitch (old : Option Nat) (next : Nat) (rest : List Frame)
    (s : State) : State :=
  (s.saveContext old rest).loadContext next

-- ================================================================= kills

/-- `kill_current_task_locked`, with the task it hands to
`perform_context_switch` as a parameter; the code hands it
`get_current()`. -/
def killCurrentTaskLocked (next : Nat) (rest : List Frame) (s : State) :
    Option State :=
  if (s.task s.current).id = 0 then none
  else
    some (performContextSwitch none next rest
      { s with
        tasks := s.tasks.erase s.current
        objects := s.objects.erase s.current })

/-- The loop of `kill_task`. -/
def killScan (id : Nat) (s : State) : State :=
  { s with
    tasks := s.tasks.filter fun t => (s.task t).id ≠ id
    objects := s.objects.filter fun t => t ∉ s.tasks ∨ (s.task t).id ≠ id }

-- ================================================================= timer

/-- `timer_handler`, up to the test for the end of a time slice. -/
def tick (s : State) : State :=
  { s.setTask s.current { s.task s.current with
      cpuTime := u64 ((s.task s.current).cpuTime + 1) } with
    ticks := u64 (s.ticks + 1) }

-- ============================================================== one step

/-- One step of the innermost call. `none` where the code panics or
waits for what comes as an event of its own. -/
def execFrame (rest : List Frame) (s : State) : Frame → Option State
  | .yield .pop => some (s.popInts.goto (.yield .lock :: rest))
  | .yield .lock => some (s.lockThen (.yield .body :: rest))
  | .yield .body => some (s.yieldBody rest)
  | .yield .release => some (s.release.goto (.yield .push :: rest))
  | .yield .push => some (s.pushInts.goto rest)
  | .switch old next .release =>
      some (s.release.goto (.switch old next .load :: rest))
  | .switch old next .load => some (s.contextSwitch old next rest)
  | .resume flag .popf =>
      some ({ s with intf := flag }.goto (.resume flag .push :: rest))
  | .resume _ .push => some (s.pushInts.goto rest)
  | .isr kind flag .pop =>
      some (s.popInts.goto (.isr kind flag .handler :: rest))
  | .isr .timer flag .handler =>
      let s := s.tick
      if s.ticks % TIME_SLICE = 0 then
        some (s.goto (.isr .timer flag .inc :: rest))
      else some (s.goto (.isr .timer flag .push :: rest))
  | .isr .fault flag .handler =>
      some (s.goto (.kill .pop :: .isr .fault flag .push :: rest))
  | .isr kind flag .inc =>
      some ({ s with interruptsSemaphore := s.interruptsSemaphore + 1 }.goto
        (.yield .pop :: .isr kind flag .dec :: rest))
  | .isr kind flag .dec =>
      some ({ s with interruptsSemaphore := s.interruptsSemaphore - 1 }.goto
        (.isr kind flag .push :: rest))
  | .isr kind flag .push =>
      some (s.pushInts.goto (.isr kind flag .iret :: rest))
  | .isr _ flag .iret => some ({ s with intf := flag }.goto rest)
  | .newTask t .pop => some (s.popInts.goto (.newTask t .alloc :: rest))
  | .newTask _ .alloc => none
  | .newTask t .lock => some (s.lockThen (.newTask t .pushBack :: rest))
  | .newTask t .pushBack =>
      some ({ s with tasks := s.tasks ++ [t] }.goto
        (.newTask t .release :: rest))
  | .newTask t .release => some (s.release.goto (.newTask t .push :: rest))
  | .newTask _ .push => some (s.pushInts.goto rest)
  | .kill .pop => some (s.popInts.goto (.kill .lock :: rest))
  | .kill .lock => some (s.lockThen (.kill .body :: rest))
  | .kill .body => s.killCurrentTaskLocked s.current rest
  | .killTask id .pop => some (s.popInts.goto (.killTask id .lock :: rest))
  | .killTask id .lock => some (s.lockThen (.killTask id .body :: rest))
  | .killTask id .body =>
      if id = (s.task s.current).id then
        s.killCurrentTaskLocked s.current (.killTask id .scan :: rest)
      else some (s.goto (.killTask id .scan :: rest))
  | .killTask id .scan =>
      some ((s.killScan id).goto (.killTask id .release :: rest))
  | .killTask id .release =>
      some (s.release.goto (.killTask id .push :: rest))
  | .killTask _ .push => some (s.pushInts.goto rest)

end State

-- ================================================================ events

/-- What a task's own code can call. -/
inductive Call
  | yield
  | sleep (ms : Nat)
  | newTask
  | killMe
  | killTask (id : Nat)
  deriving DecidableEq, Repr

/-- What happens next: a step of the innermost call, a timer interrupt,
a call or an exception in a task's own code, or the heap's answer to
`new_task` with the flag its stack memory holds. `killTo t` is a kill
that hands `t` to `perform_context_switch` in place of the killed
task; no code does it. -/
inductive Event
  | exec
  | irq
  | call (c : Call)
  | fault
  | alloc (t : Nat) (flag : Bool)
  | killTo (t : Nat)
  deriving DecidableEq, Repr

namespace State

/-- A call from a task's own code. The `+=` of `add_sleep` is one step here;
in the code it is an addition to each half of a 64-bit word, and a timer
interrupt between the two would find `sleep` with only one half added. -/
def enter (s : State) : Call → Option State
  | .yield => some (s.goto [.yield .pop])
  | .sleep ms =>
      let t := s.task s.current
      some ((s.setTask s.current { t with
        sleep := u64 (t.sleep + max (ms / MS_INTERVAL) TIME_SLICE) }).goto
          [.yield .pop])
  | .newTask => some (s.goto [.newTask 0 .pop])
  | .killMe => some (s.goto [.kill .pop])
  | .killTask id =>
      if id = 0 then none else some (s.goto [.killTask id .pop])

/-- The task object that `new_task` sets up at `t`: the object is
zeroed, then initialised. -/
def initTask (s : State) (t : Nat) (flag : Bool) : State :=
  { s.setTask t
      { id := s.nextId, lastSwitched := 0, sleep := 0, cpuTime := 0
        ctx := some ⟨flag, []⟩ } with
    objects := t :: s.objects
    nextId := u32 (s.nextId + 1) }

end State

/-- One event. The idle task's own code only halts; it calls nothing. -/
def apply (e : Event) (s : State) : Option State :=
  if s.lost then none
  else
    match e, s.stack with
    | .exec, f :: rest => s.execFrame rest f
    | .irq, stack =>
        if s.intf then
          -- the gate clears the flag, the stub's frame holds it
          some ({ s with intf := false }.goto
            (.isr .timer s.intf .pop :: stack))
        else none
    | .call c, [] => if s.runner = s.idle then none else s.enter c
    | .fault, [] =>
        if s.runner = s.idle then none
        else some ({ s with intf := false }.goto [.isr .fault s.intf .pop])
    | .alloc t flag, .newTask _ .alloc :: rest =>
        if t = 0 ∨ t ∈ s.objects then none
        else some ((s.initTask t flag).goto (.newTask t .lock :: rest))
    | .killTo t, .kill .body :: rest => s.killCurrentTaskLocked t rest
    | .killTo t, .killTask id .body :: rest =>
        if id = (s.task s.current).id then
          s.killCurrentTaskLocked t (.killTask id .scan :: rest)
        else none
    | _, _ => none

/-- A step of the machine. -/
def Step (s : State) (e : Event) (s' : State) : Prop := apply e s = some s'

/-- The machine when `kernel_main` has run `push_ints`: the kernel's own
code on the CPU, interrupts on. -/
structure Initial (s : State) : Prop where
  sem : s.interruptsSemaphore = 1
  intf : s.intf = true
  locked : s.locked = false
  nextId : s.nextId = AVAILABLE_IDS
  current : s.current = s.runner
  tasks : s.tasks = [s.runner]
  objects : s.objects = [s.idle, s.runner]
  runner_pos : s.runner ≠ 0
  idle_pos : s.idle ≠ 0
  idle_ne : s.idle ≠ s.runner
  kernel : (s.task s.runner).id = KERNEL_TASK_ID
  kernel_ctx : (s.task s.runner).ctx = none
  idle_id : (s.task s.idle).id = IDLE_TASK_ID
  idle_ctx : ∃ flag, (s.task s.idle).ctx = some ⟨flag, []⟩
  stack : s.stack = []
  lost : s.lost = false

end Ntibux.Sched
