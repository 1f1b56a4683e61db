/-
The scheduler's calls on the memory they run on: `class scheduler` with
its task objects and its list as bytes, next to the kernel heap that the
objects come from.

# The objects

A task object is a block of the heap. Its fields are words at fixed
places in it, and the two links of the list are its last two words, so
every call of `class list` is a few stores into task objects and into the
scheduler's own node. Every task runs in the kernel's page directory, so
the switch of the directory in `perform_context_switch` changes nothing
that is read here.

# The calls

Each call has interrupts off from its first statement to its last, so it
is one step. `yield` ends where `context_switch` has saved the stack
pointer; what the saved registers do to the task's own stack is not the
scheduler's, and is left to `Event.heap` with everything else that goes
on in the heap's memory.
-/
import Ntibux.Kernel.Context
import Ntibux.Sched.List

namespace Ntibux

open Sched (member listEntry)

-- ================================================================= memory

namespace Mem

/-- `*(u64*)a`. -/
def load64 (m : Mem) (a : Nat) : Nat := m.load a + 2 ^ 32 * m.load (a + 4)

/-- `*(u64*)a = v`. -/
def store64 (m : Mem) (a v : Nat) : Mem :=
  (m.store a (u32 v)).store (a + 4) (v / 2 ^ 32)

/-- `*(char*)a = c`. -/
def storeByte (m : Mem) (a : Nat) (c : UInt8) : Mem :=
  { m with bytes := Function.update m.bytes a c }

/-- `strncpy(dest, src, n)`, with the characters of `src`. The zero that
ends the copy is not counted in `n`. -/
def strncpy (m : Mem) (dest : Nat) : List UInt8 → Nat → Mem
  | c :: src, n + 1 =>
      if c = 0 then m.storeByte dest 0
      else (m.storeByte dest c).strncpy (dest + 1) src n
  | _, _ => m.storeByte dest 0

-- ============================================================= class list

/-- The links of all nodes: `next` is a node's first word and `prev` its
second. -/
def links (m : Mem) : Links Nat := ⟨m.load, fun p => m.load (p + 4)⟩

/-- `p->next = q`. -/
def setNext (m : Mem) (p q : Nat) : Mem := m.store p q

/-- `p->prev = q`. -/
def setPrev (m : Mem) (p q : Nat) : Mem := m.store (p + 4) q

variable (m : Mem) (this : Nat)

/-- `list::init_head`. -/
def listInitHead : Mem :=
  let m := m.setNext this this
  m.setPrev this this

/-- `list::push`. -/
def listPush (elt : Nat) : Mem :=
  let m := m.setNext elt (m.links.next this)
  let m := m.setPrev elt this
  let m := m.setPrev (m.links.next this) elt
  m.setNext this elt

/-- `list::push_back`. -/
def listPushBack (elt : Nat) : Mem :=
  let m := m.setNext elt this
  let m := m.setPrev elt (m.links.prev this)
  let m := m.setNext (m.links.prev this) elt
  m.setPrev this elt

/-- `list::pop`. -/
def listPop : Mem :=
  let tmp := m.links.next this
  let m := m.setNext this (m.links.next tmp)
  let m := m.setPrev (m.links.next this) this
  let m := m.setNext tmp 0
  m.setPrev tmp 0

/-- `list::pop_back`. -/
def listPopBack : Mem :=
  let tmp := m.links.prev this
  let m := m.setPrev this (m.links.prev tmp)
  let m := m.setNext (m.links.prev this) this
  let m := m.setNext tmp 0
  m.setPrev tmp 0

/-- `list::del`. -/
def listDel : Mem :=
  let m := m.setNext (m.links.prev this) (m.links.next this)
  m.setPrev (m.links.next this) (m.links.prev this)

/-- `list::rotate`. -/
def listRotate : Mem :=
  if m.links.empty this ∨ m.links.singular this then m
  else
    let first := m.links.next this
    let m := m.setPrev (m.links.next first) this
    let m := m.setNext (m.links.prev this) first
    let m := m.setNext this (m.links.next first)
    let m := m.setNext first this
    let m := m.setPrev first (m.links.prev this)
    m.setPrev this first

end Mem

-- ============================================================= class task

/-- Where the fields of `class task` are. -/
inductive Field
  | id
  | esp
  | stack
  | stackSize
  | status
  | lastSwitched
  | sleep
  | created
  | cpuTime
  | pd
  | name

/-- `OFFSETOF(field, task)`. -/
def Field.offset : Field → Nat
  | .id => 0
  | .esp => 4
  | .stack => 8
  | .stackSize => 12
  | .status => 16
  | .lastSwitched => 20
  | .sleep => 28
  | .created => 36
  | .cpuTime => 44
  | .pd => 52
  | .name => 56

def TASK_NAME_LEN : Nat := 32

namespace Mem

/-- The address of a field. -/
def field (t : Nat) (f : Field) : Nat := t + f.offset

/-- `task::tick`. -/
def taskTick (m : Mem) (t : Nat) : Mem :=
  m.store64 (field t .cpuTime) (u64 (m.load64 (field t .cpuTime) + 1))

/-- `task::set_name`. -/
def setName (m : Mem) (t : Nat) (name : List UInt8) : Mem :=
  m.strncpy (field t .name) name TASK_NAME_LEN

/-- The fields that `task::init` writes, in their order. -/
def storeTask (m : Mem) (t : Nat) (o : TaskObject) : Mem :=
  let m := m.store (field t .id) o.id
  let m := m.store (field t .stack) o.stack
  let m := m.store (field t .stackSize) o.stackSize
  let m := m.store (field t .esp) o.esp
  let m := m.store (field t .pd) o.pd
  let m := m.store64 (field t .created) o.created
  let m := m.store64 (field t .cpuTime) o.cpuTime
  let m := m.store (field t .status) o.status
  m.store64 (field t .sleep) o.sleep

end Mem

-- ======================================================== class scheduler

/-- `class scheduler`, with its list at `tasks`. Its lock is free between
two calls. -/
structure Scheduler where
  nextId : Nat
  current : Nat
  idle : Nat
  tasks : Nat

namespace Scheduler

variable (c : Scheduler) (ticks : Nat)

/-- `scheduler::init`, with the scheduler's list at `tasks` and with the
boot stack. -/
def init (fuel tasks stackTop stackBottom busyLoop ticks : Nat) (m : Mem) :
    Outcome (Scheduler × Mem) := do
  let (kernel, m) ← m.kheapAlloc fuel sizeofTask ALLOC_ZEROED
  let m := m.setName kernel "kernel".toUTF8.toList
  let m := m.storeTask kernel
    { id := Sched.KERNEL_TASK_ID, esp := 0, stack := stackTop
      stackSize := u32 (stackTop + (2 ^ 32 - stackBottom)), status := 0
      sleep := 0, created := ticks, cpuTime := 0, pd := m.kernelPd }
  let m := m.listInitHead tasks
  let m := m.listPush tasks (member kernel)
  let (idle, m) ← m.kheapAlloc fuel sizeofTask ALLOC_ZEROED
  let m := m.setName idle "idle".toUTF8.toList
  let (block, m) ← m.kheapAlloc fuel KERNEL_STACK_SIZE ALLOC_ALIGNED
  let stack := u32 (block + KERNEL_STACK_SIZE)
  let m := m.zero (u32 (stack + (2 ^ 32 - 4 * 44))) 44
  let m := m.store (u32 (stack + (2 ^ 32 - 8))) busyLoop
  let m := m.storeTask idle
    { id := Sched.IDLE_TASK_ID, esp := u32 (stack + (2 ^ 32 - 44))
      stack := stack, stackSize := KERNEL_STACK_SIZE, status := 0
      sleep := 0, created := ticks, cpuTime := 0, pd := m.kernelPd }
  .ret (⟨Sched.AVAILABLE_IDS, kernel, idle, tasks⟩, m)

/-- `scheduler::new_task(name, entry)`. -/
def newTask (fuel killMe : Nat) (name : List UInt8) (entry : Nat) (m : Mem) :
    Outcome (Nat × Scheduler × Mem) := do
  let (t, m) ← m.kheapAlloc fuel sizeofTask ALLOC_ZEROED
  let (o, m) ← TaskObject.init (Mem.kheapAlloc fuel) killMe ticks c.nextId
    entry m.kernelPd m
  let m := m.storeTask t o
  let m := m.setName t name
  let m := m.listPushBack c.tasks (member t)
  .ret (t, { c with nextId := u32 (c.nextId + 1) }, m)

/-- The loop of `scheduler::select_next` from `it` on; null is 0. -/
def selectLoop (head ticks : Nat) : Nat → Nat → Mem → Outcome (Nat × Mem)
  | 0, _, _ => .timeout
  | fuel + 1, it, m =>
      if member it = head then .ret (0, m)
      else
        let sleep := m.load64 (Mem.field it .sleep)
        if sleep ≠ 0 then
          let sleeped :=
            u64 (ticks + (2 ^ 64 - m.load64 (Mem.field it .lastSwitched)))
          if sleep ≤ sleeped then
            -- wake up
            .ret (it, m.store64 (Mem.field it .sleep) 0)
          else
            -- sleep more
            let m := m.store64 (Mem.field it .sleep) (sleep - sleeped)
            let m := m.store64 (Mem.field it .lastSwitched) ticks
            selectLoop head ticks fuel (listEntry (m.links.next (member it))) m
        else .ret (it, m)

/-- `scheduler::select_next`. -/
def selectNext (fuel : Nat) (m : Mem) : Outcome (Nat × Mem) :=
  let m := m.listRotate c.tasks
  selectLoop c.tasks ticks fuel (listEntry (m.links.next c.tasks)) m

/-- `scheduler::perform_context_switch`, where `old` is the task whose
stack pointer is saved, with its value. -/
def performContextSwitch (old : Option (Nat × Nat)) (next : Nat) (m : Mem) :
    Scheduler × Mem :=
  let m := m.store64 (Mem.field next .lastSwitched) ticks
  match old with
  | some (t, esp) =>
      ({ c with current := next }, m.store (Mem.field t .esp) esp)
  | none => ({ c with current := next }, m)

/-- `scheduler::yield`, with the stack pointer of the caller. -/
def yield (fuel esp : Nat) (m : Mem) : Outcome (Scheduler × Mem) :=
  if c.current = 0 then .ret (c, m)
  else do
    let old := c.current
    let m := m.store64 (Mem.field old .lastSwitched) ticks
    let (next, m) ← c.selectNext ticks fuel m
    if next = 0 then
      -- no task to switch to
      if old = c.idle then .ret (c, m)
      else if m.load64 (Mem.field old .sleep) ≠ 0 then
        .ret (c.performContextSwitch ticks (some (old, esp)) c.idle m)
      else .ret (c, m)
    else if old = next then .ret (c, m)
    else .ret (c.performContextSwitch ticks (some (old, esp)) next m)

/-- `scheduler::kill_current_task_locked`. -/
def killCurrentTaskLocked (fuel : Nat) (m : Mem) :
    Outcome (Scheduler × Mem) :=
  if m.load (Mem.field c.current .id) = 0 then .panic "killed kernel"
  else do
    let m := m.listDel (member c.current)
    let m ← m.kheapFree fuel c.current sizeofTask
    .ret (c.performContextSwitch ticks none c.current m)

/-- The loop of `scheduler::kill_task` from `it` on, with the objects that
it gives to `kheap::free`. -/
def killLoop (head id : Nat) : Nat → Nat → Mem → Outcome (List Nat × Mem)
  | 0, _, _ => .timeout
  | fuel + 1, it, m =>
      if member it = head then .ret ([], m)
      else if m.load (Mem.field it .id) = id then do
        let m := m.listDel (member it)
        let m ← m.kheapFree fuel it sizeofTask
        -- the loop goes on from the object it has just given back
        let (freed, m) ←
          killLoop head id fuel (listEntry (m.links.next (member it))) m
        .ret (it :: freed, m)
      else killLoop head id fuel (listEntry (m.links.next (member it))) m

/-- `scheduler::kill_task`, with the objects that it gives back. A task
that kills itself is switched out and does not come to the loop. -/
def killTask (fuel id : Nat) (m : Mem) :
    Outcome (List Nat × Scheduler × Mem) :=
  if id = 0 then .panic "killed kernel"
  else if id = m.load (Mem.field c.current .id) then do
    let (c', m) ← c.killCurrentTaskLocked ticks fuel m
    .ret ([c.current], c', m)
  else do
    let (freed, m) ←
      killLoop c.tasks id fuel (listEntry (m.links.next c.tasks)) m
    .ret (freed, c, m)

end Scheduler

-- =============================================================== the runs

/-- The scheduler with the heap that its objects are in. -/
structure Running where
  sched : Scheduler
  ticks : Nat
  heap : HeapState

namespace Running

/-- What happens next. `newTask` has the object that it makes; `heap` is
anything that the rest of the kernel does to the heap's memory. -/
inductive Event
  | newTask (t : Nat)
  | yield
  | tick
  | killTask (id : Nat)
  | heap (e : Ntibux.Event)

/-- The memory. -/
def mem (s : Running) : Mem := s.heap.mem

/-- `task::id`. -/
def id (s : Running) (t : Nat) : Nat := s.mem.load (Mem.field t .id)

/-- The block of a task object. -/
def object (t : Nat) : Block := ⟨t, 12⟩

/-- The block that the stack of a task is in. -/
def stackBlock (m : Mem) (t : Nat) : Block :=
  ⟨u32 (m.load (Mem.field t .stack) + (2 ^ 32 - KERNEL_STACK_SIZE)), 14⟩

/-- The blocks in use when the objects `freed` are given back. -/
def without (live : List Block) (freed : List Nat) : List Block :=
  live.filter fun b => b ∉ freed.map object

/-- The rest of the kernel keeps its hands off the scheduler's node and
the task objects. -/
structure Leaves (s : Running) (h : HeapState) : Prop where
  node : ∀ i < 8,
    h.mem.bytes (s.sched.tasks + i) = s.mem.bytes (s.sched.tasks + i)
  objects : ∀ l, Sched.RunList s.mem.links s.sched.tasks l →
    ∀ t ∈ s.sched.idle :: l, object t ∈ h.live ∧
      ∀ i < sizeofTask, h.mem.bytes (t + i) = s.mem.bytes (t + i)

/-- One step: a call that returns, or what goes on around the calls. -/
inductive Step : Running → Event → Running → Prop
  | newTask {s : Running} {fuel killMe entry t : Nat} {name : List UInt8}
      {c : Scheduler} {m : Mem}
      (hr : s.sched.newTask s.ticks fuel killMe name entry s.mem
        = .ret (t, c, m)) :
      Step s (.newTask t)
        ⟨c, s.ticks, ⟨m, stackBlock m t :: object t :: s.heap.live⟩⟩
  | yield {s : Running} {fuel esp : Nat} {c : Scheduler} {m : Mem}
      (hr : s.sched.yield s.ticks fuel esp s.mem = .ret (c, m)) :
      Step s .yield ⟨c, s.ticks, ⟨m, s.heap.live⟩⟩
  | tick {s : Running} :
      Step s .tick ⟨s.sched, u64 (s.ticks + 1),
        ⟨s.mem.taskTick s.sched.current, s.heap.live⟩⟩
  | killTask {s : Running} {fuel id : Nat} {freed : List Nat}
      {c : Scheduler} {m : Mem} (h0 : id ≠ 0)
      (hcur : id ≠ s.id s.sched.current)
      (hr : s.sched.killTask s.ticks fuel id s.mem = .ret (freed, c, m)) :
      Step s (.killTask id) ⟨c, s.ticks, ⟨m, without s.heap.live freed⟩⟩
  | heap {s : Running} {e : Ntibux.Event} {h : HeapState}
      (hh : HeapState.Step s.heap e h) (hl : s.Leaves h) :
      Step s (.heap e) ⟨s.sched, s.ticks, h⟩

/-- What `scheduler::init` returns, on a heap whose smallest block is a
page and which lies above the kernel's own data. -/
inductive Initial : Running → Prop
  | init {h₀ h : HeapState} {tr : List (HeapState × Ntibux.Event)}
      {fuel tasks stackTop stackBottom busyLoop ticks : Nat}
      {c : Scheduler} {m : Mem} (h0 : HeapState.Initial h₀)
      (hmin : h₀.mem.kheap.minOrder = 12) (hr : HeapState.Run h₀ tr h)
      (hnode : tasks + 8 ≤ h.mem.kheap.freeZone)
      (hi : Scheduler.init fuel tasks stackTop stackBottom busyLoop ticks
        h.mem = .ret (c, m)) :
      Initial ⟨c, ticks, ⟨m, stackBlock m c.idle :: object c.idle ::
        object c.current :: h.live⟩⟩

/-- A run, with the state and the event of each step. -/
abbrev Run := Ntibux.Run Step

-- ========================================================= the statements

/-- The step is an execution of `new_task`. -/
def Event.creates : Event → Bool
  | .newTask _ => true
  | _ => false

/-- The tasks alive after one more step, each with the id it was given. -/
def after (alive : List (Nat × Nat)) : Running × Event → List (Nat × Nat)
  | (s, .newTask t) => alive ++ [(t, s.sched.nextId)]
  | (_, .killTask id) => alive.filter fun p => p.2 ≠ id
  | _ => alive

/-- The tasks alive after a run: the kernel's, and those that it created
and has not killed since. -/
def alive (kernel : Nat) (tr : List (Running × Event)) : List (Nat × Nat) :=
  tr.foldl after [(kernel, Sched.KERNEL_TASK_ID)]

/-- The scheduler's list is a ring of the tasks `l`, each of the tasks
`alive` once, each with its id. -/
structure Holds (s : Running) (l : List Nat) (alive : List (Nat × Nat)) :
    Prop where
  list : Sched.RunList s.mem.links s.sched.tasks l
  perm : l.Perm (alive.map Prod.fst)
  nodup : l.Nodup
  ids : ∀ p ∈ alive, s.id p.1 = p.2
  distinct : (alive.map Prod.snd).Nodup

/-- `kill_task(id)` returns, having given back the objects `freed`, and
leaves the state `s'`: the list without them, and of the other objects
everything but the links. -/
structure Kills (s : Running) (id : Nat) (l freed : List Nat)
    (s' : Running) : Prop where
  returns : Outcome.Gives
    (fun fuel => s.sched.killTask s.ticks fuel id s.mem)
    (freed, s.sched, s'.mem)
  list : Sched.RunList s'.mem.links s.sched.tasks (l.filter (· ∉ freed))
  others : ∀ t ∈ s.sched.idle :: l, t ∉ freed →
    ∀ i < Sched.TASKS_OFFSET, s'.mem.bytes (t + i) = s.mem.bytes (t + i)
  live : s'.heap.live = without s.heap.live freed
  safe : s'.heap.Safe

end Running

end Ntibux
