/-
Runs of the scheduler, and what there is to say about the states they
reach.

# Accounts

A call that has run `pop_ints` owes a `push_ints` (`Frame.owed`), and so
does a context that waits to be loaded for the calls it goes on with.
`State.total` is the semaphore with everything owed to it paid: the
number that no switch should change.

# The lock

A call holds the scheduler's lock between `lock.lock()` and
`lock.release()` (`Frame.holds`), and has interrupts off from its
`pop_ints` to its `push_ints`, or to the context that it loads
(`Frame.masked`).

# What goes wrong

Three steps of the code leave the accounts wrong, and each is told by
the state it is taken in: `IdleBranch`, `DirtySwitch` and `DirtyKill`.
-/
import Mathlib.Algebra.GroupWithZero.Nat
import Mathlib.Algebra.Order.BigOperators.Group.List
import Ntibux.Sched.Basic

namespace Ntibux.Sched

-- =============================================================== frames

namespace Frame

/-- The `push_ints` that a call still has to do, less the `pop_ints`. -/
def owed : Frame → Nat
  | .yield .pop => 0
  | .isr _ _ .pop => 0
  | .isr _ _ .dec => 0
  | .isr _ _ .iret => 0
  | .newTask _ .pop => 0
  | .kill .pop => 0
  | .killTask _ .pop => 0
  | _ => 1

/-- The call holds the scheduler's lock. -/
def holds : Frame → Bool
  | .yield .body => true
  | .yield .release => true
  | .switch _ _ .release => true
  | .newTask _ .pushBack => true
  | .newTask _ .release => true
  | .kill .body => true
  | .killTask _ .body => true
  | .killTask _ .scan => true
  | .killTask _ .release => true
  | _ => false

/-- The call is about to take the lock. -/
def locks : Frame → Bool
  | .yield .lock => true
  | .newTask _ .lock => true
  | .kill .lock => true
  | .killTask _ .lock => true
  | _ => false

/-- The call is about to release the lock. -/
def releases : Frame → Bool
  | .yield .release => true
  | .switch _ _ .release => true
  | .newTask _ .release => true
  | .killTask _ .release => true
  | _ => false

/-- The call has interrupts off, at a point that counts on it. -/
def masked : Frame → Bool
  | .yield .lock => true
  | .switch _ _ .load => true
  | .newTask _ .alloc => true
  | .newTask _ .lock => true
  | .kill .lock => true
  | .killTask _ .lock => true
  | f => f.holds

/-- The call can end the task that makes it, or comes from an exception. -/
def kills : Frame → Bool
  | .kill _ => true
  | .killTask _ _ => true
  | .isr .fault _ _ => true
  | _ => false

/-- The interrupt flag that an interrupt stub gives back. -/
def flagOn : Frame → Bool
  | .isr _ flag _ => flag
  | _ => true

end Frame

/-- The calls that are gone on with: a switch that saves nothing leaves
its callers behind. -/
def live : List Frame → List Frame
  | .switch none next pc :: _ => [.switch none next pc]
  | fs => fs

/-- What a list of calls owes. -/
def owed (fs : List Frame) : Nat := (fs.map Frame.owed).sum

/-- What a saved context owes. -/
def ctxOwed : Option Ctx → Nat
  | none => 0
  | some c => owed c.frames

namespace State

variable (s : State) (e : Event)

/-- The task objects that can be switched to. -/
def all : List Nat := s.idle :: s.tasks

/-- The context saved in a task. -/
def ctx (t : Nat) : Option Ctx := (s.task t).ctx

/-- What a suspended task owes. -/
def debt (t : Nat) : Nat := ctxOwed (s.ctx t)

/-- The semaphore, with everything paid. -/
def total : Int :=
  s.interruptsSemaphore + (Sched.owed (live s.stack) : Nat)
    + ((s.all.map s.debt).sum : Nat)

-- ==================================================== steps of a kind

/-- What `select_next` gives to `yield`. -/
def selected : Option Nat × State :=
  (s.setTask s.current
    { s.task s.current with lastSwitched := s.ticks }).selectNext

/-- `yield` goes to idle: no task is ready, and the one that yields has
started to sleep. -/
def IdleBranch : Prop :=
  e = .exec ∧ s.stack.head? = some (.yield .body) ∧ s.current ≠ 0 ∧
    s.current ≠ s.idle ∧ s.selected.1 = none ∧
    (s.selected.2.task s.current).sleep ≠ 0

/-- `yield` goes to another task, called by a flow that still has to
`push_ints`. -/
def DirtySwitch : Prop :=
  e = .exec ∧ s.stack.head? = some (.yield .body) ∧ s.current ≠ 0 ∧
    (∃ next, next ∈ s.selected.1 ∧ next ≠ s.current) ∧
    Sched.owed s.stack.tail ≠ 0

/-- The kill that comes next would end the running task. -/
def Ends : Prop :=
  s.stack.head? = some (.kill .body) ∨
    s.stack.head? = some (.killTask (s.task s.current).id .body)

/-- The running task is killed in a flow that still has to
`push_ints`. -/
def DirtyKill : Prop :=
  match e with
  | .killTo _ => Sched.owed s.stack.tail ≠ 0
  | _ => False

/-- A kill of the running task hands another suspended task to
`perform_context_switch`. -/
def HandsOver : Prop :=
  match e with
  | .exec => ¬s.Ends
  | .killTo t => t ∈ s.all ∧ t ≠ s.runner
  | _ => True

/-- A step that leaves the accounts even. -/
structure Clean : Prop where
  idle : ¬s.IdleBranch e
  switch : ¬s.DirtySwitch e
  kill : ¬s.DirtyKill e
  hands : s.HandsOver e

instance : Decidable (s.IdleBranch e) :=
  inferInstanceAs (Decidable (_ ∧ _))

instance : Decidable (s.DirtySwitch e) :=
  inferInstanceAs (Decidable (_ ∧ _))

instance : Decidable s.Ends := inferInstanceAs (Decidable (_ ∨ _))

instance : Decidable (s.DirtyKill e) :=
  match e with
  | .killTo _ => inferInstanceAs (Decidable (_ ≠ _))
  | .exec | .irq | .call _ | .fault | .alloc _ _ => .isFalse nofun

instance : Decidable (s.HandsOver e) :=
  match e with
  | .exec => inferInstanceAs (Decidable (¬s.Ends))
  | .killTo t => inferInstanceAs (Decidable (t ∈ s.all ∧ t ≠ s.runner))
  | .irq | .call _ | .fault | .alloc _ _ => .isTrue trivial

instance : Decidable (s.Clean e) :=
  decidable_of_iff (¬s.IdleBranch e ∧ ¬s.DirtySwitch e ∧
      ¬s.DirtyKill e ∧ s.HandsOver e)
    ⟨fun h => ⟨h.1, h.2.1, h.2.2.1, h.2.2.2⟩,
      fun h => ⟨h.idle, h.switch, h.kill, h.hands⟩⟩

end State

-- ============================================================== the runs

/-- A run of the machine. -/
abbrev Run := Ntibux.Run Step

/-- What happens where tasks yield, sleep and start others. -/
def Event.quiet : Event → Bool
  | .exec => true
  | .irq => true
  | .call .yield => true
  | .call (.sleep _) => true
  | .call .newTask => true
  | .alloc _ _ => true
  | _ => false

/-- The step takes the lock. -/
def acquires (p : State × Event) : Bool :=
  p.2 = .exec && p.1.stack.head?.any Frame.locks && !p.1.locked

/-- The step executes a `release`. -/
def releases (p : State × Event) : Bool :=
  p.2 = .exec && p.1.stack.head?.any Frame.releases

/-- The lock over a run, in the state reached. -/
structure Disciplined (tr : List (State × Event)) (s : State) : Prop where
  /-- `lock` does not spin. -/
  never_spins : ∀ f ∈ s.stack.head?, f.locks → s.locked = false
  /-- Interrupts are off while the lock is held. -/
  masked : s.locked = true → s.intf = false
  /-- `release` is executed with the lock held. -/
  held : ∀ f ∈ s.stack.head?, f.releases → s.locked = true
  /-- Each acquisition is matched by one release. -/
  matched : tr.countP acquires = tr.countP releases + s.locked.toNat

/-- A task's own code, as the rest of the kernel expects it. -/
structure Settled (s : State) : Prop where
  sem : s.interruptsSemaphore = 1
  intf : s.intf = true

/-- How a task ends by itself: it returns from its entry point into
`kill_me`, or an exception's handler calls `kill_me`. -/
inductive Ending
  | returned | exception
  deriving DecidableEq, Repr

/-- How the task that `kill_me` is about to end has come there. -/
def State.ending (s : State) : Ending :=
  if s.stack.tail = [] then .returned else .exception

/-- A state after the running task of `s` was killed: another task runs,
one that can be switched to and whose object is on the heap. -/
structure Away (s s' : State) : Prop where
  other : s'.runner ≠ s.current
  runner : s'.runner ∈ s'.all
  current : s'.current ∈ s'.all
  alive : s'.current ∈ s'.objects

/-- The kill, the release of the lock and the load take the killed task
off the CPU. -/
def KillsAway (s : State) : Prop :=
  ∀ s₁ s₂ s₃, Step s .exec s₁ → Step s₁ .exec s₂ → Step s₂ .exec s₃ →
    Away s s₃

-- ================================================== a machine of one task

/-- The kernel task at 1, idle at 2. -/
def booted : State :=
  { ticks := 0
    interruptsSemaphore := 1
    intf := true
    locked := false
    nextId := AVAILABLE_IDS
    current := 1
    idle := 2
    tasks := [1]
    task := fun t =>
      if t = 1 then ⟨KERNEL_TASK_ID, 0, 0, 0, none⟩
      else ⟨IDLE_TASK_ID, 0, 0, 0, some ⟨false, []⟩⟩
    objects := [2, 1]
    runner := 1
    stack := []
    lost := false }

theorem booted_initial : Initial booted :=
  ⟨rfl, rfl, rfl, rfl, rfl, rfl, rfl, by decide, by decide, by decide, rfl,
    rfl, rfl, ⟨false, rfl⟩, rfl, rfl⟩

/-- The timer interrupts whatever runs, up to the tick at the end of the
time slice. -/
def slice : List Event :=
  (List.replicate 9 (.irq :: List.replicate 4 .exec)).flatten ++ [.irq]

/-- The kernel sleeps, idle runs until the time slice ends, and the
kernel is back in `yield`. -/
def nap : List Event :=
  .call (.sleep 0) :: List.replicate 7 .exec ++ slice ++
    List.replicate 10 .exec

/-- The kernel starts a task at 3 and yields to it. -/
def start : List Event :=
  [.call .newTask, .exec, .alloc 3 false] ++ List.replicate 4 .exec ++
    .call .yield :: List.replicate 7 .exec

/-- Events from `booted`, each in a state that is `ok`. -/
theorem booted_run {α : Type} (ok : State → Event → Bool)
    (es : List Event) (view : State → α) (v : α)
    (h : (Run.follow apply ok es booted).map view = some v) :
    ∃ tr s, Run booted tr s ∧ (∀ p ∈ tr, ok p.1 p.2 = true) ∧
      view s = v :=
  Run.of_follow_map (fun _ _ _ hs => hs) h

/-- The kernel starts a task at 3 and yields to it. The task is preempted,
the kernel comes back from its `yield` and is preempted in turn, and the
task goes on with its own code. -/
theorem booted_preempted :
    ∃ tr s, Run booted tr s ∧
      (∀ p ∈ tr, p.2.quiet = true ∧ ¬p.1.IdleBranch p.2 ∧
        ¬p.1.DirtySwitch p.2) ∧
      s.runner = 3 ∧ s.ticks = 20 ∧ s.stack = [] := by
  obtain ⟨tr, s, hr, hok, hv⟩ := booted_run
    (fun s e => decide (e.quiet = true ∧ ¬s.IdleBranch e ∧
      ¬s.DirtySwitch e))
    (start ++ slice ++ List.replicate 10 .exec ++ slice ++
      List.replicate 13 .exec)
    (fun s => (s.runner, s.ticks, s.stack)) (3, 20, []) (by decide +kernel)
  injection hv with hrun hv
  injection hv with hticks hnil
  exact ⟨tr, s, hr, fun p hp => of_decide_eq_true (hok p hp), hrun, hticks,
    hnil⟩

end Ntibux.Sched
