/-
The machine with `yield`'s body in parts, and what sleeping is to mean
in its runs.

# The walk

`pop_ints` before the lock is meant to keep interrupts away from the
body, so that the machine of `Basic` can take it for one step. That is
no help where the semaphore is wrong. Here the body is a `Walk`: each of
its steps reads the timer's ticks at most once, and between any two a
timer interrupt can come if `intf` is on. What the interrupt runs is the
stub and the handler as before, on top of the call that walks.

# Phases

A task is awake; it has called `sleep` and no yield has come since; or
it is due at a tick. `phases` tells which from what happened: the first
body of `yield` after the call, the task's own or the timer's, sets the
tick, and being returned by `select_next` wakes it.
-/
import Ntibux.Sched.Run

namespace Ntibux.Sched

-- ============================================================== the walk

/-- How far the body of `yield` has come: `select_next` is about to look
at the first of `rest`, or to set the `last_switched` of `it`, or has
returned. -/
inductive Walk
  | looks (rest : List Nat)
  | passes (it : Nat) (rest : List Nat)
  | found (next : Option Nat)
  deriving DecidableEq, Repr

/-- The machine, with the body of `yield` that is under way. -/
structure Fine where
  base : State
  walk : Option Walk

namespace State

/-- The body of `yield` up to the loop of `select_next`. -/
def walkStart (rest : List Frame) (s : State) : Fine :=
  if s.current = 0 then ⟨s.goto (.yield .release :: rest), none⟩
  else
    let s := s.setTask s.current
      { s.task s.current with lastSwitched := s.ticks }
    let tasks := rotate s.tasks
    ⟨{ s with tasks := tasks }, some (.looks tasks)⟩

/-- One turn of the loop, up to where a task that sleeps more gets its
`last_switched`. -/
def walkLook (s : State) : List Nat → Fine
  | [] => ⟨s, some (.found none)⟩
  | it :: rest =>
      if (s.task it).sleep ≠ 0 then
        let sleeped := u64 (s.ticks + (2 ^ 64 - (s.task it).lastSwitched))
        if (s.task it).sleep ≤ sleeped then
          -- wake up
          ⟨s.setTask it { s.task it with sleep := 0 },
            some (.found (some it))⟩
        else
          -- sleep more
          ⟨s.setTask it { s.task it with
            sleep := (s.task it).sleep - sleeped }, some (.passes it rest)⟩
      else ⟨s, some (.found (some it))⟩

/-- The body of `yield` from `select_next`'s return on. -/
def walkEnd (rest : List Frame) (s : State) : Option Nat → State
  | none =>
      if s.current = s.idle then s.goto (.yield .release :: rest)
      else if (s.task s.current).sleep ≠ 0 then
        s.performContextSwitch (some s.current) s.idle
          (.yield .release :: rest)
      else s.goto (.yield .release :: rest)
  | some next =>
      if s.current = next then s.goto (.yield .release :: rest)
      else s.performContextSwitch (some s.current) next rest

/-- One step of the body. -/
def walkStep (rest : List Frame) (s : State) : Option Walk → Fine
  | none => s.walkStart rest
  | some (.looks ts) => s.walkLook ts
  | some (.passes it ts) =>
      ⟨s.setTask it { s.task it with lastSwitched := s.ticks },
        some (.looks ts)⟩
  | some (.found next) => ⟨s.walkEnd rest next, none⟩

end State

namespace Fine

/-- One event. -/
def apply (e : Event) (s : Fine) : Option Fine :=
  match e, s.base.stack with
  | .exec, .yield .body :: rest =>
      if s.base.lost then none else some (s.base.walkStep rest s.walk)
  | e, _ => (Sched.apply e s.base).map fun base => ⟨base, s.walk⟩

def Step (s : Fine) (e : Event) (s' : Fine) : Prop := apply e s = some s'

/-- A run of the machine. -/
abbrev Run := Ntibux.Run Step

end Fine

-- ============================================================== the phases

/-- `max(ms / MS_INTERVAL, TIME_SLICE)`. -/
def budget (ms : Nat) : Nat := max (ms / MS_INTERVAL) TIME_SLICE

/-- What has become of a task's last call of `sleep`. -/
inductive Phase
  | awake
  | called (d : Nat)
  | due (tick : Nat)
  deriving DecidableEq, Repr

namespace Fine

variable (s : Fine)

/-- The body of `yield` is what goes on next. -/
def InBody : Prop := s.base.stack.head? = some (.yield .body)

/-- `select_next` is about to look at `t`. -/
def Looks (t : Nat) : Prop :=
  s.InBody ∧ ∃ rest, s.walk = some (.looks (t :: rest))

/-- The task that the step of the body that comes next returns from
`select_next`. -/
def returns : Option Nat :=
  match s.walk with
  | some (.looks ts) =>
      match (s.base.walkLook ts).walk with
      | some (.found next) => next
      | _ => none
  | _ => none

instance : Decidable s.InBody := inferInstanceAs (Decidable (_ = _))

/-- What an event changes in the phases. -/
def mark (e : Event) (φ : Nat → Phase) : Nat → Phase :=
  match e with
  | .call (.sleep ms) =>
      Function.update φ s.base.current (.called (budget ms))
  | .exec =>
      if s.InBody then
        match s.walk, s.returns with
        | none, _ =>
            match φ s.base.current with
            | .called d =>
                Function.update φ s.base.current (.due (s.base.ticks + d))
            | _ => φ
        | some _, some t => Function.update φ t .awake
        | some _, none => φ
      else φ
  | _ => φ

/-- The phases after what has happened, everyone awake at first. -/
def phases (tr : List (Fine × Event)) : Nat → Phase :=
  tr.foldl (fun φ p => p.1.mark p.2 φ) fun _ => .awake

-- ========================================================= exact sleeping

/-- Sleeping is exact in ticks. -/
structure Exact (φ : Nat → Phase) (s : Fine) : Prop where
  /-- `select_next` does not return a task before it is due. -/
  not_early : ∀ t w, φ t = .due w → s.InBody → s.returns = some t →
    w ≤ s.base.ticks
  /-- A scan that reaches a task that is due returns it, awake. -/
  on_time : ∀ t w s', φ t = .due w → s.Looks t → w ≤ s.base.ticks →
    Step s .exec s' →
      s'.walk = some (.found (some t)) ∧ (s'.base.task t).sleep = 0
  /-- Nothing changes when it is due, a scan that passes over it
  included. -/
  sum : ∀ t w, φ t = .due w → (∀ rest, s.walk ≠ some (.passes t rest)) →
    (s.base.task t).lastSwitched + (s.base.task t).sleep = w
  /-- `ticks - last_switched` does not wrap. -/
  ticks_sub : ∀ t, s.Looks t → (s.base.task t).sleep ≠ 0 →
    (s.base.task t).lastSwitched ≤ s.base.ticks
  /-- `sleep - sleeped` does not wrap. -/
  sleep_sub : ∀ t rest s', s.Looks t → Step s .exec s' →
    s'.walk = some (.passes t rest) →
      (s'.base.task t).sleep
          + (s.base.ticks - (s.base.task t).lastSwitched) =
        (s.base.task t).sleep
  /-- `select_next` returns null where all tasks sleep and none is due. -/
  none_ready : s.InBody → s.walk = some (.found none) →
    ∀ t ∈ s.base.tasks, (s.base.task t).sleep ≠ 0 ∧
      ∃ w, φ t = .due w ∧ s.base.ticks < w

end Fine

-- =============================================================== the runs

/-- The calls that a task is to go on with, by who is on the CPU: where
a switch is among them, the task that it leaves for. A task that is
about to go on the list is a task object. -/
def Fits (objects : List Nat) : Nat → List Frame → Prop
  | _, [] => True
  | t, .switch (some old) next _ :: rest =>
      t = next ∧ Fits objects old rest
  | t, .yield _ :: rest => Fits objects t rest
  | t, .resume _ _ :: rest => Fits objects t rest
  | t, .isr .timer _ _ :: rest => Fits objects t rest
  | t, .newTask _ .pop :: rest => Fits objects t rest
  | t, .newTask _ .alloc :: rest => Fits objects t rest
  | t, .newTask u _ :: rest => u ∈ objects ∧ Fits objects t rest
  | _, _ => False

/-- Where a run starts: a task's own code, and any number of tasks that
do not sleep, each a task object with calls of its own to go on with. -/
structure Rested (s : State) : Prop where
  stack : s.stack = []
  runner : s.runner = s.current
  current : s.current ∈ s.objects
  idle : s.idle ∈ s.objects
  tasks : ∀ t ∈ s.tasks, t ∈ s.objects
  null : 0 ∉ s.objects
  sleep : ∀ t ∈ s.objects, (s.task t).sleep = 0
  ctx : ∀ t c, s.ctx t = some c → Fits s.objects t c.frames

/-- What `sleep` is given. -/
def Event.ms : Event → Nat
  | .call (.sleep ms) => ms
  | _ => 0

/-- A step of a run in which tasks yield, sleep and start others, and in
which the ticks and the `u64` that `sleep` is given do not wrap. -/
def Fine.Plain (s : Fine) (e : Event) : Prop :=
  e.quiet = true ∧ s.base.ticks + 1 < 2 ^ 64 ∧ e.ms < 2 ^ 64

instance (s : Fine) (e : Event) : Decidable (s.Plain e) :=
  inferInstanceAs (Decidable (_ ∧ _))

/-- No interrupt comes into the body of `yield`. -/
def Fine.Undisturbed (s : Fine) (e : Event) : Prop :=
  e = .irq → s.walk = none

instance (s : Fine) (e : Event) : Decidable (s.Undisturbed e) :=
  inferInstanceAs (Decidable (_ → _))

-- ============================================================ a late sleeper

/-- The kernel sleeps alone, until the time slice ends in which it is
due. -/
def slumber : List Event :=
  .call (.sleep 0) :: List.replicate 11 .exec ++
    (List.replicate 9 (.irq :: List.replicate 4 .exec)).flatten ++
    .irq :: List.replicate 6 .exec

/-- The kernel, awake, starts a task and yields to it, and it sleeps. -/
def settle : List Event :=
  List.replicate 8 .exec ++ [.call .newTask, .exec, .alloc 3 false] ++
    List.replicate 4 .exec ++ .call .yield :: List.replicate 9 .exec ++
    .call (.sleep 0) :: List.replicate 9 .exec

/-- The kernel yields once more. The semaphore is wrong since idle, so
that an interrupt can come into the body, and it does: between the two
times that the scan reads the ticks for the sleeper. -/
def doze : List Event :=
  slumber ++ (settle ++ (.call .yield :: List.replicate 4 .exec ++
    .irq :: List.replicate 5 .exec))

end Ntibux.Sched
