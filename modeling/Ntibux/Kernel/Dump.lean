/-
The scheduler's `dump` (scheduler.cpp): a line for the idle task and one
for every task on the list, with its name, its id and how long it has run.

The names are in the task objects, where `strncpy` has copied them when
the tasks were made, so a run is followed here with the name that each
`new_task` is given (`NamedStep`). What is printed is said in terms of the
names, the ids and the ticks alone (`taskInk`, `listInk`).
-/
import Ntibux.Kernel.Reads
import Ntibux.Shell.Basic
import Ntibux.Term.Render

namespace Ntibux

/-- Hz. -/
def CLOCK_FREQ : Nat := 500

/-- `timer::msecs`. -/
def msecs (ticks : Nat) : Nat := u64 (ticks * 1000) / CLOCK_FREQ

open Mem (field)
open Sched (member listEntry)

namespace Scheduler

/-- `printk(format, it->name, it->id, timer::msecs(it->cpu_time))`. -/
def taskCall (format : List UInt8) (m : Mem) (it : Nat) : PrintkCall where
  format := format ++ [0]
  params := [.str (field it .name), .int (m.load (field it .id)),
    .long (msecs (m.load64 (field it .cpuTime)))]

variable (logLevel : UInt8) (m : Mem)

/-- The loop of `scheduler::dump` from `it` on. -/
def dumpLoop (head : Nat) : Nat → Nat → Terminal → Outcome Terminal
  | 0, _, _ => .timeout
  | fuel + 1, it, t =>
      if member it = head then .ret t
      else do
        let c := taskCall (ascii "%8g%s%g(%u) (%U ms)\n") m it
        let (_, t) ← t.printk m.bytes.upFrom logLevel fuel c.format c.params
        dumpLoop head fuel (listEntry (m.links.next (member it))) t

/-- `scheduler::dump()`. -/
def dump (c : Scheduler) (fuel : Nat) (t : Terminal) : Outcome Terminal := do
  let idle := taskCall (ascii "%9g%s%g(%u) (%U ms)\n") m c.idle
  let (_, t) ← t.printk m.bytes.upFrom logLevel fuel idle.format idle.params
  dumpLoop logLevel m c.tasks fuel (listEntry (m.links.next c.tasks)) t

end Scheduler

-- =============================================================== the names

namespace Running

/-- A step with the name that `new_task` is given in it. -/
inductive NamedStep : Running → Event × List UInt8 → Running → Prop
  | newTask {s : Running} {fuel killMe entry t : Nat} {name : List UInt8}
      {c : Scheduler} {m : Mem}
      (hr : s.sched.newTask s.ticks fuel killMe name entry s.mem
        = .ret (t, c, m)) :
      NamedStep s (.newTask t, name)
        ⟨c, s.ticks, ⟨m, stackBlock m t :: object t :: s.heap.live⟩⟩
  | other {s s' : Running} {e : Event} (he : e.creates = false)
      (hs : Step s e s') : NamedStep s (e, []) s'

abbrev NamedRun := Ntibux.Run NamedStep

/-- The run without the names. -/
def calls (tr : List (Running × Event × List UInt8)) :
    List (Running × Event) := tr.map fun p => (p.1, p.2.1)

/-- The names after one more step. -/
def rename (names : Nat → List UInt8) :
    Running × Event × List UInt8 → Nat → List UInt8
  | (_, .newTask t, name) => Function.update names t name
  | _ => names

/-- The names after a run, by object. -/
def names (idle : Nat) (tr : List (Running × Event × List UInt8)) :
    Nat → List UInt8 :=
  tr.foldl rename
    (Function.update (fun _ => ascii "kernel") idle (ascii "idle"))

-- ========================================================== the statements

/-- A name that its field has room for, and that is text. -/
structure Named (name : List UInt8) : Prop where
  noNul : 0 ∉ name
  short : name.length < TASK_NAME_LEN
  noReturn : 0x0d ∉ name

end Running

/-- The colour of a task's name, with the foreground `fg`. -/
def nameColor (fg color : UInt8) : UInt8 := fg ||| (color &&& 0xf0)

/-- The colour behind it. -/
def plainColor (defColor fg color : UInt8) : UInt8 :=
  (defColor &&& (0xf : UInt8)) ||| (nameColor fg color &&& 0xf0)

/-- A task's line. -/
def taskInk (defColor fg color : UInt8) (name : List UInt8)
    (id ms : Nat) : List Ink :=
  name.map (⟨·, nameColor fg color⟩)
    ++ (ascii "(" ++ padded 10 0 id ++ ascii ") (" ++ padded 10 0 ms
      ++ ascii " ms)\n").map (⟨·, plainColor defColor fg color⟩)

/-- The lines of several tasks, with their names, ids and ticks. -/
def listInk (defColor : UInt8) (names : Nat → List UInt8)
    (id ticks : Nat → Nat) : List Nat → UInt8 → List Ink
  | [], _ => []
  | t :: l, color =>
      taskInk defColor 8 color (names t) (id t) (msecs (ticks t))
        ++ listInk defColor names id ticks l (plainColor defColor 8 color)

/-- What `dump` prints. -/
def dumpInk (defColor color : UInt8) (names : Nat → List UInt8)
    (id ticks : Nat → Nat) (idle : Nat) (l : List Nat) : List Ink :=
  taskInk defColor 9 color (names idle) (id idle) (msecs (ticks idle))
    ++ listInk defColor names id ticks l (plainColor defColor 9 color)

end Ntibux
