/-
list.cpp, and `select_next` on the links themselves.

The links of all nodes are two functions of an address. A task is in the
list by a node inside the task object, `TASKS_OFFSET` bytes into it, and
the head is a node of the scheduler's. `LIST_FOREACH_ENTRY` is a loop
that the links can keep from ending, so `selectFrom` counts its turns
and gives up at none.
-/
import Ntibux.Lib.Outcome
import Ntibux.Lib.Ring
import Ntibux.Sched.Basic

namespace Ntibux

-- ============================================================= class list

namespace Links

variable (m : Links Nat) (this : Nat)

/-- `list::init_head`. -/
def initHead : Links Nat :=
  let m := m.setNext this this
  m.setPrev this this

/-- `list::empty`. -/
def empty : Prop := this = m.next this

instance : Decidable (m.empty this) := inferInstanceAs (Decidable (_ = _))

/-- `list::singular`. -/
def singular : Prop := ¬m.empty this ∧ m.next this = m.prev this

instance : Decidable (m.singular this) :=
  inferInstanceAs (Decidable (_ ∧ _))

/-- `list::push`. -/
def push (elt : Nat) : Links Nat :=
  let m := m.setNext elt (m.next this)
  let m := m.setPrev elt this
  let m := m.setPrev (m.next this) elt
  m.setNext this elt

/-- `list::push_back`. -/
def pushBack (elt : Nat) : Links Nat :=
  let m := m.setNext elt this
  let m := m.setPrev elt (m.prev this)
  let m := m.setNext (m.prev this) elt
  m.setPrev this elt

/-- `list::pop`. -/
def pop : Links Nat :=
  let tmp := m.next this
  let m := m.setNext this (m.next tmp)
  let m := m.setPrev (m.next this) this
  let m := m.setNext tmp 0
  m.setPrev tmp 0

/-- `list::pop_back`. -/
def popBack : Links Nat :=
  let tmp := m.prev this
  let m := m.setPrev this (m.prev tmp)
  let m := m.setNext (m.prev this) this
  let m := m.setNext tmp 0
  m.setPrev tmp 0

/-- `list::del`. -/
def del : Links Nat :=
  let m := m.setNext (m.prev this) (m.next this)
  m.setPrev (m.next this) (m.prev this)

/-- The loop of `list::size`. -/
def sizeLoop : Nat → Nat → Nat → Outcome Nat
  | 0, _, _ => .timeout
  | fuel + 1, tmp, size =>
      let tmp := m.next tmp
      let size := u32 (size + 1)
      if tmp ≠ this then sizeLoop fuel tmp size else .ret size

/-- `list::size`. -/
def size (fuel : Nat) : Outcome Nat := m.sizeLoop this fuel (m.next this) 0

/-- `list::rotate`, one link after another. -/
def rotate : Links Nat :=
  if m.empty this ∨ m.singular this then m
  else
    let first := m.next this
    let m := m.setPrev (m.next first) this
    let m := m.setNext (m.prev this) first
    let m := m.setNext this (m.next first)
    let m := m.setNext first this
    let m := m.setPrev first (m.prev this)
    m.setPrev this first

end Links

namespace Sched

-- =========================================================== the run list

/-- `OFFSETOF(tasks, task)`. -/
def TASKS_OFFSET : Nat := 88

/-- `&it->tasks`. -/
def member (it : Nat) : Nat := u32 (it + TASKS_OFFSET)

/-- `LIST_ENTRY`. -/
def listEntry (p : Nat) : Nat := u32 (p + (2 ^ 32 - TASKS_OFFSET))

theorem listEntry_member {it : Nat} (h : it < 2 ^ 32) :
    listEntry (member it) = it := by
  unfold listEntry member u32 TASKS_OFFSET
  omega

theorem member_listEntry {p : Nat} (h : p < 2 ^ 32) :
    member (listEntry p) = p := by
  unfold listEntry member u32 TASKS_OFFSET
  omega

/-- The scheduler's list, with its head at `head`, holds the tasks `l` in
this order. -/
structure RunList (m : Links Nat) (head : Nat) (l : List Nat) : Prop where
  ring : Ring m head (l.map member)
  head_lt : head < 2 ^ 32
  task_lt : ∀ t ∈ l, t < 2 ^ 32

/-- The loop of `scheduler::select_next` from `it` on. -/
def selectFrom (ticks : Nat) (m : Links Nat) (head : Nat) :
    Nat → Nat → (Nat → Task) → Option (Option Nat × (Nat → Task))
  | 0, _, _ => none
  | turns + 1, it, f =>
      if member it = head then some (none, f)
      else if (f it).sleep ≠ 0 then
        let sleeped := u64 (ticks + (2 ^ 64 - (f it).lastSwitched))
        if (f it).sleep ≤ sleeped then
          -- wake up
          some (some it, Function.update f it { f it with sleep := 0 })
        else
          -- sleep more
          selectFrom ticks m head turns (listEntry (m.next (member it)))
            (Function.update f it { f it with
              sleep := (f it).sleep - sleeped, lastSwitched := ticks })
      else some (some it, f)

/-- What the timer and the tasks hold when `select_next` is called. -/
structure Scan where
  ticks : Nat
  task : Nat → Task

/-- `scheduler::select_next`, with the links it leaves. -/
def Scan.selectNext (c : Scan) (head turns : Nat) (m : Links Nat) :
    Option ((Option Nat × (Nat → Task)) × Links Nat) :=
  let m := m.rotate head
  (selectFrom c.ticks m head turns (listEntry (m.next head)) c.task).map
    fun r => (r, m)

/-- One call of `select_next` after another: what each returns, and the
links after the last. Between two calls the links stay, and everything
else is as the next `Scan` has it. -/
def selectCalls (head turns : Nat) :
    List Scan → Links Nat → Option (List (Option Nat) × Links Nat)
  | [], m => some ([], m)
  | c :: cs, m =>
      match c.selectNext head turns m with
      | none => none
      | some (r, m) =>
          (selectCalls head turns cs m).map fun p => (r.1 :: p.1, p.2)

end Sched

end Ntibux
