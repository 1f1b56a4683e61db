/-
The scheduler as a client of the heap, from bring-up on.

# The client

On the heap's memory a call of the scheduler is made of what any client
of the heap may do: it takes and gives back blocks, and writes into
blocks in use or outside the reserve. The lemma about each call says so
beside the rest (`Created`, `Turned`, `Sound.killed`), and
`Sound.step_reaches` collects it. So the heap below a run of the
scheduler is in a run of its own (`run_reaches`), and what holds along
every run of the heap holds under the scheduler.

# From bring-up on

`mem::init` leaves the heap in an initial state, and the scheduler's node
is in the kernel's image, below the zone. So `boot_run_kept` starts from
a machine and not from an assumption about the heap: in every run after
`mem::init` and `scheduler::init` the list is that of the tasks alive,
their objects are blocks in use, all blocks lie apart, and none has a
byte that bring-up handed out.
-/
import Ntibux.Kernel.Proofs.Reads
import Ntibux.Mem.Proofs.Started

namespace Ntibux

-- ========================================================== the scheduler

namespace Running

open HeapState (Reaches)
open Mem (field)

variable {m m' : Mem} {s s₀ s' : Running} {c : Scheduler} {e : Event}
  {tr : List (Running × Event)} {al : List (Nat × Nat)} {l : List Nat}
  {fuel ticks : Nat}

-- ============================================================== the steps

/-- On the heap every step is what the heap's clients may do. -/
theorem Sound.step_reaches (hs : Sound s al l)
    (hid : e.creates = true → s.sched.nextId + 1 < 2 ^ 32)
    (hstep : Step s e s') : Reaches s.heap s'.heap := by
  have hd := hs.held
  cases hstep with
  | newTask hr =>
      have hlt := Nat.lt_trans (Nat.lt_succ_self _) (hid rfl)
      exact (newTask_created hd hlt hr).reaches
  | yield hr =>
      exact (yield_turned hd List.mem_cons_self hs.current hr).reaches
  | tick =>
      exact hd.fields_reaches
        (store64_wrote hs.current (by decide) (by decide) _)
  | killTask h0 hcur hr => exact (hs.killed h0 hcur hr).2.2.2.2
  | heap hh hl => exact .step hh

/-- Below a run of the scheduler the heap is in a run of its own. -/
theorem run_reaches (hi : Initial s₀) (hr : Run s₀ tr s)
    (hfew : tr.countP (·.2.creates) < 2 ^ 32 - Sched.AVAILABLE_IDS) :
    Reaches s₀.heap s.heap := by
  induction hr with
  | nil => exact .refl _
  | @snoc tr s s' e hr hstep ih =>
      rw [List.countP_append, List.countP_singleton] at hfew
      have hfew' : tr.countP (·.2.creates) < 2 ^ 32 - Sched.AVAILABLE_IDS :=
        Nat.lt_of_le_of_lt (Nat.le_add_right _ _) hfew
      obtain ⟨⟨l, hs⟩, hnext, -⟩ := run_sound hi hr hfew'
      refine (ih hfew').trans (hs.step_reaches (fun hc => ?_) hstep)
      have hone : (if (s, e).2.creates = true then 1 else 0) = 1 := if_pos hc
      rw [hone] at hfew
      unfold Sched.AVAILABLE_IDS at hfew hnext
      omega

-- ========================================================== from boot on

section Boot

open Mem Layout

variable {kalloc : Kalloc} {ram : Bytes} {m₀ : Mem}
  {highMem kend total tasks stackTop stackBottom busyLoop fuel' : Nat}

/-- The state that `mem::init` and then `scheduler::init` leave. -/
def booted (c : Scheduler) (ticks : Nat) (m : Mem) : Running :=
  ⟨c, ticks, ⟨m, [stackBlock m c.idle, object c.idle, object c.current]⟩⟩

/-- The zone is above the kernel's image. -/
theorem kend_le_zone (hsep : Separate kend total) :
    kend ≤ zoneAt kend total := by
  have habove := hsep.2
  unfold bringUpEnd spareAt blocksAt tablesAt directoryAt bitmapAt pageUp
    at habove
  omega

/-- `scheduler::init` on the heap that `mem::init` has brought up. -/
theorem boot_initial (ht : u32 (highMem <<< 10) = total)
    (hsep : Separate kend total) (hlink : LinkReads kend total ram)
    (hboot : (Mem.new ram).init kalloc kend fuel highMem = .ret m)
    (hnode : tasks + 8 ≤ kend)
    (hinit : Scheduler.init fuel' tasks stackTop stackBottom busyLoop ticks m
      = .ret (c, m₀)) :
    Initial (booted c ticks m₀) ∧
      Reaches ⟨m, []⟩ (booted c ticks m₀).heap := by
  have h0 := HeapState.init_initial ht hsep hlink hboot
  obtain ⟨-, -, p, hl, rfl⟩ := HeapState.init_separate ht hsep hboot
  have hmin : (p.enablePaging).kheap.minOrder = 12 := hl.minOrder
  have hzone : (p.enablePaging).kheap.freeZone = zoneAt kend total :=
    hl.freeZone
  have hbelow : tasks + 8 ≤ (p.enablePaging).kheap.freeZone := by
    have hkend := kend_le_zone hsep
    omega
  exact ⟨.init h0 hmin .nil hbelow hinit,
    (init_inited (run_housed h0 hmin .nil hbelow) hinit).reaches⟩

end Boot

end Running

end Ntibux
