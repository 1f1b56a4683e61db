/-
What holds in every state of a run that stays clear of `yield`'s idle
branch: the lock is held exactly by the innermost call, with interrupts
off; every other call, suspended or not, is at a point where interrupts
may come; a task has a saved context unless it is the one that runs; and
no more than one `push_ints` is left over.

`Sound` says it and `Sound.step` keeps it. A step changes the running
flow (`Sound.move`), the tasks' own accounts (`Alike`), who runs
(`contextSwitch_sound`), or who is there to run (`initTask_sound`,
`pushBack_sound`, `killCurrent_sound`, `killScan_sound`).
-/
import Ntibux.Sched.Run

namespace Ntibux.Sched

variable {s s' : State} {e : Event} {f : Frame} {fs rest : List Frame}
  {t next : Nat}

-- ============================================================== accounts

@[simp] theorem owed_nil : owed [] = 0 := rfl

@[simp] theorem owed_cons : owed (f :: fs) = f.owed + owed fs := rfl

@[simp] theorem live_nil : live [] = [] := rfl

/-- Only a switch leaves its callers behind. -/
theorem live_cons (hsw : ∀ next pc, f ≠ .switch none next pc) :
    live (f :: fs) = f :: fs := by
  cases f with
  | switch old next pc =>
      cases old with
      | none => exact absurd rfl (hsw next pc)
      | some o => rfl
  | _ => rfl

/-- Calls that can be interrupted are all gone on with. -/
theorem live_of_open (h : ∀ f ∈ fs, f.masked = false) : live fs = fs := by
  cases fs with
  | nil => rfl
  | cons f fs =>
      have hf : f.masked = false := h f (by simp)
      cases f with
      | switch old next pc =>
          cases pc <;> simp [Frame.masked, Frame.holds] at hf
      | _ => rfl

/-- One term of a sum over distinct tasks changes. -/
theorem sum_map_update {l : List Nat} (hl : l.Nodup) (ht : t ∈ l)
    (g : Nat → Nat) (v : Nat) :
    (l.map (Function.update g t v)).sum + g t = (l.map g).sum + v := by
  have hp : l.Perm (t :: l.erase t) := List.perm_cons_erase ht
  have hn : t ∉ l.erase t := (List.nodup_cons.mp (hp.nodup_iff.mp hl)).1
  have hcongr : (l.erase t).map (Function.update g t v)
      = (l.erase t).map g := by
    apply List.map_congr_left
    intro a ha
    rw [Function.update_of_ne]
    intro hat
    exact hn (hat ▸ ha)
  rw [(hp.map _).sum_eq, (hp.map g).sum_eq]
  simp only [List.map_cons, List.sum_cons, Function.update_self, hcongr]
  omega

-- ========================================================= the invariant

/-- A task object that is set up and not yet in the list. -/
def Fresh (s : State) (t : Nat) : Prop :=
  t ∉ s.all ∧ t ∈ s.objects ∧ ∃ flag, s.ctx t = some ⟨flag, []⟩

/-- The innermost call goes with who runs: `current` is the task on the
CPU, but for a switch, which is on its way to `current`. -/
def Seat (s : State) (current : Nat) : Option Frame → Prop
  | some (.switch old next _) =>
      current = next ∧ next ∈ s.all ∧ next ≠ s.runner ∧
        (match old with
        | none => s.runner ∉ s.all
        | some o => o = s.runner ∧ s.runner ∈ s.all)
  | some (.newTask t .lock) | some (.newTask t .pushBack) =>
      (current = s.runner ∧ s.runner ∈ s.all) ∧ Fresh s t
  | some (.killTask id .scan) =>
      (current = s.runner ∧ s.runner ∈ s.all) ∧
        (s.task s.runner).id ≠ id
  | _ => current = s.runner ∧ s.runner ∈ s.all

/-- Tasks, lock and interrupt flag fit the calls that are under way. -/
structure Sound (s : State) : Prop where
  lost : s.lost = false
  nodup : s.all.Nodup
  onHeap : ∀ t ∈ s.all, t ∈ s.objects
  ctx_none : ∀ t ∈ s.all, s.ctx t = none ↔ t = s.runner
  ctx_open : ∀ t ∈ s.all, ∀ c ∈ s.ctx t, ∀ f ∈ c.frames, f.masked = false
  tail_open : ∀ f ∈ (live s.stack).tail, f.masked = false
  intf_off : ∀ f ∈ s.stack.head?, f.masked → s.intf = false
  locked : s.locked = s.stack.head?.any Frame.holds
  seat : Seat s s.current s.stack.head?
  total_le : s.total ≤ 1

-- ================================================= the flow that runs

/-- A step that changes the running flow only. -/
theorem Sound.move (hs : Sound s) {sem : Int} {intf locked : Bool}
    {current : Nat} {stack : List Frame}
    (htail : ∀ f ∈ (live stack).tail, f.masked = false)
    (hintf : ∀ f ∈ stack.head?, f.masked → intf = false)
    (hlocked : locked = stack.head?.any Frame.holds)
    (hseat : Seat s current stack.head?)
    (hsem : sem + (owed (live stack) : Nat)
      = s.interruptsSemaphore + (owed (live s.stack) : Nat)) :
    let s' : State := { s with
      interruptsSemaphore := sem, intf := intf, locked := locked
      current := current, stack := stack }
    Sound s' ∧ s'.total = s.total := by
  intro s'
  have htotal : s'.total = s.total := by
    show sem + (owed (live stack) : Nat) + _ = _
    rw [hsem]
    rfl
  refine ⟨?_, htotal⟩
  exact
    { lost := hs.lost
      nodup := hs.nodup
      onHeap := hs.onHeap
      ctx_none := hs.ctx_none
      ctx_open := hs.ctx_open
      tail_open := htail
      intf_off := hintf
      locked := hlocked
      seat := hseat
      total_le := htotal ▸ hs.total_le }

/-- The innermost call is no switch. -/
def Frame.Stays (f : Frame) : Prop := ∀ old next pc, f ≠ .switch old next pc

/-- A call that can be interrupted does not hold the lock. -/
theorem Frame.not_holds_of_open (h : f.masked = false) : f.holds = false := by
  cases f with
  | yield pc => cases pc <;> simp_all [Frame.masked, Frame.holds]
  | switch old next pc => cases pc <;> simp_all [Frame.masked, Frame.holds]
  | newTask t pc => cases pc <;> simp_all [Frame.masked, Frame.holds]
  | kill pc => cases pc <;> simp_all [Frame.masked, Frame.holds]
  | killTask id pc => cases pc <;> simp_all [Frame.masked, Frame.holds]
  | _ => rfl

/-- A switch cannot be interrupted at any of its points. -/
theorem Frame.stays_of_open (h : f.masked = false) : f.Stays := by
  intro old next pc hf
  subst hf
  cases pc <;> simp [Frame.masked, Frame.holds] at h

/-- Between calls that can be interrupted, all that is asked of who runs is
that `current` says so. -/
theorem seat_of_open (hopen : ∀ f ∈ fs, f.masked = false)
    (hc : s.current = s.runner ∧ s.runner ∈ s.all) :
    Seat s s.current fs.head? := by
  cases fs with
  | nil => exact hc
  | cons f fs =>
      have hf : f.masked = false := hopen f (by simp)
      cases f with
      | switch old next pc =>
          exact absurd rfl (Frame.stays_of_open hf old next pc)
      | newTask t pc =>
          cases pc <;> first
            | exact hc
            | simp [Frame.masked, Frame.holds] at hf
      | killTask id pc =>
          cases pc <;> first
            | exact hc
            | simp [Frame.masked, Frame.holds] at hf
      | _ => exact hc

/-- What the flow owes is the debt of its innermost call and that of the
calls behind it. -/
theorem owed_live (hst : s.stack = f :: rest) (hf : f.Stays) :
    owed (live s.stack) = f.owed + owed rest := by
  rw [hst, live_cons fun next pc => hf none next pc]
  rfl

namespace Sound

variable (hs : Sound s)
include hs

/-- The semaphore is at most 1, since debts only add to it. -/
theorem sem_le : s.interruptsSemaphore ≤ 1 := by
  have h := hs.total_le
  unfold State.total at h
  omega

variable (hst : s.stack = f :: rest) (hf : f.Stays)
include hst hf

/-- The calls behind the innermost one can be interrupted. -/
theorem rest_open : ∀ g ∈ rest, g.masked = false := by
  have h := hs.tail_open
  rw [hst, live_cons fun next pc => hf none next pc] at h
  exact h

/-- Who runs is `current`. -/
theorem plain : s.current = s.runner ∧ s.runner ∈ s.all := by
  have h := hs.seat
  rw [hst] at h
  cases f with
  | switch old next pc => exact absurd rfl (hf old next pc)
  | newTask t pc => cases pc <;> first | exact h | exact h.1
  | killTask id pc => cases pc <;> first | exact h | exact h.1
  | _ => exact h

/-- The innermost call goes on to its next point. -/
theorem stay {f' : Frame} {sem : Int} {intf locked : Bool}
    (hf' : f'.Stays) (hintf : f'.masked = true → intf = false)
    (hlocked : locked = f'.holds)
    (hseat : Seat s s.current (some f'))
    (hsem : sem + f'.owed = s.interruptsSemaphore + f.owed) :
    let s' : State := { s with
      interruptsSemaphore := sem, intf := intf, locked := locked
      stack := f' :: rest }
    Sound s' ∧ s'.total = s.total := by
  have hlive : live (f' :: rest) = f' :: rest :=
    live_cons fun next pc => hf' none next pc
  apply hs.move
  · rw [hlive]
    exact hs.rest_open hst hf
  · intro g hg
    cases hg
    exact hintf
  · exact hlocked
  · exact hseat
  · rw [hlive, owed_live hst hf, owed_cons]
    push_cast
    omega

/-- The innermost call makes another. -/
theorem enter {f' g : Frame} {sem : Int} {intf : Bool}
    (hf' : f'.masked = false) (hg : g.masked = false)
    (hsem : sem + f'.owed + g.owed = s.interruptsSemaphore + f.owed)
    (hlocked : s.locked = false) :
    let s' : State := { s with
      interruptsSemaphore := sem, intf := intf
      stack := f' :: g :: rest }
    Sound s' ∧ s'.total = s.total := by
  have hrest := hs.rest_open hst hf
  have hopen : ∀ h ∈ f' :: g :: rest, h.masked = false := by
    intro h hh
    rcases List.mem_cons.mp hh with rfl | hh
    · exact hf'
    · rcases List.mem_cons.mp hh with rfl | hh
      · exact hg
      · exact hrest h hh
  have hlive : live (f' :: g :: rest) = f' :: g :: rest :=
    live_of_open hopen
  apply hs.move
  · rw [hlive]
    intro h hh
    exact hopen h (List.mem_cons_of_mem _ hh)
  · intro h hh hm
    cases hh
    rw [hf'] at hm
    cases hm
  · rw [hlocked]
    exact (Frame.not_holds_of_open hf').symm
  · exact seat_of_open hopen (hs.plain hst hf)
  · rw [hlive, owed_live hst hf, owed_cons, owed_cons]
    push_cast
    omega

/-- The innermost call returns. -/
theorem leave {sem : Int} {intf : Bool}
    (hsem : sem = s.interruptsSemaphore + f.owed)
    (hlocked : s.locked = false) :
    let s' : State := { s with
      interruptsSemaphore := sem, intf := intf, stack := rest }
    Sound s' ∧ s'.total = s.total := by
  have hopen := hs.rest_open hst hf
  have hlive : live rest = rest := live_of_open hopen
  apply hs.move
  · rw [hlive]
    intro g hg
    exact hopen g (List.mem_of_mem_tail hg)
  · intro g hg hm
    rw [hopen g (List.mem_of_mem_head? hg)] at hm
    cases hm
  · rw [hlocked]
    cases hr : rest with
    | nil => rfl
    | cons g gs =>
        rw [hr] at hopen
        exact (Frame.not_holds_of_open (hopen g (by simp))).symm
  · exact seat_of_open hopen (hs.plain hst hf)
  · rw [hlive, owed_live hst hf]
    push_cast
    omega

end Sound

-- ================================================ the tasks' accounts

/-- Two states with the same flow and the same tasks, in any order, that
may differ in the times on record. -/
structure Alike (s s' : State) : Prop where
  lost : s'.lost = s.lost
  idle : s'.idle = s.idle
  tasks : s'.tasks.Perm s.tasks
  objects : s'.objects = s.objects
  runner : s'.runner = s.runner
  ctx : s'.ctx = s.ctx
  id : ∀ t, (s'.task t).id = (s.task t).id
  current : s'.current = s.current
  sem : s'.interruptsSemaphore = s.interruptsSemaphore
  intf : s'.intf = s.intf
  locked : s'.locked = s.locked
  stack : s'.stack = s.stack

namespace Alike

theorem refl (s : State) : Alike s s :=
  ⟨rfl, rfl, .refl _, rfl, rfl, rfl, fun _ => rfl, rfl, rfl, rfl, rfl, rfl⟩

theorem trans {s'' : State} (h : Alike s s') (h' : Alike s' s'') :
    Alike s s'' where
  lost := h'.lost.trans h.lost
  idle := h'.idle.trans h.idle
  tasks := h'.tasks.trans h.tasks
  objects := h'.objects.trans h.objects
  runner := h'.runner.trans h.runner
  ctx := h'.ctx.trans h.ctx
  id := fun t => (h'.id t).trans (h.id t)
  current := h'.current.trans h.current
  sem := h'.sem.trans h.sem
  intf := h'.intf.trans h.intf
  locked := h'.locked.trans h.locked
  stack := h'.stack.trans h.stack

variable (h : Alike s s')
include h

/-- The tasks are the same ones, the idle task included. -/
theorem all : s'.all.Perm s.all := by
  unfold State.all
  rw [h.idle]
  exact h.tasks.cons _

/-- A task of the one is a task of the other. -/
theorem mem_all : t ∈ s'.all ↔ t ∈ s.all := h.all.mem_iff

/-- What a suspended task owes is on its stack, which is the same. -/
theorem debt : s'.debt = s.debt := by
  funext t
  unfold State.debt
  rw [h.ctx]

/-- So is what all the tasks owe together. -/
theorem total : s'.total = s.total := by
  unfold State.total
  rw [h.sem, h.stack, h.debt, (h.all.map _).sum_eq]

/-- A task object that waits for its place in the list still waits for it.
-/
theorem fresh (ht : Fresh s t) : Fresh s' t := by
  obtain ⟨hnew, hheap, hctx⟩ := ht
  refine ⟨mt h.mem_all.mp hnew, ?_, ?_⟩
  · rw [h.objects]
    exact hheap
  · rw [h.ctx]
    exact hctx

/-- The innermost call goes with who runs in both. -/
theorem seat {current : Nat} {f : Option Frame}
    (hf : Seat s current f) : Seat s' current f := by
  unfold Seat at hf ⊢
  rw [h.runner]
  split at hf
  · obtain ⟨hc, hn, hne, ho⟩ := hf
    refine ⟨hc, h.mem_all.mpr hn, hne, ?_⟩
    split at ho
    · exact mt h.mem_all.mp ho
    · exact ⟨ho.1, h.mem_all.mpr ho.2⟩
  · exact ⟨⟨hf.1.1, h.mem_all.mpr hf.1.2⟩, h.fresh hf.2⟩
  · exact ⟨⟨hf.1.1, h.mem_all.mpr hf.1.2⟩, h.fresh hf.2⟩
  · refine ⟨⟨hf.1.1, h.mem_all.mpr hf.1.2⟩, ?_⟩
    rw [h.id]
    exact hf.2
  · exact ⟨hf.1, h.mem_all.mpr hf.2⟩

/-- Nothing that `Sound` speaks of tells two alike states apart. The order
of the list is left open, so that the scheduler may turn it. -/
theorem sound (hs : Sound s) : Sound s' where
  lost := h.lost.trans hs.lost
  nodup := h.all.nodup_iff.mpr hs.nodup
  onHeap := by
    intro t ht
    rw [h.objects]
    exact hs.onHeap t (h.mem_all.mp ht)
  ctx_none := by
    intro t ht
    rw [h.ctx, h.runner]
    exact hs.ctx_none t (h.mem_all.mp ht)
  ctx_open := by
    intro t ht
    rw [h.ctx]
    exact hs.ctx_open t (h.mem_all.mp ht)
  tail_open := h.stack ▸ hs.tail_open
  intf_off := by
    rw [h.stack, h.intf]
    exact hs.intf_off
  locked := by
    rw [h.stack, h.locked]
    exact hs.locked
  seat := by
    rw [h.stack, h.current]
    exact h.seat hs.seat
  total_le := h.total ▸ hs.total_le

end Alike

/-- Times on record. -/
theorem alike_setTask {v : Task} (hv : v.ctx = s.ctx t)
    (hid : v.id = (s.task t).id) : Alike s (s.setTask t v) where
  lost := rfl
  idle := rfl
  tasks := .refl _
  objects := rfl
  runner := rfl
  ctx := by
    funext a
    show (Function.update s.task t v a).ctx = _
    by_cases ha : a = t
    · rw [ha, Function.update_self, hv]
    · rw [Function.update_of_ne ha]
      rfl
  id := by
    intro a
    show (Function.update s.task t v a).id = _
    by_cases ha : a = t
    · rw [ha, Function.update_self, hid]
    · rw [Function.update_of_ne ha]
  current := rfl
  sem := rfl
  intf := rfl
  locked := rfl
  stack := rfl

/-- `last_switched` is set. -/
theorem alike_switched (t : Nat) : Alike s
    (s.setTask t { s.task t with lastSwitched := s.ticks }) :=
  alike_setTask rfl rfl

/-- A tick counts for the current task and moves no one. -/
theorem alike_tick : Alike s s.tick := by
  have h : Alike s (s.setTask s.current { s.task s.current with
      cpuTime := u64 ((s.task s.current).cpuTime + 1) }) :=
    alike_setTask rfl rfl
  exact { h with }

-- ================================================== selecting the next

/-- Turning the list keeps its tasks. -/
theorem rotate_perm (l : List Nat) : (rotate l).Perm l := by
  cases l with
  | nil => exact .refl _
  | cons a l => exact List.perm_append_singleton a l

/-- Selecting changes sleep times only. -/
theorem selectLoop_task (ticks : Nat) (l : List Nat) (g : Nat → Task)
    (t : Nat) :
    ((selectLoop ticks l g).2 t).ctx = (g t).ctx ∧
      ((selectLoop ticks l g).2 t).id = (g t).id := by
  induction l generalizing g with
  | nil => exact ⟨rfl, rfl⟩
  | cons a l ih =>
      have hupd : ∀ v : Task, v.ctx = (g a).ctx → v.id = (g a).id →
          (Function.update g a v t).ctx = (g t).ctx ∧
            (Function.update g a v t).id = (g t).id := by
        intro v hv hid
        by_cases hta : t = a
        · rw [hta, Function.update_self]
          exact ⟨hv, hid⟩
        · rw [Function.update_of_ne hta]
          exact ⟨rfl, rfl⟩
      unfold selectLoop
      dsimp only
      split
      · split
        · exact hupd _ rfl rfl
        · rw [(ih _).1, (ih _).2]
          exact hupd _ rfl rfl
      · exact ⟨rfl, rfl⟩

/-- What is selected is in the list. -/
theorem selectLoop_mem {ticks : Nat} {l : List Nat} {g : Nat → Task}
    (h : (selectLoop ticks l g).1 = some next) : next ∈ l := by
  induction l generalizing g with
  | nil => cases h
  | cons a l ih =>
      unfold selectLoop at h
      dsimp only at h
      split at h
      · split at h
        · injection h with h
          rw [h]
          exact List.mem_cons_self
        · exact List.mem_cons_of_mem _ (ih h)
      · injection h with h
        rw [h]
        exact List.mem_cons_self

/-- The search for the next task turns the list and leaves the tasks alone.
-/
theorem alike_selectNext : Alike s s.selectNext.2 where
  lost := rfl
  idle := rfl
  tasks := rotate_perm _
  objects := rfl
  runner := rfl
  ctx := funext fun t => (selectLoop_task _ _ _ t).1
  id := fun t => (selectLoop_task _ _ _ t).2
  current := rfl
  sem := rfl
  intf := rfl
  locked := rfl
  stack := rfl

/-- So does all that `yield` does before it knows the next task. -/
theorem alike_selected : Alike s s.selected.2 :=
  (alike_switched s.current).trans alike_selectNext

/-- The task that was found is one of the list. -/
theorem selected_mem (h : s.selected.1 = some next) : next ∈ s.tasks :=
  (rotate_perm _).mem_iff.mp (selectLoop_mem h)

-- ============================================================ the start

/-- At the start nothing is owed, and the semaphore is 1. -/
theorem Initial.sound (hi : Initial s) : Sound s ∧ s.total = 1 := by
  obtain ⟨flag, hidle⟩ := hi.idle_ctx
  have hall : s.all = [s.idle, s.runner] := by
    unfold State.all
    rw [hi.tasks]
  have hmem : ∀ {t}, t ∈ s.all ↔ t = s.idle ∨ t = s.runner := by
    intro t
    rw [hall]
    simp
  -- the kernel task runs, and idle's context has no call to come back to
  have htotal : s.total = 1 := by
    have hdi : s.debt s.idle = 0 := by
      show ctxOwed (s.task s.idle).ctx = 0
      rw [hidle]
      rfl
    have hdr : s.debt s.runner = 0 := by
      show ctxOwed (s.task s.runner).ctx = 0
      rw [hi.kernel_ctx]
      rfl
    unfold State.total
    rw [hi.sem, hi.stack, hall]
    simp [hdi, hdr]
  refine ⟨?_, htotal⟩
  exact
    { lost := hi.lost
      nodup := by
        rw [hall]
        simpa using hi.idle_ne
      onHeap := by
        intro t ht
        rw [hi.objects]
        rw [hall] at ht
        exact ht
      ctx_none := by
        intro t ht
        rcases hmem.mp ht with rfl | rfl
        · apply iff_of_false _ hi.idle_ne
          show (s.task s.idle).ctx ≠ none
          rw [hidle]
          exact Option.some_ne_none _
        · exact iff_of_true hi.kernel_ctx rfl
      ctx_open := by
        intro t ht c hc
        change c ∈ (s.task t).ctx at hc
        rcases hmem.mp ht with rfl | rfl
        · rw [hidle] at hc
          cases hc
          nofun
        · rw [hi.kernel_ctx] at hc
          cases hc
      tail_open := by
        rw [hi.stack]
        nofun
      intf_off := by
        rw [hi.stack]
        nofun
      locked := by
        rw [hi.locked, hi.stack]
        rfl
      seat := by
        rw [hi.stack]
        exact ⟨hi.current, hmem.mpr (.inr rfl)⟩
      total_le := htotal.le }

end Ntibux.Sched
