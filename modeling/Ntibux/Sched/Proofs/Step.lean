/-
One step of the machine keeps `Sound`, and takes from the total what the
calls owe that it leaves behind (`dropped`).

First what a step is, by event, and what the body of `yield` does. The
steps inside the running flow are then `Sound.stay`, `Sound.enter` and
`Sound.leave` at their own values.
-/
import Ntibux.Sched.Proofs.Tasks

namespace Ntibux.Sched

variable {s s' : State} {e : Event} {f : Frame} {rest : List Frame}
  {t next : Nat} {flag : Bool}

-- ======================================================== what a step is

/-- The running flow takes a step only if a call is under way, and it is the
innermost one that goes on. -/
theorem exec_inv (h : Step s .exec s') :
    ∃ f rest, s.stack = f :: rest ∧ s.execFrame rest f = some s' := by
  unfold Step apply at h
  split at h
  · cases h
  · cases hst : s.stack with
    | nil => simp [hst] at h
    | cons f rest => exact ⟨f, rest, rfl, by simpa [hst] using h⟩

/-- While no flow is lost, the innermost call's own step is a step of the
machine. -/
theorem step_exec (hlost : s.lost = false) (hst : s.stack = f :: rest)
    (h : s.execFrame rest f = some s') : Step s .exec s' := by
  unfold Step apply
  rw [hlost, hst]
  exact h

/-- A timer interrupt comes while the flag is set. It clears the flag and
puts the handler on the stack. -/
theorem irq_inv (h : Step s .irq s') :
    s.intf = true ∧
      s' = { s with intf := false }.goto
        (.isr .timer true .pop :: s.stack) := by
  unfold Step apply at h
  split at h
  · cases h
  · cases hi : s.intf with
    | false => simp [hi] at h
    | true =>
        simp only [hi, if_true, Option.some.injEq] at h
        exact ⟨rfl, h.symm⟩

/-- The call that a task's own code makes. -/
def Call.frame : Call → Frame
  | .yield => .yield .pop
  | .sleep _ => .yield .pop
  | .newTask => .newTask 0 .pop
  | .killMe => .kill .pop
  | .killTask id => .killTask id .pop

/-- A task makes a call where none is under way, and not on the idle task.
Its own account may have changed by then, with nothing else. -/
theorem call_inv {c : Call} (h : Step s (.call c) s') :
    s.stack = [] ∧ s.runner ≠ s.idle ∧
      ∃ s₁, Alike s s₁ ∧ s' = s₁.goto [c.frame] := by
  unfold Step apply at h
  split at h
  · cases h
  · cases hst : s.stack with
    | cons f rest => simp [hst] at h
    | nil =>
        simp only [hst] at h
        split at h
        · cases h
        · rename_i hr
          refine ⟨rfl, hr, ?_⟩
          cases c with
          | sleep ms =>
              cases h
              refine ⟨_, ?_, rfl⟩
              exact alike_setTask rfl rfl
          | killTask id =>
              unfold State.enter at h
              dsimp only at h
              split at h
              · cases h
              · cases h
                exact ⟨s, .refl s, rfl⟩
          | _ => cases h; exact ⟨s, .refl s, rfl⟩

/-- An exception is taken between two calls, and saves the interrupt flag
for the way back. -/
theorem fault_inv (h : Step s .fault s') :
    s.stack = [] ∧ s.runner ≠ s.idle ∧
      s' = { s with intf := false }.goto [.isr .fault s.intf .pop] := by
  unfold Step apply at h
  split at h
  · cases h
  · cases hst : s.stack with
    | cons f rest => simp [hst] at h
    | nil =>
        simp only [hst] at h
        split at h
        · cases h
        · rename_i hr
          exact ⟨rfl, hr, (Option.some.inj h).symm⟩

/-- A creation goes on with an object that the heap did not hold until then.
-/
theorem alloc_inv (h : Step s (.alloc t flag) s') :
    ∃ u rest, s.stack = .newTask u .alloc :: rest ∧ t ∉ s.objects ∧
      s' = (s.initTask t flag).goto (.newTask t .lock :: rest) := by
  unfold Step apply at h
  split at h
  · cases h
  · cases hst : s.stack with
    | nil => simp [hst] at h
    | cons f rest =>
        cases f with
        | newTask u pc =>
            cases pc with
            | alloc =>
                simp only [hst] at h
                split at h
                · cases h
                · rename_i hn
                  exact ⟨u, rest, rfl, fun hm => hn (.inr hm),
                    (Option.some.inj h).symm⟩
            | _ => simp [hst] at h
        | _ => simp [hst] at h

/-- A kill of the running task that is handed `t`. -/
theorem killTo_inv (h : Step s (.killTo t) s') :
    ∃ f rest rest', s.stack = f :: rest ∧
      (f = .kill .body ∨ ∃ id, f = .killTask id .body) ∧
      Killed s t rest' s' := by
  unfold Step apply at h
  split at h
  · cases h
  · cases hst : s.stack with
    | nil => simp [hst] at h
    | cons f rest =>
        cases f with
        | kill pc =>
            cases pc with
            | body =>
                simp only [hst] at h
                exact ⟨_, _, _, rfl, .inl rfl, killCurrent_inv h⟩
            | _ => simp [hst] at h
        | killTask id pc =>
            cases pc with
            | body =>
                simp only [hst] at h
                split at h
                · exact ⟨_, _, _, rfl, .inr ⟨id, rfl⟩, killCurrent_inv h⟩
                · cases h
            | _ => simp [hst] at h
        | _ => simp [hst] at h

-- =============================================== what yield's body does

/-- `yield` leaves for `next`. -/
structure Leaves (s : State) (next : Nat) : Prop where
  current : s.current ≠ 0
  selected : s.selected.1 = some next
  ne : next ≠ s.current

/-- With no task found, `yield` stays, unless the current task is one that
has just gone to sleep: then the idle task gets the CPU. -/
theorem yieldBody_none (h0 : s.current ≠ 0) (hn : s.selected.1 = none) :
    s.yieldBody rest =
      if s.current = s.idle then s.selected.2.goto (.yield .release :: rest)
      else if (s.selected.2.task s.current).sleep ≠ 0 then
        s.selected.2.performContextSwitch (some s.current) s.idle
          (.yield .release :: rest)
      else s.selected.2.goto (.yield .release :: rest) := by
  unfold State.yieldBody
  unfold State.selected at hn
  rw [if_neg h0]
  simp only [hn]
  rfl

/-- With a task found, `yield` stays if it is the current one, and switches
to it otherwise. -/
theorem yieldBody_some {next : Nat} (h0 : s.current ≠ 0)
    (hn : s.selected.1 = some next) :
    s.yieldBody rest =
      if s.current = next then s.selected.2.goto (.yield .release :: rest)
      else
        s.selected.2.performContextSwitch (some s.current) next rest := by
  unfold State.yieldBody
  unfold State.selected at hn
  rw [if_neg h0]
  simp only [hn]
  rfl

/-- `yield` stays, goes to idle and will release once more, or leaves for
a task of the list. -/
theorem yieldBody_cases (hst : s.stack = .yield .body :: rest) :
    (∃ s₁, Alike s s₁ ∧
        s.yieldBody rest = s₁.goto (.yield .release :: rest)) ∨
      (s.IdleBranch .exec ∧ s.yieldBody rest
        = s.selected.2.performContextSwitch (some s.current) s.idle
            (.yield .release :: rest)) ∨
      ∃ next, Leaves s next ∧ s.yieldBody rest
        = s.selected.2.performContextSwitch (some s.current) next rest := by
  by_cases h0 : s.current = 0
  · left
    refine ⟨s, .refl s, ?_⟩
    unfold State.yieldBody
    rw [if_pos h0]
  · cases hn : s.selected.1 with
    | none =>
        rw [yieldBody_none h0 hn]
        split
        · exact .inl ⟨s.selected.2, alike_selected, rfl⟩
        · rename_i hi
          split
          · rename_i hsl
            refine .inr (.inl ⟨⟨rfl, ?_, h0, hi, hn, hsl⟩, rfl⟩)
            rw [hst]
            rfl
          · exact .inl ⟨s.selected.2, alike_selected, rfl⟩
    | some next =>
        rw [yieldBody_some h0 hn]
        by_cases hcn : s.current = next
        · rw [if_pos hcn]
          exact .inl ⟨s.selected.2, alike_selected, rfl⟩
        · rw [if_neg hcn]
          exact .inr (.inr ⟨next, ⟨h0, hn, fun h => hcn h.symm⟩, rfl⟩)

/-- Clear of the idle branch, the body of `yield` is sound in each of its
outcomes. -/
theorem yieldBody_sound (hs : Sound s)
    (hst : s.stack = .yield .body :: rest)
    (hidle : ¬s.IdleBranch .exec) :
    Sound (s.yieldBody rest) ∧ (s.yieldBody rest).total = s.total := by
  have hf : (Frame.yield .body).Stays := by
    intro _ _ _ h
    cases h
  have hoff : s.intf = false :=
    hs.intf_off (.yield .body) (by rw [hst]; rfl) rfl
  have hlocked : s.locked = true := by
    rw [hs.locked, hst]
    rfl
  rcases yieldBody_cases hst with
    ⟨s₁, hl, heq⟩ | ⟨hi, -⟩ | ⟨next, hleaves, heq⟩
  · rw [heq, ← hl.total]
    have hs₁ := hl.sound hs
    have hst₁ := hl.stack.trans hst
    apply hs₁.stay hst₁ hf
    · intro _ _ _ h
      cases h
    · intro _
      rw [hl.intf]
      exact hoff
    · rw [hl.locked]
      exact hlocked
    · exact hs₁.plain hst₁ hf
    · rfl
  · -- the idle branch
    exact absurd hi hidle
  · rw [heq]
    have hl := alike_selected.trans (alike_switched (s := s.selected.2) next)
    have hs₁ := hl.sound hs
    have hst₁ := hl.stack.trans hst
    obtain ⟨hcur, hrun⟩ := hs.plain hst hf
    have hrest := hs.rest_open hst hf
    rw [← hl.total]
    apply hs₁.move
    · exact hrest
    · intro g _ _
      rw [hl.intf]
      exact hoff
    · rw [hl.locked]
      exact hlocked
    · apply hl.seat
      refine ⟨rfl, ?_, ?_, hcur, hrun⟩
      · exact List.mem_cons_of_mem _ (selected_mem hleaves.selected)
      · rw [← hcur]
        exact hleaves.ne
    · rw [owed_live hst₁ hf]
      rfl

-- ============================================ the steps of one call

section

variable (hs : Sound s) (hst : s.stack = f :: rest) (hf : f.Stays)
include hs hst

/-- The lock is held if the innermost call holds it. -/
theorem locked_eq : s.locked = f.holds := by
  rw [hs.locked, hst]
  rfl

/-- At a point where no interrupt may come, the flag is clear. -/
theorem intf_eq (hm : f.masked = true) : s.intf = false :=
  hs.intf_off f (by rw [hst]; rfl) hm

include hf

/-- After `pop_ints`, interrupts are off. -/
theorem pop_sound {f' : Frame} (hf' : f'.Stays)
    (hseat : Seat s s.current (some f')) (h0 : f.owed = 0)
    (h1 : f'.owed = 1) (hh : f.holds = f'.holds) :
    Sound (s.popInts.goto (f' :: rest)) ∧
      (s.popInts.goto (f' :: rest)).total = s.total := by
  have hle := hs.sem_le
  apply hs.stay hst hf hf'
  · intro _
    apply decide_eq_false
    omega
  · show s.locked = _
    rw [← hh]
    exact locked_eq hs hst
  · exact hseat
  · show s.interruptsSemaphore - 1 + (f'.owed : Int) = _
    rw [h0, h1]
    push_cast
    omega

/-- `push_ints` is what a call does last. -/
theorem push_sound (h1 : f.owed = 1) (hh : f.holds = false) :
    Sound (s.pushInts.goto rest) ∧
      (s.pushInts.goto rest).total = s.total := by
  apply hs.leave hst hf
  · rw [h1]
    rfl
  · show s.locked = false
    rw [← hh]
    exact locked_eq hs hst

/-- The lock is free when a call comes to it. -/
theorem lock_sound {f' : Frame} (hf' : f'.Stays)
    (hseat : Seat s s.current (some f')) (hm : f.masked = true)
    (hn : f.holds = false) (hh : f'.holds = true)
    (howed : f.owed = f'.owed) :
    Sound (s.lockThen (f' :: rest)) ∧
      (s.lockThen (f' :: rest)).total = s.total := by
  have hfree : s.locked = false := (locked_eq hs hst).trans hn
  have heq : s.lockThen (f' :: rest)
      = { s with locked := true, stack := f' :: rest } := by
    unfold State.lockThen
    rw [hfree]
    rfl
  rw [heq]
  apply hs.stay hst hf hf'
  · intro _
    exact intf_eq hs hst hm
  · exact hh.symm
  · exact hseat
  · rw [howed]

/-- What the innermost call does next costs nothing. -/
theorem next_sound {f' : Frame} {locked : Bool} (hf' : f'.Stays)
    (hseat : Seat s s.current (some f'))
    (hm : f'.masked = true → f.masked = true)
    (hh : locked = f'.holds) (howed : f'.owed = f.owed) :
    let s' : State := { s with locked := locked, stack := f' :: rest }
    Sound s' ∧ s'.total = s.total := by
  apply hs.stay hst hf hf'
  · intro h
    exact intf_eq hs hst (hm h)
  · exact hh
  · exact hseat
  · rw [howed]

end

/-- The calls that a step leaves behind for good, and what they owe: the
callers of a kill, and what the tasks that `kill_task` takes off the
list had to go on with. -/
def State.dropped (s : State) : Event → Nat
  | .killTo _ => owed s.stack.tail
  | .exec =>
      match s.stack.head? with
      | some (.killTask id .scan) =>
          ((s.tasks.filter fun t => (s.task t).id = id).map s.debt).sum
      | _ => 0
  | _ => 0

section

variable (hs : Sound s)
include hs

/-- Each step of `yield` is sound. Only the body needs that the idle branch
is not taken. -/
theorem yield_sound {pc : YieldPc} (hst : s.stack = .yield pc :: rest)
    (hidle : ¬s.IdleBranch .exec)
    (h : s.execFrame rest (.yield pc) = some s') :
    Sound s' ∧ s'.total = s.total := by
  have hf : ∀ pc, (Frame.yield pc).Stays := by
    intro _ _ _ _ h
    cases h
  have hseat := hs.plain hst (hf pc)
  cases pc with
  | pop =>
      cases h
      exact pop_sound hs hst (hf _) (hf _) hseat rfl rfl rfl
  | lock =>
      cases h
      exact lock_sound hs hst (hf _) (hf _) hseat rfl rfl rfl rfl
  | body =>
      cases h
      exact yieldBody_sound hs hst hidle
  | release =>
      cases h
      exact next_sound hs hst (hf _) (hf _) hseat nofun rfl rfl
  | push =>
      cases h
      exact push_sound hs hst (hf _) rfl rfl

/-- A switch gives back the lock, with interrupts still off, and then loads
the next task. -/
theorem switch_sound {old : Option Nat} {pc : SwitchPc}
    (hst : s.stack = .switch old next pc :: rest)
    (h : s.execFrame rest (.switch old next pc) = some s') :
    Sound s' ∧ s'.total = s.total := by
  cases pc with
  | release =>
      cases h
      have hseat := hs.seat
      rw [hst] at hseat
      have hopen := hs.tail_open
      rw [hst] at hopen
      apply hs.move
      · cases old <;> exact hopen
      · intro g _ _
        show s.intf = false
        exact intf_eq hs hst rfl
      · rfl
      · exact hseat
      · rw [hst]
        cases old <;> rfl
  | load =>
      cases h
      exact contextSwitch_sound hs hst

/-- A task that is taken back loads its flags and then pays the `push_ints`
that it had owed. -/
theorem resume_sound {pc : ResumePc}
    (hst : s.stack = .resume flag pc :: rest)
    (h : s.execFrame rest (.resume flag pc) = some s') :
    Sound s' ∧ s'.total = s.total := by
  have hf : ∀ pc, (Frame.resume flag pc).Stays := by
    intro _ _ _ _ h
    cases h
  cases pc with
  | popf =>
      cases h
      apply hs.stay hst (hf _) (hf _)
      · intro h
        cases h
      · show s.locked = false
        exact locked_eq hs hst
      · exact hs.plain hst (hf _)
      · rfl
  | push =>
      cases h
      exact push_sound hs hst (hf _) rfl rfl

/-- A handler keeps the account: what `++` and `--` do to the semaphore is
what the frame owes more or less. -/
theorem isr_sound {kind : IsrKind} {pc : IsrPc}
    (hst : s.stack = .isr kind flag pc :: rest)
    (h : s.execFrame rest (.isr kind flag pc) = some s') :
    Sound s' ∧ s'.total = s.total := by
  have hf : ∀ pc, (Frame.isr kind flag pc).Stays := by
    intro _ _ _ _ h
    cases h
  have hseat := hs.plain hst (hf pc)
  have hfree : s.locked = false := locked_eq hs hst
  cases pc with
  | pop =>
      cases h
      exact pop_sound hs hst (hf _) (hf _) hseat rfl rfl rfl
  | handler =>
      cases kind with
      | timer =>
          -- a tick, and the end of a time slice or not
          have hl := alike_tick (s := s)
          have hs₁ := hl.sound hs
          have hst₁ := hl.stack.trans hst
          have hseat₁ := hs₁.plain hst₁ (hf _)
          have hfree₁ := hl.locked.trans hfree
          rw [← hl.total]
          unfold State.execFrame at h
          dsimp only at h
          split at h
          · cases h
            exact next_sound hs₁ hst₁ (hf _) (hf _) hseat₁ nofun hfree₁ rfl
          · cases h
            exact next_sound hs₁ hst₁ (hf _) (hf _) hseat₁ nofun hfree₁ rfl
      | fault =>
          cases h
          apply hs.enter hst (hf _) rfl rfl _ hfree
          simp only [Frame.owed]
          omega
  | inc =>
      -- the `++` that stands in for the stub's own `push_ints`
      cases h
      apply hs.enter hst (hf _) rfl rfl _ hfree
      show s.interruptsSemaphore + 1 + _ + _ = _
      simp only [Frame.owed]
      omega
  | dec =>
      cases h
      apply hs.stay hst (hf _) (hf _) nofun hfree hseat
      show s.interruptsSemaphore - 1 + _ = _
      simp only [Frame.owed]
      omega
  | push =>
      cases h
      apply hs.stay hst (hf _) (hf _) nofun hfree hseat
      show s.interruptsSemaphore + 1 + _ = _
      simp only [Frame.owed]
      omega
  | iret =>
      cases h
      apply hs.leave hst (hf _) _ hfree
      show s.interruptsSemaphore = _
      simp only [Frame.owed]
      omega

/-- A creation is sound: the new object becomes a task once the lock is
held. -/
theorem newTask_sound {pc : NewTaskPc}
    (hst : s.stack = .newTask t pc :: rest)
    (h : s.execFrame rest (.newTask t pc) = some s') :
    Sound s' ∧ s'.total = s.total := by
  have hf : ∀ pc, (Frame.newTask t pc).Stays := by
    intro _ _ _ _ h
    cases h
  have hplain := hs.plain hst (hf pc)
  have hseat := hs.seat
  rw [hst] at hseat
  cases pc with
  | pop =>
      cases h
      exact pop_sound hs hst (hf _) (hf _) hplain rfl rfl rfl
  | alloc => cases h
  | lock =>
      cases h
      exact lock_sound hs hst (hf _) (hf _) hseat rfl rfl rfl rfl
  | pushBack =>
      cases h
      exact pushBack_sound hs hst
  | release =>
      cases h
      exact next_sound hs hst (hf _) (hf _) hplain nofun rfl rfl
  | push =>
      cases h
      exact push_sound hs hst (hf _) rfl rfl

/-- A task that gives up its own life is sound up to the kill itself, which
is another step. -/
theorem kill_sound {pc : KillPc} (hst : s.stack = .kill pc :: rest)
    (hends : ¬s.Ends) (h : s.execFrame rest (.kill pc) = some s') :
    Sound s' ∧ s'.total = s.total := by
  have hf : ∀ pc, (Frame.kill pc).Stays := by
    intro _ _ _ _ h
    cases h
  have hseat := hs.plain hst (hf pc)
  cases pc with
  | pop =>
      cases h
      exact pop_sound hs hst (hf _) (hf _) hseat rfl rfl rfl
  | lock =>
      cases h
      exact lock_sound hs hst (hf _) (hf _) hseat rfl rfl rfl rfl
  | body =>
      exfalso
      apply hends
      left
      rw [hst]
      rfl

/-- The same for a kill by number. A suspended task that is taken out of the
list takes with it what it owed, the one thing that lowers the total. -/
theorem killTask_sound {id : Nat} {pc : KillTaskPc}
    (hst : s.stack = .killTask id pc :: rest) (hends : ¬s.Ends)
    (h : s.execFrame rest (.killTask id pc) = some s') :
    Sound s' ∧ s'.total + s.dropped .exec = s.total := by
  have hf : ∀ pc, (Frame.killTask id pc).Stays := by
    intro _ _ _ _ h
    cases h
  have hplain := hs.plain hst (hf pc)
  -- only the scan takes tasks out, so only it drops what they owe
  have hdrop : pc ≠ .scan → s.dropped .exec = 0 := by
    intro hpc
    unfold State.dropped
    rw [hst]
    cases pc <;> first | rfl | exact absurd rfl hpc
  have hkeep : pc ≠ .scan → Sound s' ∧ s'.total = s.total →
      Sound s' ∧ s'.total + s.dropped .exec = s.total := by
    intro hpc hk
    rw [hdrop hpc, hk.2]
    exact ⟨hk.1, Int.add_zero _⟩
  cases pc with
  | pop =>
      cases h
      apply hkeep nofun
      exact pop_sound hs hst (hf _) (hf _) hplain rfl rfl rfl
  | lock =>
      cases h
      apply hkeep nofun
      exact lock_sound hs hst (hf _) (hf _) hplain rfl rfl rfl rfl
  | body =>
      have hne : id ≠ (s.task s.current).id := by
        intro hid
        apply hends
        right
        rw [hst, ← hid]
        rfl
      unfold State.execFrame at h
      dsimp only at h
      rw [if_neg hne] at h
      cases h
      apply hkeep nofun
      have hseat : Seat s s.current (some (.killTask id .scan)) := by
        refine ⟨hplain, ?_⟩
        rw [← hplain.1]
        exact hne.symm
      have hheld : s.locked = true := locked_eq hs hst
      exact next_sound hs hst (hf _) (hf _) hseat (fun _ => rfl) hheld rfl
  | scan =>
      cases h
      have hk := killScan_sound hs hst
      have hd : s.dropped .exec
          = ((s.tasks.filter fun t => (s.task t).id = id).map
              s.debt).sum := by
        unfold State.dropped
        rw [hst]
        rfl
      rw [hd]
      exact hk
  | release =>
      cases h
      apply hkeep nofun
      exact next_sound hs hst (hf _) (hf _) hplain nofun rfl rfl
  | push =>
      cases h
      apply hkeep nofun
      exact push_sound hs hst (hf _) rfl rfl

/-- One step of the innermost call. -/
theorem exec_sound (hidle : ¬s.IdleBranch .exec) (hends : ¬s.Ends)
    (h : Step s .exec s') :
    Sound s' ∧ s'.total + s.dropped .exec = s.total := by
  obtain ⟨f, rest, hst, h⟩ := exec_inv h
  have hkeep : s.dropped .exec = 0 → Sound s' ∧ s'.total = s.total →
      Sound s' ∧ s'.total + s.dropped .exec = s.total := by
    intro hd hk
    rw [hd, hk.2]
    exact ⟨hk.1, Int.add_zero _⟩
  have hdrop : ∀ g, s.stack.head? = some g →
      (∀ id, g ≠ .killTask id .scan) → s.dropped .exec = 0 := by
    intro g hg hn
    unfold State.dropped
    dsimp only
    rw [hg]
    split
    · rename_i id heq
      exact absurd (Option.some.inj heq) (hn id)
    · rfl
  have hhead : s.stack.head? = some f := by
    rw [hst]
    rfl
  cases f with
  | yield pc =>
      exact hkeep (hdrop _ hhead nofun) (yield_sound hs hst hidle h)
  | switch old next pc =>
      exact hkeep (hdrop _ hhead nofun) (switch_sound hs hst h)
  | resume flag pc =>
      exact hkeep (hdrop _ hhead nofun) (resume_sound hs hst h)
  | isr kind flag pc =>
      exact hkeep (hdrop _ hhead nofun) (isr_sound hs hst h)
  | newTask t pc =>
      exact hkeep (hdrop _ hhead nofun) (newTask_sound hs hst h)
  | kill pc =>
      exact hkeep (hdrop _ hhead nofun) (kill_sound hs hst hends h)
  | killTask id pc => exact killTask_sound hs hst hends h

/-- A task's own code starts something. -/
theorem begin_sound (hst : s.stack = []) {intf : Bool}
    (hm : f.masked = false) (h0 : f.owed = 0) :
    let s' : State := { s with intf := intf, stack := [f] }
    Sound s' ∧ s'.total = s.total := by
  have hopen : ∀ g ∈ [f], g.masked = false := by
    intro g hg
    rw [List.mem_singleton.mp hg]
    exact hm
  have hlive : live [f] = [f] := live_of_open hopen
  have hplain := hs.seat
  rw [hst] at hplain
  apply hs.move
  · rw [hlive]
    nofun
  · intro g hg hgm
    cases hg
    rw [hm] at hgm
    cases hgm
  · rw [hs.locked, hst]
    exact (Frame.not_holds_of_open hm).symm
  · exact seat_of_open hopen hplain
  · rw [hlive, owed_cons, h0, hst]
    rfl

/-- The start of a call owes nothing. -/
theorem call_sound {c : Call} (h : Step s (.call c) s') :
    Sound s' ∧ s'.total = s.total := by
  obtain ⟨hst, -, s₁, hl, heq⟩ := call_inv h
  have hframe : c.frame.masked = false ∧ c.frame.owed = 0 := by
    cases c <;> exact ⟨rfl, rfl⟩
  rw [heq, ← hl.total]
  exact begin_sound (hl.sound hs) (hl.stack.trans hst) hframe.1 hframe.2

/-- A timer interrupt comes where no call counts on its staying away. -/
theorem irq_sound (h : Step s .irq s') :
    Sound s' ∧ s'.total = s.total := by
  obtain ⟨hon, heq⟩ := irq_inv h
  rw [heq]
  -- interrupts are on, and under a masked frame they are off
  have hopen : ∀ f ∈ s.stack, f.masked = false := by
    cases hst : s.stack with
    | nil => nofun
    | cons f rest =>
        have hf : f.masked = false := by
          cases hm : f.masked with
          | false => rfl
          | true =>
              rw [intf_eq hs hst hm] at hon
              cases hon
        intro g hg
        rcases List.mem_cons.mp hg with rfl | hg
        · exact hf
        · exact hs.rest_open hst (Frame.stays_of_open hf) g hg
  have hfree : s.locked = false := by
    rw [hs.locked]
    cases hst : s.stack with
    | nil => rfl
    | cons f rest =>
        rw [hst] at hopen
        exact Frame.not_holds_of_open (hopen f (by simp))
  have hplain : s.current = s.runner ∧ s.runner ∈ s.all := by
    cases hst : s.stack with
    | nil =>
        have h := hs.seat
        rw [hst] at h
        exact h
    | cons f rest =>
        rw [hst] at hopen
        exact hs.plain hst (Frame.stays_of_open (hopen f (by simp)))
  apply hs.move
  · exact hopen
  · intro g hg hm
    cases hg
    cases hm
  · exact hfree
  · exact hplain
  · rw [live_of_open hopen]
    show s.interruptsSemaphore + ((0 + owed s.stack : Nat) : Int) = _
    rw [Nat.zero_add]

/-- Every step keeps `Sound`, as long as `yield` stays clear of its idle
branch and a kill of the running task hands over to another one. -/
theorem Sound.step (hidle : ¬s.IdleBranch e) (hand : s.HandsOver e)
    (hrun : (∃ t, e = .killTo t) → s.runner ≠ s.idle)
    (h : Step s e s') :
    Sound s' ∧ s'.total + s.dropped e = s.total := by
  have hkeep : s.dropped e = 0 → Sound s' ∧ s'.total = s.total →
      Sound s' ∧ s'.total + s.dropped e = s.total := by
    intro hd hk
    rw [hd, hk.2]
    exact ⟨hk.1, Int.add_zero _⟩
  cases e with
  | exec => exact exec_sound hs hidle hand h
  | irq => exact hkeep rfl (irq_sound hs h)
  | call c => exact hkeep rfl (call_sound hs h)
  | fault =>
      obtain ⟨hst, -, heq⟩ := fault_inv h
      rw [heq] at hkeep ⊢
      exact hkeep rfl (begin_sound hs hst rfl rfl)
  | alloc t flag =>
      obtain ⟨u, rest, hst, hnew, heq⟩ := alloc_inv h
      rw [heq] at hkeep ⊢
      exact hkeep rfl (initTask_sound hs hst hnew)
  | killTo t =>
      obtain ⟨f, rest, rest', hst, hf, hk⟩ := killTo_inv h
      obtain ⟨hmem, hne⟩ := hand
      have hd : s.dropped (.killTo t) = owed rest := by
        show owed s.stack.tail = _
        rw [hst]
        rfl
      rw [hd]
      exact killCurrent_sound hs hst hf (hrun ⟨t, rfl⟩) hmem hne hk

end

end Ntibux.Sched
