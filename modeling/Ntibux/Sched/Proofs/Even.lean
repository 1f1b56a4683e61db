/-
The accounts over runs whose steps are all `Clean`.

In every state the semaphore and what is owed to it make 1, and no
suspended task owes anything: whoever is switched to brings the counter
back to 1 alone (`Even`). So it is 1, with interrupts on, wherever a
task's own code runs (`Even.settled`).
-/
import Ntibux.Sched.Proofs.Lock

namespace Ntibux.Sched

variable {s s₀ s' : State} {e : Event} {f : Frame} {rest : List Frame}
  {t next i : Nat} {tr : List (State × Event)}

-- ===================================================== how calls nest

/-- A call that a task's own code makes, or an exception in it, has
nothing under it; a kill has nothing under it but the stub of an
exception. -/
def Nested : List Frame → Prop
  | [] => True
  | .kill _ :: fs => fs = [] ∨ ∃ flag, fs = [.isr .fault flag .push]
  | .isr .fault _ _ :: fs => fs = []
  | .newTask _ _ :: fs => fs = []
  | .killTask _ _ :: fs => fs = []
  | _ :: fs => Nested fs

/-- What lies under a call is nested as well. -/
theorem nested_tail (h : Nested (f :: rest)) : Nested rest := by
  cases f with
  | newTask t pc =>
      rw [show rest = [] from h]
      trivial
  | killTask id pc =>
      rw [show rest = [] from h]
      trivial
  | kill pc =>
      rcases (show rest = [] ∨ _ from h) with h | ⟨flag, h⟩
      · rw [h]
        trivial
      · rw [h]
        rfl
  | isr kind flag pc =>
      cases kind with
      | timer => exact h
      | fault =>
          rw [show rest = [] from h]
          trivial
  | _ => exact h

/-- Calls return and call in such an order that a stack stays nested. -/
theorem inherited_nested : Inherited fun _ fs => Nested fs where
  nil := fun _ => trivial
  follows := by
    intro _ f gs fs hfg h
    cases hfg with
    | returns => exact nested_tail h
    | isr kind flag pc pc' => cases kind <;> exact h
    | slice kind flag pc pc' => cases kind <;> exact h
    | dies flag pc =>
        have h : fs = [] := h
        rw [h]
        exact .inr ⟨flag, rfl⟩
    | _ => exact h
  resume := fun _ _ _ _ h => h

/-- Stubs were entered with interrupts on. -/
theorem inherited_flags :
    Inherited fun _ fs => ∀ f ∈ fs, f.flagOn = true := by
  apply Inherited.of_frame (P := fun _ f => f.flagOn = true)
  · intro _ f gs hfg hf g hg
    cases hfg with
    | returns => cases hg
    | nap pc old next pc' =>
        rcases List.mem_cons.mp hg with rfl | hg
        · rfl
        · rw [List.mem_singleton.mp hg]
          rfl
    | slice kind flag pc pc' =>
        rcases List.mem_cons.mp hg with rfl | hg
        · rfl
        · rw [List.mem_singleton.mp hg]
          exact hf
    | dies flag pc =>
        rcases List.mem_cons.mp hg with rfl | hg
        · rfl
        · rw [List.mem_singleton.mp hg]
          exact hf
    | _ =>
        rw [List.mem_singleton.mp hg]
        exact hf
  · intro _ _ _
    rfl

/-- The idle task kills nothing. -/
theorem inherited_idle :
    Inherited fun t fs => t = i → ∀ f ∈ fs, f.kills = false where
  nil := fun _ _ => nofun
  follows := fun t f gs fs hfg h hti =>
    inherited_quiet.follows t f gs fs hfg (h hti)
  resume := fun t flag pc fs h hti =>
    inherited_quiet.resume t flag pc fs (h hti)

/-- How the calls of a task lie on its stack. -/
structure Shape (fs : List Frame) : Prop where
  nested : Nested fs
  flags : ∀ f ∈ fs, f.flagOn = true

/-- So a stack keeps its shape. -/
theorem inherited_shape : Inherited fun _ fs => Shape fs where
  nil := fun t => ⟨inherited_nested.nil t, inherited_flags.nil t⟩
  follows := fun t f gs fs hfg h =>
    ⟨inherited_nested.follows t f gs fs hfg h.nested,
      inherited_flags.follows t f gs fs hfg h.flags⟩
  resume := fun t flag pc fs h =>
    ⟨inherited_nested.resume t flag pc fs h.nested,
      inherited_flags.resume t flag pc fs h.flags⟩

-- ========================================================= runs with kills

/-- What holds in runs with kills: `Sound`, and the idle task kills
nothing. -/
structure Kept (s : State) : Prop where
  sound : Sound s
  idle : Everywhere (fun t fs => t = s.idle → ∀ f ∈ fs, f.kills = false) s

/-- It holds at the start: no task has made a call. -/
theorem Initial.kept (hi : Initial s) : Kept s :=
  ⟨hi.sound.1, hi.everywhere inherited_idle⟩

namespace Kept

variable (hk : Kept s)
include hk

/-- A kill is not made by the idle task. -/
theorem runner_ne_idle (h : Step s (.killTo t) s') :
    s.runner ≠ s.idle := by
  obtain ⟨f, rest, rest', hst, hf, -⟩ := killTo_inv h
  have hfk : f.Stays ∧ f.kills = true := by
    rcases hf with rfl | ⟨id, rfl⟩ <;> exact ⟨nofun, rfl⟩
  intro hri
  have hno := hk.idle.stack (hk.sound.plain hst hfk.1).2 hri f
    (by rw [hst]; exact List.mem_cons_self)
  rw [hfk.2] at hno
  cases hno

/-- A step keeps it, a kill included, so long as the CPU goes to a task that
is alive. -/
theorem step (hidle : ¬s.IdleBranch e) (hand : s.HandsOver e)
    (h : Step s e s') :
    Kept s' ∧ s'.total + s.dropped e = s.total := by
  have hrun : (∃ t, e = .killTo t) → s.runner ≠ s.idle := by
    intro ⟨t, het⟩
    rw [het] at h
    exact hk.runner_ne_idle h
  obtain ⟨hs', htotal⟩ := hk.sound.step hidle hand hrun h
  refine ⟨⟨hs', ?_⟩, htotal⟩
  rw [step_idle hk.sound hand h]
  apply hk.idle.step hk.sound hs' hand inherited_idle _ h
  intro hev hold hi
  rcases hev with rfl | rfl | ⟨c, rfl⟩
  · rw [(irq_inv h).2]
    intro f hf
    rcases List.mem_cons.mp hf with rfl | hf
    · rfl
    · exact hold hi f hf
  · exact absurd hi (fault_inv h).2.1
  · exact absurd hi (call_inv h).2.1

end Kept

-- ========================================================= even accounts

structure Even (s : State) : Prop where
  kept : Kept s
  total : s.total = 1
  /-- No suspended task owes anything. -/
  paid : ∀ t ∈ s.all, s.debt t = 0
  /-- Nor does the flow that a switch is about to save. -/
  saved : ∀ o n pc, s.stack.head? = some (.switch (some o) n pc) →
    owed s.stack.tail = 0
  /-- A task's own code has interrupts on. -/
  own : s.stack = [] → s.intf = true
  shape : Everywhere (fun _ fs => Shape fs) s

/-- At the start the accounts are even. -/
theorem Initial.even (hi : Initial s) : Even s where
  kept := hi.kept
  total := hi.sound.2
  paid := by
    intro t ht
    unfold State.all at ht
    rw [hi.tasks] at ht
    rcases List.mem_cons.mp ht with rfl | ht
    · obtain ⟨flag, hctx⟩ := hi.idle_ctx
      exact debt_of_ctx hctx
    · rw [List.mem_singleton.mp ht]
      exact debt_of_none hi.kernel_ctx
  saved := by
    rw [hi.stack]
    nofun
  own := fun _ => hi.intf
  shape := hi.everywhere inherited_shape

/-- What a load leaves on the stack, where there is something to
load. -/
theorem load_stack {old : Option Nat} (hs' : Sound (s.contextSwitch old next
    rest)) : ∃ c : Ctx, (s.contextSwitch old next rest).stack
      = .resume c.flag .popf :: c.frames := by
  have hlost := hs'.lost
  change ((s.saveContext old rest).loadContext next).lost = false at hlost
  show ∃ c : Ctx, ((s.saveContext old rest).loadContext next).stack = _
  unfold State.loadContext at hlost ⊢
  split
  · rename_i hc
    rw [hc] at hlost
    cases hlost
  · rename_i c hc
    exact ⟨c, rfl⟩

/-- Where a step comes back to a task's own code, the flag is what
`push_ints` or `iret` makes it. -/
theorem exec_own (hs' : Sound s') (hst : s.stack = f :: rest)
    (hends : ¬s.Ends) (h : s.execFrame rest f = some s')
    (hnil : s'.stack = []) :
    (∃ kind, f = .isr kind s'.intf .iret) ∨
      s'.intf = decide (1 ≤ s'.interruptsSemaphore) := by
  by_cases hload : ∃ old n, f = .switch old n .load
  · obtain ⟨old, n, rfl⟩ := hload
    cases h
    obtain ⟨c, hc⟩ := load_stack hs'
    rw [hc] at hnil
    cases hnil
  · rcases exec_goes hst hends (fun old n hf => hload ⟨old, n, hf⟩) h with
      ⟨-, rfl, -⟩ | ⟨gs, hg⟩
    · rw [hst] at hnil
      cases hnil
    · have hstack := hg.stack
      rw [hnil] at hstack
      exact (hg.back (List.append_eq_nil_iff.mp hstack.symm).1).2

/-- A flow that is about to be saved comes from `yield`'s body. -/
theorem exec_saved {o n : Nat} {pc : SwitchPc} (hs : Sound s)
    (hs' : Sound s') (hst : s.stack = f :: rest)
    (hidle : ¬s.IdleBranch .exec) (hends : ¬s.Ends)
    (h : s.execFrame rest f = some s')
    (hsw : s'.stack.head? = some (.switch (some o) n pc)) :
    s'.stack.tail = rest ∧ (f = .switch (some o) n .release ∨
      f = .yield .body ∧ ∃ next, Leaves s next) := by
  by_cases hload : ∃ old n, f = .switch old n .load
  · obtain ⟨old, n, rfl⟩ := hload
    cases h
    obtain ⟨c, hc⟩ := load_stack hs'
    rw [hc] at hsw
    cases hsw
  · rcases exec_goes hst hends (fun old n hf => hload ⟨old, n, hf⟩) h with
      ⟨hlocks, rfl, -⟩ | ⟨gs, hg⟩
    · rw [hst] at hsw
      injection hsw with hsw
      rw [hsw] at hlocks
      cases hlocks
    · rw [hg.stack] at hsw ⊢
      cases hgs : gs with
      | nil =>
          -- what was called last is at a point where interrupts may come
          rw [hgs] at hsw
          have hf := Frame.stays_of_open (hg.back hgs).1
          have hopen := hs.rest_open hst hf _ (List.mem_of_mem_head? hsw)
          exact absurd rfl (Frame.stays_of_open hopen _ _ _)
      | cons g gs' =>
          rw [hgs] at hsw
          injection hsw with hsw
          rw [hsw] at hgs
          rcases hg.away _ _ _ _ hgs with
            ⟨rfl, hf⟩ | ⟨hf, hi | ⟨rfl, hleaves⟩⟩
          · exact ⟨rfl, .inl hf⟩
          · exact absurd hi hidle
          · exact ⟨rfl, .inr ⟨hf, hleaves⟩⟩

/-- What the total says of a task's own code, where nobody owes. -/
theorem sem_of_total (htotal : s.total = 1)
    (hpaid : ∀ t ∈ s.all, s.debt t = 0) (hnil : s.stack = []) :
    s.interruptsSemaphore = 1 := by
  have hsum : (s.all.map s.debt).sum = 0 := by
    apply List.sum_eq_zero
    intro d hd
    obtain ⟨t, ht, rfl⟩ := List.mem_map.mp hd
    exact hpaid t ht
  unfold State.total at htotal
  rw [hnil, hsum] at htotal
  simpa using htotal

namespace Even

variable (he : Even s)
include he

/-- A clean step leaves nothing behind that is owed. -/
theorem dropped (hc : s.Clean e) : s.dropped e = 0 := by
  cases e with
  | killTo t =>
      have hk := hc.kill
      by_contra h0
      exact hk h0
  | exec =>
      unfold State.dropped
      dsimp only
      split
      · rename_i id _
        apply List.sum_eq_zero
        intro d hd
        obtain ⟨t, ht, rfl⟩ := List.mem_map.mp hd
        exact he.paid t (List.mem_cons_of_mem _ (List.mem_of_mem_filter ht))
      · rfl
  | _ => rfl

/-- A clean step leaves no debt with a suspended task: what a switch saves
owes nothing, and the rest stays as it was. -/
theorem paid_step (hc : s.Clean e) (h : Step s e s') :
    ∀ t ∈ s'.all, s'.debt t = 0 := by
  intro t ht
  have hdebt : ∀ c ∈ s'.ctx t, owed c.frames = 0 → s'.debt t = 0 :=
    fun c hc h0 => (debt_of_ctx hc).trans h0
  cases hctx : s'.ctx t with
  | none => exact debt_of_none hctx
  | some c =>
      apply hdebt c hctx
      rcases step_flow he.kept.sound hc.hands h with
        ⟨old, next, rest, -, hst, hl⟩ | hf
      · rw [hl.all] at ht
        rcases hl.ctx t ht c hctx with hct | ⟨hrest, -, hold⟩
        · rw [← debt_of_ctx hct]
          exact he.paid t ht
        · have hsv := he.saved t next .load
          rw [hst, hold] at hsv
          rw [hrest]
          exact hsv rfl
      · rcases hf.ctx t ht c hctx with hnil | ⟨ht, hct⟩
        · rw [hnil]
          rfl
        · rw [← debt_of_ctx hct]
          exact he.paid t ht

/-- The flow that a clean switch is about to save owes nothing. -/
theorem saved_step (hs' : Sound s') (hc : s.Clean e) (h : Step s e s') :
    ∀ o n pc, s'.stack.head? = some (.switch (some o) n pc) →
      owed s'.stack.tail = 0 := by
  intro o n pc hsw
  cases e with
  | exec =>
      obtain ⟨f, rest, hst, h⟩ := exec_inv h
      obtain ⟨htail, hor⟩ :=
        exec_saved he.kept.sound hs' hst hc.idle hc.hands h hsw
      rcases hor with rfl | ⟨rfl, m, hleaves⟩
      · have hsv := he.saved o n .release
        rw [hst] at hsv
        rw [htail]
        exact hsv rfl
      · -- a body that leaves for another task while its flow owes is not clean
        rw [htail]
        by_contra hne
        apply hc.switch
        refine ⟨rfl, ?_, hleaves.current, ⟨m, hleaves.selected, hleaves.ne⟩,
          ?_⟩
        · rw [hst]
          rfl
        · rw [hst]
          exact hne
  | irq =>
      rw [(irq_inv h).2] at hsw
      cases hsw
  | fault =>
      rw [(fault_inv h).2.2] at hsw
      cases hsw
  | call c =>
      obtain ⟨-, -, s₁, -, heq⟩ := call_inv h
      rw [heq] at hsw
      cases c <;> cases hsw
  | alloc t flag =>
      obtain ⟨u, rest, -, -, heq⟩ := alloc_inv h
      rw [heq] at hsw
      cases hsw
  | killTo t =>
      obtain ⟨f, rest, rest', -, -, hk⟩ := killTo_inv h
      rw [hk.stack] at hsw
      cases hsw

/-- The stacks of all tasks keep their shape. -/
theorem shape_step (hs' : Sound s') (hc : s.Clean e) (h : Step s e s') :
    Everywhere (fun _ fs => Shape fs) s' := by
  apply he.shape.step he.kept.sound hs' hc.hands inherited_shape _ h
  intro hev hold
  rcases hev with rfl | rfl | ⟨c, rfl⟩
  · rw [(irq_inv h).2]
    constructor
    · exact hold.nested
    · intro f hf
      rcases List.mem_cons.mp hf with rfl | hf
      · rfl
      · exact hold.flags f hf
  · obtain ⟨hnil, -, heq⟩ := fault_inv h
    rw [heq]
    constructor
    · rfl
    · intro f hf
      rw [List.mem_singleton.mp hf]
      exact he.own hnil
  · obtain ⟨-, -, s₁, -, heq⟩ := call_inv h
    rw [heq]
    constructor
    · cases c <;> first | trivial | rfl | exact .inl rfl
    · intro f hf
      rw [List.mem_singleton.mp hf]
      cases c <;> rfl

/-- Where no call is under way any more, the last one has left the
interrupts on. -/
theorem own_step (hs' : Sound s') (hsem : s'.interruptsSemaphore = 1)
    (hc : s.Clean e) (h : Step s e s') (hnil : s'.stack = []) :
    s'.intf = true := by
  cases e with
  | exec =>
      obtain ⟨f, rest, hst, h⟩ := exec_inv h
      rcases exec_own hs' hst hc.hands h hnil with ⟨kind, rfl⟩ | hintf
      · have hplain := he.kept.sound.plain hst nofun
        have hsh := he.shape.stack hplain.2
        rw [hst] at hsh
        exact hsh.flags _ List.mem_cons_self
      · rw [hintf, hsem]
        rfl
  | irq =>
      rw [(irq_inv h).2] at hnil
      cases hnil
  | fault =>
      rw [(fault_inv h).2.2] at hnil
      cases hnil
  | call c =>
      obtain ⟨-, -, s₁, -, heq⟩ := call_inv h
      rw [heq] at hnil
      cases hnil
  | alloc t flag =>
      obtain ⟨u, rest, -, -, heq⟩ := alloc_inv h
      rw [heq] at hnil
      cases hnil
  | killTo t =>
      obtain ⟨f, rest, rest', -, -, hk⟩ := killTo_inv h
      rw [hk.stack] at hnil
      cases hnil

/-- Clean steps keep the accounts even. -/
theorem step (hc : s.Clean e) (h : Step s e s') : Even s' := by
  obtain ⟨hk, htotal⟩ := he.kept.step hc.idle hc.hands h
  rw [he.dropped hc, he.total] at htotal
  have htotal : s'.total = 1 := by
    rw [← htotal]
    exact (Int.add_zero _).symm
  have hpaid := he.paid_step hc h
  exact
    { kept := hk
      total := htotal
      paid := hpaid
      saved := he.saved_step hk.sound hc h
      own := fun hnil =>
        he.own_step hk.sound (sem_of_total htotal hpaid hnil) hc h hnil
      shape := he.shape_step hk.sound hc h }

/-- A task's own code has the semaphore at 1, and interrupts on. -/
theorem settled (hnil : s.stack = []) : Settled s :=
  ⟨sem_of_total he.total he.paid hnil, he.own hnil⟩

end Even

/-- A run of clean steps is even in every state it comes to. -/
theorem run_even (hi : Initial s₀) (hr : Run s₀ tr s)
    (hclean : ∀ p ∈ tr, p.1.Clean p.2) : Even s :=
  Run.invariant State.Clean hr hclean hi.even
    fun _ _ _ he hc h => he.step hc h

-- ========================================================= own code

/-- In a run in which tasks yield, sleep and start others, whose yields
stay clear of the idle branch and switch away only in flows that owe
nothing, a task's own code always has the semaphore at 1 and interrupts
on.

The invariant is `Even`: the semaphore and what all flows owe come to 1, no
suspended task owes anything, and neither does the flow that a switch saves.
In a task's own code nothing is under way, so the whole 1 is in the
semaphore. -/
theorem run_settled (hi : Initial s₀) (hr : Run s₀ tr s)
    (hquiet : ∀ p ∈ tr, p.2.quiet = true)
    (hidle : ∀ p ∈ tr, ¬p.1.IdleBranch p.2)
    (hswitch : ∀ p ∈ tr, ¬p.1.DirtySwitch p.2) (hown : s.stack = []) :
    Settled s := by
  have hboth : Quiet s ∧ Even s := by
    apply Run.invariant (fun s e => e.quiet = true ∧ ¬s.IdleBranch e ∧
      ¬s.DirtySwitch e) hr _ ⟨hi.quiet, hi.even⟩
    · intro s e s' ⟨hq, he⟩ ⟨hquiet, hidle, hswitch⟩ h
      have hkill : ¬s.DirtyKill e := by
        cases e <;> first | exact id | cases hquiet
      exact ⟨(hq.step hquiet hidle h).1,
        he.step ⟨hidle, hswitch, hkill, hq.handsOver hquiet⟩ h⟩
    · intro p hp
      exact ⟨hquiet p hp, hidle p hp, hswitch p hp⟩
  exact hboth.2.settled hown

/-- A task that was preempted by the timer and resumed is back in its own
code after two time slices, with the semaphore at 1. -/
theorem run_settled_booted :
    ∃ tr s, Run booted tr s ∧ s.runner = 3 ∧ s.ticks = 20 ∧
      s.stack = [] ∧ Settled s := by
  obtain ⟨tr, s, hr, hok, hrun, hticks, hnil⟩ := booted_preempted
  refine ⟨tr, s, hr, hrun, hticks, hnil, ?_⟩
  apply run_settled booted_initial hr _ _ _ hnil
  · exact fun p hp => (hok p hp).1
  · exact fun p hp => (hok p hp).2.1
  · exact fun p hp => (hok p hp).2.2

/-- The kernel's own code after its sleep: the semaphore is 2. -/
theorem booted_unsettled :
    ∃ tr s, Initial booted ∧ Run booted tr s ∧
      (∀ p ∈ tr, p.2.quiet = true) ∧ s.stack = [] ∧
      s.interruptsSemaphore = 2 ∧ ¬Settled s := by
  obtain ⟨tr, s, hr, hok, hv⟩ := booted_run
    (fun _ e => e.quiet) (nap ++ [.exec, .exec])
    (fun s => (s.stack, s.interruptsSemaphore)) ([], 2)
    (by decide +kernel)
  injection hv with hnil hsem
  refine ⟨tr, s, booted_initial, hr, hok, hnil, hsem, ?_⟩
  intro hset
  have h1 := hset.sem
  rw [hsem] at h1
  cases h1

end Ntibux.Sched
