/-
What holds of the calls under way, by what a call can turn into.

A step rewrites the innermost call, or puts another on top of it, and
what comes of a call is told by the call alone (`Follows`). So a property
of stacks that is handed on this way, and that holds where an event has
started a call, holds of the stacks of all tasks in every state
(`Everywhere.step`).
-/
import Ntibux.Sched.Proofs.Step

namespace Ntibux.Sched

variable {s s' : State} {e : Event} {f g : Frame} {rest gs : List Frame}
  {t next : Nat}

/-- What the innermost call can turn into, with the call that it makes
on top. -/
inductive Follows : Frame → List Frame → Prop
  | returns (f : Frame) : Follows f []
  | yield (pc pc' : YieldPc) : Follows (.yield pc) [.yield pc']
  | away (pc : YieldPc) (old : Option Nat) (next : Nat) (pc' : SwitchPc) :
      Follows (.yield pc) [.switch old next pc']
  | nap (pc : YieldPc) (old : Option Nat) (next : Nat) (pc' : SwitchPc) :
      Follows (.yield pc) [.switch old next pc', .yield .release]
  | switch (old : Option Nat) (next : Nat) (pc pc' : SwitchPc) :
      Follows (.switch old next pc) [.switch old next pc']
  | resume (flag : Bool) (pc pc' : ResumePc) :
      Follows (.resume flag pc) [.resume flag pc']
  | isr (kind : IsrKind) (flag : Bool) (pc pc' : IsrPc) :
      Follows (.isr kind flag pc) [.isr kind flag pc']
  | slice (kind : IsrKind) (flag : Bool) (pc pc' : IsrPc) :
      Follows (.isr kind flag pc) [.yield .pop, .isr kind flag pc']
  | dies (flag : Bool) (pc : IsrPc) :
      Follows (.isr .fault flag pc) [.kill .pop, .isr .fault flag .push]
  | newTask (t u : Nat) (pc pc' : NewTaskPc) :
      Follows (.newTask t pc) [.newTask u pc']
  | kill (pc pc' : KillPc) : Follows (.kill pc) [.kill pc']
  | killTask (id : Nat) (pc pc' : KillTaskPc) :
      Follows (.killTask id pc) [.killTask id pc']

/-- What a step of the innermost call makes of the rest of the machine,
where it neither loads a context nor kills the running task. -/
structure Goes (s : State) (f : Frame) (rest gs : List Frame)
    (s' : State) : Prop where
  follows : Follows f gs
  stack : s'.stack = gs ++ rest
  objects : s'.objects.Sublist s.objects
  lost : s'.lost = s.lost
  locked : s'.locked = (f.locks || !f.releases && s.locked)
  /-- A call returns from an interrupt or from `push_ints`. -/
  back : gs = [] → f.masked = false ∧
    ((∃ kind, f = .isr kind s'.intf .iret) ∨
      s'.intf = decide (1 ≤ s'.interruptsSemaphore))
  /-- A flow that is about to be saved comes from `yield`. -/
  away : ∀ o n pc gs', gs = .switch (some o) n pc :: gs' →
    gs' = [] ∧ f = .switch (some o) n .release ∨ f = .yield .body ∧
      (s.IdleBranch .exec ∨ gs' = [] ∧ ∃ next, Leaves s next)

/-- One step of the innermost call. -/
theorem exec_goes (hst : s.stack = f :: rest) (hends : ¬s.Ends)
    (hload : ∀ old n, f ≠ .switch old n .load)
    (h : s.execFrame rest f = some s') :
    f.locks = true ∧ s' = s ∧ s.locked = true ∨
      ∃ gs, Goes s f rest gs s' := by
  -- `lock()` either spins, which is the first alternative, or goes on
  have hlock : ∀ g, f.locks = true → Follows f [g] → g.Stays →
      s' = s.lockThen (g :: rest) →
      f.locks = true ∧ s' = s ∧ s.locked = true ∨
        ∃ gs, Goes s f rest gs s' := by
    intro g hf hg hstays heq
    unfold State.lockThen at heq
    split at heq
    · rename_i hl
      exact .inl ⟨hf, heq, hl⟩
    · right
      rw [heq]
      refine ⟨[g], hg, rfl, .refl _, rfl, by rw [hf]; rfl, nofun, ?_⟩
      intro o n pc gs' hgs
      injection hgs with hg _
      exact absurd hg (hstays _ _ _)
  cases f with
  | yield pc =>
      cases pc with
      | pop =>
          cases h
          exact .inr ⟨_, .yield _ .lock, rfl, .refl _, rfl, rfl, nofun, nofun⟩
      | lock => cases h; exact hlock _ rfl (.yield _ .body) nofun rfl
      | body =>
          cases h
          right
          -- it stays, naps behind the idle task, or goes to the next one
          rcases yieldBody_cases hst with
            ⟨s₁, hl, heq⟩ | ⟨hi, heq⟩ | ⟨next, hleaves, heq⟩
          · rw [heq]
            exact ⟨_, .yield _ .release, rfl, hl.objects ▸ .refl _, hl.lost,
              hl.locked, nofun, nofun⟩
          · rw [heq]
            refine ⟨_, .nap _ _ _ _, rfl, .refl _, rfl, rfl, nofun, ?_⟩
            intro _ _ _ _ _
            exact .inr ⟨rfl, .inl hi⟩
          · rw [heq]
            refine ⟨_, .away _ _ _ _, rfl, .refl _, rfl, rfl, nofun, ?_⟩
            intro _ _ _ _ hgs
            cases hgs
            exact .inr ⟨rfl, .inr ⟨rfl, next, hleaves⟩⟩
      | release =>
          cases h
          exact .inr ⟨_, .yield _ .push, rfl, .refl _, rfl, rfl, nofun, nofun⟩
      | push =>
          cases h
          exact .inr ⟨_, .returns _, rfl, .refl _, rfl, rfl,
            fun _ => ⟨rfl, .inr rfl⟩, nofun⟩
  | switch old n pc =>
      cases pc with
      | release =>
          cases h
          refine .inr ⟨_, .switch _ _ _ .load, rfl, .refl _, rfl, rfl, nofun,
            ?_⟩
          intro _ _ _ _ hgs
          cases hgs
          exact .inl ⟨rfl, rfl⟩
      | load => exact absurd rfl (hload old n)
  | resume flag pc =>
      cases pc with
      | popf =>
          cases h
          exact .inr ⟨_, .resume _ _ .push, rfl, .refl _, rfl, rfl, nofun,
            nofun⟩
      | push =>
          cases h
          exact .inr ⟨_, .returns _, rfl, .refl _, rfl, rfl,
            fun _ => ⟨rfl, .inr rfl⟩, nofun⟩
  | isr kind flag pc =>
      cases pc with
      | handler =>
          cases kind with
          | timer =>
              unfold State.execFrame at h
              dsimp only at h
              split at h <;>
                (cases h
                 exact .inr ⟨_, .isr _ _ _ _, rfl, .refl _, rfl, rfl, nofun,
                  nofun⟩)
          | fault =>
              cases h
              exact .inr ⟨_, .dies _ _, rfl, .refl _, rfl, rfl, nofun, nofun⟩
      | inc =>
          cases h
          exact .inr ⟨_, .slice _ _ _ _, rfl, .refl _, rfl, rfl, nofun, nofun⟩
      | iret =>
          cases h
          exact .inr ⟨_, .returns _, rfl, .refl _, rfl, rfl,
            fun _ => ⟨rfl, .inl ⟨kind, rfl⟩⟩, nofun⟩
      | _ =>
          cases kind <;>
            (cases h
             exact .inr ⟨_, .isr _ _ _ _, rfl, .refl _, rfl, rfl, nofun,
              nofun⟩)
  | newTask t pc =>
      cases pc with
      | alloc => cases h
      | lock => cases h; exact hlock _ rfl (.newTask _ t _ _) nofun rfl
      | push =>
          cases h
          exact .inr ⟨_, .returns _, rfl, .refl _, rfl, rfl,
            fun _ => ⟨rfl, .inr rfl⟩, nofun⟩
      | _ =>
          cases h
          exact .inr ⟨_, .newTask _ _ _ _, rfl, .refl _, rfl, rfl, nofun,
            nofun⟩
  | kill pc =>
      cases pc with
      | pop =>
          cases h
          exact .inr ⟨_, .kill _ .lock, rfl, .refl _, rfl, rfl, nofun, nofun⟩
      | lock => cases h; exact hlock _ rfl (.kill _ _) nofun rfl
      | body =>
          -- a kill of the running task is not a step of its flow
          exfalso
          apply hends
          left
          rw [hst]
          rfl
  | killTask id pc =>
      cases pc with
      | lock => cases h; exact hlock _ rfl (.killTask _ _ _) nofun rfl
      | body =>
          unfold State.execFrame at h
          dsimp only at h
          split at h
          · rename_i hid
            exfalso
            apply hends
            right
            rw [hst, ← hid]
            rfl
          · cases h
            exact .inr ⟨_, .killTask _ _ .scan, rfl, .refl _, rfl, rfl, nofun,
              nofun⟩
      | scan =>
          cases h
          exact .inr ⟨_, .killTask _ _ .release, rfl, List.filter_sublist,
            rfl, rfl, nofun, nofun⟩
      | push =>
          cases h
          exact .inr ⟨_, .returns _, rfl, .refl _, rfl, rfl,
            fun _ => ⟨rfl, .inr rfl⟩, nofun⟩
      | _ =>
          cases h
          exact .inr ⟨_, .killTask _ _ _, rfl, .refl _, rfl, rfl, nofun,
            nofun⟩

/-- A property of stacks, for each task, that is handed on. -/
structure Inherited (Q : Nat → List Frame → Prop) : Prop where
  nil : ∀ t, Q t []
  follows : ∀ t f gs fs, Follows f gs → Q t (f :: fs) → Q t (gs ++ fs)
  resume : ∀ t flag pc fs, Q t fs → Q t (.resume flag pc :: fs)

/-- The stack of the running task and those of the suspended ones. -/
structure Everywhere (Q : Nat → List Frame → Prop) (s : State) : Prop where
  stack : s.runner ∈ s.all → Q s.runner s.stack
  ctx : ∀ t ∈ s.all, ∀ c ∈ s.ctx t, Q t c.frames

variable {Q : Nat → List Frame → Prop}

/-- A property of calls, one by one. -/
theorem Inherited.of_frame {P : Nat → Frame → Prop}
    (hfollows : ∀ t f gs, Follows f gs → P t f → ∀ g ∈ gs, P t g)
    (hresume : ∀ t flag pc, P t (.resume flag pc)) :
    Inherited fun t fs => ∀ f ∈ fs, P t f where
  nil := fun _ => nofun
  follows := by
    intro t f gs fs hf h g hg
    rcases List.mem_append.mp hg with hg | hg
    · exact hfollows t f gs hf (h f List.mem_cons_self) g hg
    · exact h g (List.mem_cons_of_mem _ hg)
  resume := by
    intro t flag pc fs h g hg
    rcases List.mem_cons.mp hg with rfl | hg
    · exact hresume t flag pc
    · exact h g hg

/-- A call that returns leaves the property to those under it. -/
theorem Inherited.tail (hi : Inherited Q) (h : Q t (f :: gs)) : Q t gs :=
  hi.follows t f [] gs (.returns f) h

-- ===================================================== steps that stay

/-- A step in the running flow: the suspended tasks are as they were,
but for new ones. -/
structure SameFlow (s s' : State) : Prop where
  idle : s'.idle = s.idle
  runner : s'.runner = s.runner
  stays : s.runner ∈ s'.all → s.runner ∈ s.all
  ctx : ∀ t ∈ s'.all, ∀ c ∈ s'.ctx t,
    c.frames = [] ∨ t ∈ s.all ∧ c ∈ s.ctx t

/-- The innermost call turned into others, or spins. -/
def Grown (s : State) (fs : List Frame) : Prop :=
  fs = s.stack ∨ ∃ f rest gs, s.stack = f :: rest ∧ Follows f gs ∧
    fs = gs ++ rest

/-- Tasks may have gone, as long as no context has changed. -/
theorem SameFlow.of_mem (hidle : s'.idle = s.idle)
    (hrunner : s'.runner = s.runner) (hmem : ∀ t ∈ s'.all, t ∈ s.all)
    (hctx : s'.ctx = s.ctx) : SameFlow s s' where
  idle := hidle
  runner := hrunner
  stays := hmem _
  ctx := fun t ht _ hc => .inr ⟨hmem t ht, hctx ▸ hc⟩

/-- Where nobody has come or gone, the contexts decide. -/
theorem SameFlow.of_eq (hidle : s'.idle = s.idle)
    (hrunner : s'.runner = s.runner) (htasks : s'.tasks = s.tasks)
    (hctx : s'.ctx = s.ctx) : SameFlow s s' := by
  apply SameFlow.of_mem hidle hrunner _ hctx
  intro t ht
  unfold State.all at ht ⊢
  rw [← hidle, ← htasks]
  exact ht

/-- The tasks' accounts, and then the flow. -/
theorem Alike.flow {s₁ : State} (h : Alike s s₁)
    (hidle : s'.idle = s₁.idle) (hrunner : s'.runner = s₁.runner)
    (htasks : s'.tasks = s₁.tasks) (hctx : s'.ctx = s₁.ctx) :
    SameFlow s s' := by
  apply SameFlow.of_mem (hidle.trans h.idle) (hrunner.trans h.runner) _
    (hctx.trans h.ctx)
  intro t ht
  apply h.mem_all.mp
  unfold State.all at ht ⊢
  rw [← hidle, ← htasks]
  exact ht

/-- What holds of every suspended task holds of them afterwards; a new one
has made no call yet. -/
theorem SameFlow.ctx_everywhere (h : SameFlow s s') (hi : Inherited Q)
    (hq : Everywhere Q s) : ∀ t ∈ s'.all, ∀ c ∈ s'.ctx t, Q t c.frames := by
  intro t ht c hc
  rcases h.ctx t ht c hc with hnil | ⟨ht, hc⟩
  · rw [hnil]
    exact hi.nil t
  · exact hq.ctx t ht c hc

/-- And of the running one, as its stack has grown by calls that follow. -/
theorem SameFlow.everywhere (h : SameFlow s s') (hi : Inherited Q)
    (hq : Everywhere Q s) (hg : Grown s s'.stack) : Everywhere Q s' where
  stack := by
    intro hr
    rw [h.runner] at hr ⊢
    have hr := hq.stack (h.stays hr)
    rcases hg with hsame | ⟨f, rest, gs, hst, hf, heq⟩
    · rw [hsame]
      exact hr
    · rw [hst] at hr
      rw [heq]
      exact hi.follows _ f gs rest hf hr
  ctx := h.ctx_everywhere hi hq

/-- An event started a call. -/
theorem SameFlow.started (h : SameFlow s s') (hi : Inherited Q)
    (hq : Everywhere Q s) (hst : s.runner ∈ s.all → Q s.runner s'.stack) :
    Everywhere Q s' where
  stack := by
    intro hr
    rw [h.runner] at hr ⊢
    exact hst (h.stays hr)
  ctx := h.ctx_everywhere hi hq

/-- The innermost call made way for those that follow it. -/
theorem grown_follows (hst : s.stack = f :: rest) (hf : Follows f gs) :
    Grown s (gs ++ rest) :=
  .inr ⟨f, rest, gs, hst, hf, rfl⟩

/-- A step of the innermost call stays in the flow, unless it loads
another. -/
theorem exec_sameFlow (hs : Sound s) (hst : s.stack = f :: rest)
    (hends : ¬s.Ends) (hload : ∀ old n, f ≠ .switch old n .load)
    (h : s.execFrame rest f = some s') : SameFlow s s' := by
  have hlock : ∀ fs, SameFlow s (s.lockThen fs) := by
    intro fs
    unfold State.lockThen
    split <;> exact .of_eq rfl rfl rfl rfl
  cases f with
  | yield pc =>
      cases pc with
      | lock => cases h; exact hlock _
      | body =>
          cases h
          -- up to the switch, times on record are all that changes
          have hswitch : ∀ next fs, SameFlow s
              (s.selected.2.performContextSwitch (some s.current) next
                fs) := by
            intro next fs
            have hl := alike_selected.trans
              (alike_switched (s := s.selected.2) next)
            exact hl.flow rfl rfl rfl rfl
          rcases yieldBody_cases hst with
            ⟨s₁, hl, heq⟩ | ⟨-, heq⟩ | ⟨next, -, heq⟩
          · rw [heq]
            exact hl.flow rfl rfl rfl rfl
          · rw [heq]
            exact hswitch _ _
          · rw [heq]
            exact hswitch _ _
      | _ => cases h; exact .of_eq rfl rfl rfl rfl
  | switch old n pc =>
      cases pc with
      | release => cases h; exact .of_eq rfl rfl rfl rfl
      | load => exact absurd rfl (hload old n)
  | resume flag pc => cases pc <;> (cases h; exact .of_eq rfl rfl rfl rfl)
  | isr kind flag pc =>
      cases pc with
      | handler =>
          cases kind with
          | timer =>
              have hl := alike_tick (s := s)
              unfold State.execFrame at h
              dsimp only at h
              split at h <;> (cases h; exact hl.flow rfl rfl rfl rfl)
          | fault => cases h; exact .of_eq rfl rfl rfl rfl
      | _ => cases kind <;> (cases h; exact .of_eq rfl rfl rfl rfl)
  | newTask t pc =>
      cases pc with
      | alloc => cases h
      | lock => cases h; exact hlock _
      | pushBack =>
          cases h
          have hseat := hs.seat
          rw [hst] at hseat
          -- the new task is the one whose context has no frames
          obtain ⟨⟨-, hrun⟩, -, -, flag, hctx⟩ := hseat
          refine ⟨rfl, rfl, fun _ => hrun, ?_⟩
          intro a ha c hc
          change c ∈ s.ctx a at hc
          rcases List.mem_append.mp (show a ∈ s.all ++ [t] from ha) with
            ha | ha
          · exact .inr ⟨ha, hc⟩
          · rw [List.mem_singleton.mp ha, hctx] at hc
            cases hc
            exact .inl rfl
      | _ => cases h; exact .of_eq rfl rfl rfl rfl
  | kill pc =>
      cases pc with
      | pop => cases h; exact .of_eq rfl rfl rfl rfl
      | lock => cases h; exact hlock _
      | body =>
          exfalso
          apply hends
          left
          rw [hst]
          rfl
  | killTask id pc =>
      cases pc with
      | lock => cases h; exact hlock _
      | body =>
          unfold State.execFrame at h
          dsimp only at h
          split at h
          · rename_i hid
            exfalso
            apply hends
            right
            rw [hst, ← hid]
            rfl
          · cases h
            exact .of_eq rfl rfl rfl rfl
      | scan =>
          cases h
          refine .of_mem rfl rfl ?_ rfl
          intro a ha
          rcases List.mem_cons.mp ha with rfl | ha
          · exact List.mem_cons_self
          · exact List.mem_cons_of_mem _ (List.mem_of_mem_filter ha)
      | _ => cases h; exact .of_eq rfl rfl rfl rfl

/-- A step of the flow, other than a load or a kill, lets the stack grow in
this way. -/
theorem exec_grown (hst : s.stack = f :: rest) (hends : ¬s.Ends)
    (hload : ∀ old n, f ≠ .switch old n .load)
    (h : s.execFrame rest f = some s') : Grown s s'.stack := by
  rcases exec_goes hst hends hload h with ⟨-, rfl, -⟩ | ⟨gs, hg⟩
  · exact .inl rfl
  · exact .inr ⟨f, rest, gs, hst, hg.follows, hg.stack⟩

-- ======================================================== loading one

/-- What is loaded is one task's, and the flow that was left is kept for
the task that ran, if there is one to keep it for. -/
structure Loads (s : State) (old : Option Nat) (next : Nat)
    (rest : List Frame) (s' : State) : Prop where
  idle : s'.idle = s.idle
  all : s'.all = s.all
  mem : next ∈ s.all
  runner : s'.runner = next
  stack : ∃ c ∈ s.ctx next, s'.stack = .resume c.flag .popf :: c.frames
  ctx : ∀ t ∈ s.all, ∀ c ∈ s'.ctx t,
    c ∈ s.ctx t ∨ c.frames = rest ∧ t = s.runner ∧ old = some t

/-- `context_switch` loads what the next task had saved. -/
theorem contextSwitch_loads {old : Option Nat} (hs : Sound s)
    (hst : s.stack = .switch old next .load :: rest) :
    Loads s old next rest (s.contextSwitch old next rest) := by
  have hseat := hs.seat
  rw [hst] at hseat
  obtain ⟨-, hnext, hne, hold⟩ := hseat
  let s₁ := s.saveContext old rest
  -- a context that is new is the one saved for the task that ran
  have hctx₁ : ∀ t, ∀ c ∈ s₁.ctx t,
      c ∈ s.ctx t ∨ c.frames = rest ∧ t = s.runner ∧ old = some t := by
    intro t c hc
    cases old with
    | none => exact .inl hc
    | some o =>
        have hctx : s₁.ctx
            = Function.update s.ctx o (some ⟨s.intf, rest⟩) :=
          ctx_setTask _
        rw [hctx] at hc
        by_cases hto : t = o
        · rw [hto, Function.update_self] at hc
          cases hc
          rw [hto]
          exact .inr ⟨rfl, hold.1, rfl⟩
        · rw [Function.update_of_ne hto] at hc
          exact .inl hc
  -- the next task does not run, so that it has a context to load
  obtain ⟨c, hc⟩ : ∃ c, s.ctx next = some c :=
    Option.ne_none_iff_exists'.mp fun h => hne ((hs.ctx_none _ hnext).mp h)
  have hc₁ : s₁.ctx next = some c := by
    cases old with
    | none => exact hc
    | some o =>
        have hctx : s₁.ctx
            = Function.update s.ctx o (some ⟨s.intf, rest⟩) :=
          ctx_setTask _
        rw [hctx, Function.update_of_ne (hold.1 ▸ hne)]
        exact hc
  have hidle₁ : s₁.idle = s.idle ∧ s₁.all = s.all := by
    cases old <;> exact ⟨rfl, rfl⟩
  show Loads s old next rest (s₁.loadContext next)
  rw [loadContext_eq hc₁]
  exact
    { idle := hidle₁.1
      all := hidle₁.2
      mem := hnext
      runner := rfl
      stack := ⟨c, hc, rfl⟩
      ctx := by
        intro t _ c' hc'
        have hctx : ({ s₁ with runner := next }.setTask next
            { s₁.task next with ctx := none }).ctx
              = Function.update s₁.ctx next none := ctx_setTask _
        change c' ∈ (State.setTask { s₁ with runner := next } next _).ctx t
          at hc'
        rw [hctx] at hc'
        by_cases htn : t = next
        · rw [htn, Function.update_self] at hc'
          cases hc'
        · rw [Function.update_of_ne htn] at hc'
          exact hctx₁ t c' hc' }

/-- A load hands stacks around and makes no call of its own but the second
half of the switch. -/
theorem Loads.everywhere {old : Option Nat} (h : Loads s old next rest s')
    (hst : s.stack = .switch old next .load :: rest)
    (hi : Inherited Q) (hq : Everywhere Q s) : Everywhere Q s' where
  stack := by
    intro _
    obtain ⟨c, hc, hst'⟩ := h.stack
    rw [hst', h.runner]
    exact hi.resume _ _ _ _ (hq.ctx next h.mem c hc)
  ctx := by
    intro t ht c hc
    rw [h.all] at ht
    rcases h.ctx t ht c hc with hc | ⟨hrest, hrun, hold⟩
    · exact hq.ctx t ht c hc
    · have hr := hq.stack (hrun ▸ ht)
      rw [hst] at hr
      rw [hrest, hrun]
      exact hi.tail hr

-- ============================================================= every step

/-- A step loads another task's context, or stays in the flow. -/
theorem step_flow (hs : Sound s)
    (hand : s.HandsOver e) (h : Step s e s') :
    (∃ old next rest, e = .exec ∧
        s.stack = .switch old next .load :: rest ∧
        Loads s old next rest s') ∨ SameFlow s s' := by
  cases e with
  | exec =>
      obtain ⟨f, rest, hst, h⟩ := exec_inv h
      by_cases hload : ∃ old n, f = .switch old n .load
      · obtain ⟨old, n, rfl⟩ := hload
        cases h
        exact .inl ⟨old, n, rest, rfl, hst, contextSwitch_loads hs hst⟩
      · right
        exact exec_sameFlow hs hst hand
          (fun old n hfl => hload ⟨old, n, hfl⟩) h
  | irq =>
      right
      rw [(irq_inv h).2]
      exact .of_eq rfl rfl rfl rfl
  | fault =>
      right
      rw [(fault_inv h).2.2]
      exact .of_eq rfl rfl rfl rfl
  | call c =>
      right
      obtain ⟨-, -, s₁, hl, heq⟩ := call_inv h
      rw [heq]
      exact hl.flow rfl rfl rfl rfl
  | alloc t flag =>
      right
      obtain ⟨u, rest, hst, hfresh, heq⟩ := alloc_inv h
      rw [heq]
      have hctx : (s.initTask t flag).ctx
          = Function.update s.ctx t (some ⟨flag, []⟩) := ctx_setTask _
      refine ⟨rfl, rfl, fun hr => hr, ?_⟩
      intro a ha c hc
      change c ∈ (s.initTask t flag).ctx a at hc
      rw [hctx] at hc
      -- the new task has been given a context without calls
      by_cases hat : a = t
      · rw [hat, Function.update_self] at hc
        cases hc
        exact .inl rfl
      · rw [Function.update_of_ne hat] at hc
        exact .inr ⟨ha, hc⟩
  | killTo t =>
      right
      obtain ⟨f, rest, rest', hst, hf, hk⟩ := killTo_inv h
      apply SameFlow.of_mem hk.idle hk.runner _ hk.ctx
      intro a ha
      unfold State.all at ha
      rw [hk.idle, hk.tasks] at ha
      rcases List.mem_cons.mp ha with rfl | ha
      · exact List.mem_cons_self
      · exact List.mem_cons_of_mem _ (List.mem_of_mem_erase ha)

/-- The idle task is the same one in every state. -/
theorem step_idle (hs : Sound s)
    (hand : s.HandsOver e) (h : Step s e s') : s'.idle = s.idle := by
  rcases step_flow hs hand h with ⟨_, _, _, -, -, hl⟩ | hf
  · exact hl.idle
  · exact hf.idle

/-- A property that is handed on, and that holds where an event starts a
call, holds everywhere. -/
theorem Everywhere.step (hs : Sound s) (hs' : Sound s')
    (hand : s.HandsOver e) (hi : Inherited Q) (hq : Everywhere Q s)
    (hnew : e = .irq ∨ e = .fault ∨ (∃ c, e = .call c) →
      Q s.runner s.stack → Q s.runner s'.stack)
    (h : Step s e s') : Everywhere Q s' := by
  have hflow : e ≠ .exec → SameFlow s s' := by
    intro he
    rcases step_flow hs hand h with ⟨_, _, _, hx, -, -⟩ | hf
    · exact absurd hx he
    · exact hf
  cases e with
  | exec =>
      obtain ⟨f, rest, hst, h⟩ := exec_inv h
      by_cases hload : ∃ old n, f = .switch old n .load
      · obtain ⟨old, n, rfl⟩ := hload
        cases h
        exact (contextSwitch_loads hs hst).everywhere hst hi hq
      · have hload : ∀ old n, f ≠ .switch old n .load :=
          fun old n hfl => hload ⟨old, n, hfl⟩
        apply (exec_sameFlow hs hst hand hload h).everywhere hi hq
        exact exec_grown hst hand hload h
  | irq =>
      apply (hflow nofun).started hi hq
      exact fun hr => hnew (.inl rfl) (hq.stack hr)
  | fault =>
      apply (hflow nofun).started hi hq
      exact fun hr => hnew (.inr (.inl rfl)) (hq.stack hr)
  | call c =>
      apply (hflow nofun).started hi hq
      exact fun hr => hnew (.inr (.inr ⟨c, rfl⟩)) (hq.stack hr)
  | alloc t flag =>
      obtain ⟨u, rest, hst, -, heq⟩ := alloc_inv h
      apply (hflow nofun).everywhere hi hq
      rw [heq]
      exact grown_follows hst (.newTask u t .alloc .lock)
  | killTo t =>
      -- the killed task is on the CPU still, and on no list
      obtain ⟨f, rest, rest', -, -, hk⟩ := killTo_inv h
      refine ⟨?_, (hflow nofun).ctx_everywhere hi hq⟩
      intro hr
      have hseat := hs'.seat
      rw [hk.stack] at hseat
      exact absurd hr hseat.2.2.2

/-- Nothing is under way at the start. -/
theorem Initial.everywhere (hi : Initial s) (hq : Inherited Q) :
    Everywhere Q s where
  stack := by
    intro _
    rw [hi.stack]
    exact hq.nil _
  ctx := by
    intro t ht c hc
    change c ∈ (s.task t).ctx at hc
    unfold State.all at ht
    rw [hi.tasks] at ht
    rcases List.mem_cons.mp ht with rfl | ht
    · obtain ⟨flag, hctx⟩ := hi.idle_ctx
      rw [hctx] at hc
      cases hc
      exact hq.nil _
    · rw [List.mem_singleton.mp ht, hi.kernel_ctx] at hc
      cases hc

end Ntibux.Sched
