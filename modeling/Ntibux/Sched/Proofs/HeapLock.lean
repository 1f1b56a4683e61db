/-
When nobody waits for the heap's lock with interrupts off.

Between the `pop_ints` of `new_task`, or of a kill, and the heap call
that follows, no other task runs: whether the lock will be free is
settled at the `pop_ints` (`exec_bound`). A task's own code that was
interrupted in the heap goes on with interrupts on (`Poised`). So a run
whose steps do not intrude on a task that holds the lock never comes to
a state that is stuck (`run_not_stuck`).
-/
import Ntibux.Sched.HeapLock
import Ntibux.Sched.Proofs.Kill

namespace Ntibux.Sched

variable {s s' : State} {f : Frame} {rest fs gs : List Frame}
  {t u : Nat}

-- ============================================================ nobody sleeps

/-- Nobody is put to sleep by a write that leaves everyone awake who was. -/
theorem setTask_awake {v : Task} (hv : (s.task u).sleep = 0 → v.sleep = 0)
    (ht : (s.task t).sleep = 0) : ((s.setTask u v).task t).sleep = 0 := by
  show (Function.update s.task u v t).sleep = 0
  by_cases htu : t = u
  · rw [htu, Function.update_self]
    exact hv (htu ▸ ht)
  · rw [Function.update_of_ne htu]
    exact ht

/-- The scan of `select_next` writes only tasks that sleep. -/
theorem selectLoop_awake (ticks : Nat) (l : List Nat) (g : Nat → Task)
    (ht : (g t).sleep = 0) :
    ((selectLoop ticks l g).2 t).sleep = 0 := by
  induction l generalizing g with
  | nil => exact ht
  | cons a l ih =>
      unfold selectLoop
      by_cases ha : (g a).sleep = 0
      · rw [if_neg (not_not.mpr ha)]
        exact ht
      · have hne : t ≠ a := by
          intro heq
          exact ha (heq ▸ ht)
        rw [if_pos ha]
        dsimp only
        split
        · show (Function.update g a _ t).sleep = 0
          rw [Function.update_of_ne hne]
          exact ht
        · apply ih
          rw [Function.update_of_ne hne]
          exact ht

/-- The other parts of `yield`, and the kill, write no one's sleep. -/
theorem performContextSwitch_awake {old : Option Nat} {next : Nat}
    {fs : List Frame} (ht : (s.task t).sleep = 0) :
    ((s.performContextSwitch old next fs).task t).sleep = 0 :=
  setTask_awake (fun h => h) ht

theorem selected_awake (ht : (s.task t).sleep = 0) :
    (s.selected.2.task t).sleep = 0 :=
  selectLoop_awake _ _ _ (setTask_awake (fun h => h) ht)

theorem yieldBody_awake {fs : List Frame} (ht : (s.task t).sleep = 0) :
    ((s.yieldBody fs).task t).sleep = 0 := by
  have hsel := selected_awake ht
  unfold State.yieldBody
  by_cases h0 : s.current = 0
  · rw [if_pos h0]
    exact ht
  · rw [if_neg h0]
    dsimp only
    split
    · split
      · exact hsel
      · split
        · exact performContextSwitch_awake hsel
        · exact hsel
    · split
      · exact hsel
      · exact performContextSwitch_awake hsel

theorem contextSwitch_awake {old : Option Nat} {next : Nat}
    {fs : List Frame} (ht : (s.task t).sleep = 0) :
    ((s.contextSwitch old next fs).task t).sleep = 0 := by
  have hsave : ((s.saveContext old fs).task t).sleep = 0 := by
    cases old with
    | none => exact ht
    | some o => exact setTask_awake (fun h => h) ht
  show (((s.saveContext old fs).loadContext next).task t).sleep = 0
  unfold State.loadContext
  split
  · exact hsave
  · exact setTask_awake (s := { s.saveContext old fs with runner := next })
      (fun h => h) hsave

theorem killCurrent_awake {next : Nat} {fs : List Frame}
    (ht : (s.task t).sleep = 0)
    (h : s.killCurrentTaskLocked next fs = some s') :
    (s'.task t).sleep = 0 := by
  unfold State.killCurrentTaskLocked at h
  split at h
  · cases h
  · cases h
    exact setTask_awake (fun h => h) ht

/-- The suspended flows stay, and who does not sleep does not start
to. -/
structure Rests (s s' : State) : Prop where
  ctx : s'.ctx = s.ctx
  awake : ∀ t, (s.task t).sleep = 0 → (s'.task t).sleep = 0

/-- A step that writes no task. -/
theorem rests_of_task (h : s'.task = s.task) : Rests s s' where
  ctx := by
    funext t
    show (s'.task t).ctx = (s.task t).ctx
    rw [h]
  awake := fun t ht => by rw [h]; exact ht

/-- A kill puts no flow away: the task is not to come back. -/
theorem killCurrent_rests {next : Nat} {fs : List Frame}
    (h : s.killCurrentTaskLocked next fs = some s') : Rests s s' where
  ctx := (killCurrent_inv h).ctx
  awake := fun _ ht => killCurrent_awake ht h

/-- A step of the innermost call that does not load a context. -/
theorem exec_rests (hst : s.stack = f :: rest)
    (hload : ∀ old n, f ≠ .switch old n .load)
    (h : s.execFrame rest f = some s') : Rests s s' := by
  have hlock : ∀ fs, Rests s (s.lockThen fs) := by
    intro fs
    unfold State.lockThen
    split <;> exact rests_of_task rfl
  cases f with
  | yield pc =>
      cases pc with
      | lock => cases h; exact hlock _
      | body =>
          cases h
          refine ⟨?_, fun _ ht => yieldBody_awake ht⟩
          -- neither the search nor the times of a switch touch a context
          have hswitch : ∀ next fs,
              (s.selected.2.performContextSwitch (some s.current) next
                fs).ctx = s.ctx := by
            intro next fs
            exact (alike_selected.trans (alike_switched next)).ctx
          rcases yieldBody_cases hst with
            ⟨s₁, hl, heq⟩ | ⟨-, heq⟩ | ⟨next, -, heq⟩
          · rw [heq]
            exact hl.ctx
          · rw [heq]
            exact hswitch _ _
          · rw [heq]
            exact hswitch _ _
      | _ => cases h; exact rests_of_task rfl
  | switch old n pc =>
      cases pc with
      | release => cases h; exact rests_of_task rfl
      | load => exact absurd rfl (hload old n)
  | resume flag pc => cases pc <;> (cases h; exact rests_of_task rfl)
  | isr kind flag pc =>
      cases pc with
      | handler =>
          cases kind with
          | timer =>
              have htick : Rests s s.tick :=
                ⟨alike_tick.ctx, fun _ => setTask_awake fun h => h⟩
              unfold State.execFrame at h
              dsimp only at h
              split at h <;>
                (cases h
                 exact ⟨htick.ctx, htick.awake⟩)
          | fault => cases h; exact rests_of_task rfl
      | _ => cases kind <;> (cases h; exact rests_of_task rfl)
  | newTask u pc =>
      cases pc with
      | alloc => cases h
      | lock => cases h; exact hlock _
      | _ => cases h; exact rests_of_task rfl
  | kill pc =>
      cases pc with
      | pop => cases h; exact rests_of_task rfl
      | lock => cases h; exact hlock _
      | body => exact killCurrent_rests h
  | killTask id pc =>
      cases pc with
      | lock => cases h; exact hlock _
      | body =>
          unfold State.execFrame at h
          dsimp only at h
          split at h
          · exact killCurrent_rests h
          · cases h
            exact rests_of_task rfl
      | _ => cases h; exact rests_of_task rfl

/-- Calls other than `sleep` change no task. -/
theorem call_task {c : Call} (h : Step s (.call c) s')
    (hc : ∀ ms, c ≠ .sleep ms) :
    s'.task = s.task ∧ s'.objects = s.objects := by
  unfold Step apply at h
  split at h
  · cases h
  · cases hst : s.stack with
    | cons f rest => simp [hst] at h
    | nil =>
        simp only [hst] at h
        split at h
        · cases h
        · cases c with
          | sleep ms => exact absurd rfl (hc ms)
          | killTask id =>
              unfold State.enter at h
              dsimp only at h
              split at h
              · cases h
              · cases h
                exact ⟨rfl, rfl⟩
          | _ =>
              cases h
              exact ⟨rfl, rfl⟩

/-- Nobody starts to sleep. -/
theorem step_awake {e : Event} (h : Step s e s')
    (hsleep : ∀ ms, e ≠ .call (.sleep ms)) (hkill : ∀ t, e ≠ .killTo t)
    (hobj : ∀ t ∈ s.objects, (s.task t).sleep = 0) :
    ∀ t ∈ s'.objects, (s'.task t).sleep = 0 := by
  cases e with
  | exec =>
      obtain ⟨f, rest, hst, h⟩ := exec_inv h
      intro t ht
      have hmem := hobj t ((exec_tidy hst h).1.subset ht)
      by_cases hload : ∃ old n, f = .switch old n .load
      · obtain ⟨old, n, rfl⟩ := hload
        cases h
        exact contextSwitch_awake hmem
      · exact (exec_rests hst (fun old n hf => hload ⟨old, n, hf⟩) h).awake t
          hmem
  | irq =>
      rw [(irq_inv h).2]
      exact hobj
  | fault =>
      rw [(fault_inv h).2.2]
      exact hobj
  | call c =>
      obtain ⟨htask, hobjects⟩ := call_task h fun ms hc => hsleep ms (by
        rw [hc])
      rw [htask, hobjects]
      exact hobj
  | alloc u flag =>
      obtain ⟨v, rest, -, hnew, heq⟩ := alloc_inv h
      rw [heq]
      intro t ht
      show (Function.update s.task u _ t).sleep = 0
      by_cases htu : t = u
      · rw [htu, Function.update_self]
      · rw [Function.update_of_ne htu]
        rcases List.mem_cons.mp ht with rfl | ht
        · exact absurd rfl htu
        · exact hobj t ht
  | killTo t => exact absurd rfl (hkill t)

/-- Nobody sleeps, so `yield` does not go to idle. -/
theorem not_idleBranch {e : Event} (hs : Sound s)
    (hobj : ∀ t ∈ s.objects, (s.task t).sleep = 0) : ¬s.IdleBranch e := by
  intro ⟨_, hhead, _, _, _, hsleep⟩
  have hrun : s.current ∈ s.all := by
    cases hst : s.stack with
    | nil =>
        rw [hst] at hhead
        cases hhead
    | cons f rest =>
        rw [hst] at hhead
        cases hhead
        obtain ⟨hcur, hmem⟩ := hs.plain hst nofun
        exact hcur ▸ hmem
  exact hsleep (selected_awake (hobj _ (hs.onHeap _ hrun)))

-- ================================================== bound for the heap

namespace State

/-- The call is past its `pop_ints`, on its way to the heap. -/
def Bound (s : State) : Prop :=
  match s.stack.head? with
  | some (.newTask _ .alloc) => True
  | some (.kill .lock) | some (.kill .body) =>
      (s.task s.current).id ≠ 0
  | some (.killTask id .lock) | some (.killTask id .body)
  | some (.killTask id .scan) => s.Hits id
  | _ => False

/-- The next step is a `pop_ints` on the way to the heap. -/
def Sets (s : State) : Prop :=
  match s.stack.head? with
  | some (.newTask _ .pop) => True
  | some (.kill .pop) => (s.task s.current).id ≠ 0
  | some (.killTask id .pop) => s.Hits id
  | _ => False

end State

/-- Who is at a call of the heap is bound for it. -/
theorem State.CallsHeap.bound (h : s.CallsHeap) : s.Bound := by
  unfold State.CallsHeap at h
  unfold State.Bound
  cases hf : s.stack.head? with
  | none =>
      rw [hf] at h
      exact h.elim
  | some f =>
      rw [hf] at h
      cases f with
      | newTask u pc => cases pc <;> exact h
      | kill pc => cases pc <;> first | exact h | exact h.elim
      | killTask id pc =>
          cases pc with
          | body => exact .inl h.1
          | scan => exact .inr h
          | _ => exact h.elim
      | _ => exact h.elim

/-- Who is bound for the heap has interrupts off. -/
theorem State.Bound.masked (h : s.Bound) : ∃ f ∈ s.stack.head?, f.masked := by
  unfold State.Bound at h
  cases hf : s.stack.head? with
  | none =>
      rw [hf] at h
      exact h.elim
  | some f =>
      rw [hf] at h
      refine ⟨f, rfl, ?_⟩
      cases f with
      | newTask u pc => cases pc <;> first | rfl | exact h.elim
      | kill pc => cases pc <;> first | rfl | exact h.elim
      | killTask id pc => cases pc <;> first | rfl | exact h.elim
      | _ => exact h.elim

/-- Nobody comes to be bound for the heap but by a `pop_ints`. -/
theorem exec_bound (hs : Sound s) (hst : s.stack = f :: rest)
    (hends : ¬s.Ends) (hload : ∀ old n, f ≠ .switch old n .load)
    (h : s.execFrame rest f = some s') (hb : s'.Bound) :
    s.Bound ∨ s.Sets := by
  -- a call that returns leaves one that can be interrupted
  have hopen : f.Stays → s'.stack = rest → False := by
    intro hf heq
    obtain ⟨g, hg, hm⟩ := hb.masked
    rw [heq] at hg
    rw [hs.rest_open hst hf g (List.mem_of_mem_head? hg)] at hm
    cases hm
  -- the other calls do not turn into one of the three
  have hkind : (∀ u pc, f ≠ .newTask u pc) → (∀ pc, f ≠ .kill pc) →
      (∀ id pc, f ≠ .killTask id pc) → s.Bound := by
    intro hnew hkill hkillTask
    rcases exec_goes hst hends hload h with ⟨-, rfl, -⟩ | ⟨gs, hg⟩
    · exact hb
    · exfalso
      have hstack := hg.stack
      unfold State.Bound at hb
      rw [hstack] at hb
      cases hg.follows with
      | returns =>
          refine hopen ?_ hstack
          intro old n pc heq
          subst heq
          cases pc with
          | release => cases h; simp [State.goto] at hstack
          | load => exact hload old n rfl
      | newTask u u' pc pc' => exact hnew _ _ rfl
      | kill pc pc' => exact hkill _ rfl
      | killTask id pc pc' => exact hkillTask _ _ rfl
      | _ => exact hb
  cases f with
  | newTask u pc =>
      cases pc with
      | pop =>
          right
          unfold State.Sets
          rw [hst]
          trivial
      | alloc => cases h
      | lock =>
          unfold State.execFrame State.lockThen at h
          dsimp only at h
          split at h
          · cases h; exact .inl hb
          · cases h; exact False.elim hb
      | push => exact (hopen nofun (by cases h; rfl)).elim
      | _ => cases h; exact False.elim hb
  | kill pc =>
      cases pc with
      | pop =>
          right
          unfold State.Sets
          rw [hst]
          cases h
          exact hb
      | lock =>
          left
          unfold State.execFrame State.lockThen at h
          dsimp only at h
          split at h
          · cases h; exact hb
          · unfold State.Bound
            rw [hst]
            cases h
            exact hb
      | body =>
          exfalso
          apply hends
          left
          rw [hst]
          rfl
  | killTask id pc =>
      cases pc with
      | pop =>
          right
          unfold State.Sets
          rw [hst]
          cases h
          exact hb
      | lock =>
          left
          unfold State.execFrame State.lockThen at h
          dsimp only at h
          split at h
          · cases h; exact hb
          · unfold State.Bound
            rw [hst]
            cases h
            exact hb
      | body =>
          left
          unfold State.execFrame at h
          dsimp only at h
          split at h
          · rename_i hid
            exfalso
            apply hends
            right
            rw [hst, ← hid]
            rfl
          · unfold State.Bound
            rw [hst]
            cases h
            exact hb
      | push => exact (hopen nofun (by cases h; rfl)).elim
      | _ => cases h; exact False.elim hb
  | _ => exact .inl (hkind nofun nofun nofun)

-- ========================================== interrupted in their own code

/-- The calls lie on a stub that was entered with interrupts on. -/
def Interrupted (fs : List Frame) : Prop :=
  ∃ gs kind pc, fs = gs ++ [.isr kind true pc]

/-- More calls on top of the stub change nothing about it. -/
theorem Interrupted.append (h : Interrupted fs) (hs : List Frame) :
    Interrupted (hs ++ fs) := by
  obtain ⟨gs, kind, pc, rfl⟩ := h
  exact ⟨hs ++ gs, kind, pc, (List.append_assoc _ _ _).symm⟩

/-- A stub, or more under the innermost call. -/
theorem Interrupted.cases (h : Interrupted (f :: fs)) :
    (fs = [] ∧ ∃ kind pc, f = .isr kind true pc) ∨ Interrupted fs := by
  obtain ⟨gs, kind, pc, heq⟩ := h
  cases gs with
  | nil =>
      injection heq with hf hfs
      exact .inl ⟨hfs, kind, pc, hf⟩
  | cons g gs =>
      injection heq with hf hfs
      exact .inr ⟨gs, kind, pc, hfs⟩

/-- Where a task's own code is `busy`, interrupts are on when it runs,
and when it goes on. -/
structure Poised (busy : Nat → Prop) (s : State) : Prop where
  run : busy s.runner → s.stack = [] ∧ s.intf = true ∨ Interrupted s.stack
  ctx : ∀ t c, s.ctx t = some c → busy t → Interrupted c.frames

/-- A step of a stub that was entered with interrupts on. -/
theorem isr_exec {kind : IsrKind} {pc : IsrPc}
    (h : s.execFrame [] (.isr kind true pc) = some s') :
    s'.stack = [] ∧ s'.intf = true ∨ Interrupted s'.stack := by
  cases pc with
  | iret =>
      left
      cases kind <;> (cases h; exact ⟨rfl, rfl⟩)
  | handler =>
      right
      cases kind with
      | timer =>
          unfold State.execFrame at h
          dsimp only at h
          split at h
          · cases h; exact ⟨[], .timer, .inc, rfl⟩
          · cases h; exact ⟨[], .timer, .push, rfl⟩
      | fault => cases h; exact ⟨[.kill .pop], .fault, .push, rfl⟩
  | inc =>
      right
      cases kind <;> (cases h; exact ⟨[.yield .pop], _, .dec, rfl⟩)
  | pop => right; cases kind <;> (cases h; exact ⟨[], _, .handler, rfl⟩)
  | dec => right; cases kind <;> (cases h; exact ⟨[], _, .push, rfl⟩)
  | push => right; cases kind <;> (cases h; exact ⟨[], _, .iret, rfl⟩)

/-- What is put away is the flow that was left. -/
theorem contextSwitch_ctx {old : Option Nat} {next : Nat} {c : Ctx}
    (h : (s.contextSwitch old next fs).ctx t = some c) :
    s.ctx t = some c ∨ old = some t ∧ c.frames = fs := by
  have hsave : (s.saveContext old fs).ctx t = some c →
      s.ctx t = some c ∨ old = some t ∧ c.frames = fs := by
    intro h
    cases old with
    | none => exact .inl h
    | some o =>
        have hctx : (s.saveContext (some o) fs).ctx
            = Function.update s.ctx o (some ⟨s.intf, fs⟩) :=
          ctx_setTask _
        rw [hctx] at h
        by_cases hto : t = o
        · rw [hto, Function.update_self] at h
          cases h
          exact .inr ⟨by rw [hto], rfl⟩
        · rw [Function.update_of_ne hto] at h
          exact .inl h
  change ((s.saveContext old fs).loadContext next).ctx t = some c at h
  cases hc : (s.saveContext old fs).ctx next with
  | none =>
      have hc : ((s.saveContext old fs).task next).ctx = none := hc
      unfold State.loadContext at h
      rw [hc] at h
      exact hsave h
  | some c' =>
      rw [loadContext_eq hc] at h
      have hctx : ({ s.saveContext old fs with runner := next }.setTask next
          { (s.saveContext old fs).task next with ctx := none }).ctx
            = Function.update (s.saveContext old fs).ctx next none :=
        ctx_setTask _
      change (State.setTask { s.saveContext old fs with runner := next }
        next _).ctx t = some c at h
      rw [hctx] at h
      by_cases htn : t = next
      · rw [htn, Function.update_self] at h
        cases h
      · rw [Function.update_of_ne htn] at h
        exact hsave h

variable {busy busy' : Nat → Prop} {e : Event}

/-- A step of the code. Where a switch loads a context, the flow that comes
had its stub under it when it was put away, and so has the flow that goes.
-/
theorem Poised.exec (hp : Poised busy s) (hs : Sound s)
    (hends : ¬s.Ends) (h : Step s .exec s') : Poised busy s' := by
  obtain ⟨f, rest, hst, h⟩ := exec_inv h
  have hrun : busy s.runner → Interrupted (f :: rest) := by
    intro hb
    rcases hp.run hb with ⟨hnil, -⟩ | hi
    · rw [hst] at hnil
      cases hnil
    · exact hst ▸ hi
  by_cases hload : ∃ old n, f = .switch old n .load
  · obtain ⟨old, n, rfl⟩ := hload
    cases h
    have hloads := contextSwitch_loads hs hst
    obtain ⟨c, hc, hstack⟩ := hloads.stack
    refine ⟨?_, ?_⟩
    · intro hb
      rw [hloads.runner] at hb
      rw [hstack]
      exact .inr ((hp.ctx n c hc hb).append [_])
    · intro t c' hc' hb
      rcases contextSwitch_ctx hc' with hc' | ⟨hold, hrest⟩
      · exact hp.ctx t c' hc' hb
      · have hseat := hs.seat
        rw [hst] at hseat
        obtain ⟨-, -, -, hold'⟩ := hseat
        rw [hold] at hold'
        rcases (hrun (hold'.1 ▸ hb)).cases with ⟨-, kind, pc, heq⟩ | hi
        · cases heq
        · exact hrest ▸ hi
  · have hload : ∀ old n, f ≠ .switch old n .load :=
      fun old n hf => hload ⟨old, n, hf⟩
    have hsame := (exec_sameFlow hs hst hends hload h).runner
    refine ⟨?_, ?_⟩
    · intro hb
      rw [hsame] at hb
      rcases (hrun hb).cases with ⟨rfl, kind, pc, rfl⟩ | hi
      · exact isr_exec h
      · right
        rcases exec_goes hst hends hload h with ⟨-, rfl, -⟩ | ⟨gs, hg⟩
        · rw [hst]
          exact hrun hb
        · rw [hg.stack]
          exact hi.append gs
    · rw [(exec_rests hst hload h).ctx]
      exact hp.ctx

/-- One event, if it does not kill, and if neither a call nor a new task is
taken for one that is busy. -/
theorem Poised.step (hp : Poised busy s) (hs : Sound s)
    (hand : s.HandsOver e) (hkill : ∀ t, e ≠ .killTo t)
    (hfault : e ≠ .fault) (hcall : ∀ c, e = .call c → ¬busy s.runner)
    (hnew : ∀ t flag, e = .alloc t flag → ¬busy t)
    (h : Step s e s') : Poised busy s' := by
  cases e with
  | exec => exact hp.exec hs hand h
  | irq =>
      obtain ⟨hon, heq⟩ := irq_inv h
      rw [heq]
      refine ⟨?_, hp.ctx⟩
      intro hb
      right
      rcases hp.run hb with ⟨hnil, -⟩ | hi
      · exact ⟨[], .timer, .pop, congrArg _ hnil⟩
      · exact hi.append [_]
  | fault => exact absurd rfl hfault
  | call c =>
      obtain ⟨-, -, s₁, hl, heq⟩ := call_inv h
      rw [heq]
      refine ⟨?_, ?_⟩
      · intro hb
        change busy s₁.runner at hb
        rw [hl.runner] at hb
        exact absurd hb (hcall c rfl)
      · intro t c' hc'
        exact hp.ctx t c' (hl.ctx ▸ hc')
  | alloc t flag =>
      obtain ⟨u, rest, hst, -, heq⟩ := alloc_inv h
      rw [heq]
      have hctx : (s.initTask t flag).ctx
          = Function.update s.ctx t (some ⟨flag, []⟩) := ctx_setTask _
      refine ⟨?_, ?_⟩
      · intro hb
        rcases hp.run hb with ⟨hnil, -⟩ | hi
        · rw [hst] at hnil
          cases hnil
        · rw [hst] at hi
          rcases hi.cases with ⟨-, kind, pc, hf⟩ | hi
          · cases hf
          · exact .inr (hi.append [_])
      · intro a c hc hb
        change (s.initTask t flag).ctx a = some c at hc
        rw [hctx] at hc
        by_cases hat : a = t
        · exact absurd (hat ▸ hb) (hnew t flag rfl)
        · rw [Function.update_of_ne hat] at hc
          exact hp.ctx a c hc hb
  | killTo t => exact absurd rfl (hkill t)

/-- It is all the easier for fewer tasks. -/
theorem Poised.mono (hp : Poised busy s)
    (hsub : ∀ t, busy' t → busy t) : Poised busy' s where
  run := fun hb => hp.run (hsub _ hb)
  ctx := fun t c hc hb => hp.ctx t c hc (hsub t hb)

-- ==================================================== the task that dies

/-- The running task was killed: its context is about to be loaded, and
there is none. -/
def Dying (s : State) : Prop :=
  s.lost = true ∨ s.intf = false ∧ s.ctx s.runner = none ∧
    ∃ pc rest, s.stack = .switch none s.runner pc :: rest

/-- Nothing but the rest of the switch can come next: interrupts are off,
and the context that is to be loaded is not there. -/
theorem Dying.step (hd : Dying s) (h : Step s e s') : Dying s' := by
  rcases hd with hl | ⟨hoff, hctx, pc, rest, hst⟩
  · rw [not_lost h] at hl
    cases hl
  · cases e with
    | exec =>
        obtain ⟨f, rest', hst', h⟩ := exec_inv h
        rw [hst] at hst'
        cases hst'
        cases pc with
        | release =>
            cases h
            exact .inr ⟨hoff, hctx, .load, rest, rfl⟩
        | load =>
            cases h
            left
            show (s.loadContext s.runner).lost = true
            unfold State.loadContext
            have hctx : (s.task s.runner).ctx = none := hctx
            rw [hctx]
    | irq =>
        rw [(irq_inv h).1] at hoff
        cases hoff
    | call c =>
        rw [(call_inv h).1] at hst
        cases hst
    | fault =>
        rw [(fault_inv h).1] at hst
        cases hst
    | alloc t flag =>
        obtain ⟨u, rest', hst', -⟩ := alloc_inv h
        rw [hst'] at hst
        cases hst
    | killTo t =>
        obtain ⟨f, rest', -, hst', hf, -⟩ := killTo_inv h
        rw [hst] at hst'
        cases hst'
        rcases hf with hf | ⟨id, hf⟩ <;> cases hf

/-- A task that kills itself. -/
theorem Sound.dies (hs : Sound s) (hends : s.Ends)
    (h : Step s .exec s') : Dying s' := by
  obtain ⟨f, rest, hst, h⟩ := exec_inv h
  obtain ⟨fs, heq⟩ := ends_exec hst hends
  have hk := killCurrent_inv (heq ▸ h)
  have hf : f.Stays ∧ f.masked = true := by
    rcases hends with h | h <;>
      (rw [hst] at h
       cases h
       exact ⟨nofun, rfl⟩)
  obtain ⟨hcur, hmem⟩ := hs.plain hst hf.1
  right
  refine ⟨?_, ?_, .release, fs, ?_⟩
  · rw [hk.intf]
    exact intf_eq hs hst hf.2
  · rw [hk.ctx, hk.runner]
    exact (hs.ctx_none _ hmem).mpr rfl
  · rw [hk.stack, hk.runner, hcur]

namespace Shared

variable {m m' m₀ : Shared} {e : Event} {pc : HeapPc}
  {tr : List (Shared × Event)}

-- ========================================================= the invariant

/-- Nobody who is bound for the heap will find the lock taken. -/
structure Calm (m : Shared) : Prop where
  sound : Sound m.sched
  awake : ∀ t ∈ m.sched.objects, (m.sched.task t).sleep = 0
  poised : Poised (fun t => m.own t ≠ .out) m.sched
  free : m.locked = true → ¬m.sched.Bound
  held : ∀ t, m.own t = .body → m.locked = true
  one : ∀ t u, m.own t = .body → m.own u = .body → t = u

/-- A call of the scheduler would find the lock free, and a task's own code
runs with interrupts on: neither is stuck. -/
theorem Calm.not_stuck (hc : Calm m) : ¬Stuck m := by
  intro hstuck
  obtain ⟨t, -, ht⟩ := hstuck.held
  rcases hstuck.waits with hcalls | ⟨hnil, hown⟩
  · exact hc.free (hc.held t ht) hcalls.bound
  · have hbusy : m.own m.sched.runner ≠ .out := by
      rw [hown]
      nofun
    rcases hc.poised.run hbusy with ⟨-, hon⟩ | ⟨gs, kind, pc, heq⟩
    · rw [hstuck.intf] at hon
      cases hon
    · rw [hnil] at heq
      exact absurd heq.symm (List.append_ne_nil_of_right_ne_nil _ nofun)

/-- A task that was killed is inside a switch, and waits for nothing. -/
theorem not_stuck_of_dying (hd : Dying m.sched) : ¬Stuck m := by
  intro hstuck
  rcases hd with hl | ⟨-, -, pc, rest, hst⟩
  · rw [hstuck.lost] at hl
    cases hl
  · rcases hstuck.waits with hcalls | ⟨hnil, -⟩
    · unfold State.CallsHeap at hcalls
      rw [hst] at hcalls
      exact hcalls
    · rw [hst] at hnil
      cases hnil

/-- The heap calls of the scheduler are made with interrupts off: what is
one step here is not preempted. -/
theorem Calm.masked (hc : Calm m) (h : m.sched.CallsHeap) :
    m.sched.intf = false := by
  obtain ⟨f, hf, hm⟩ := h.bound.masked
  exact hc.sound.intf_off f hf hm

/-- At the start nobody is in the heap, and nobody sleeps. -/
theorem Initial.calm (hi : Initial m) : Calm m := by
  have hout : ∀ t, ¬m.own t ≠ .out := fun t h => h (hi.own t)
  refine ⟨hi.sched.sound.1, hi.awake, ?_, ?_, ?_, ?_⟩
  · exact ⟨fun hb => absurd hb (hout _), fun t _ _ hb => absurd hb (hout t)⟩
  · intro hl
    rw [hi.locked] at hl
    cases hl
  · intro t ht
    rw [hi.own t] at ht
    cases ht
  · intro t u ht
    rw [hi.own t] at ht
    cases ht

-- ============================================================ each step

/-- An event of the scheduler's machine: a turn of a loop, or a step. -/
theorem sched_inv {e : Sched.Event} (h : Step m (.sched e) m') :
    m' = m ∨ Sched.Step m.sched e m'.sched ∧ m'.locked = m.locked ∧
      m'.own = m.begin e ∧ ∀ c, e = .call c → m.At .out := by
  unfold Step apply at h
  cases e with
  | call c =>
      dsimp only at h
      split at h
      · rename_i hat
        obtain ⟨s, hs, rfl⟩ := Option.map_eq_some_iff.mp h
        exact .inr ⟨hs, rfl, rfl, fun _ _ => hat⟩
      · cases h
  | _ =>
      dsimp only at h
      split at h
      · cases h
        exact .inl rfl
      · obtain ⟨s, hs, rfl⟩ := Option.map_eq_some_iff.mp h
        exact .inr ⟨hs, rfl, rfl, nofun⟩

/-- What each step of a task's own code can be: a call, a turn of the loop
or the end of it, and the release. -/
theorem enter_inv (h : Step m .enter m') :
    m.At .out ∧ m.sched.intf = true ∧ m' = m.setOwn .lock := by
  unfold Step apply at h
  dsimp only at h
  split at h
  · rename_i hc
    cases h
    exact ⟨hc.1, hc.2, rfl⟩
  · cases h

theorem lock_inv (h : Step m .lock m') :
    m' = m ∨ m.At .lock ∧ m.locked = false ∧
      m' = { m.setOwn .body with locked := true } := by
  unfold Step apply at h
  dsimp only at h
  split at h
  · rename_i hat
    split at h
    · cases h
      exact .inl rfl
    · rename_i hl
      cases h
      exact .inr ⟨hat, by simpa using hl, rfl⟩
  · cases h

theorem release_inv (h : Step m .release m') :
    m.At .body ∧ m' = { m.setOwn .out with locked := false } := by
  unfold Step apply at h
  dsimp only at h
  split at h
  · rename_i hat
    cases h
    exact ⟨hat, rfl⟩
  · cases h

theorem setOwn_self : (m.setOwn pc).own m.sched.runner = pc :=
  Function.update_self _ _ _

/-- The own code of the other tasks stays where it is. -/
theorem setOwn_other (h : t ≠ m.sched.runner) :
    (m.setOwn pc).own t = m.own t :=
  Function.update_of_ne h _ _

/-- A task that the own code of another keeps. -/
theorem setOwn_body (h : (m.setOwn pc).own t = .body) (hpc : pc ≠ .body) :
    t ≠ m.sched.runner ∧ m.own t = .body := by
  by_cases ht : t = m.sched.runner
  · rw [ht, setOwn_self] at h
    exact absurd h hpc
  · rw [setOwn_other ht] at h
    exact ⟨ht, h⟩

/-- A new task is outside the heap, and the others stay where they are. -/
theorem begin_sub {e : Sched.Event} {pc : HeapPc} (hpc : pc ≠ .out)
    (h : m.begin e t = pc) : m.own t = pc := by
  cases e with
  | alloc u flag =>
      change Function.update m.own u .out t = pc at h
      by_cases htu : t = u
      · rw [htu, Function.update_self] at h
        exact absurd h.symm hpc
      · rw [Function.update_of_ne htu] at h
        exact h
  | _ => exact h

/-- A step of the scheduler brings nobody to be bound for the heap, as
long as it does not intrude. -/
theorem Calm.unbound {e : Sched.Event} (hc : Calm m)
    (hno : ¬m.Intrudes (.sched e)) (hand : m.sched.HandsOver e)
    (hkill : ∀ t, e ≠ .killTo t) (h : Sched.Step m.sched e s')
    (hl : m.locked = true) : ¬s'.Bound := by
  intro hb
  cases e with
  | exec =>
      obtain ⟨f, rest, hst, hx⟩ := exec_inv h
      by_cases hload : ∃ old n, f = .switch old n .load
      · obtain ⟨old, n, rfl⟩ := hload
        cases hx
        obtain ⟨c, -, hstack⟩ := (contextSwitch_loads hc.sound hst).stack
        unfold State.Bound at hb
        rw [hstack] at hb
        exact hb
      · have hload : ∀ old n, f ≠ .switch old n .load :=
          fun old n hf => hload ⟨old, n, hf⟩
        rcases exec_bound hc.sound hst hand hload hx hb with hbound | hsets
        · exact hc.free hl hbound
        · exact hno ⟨rfl, hl, hsets⟩
  | irq =>
      rw [(irq_inv h).2] at hb
      exact hb
  | fault =>
      rw [(fault_inv h).2.2] at hb
      exact hb
  | call c =>
      obtain ⟨-, -, s₁, -, heq⟩ := call_inv h
      rw [heq] at hb
      cases c <;> exact hb
  | alloc t flag =>
      obtain ⟨u, rest, -, -, heq⟩ := alloc_inv h
      rw [heq] at hb
      exact hb
  | killTo t => exact hkill t rfl

/-- An event of the scheduler's machine keeps all this, unless it ends the
task that kills itself. -/
theorem Calm.sched {e : Sched.Event} (hc : Calm m)
    (hof : Event.ofHeap (.sched e) = true) (hno : ¬m.Intrudes (.sched e))
    (h : Step m (.sched e) m') : Calm m' ∨ Dying m'.sched := by
  rcases sched_inv h with rfl | ⟨hs, hl, hown, hcall⟩
  · exact .inl hc
  · have hkill : ∀ t, e ≠ .killTo t := by
      intro t he
      rw [he] at hof
      cases hof
    have hfault : e ≠ .fault := by
      intro he
      rw [he] at hof
      cases hof
    have hsleep : ∀ ms, e ≠ .call (.sleep ms) := by
      intro ms he
      rw [he] at hof
      cases hof
    by_cases hends : e = .exec ∧ m.sched.Ends
    · -- the running task kills itself, and does not come back from it
      obtain ⟨rfl, hends⟩ := hends
      exact .inr (hc.sound.dies hends hs)
    · have hand : m.sched.HandsOver e := by
        cases e with
        | exec => exact fun hx => hends ⟨rfl, hx⟩
        | killTo t => exact absurd rfl (hkill t)
        | _ => trivial
      left
      have hsound := (hc.sound.step (not_idleBranch hc.sound hc.awake) hand
        (fun ⟨t, he⟩ => absurd he (hkill t)) hs).1
      have hpoised : Poised (fun t => m.begin e t ≠ .out) m.sched :=
        hc.poised.mono fun t hne hout => by
          apply hne
          cases e with
          | alloc u flag =>
              show Function.update m.own u .out t = .out
              by_cases htu : t = u
              · rw [htu, Function.update_self]
              · rw [Function.update_of_ne htu]
                exact hout
          | _ => exact hout
      refine ⟨hsound, step_awake hs hsleep hkill hc.awake, ?_, ?_, ?_, ?_⟩
      · rw [hown]
        apply hpoised.step hc.sound hand hkill hfault _ _ hs
        · intro c he hb
          rw [he] at hb
          exact hb (hcall c he).2.2.2
        · intro t flag he hb
          rw [he] at hb
          exact hb (Function.update_self _ _ _)
      · rw [hl]
        exact hc.unbound hno hand hkill hs
      · intro t ht
        rw [hown] at ht
        rw [hl]
        exact hc.held t (begin_sub nofun ht)
      · intro t u ht hu
        rw [hown] at ht hu
        exact hc.one t u (begin_sub nofun ht) (begin_sub nofun hu)

/-- A step of the running task's own code leaves the scheduler alone. -/
theorem Calm.own_step (hc : Calm m) (hat : m.sched.stack = [])
    (hsched : m'.sched = m.sched)
    (hpoised : Poised (fun t => m'.own t ≠ .out) m.sched)
    (hheld : ∀ t, m'.own t = .body → m'.locked = true)
    (hone : ∀ t u, m'.own t = .body → m'.own u = .body → t = u) :
    Calm m' := by
  refine ⟨hsched ▸ hc.sound, hsched ▸ hc.awake, hsched ▸ hpoised, ?_, hheld,
    hone⟩
  intro _ hb
  unfold State.Bound at hb
  rw [hsched, hat] at hb
  exact hb

/-- A task calls the heap with interrupts on, and holds nothing yet. -/
theorem Calm.enter (hc : Calm m) (h : Step m .enter m') : Calm m' := by
  obtain ⟨⟨-, hnil, -, hout⟩, hon, rfl⟩ := enter_inv h
  have hsched : (m.setOwn .lock).sched = m.sched := rfl
  refine hc.own_step hnil hsched ?_ ?_ ?_
  · refine ⟨fun _ => .inl ⟨hnil, hon⟩, ?_⟩
    intro t c hctx hb
    by_cases ht : t = m.sched.runner
    · -- who runs has no context put away
      have hmem : m.sched.runner ∈ m.sched.all := by
        have hseat := hc.sound.seat
        rw [hnil] at hseat
        exact hseat.2
      rw [ht, (hc.sound.ctx_none _ hmem).mpr rfl] at hctx
      cases hctx
    · have hb : (m.setOwn .lock).own t ≠ .out := hb
      rw [setOwn_other ht] at hb
      exact hc.poised.ctx t c hctx hb
  · intro t ht
    exact hc.held t (setOwn_body ht nofun).2
  · intro t u ht hu
    exact hc.one t u (setOwn_body ht nofun).2 (setOwn_body hu nofun).2

/-- It gets the lock when nobody has it, so it is the only one that does. -/
theorem Calm.lock (hc : Calm m) (h : Step m .lock m') : Calm m' := by
  rcases lock_inv h with rfl | ⟨⟨-, hnil, -, hown⟩, hfree, rfl⟩
  · exact hc
  · have hnone : ∀ t, m.own t ≠ .body := by
      intro t ht
      have hl := hc.held t ht
      rw [hfree] at hl
      cases hl
    have hself : ∀ t, (m.setOwn .body).own t = .body →
        t = m.sched.runner := by
      intro t ht
      by_contra hne
      rw [setOwn_other hne] at ht
      exact hnone t ht
    have hsched : Shared.sched
        { m.setOwn .body with locked := true } = m.sched := rfl
    refine hc.own_step hnil hsched ?_ ?_ ?_
    · apply hc.poised.mono
      intro t hb hout
      have hb : (m.setOwn .body).own t ≠ .out := hb
      by_cases ht : t = m.sched.runner
      · rw [ht, hown] at hout
        cases hout
      · rw [setOwn_other ht] at hb
        exact hb hout
    · exact fun _ _ => rfl
    · intro t u ht hu
      exact (hself t ht).trans (hself u hu).symm

/-- When it gives the lock back there is nobody who holds it. -/
theorem Calm.release (hc : Calm m) (h : Step m .release m') : Calm m' := by
  obtain ⟨⟨-, hnil, -, hown⟩, rfl⟩ := release_inv h
  have hnone : ∀ t, (m.setOwn .out).own t ≠ .body := by
    intro t ht
    obtain ⟨hne, ht⟩ := setOwn_body ht nofun
    exact hne (hc.one _ _ ht hown)
  have hsched : Shared.sched
      { m.setOwn .out with locked := false } = m.sched := rfl
  refine hc.own_step hnil hsched ?_ ?_ ?_
  · apply hc.poised.mono
    intro t hb hout
    have hb : (m.setOwn .out).own t ≠ .out := hb
    by_cases ht : t = m.sched.runner
    · rw [ht, setOwn_self] at hb
      exact hb rfl
    · rw [setOwn_other ht] at hb
      exact hb hout
  · exact fun t ht => absurd ht (hnone t)
  · exact fun t u ht => absurd ht (hnone t)

/-- A step that does not intrude. -/
theorem Calm.step (hc : Calm m) (hof : e.ofHeap = true)
    (hno : ¬m.Intrudes e) (h : Step m e m') : Calm m' ∨ Dying m'.sched := by
  cases e with
  | sched e => exact hc.sched hof hno h
  | enter => exact .inl (hc.enter h)
  | lock => exact .inl (hc.lock h)
  | release => exact .inl (hc.release h)

/-- The end of a task that kills itself, in the machine with the lock. -/
theorem dying_step (hd : Dying m.sched) (h : Step m e m') :
    Dying m'.sched := by
  cases e with
  | sched e =>
      rcases sched_inv h with rfl | ⟨hs, -⟩
      · exact hd
      · exact hd.step hs
  | enter =>
      obtain ⟨-, -, rfl⟩ := enter_inv h
      exact hd
  | lock =>
      rcases lock_inv h with rfl | ⟨-, -, rfl⟩
      · exact hd
      · exact hd
  | release =>
      obtain ⟨-, rfl⟩ := release_inv h
      exact hd

-- ============================================================== every run

/-- The invariant along every run whose steps do not intrude. -/
theorem run_calm (hi : Initial m₀) (hr : Run m₀ tr m)
    (hof : ∀ p ∈ tr, p.2.ofHeap = true)
    (hno : ∀ p ∈ tr, ¬p.1.Intrudes p.2) : Calm m ∨ Dying m.sched := by
  apply Ntibux.Run.invariant
    (P := fun m => Calm m ∨ Dying m.sched)
    (fun m e => e.ofHeap = true ∧ ¬m.Intrudes e) hr _ (.inl hi.calm)
  · intro m e m' hp hok h
    rcases hp with hc | hd
    · exact hc.step hok.1 hok.2 h
    · exact .inr (dying_step hd h)
  · intro p hp
    exact ⟨hof p hp, hno p hp⟩

/-- In a run in which `new_task`, and a kill that comes to a task, run
their `pop_ints` with the heap's lock free, nobody waits for the heap's
lock with interrupts off.

Whoever is bound for the heap finds its lock free (`run_calm`), so that no
call of the scheduler waits for it; and a task's own code waits with
interrupts on. What is left is a task that was killed and is about to be
loaded, which waits for nothing. -/
theorem run_not_stuck (hi : Initial m₀) (hr : Run m₀ tr m)
    (hof : ∀ p ∈ tr, p.2.ofHeap = true)
    (hno : ∀ p ∈ tr, ¬p.1.Intrudes p.2) : ¬Stuck m := by
  rcases run_calm hi hr hof hno with hc | hd
  · exact hc.not_stuck
  · exact not_stuck_of_dying hd

-- ====================================================== a machine of two

/-- The kernel task at 1, idle at 2, nobody in the heap. -/
def booted : Shared := ⟨Sched.booted, false, fun _ => .out⟩

/-- The machine with one task starts as it should. -/
theorem booted_initial : Initial booted :=
  ⟨Sched.booted_initial, fun t _ => by
    show (if t = 1 then _ else _ : Task).sleep = 0
    split <;> rfl, rfl, fun _ => rfl⟩

/-- Steps of the innermost call. -/
def execs (n : Nat) : List Event := List.replicate n (.sched .exec)

/-- A time slice runs out, and after `n` steps another task goes on. -/
def slice (n : Nat) : List Event :=
  (List.replicate 9 (.sched .irq :: execs 4)).flatten ++
    .sched .irq :: execs n

/-- The kernel starts a task at 3, calls the heap, and is preempted with
the lock taken. -/
def preempted : List Event :=
  [.sched (.call .newTask), .sched .exec, .sched (.alloc 3 false)] ++
    execs 4 ++ [.enter, .lock] ++ slice 10

/-- The task waits for the lock until its time slice is over, the kernel
comes back, releases the lock and starts another task. -/
def resumed : List Event :=
  preempted ++ [.enter, .lock] ++ slice 13 ++
    [.release, .sched (.call .newTask), .sched .exec]

/-- The kernel is preempted in the heap, gets back to it and releases the
lock, and then starts another task: that task's object is waited for by
nobody else, and the task that waits at the lock itself is not stuck. -/
theorem run_not_stuck_booted : ∃ tr m, Run booted tr m ∧
    m.sched.stack = [.newTask 0 .alloc] ∧ m.own 3 = .lock ∧ ¬Stuck m := by
  have hcheck : (Run.follow apply
      (fun m e => decide (e.ofHeap = true ∧ ¬m.Intrudes e)) resumed
        booted).map (fun m => (m.sched.stack, m.own 3))
      = some ([.newTask 0 .alloc], .lock) := by
    decide +kernel
  obtain ⟨tr, m, hr, hok, hv⟩ :=
    Ntibux.Run.of_follow_map (fun _ _ _ hs => hs) hcheck
  injection hv with hst hown
  refine ⟨tr, m, hr, hst, hown, ?_⟩
  apply run_not_stuck booted_initial hr
  · exact fun p hp => (of_decide_eq_true (hok p hp)).1
  · exact fun p hp => (of_decide_eq_true (hok p hp)).2

/-- The task starts another task while the kernel is preempted in the
heap. -/
theorem booted_stuck : ∃ tr m, Initial booted ∧ Run booted tr m ∧
    (∀ p ∈ tr, p.2.ofHeap = true) ∧ Stuck m := by
  have hcheck : (Run.follow apply (fun _ e => e.ofHeap)
      (preempted ++ [.sched (.call .newTask), .sched .exec]) booted).map
        (fun m => (m.sched.lost, m.sched.stack.head?, m.sched.intf,
          m.sched.runner, m.own 1))
      = some (false, some (.newTask 0 .alloc), false, 3, .body) := by
    decide +kernel
  obtain ⟨tr, m, hr, hof, hv⟩ :=
    Ntibux.Run.of_follow_map (fun _ _ _ hs => hs) hcheck
  injection hv with hlost hv
  injection hv with hhead hv
  injection hv with hoff hv
  injection hv with hrun hown
  refine ⟨tr, m, booted_initial, hr, hof, hlost, .inl ?_, hoff, 1, ?_, hown⟩
  · unfold State.CallsHeap
    rw [hhead]
    trivial
  · rw [hrun]
    decide

end Shared

end Ntibux.Sched
