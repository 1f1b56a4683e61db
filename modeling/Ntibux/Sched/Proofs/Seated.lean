/-
Who is on the CPU, whatever the semaphore and the lock say.

A step outside the body of `yield` leaves every task's sleep alone, but
for the call that sets it (`Calm`). What there is to know of the calls
under way is little: who runs is `current` in a task's own code, and a
switch that waits to be finished is for the task that it was put away in
(`Seated`).
-/
import Ntibux.Sched.Proofs.Step
import Ntibux.Sched.Sleep

namespace Ntibux.Sched

variable {s s' : State} {e : Event} {f g : Frame} {rest fs gs : List Frame}
  {t u : Nat} {objects objects' : List Nat}

-- ================================================================ the flow

theorem Fits.mono (h : Fits objects t fs)
    (hsub : ∀ u ∈ objects, u ∈ objects') : Fits objects' t fs := by
  induction fs generalizing t with
  | nil => trivial
  | cons f fs ih =>
      cases f with
      | yield pc => exact ih h
      | switch old next pc =>
          cases old with
          | none => exact h
          | some old => exact ⟨h.1, ih h.2⟩
      | resume flag pc => exact ih h
      | isr kind flag pc =>
          cases kind with
          | timer => exact ih h
          | fault => exact h
      | newTask u pc =>
          cases pc with
          | pop => exact ih h
          | alloc => exact ih h
          | _ => exact ⟨hsub u h.1, ih h.2⟩
      | kill pc => exact h
      | killTask id pc => exact h

/-- No switch is among the calls. -/
def NoSwitch (fs : List Frame) : Prop :=
  ∀ f ∈ fs, ∀ old next pc, f ≠ .switch old next pc

/-- A call of `sleep` that no body of `yield` has followed. -/
def Early : List Frame → Prop
  | [] => False
  | .yield pc :: rest =>
      (pc = .pop ∨ pc = .lock ∨ pc = .body) ∧ (rest = [] ∨ Early rest)
  | .isr .timer _ _ :: rest => Early rest
  | _ :: _ => False

/-- Who runs and what goes on fit together. -/
structure Seated (s : State) : Prop where
  runner : NoSwitch s.stack → s.runner = s.current
  here : Fits s.objects s.current s.stack
  ctx : ∀ t c, s.ctx t = some c → Fits s.objects t c.frames
  current : s.current ∈ s.objects
  idle : s.idle ∈ s.objects
  tasks : ∀ t ∈ s.tasks, t ∈ s.objects
  null : 0 ∉ s.objects

/-- The sleepers are left alone. -/
structure Calm (s s' : State) : Prop where
  current : s'.current = s.current
  idle : s'.idle = s.idle
  ticks : s.ticks ≤ s'.ticks
  objects : ∀ t ∈ s.objects, t ∈ s'.objects
  sleep : ∀ t ∈ s.objects, (s'.task t).sleep = (s.task t).sleep
  last : ∀ t ∈ s.objects, (s'.task t).lastSwitched = (s.task t).lastSwitched
  fresh : ∀ t ∈ s'.objects, t ∉ s.objects → (s'.task t).sleep = 0
  early : Early s.stack → Early s'.stack

/-- What the innermost call can become where it does not switch. -/
structure Turns (f : Frame) (gs : List Frame) : Prop where
  fits : ∀ objects t rest, Fits objects t (f :: rest) →
    Fits objects t (gs ++ rest)
  stays : ∀ rest, NoSwitch (gs ++ rest) → NoSwitch (f :: rest)
  early : ∀ rest, Early (f :: rest) → Early (gs ++ rest)

theorem noSwitch_cons (hf : ∀ old next pc, f ≠ .switch old next pc)
    (h : NoSwitch rest) : NoSwitch (f :: rest) := by
  intro g hg
  rcases List.mem_cons.mp hg with rfl | hg
  · exact hf
  · exact h g hg

theorem NoSwitch.drop (h : NoSwitch (gs ++ rest)) : NoSwitch rest :=
  fun f hf => h f (List.mem_append_right gs hf)

/-- Where neither the call nor what it becomes is a switch. -/
theorem Turns.of (hf : ∀ old next pc, f ≠ .switch old next pc)
    (hfits : ∀ objects t rest, Fits objects t (f :: rest) →
      Fits objects t (gs ++ rest))
    (hearly : ∀ rest, Early (f :: rest) → Early (gs ++ rest)) :
    Turns f gs :=
  ⟨hfits, fun _ h => noSwitch_cons hf h.drop, hearly⟩

namespace Seated

variable (hs : Seated s)
include hs

/-- The innermost call becomes others. -/
theorem turn (hst : s.stack = f :: rest) (gs : List Frame)
    (ht : Turns f gs) (sem : Int) (intf locked : Bool) :
    Seated { s with
        interruptsSemaphore := sem, intf := intf, locked := locked
        stack := gs ++ rest } ∧
      Calm s { s with
        interruptsSemaphore := sem, intf := intf, locked := locked
        stack := gs ++ rest } := by
  have hhere := hs.here
  rw [hst] at hhere
  constructor
  · constructor
    · intro hno
      apply hs.runner
      rw [hst]
      exact ht.stays rest hno
    · exact ht.fits _ _ _ hhere
    · exact hs.ctx
    · exact hs.current
    · exact hs.idle
    · exact hs.tasks
    · exact hs.null
  · refine ⟨rfl, rfl, le_rfl, fun _ h => h, fun _ _ => rfl, fun _ _ => rfl,
      fun t h hn => absurd h hn, ?_⟩
    intro he
    rw [hst] at he
    exact ht.early rest he

end Seated

theorem Calm.refl (s : State) : Calm s s :=
  ⟨rfl, rfl, le_rfl, fun _ h => h, fun _ _ => rfl, fun _ _ => rfl,
    fun _ h hn => absurd h hn, fun h => h⟩

theorem Calm.trans {s₁ : State} (h : Calm s s₁) (h' : Calm s₁ s') :
    Calm s s' := by
  refine ⟨h'.current.trans h.current, h'.idle.trans h.idle,
    h.ticks.trans h'.ticks, fun t ht => h'.objects t (h.objects t ht), ?_, ?_,
    ?_, fun he => h'.early (h.early he)⟩
  · intro t ht
    exact (h'.sleep t (h.objects t ht)).trans (h.sleep t ht)
  · intro t ht
    exact (h'.last t (h.objects t ht)).trans (h.last t ht)
  · intro t ht hn
    by_cases hm : t ∈ s₁.objects
    · exact (h'.sleep t hm).trans (h.fresh t hm hn)
    · exact h'.fresh t ht hm

namespace Seated

variable (hs : Seated s)
include hs

/-- A timer tick. -/
theorem tick (hticks : s.ticks + 1 < 2 ^ 64) :
    Seated s.tick ∧ Calm s s.tick := by
  have hctx : s.tick.ctx = s.ctx := alike_tick.ctx
  have hticks' : s.tick.ticks = s.ticks + 1 := Nat.mod_eq_of_lt hticks
  constructor
  · exact ⟨hs.runner, hs.here, hctx ▸ hs.ctx, hs.current, hs.idle, hs.tasks,
      hs.null⟩
  · refine ⟨rfl, rfl, by omega, fun _ h => h, ?_, ?_,
      fun t h hn => absurd h hn, fun h => h⟩
    · intro t _
      by_cases h : t = s.current
      · rw [h]
        simp [State.tick, State.setTask]
      · simp [State.tick, State.setTask, h]
    · intro t _
      by_cases h : t = s.current
      · rw [h]
        simp [State.tick, State.setTask]
      · simp [State.tick, State.setTask, h]

/-- One step of the innermost call, outside the body of `yield` and where
it loads no context. -/
theorem exec (hst : s.stack = f :: rest) (hbody : f ≠ .yield .body)
    (hload : ∀ old n, f ≠ .switch old n .load)
    (hticks : s.ticks + 1 < 2 ^ 64) (h : s.execFrame rest f = some s') :
    Seated s' ∧ Calm s s' := by
  have hhere := hs.here
  rw [hst] at hhere
  -- waiting for the lock changes nothing
  have hlock : ∀ g, Turns f [g] → s' = s.lockThen (g :: rest) →
      Seated s' ∧ Calm s s' := by
    intro g ht heq
    unfold State.lockThen at heq
    split at heq
    · rw [heq]
      exact ⟨hs, .refl s⟩
    · rw [heq]
      exact hs.turn hst [g] ht _ _ _
  cases f with
  | yield pc =>
      cases pc with
      | pop =>
          cases h
          exact hs.turn hst [.yield .lock] (.of nofun (by simp [Fits])
            (by simp [Early])) _ _ _
      | lock =>
          cases h
          exact hlock (.yield .body) (.of nofun (by simp [Fits])
            (by simp [Early])) rfl
      | body => exact absurd rfl hbody
      | release =>
          cases h
          exact hs.turn hst [.yield .push] (.of nofun (by simp [Fits])
            (by simp [Early])) _ _ _
      | push =>
          cases h
          exact hs.turn hst [] (.of nofun (by simp [Fits])
            (by simp [Early])) _ _ _
  | switch old n pc =>
      cases pc with
      | release =>
          cases h
          refine hs.turn hst [.switch old n .load] ⟨?_, ?_, ?_⟩ _ _ _
          · intro objects t rest hf
            cases old with
            | none => exact hf
            | some old => exact hf
          · intro rest hno
            exact absurd rfl (hno _ List.mem_cons_self old n .load)
          · simp [Early]
      | load => exact absurd rfl (hload old n)
  | resume flag pc =>
      cases pc with
      | popf =>
          cases h
          exact hs.turn hst [.resume flag .push] (.of nofun
            (by simp [Fits]) (by simp [Early])) _ _ _
      | push =>
          cases h
          exact hs.turn hst [] (.of nofun (by simp [Fits])
            (by simp [Early])) _ _ _
  | isr kind flag pc =>
      cases kind with
      | fault => exact absurd hhere (by simp [Fits])
      | timer =>
          cases pc with
          | handler =>
              obtain ⟨hs₁, hc₁⟩ := hs.tick hticks
              unfold State.execFrame at h
              dsimp only at h
              split at h
              · cases h
                have h₂ := hs₁.turn (f := .isr .timer flag .handler) hst
                  [.isr .timer flag .inc] (.of nofun (by simp [Fits])
                  (by simp [Early])) s.interruptsSemaphore s.intf s.locked
                exact ⟨h₂.1, hc₁.trans h₂.2⟩
              · cases h
                have h₂ := hs₁.turn (f := .isr .timer flag .handler) hst
                  [.isr .timer flag .push] (.of nofun (by simp [Fits])
                  (by simp [Early])) s.interruptsSemaphore s.intf s.locked
                exact ⟨h₂.1, hc₁.trans h₂.2⟩
          | pop =>
              cases h
              exact hs.turn hst [.isr .timer flag .handler] (.of nofun
                (by simp [Fits]) (by simp [Early])) _ _ _
          | inc =>
              cases h
              exact hs.turn hst [.yield .pop, .isr .timer flag .dec]
                (.of nofun (by simp [Fits]) (by simp [Early])) _ _ _
          | dec =>
              cases h
              exact hs.turn hst [.isr .timer flag .push] (.of nofun
                (by simp [Fits]) (by simp [Early])) _ _ _
          | push =>
              cases h
              exact hs.turn hst [.isr .timer flag .iret] (.of nofun
                (by simp [Fits]) (by simp [Early])) _ _ _
          | iret =>
              cases h
              exact hs.turn hst [] (.of nofun (by simp [Fits])
                (by simp [Early])) _ _ _
  | newTask u pc =>
      cases pc with
      | pop =>
          cases h
          exact hs.turn hst [.newTask u .alloc] (.of nofun
            (by simp [Fits]) (by simp [Early])) _ _ _
      | alloc => cases h
      | lock =>
          cases h
          exact hlock (.newTask u .pushBack) (.of nofun (by simp [Fits])
            (by simp [Early])) rfl
      | pushBack =>
          cases h
          have hs₁ : Seated { s with tasks := s.tasks ++ [u] } := by
            refine ⟨hs.runner, hs.here, hs.ctx, hs.current, hs.idle, ?_,
              hs.null⟩
            intro t ht
            rcases List.mem_append.mp ht with ht | ht
            · exact hs.tasks t ht
            · rw [List.mem_singleton.mp ht]
              exact hhere.1
          have hc₁ : Calm s { s with tasks := s.tasks ++ [u] } :=
            ⟨rfl, rfl, le_rfl, fun _ h => h, fun _ _ => rfl, fun _ _ => rfl,
              fun _ h hn => absurd h hn, fun h => h⟩
          have h₂ := hs₁.turn (f := .newTask u .pushBack) hst
            [.newTask u .release] (.of nofun (by simp [Fits])
            (by simp [Early])) s.interruptsSemaphore s.intf s.locked
          exact ⟨h₂.1, hc₁.trans h₂.2⟩
      | release =>
          cases h
          exact hs.turn hst [.newTask u .push] (.of nofun
            (by simp [Fits]) (by simp [Early])) _ _ _
      | push =>
          cases h
          exact hs.turn hst [] (.of nofun (by simp [Fits])
            (by simp [Early])) _ _ _
  | kill pc => exact absurd hhere (by simp [Fits])
  | killTask id pc => exact absurd hhere (by simp [Fits])

end Seated

theorem setTask_sleep {v : Task} (hv : v.sleep = (s.task t).sleep) (u : Nat) :
    ((s.setTask t v).task u).sleep = (s.task u).sleep := by
  show (Function.update s.task t v u).sleep = _
  by_cases h : u = t
  · rw [h, Function.update_self]
    exact hv
  · rw [Function.update_of_ne h]

theorem setTask_last {v : Task}
    (hv : v.lastSwitched = (s.task t).lastSwitched) (u : Nat) :
    ((s.setTask t v).task u).lastSwitched = (s.task u).lastSwitched := by
  show (Function.update s.task t v u).lastSwitched = _
  by_cases h : u = t
  · rw [h, Function.update_self]
    exact hv
  · rw [Function.update_of_ne h]

theorem call_enter {c : Call} (h : Step s (.call c) s') :
    s.enter c = some s' := by
  obtain ⟨hst, hne, -⟩ := call_inv h
  unfold Step apply at h
  split at h
  · cases h
  · simpa [hst, hne] using h

namespace Seated

/-- A context is loaded for the task that is `current`. -/
theorem loadContext {n : Nat} (hcur : s.current = n)
    (hctx : ∀ t c, s.ctx t = some c → Fits s.objects t c.frames)
    (hc : s.current ∈ s.objects) (hi : s.idle ∈ s.objects)
    (ht : ∀ t ∈ s.tasks, t ∈ s.objects) (h0 : 0 ∉ s.objects)
    (he : ¬Early s.stack) :
    Seated (s.loadContext n) ∧ Calm s (s.loadContext n) := by
  cases hn : s.ctx n with
  | none =>
      have heq : s.loadContext n =
          { s with runner := n, stack := [], lost := true } := by
        have hn : (s.task n).ctx = none := hn
        unfold State.loadContext
        rw [hn]
      rw [heq]
      exact ⟨⟨fun _ => hcur.symm, trivial, hctx, hc, hi, ht, h0⟩, rfl, rfl,
        le_rfl, fun _ h => h, fun _ _ => rfl, fun _ _ => rfl,
        fun _ h hn => absurd h hn, fun h => absurd h he⟩
  | some c =>
      rw [loadContext_eq hn]
      have hsleep := setTask_sleep (s := { s with runner := n }) (t := n)
        (v := { s.task n with ctx := none }) rfl
      have hlast := setTask_last (s := { s with runner := n }) (t := n)
        (v := { s.task n with ctx := none }) rfl
      refine ⟨⟨fun _ => hcur.symm, ?_, ?_, hc, hi, ht, h0⟩, rfl, rfl, le_rfl,
        fun _ h => h, fun t _ => hsleep t, fun t _ => hlast t,
        fun _ h hn => absurd h hn, fun h => absurd h he⟩
      · have hfits := hctx n c hn
        rw [← hcur] at hfits
        exact hfits
      · intro t c' hc'
        have hupd : (Function.update s.ctx n none) t = some c' := by
          rw [← hc']
          exact congrFun (ctx_setTask (s := { s with runner := n })
            (t := n) { s.task n with ctx := none }).symm t
        by_cases htn : t = n
        · rw [htn, Function.update_self] at hupd
          cases hupd
        · rw [Function.update_of_ne htn] at hupd
          exact hctx t c' hupd

variable (hs : Seated s)
include hs

/-- The running flow is put away in the task that the switch leaves. -/
theorem load {old : Option Nat} {n : Nat}
    (hst : s.stack = .switch old n .load :: rest) :
    Seated (s.contextSwitch old n rest) ∧
      Calm s (s.contextSwitch old n rest) := by
  have hhere := hs.here
  rw [hst] at hhere
  cases old with
  | none => exact hhere.elim
  | some old =>
      obtain ⟨hcur, hrest⟩ := hhere
      have hearly : ¬Early s.stack := by
        rw [hst]
        exact id
      have hsave : ∀ t c, (s.saveContext (some old) rest).ctx t = some c →
          Fits s.objects t c.frames := by
        intro t c hc
        unfold State.saveContext at hc
        simp only [ctx_setTask] at hc
        by_cases ht : t = old
        · rw [ht, Function.update_self] at hc
          cases hc
          rw [ht]
          exact hrest
        · rw [Function.update_of_ne ht] at hc
          exact hs.ctx t c hc
      obtain ⟨hs₂, hc₂⟩ := loadContext (s := s.saveContext (some old) rest)
        hcur hsave hs.current hs.idle hs.tasks hs.null hearly
      have hsleep := setTask_sleep (s := s) (t := old)
        (v := { s.task old with ctx := some ⟨s.intf, rest⟩ }) rfl
      have hlast := setTask_last (s := s) (t := old)
        (v := { s.task old with ctx := some ⟨s.intf, rest⟩ }) rfl
      have hc₁ : Calm s (s.saveContext (some old) rest) :=
        ⟨rfl, rfl, le_rfl, fun _ h => h, fun t _ => hsleep t,
          fun t _ => hlast t, fun _ h hn => absurd h hn,
          fun h => absurd h hearly⟩
      exact ⟨hs₂, hc₁.trans hc₂⟩

/-- A call on top of those under way, or in a task's own code. -/
theorem push (g : Frame) (intf : Bool)
    (hfits : Fits s.objects s.current (g :: s.stack))
    (hearly : Early s.stack → Early (g :: s.stack)) :
    Seated { s with intf := intf, stack := g :: s.stack } ∧
      Calm s { s with intf := intf, stack := g :: s.stack } := by
  refine ⟨⟨?_, hfits, hs.ctx, hs.current, hs.idle, hs.tasks, hs.null⟩, rfl,
    rfl, le_rfl, fun _ h => h, fun _ _ => rfl, fun _ _ => rfl,
    fun _ h hn => absurd h hn, hearly⟩
  intro hno
  exact hs.runner fun f hf => hno f (List.mem_cons_of_mem g hf)

/-- A new task object. -/
theorem alloc {flag : Bool} (h : Step s (.alloc t flag) s') :
    Seated s' ∧ Calm s s' := by
  obtain ⟨u, rest, hst, hn, rfl⟩ := alloc_inv h
  have ht0 : t ≠ 0 := by
    intro ht
    unfold Step apply at h
    simp [hst, ht] at h
  have hhere := hs.here
  rw [hst] at hhere
  have hsub : ∀ u ∈ s.objects, u ∈ t :: s.objects :=
    fun u hu => List.mem_cons_of_mem t hu
  -- what was on record was not `t`, so it is as before
  have hother : ∀ u ∈ s.objects, ((s.initTask t flag).task u) = s.task u := by
    intro u hu
    have hne : u ≠ t := ne_of_mem_of_not_mem hu hn
    exact Function.update_of_ne hne _ _
  constructor
  · constructor
    · intro hno
      apply hs.runner
      rw [hst]
      refine noSwitch_cons (f := .newTask u .alloc) nofun ?_
      exact fun f hf => hno f (List.mem_cons_of_mem _ hf)
    · exact ⟨List.mem_cons_self, Fits.mono hhere hsub⟩
    · intro a c hc
      have hupd : (Function.update s.ctx t (some ⟨flag, []⟩)) a = some c := by
        rw [← hc]
        exact congrFun (ctx_setTask (s := s) (t := t)
          ⟨s.nextId, 0, 0, 0, some ⟨flag, []⟩⟩).symm a
      by_cases hat : a = t
      · rw [hat, Function.update_self] at hupd
        cases hupd
        trivial
      · rw [Function.update_of_ne hat] at hupd
        exact Fits.mono (hs.ctx a c hupd) hsub
    · exact hsub _ hs.current
    · exact hsub _ hs.idle
    · exact fun a ha => hsub a (hs.tasks a ha)
    · intro h0
      rcases List.mem_cons.mp h0 with h0 | h0
      · exact ht0 h0.symm
      · exact hs.null h0
  · refine ⟨rfl, rfl, le_rfl, hsub, ?_, ?_, ?_, ?_⟩
    · exact fun a ha => congrArg Task.sleep (hother a ha)
    · exact fun a ha => congrArg Task.lastSwitched (hother a ha)
    · intro a ha hna
      rcases List.mem_cons.mp ha with rfl | ha
      · exact congrArg Task.sleep (Function.update_self a _ s.task)
      · exact absurd ha hna
    · intro he
      rw [hst] at he
      exact he.elim

/-- A step outside the body of `yield`, other than a call of `sleep`. -/
theorem step (hquiet : e.quiet = true) (hsleep : ∀ ms, e ≠ .call (.sleep ms))
    (hbody : e = .exec → s.stack.head? ≠ some (.yield .body))
    (hticks : s.ticks + 1 < 2 ^ 64) (h : Step s e s') :
    Seated s' ∧ Calm s s' := by
  cases e with
  | exec =>
      obtain ⟨f, rest, hst, hf⟩ := exec_inv h
      have hne : f ≠ .yield .body := by
        intro hf
        apply hbody rfl
        rw [hst, hf]
        rfl
      by_cases hload : ∃ old n, f = .switch old n .load
      · obtain ⟨old, n, rfl⟩ := hload
        cases hf
        exact hs.load hst
      · have hload' : ∀ old n, f ≠ .switch old n .load :=
          fun old n heq => hload ⟨old, n, heq⟩
        exact hs.exec hst hne hload' hticks hf
  | irq =>
      obtain ⟨-, rfl⟩ := irq_inv h
      exact hs.push (.isr .timer true .pop) false hs.here fun h => h
  | call c =>
      have hst := (call_inv h).1
      have hcall := call_enter h
      have hhere : ∀ g, Fits s.objects s.current [g] →
          Fits s.objects s.current (g :: s.stack) := by
        intro g hg
        rwa [hst]
      cases c with
      | yield =>
          cases hcall
          have h₁ := hs.push (.yield .pop) s.intf (hhere _ trivial) fun he =>
            absurd he (by rw [hst]; exact id)
          rwa [hst] at h₁
      | sleep ms => exact absurd rfl (hsleep ms)
      | newTask =>
          cases hcall
          have h₁ := hs.push (.newTask 0 .pop) s.intf (hhere _ trivial) fun he =>
            absurd he (by rw [hst]; exact id)
          rwa [hst] at h₁
      | killMe => cases hquiet
      | killTask id => cases hquiet
  | alloc t flag => exact hs.alloc h
  | fault => cases hquiet
  | killTo t => cases hquiet

/-- Times on record, and the list in another order. -/
theorem alike (hctx : s'.ctx = s.ctx) (hr : s'.runner = s.runner)
    (hc : s'.current = s.current) (hi : s'.idle = s.idle)
    (ho : s'.objects = s.objects) (hst : s'.stack = s.stack)
    (ht : ∀ t ∈ s'.tasks, t ∈ s.tasks) : Seated s' := by
  constructor
  · rw [hr, hc, hst]
    exact hs.runner
  · rw [ho, hc, hst]
    exact hs.here
  · rw [hctx, ho]
    exact hs.ctx
  · rw [hc, ho]
    exact hs.current
  · rw [hi, ho]
    exact hs.idle
  · rw [ho]
    exact fun t h => hs.tasks t (ht t h)
  · rw [ho]
    exact hs.null

end Seated

end Ntibux.Sched
