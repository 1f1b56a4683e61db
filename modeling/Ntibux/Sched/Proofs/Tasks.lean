/-
The steps that change who runs, or who is there to run: loading a
context, a new task object, the list's new member, and the two kills.
Each keeps `Sound`, and its lemma says what becomes of the total.
-/
import Ntibux.Sched.Proofs.Sound

namespace Ntibux.Sched

variable {s s' : State} {f : Frame} {rest : List Frame}
  {old : Option Nat} {t next id : Nat} {flag : Bool}

-- ==================================================== loading a context

/-- All suspended tasks wait to be loaded, and the lock is free: what a
switch has brought about when it loads `current`. -/
structure Loadable (s : State) : Prop where
  lost : s.lost = false
  nodup : s.all.Nodup
  onHeap : ∀ t ∈ s.all, t ∈ s.objects
  ctx_some : ∀ t ∈ s.all, s.ctx t ≠ none
  ctx_open : ∀ t ∈ s.all, ∀ c ∈ s.ctx t, ∀ f ∈ c.frames, f.masked = false
  locked : s.locked = false
  current : s.current ∈ s.all

theorem debt_of_ctx {c : Ctx} (hc : s.ctx t = some c) :
    s.debt t = owed c.frames := by
  unfold State.debt
  rw [hc]
  rfl

theorem debt_of_none (hc : s.ctx t = none) : s.debt t = 0 := by
  unfold State.debt
  rw [hc]
  rfl

theorem ctx_setTask (v : Task) :
    (s.setTask t v).ctx = Function.update s.ctx t v.ctx := by
  funext a
  show (Function.update s.task t v a).ctx = _
  by_cases ha : a = t
  · rw [ha, Function.update_self, Function.update_self]
  · rw [Function.update_of_ne ha, Function.update_of_ne ha]
    rfl

theorem debt_setTask (v : Task) :
    (s.setTask t v).debt = Function.update s.debt t (ctxOwed v.ctx) := by
  funext a
  unfold State.debt
  rw [ctx_setTask]
  by_cases ha : a = t
  · rw [ha, Function.update_self, Function.update_self]
  · rw [Function.update_of_ne ha, Function.update_of_ne ha]

theorem loadContext_eq {c : Ctx} (hc : s.ctx next = some c) :
    s.loadContext next = ({ s with runner := next }.setTask next
      { s.task next with ctx := none }).goto
        (.resume c.flag .popf :: c.frames) := by
  have hc : (s.task next).ctx = some c := hc
  unfold State.loadContext
  rw [hc]

/-- What is loaded owes what it owed, and `context_switch`'s own
`push_ints`. -/
theorem Loadable.load (hl : Loadable s)
    (hle : s.interruptsSemaphore + 1 + ((s.all.map s.debt).sum : Nat) ≤ 1) :
    Sound (s.loadContext s.current) ∧ (s.loadContext s.current).total
      = s.interruptsSemaphore + 1 + ((s.all.map s.debt).sum : Nat) := by
  obtain ⟨c, hc⟩ : ∃ c, s.ctx s.current = some c :=
    Option.ne_none_iff_exists'.mp (hl.ctx_some _ hl.current)
  rw [loadContext_eq hc]
  let s' := ({ s with runner := s.current }.setTask s.current
    { s.task s.current with ctx := none }).goto
      (.resume c.flag .popf :: c.frames)
  show Sound s' ∧ s'.total = _
  have hopen : ∀ f ∈ c.frames, f.masked = false :=
    hl.ctx_open _ hl.current c hc
  have hctx : s'.ctx = Function.update s.ctx s.current none :=
    ctx_setTask _
  -- what the loaded task owed is now owed by the running flow
  have hsum : ((s.all.map s'.debt).sum + owed c.frames : Nat)
      = (s.all.map s.debt).sum := by
    have hd : s'.debt = Function.update s.debt s.current 0 :=
      debt_setTask _
    have hu := sum_map_update hl.nodup hl.current s.debt 0
    rw [debt_of_ctx hc, Nat.add_zero] at hu
    rw [hd]
    exact hu
  have htotal : s'.total
      = s.interruptsSemaphore + 1 + ((s.all.map s.debt).sum : Nat) := by
    show s.interruptsSemaphore + ((1 + owed c.frames : Nat) : Int)
      + ((s.all.map s'.debt).sum : Nat) = _
    omega
  refine ⟨?_, htotal⟩
  exact
    { lost := hl.lost
      nodup := hl.nodup
      onHeap := hl.onHeap
      ctx_none := by
        intro t ht
        rw [hctx]
        by_cases htc : t = s.current
        · rw [htc, Function.update_self]
          exact iff_of_true rfl rfl
        · rw [Function.update_of_ne htc]
          exact iff_of_false (hl.ctx_some t ht) htc
      ctx_open := by
        intro t ht
        rw [hctx]
        by_cases htc : t = s.current
        · rw [htc, Function.update_self]
          intro c' hc'
          cases hc'
        · rw [Function.update_of_ne htc]
          exact hl.ctx_open t ht
      tail_open := hopen
      intf_off := by
        intro f hf hm
        cases hf
        cases hm
      locked := hl.locked
      seat := ⟨rfl, hl.current⟩
      total_le := htotal ▸ hle }

/-- Once the flow is saved, every task waits, and the semaphore is what
the switch's own `push_ints` leaves. -/
theorem saveContext_loadable (hs : Sound s)
    (hst : s.stack = .switch old next .load :: rest) :
    Loadable (s.saveContext old rest) ∧
      (s.saveContext old rest).current = next ∧
      (s.saveContext old rest).interruptsSemaphore + 1
        + (((s.saveContext old rest).all.map
            (s.saveContext old rest).debt).sum : Nat) = s.total := by
  have hseat := hs.seat
  rw [hst] at hseat
  obtain ⟨hcur, hnext, hne, hold⟩ := hseat
  have hlocked : s.locked = false := by
    rw [hs.locked, hst]
    rfl
  cases old with
  | none =>
      -- nothing is saved: the task that ran is in the list no more
      refine ⟨?_, hcur, ?_⟩
      · exact
          { lost := hs.lost
            nodup := hs.nodup
            onHeap := hs.onHeap
            ctx_some := by
              intro t ht h
              exact hold ((hs.ctx_none t ht).mp h ▸ ht)
            ctx_open := hs.ctx_open
            locked := hlocked
            current := hcur ▸ hnext }
      · unfold State.total
        rw [hst]
        rfl
  | some o =>
      obtain ⟨ho, hrun⟩ := hold
      have hopen : ∀ f ∈ rest, f.masked = false := by
        have h := hs.tail_open
        rw [hst] at h
        exact h
      let s₁ := s.setTask o { s.task o with ctx := some ⟨s.intf, rest⟩ }
      have hctx : s₁.ctx = Function.update s.ctx o (some ⟨s.intf, rest⟩) :=
        ctx_setTask _
      refine ⟨?_, hcur, ?_⟩
      · exact
          { lost := hs.lost
            nodup := hs.nodup
            onHeap := hs.onHeap
            ctx_some := by
              intro t ht
              show s₁.ctx t ≠ none
              rw [hctx]
              by_cases hto : t = o
              · rw [hto, Function.update_self]
                exact Option.some_ne_none _
              · rw [Function.update_of_ne hto]
                intro h
                exact hto (((hs.ctx_none t ht).mp h).trans ho.symm)
            ctx_open := by
              intro t ht c hc
              change c ∈ s₁.ctx t at hc
              rw [hctx] at hc
              by_cases hto : t = o
              · rw [hto, Function.update_self] at hc
                cases hc
                exact hopen
              · rw [Function.update_of_ne hto] at hc
                exact hs.ctx_open t ht c hc
            locked := hlocked
            current := hcur ▸ hnext }
      · show s.interruptsSemaphore + 1 + ((s.all.map s₁.debt).sum : Nat) = _
        have hsum : ((s.all.map s₁.debt).sum : Nat)
            = (s.all.map s.debt).sum + owed rest := by
          have hd : s₁.debt = Function.update s.debt o (owed rest) :=
            debt_setTask _
          have hu := sum_map_update hs.nodup (ho ▸ hrun) s.debt (owed rest)
          have h0 : s.debt o = 0 :=
            debt_of_none ((hs.ctx_none o (ho ▸ hrun)).mpr ho)
          rw [hd]
          omega
        unfold State.total
        rw [hst, hsum]
        show _ = s.interruptsSemaphore + ((1 + owed rest : Nat) : Int) + _
        omega

theorem contextSwitch_sound (hs : Sound s)
    (hst : s.stack = .switch old next .load :: rest) :
    Sound (s.contextSwitch old next rest) ∧
      (s.contextSwitch old next rest).total = s.total := by
  obtain ⟨hl, hcur, htotal⟩ := saveContext_loadable hs hst
  have h := hl.load (htotal ▸ hs.total_le)
  rw [hcur, htotal] at h
  exact h

-- ================================================= tasks come and go

/-- A new task object waits to be put on the list. -/
theorem initTask_sound {u : Nat} (hs : Sound s)
    (hst : s.stack = .newTask u .alloc :: rest) (ht : t ∉ s.objects) :
    let s' := (s.initTask t flag).goto (.newTask t .lock :: rest)
    Sound s' ∧ s'.total = s.total := by
  intro s'
  have hf : (Frame.newTask u .alloc).Stays := by
    intro _ _ _ h
    cases h
  have hnew : t ∉ s.all := fun h => ht (hs.onHeap t h)
  have hne : ∀ a ∈ s.all, a ≠ t := fun a ha hat => hnew (hat ▸ ha)
  have hctx : s'.ctx = Function.update s.ctx t (some ⟨flag, []⟩) :=
    ctx_setTask _
  -- `t` is not on the list yet: it owes nothing there
  have hmap : s.all.map s'.debt = s.all.map s.debt := by
    apply List.map_congr_left
    intro a ha
    unfold State.debt
    rw [hctx, Function.update_of_ne (hne a ha)]
  have htotal : s'.total = s.total := by
    unfold State.total
    rw [owed_live hst hf]
    show s.interruptsSemaphore + ((1 + owed rest : Nat) : Int)
      + ((s.all.map s'.debt).sum : Nat) = _
    rw [hmap]
    rfl
  refine ⟨?_, htotal⟩
  exact
    { lost := hs.lost
      nodup := hs.nodup
      onHeap := fun a ha => List.mem_cons_of_mem _ (hs.onHeap a ha)
      ctx_none := by
        intro a ha
        rw [hctx, Function.update_of_ne (hne a ha)]
        exact hs.ctx_none a ha
      ctx_open := by
        intro a ha
        rw [hctx, Function.update_of_ne (hne a ha)]
        exact hs.ctx_open a ha
      tail_open := hs.rest_open hst hf
      intf_off := by
        intro g hg _
        apply hs.intf_off (.newTask u .alloc)
        · rw [hst]
          rfl
        · rfl
      locked := by
        show s.locked = false
        rw [hs.locked, hst]
        rfl
      seat := by
        refine ⟨hs.plain hst hf, hnew, List.mem_cons_self, flag, ?_⟩
        rw [hctx, Function.update_self]
      total_le := htotal ▸ hs.total_le }

/-- The new task is on the list. -/
theorem pushBack_sound (hs : Sound s)
    (hst : s.stack = .newTask t .pushBack :: rest) :
    let s' := { s with tasks := s.tasks ++ [t] }.goto
      (.newTask t .release :: rest)
    Sound s' ∧ s'.total = s.total := by
  intro s'
  have hf : (Frame.newTask t .pushBack).Stays := by
    intro _ _ _ h
    cases h
  have hseat := hs.seat
  rw [hst] at hseat
  obtain ⟨hplain, hnew, hheap, flag', hctx⟩ := hseat
  have hall : s'.all = s.all ++ [t] := rfl
  have hmem : ∀ {a}, a ∈ s'.all ↔ a ∈ s.all ∨ a = t := by
    intro a
    rw [hall, List.mem_append, List.mem_singleton]
  -- the new task owes nothing
  have htotal : s'.total = s.total := by
    have hdebt : s.debt t = 0 := debt_of_ctx hctx
    unfold State.total
    rw [owed_live hst hf, hall]
    show s.interruptsSemaphore + ((1 + owed rest : Nat) : Int)
      + (((s.all ++ [t]).map s.debt).sum : Nat) = _
    rw [List.map_append, List.sum_append, List.map_singleton,
      List.sum_singleton, hdebt]
    rfl
  refine ⟨?_, htotal⟩
  exact
    { lost := hs.lost
      nodup := by
        rw [hall]
        apply List.nodup_append.mpr
        refine ⟨hs.nodup, List.pairwise_singleton _ t, ?_⟩
        intro a ha b hb hab
        rw [List.mem_singleton] at hb
        exact hnew (hb ▸ hab ▸ ha)
      onHeap := by
        intro a ha
        rcases hmem.mp ha with ha | ha
        · exact hs.onHeap a ha
        · rw [ha]
          exact hheap
      ctx_none := by
        intro a ha
        rcases hmem.mp ha with ha | ha
        · exact hs.ctx_none a ha
        · rw [ha]
          apply iff_of_false
          · show s.ctx t ≠ none
            rw [hctx]
            exact Option.some_ne_none _
          · intro htr
            exact hnew (htr ▸ hplain.2)
      ctx_open := by
        intro a ha c hc
        rcases hmem.mp ha with ha | ha
        · exact hs.ctx_open a ha c hc
        · rw [ha] at hc
          change c ∈ s.ctx t at hc
          rw [hctx] at hc
          cases hc
          intro g hg
          cases hg
      tail_open := hs.rest_open hst hf
      intf_off := by
        intro g hg _
        apply hs.intf_off (.newTask t .pushBack)
        · rw [hst]
          rfl
        · rfl
      locked := by
        show s.locked = true
        rw [hs.locked, hst]
        rfl
      seat := ⟨hplain.1, hmem.mpr (.inl hplain.2)⟩
      total_le := htotal ▸ hs.total_le }

/-- What a kill of the running task does. -/
structure Killed (s : State) (next : Nat) (rest : List Frame)
    (s' : State) : Prop where
  id : (s.task s.current).id ≠ 0
  stack : s'.stack = .switch none next .release :: rest
  current : s'.current = next
  runner : s'.runner = s.runner
  idle : s'.idle = s.idle
  tasks : s'.tasks = s.tasks.erase s.current
  objects : s'.objects = s.objects.erase s.current
  ctx : s'.ctx = s.ctx
  sem : s'.interruptsSemaphore = s.interruptsSemaphore
  intf : s'.intf = s.intf
  locked : s'.locked = s.locked
  lost : s'.lost = s.lost

theorem killCurrent_inv
    (h : s.killCurrentTaskLocked next rest = some s') :
    Killed s next rest s' := by
  unfold State.killCurrentTaskLocked at h
  split at h
  · cases h
  · rename_i hid
    cases h
    let s₁ : State := { s with
      tasks := s.tasks.erase s.current
      objects := s.objects.erase s.current }
    have hl := alike_switched (s := s₁) next
    exact ⟨hid, rfl, rfl, rfl, rfl, rfl, rfl, hl.ctx, rfl, rfl, rfl, rfl⟩

/-- The running task is off the list, and another is to be loaded. -/
theorem killCurrent_sound {rest' : List Frame} (hs : Sound s)
    (hst : s.stack = f :: rest)
    (hf : f = .kill .body ∨ ∃ id, f = .killTask id .body)
    (hidle : s.runner ≠ s.idle) (hnext : next ∈ s.all)
    (hne : next ≠ s.runner) (hk : Killed s next rest' s') :
    Sound s' ∧ s'.total + owed rest = s.total := by
  have hstays : f.Stays := by
    intro old n pc
    rcases hf with rfl | ⟨id, rfl⟩ <;> exact Frame.noConfusion
  have howed : f.owed = 1 := by
    rcases hf with rfl | ⟨id, rfl⟩ <;> rfl
  have hmasked : f.masked = true ∧ f.holds = true := by
    rcases hf with rfl | ⟨id, rfl⟩ <;> exact ⟨rfl, rfl⟩
  obtain ⟨hcur, hrun⟩ := hs.plain hst hstays
  have hall : s'.all = s.all.erase s.runner := by
    unfold State.all
    rw [hk.idle, hk.tasks, hcur, List.erase_cons_tail]
    simpa using hidle.symm
  have hmem : ∀ {a}, a ∈ s'.all ↔ a ≠ s.runner ∧ a ∈ s.all := by
    intro a
    rw [hall]
    exact hs.nodup.mem_erase_iff
  -- the running task has no saved context, and so no debt
  have hsum : (s'.all.map s'.debt).sum = (s.all.map s.debt).sum := by
    have hp := List.perm_cons_erase hrun
    have h0 : s.debt s.runner = 0 :=
      debt_of_none ((hs.ctx_none _ hrun).mpr rfl)
    have hdebt : s'.debt = s.debt := by
      unfold State.debt
      rw [hk.ctx]
    rw [hall, hdebt, (hp.map s.debt).sum_eq, List.map_cons,
      List.sum_cons, h0, Nat.zero_add]
  have htotal : s'.total + owed rest = s.total := by
    unfold State.total
    rw [hsum, owed_live hst hstays, howed, hk.stack, hk.sem]
    show s.interruptsSemaphore + ((1 : Nat) : Int) + _ + _ = _
    push_cast
    omega
  refine ⟨?_, htotal⟩
  exact
    { lost := hk.lost.trans hs.lost
      nodup := by
        rw [hall]
        exact hs.nodup.erase _
      onHeap := by
        intro a ha
        rw [hmem] at ha
        rw [hk.objects, hcur, List.mem_erase_of_ne ha.1]
        exact hs.onHeap a ha.2
      ctx_none := by
        intro a ha
        rw [hmem] at ha
        rw [hk.ctx, hk.runner]
        exact hs.ctx_none a ha.2
      ctx_open := by
        intro a ha
        rw [hmem] at ha
        rw [hk.ctx]
        exact hs.ctx_open a ha.2
      tail_open := by
        rw [hk.stack]
        nofun
      intf_off := by
        intro g _ _
        rw [hk.intf]
        exact hs.intf_off f (by rw [hst]; rfl) hmasked.1
      locked := by
        rw [hk.stack, hk.locked, hs.locked, hst]
        exact hmasked.2
      seat := by
        rw [hk.stack, hk.current]
        refine ⟨rfl, hmem.mpr ⟨hne, hnext⟩, ?_, ?_⟩
        · rw [hk.runner]
          exact hne
        · show s'.runner ∉ s'.all
          rw [hk.runner]
          exact fun hr => (hmem.mp hr).1 rfl
      total_le := by
        have hle := hs.total_le
        omega }

/-- The tasks of an id are gone, the running one not among them. -/
theorem killScan_sound (hs : Sound s)
    (hst : s.stack = .killTask id .scan :: rest) :
    let s' := (s.killScan id).goto (.killTask id .release :: rest)
    Sound s' ∧ s'.total
      + ((s.tasks.filter fun t => (s.task t).id = id).map s.debt).sum
        = s.total := by
  intro s'
  have hf : (Frame.killTask id .scan).Stays := by
    intro _ _ _ h
    cases h
  have hseat := hs.seat
  rw [hst] at hseat
  obtain ⟨⟨hcur, hrun⟩, hid⟩ := hseat
  have hmem : ∀ {a}, a ∈ s'.all →
      a ∈ s.all ∧ (a = s.idle ∨ (s.task a).id ≠ id) := by
    intro a ha
    rcases List.mem_cons.mp ha with ha | ha
    · rw [ha]
      exact ⟨List.mem_cons_self, .inl rfl⟩
    · obtain ⟨hl, hi⟩ := List.mem_filter.mp ha
      exact ⟨List.mem_cons_of_mem _ hl, .inr (by simpa using hi)⟩
  -- the tasks are those that stay and those that go
  have hsum : (s'.all.map s.debt).sum
      + ((s.tasks.filter fun t => (s.task t).id = id).map s.debt).sum
        = (s.all.map s.debt).sum := by
    have hp := List.filter_append_perm
      (fun t => decide ((s.task t).id ≠ id)) s.tasks
    have hnot : (s.tasks.filter fun t => !decide ((s.task t).id ≠ id))
        = s.tasks.filter fun t => (s.task t).id = id := by
      apply List.filter_congr
      intro a _
      simp
    have hsum := (hp.map s.debt).sum_eq
    rw [hnot, List.map_append, List.sum_append] at hsum
    have hall : s'.all
        = s.idle :: s.tasks.filter fun t => (s.task t).id ≠ id := rfl
    rw [hall, State.all, List.map_cons, List.map_cons, List.sum_cons,
      List.sum_cons, ← hsum, Nat.add_assoc]
  have htotal : s'.total
      + ((s.tasks.filter fun t => (s.task t).id = id).map s.debt).sum
        = s.total := by
    unfold State.total
    rw [owed_live hst hf]
    show s.interruptsSemaphore + ((1 + owed rest : Nat) : Int)
      + ((s'.all.map s.debt).sum : Nat) + _ = _
    rw [← hsum]
    show _ = s.interruptsSemaphore + ((1 + owed rest : Nat) : Int) + _
    push_cast
    omega
  refine ⟨?_, htotal⟩
  exact
    { lost := hs.lost
      nodup := by
        obtain ⟨hi, hn⟩ := List.nodup_cons.mp hs.nodup
        apply List.nodup_cons.mpr
        exact ⟨fun h => hi (List.mem_of_mem_filter h), hn.filter _⟩
      onHeap := by
        intro a ha
        obtain ⟨hal, hor⟩ := hmem ha
        apply List.mem_filter.mpr
        refine ⟨hs.onHeap a hal, ?_⟩
        have hgoal : a ∉ s.tasks ∨ (s.task a).id ≠ id := by
          rcases hor with rfl | hne
          · exact .inl (List.nodup_cons.mp hs.nodup).1
          · exact .inr hne
        simpa using hgoal
      ctx_none := fun a ha => hs.ctx_none a (hmem ha).1
      ctx_open := fun a ha => hs.ctx_open a (hmem ha).1
      tail_open := hs.rest_open hst hf
      intf_off := by
        intro g hg _
        apply hs.intf_off (.killTask id .scan)
        · rw [hst]
          rfl
        · rfl
      locked := by
        show s.locked = true
        rw [hs.locked, hst]
        rfl
      seat := by
        refine ⟨hcur, ?_⟩
        rcases List.mem_cons.mp hrun with hr | hr
        · show s.runner ∈ s'.all
          rw [hr]
          exact List.mem_cons_self
        · apply List.mem_cons_of_mem
          apply List.mem_filter.mpr
          refine ⟨hr, ?_⟩
          show decide ((s.task s.runner).id ≠ id) = true
          simpa using hid
      total_le := by
        have hle := hs.total_le
        omega }

end Ntibux.Sched
