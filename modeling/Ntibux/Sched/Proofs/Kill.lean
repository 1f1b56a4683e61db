/-
Kills of the running task.

# As the code is

`kill_current_task_locked` frees the running task and hands it to
`perform_context_switch` all the same: what is loaded is the freed
task's own context, in every state in which such a kill is reached
(`kill_never_away`).

# With another task handed over

Where the switch is given another suspended task, the stub of the
exception that the killed task came through is left behind with the
`push_ints` that it owed. A task that returned into `kill_me` owes
nothing, so the next task's own code has the semaphore at 1; after an
exception it never does (`kill_settled_iff`).
-/
import Ntibux.Sched.Proofs.Even

namespace Ntibux.Sched

variable {s s₀ s₁ s' : State} {e : Event} {f : Frame}
  {rest : List Frame} {t : Nat} {tr tr' : List (State × Event)}

-- ================================================== in every run there is

/-- The heap hands an object out once, and a machine that is lost has
nothing under way. -/
structure Tidy (s : State) : Prop where
  objects : s.objects.Nodup
  lost : s.lost = true → s.stack = []

/-- The step that ends the running task. -/
theorem ends_exec (hst : s.stack = f :: rest) (hends : s.Ends) :
    ∃ fs, s.execFrame rest f = s.killCurrentTaskLocked s.current fs := by
  rcases hends with h | h
  · rw [hst] at h
    cases h
    exact ⟨rest, rfl⟩
  · rw [hst] at h
    cases h
    refine ⟨.killTask (s.task s.current).id .scan :: rest, ?_⟩
    unfold State.execFrame
    dsimp only
    rw [if_pos rfl]

/-- A step of the innermost call frees objects at most. -/
theorem exec_tidy (hst : s.stack = f :: rest)
    (h : s.execFrame rest f = some s') :
    s'.objects.Sublist s.objects ∧
      (s'.lost = s.lost ∨ s'.stack = []) := by
  by_cases hload : ∃ old n, f = .switch old n .load
  · obtain ⟨old, n, rfl⟩ := hload
    cases h
    have hsave : (s.saveContext old rest).objects = s.objects ∧
        (s.saveContext old rest).lost = s.lost := by
      cases old <;> exact ⟨rfl, rfl⟩
    show ((s.saveContext old rest).loadContext n).objects.Sublist _ ∧
      (((s.saveContext old rest).loadContext n).lost = _ ∨
        ((s.saveContext old rest).loadContext n).stack = [])
    rw [← hsave.1, ← hsave.2]
    unfold State.loadContext
    split
    · exact ⟨.refl _, .inr rfl⟩
    · exact ⟨.refl _, .inl rfl⟩
  · by_cases hends : s.Ends
    · obtain ⟨fs, heq⟩ := ends_exec hst hends
      have hk := killCurrent_inv (heq ▸ h)
      rw [hk.objects]
      exact ⟨List.erase_sublist, .inl hk.lost⟩
    · rcases exec_goes hst hends (fun old n hf => hload ⟨old, n, hf⟩) h with
        ⟨-, rfl, -⟩ | ⟨gs, hg⟩
      · exact ⟨.refl _, .inl rfl⟩
      · exact ⟨hg.objects, .inl hg.lost⟩

theorem Initial.tidy (hi : Initial s) : Tidy s where
  objects := by
    rw [hi.objects]
    simpa using hi.idle_ne
  lost := by
    rw [hi.lost]
    nofun

theorem not_lost (h : Step s e s') : s.lost = false := by
  unfold Step apply at h
  split at h
  · cases h
  · rename_i hl
    simpa using hl

theorem Tidy.step (ht : Tidy s) (h : Step s e s') : Tidy s' := by
  have hlost := not_lost h
  -- most events leave the objects alone
  have hsame : s'.objects = s.objects → s'.lost = s.lost → Tidy s' := by
    intro ho hl
    refine ⟨ho ▸ ht.objects, ?_⟩
    rw [hl, hlost]
    nofun
  cases e with
  | exec =>
      obtain ⟨f, rest, hst, h⟩ := exec_inv h
      obtain ⟨ho, hl⟩ := exec_tidy hst h
      refine ⟨ht.objects.sublist ho, ?_⟩
      intro hl'
      rcases hl with hl | hnil
      · rw [hl, hlost] at hl'
        cases hl'
      · exact hnil
  | irq =>
      rw [(irq_inv h).2] at hsame ⊢
      exact hsame rfl rfl
  | fault =>
      rw [(fault_inv h).2.2] at hsame ⊢
      exact hsame rfl rfl
  | call c =>
      obtain ⟨-, -, s₁, hl, heq⟩ := call_inv h
      rw [heq] at hsame ⊢
      exact hsame hl.objects hl.lost
  | alloc t flag =>
      obtain ⟨u, rest, -, hnew, heq⟩ := alloc_inv h
      rw [heq]
      refine ⟨List.nodup_cons.mpr ⟨hnew, ht.objects⟩, ?_⟩
      show s.lost = true → _
      rw [hlost]
      nofun
  | killTo t =>
      obtain ⟨f, rest, rest', -, -, hk⟩ := killTo_inv h
      refine ⟨?_, ?_⟩
      · rw [hk.objects]
        exact ht.objects.erase _
      · rw [hk.lost, hlost]
        nofun

theorem run_tidy (hi : Initial s₀) (hr : Run s₀ tr s) : Tidy s :=
  Run.invariant (fun _ _ => True) hr (fun _ _ => trivial) hi.tidy
    fun _ _ _ ht _ h => ht.step h

-- ====================================================== what a kill loads

/-- The kill, the release and the load put the killed task's own context
back on the CPU, its object freed. -/
theorem kill_loads_freed (ht : Tidy s) (hends : s.Ends)
    (hid : (s.task s.current).id ≠ 0) :
    ∃ s₁ s₂ s₃, Step s .exec s₁ ∧ Step s₁ .exec s₂ ∧ Step s₂ .exec s₃ ∧
      s₃.runner = s.current ∧ s₃.current = s.current ∧
      s.current ∉ s₃.objects := by
  have hlost : s.lost = false := by
    cases hl : s.lost with
    | false => rfl
    | true =>
        have hnil := ht.lost hl
        rcases hends with h | h <;> (rw [hnil] at h; cases h)
  -- the kill, the release and the load, one after the other
  obtain ⟨rest, s₁, hs₁, hk⟩ : ∃ rest s₁, Step s .exec s₁ ∧
      Killed s s.current rest s₁ := by
    cases hst : s.stack with
    | nil => rcases hends with h | h <;> (rw [hst] at h; cases h)
    | cons f rest =>
        obtain ⟨fs, heq⟩ := ends_exec hst hends
        obtain ⟨s₁, h₁⟩ : ∃ s₁,
            s.killCurrentTaskLocked s.current fs = some s₁ := by
          unfold State.killCurrentTaskLocked
          rw [if_neg hid]
          exact ⟨_, rfl⟩
        refine ⟨fs, s₁, ?_, killCurrent_inv h₁⟩
        exact step_exec hlost hst (heq.trans h₁)
  have hlost₁ : s₁.lost = false := hk.lost.trans hlost
  let s₂ := s₁.release.goto (.switch none s.current .load :: rest)
  have hs₂ : Step s₁ .exec s₂ := step_exec hlost₁ hk.stack rfl
  let s₃ := s₂.loadContext s.current
  have hs₃ : Step s₂ .exec s₃ := step_exec hlost₁ rfl rfl
  have hload : s₃.runner = s.current ∧ s₃.current = s₁.current ∧
      s₃.objects = s₁.objects := by
    show (s₂.loadContext s.current).runner = _ ∧
      (s₂.loadContext s.current).current = _ ∧
        (s₂.loadContext s.current).objects = _
    unfold State.loadContext
    split <;> exact ⟨rfl, rfl, rfl⟩
  refine ⟨s₁, s₂, s₃, hs₁, hs₂, hs₃, hload.1, ?_, ?_⟩
  · rw [hload.2.1]
    exact hk.current
  · rw [hload.2.2, hk.objects]
    exact fun h => (ht.objects.mem_erase_iff.mp h).1 rfl

theorem not_killsAway (ht : Tidy s) (hends : s.Ends)
    (hid : (s.task s.current).id ≠ 0) : ¬KillsAway s := by
  obtain ⟨s₁, s₂, s₃, hs₁, hs₂, hs₃, hrun, hcur, hfreed⟩ :=
    kill_loads_freed ht hends hid
  intro haway
  have h := haway s₁ s₂ s₃ hs₁ hs₂ hs₃
  exact hfreed (hcur ▸ h.alive)

/-- In no reachable state does a kill of the running task take it off the
CPU.

`perform_context_switch` is given `get_current()` for the next task, which
is the killed one itself, and its object is given back by then
(`kill_loads_freed`). -/
theorem kill_never_away (hi : Initial s₀) (hr : Run s₀ tr s)
    (hends : s.Ends) (hid : (s.task s.current).id ≠ 0) :
    ¬KillsAway s :=
  not_killsAway (run_tidy hi hr) hends hid

/-- A task that calls `kill_task` with its own id. -/
theorem kill_never_away_booted :
    ∃ tr s, Run booted tr s ∧ s.runner = 3 ∧
      (s.task s.current).id = AVAILABLE_IDS ∧ ¬KillsAway s := by
  obtain ⟨tr, s, hr, -, hv⟩ := booted_run (fun _ _ => true)
    (start ++ [.call (.killTask 100), .exec, .exec])
    (fun s => (s.stack, s.runner, (s.task s.current).id))
    ([.killTask 100 .body], 3, 100) (by decide +kernel)
  injection hv with hst hv
  injection hv with hrun hid
  refine ⟨tr, s, hr, hrun, hid, ?_⟩
  apply kill_never_away booted_initial hr
  · right
    rw [hst, hid]
    rfl
  · rw [hid]
    decide

/-- A task that returns from its entry point is loaded once more. -/
theorem booted_not_away :
    ∃ tr s, Initial booted ∧ Run booted tr s ∧
      s.stack = [.kill .body] ∧ (s.task s.current).id ≠ 0 ∧
        ¬KillsAway s := by
  obtain ⟨tr, s, hr, -, hv⟩ := booted_run (fun _ _ => true)
    (start ++ [.call .killMe, .exec, .exec])
    (fun s => (s.stack, (s.task s.current).id)) ([.kill .body], 100)
    (by decide +kernel)
  injection hv with hst hid
  have hid : (s.task s.current).id ≠ 0 := by
    rw [hid]
    decide
  refine ⟨tr, s, booted_initial, hr, hst, hid, ?_⟩
  apply not_killsAway (run_tidy booted_initial hr) _ hid
  left
  rw [hst]
  rfl

-- ============================================== another task handed over

/-- What is under `kill_me` says how the task came there. -/
theorem Even.ending (he : Even s)
    (hk : s.stack.head? = some (.kill .body)) :
    s.ending = .returned ∧ owed s.stack.tail = 0 ∨
      s.ending = .exception ∧ owed s.stack.tail = 1 := by
  cases hst : s.stack with
  | nil =>
      rw [hst] at hk
      cases hk
  | cons f rest =>
      rw [hst] at hk
      cases hk
      have hsh := he.shape.stack (he.kept.sound.plain hst nofun).2
      rw [hst] at hsh
      unfold State.ending
      rw [hst]
      rcases (show rest = [] ∨ _ from hsh.nested) with rfl | ⟨flag, rfl⟩
      · exact .inl ⟨rfl, rfl⟩
      · exact .inr ⟨rfl, rfl⟩

/-- A `push_ints` that was left behind stays behind. -/
theorem run_short (hr : Run s₁ tr s) (hclean : ∀ p ∈ tr, p.1.Clean p.2)
    (hk : Kept s₁) (hle : s₁.total ≤ 0) : Kept s ∧ s.total ≤ 0 := by
  apply Run.invariant State.Clean hr hclean ⟨hk, hle⟩
  intro s e s' ⟨hk, hle⟩ hc h
  obtain ⟨hk', htotal⟩ := hk.step hc.idle hc.hands h
  refine ⟨hk', ?_⟩
  omega

/-- In clean runs, a task is killed and another suspended one handed to
the switch: the own code that runs next has the semaphore at 1 and
interrupts on exactly if the killed task returned into `kill_me`.

A task that returned has paid what it owed, and the run behind its kill
starts even. One that an exception ends leaves a `push_ints` of the stub
undone, and with it every later state is one short (`run_short`), since no
step makes up for it. -/
theorem kill_settled_iff (hi : Initial s₀) (hr : Run s₀ tr s)
    (hclean : ∀ p ∈ tr, p.1.Clean p.2)
    (hk : s.stack.head? = some (.kill .body)) (ht : t ∈ s.all)
    (hne : t ≠ s.runner) (h : Step s (.killTo t) s₁)
    (hr' : Run s₁ tr' s') (hclean' : ∀ p ∈ tr', p.1.Clean p.2)
    (hown : s'.stack = []) : Settled s' ↔ s.ending = .returned := by
  have he := run_even hi hr hclean
  have hidle : ¬s.IdleBranch (.killTo t) := by
    intro hib
    cases hib.1
  have hswitch : ¬s.DirtySwitch (.killTo t) := by
    intro hds
    cases hds.1
  rcases he.ending hk with ⟨hret, hpaid⟩ | ⟨hexc, howed⟩
  · apply iff_of_true _ hret
    have he₁ : Even s₁ :=
      he.step ⟨hidle, hswitch, fun hd => hd hpaid, ht, hne⟩ h
    have he' : Even s' := Run.invariant State.Clean hr' hclean' he₁
      fun _ _ _ he hc h => he.step hc h
    exact he'.settled hown
  · apply iff_of_false
    · intro hset
      obtain ⟨hk₁, htotal⟩ := he.kept.step hidle ⟨ht, hne⟩ h
      have hle : s₁.total ≤ 0 := by
        rw [he.total] at htotal
        have hd : s.dropped (.killTo t) = 1 := howed
        omega
      have hle' := (run_short hr' hclean' hk₁ hle).2
      have hsem := hset.sem
      unfold State.total at hle'
      rw [hown, hsem] at hle'
      simp only [live_nil, owed_nil] at hle'
      omega
    · rw [hexc]
      nofun

/-- The task at 3 is killed after `es`, and the kernel goes on, with `n`
in the semaphore. -/
structure Handed (tr : List (State × Event)) (s s₁ : State)
    (tr' : List (State × Event)) (s' : State) (rest : List Frame)
    (n : Int) : Prop where
  run : Run booted tr s
  clean : ∀ p ∈ tr, p.1.Clean p.2
  stack : s.stack = .kill .body :: rest
  mem : 1 ∈ s.all
  ne : 1 ≠ s.runner
  kill : Step s (.killTo 1) s₁
  run' : Run s₁ tr' s'
  clean' : ∀ p ∈ tr', p.1.Clean p.2
  own : s'.stack = []
  sem : s'.interruptsSemaphore = n

theorem booted_handed (es : List Event) (rest : List Frame) (n : Int)
    (h : (Run.follow apply (fun s e => decide (s.Clean e)) (start ++ es)
        booted).map (fun s => (s.stack, decide (1 ∈ s.all ∧ 1 ≠ s.runner),
          (apply (.killTo 1) s).bind fun s₁ =>
            (Run.follow apply (fun s e => decide (s.Clean e))
              (List.replicate 4 .exec) s₁).map fun s' =>
                (s'.stack, s'.interruptsSemaphore)))
      = some (.kill .body :: rest, true, some ([], n))) :
    ∃ tr s s₁ tr' s', Handed tr s s₁ tr' s' rest n := by
  obtain ⟨tr, s, hr, hclean, hv⟩ := booted_run _ _ _ _ h
  injection hv with hst hv
  injection hv with hmem hv
  obtain ⟨s₁, hkill, hv⟩ := Option.bind_eq_some_iff.mp hv
  obtain ⟨tr', s', hr', hclean', hv⟩ :=
    Run.of_follow_map (fun _ _ _ hs => hs) hv
  injection hv with hown hsem
  obtain ⟨hmem, hne⟩ := of_decide_eq_true hmem
  exact ⟨tr, s, s₁, tr', s',
    { run := hr
      clean := fun p hp => of_decide_eq_true (hclean p hp)
      stack := hst
      mem := hmem
      ne := hne
      kill := hkill
      run' := hr'
      clean' := fun p hp => of_decide_eq_true (hclean' p hp)
      own := hown
      sem := hsem }⟩

/-- The task at 3 returns from its entry point, and the kernel goes
on. -/
theorem kill_settled_iff_booted :
    ∃ tr s s₁ tr' s' n, Handed tr s s₁ tr' s' [] n ∧ Settled s' := by
  obtain ⟨tr, s, s₁, tr', s', hh⟩ :=
    booted_handed [.call .killMe, .exec, .exec] [] 1 (by decide +kernel)
  refine ⟨tr, s, s₁, tr', s', 1, hh, ?_⟩
  apply (kill_settled_iff booted_initial hh.run hh.clean _ hh.mem hh.ne
    hh.kill hh.run' hh.clean' hh.own).mpr
  · unfold State.ending
    rw [hh.stack]
    rfl
  · rw [hh.stack]
    rfl

/-- The task at 3 dies of an exception, and the kernel goes on with the
semaphore at 0. -/
theorem booted_unsettled_kill :
    ∃ tr s s₁ tr' s',
      Handed tr s s₁ tr' s' [.isr .fault true .push] 0 ∧ ¬Settled s' := by
  obtain ⟨tr, s, s₁, tr', s', hh⟩ :=
    booted_handed (.fault :: List.replicate 4 .exec)
      [.isr .fault true .push] 0 (by decide +kernel)
  refine ⟨tr, s, s₁, tr', s', hh, ?_⟩
  intro hset
  have h1 := hset.sem
  rw [hh.sem] at h1
  cases h1

end Ntibux.Sched
