/-
Sleeping is exact where no interrupt comes into the body of `yield`.

A task that is due has `last_switched + sleep` at the tick it is due,
and is not `current`, except in the body that set the tick; there it is
due later than now, so that the scan passes over it (`Slept`). Each step
of the body keeps this, and no other step but the call of `sleep` has to
do with it (`Slept.calm`).
-/
import Ntibux.Sched.Proofs.Seated

namespace Ntibux.Sched

variable {e : Event} {rest fs : List Frame}

-- ============================================================= the sleepers

namespace Fine

variable {p q : Fine} {φ : Nat → Phase} {it w d : Nat} {ts : List Nat}

theorem body_inv (hb : p.InBody) (h : Step p .exec q) :
    ∃ rest, p.base.stack = .yield .body :: rest ∧
      q = p.base.walkStep rest p.walk := by
  obtain ⟨rest, hst⟩ := List.head?_eq_some_iff.mp hb
  refine ⟨rest, hst, ?_⟩
  unfold Step apply at h
  rw [hst] at h
  dsimp only at h
  split at h
  · cases h
  · exact (Option.some.inj h).symm

theorem base_inv (hb : e = .exec → ¬p.InBody) (h : Step p e q) :
    Sched.Step p.base e q.base ∧ q.walk = p.walk := by
  unfold Step apply at h
  split at h
  · rename_i rest hst
    exact absurd (by rw [InBody, hst]; rfl) (hb rfl)
  · obtain ⟨base, hbase, rfl⟩ := Option.map_eq_some_iff.mp h
    exact ⟨hbase, rfl⟩

theorem walk_step {s : State} (walk : Option Walk) (hlost : s.lost = false)
    (hst : s.stack = .yield .body :: rest) :
    Step ⟨s, walk⟩ .exec (s.walkStep rest walk) := by
  unfold Step apply
  dsimp only
  rw [hst, hlost]
  rfl

/-- The loop of `select_next` in parts is the loop. -/
theorem walk_loop (ts : List Nat) {s : State} (hlost : s.lost = false)
    (hst : s.stack = .yield .body :: rest) :
    ∃ tr, Run ⟨s, some (.looks ts)⟩ tr
        ⟨{ s with task := (selectLoop s.ticks ts s.task).2 },
          some (.found (selectLoop s.ticks ts s.task).1)⟩ ∧
      ∀ q ∈ tr, q.2 = .exec := by
  induction ts generalizing s with
  | nil =>
      exact ⟨_, .snoc .nil (walk_step _ hlost hst), by simp⟩
  | cons it ts ih =>
      have hlook := walk_step (some (.looks (it :: ts))) hlost hst
      dsimp only [State.walkStep, State.walkLook] at hlook
      unfold selectLoop
      split at hlook
      · rename_i hsleep
        rw [if_pos hsleep]
        dsimp only
        generalize u64 (s.ticks + (2 ^ 64 - (s.task it).lastSwitched)) =
          sleeped at hlook ⊢
        split at hlook
        · rename_i hle
          rw [if_pos hle]
          exact ⟨_, .snoc .nil hlook, by simp⟩
        · rename_i hle
          rw [if_neg hle]
          -- who sleeps on takes two steps: `sleep`, then `last_switched`
          have hpass := walk_step (some (.passes it ts)) (s := s.setTask it
            { s.task it with sleep := (s.task it).sleep - sleeped })
            hlost hst
          dsimp only [State.walkStep] at hpass
          obtain ⟨tr, hr, htr⟩ := ih (s := { s with
            task := Function.update s.task it { s.task it with
              sleep := (s.task it).sleep - sleeped
              lastSwitched := s.ticks } }) hlost hst
          simp only [State.setTask, Function.update_self,
            Function.update_idem] at hlook hpass
          have hboth := (Ntibux.Run.snoc (.snoc .nil hlook) hpass).append hr
          refine ⟨_, hboth, ?_⟩
          intro q hq
          rcases List.mem_append.mp hq with hq | hq
          · rcases List.mem_append.mp hq with hq | hq
            · rw [List.mem_singleton.mp hq]
            · rw [List.mem_singleton.mp hq]
          · exact htr q hq
      · rename_i hsleep
        rw [if_neg hsleep]
        exact ⟨_, .snoc .nil hlook, by simp⟩

theorem yieldBody_eq {s : State} (h0 : s.current ≠ 0) :
    s.yieldBody rest = s.selected.2.walkEnd rest s.selected.1 := by
  unfold State.yieldBody
  rw [if_neg h0]
  dsimp only [State.selected, State.selectNext]
  generalize (selectLoop _ _ _).1 = next
  cases next with
  | none => rfl
  | some next => rfl

/-- Where nothing comes into it, the body in parts is `yieldBody`. -/
theorem walk_yieldBody {s : State} (hlost : s.lost = false)
    (hst : s.stack = .yield .body :: rest) :
    ∃ tr, Run ⟨s, none⟩ tr ⟨s.yieldBody rest, none⟩ ∧
      ∀ q ∈ tr, q.2 = .exec := by
  have hstart := walk_step none hlost hst
  dsimp only [State.walkStep, State.walkStart] at hstart
  by_cases h0 : s.current = 0
  · unfold State.yieldBody
    rw [if_pos h0]
    rw [if_pos h0] at hstart
    exact ⟨_, .snoc .nil hstart, by simp⟩
  · rw [yieldBody_eq h0]
    rw [if_neg h0] at hstart
    obtain ⟨tr, hr, htr⟩ := walk_loop (rotate s.tasks)
      (s := { s.setTask s.current
          { s.task s.current with lastSwitched := s.ticks } with
        tasks := rotate s.tasks }) hlost hst
    have hend := walk_step (s := s.selected.2)
      (some (.found s.selected.1)) hlost hst
    have hboth := ((Ntibux.Run.snoc .nil hstart).append hr).snoc hend
    refine ⟨_, hboth, ?_⟩
    intro q hq
    rcases List.mem_append.mp hq with hq | hq
    · rcases List.mem_append.mp hq with hq | hq
      · rw [List.mem_singleton.mp hq]
      · exact htr q hq
    · rw [List.mem_singleton.mp hq]

/-- The tick that what is left of a task's sleep counts from. -/
def since (s : Fine) (t : Nat) : Nat :=
  match s.walk with
  | some (.passes it _) =>
      if it = t then s.base.ticks else (s.base.task t).lastSwitched
  | _ => (s.base.task t).lastSwitched

/-- A task that is due after now. -/
def Later (φ : Nat → Phase) (s : State) (t : Nat) : Prop :=
  ∃ w, φ t = .due w ∧ s.ticks < w

/-- What a scan has come past sleeps on, and what it has found is
awake. -/
def Scanned (φ : Nat → Phase) (s : State) : Option Walk → Prop
  | none => True
  | some (.looks ts) => ∃ pre, s.tasks = pre ++ ts ∧ ∀ t ∈ pre, Later φ s t
  | some (.passes it ts) =>
      ∃ pre, s.tasks = pre ++ it :: ts ∧ ∀ t ∈ pre ++ [it], Later φ s t
  | some (.found none) => ∀ t ∈ s.tasks, Later φ s t
  | some (.found (some t)) => t ∈ s.objects ∧ φ t = .awake

/-- The phases and the state go together. -/
structure Slept (φ : Nat → Phase) (s : Fine) : Prop where
  seated : Seated s.base
  body : s.walk ≠ none → s.InBody
  known : ∀ t, φ t ≠ .awake → t ∈ s.base.objects
  idle : φ s.base.idle = .awake
  awake : ∀ t ∈ s.base.objects, φ t = .awake → (s.base.task t).sleep = 0
  called : ∀ t d, φ t = .called d → t = s.base.current ∧
    (s.base.task t).sleep = d ∧ 0 < d ∧ s.walk = none ∧ Early s.base.stack
  due : ∀ t w, φ t = .due w → (s.base.task t).sleep ≠ 0 ∧
    s.since t ≤ s.base.ticks ∧ s.since t + (s.base.task t).sleep = w
  here : ∀ w, φ s.base.current = .due w → s.walk ≠ none ∧ s.base.ticks < w
  scanned : Scanned φ s.base s.walk

namespace Slept

variable (hs : Slept φ p)
include hs

/-- A step that leaves the sleepers alone. -/
theorem calm {s' : State} (hwalk : p.walk = none) (hseat : Seated s')
    (hc : Calm p.base s') : Slept φ ⟨s', none⟩ := by
  have hmem : ∀ t, φ t ≠ .awake → t ∈ p.base.objects := hs.known
  constructor
  · exact hseat
  · exact fun h => absurd rfl h
  · exact fun t h => hc.objects t (hmem t h)
  · show φ s'.idle = _
    rw [hc.idle]
    exact hs.idle
  · intro t ht ha
    -- an object that is new has no sleep on record
    by_cases hm : t ∈ p.base.objects
    · exact (hc.sleep t hm).trans (hs.awake t hm ha)
    · exact hc.fresh t ht hm
  · intro t d ht
    have hm := hmem t (by rw [ht]; nofun)
    obtain ⟨h1, h2, h3, -, h5⟩ := hs.called t d ht
    exact ⟨h1.trans hc.current.symm, (hc.sleep t hm).trans h2, h3, rfl,
      hc.early h5⟩
  · intro t w ht
    have hm := hmem t (by rw [ht]; nofun)
    obtain ⟨h1, h2, h3⟩ := hs.due t w ht
    have hsince : p.since t = (p.base.task t).lastSwitched := by
      unfold since
      rw [hwalk]
    have hlast : since ⟨s', none⟩ t = p.since t :=
      (hc.last t hm).trans hsince.symm
    rw [hlast]
    show (s'.task t).sleep ≠ 0 ∧ p.since t ≤ s'.ticks ∧
      p.since t + (s'.task t).sleep = w
    rw [hc.sleep t hm]
    exact ⟨h1, h2.trans hc.ticks, h3⟩
  · intro w hw
    have hw : φ s'.current = .due w := hw
    rw [hc.current] at hw
    exact absurd hwalk (hs.here w hw).1
  · trivial

/-- Before the body of `yield`, no task that is due is `current`. -/
theorem current_not_due (hwalk : p.walk = none) (w : Nat) :
    φ p.base.current ≠ .due w :=
  fun h => (hs.here w h).1 hwalk

/-- A task's own code calls `sleep`. -/
theorem sleeps {ms : Nat} {s' : State} (hwalk : p.walk = none)
    (hms : ms < 2 ^ 64) (h : Sched.Step p.base (.call (.sleep ms)) s') :
    Slept (Function.update φ p.base.current (.called (budget ms)))
      ⟨s', none⟩ := by
  obtain ⟨hst, hne, -⟩ := call_inv h
  have hcall := call_enter h
  have hrun : p.base.runner = p.base.current := by
    apply hs.seated.runner
    rw [hst]
    nofun
  have hidle : p.base.idle ≠ p.base.current := by
    rw [← hrun]
    exact Ne.symm hne
  have hnone : ∀ t d, φ t ≠ .called d := by
    intro t d ht
    have hearly := (hs.called t d ht).2.2.2.2
    rw [hst] at hearly
    exact hearly
  -- a task that calls is not asleep: its own code runs
  have hawake : φ p.base.current = .awake := by
    cases hp : φ p.base.current with
    | awake => rfl
    | called d => exact absurd hp (hnone _ d)
    | due w => exact absurd hp (hs.current_not_due hwalk w)
  have hzero := hs.awake _ hs.seated.current hawake
  have hbudget : budget ms < 2 ^ 64 ∧ 0 < budget ms := by
    unfold budget MS_INTERVAL TIME_SLICE
    omega
  obtain ⟨v, hctx, hsleep, rfl⟩ : ∃ v : Task,
      v.ctx = (p.base.task p.base.current).ctx ∧ v.sleep = budget ms ∧
        s' = (p.base.setTask p.base.current v).goto [.yield .pop] := by
    cases hcall
    refine ⟨_, ?_, ?_, rfl⟩
    · rfl
    · -- the `+=` starts from 0, and the budget fits
      show u64 ((p.base.task p.base.current).sleep + budget ms) = _
      rw [hzero, Nat.zero_add]
      exact Nat.mod_eq_of_lt hbudget.1
  have hself : (p.base.setTask p.base.current v).task p.base.current = v :=
    Function.update_self _ _ _
  have hother : ∀ t, t ≠ p.base.current →
      (p.base.setTask p.base.current v).task t = p.base.task t :=
    fun t ht => Function.update_of_ne ht _ _
  constructor
  · refine ⟨fun _ => hrun, trivial, ?_, hs.seated.current, hs.seated.idle,
      hs.seated.tasks, hs.seated.null⟩
    intro t c hc
    have hc : ((p.base.setTask p.base.current v).task t).ctx = some c := hc
    by_cases ht : t = p.base.current
    · rw [ht, hself, hctx] at hc
      rw [ht]
      exact hs.seated.ctx _ c hc
    · rw [hother t ht] at hc
      exact hs.seated.ctx t c hc
  · exact fun h => absurd rfl h
  · intro t ht
    by_cases hc : t = p.base.current
    · rw [hc]
      exact hs.seated.current
    · rw [Function.update_of_ne hc] at ht
      exact hs.known t ht
  · show Function.update φ _ _ p.base.idle = _
    rw [Function.update_of_ne hidle]
    exact hs.idle
  · intro t ht ha
    have hc : t ≠ p.base.current := by
      intro hc
      rw [hc, Function.update_self] at ha
      cases ha
    rw [Function.update_of_ne hc] at ha
    exact (congrArg Task.sleep (hother t hc)).trans (hs.awake t ht ha)
  · intro t d ht
    by_cases hc : t = p.base.current
    · rw [hc, Function.update_self] at ht
      cases ht
      rw [hc]
      refine ⟨rfl, ?_, hbudget.2, rfl, .inl rfl, .inl rfl⟩
      exact (congrArg Task.sleep hself).trans hsleep
    · rw [Function.update_of_ne hc] at ht
      exact absurd ht (hnone t d)
  · intro t w ht
    have hc : t ≠ p.base.current := by
      intro hc
      rw [hc, Function.update_self] at ht
      cases ht
    rw [Function.update_of_ne hc] at ht
    have hd := hs.due t w ht
    unfold since at hd
    rw [hwalk] at hd
    rw [← hother t hc] at hd
    exact hd
  · intro w hw
    have hw : Function.update φ p.base.current (.called (budget ms))
      p.base.current = .due w := hw
    rw [Function.update_self] at hw
    cases hw
  · trivial

/-- The first body of `yield` after a call of `sleep` sets the tick. -/
theorem starts (hwalk : p.walk = none)
    (hst : p.base.stack = .yield .body :: rest) {φ' : Nat → Phase}
    (hother : ∀ t, t ≠ p.base.current → φ' t = φ t)
    (hcur : φ p.base.current = .awake ∧ φ' p.base.current = .awake ∨
      ∃ d, φ p.base.current = .called d ∧
        φ' p.base.current = .due (p.base.ticks + d)) :
    Slept φ' (p.base.walkStart rest) := by
  have hpos : p.base.current ≠ 0 :=
    ne_of_mem_of_not_mem hs.seated.current hs.seated.null
  obtain ⟨v, hctx, hsleep, hlast, heq⟩ : ∃ v : Task,
      v.ctx = (p.base.task p.base.current).ctx ∧
      v.sleep = (p.base.task p.base.current).sleep ∧
      v.lastSwitched = p.base.ticks ∧
      p.base.walkStart rest =
        ⟨{ p.base.setTask p.base.current v with
            tasks := rotate p.base.tasks },
          some (.looks (rotate p.base.tasks))⟩ := by
    unfold State.walkStart
    rw [if_neg hpos]
    exact ⟨{ p.base.task p.base.current with lastSwitched := p.base.ticks },
      rfl, rfl, rfl, rfl⟩
  have hself : (p.base.setTask p.base.current v).task p.base.current = v :=
    Function.update_self _ _ _
  have hthe : ∀ t, t ≠ p.base.current →
      (p.base.setTask p.base.current v).task t = p.base.task t :=
    fun t ht => Function.update_of_ne ht _ _
  -- who had called is due now, and nobody else can have
  have hcalled : ∀ t d, φ' t ≠ .called d := by
    intro t d ht
    by_cases hc : t = p.base.current
    · rw [hc] at ht
      rcases hcur with ⟨-, h⟩ | ⟨d', -, h⟩
      · rw [h] at ht
        cases ht
      · rw [h] at ht
        cases ht
    · rw [hother t hc] at ht
      exact hc (hs.called t d ht).1
  rw [heq]
  constructor
  · refine hs.seated.alike ?_ rfl rfl rfl rfl rfl ?_
    · show State.ctx (p.base.setTask p.base.current v) = _
      rw [ctx_setTask, hctx]
      exact Function.update_eq_self _ _
    · intro t ht
      exact (rotate_perm _).mem_iff.mp ht
  · intro _
    rw [InBody]
    exact congrArg List.head? hst
  · intro t ht
    by_cases hc : t = p.base.current
    · rw [hc]
      exact hs.seated.current
    · rw [hother t hc] at ht
      exact hs.known t ht
  · show φ' p.base.idle = _
    by_cases hc : p.base.idle = p.base.current
    · rw [hc]
      rcases hcur with ⟨-, h⟩ | ⟨d, h, -⟩
      · exact h
      · rw [← hc, hs.idle] at h
        cases h
    · rw [hother _ hc]
      exact hs.idle
  · intro t ht ha
    show (State.task (p.base.setTask p.base.current v) t).sleep = 0
    by_cases hc : t = p.base.current
    · rw [hc] at ha ⊢
      rw [hself, hsleep]
      rcases hcur with ⟨h, -⟩ | ⟨d, -, h⟩
      · exact hs.awake _ hs.seated.current h
      · rw [h] at ha
        cases ha
    · rw [hthe t hc]
      rw [hother t hc] at ha
      exact hs.awake t ht ha
  · exact fun t d ht => absurd ht (hcalled t d)
  · intro t w ht
    show (State.task (p.base.setTask p.base.current v) t).sleep ≠ 0 ∧
      (State.task (p.base.setTask p.base.current v) t).lastSwitched
        ≤ p.base.ticks ∧
      (State.task (p.base.setTask p.base.current v) t).lastSwitched
        + (State.task (p.base.setTask p.base.current v) t).sleep = w
    by_cases hc : t = p.base.current
    · rw [hc] at ht ⊢
      rw [hself, hsleep, hlast]
      -- `last_switched` is now, so that it is due in `sleep` ticks
      rcases hcur with ⟨-, h⟩ | ⟨d, h, h'⟩
      · rw [h] at ht
        cases ht
      · rw [h'] at ht
        cases ht
        obtain ⟨-, h2, h3, -⟩ := hs.called _ d h
        rw [h2]
        exact ⟨Nat.ne_of_gt h3, le_rfl, rfl⟩
    · rw [hthe t hc]
      rw [hother t hc] at ht
      have hd := hs.due t w ht
      unfold since at hd
      rw [hwalk] at hd
      exact hd
  · intro w hw
    have hw : φ' p.base.current = .due w := hw
    refine ⟨nofun, ?_⟩
    show p.base.ticks < w
    rcases hcur with ⟨-, h⟩ | ⟨d, h, h'⟩
    · rw [h] at hw
      cases hw
    · rw [h'] at hw
      cases hw
      have hpos := (hs.called _ d h).2.2.1
      omega
  · exact ⟨[], rfl, nofun⟩

/-- The scan goes on and touches no task. -/
theorem rewalk {walk : Option Walk} (hw : p.walk ≠ none) (hw' : walk ≠ none)
    (hsince : ∀ t, since ⟨p.base, walk⟩ t = p.since t)
    (hscan : Scanned φ p.base walk) : Slept φ ⟨p.base, walk⟩ := by
  refine ⟨hs.seated, fun _ => hs.body hw, hs.known, hs.idle, hs.awake, ?_, ?_,
    fun w h => ⟨hw', (hs.here w h).2⟩, hscan⟩
  · intro t d ht
    exact absurd (hs.called t d ht).2.2.2.1 hw
  · intro t w ht
    rw [hsince]
    exact hs.due t w ht

/-- The scan goes on from `it`, which wakes up or sleeps on. -/
theorem touch {walk : Option Walk} {v : Task} {φ' : Nat → Phase}
    (hw : p.walk ≠ none) (hw' : walk ≠ none) (hmem : it ∈ p.base.objects)
    (hctx : v.ctx = (p.base.task it).ctx)
    (hother : ∀ t, t ≠ it → φ' t = φ t)
    (hsince : ∀ t, t ≠ it →
      since ⟨p.base.setTask it v, walk⟩ t = p.since t)
    (hit : φ' it = .awake ∧ v.sleep = 0 ∨
      ∃ w, φ it = .due w ∧ φ' it = .due w ∧ v.sleep ≠ 0 ∧
        since ⟨p.base.setTask it v, walk⟩ it ≤ p.base.ticks ∧
        since ⟨p.base.setTask it v, walk⟩ it + v.sleep = w)
    (hscan : Scanned φ' (p.base.setTask it v) walk) :
    Slept φ' ⟨p.base.setTask it v, walk⟩ := by
  -- `it` alone changes, and what it changes to is in `hit`
  have hself : (p.base.setTask it v).task it = v :=
    Function.update_self _ _ _
  have hthe : ∀ t, t ≠ it → (p.base.setTask it v).task t = p.base.task t :=
    fun t ht => Function.update_of_ne ht _ _
  constructor
  · refine hs.seated.alike ?_ rfl rfl rfl rfl rfl fun _ h => h
    rw [ctx_setTask, hctx]
    exact Function.update_eq_self _ _
  · exact fun _ => hs.body hw
  · intro t ht
    by_cases hc : t = it
    · rw [hc]
      exact hmem
    · rw [hother t hc] at ht
      exact hs.known t ht
  · show φ' p.base.idle = _
    by_cases hc : p.base.idle = it
    · rw [hc]
      rcases hit with ⟨h, -⟩ | ⟨w, h, -⟩
      · exact h
      · rw [← hc, hs.idle] at h
        cases h
    · rw [hother _ hc]
      exact hs.idle
  · intro t ht ha
    show ((p.base.setTask it v).task t).sleep = 0
    by_cases hc : t = it
    · rw [hc] at ha ⊢
      rw [hself]
      rcases hit with ⟨-, h⟩ | ⟨w, -, h, -⟩
      · exact h
      · rw [h] at ha
        cases ha
    · rw [hthe t hc]
      rw [hother t hc] at ha
      exact hs.awake t ht ha
  · intro t d ht
    by_cases hc : t = it
    · rw [hc] at ht
      rcases hit with ⟨h, -⟩ | ⟨w, -, h, -⟩
      · rw [h] at ht
        cases ht
      · rw [h] at ht
        cases ht
    · rw [hother t hc] at ht
      exact absurd (hs.called t d ht).2.2.2.1 hw
  · intro t w ht
    show ((p.base.setTask it v).task t).sleep ≠ 0 ∧
      since ⟨p.base.setTask it v, walk⟩ t ≤ p.base.ticks ∧
      since ⟨p.base.setTask it v, walk⟩ t
        + ((p.base.setTask it v).task t).sleep = w
    by_cases hc : t = it
    · rw [hc] at ht ⊢
      rw [hself]
      rcases hit with ⟨h, -⟩ | ⟨w', -, h, hd⟩
      · rw [h] at ht
        cases ht
      · rw [h] at ht
        cases ht
        exact hd
    · rw [hthe t hc, hsince t hc]
      rw [hother t hc] at ht
      exact hs.due t w ht
  · intro w hw₁
    have hw₁ : φ' p.base.current = .due w := hw₁
    refine ⟨hw', ?_⟩
    show p.base.ticks < w
    by_cases hc : p.base.current = it
    · rcases hit with ⟨h, -⟩ | ⟨w', h, h', -⟩
      · rw [hc, h] at hw₁
        cases hw₁
      · rw [hc, h'] at hw₁
        cases hw₁
        exact (hs.here w (hc ▸ h)).2
    · rw [hother _ hc] at hw₁
      exact (hs.here w hw₁).2
  · exact hscan

/-- A task that the scan comes to is an object. -/
theorem scanned_mem {pre : List Nat} (hpre : p.base.tasks = pre ++ it :: ts) :
    it ∈ p.base.objects := by
  apply hs.seated.tasks
  rw [hpre]
  exact List.mem_append_right pre List.mem_cons_self

/-- A look at a task finds it awake, wakes it when it is due, or leaves
it to sleep on. -/
theorem look (hwalk : p.walk = some (.looks (it :: ts)))
    (hticks : p.base.ticks < 2 ^ 64) :
    φ it = .awake ∧
        p.base.walkLook (it :: ts) =
          ⟨p.base, some (.found (some it))⟩ ∨
      ∃ w, φ it = .due w ∧ (p.base.task it).sleep ≠ 0 ∧
        (p.base.task it).lastSwitched ≤ p.base.ticks ∧
        (p.base.task it).lastSwitched + (p.base.task it).sleep = w ∧
        (w ≤ p.base.ticks ∧ p.base.walkLook (it :: ts) =
            ⟨p.base.setTask it { p.base.task it with sleep := 0 },
              some (.found (some it))⟩ ∨
          p.base.ticks < w ∧ p.base.walkLook (it :: ts) =
            ⟨p.base.setTask it { p.base.task it with
                sleep := (p.base.task it).sleep
                  - (p.base.ticks - (p.base.task it).lastSwitched) },
              some (.passes it ts)⟩) := by
  have hw : p.walk ≠ none := by
    rw [hwalk]
    nofun
  obtain ⟨pre, hpre, -⟩ : ∃ pre, p.base.tasks = pre ++ it :: ts ∧
      ∀ t ∈ pre, Later φ p.base t := by
    have hscan := hs.scanned
    rwa [hwalk] at hscan
  have hmem := hs.scanned_mem hpre
  cases hp : φ it with
  | awake =>
      left
      refine ⟨rfl, ?_⟩
      dsimp only [State.walkLook]
      rw [if_neg (by rw [hs.awake it hmem hp]; simp)]
  | called d => exact absurd (hs.called it d hp).2.2.2.1 hw
  | due w =>
      right
      obtain ⟨h1, h2, h3⟩ := hs.due it w hp
      -- the scan has not come past `it`, so its sum counts from the record
      have hsince : p.since it = (p.base.task it).lastSwitched := by
        unfold since
        rw [hwalk]
      rw [hsince] at h2 h3
      refine ⟨w, rfl, h1, h2, h3, ?_⟩
      have hsub : u64 (p.base.ticks
          + (2 ^ 64 - (p.base.task it).lastSwitched)) =
            p.base.ticks - (p.base.task it).lastSwitched := by
        unfold u64
        omega
      dsimp only [State.walkLook]
      rw [if_pos h1, hsub]
      by_cases hle : w ≤ p.base.ticks
      · left
        refine ⟨hle, ?_⟩
        rw [if_pos (by omega)]
      · right
        refine ⟨by omega, ?_⟩
        rw [if_neg (by omega)]

/-- The body is over, and whoever is `current` now is not due. -/
theorem settle {next : Option Nat} {s' : State}
    (hwalk : p.walk = some (.found next)) (hseat : Seated s')
    (hobj : s'.objects = p.base.objects) (hidle : s'.idle = p.base.idle)
    (hticks : s'.ticks = p.base.ticks)
    (hsleep : ∀ t, (s'.task t).sleep = (p.base.task t).sleep)
    (hlast : ∀ t, φ t ≠ .awake →
      (s'.task t).lastSwitched = (p.base.task t).lastSwitched)
    (hcur : ∀ w, φ s'.current ≠ .due w) : Slept φ ⟨s', none⟩ := by
  refine ⟨hseat, fun h => absurd rfl h, ?_, ?_, ?_, ?_, ?_,
    fun w h => absurd h (hcur w), trivial⟩
  · intro t ht
    show t ∈ s'.objects
    rw [hobj]
    exact hs.known t ht
  · show φ s'.idle = _
    rw [hidle]
    exact hs.idle
  · intro t ht ha
    have ht : t ∈ s'.objects := ht
    rw [hobj] at ht
    exact (hsleep t).trans (hs.awake t ht ha)
  · intro t d ht
    have hnone := (hs.called t d ht).2.2.2.1
    rw [hwalk] at hnone
    cases hnone
  · intro t w ht
    have hd := hs.due t w ht
    unfold since at hd ⊢
    rw [hwalk] at hd
    show (s'.task t).sleep ≠ 0 ∧ (s'.task t).lastSwitched ≤ s'.ticks ∧
      (s'.task t).lastSwitched + (s'.task t).sleep = w
    rw [hsleep, hlast t (by rw [ht]; nofun), hticks]
    exact hd

/-- `yield` stays with the task that called it. -/
theorem stays {next : Option Nat} (hwalk : p.walk = some (.found next))
    (hst : p.base.stack = .yield .body :: rest)
    (hcur : ∀ w, φ p.base.current ≠ .due w) :
    Slept φ ⟨p.base.goto (.yield .release :: rest), none⟩ := by
  refine hs.settle hwalk ?_ rfl rfl rfl (fun _ => rfl) (fun _ _ => rfl) hcur
  have hseat := hs.seated
  have hhere := hseat.here
  rw [hst] at hhere
  refine ⟨?_, hhere, hseat.ctx, hseat.current, hseat.idle, hseat.tasks,
    hseat.null⟩
  intro hno
  apply hseat.runner
  rw [hst]
  refine noSwitch_cons (f := .yield .body) nofun ?_
  exact fun f hf => hno f (List.mem_cons_of_mem _ hf)

/-- `yield` leaves for a task that is awake. -/
theorem leaves {next : Option Nat} {n : Nat}
    (hwalk : p.walk = some (.found next)) (hn : n ∈ p.base.objects)
    (hawake : φ n = .awake)
    (hfits : Fits p.base.objects p.base.current fs) :
    Slept φ ⟨p.base.performContextSwitch (some p.base.current) n fs,
      none⟩ := by
  have hseat := hs.seated
  refine hs.settle hwalk ?_ rfl rfl rfl ?_ ?_ ?_
  · refine ⟨?_, ⟨rfl, hfits⟩, ?_, hn, hseat.idle, hseat.tasks, hseat.null⟩
    · intro hno
      exact absurd rfl (hno _ List.mem_cons_self _ n .release)
    · intro t c hc
      have heq : State.ctx (p.base.setTask n
          { p.base.task n with lastSwitched := p.base.ticks }) =
            p.base.ctx := (alike_switched n).ctx
      exact hseat.ctx t c ((congrFun heq t).symm.trans hc)
  · intro t
    exact setTask_sleep (s := p.base) (t := n)
      (v := { p.base.task n with lastSwitched := p.base.ticks }) rfl t
  · intro t ht
    have hne : t ≠ n := by
      intro h
      rw [h] at ht
      exact ht hawake
    exact congrArg Task.lastSwitched (Function.update_of_ne hne _ _)
  · intro w h
    have h : φ n = .due w := h
    rw [hawake] at h
    cases h

/-- The body of `yield` after the scan. -/
theorem ends {next : Option Nat} (hwalk : p.walk = some (.found next))
    (hst : p.base.stack = .yield .body :: rest) :
    Slept φ ⟨p.base.walkEnd rest next, none⟩ := by
  have hhere := hs.seated.here
  rw [hst] at hhere
  have hscan := hs.scanned
  rw [hwalk] at hscan
  cases next with
  | some n =>
      dsimp only [State.walkEnd]
      split
      · rename_i hc
        apply hs.stays hwalk hst
        intro w h
        rw [hc, hscan.2] at h
        cases h
      · exact hs.leaves hwalk hscan.1 hscan.2 hhere
  | none =>
      dsimp only [State.walkEnd]
      split
      · rename_i hc
        apply hs.stays hwalk hst
        intro w h
        rw [hc, hs.idle] at h
        cases h
      · split
        · exact hs.leaves hwalk hs.seated.idle hs.idle hhere
        · rename_i hzero
          apply hs.stays hwalk hst
          intro w h
          exact hzero (hs.due _ w h).1

/-- One look of the scan. -/
theorem looks (hwalk : p.walk = some (.looks ts)) (hb : p.InBody)
    (hticks : p.base.ticks < 2 ^ 64) :
    Slept (p.mark .exec φ) (p.base.walkLook ts) := by
  have hw : p.walk ≠ none := by
    rw [hwalk]
    nofun
  have hscan := hs.scanned
  rw [hwalk] at hscan
  cases ts with
  | nil =>
      -- the end of the list: nobody is found
      have hmark : p.mark .exec φ = φ := by
        simp [mark, hb, hwalk, returns, State.walkLook]
      rw [hmark]
      show Slept φ ⟨p.base, some (.found none)⟩
      refine hs.rewalk hw nofun ?_ ?_
      · intro t
        unfold since
        rw [hwalk]
      · obtain ⟨pre, hpre, hlater⟩ := hscan
        intro t ht
        rw [hpre, List.append_nil] at ht
        exact hlater t ht
  | cons it ts =>
      obtain ⟨pre, hpre, hlater⟩ := hscan
      have hmem := hs.scanned_mem hpre
      rcases hs.look hwalk hticks with
        ⟨ha, heq⟩ | ⟨w, hd, h1, h2, h3, ⟨hle, heq⟩ | ⟨hlt, heq⟩⟩
      · -- found: it was awake
        have hmark : p.mark .exec φ = φ := by
          simp [mark, hb, hwalk, returns, heq, ← ha]
        rw [hmark, heq]
        refine hs.rewalk hw nofun ?_ ?_
        · intro t
          unfold since
          rw [hwalk]
        · exact ⟨hmem, ha⟩
      · -- found: it is due, and awake from here on
        have hmark : p.mark .exec φ = Function.update φ it .awake := by
          simp [mark, hb, hwalk, returns, heq]
        rw [hmark, heq]
        refine hs.touch hw nofun hmem rfl ?_ ?_ ?_ ?_
        · exact fun t ht => Function.update_of_ne ht _ _
        · intro t ht
          unfold since
          rw [hwalk]
          exact congrArg Task.lastSwitched (Function.update_of_ne ht _ _)
        · exact .inl ⟨Function.update_self _ _ _, rfl⟩
        · exact ⟨hmem, Function.update_self _ _ _⟩
      · -- passed by: it is due later
        have hmark : p.mark .exec φ = φ := by
          simp [mark, hb, hwalk, returns, heq]
        rw [hmark, heq]
        refine hs.touch hw nofun hmem rfl ?_ ?_ ?_ ?_
        · exact fun t _ => rfl
        · intro t ht
          unfold since
          rw [hwalk]
          dsimp only
          rw [if_neg (Ne.symm ht)]
          exact congrArg Task.lastSwitched (Function.update_of_ne ht _ _)
        · right
          have hsince : ∀ v, since ⟨p.base.setTask it v,
              some (.passes it ts)⟩ it = p.base.ticks := by
            intro v
            unfold since
            exact if_pos rfl
          refine ⟨w, hd, hd, ?_, ?_, ?_⟩
          · show (p.base.task it).sleep
              - (p.base.ticks - (p.base.task it).lastSwitched) ≠ 0
            omega
          · rw [hsince]
          · rw [hsince]
            show p.base.ticks + ((p.base.task it).sleep
              - (p.base.ticks - (p.base.task it).lastSwitched)) = w
            omega
        · refine ⟨pre, hpre, ?_⟩
          intro t ht
          rcases List.mem_append.mp ht with ht | ht
          · exact hlater t ht
          · rw [List.mem_singleton.mp ht]
            exact ⟨w, hd, hlt⟩

/-- The scan goes on from a task that sleeps on. -/
theorem passes (hwalk : p.walk = some (.passes it ts)) :
    Slept φ ⟨p.base.setTask it
      { p.base.task it with lastSwitched := p.base.ticks },
      some (.looks ts)⟩ := by
  have hw : p.walk ≠ none := by
    rw [hwalk]
    nofun
  have hscan := hs.scanned
  rw [hwalk] at hscan
  obtain ⟨pre, hpre, hlater⟩ := hscan
  have hmem := hs.scanned_mem hpre
  obtain ⟨w, hd, -⟩ := hlater it (by simp)
  have hdue := hs.due it w hd
  -- past its look the sum of `it` counts from now
  have hsince : p.since it = p.base.ticks := by
    unfold since
    rw [hwalk]
    exact if_pos rfl
  rw [hsince] at hdue
  refine hs.touch hw nofun hmem rfl ?_ ?_ ?_ ?_
  · exact fun t _ => rfl
  · intro t ht
    unfold since
    rw [hwalk]
    dsimp only
    rw [if_neg (Ne.symm ht)]
    exact congrArg Task.lastSwitched (Function.update_of_ne ht _ _)
  · right
    have hsince' : since ⟨p.base.setTask it
        { p.base.task it with lastSwitched := p.base.ticks },
        some (.looks ts)⟩ it = p.base.ticks :=
      congrArg Task.lastSwitched (Function.update_self it _ p.base.task)
    rw [hsince']
    exact ⟨w, hd, hd, hdue⟩
  · refine ⟨pre ++ [it], ?_, hlater⟩
    rw [List.append_assoc]
    exact hpre

/-- One step of the body of `yield`. -/
theorem body_step (hb : p.InBody) (hticks : p.base.ticks < 2 ^ 64)
    (h : Step p .exec q) : Slept (p.mark .exec φ) q := by
  obtain ⟨rest, hst, rfl⟩ := body_inv hb h
  -- the part of the scan that is next says what the step does
  cases hwalk : p.walk with
  | none =>
      cases hp : φ p.base.current with
      | awake =>
          have hmark : p.mark .exec φ = φ := by
            simp [mark, hb, hwalk, hp]
          rw [hmark]
          exact hs.starts hwalk hst (fun _ _ => rfl) (.inl ⟨hp, hp⟩)
      | called d =>
          have hmark : p.mark .exec φ = Function.update φ p.base.current
              (.due (p.base.ticks + d)) := by
            simp [mark, hb, hwalk, hp]
          rw [hmark]
          apply hs.starts hwalk hst
          · exact fun t ht => Function.update_of_ne ht _ _
          · exact .inr ⟨d, hp, Function.update_self _ _ _⟩
      | due w => exact absurd hp (hs.current_not_due hwalk w)
  | some walk =>
      cases walk with
      | looks ts => exact hs.looks hwalk hb hticks
      | passes it ts =>
          have hmark : p.mark .exec φ = φ := by
            simp [mark, hb, hwalk, returns]
          rw [hmark]
          exact hs.passes hwalk
      | found next =>
          have hmark : p.mark .exec φ = φ := by
            simp [mark, hb, hwalk, returns]
          rw [hmark]
          exact hs.ends hwalk hst

/-- One step. -/
theorem step (hplain : p.Plain e) (hund : p.Undisturbed e)
    (h : Step p e q) : Slept (p.mark e φ) q := by
  obtain ⟨hquiet, hticks, hms⟩ := hplain
  by_cases hb : e = .exec ∧ p.InBody
  · obtain ⟨rfl, hb⟩ := hb
    exact hs.body_step hb (by omega) h
  · have hb' : e = .exec → ¬p.InBody := fun he hi => hb ⟨he, hi⟩
    obtain ⟨hstep, hq⟩ := base_inv hb' h
    have hbody : e = .exec → p.base.stack.head? ≠ some (.yield .body) := hb'
    -- only its own steps come while the body is under way
    have hwalk : p.walk = none := by
      by_contra hw
      have hin := hs.body hw
      unfold InBody at hin
      cases e with
      | exec => exact hbody rfl hin
      | irq => exact hw (hund rfl)
      | call c =>
          rw [(call_inv hstep).1] at hin
          cases hin
      | alloc t flag =>
          obtain ⟨u, rest, hst, -⟩ := alloc_inv hstep
          rw [hst] at hin
          cases hin
      | fault => cases hquiet
      | killTo t => cases hquiet
    obtain ⟨base, walk⟩ := q
    obtain rfl : walk = none := hq.trans hwalk
    by_cases hsleep : ∃ ms, e = .call (.sleep ms)
    · obtain ⟨ms, rfl⟩ := hsleep
      exact hs.sleeps hwalk hms hstep
    · obtain ⟨hseat, hc⟩ := hs.seated.step hquiet
        (fun ms he => hsleep ⟨ms, he⟩) hbody hticks hstep
      have hmark : p.mark e φ = φ := by
        cases e with
        | exec => simp [mark, hb' rfl]
        | call c =>
            cases c with
            | sleep ms => exact absurd ⟨ms, rfl⟩ hsleep
            | _ => rfl
        | _ => rfl
      rw [hmark]
      exact hs.calm hwalk hseat hc

/-- What the phases say of a state is what sleeping is to mean. -/
theorem exact (hticks : p.base.ticks < 2 ^ 64) : p.Exact φ := by
  have hlook : ∀ t, p.Looks t → ∃ ts, p.walk = some (.looks (t :: ts)) :=
    fun t h => h.2
  -- a step at the front of the scan is one of `walkLook`
  have hstep : ∀ t ts q, p.InBody → p.walk = some (.looks (t :: ts)) →
      Step p .exec q → q = p.base.walkLook (t :: ts) := by
    intro t ts q hb hwalk h
    obtain ⟨rest, -, rfl⟩ := body_inv hb h
    rw [hwalk]
    rfl
  constructor
  · intro t w hd hb hret
    -- who is returned was awake already, or is due by now
    unfold returns at hret
    cases hwalk : p.walk with
    | none =>
        rw [hwalk] at hret
        cases hret
    | some walk =>
        rw [hwalk] at hret
        cases walk with
        | passes it ts => cases hret
        | found next => cases hret
        | looks ts =>
            cases ts with
            | nil => cases hret
            | cons it ts =>
                rcases hs.look hwalk hticks with
                  ⟨ha, heq⟩ | ⟨w', hd', -, -, -, ⟨hle, heq⟩ | ⟨hlt, heq⟩⟩
                · simp only [heq, Option.some.injEq] at hret
                  rw [← hret, ha] at hd
                  cases hd
                · simp only [heq, Option.some.injEq] at hret
                  rw [← hret, hd'] at hd
                  cases hd
                  exact hle
                · simp only [heq] at hret
                  cases hret
  · intro t w q hd hl hle h
    obtain ⟨ts, hwalk⟩ := hlook t hl
    rw [hstep t ts q hl.1 hwalk h]
    rcases hs.look hwalk hticks with
      ⟨ha, -⟩ | ⟨w', hd', -, -, -, ⟨-, heq⟩ | ⟨hlt, -⟩⟩
    · rw [ha] at hd
      cases hd
    · rw [heq]
      refine ⟨rfl, ?_⟩
      show (Function.update p.base.task t _ t).sleep = 0
      rw [Function.update_self]
    · rw [hd'] at hd
      cases hd
      omega
  · intro t w hd hno
    obtain ⟨-, -, hsum⟩ := hs.due t w hd
    -- the scan has not passed it, so the last look is on record
    have hsince : p.since t = (p.base.task t).lastSwitched := by
      unfold since
      split
      · rename_i it ts hwalk
        have hne : it ≠ t := fun h => hno ts (h ▸ hwalk)
        rw [if_neg hne]
      · rfl
    rwa [hsince] at hsum
  · intro t hl hsleep
    obtain ⟨ts, hwalk⟩ := hlook t hl
    have hw : p.walk ≠ none := by
      rw [hwalk]
      nofun
    have hscan := hs.scanned
    rw [hwalk] at hscan
    obtain ⟨pre, hpre, -⟩ := hscan
    have hmem : t ∈ p.base.objects := by
      apply hs.seated.tasks
      rw [hpre]
      exact List.mem_append_right pre List.mem_cons_self
    rcases hs.look hwalk hticks with ⟨ha, -⟩ | ⟨w, -, -, hle, -⟩
    · exact absurd (hs.awake t hmem ha) hsleep
    · exact hle
  · intro t rest q hl h hq
    obtain ⟨ts, hwalk⟩ := hlook t hl
    rw [hstep t ts q hl.1 hwalk h] at hq ⊢
    rcases hs.look hwalk hticks with
      ⟨-, heq⟩ | ⟨w, -, -, -, hsum, ⟨-, heq⟩ | ⟨hlt, heq⟩⟩
    · rw [heq] at hq
      cases hq
    · rw [heq] at hq
      cases hq
    · rw [heq]
      -- passed by: what has gone by since the last look comes off
      have hself : ((p.base.setTask t { p.base.task t with
          sleep := (p.base.task t).sleep
            - (p.base.ticks - (p.base.task t).lastSwitched) }).task t).sleep =
          (p.base.task t).sleep
            - (p.base.ticks - (p.base.task t).lastSwitched) := by
        show (Function.update p.base.task t _ t).sleep = _
        rw [Function.update_self]
      rw [hself]
      omega
  · intro _ hwalk t ht
    have hscan := hs.scanned
    rw [hwalk] at hscan
    obtain ⟨w, hd, hlt⟩ := hscan t ht
    exact ⟨(hs.due t w hd).1, w, hd, hlt⟩

end Slept

end Fine

-- ================================================================ the runs

variable {s₀ : State} {p : Fine} {tr : List (Fine × Event)}

theorem Rested.slept (h : Rested s₀) :
    Fine.Slept (fun _ => .awake) ⟨s₀, none⟩ := by
  refine ⟨⟨fun _ => h.runner, ?_, h.ctx, h.current, h.idle, h.tasks, h.null⟩,
    fun hw => absurd rfl hw, fun _ hw => absurd rfl hw, rfl,
    fun t ht _ => h.sleep t ht, nofun, nofun, nofun, trivial⟩
  show Fits s₀.objects s₀.current s₀.stack
  rw [h.stack]
  trivial

theorem Fine.phases_snoc (s : Fine) (e : Event) :
    phases (tr ++ [(s, e)]) = s.mark e (phases tr) := by
  unfold phases
  rw [List.foldl_append]
  rfl

/-- In a run in which tasks yield, sleep and start others, and in which
no timer interrupt comes into the body of `yield`, sleeping is exact in
ticks.

The invariant is `Slept`: a sleeper has `last_switched + sleep` at the tick
it is due. The scan moves the one up by what it takes off the other, as long
as no tick comes between its reads; outside of the body a tick changes
neither. -/
theorem run_exact (hrest : Rested s₀) (hr : Fine.Run ⟨s₀, none⟩ tr p)
    (hplain : ∀ q ∈ tr, q.1.Plain q.2)
    (hund : ∀ q ∈ tr, q.1.Undisturbed q.2)
    (hticks : p.base.ticks < 2 ^ 64) : p.Exact (Fine.phases tr) := by
  have hslept : Fine.Slept (Fine.phases tr) p := by
    clear hticks
    induction hr with
    | nil => exact hrest.slept
    | @snoc tr p q e hr h ih =>
        rw [Fine.phases_snoc]
        apply Fine.Slept.step _ (hplain (p, e) (by simp))
          (hund (p, e) (by simp)) h
        exact ih (fun q hq => hplain q (by simp [hq]))
          fun q hq => hund q (by simp [hq])
  exact hslept.exact hticks

-- ======================================================== runs of `booted`

/-- Events from `booted`, each in a state that is `ok`. -/
theorem booted_fine {α : Type} (ok : Fine → Event → Bool)
    (es : List Event) (view : Fine → (Nat → Phase) → α) (v : α)
    (h : (Run.follow (fun e (p : Fine × (Nat → Phase)) =>
          (Fine.apply e p.1).map fun s' => (s', p.1.mark e p.2))
        (fun p e => ok p.1 e) es (⟨booted, none⟩, fun _ => .awake)).map
      (fun p => view p.1 p.2) = some v) :
    ∃ tr p, Fine.Run ⟨booted, none⟩ tr p ∧
      (∀ q ∈ tr, ok q.1 q.2 = true) ∧ view p (Fine.phases tr) = v := by
  obtain ⟨⟨p, φ⟩, hp, hv⟩ := Option.map_eq_some_iff.mp h
  obtain ⟨tr, hr, hok, rfl⟩ := Run.of_follow_account Fine.mark
    (fun _ _ _ hs => hs) hp
  exact ⟨tr, p, hr, hok, hv⟩

theorem booted_rested : Rested booted := by
  refine ⟨rfl, rfl, by decide, by decide, by decide, by decide, by decide, ?_⟩
  intro t c hc
  have hc : (booted.task t).ctx = some c := hc
  by_cases ht : t = 1
  · rw [ht] at hc
    cases hc
  · have heq : (booted.task t).ctx = some ⟨false, []⟩ := by
      show (ite (t = 1) _ _ : Task).ctx = _
      rw [if_neg ht]
    rw [heq] at hc
    cases hc
    trivial

/-- The kernel sleeps alone, and is due when idle's time slice ends. -/
theorem run_exact_slumber :
    ∃ tr p, Fine.Run ⟨booted, none⟩ tr p ∧ Fine.phases tr 1 = .due 10 ∧
      p.walk = some (.looks [1]) ∧ p.base.ticks = 10 ∧
      p.Exact (Fine.phases tr) := by
  obtain ⟨tr, p, hr, hok, hv⟩ := booted_fine
    (fun p e => decide (p.Plain e ∧ p.Undisturbed e)) slumber
    (fun p φ => (φ 1, p.walk, p.base.ticks))
    (.due 10, some (.looks [1]), 10) (by decide +kernel)
  simp only [Prod.mk.injEq] at hv
  obtain ⟨hφ, hwalk, hticks⟩ := hv
  refine ⟨tr, p, hr, hφ, hwalk, hticks, ?_⟩
  apply run_exact booted_rested hr
  · exact fun q hq => (of_decide_eq_true (hok q hq)).1
  · exact fun q hq => (of_decide_eq_true (hok q hq)).2
  · rw [hticks]
    decide

/-- After `doze`, the sleeper is due a tick later than it was. -/
theorem doze_inexact :
    ¬∀ s₀ tr p, Rested s₀ → Fine.Run ⟨s₀, none⟩ tr p →
      (∀ q ∈ tr, q.1.Plain q.2) → p.base.ticks < 2 ^ 64 →
        p.Exact (Fine.phases tr) := by
  intro hall
  obtain ⟨tr, p, hr, hok, hv⟩ := booted_fine (fun p e => decide (p.Plain e))
    doze (fun p φ => (φ 3, p.walk, (p.base.task 3).lastSwitched,
      (p.base.task 3).sleep, p.base.ticks))
    (.due 20, some (.looks [1]), 11, 10, 11) (by decide +kernel)
  simp only [Prod.mk.injEq] at hv
  obtain ⟨hφ, hwalk, hlast, hsleep, hticks⟩ := hv
  have hex := hall booted tr p booted_rested hr
    (fun q hq => of_decide_eq_true (hok q hq)) (by rw [hticks]; decide)
  have hsum := hex.sum 3 20 hφ (by rw [hwalk]; nofun)
  rw [hlast, hsleep] at hsum
  cases hsum

end Ntibux.Sched
