/-
The calls on bytes and the calls on lists stay in step.

What a call does to the list and to the objects is known (`yield_cases`,
`newTask_created`, `Sound.killed`); here it is compared with what the list
machine does. Each turn of the scan does to the bytes what it does to the
list machine's tasks (`scan_reads`), by induction on the list, and the
rest of `yield` is one decision that both make alike (`Reads.yield`). A
new object shows a task that has not run yet on both sides, and what is
killed is read no more. `reads_of_run` is the run.

# CPU time

On the lists no call but the tick touches `cpu_time`, so the lists keep
the account of the ticks (`on_cpuTime`), and `run_cpuTime` reads it off
the bytes.
-/
import Ntibux.Kernel.Proofs.RunList

namespace Ntibux

namespace Running

open Mem (Wrote Spares field)
open Sched (member listEntry RunList)
open Kernel (Sane)
open Outcome (Gives)

variable {h : HeapState} {m m' : Mem} {s s₀ s' : Running}
  {c c' : Scheduler} {e : Event} {tr : List (Running × Event)}
  {a a' : Sched.State} {o : Sched.Task} {f : Nat → Sched.Task}
  {head t u v it id fuel ticks esp next : Nat} {os l l₁ l₂ : List Nat}
  {al : List (Nat × Nat)}

-- =========================================================== select_next

/-- The scan of `select_next` finds on the bytes what it finds on the
list, where null is none, and leaves what it leaves. -/
theorem scan_reads (hd : Housed h head os) (hl : ∀ t ∈ l, t ∈ os)
    (hs : Shown m os f) (hticks : ticks < 2 ^ 64) :
    (Sched.selectLoop ticks l f).1
        = (if (scan ticks l m).1 = 0 then none
          else some (scan ticks l m).1) ∧
      Shown (scan ticks l m).2 os (Sched.selectLoop ticks l f).2 := by
  induction l generalizing m f with
  | nil => exact ⟨rfl, hs⟩
  | cons t l ih =>
      have ht : t ∈ os := hl t List.mem_cons_self
      have hpage := hd.page ht
      have h0 : t ≠ 0 := by omega
      unfold scan Sched.selectLoop
      dsimp only
      rw [(hs t ht).sleep, (hs t ht).lastSwitched]
      by_cases hsleep : (f t).sleep ≠ 0
      · rw [if_pos hsleep, if_pos hsleep]
        by_cases hle : (f t).sleep
            ≤ u64 (ticks + (2 ^ 64 - (f t).lastSwitched))
        · -- wake up
          rw [if_pos hle, if_pos hle]
          exact ⟨(if_neg h0).symm, hs.store64 hd .sleep (by decide) ht⟩
        · -- sleep more: what is left is less than what was to sleep
          rw [if_neg hle, if_neg hle]
          have hlt : (f t).sleep < 2 ^ 64 := by
            rw [← (hs t ht).sleep]
            exact Mem.load64_lt ..
          obtain ⟨left, hleft⟩ : ∃ left, (f t).sleep - u64 (ticks
              + (2 ^ 64 - (f t).lastSwitched)) = left := ⟨_, rfl⟩
          rw [hleft]
          have hs₁ := (hs.store64 (v := left) hd .sleep (by omega)
            ht).store64 hd .lastSwitched hticks ht
          rw [Function.update_idem, Function.update_self] at hs₁
          exact ih (fun u hu => hl u (List.mem_cons_of_mem t hu)) hs₁
      · rw [if_neg hsleep, if_neg hsleep]
        exact ⟨(if_neg h0).symm, hs⟩

-- ================================================================ yield

/-- The list in memory is one list. -/
theorem runList_unique {L : Links Nat} (hl : RunList L head l₁)
    (hl' : RunList L head l₂) : l₁ = l₂ := by
  have heq := hl.ring.unique hl'.ring
  have hback : ∀ {l : List Nat}, RunList L head l →
      (l.map member).map listEntry = l := by
    intro l hl
    rw [List.map_map]
    conv_rhs => rw [← List.map_id l]
    refine List.map_congr_left fun t ht => ?_
    rw [Function.comp_apply, id_eq]
    exact Sched.listEntry_member (hl.task_lt t ht)
  rw [← hback hl, ← hback hl', heq]

/-- The list machine at the end of a call. -/
theorem Reads.goto {stack : List Sched.Frame} (ha : Reads s a) :
    Reads s (a.goto stack) :=
  ⟨ha.ticks, ha.nextId, ha.current, ha.idle, ha.list, ha.task⟩

/-- A switch on the bytes, and on the lists. -/
theorem Reads.switch {rest : List Sched.Frame}
    (hd : Held s.heap s.sched.tasks os a.tasks)
    (hos : ∀ t, t ∈ os ↔ t ∈ s.sched.idle :: a.tasks)
    (hcur : s.sched.current ∈ os) (hnext : next ∈ os) (ha : Reads s a)
    (hticks : s.ticks < 2 ^ 64)
    (hr : s.sched.performContextSwitch s.ticks
      (some (s.sched.current, esp)) next s.mem = (c, m)) :
    Reads ⟨c, s.ticks, ⟨m, s.heap.live⟩⟩
      (a.performContextSwitch (some a.current) next rest) := by
  obtain ⟨rfl, rfl⟩ := Prod.mk.inj hr
  have hs : Shown s.mem os a.task := fun u hu =>
    ha.task u ((hos u).mp hu)
  have hset := hs.store64 hd.toHoused .lastSwitched hticks hnext
  have hw : Wrote (OffFields os) s.mem ((s.mem.store64
      (field next .lastSwitched) s.ticks).store
        (field s.sched.current .esp) esp) :=
    (store64_wrote (f := .lastSwitched) hnext (by decide) (by decide)
      s.ticks).trans (.store (fun _ hx => hx.out hcur (by decide)
        (by decide)) esp)
  refine ⟨ha.ticks, ha.nextId, rfl, ha.idle, (hd.fields hw).list, ?_⟩
  intro u hu
  have hu := (hos u).mpr hu
  have hesp : Shows ((s.mem.store64 (field next .lastSwitched)
      s.ticks).store (field s.sched.current .esp) esp) u _ :=
    (hset u hu).store_esp hd.toHoused hcur hu
  have htask : (a.performContextSwitch (some a.current) next rest).task
      = Function.update a.task next
        (setTime .lastSwitched s.ticks (a.task next)) := by
    rw [ha.ticks]
    rfl
  rw [htask]
  exact hesp

/-- `yield` on the bytes, and on the lists. -/
theorem Reads.yield (hd : Held s.heap s.sched.tasks os a.tasks)
    (hos : ∀ t, t ∈ os ↔ t ∈ s.sched.idle :: a.tasks)
    (hcur : s.sched.current ∈ os) (hpos : ∀ t ∈ os, t ≠ 0)
    (ha : Reads s a) (hticks : s.ticks < 2 ^ 64)
    (hr : s.sched.yield s.ticks fuel esp s.mem = .ret (c, m)) :
    Reads ⟨c, s.ticks, ⟨m, s.heap.live⟩⟩ ((a.yieldBody []).goto []) := by
  have hs : Shown s.mem os a.task := fun u hu =>
    ha.task u ((hos u).mp hu)
  have h0 := hpos _ hcur
  obtain ⟨next, m₂, hscan, hend⟩ := yield_cases hd hcur hr
  -- the caller's time, the rotation, the scan
  have hd₁ := hd.fields (store64_wrote (m := s.mem) (f := .lastSwitched)
    hcur (by decide) (by decide) s.ticks)
  have hs₁ := hs.store64 hd.toHoused .lastSwitched hticks hcur
  have hrot := hd₁.rotate
  have hs₂ : Shown _ os _ := fun u hu => (hs₁ u hu).of_fields hrot.fields hu
  have hsub : ∀ t ∈ Sched.rotate a.tasks, t ∈ os := hrot.held.sub
  obtain ⟨p, hp⟩ : ∃ p, (s.mem.store64 (field s.sched.current .lastSwitched)
      s.ticks).listRotate s.sched.tasks = p := ⟨_, rfl⟩
  change scan _ _ ((s.mem.store64 _ _).listRotate _) = _ at hscan
  obtain ⟨hd₂, -, -⟩ := hrot
  dsimp only at hd₂ hs₂
  rw [hp] at hscan hd₂ hs₂
  obtain ⟨hw₃, hin⟩ := scan_wrote hsub s.ticks p
  obtain ⟨hfound, hs₃⟩ := scan_reads hd₂.toHoused hsub hs₂ hticks
  rw [hscan] at hw₃ hin hfound hs₃
  have hd₃ := hd₂.fields hw₃
  -- what the lists come to
  obtain ⟨b, hb⟩ : ∃ b, (a.setTask a.current
      { a.task a.current with lastSwitched := a.ticks }).selectNext = b :=
    ⟨_, rfl⟩
  have hloop : (b.1, b.2.task) = Sched.selectLoop s.ticks
      (Sched.rotate a.tasks) (Function.update a.task s.sched.current
        (setTime .lastSwitched s.ticks (a.task s.sched.current))) := by
    rw [← hb, ha.ticks, ha.current]
    rfl
  obtain ⟨h1, h2⟩ := Prod.mk.inj hloop
  rw [← h1] at hfound
  rw [← h2] at hs₃
  have htasks : b.2.tasks = Sched.rotate a.tasks := by rw [← hb]; rfl
  have hmem : ∀ t, t ∈ os ↔ t ∈ s.sched.idle :: b.2.tasks := by
    intro t
    rw [hos, htasks, Sched.rotate_eq, List.mem_cons, List.mem_cons,
      List.mem_rotate]
  have hread : Reads ⟨s.sched, s.ticks, ⟨m₂, s.heap.live⟩⟩ b.2 := by
    refine ⟨?_, ?_, ?_, ?_, htasks ▸ hd₃.list, fun u hu =>
      hs₃ u ((hmem u).mpr hu)⟩ <;> rw [← hb]
    · exact ha.ticks
    · exact ha.nextId
    · exact ha.current
    · exact ha.idle
  have hidle := (hos _).mpr (List.mem_cons_self (l := a.tasks))
  have hd₃' : Held ⟨m₂, s.heap.live⟩ s.sched.tasks os b.2.tasks :=
    htasks ▸ hd₃
  unfold Sched.State.yieldBody
  rw [if_neg (ha.current ▸ h0)]
  dsimp only
  rw [hb]
  obtain ⟨r, b⟩ := b
  dsimp only at hread hd₃' hmem hfound ⊢
  have hbcur : b.current = s.sched.current := hread.current.symm
  unfold target at hend
  by_cases hnone : next = 0
  · -- no task to switch to
    rw [if_pos hnone] at hend hfound
    subst hfound
    dsimp only
    have hsleep : m₂.load64 (field s.sched.current .sleep)
        = (b.task a.current).sleep := by
      rw [← ha.current]
      exact (hread.task _ ((hmem _).mp hcur)).sleep
    rw [← ha.current, ← hread.idle]
    rw [hsleep, ← ha.current] at hend
    by_cases hidling : s.sched.current = s.sched.idle
    · rw [if_pos hidling] at hend ⊢
      cases hend
      exact hread.goto.goto
    · rw [if_neg hidling] at hend ⊢
      by_cases hasleep : (b.task s.sched.current).sleep ≠ 0
      · rw [if_pos hasleep] at hend ⊢
        rw [← hbcur]
        exact (Reads.switch (s := ⟨s.sched, s.ticks, ⟨m₂, s.heap.live⟩⟩)
          hd₃' hmem hcur hidle hread hticks hend.symm).goto
      · rw [if_neg hasleep] at hend ⊢
        cases hend
        exact hread.goto.goto
  · -- another task, or the caller again
    rw [if_neg hnone] at hend hfound
    subst hfound
    have hnext : next ∈ os := hsub next (hin.resolve_left hnone)
    rw [← ha.current]
    dsimp only
    by_cases hsame : s.sched.current = next
    · rw [if_pos hsame] at hend ⊢
      cases hend
      exact hread.goto.goto
    · rw [if_neg hsame] at hend ⊢
      rw [← hbcur]
      exact (Reads.switch (s := ⟨s.sched, s.ticks, ⟨m₂, s.heap.live⟩⟩)
        hd₃' hmem hcur hnext hread hticks hend.symm).goto

-- ============================================================== the steps

namespace Reads

/-- The memory is held, and the objects show the lists' tasks. -/
theorem shown (ha : Reads s a) :
    Shown s.mem (s.sched.idle :: a.tasks) a.task := ha.task

/-- `new_task` on the bytes, and on the lists. -/
theorem newTask {killMe entry : Nat} {name : List UInt8}
    (hs : Sound s al a.tasks) (ha : Reads s a)
    (hid : s.sched.nextId + 1 < 2 ^ 32)
    (hr : s.sched.newTask s.ticks fuel killMe name entry s.mem
      = .ret (t, c, m)) :
    Reads ⟨c, s.ticks, ⟨m, stackBlock m t :: object t :: s.heap.live⟩⟩
      (Event.on a (.newTask t)) := by
  have hlt := Nat.lt_trans (Nat.lt_succ_self _) hid
  have hc := newTask_created hs.held hlt hr
  have hsched := hc.sched
  subst hsched
  refine ⟨ha.ticks, congrArg (fun n => u32 (n + 1)) ha.nextId, ha.current,
    ha.idle, hc.held.list, fun u hu => ?_⟩
  change u ∈ s.sched.idle :: (a.tasks ++ [t]) at hu
  rw [← List.cons_append] at hu
  show Shows m u (Function.update a.task t _ u)
  rcases List.mem_append.mp hu with hu | hu
  · have hne : u ≠ t := fun heq => hc.fresh (heq ▸ hs.held.live u hu)
    rw [Function.update_of_ne hne]
    exact (ha.task u hu).of_fields hc.fields hu
  · obtain rfl := List.mem_singleton.mp hu
    rw [Function.update_self, ← ha.nextId]
    exact ⟨hc.shows.id, hc.shows.lastSwitched, hc.shows.sleep,
      hc.shows.cpuTime⟩

/-- The timer's interrupt. -/
theorem tick (hs : Sound s al a.tasks) (ha : Reads s a) :
    Reads ⟨s.sched, u64 (s.ticks + 1),
      ⟨s.mem.taskTick s.sched.current, s.heap.live⟩⟩ a.tick := by
  have hcur := hs.current
  have hcpu := (ha.task _ hcur).cpuTime
  have hw : Wrote (OffFields (s.sched.idle :: a.tasks)) s.mem
      (s.mem.taskTick s.sched.current) :=
    store64_wrote hcur (by decide) (by decide) _
  have hset := ha.shown.store64 (v := u64 (s.mem.load64
    (field s.sched.current .cpuTime) + 1)) hs.held.toHoused .cpuTime
    (Nat.mod_lt _ (by decide)) hcur
  have htask : a.tick.task = Function.update a.task s.sched.current
      (setTime .cpuTime (u64 (s.mem.load64
        (field s.sched.current .cpuTime) + 1)) (a.task s.sched.current)) := by
    rw [hcpu, ha.current]
    rfl
  refine ⟨congrArg (fun n => u64 (n + 1)) ha.ticks, ha.nextId, ha.current,
    ha.idle, (hs.held.fields hw).list, fun u hu => ?_⟩
  rw [htask]
  exact hset u hu

/-- `kill_task`. -/
theorem killTask (hs : Sound s al a.tasks) (ha : Reads s a) {freed : List Nat}
    (hfreed : freed = (al.filter fun p => p.2 = id).map Prod.fst)
    (hk : Kills s id a.tasks freed
      ⟨s.sched, s.ticks, ⟨m, without s.heap.live freed⟩⟩) :
    Reads ⟨s.sched, s.ticks, ⟨m, without s.heap.live freed⟩⟩
      (a.killScan id) := by
  have hgone : ∀ t ∈ a.tasks, t ∉ freed ↔ (a.task t).id ≠ id := by
    intro t ht
    rw [hfreed, ← hs.freed_eq id, List.mem_filter,
      ← (ha.task t (List.mem_cons_of_mem _ ht)).id, decide_eq_true_eq,
      not_and]
    exact ⟨fun h => h ht, fun h _ => h⟩
  have hlist : a.tasks.filter (· ∉ freed)
      = a.tasks.filter fun t => (a.task t).id ≠ id :=
    List.filter_congr fun t ht => by simp [hgone t ht]
  refine ⟨ha.ticks, ha.nextId, ha.current, ha.idle, ?_, fun u hu => ?_⟩
  · have hl := hk.list
    rw [hlist] at hl
    exact hl
  · have hout : u ∈ s.sched.idle :: a.tasks ∧ u ∉ freed := by
      rcases List.mem_cons.mp hu with rfl | hu
      · refine ⟨List.mem_cons_self, fun hin => ?_⟩
        rw [hfreed, ← hs.freed_eq id] at hin
        exact hs.idle (List.mem_filter.mp hin).1
      · have hu' : u ∈ a.tasks := List.mem_of_mem_filter hu
        refine ⟨List.mem_cons_of_mem _ hu', (hgone u hu').mpr ?_⟩
        simpa using (List.mem_filter.mp hu).2
    exact (ha.task u hout.1).congr (hk.others u hout.1 hout.2)

/-- The rest of the kernel. -/
theorem heap (ha : Reads s a) (hd : Held h s.sched.tasks os a.tasks)
    (hl : s.Leaves h) : Reads ⟨s.sched, s.ticks, h⟩ a := by
  have hobj := hl.objects a.tasks ha.list
  refine ⟨ha.ticks, ha.nextId, ha.current, ha.idle, hd.list, fun u hu => ?_⟩
  exact (ha.task u hu).congr fun i hi => (hobj u hu).2 i
    (Nat.lt_trans hi (by decide))

/-- One step. -/
theorem step (hs : Sound s al a.tasks) (ha : Reads s a)
    (hticks : s.ticks < 2 ^ 64)
    (hid : e.creates = true → s.sched.nextId + 1 < 2 ^ 32)
    (hstep : Step s e s') : Reads s' (e.on a) := by
  cases hstep with
  | newTask hr => exact ha.newTask hs (hid rfl) hr
  | yield hr =>
      refine ha.yield hs.held (fun _ => Iff.rfl) hs.current (fun t ht => ?_)
        hticks hr
      have hp := hs.held.page ht
      omega
  | tick => exact ha.tick hs
  | killTask h0 hcur hr =>
      obtain ⟨hfreed, rfl, -, hk, -⟩ := hs.killed h0 hcur hr
      exact ha.killTask hs hfreed hk
  | heap hh hl => exact ha.heap (hs.heap hh hl).held hl

end Reads

-- =============================================================== the runs

/-- The list that the invariant is about is the one that is read. -/
theorem Sound.of_reads (hs : Sound s al l) (ha : Reads s a) :
    Sound s al a.tasks :=
  runList_unique hs.held.list ha.list ▸ hs

/-- The counter of ticks is a `u64` and wraps around. -/
theorem Step.ticks_lt (hticks : s.ticks < 2 ^ 64) (hstep : Step s e s') :
    s'.ticks < 2 ^ 64 := by
  cases hstep with
  | tick => exact Nat.mod_lt _ (by decide)
  | _ => exact hticks

/-- At the start memory shows the kernel's own task and an empty list behind
it. -/
theorem Initial.reads (hi : Initial s) :
    Reads s (s.view [s.sched.current]) :=
  ⟨rfl, rfl, rfl, rfl, hi.sound.1.held.list, fun _ _ => ⟨rfl, rfl, rfl, rfl⟩⟩

/-- A list of what happened is extended at its end. -/
theorem onLists_snoc (a : Sched.State) (tr : List (Running × Event))
    (p : Running × Event) :
    onLists a (tr ++ [p]) = p.2.on (onLists a tr) := by
  unfold onLists
  rw [List.foldl_append]
  rfl

/-- The counter fits its type in every state. -/
theorem run_ticks_lt (hr : Run s₀ tr s) (hticks : s₀.ticks < 2 ^ 64) :
    s.ticks < 2 ^ 64 :=
  Ntibux.Run.invariant (P := fun s : Running => s.ticks < 2 ^ 64)
    (fun _ _ => True) hr (fun _ _ => trivial) hticks
    fun _ _ _ hlt _ hstep => hstep.ticks_lt hlt

/-- The bytes and the lists stay in step. -/
theorem reads_of_run (hi : Initial s₀) (hr : Run s₀ tr s)
    (hticks : s₀.ticks < 2 ^ 64)
    (hfew : tr.countP (·.2.creates) < 2 ^ 32 - Sched.AVAILABLE_IDS) :
    Reads s (onLists (s₀.view [s₀.sched.current]) tr) := by
  induction hr with
  | nil => exact hi.reads
  | @snoc tr s s' e hr hstep ih =>
      rw [List.countP_append, List.countP_singleton] at hfew
      have ha := ih (by omega)
      obtain ⟨⟨l, hs⟩, hnext, -⟩ := run_sound hi hr (by omega)
      rw [onLists_snoc]
      refine ha.step (hs.of_reads ha) (run_ticks_lt hr hticks) ?_ hstep
      intro hc
      have hone : (s, e).2.creates = true := hc
      rw [if_pos hone] at hfew
      unfold Sched.AVAILABLE_IDS at hfew hnext
      omega

/-- An update that leaves the count alone leaves all counts alone. -/
theorem update_cpuTime (f : Nat → Sched.Task) (ho : o.cpuTime = (f t).cpuTime)
    (u : Nat) : (Function.update f t o u).cpuTime = (f u).cpuTime := by
  by_cases hut : u = t
  · rw [hut, Function.update_self, ho]
  · rw [Function.update_of_ne hut]

/-- `select_next` leaves `cpu_time` alone. -/
theorem selectLoop_cpuTime (ticks : Nat) (l : List Nat)
    (f : Nat → Sched.Task) (u : Nat) :
    ((Sched.selectLoop ticks l f).2 u).cpuTime = (f u).cpuTime := by
  induction l generalizing f with
  | nil => rfl
  | cons t l ih =>
      have hset : ∀ o : Sched.Task, o.cpuTime = (f t).cpuTime →
          (Function.update f t o u).cpuTime = (f u).cpuTime :=
        fun o ho => update_cpuTime f ho u
      unfold Sched.selectLoop
      split
      · dsimp only
        split
        · exact hset _ rfl
        · exact (ih _).trans (hset _ rfl)
      · rfl

/-- A switch charges nobody. -/
theorem performContextSwitch_cpuTime (old : Option Nat) (next : Nat)
    (rest : List Sched.Frame) (a : Sched.State) (u : Nat) :
    ((a.performContextSwitch old next rest).task u).cpuTime
      = (a.task u).cpuTime :=
  update_cpuTime a.task (o := { a.task next with lastSwitched := a.ticks })
    rfl u

/-- `yield` leaves `cpu_time` alone, and the tasks but for their order. -/
theorem yieldBody_keeps (a : Sched.State) (rest : List Sched.Frame) :
    (∀ u, ((a.yieldBody rest).task u).cpuTime = (a.task u).cpuTime) ∧
      (a.yieldBody rest).idle = a.idle ∧
      ∀ u ∈ (a.yieldBody rest).tasks, u ∈ a.tasks := by
  obtain ⟨r, hr⟩ : ∃ r, (a.setTask a.current
      { a.task a.current with lastSwitched := a.ticks }).selectNext = r :=
    ⟨_, rfl⟩
  -- the search writes `sleep` and `last_switched` only
  have hsel : ∀ u, (r.2.task u).cpuTime = (a.task u).cpuTime := by
    intro u
    rw [← hr]
    exact (selectLoop_cpuTime _ _ _ u).trans
      (update_cpuTime a.task (o := { a.task a.current with
        lastSwitched := a.ticks }) rfl u)
  have hidle : r.2.idle = a.idle := by rw [← hr]; rfl
  have htasks : ∀ u ∈ r.2.tasks, u ∈ a.tasks := by
    intro u hu
    rw [← hr] at hu
    change u ∈ Sched.rotate a.tasks at hu
    rwa [Sched.rotate_eq, List.mem_rotate] at hu
  unfold Sched.State.yieldBody
  split
  · exact ⟨fun _ => rfl, rfl, fun _ h => h⟩
  · dsimp only
    rw [hr]
    obtain ⟨next, b⟩ := r
    have hswitch : ∀ old next rest,
        (∀ u, ((b.performContextSwitch old next rest).task u).cpuTime
          = (a.task u).cpuTime) := fun old next rest u =>
      (performContextSwitch_cpuTime old next rest b u).trans (hsel u)
    cases next with
    | none =>
        dsimp only
        split
        · exact ⟨hsel, hidle, htasks⟩
        · split
          · exact ⟨hswitch _ _ _, hidle, htasks⟩
          · exact ⟨hsel, hidle, htasks⟩
    | some next =>
        dsimp only
        split
        · exact ⟨hsel, hidle, htasks⟩
        · exact ⟨hswitch _ _ _, hidle, htasks⟩

/-- What a call charges on the lists, it charges in the account. -/
theorem on_cpuTime (ha : Reads s a)
    (hacc : ∀ u ∈ a.idle :: a.tasks,
      (a.task u).cpuTime = u64 (charged u tr)) :
    ∀ u ∈ (e.on a).idle :: (e.on a).tasks,
      ((e.on a).task u).cpuTime = u64 (charge u (charged u tr) (s, e)) := by
  cases e with
  | newTask t =>
      intro u hu
      change u ∈ a.idle :: (a.tasks ++ [t]) at hu
      show (Function.update a.task t _ u).cpuTime
        = u64 (if t = u then 0 else charged u tr)
      -- a new task starts at 0, whoever had its page before
      by_cases hut : u = t
      · rw [hut, Function.update_self, if_pos rfl]
        rfl
      · rw [Function.update_of_ne hut, if_neg (Ne.symm hut)]
        refine hacc u ?_
        rw [← List.cons_append] at hu
        exact (List.mem_append.mp hu).resolve_right
          fun h => hut (List.mem_singleton.mp h)
  | yield =>
      obtain ⟨hcpu, hidle, htasks⟩ := yieldBody_keeps a []
      intro u hu
      change u ∈ (a.yieldBody []).idle :: (a.yieldBody []).tasks at hu
      show ((a.yieldBody []).task u).cpuTime = u64 (charged u tr)
      rw [hcpu]
      refine hacc u ?_
      rw [hidle] at hu
      exact (List.mem_cons.mp hu).elim (fun h => h ▸ List.mem_cons_self)
        fun h => List.mem_cons_of_mem _ (htasks u h)
  | tick =>
      intro u hu
      show (Function.update a.task a.current _ u).cpuTime
        = u64 (if s.sched.current = u then charged u tr + 1
          else charged u tr)
      rw [ha.current]
      by_cases hut : u = a.current
      · subst hut
        rw [Function.update_self, if_pos rfl]
        show u64 ((a.task a.current).cpuTime + 1) = _
        rw [hacc _ hu]
        -- the count is kept in 64 bits, on both sides
        exact Nat.mod_add_mod ..
      · rw [Function.update_of_ne hut, if_neg (Ne.symm hut)]
        exact hacc u hu
  | killTask id =>
      intro u hu
      refine hacc u ?_
      change u ∈ a.idle :: a.tasks.filter _ at hu
      exact (List.mem_cons.mp hu).elim (fun h => h ▸ List.mem_cons_self)
        fun h => List.mem_cons_of_mem _ (List.mem_of_mem_filter h)
  | heap e => exact hacc

/-- At the start nobody has been charged. -/
theorem Initial.cpuTime (hi : Initial s) :
    ∀ u ∈ s.sched.idle :: [s.sched.current],
      s.mem.load64 (field u .cpuTime) = 0 := by
  cases hi with
  | @init h₀ h tr fuel tasks _ _ _ ticks c m h0 hmin hr hnode hi =>
      have hinit := init_inited (run_housed h0 hmin hr hnode) hi
      intro u hu
      rcases List.mem_cons.mp hu with rfl | hu
      · exact hinit.idle.cpuTime
      · rw [List.mem_singleton.mp hu]
        exact hinit.current.cpuTime

/-- `cpu_time` is the account of the ticks. -/
theorem run_account (hi : Initial s₀) (hr : Run s₀ tr s)
    (hticks : s₀.ticks < 2 ^ 64)
    (hfew : tr.countP (·.2.creates) < 2 ^ 32 - Sched.AVAILABLE_IDS) :
    ∀ u ∈ (onLists (s₀.view [s₀.sched.current]) tr).idle ::
        (onLists (s₀.view [s₀.sched.current]) tr).tasks,
      ((onLists (s₀.view [s₀.sched.current]) tr).task u).cpuTime
        = u64 (charged u tr) := by
  induction hr with
  | nil => exact hi.cpuTime
  | @snoc tr s s' e hr hstep ih =>
      rw [List.countP_append] at hfew
      have hfew' : tr.countP (·.2.creates) < 2 ^ 32 - Sched.AVAILABLE_IDS :=
        by omega
      have hsnoc : ∀ u, charged u (tr ++ [(s, e)])
          = charge u (charged u tr) (s, e) := by
        intro u
        unfold charged
        rw [List.foldl_append]
        rfl
      intro u hu
      rw [onLists_snoc] at hu ⊢
      rw [hsnoc]
      exact on_cpuTime (reads_of_run hi hr hticks hfew') (ih hfew') u hu

/-- `ticks` counts the timer interrupts. -/
theorem run_ticks (hr : Run s₀ tr s) (hticks : s₀.ticks < 2 ^ 64) :
    s.ticks = u64 (s₀.ticks + tr.countP (·.2.ticks)) := by
  induction hr with
  | nil => exact (Nat.mod_eq_of_lt hticks).symm
  | @snoc tr s s' e hr hstep ih =>
      rw [List.countP_append, List.countP_singleton]
      cases hstep with
      | tick =>
          show u64 (s.ticks + 1) = u64 (s₀.ticks + (_ + 1))
          rw [ih, ← Nat.add_assoc]
          exact Nat.mod_add_mod ..
      | _ => exact ih

/-- On a booted 8 MiB machine the kernel makes a task of the name `a` and
yields to it. -/
theorem booted_steps : ∃ s₀ c m s, Initial s₀ ∧ s₀.ticks = 0 ∧
    s₀.sched.newTask s₀.ticks 20 0x100100 [97] 0x100200 s₀.mem
      = .ret (0x202000, c, m) ∧
    Step ⟨c, s₀.ticks, ⟨m, stackBlock m 0x202000 :: object 0x202000 ::
      s₀.heap.live⟩⟩ .yield s ∧
    s.sched.current = 0x202000 := by
  have hcheck : (HeapState.booted 7168).holds (fun m =>
      decide (0x110000 + 8 ≤ m.kheap.freeZone) &&
      (Scheduler.init 20 0x110000 0x9000 0x5000 0x100300 0 m).holds fun i =>
        (i.1.newTask 0 20 0x100100 [97] 0x100200 i.2).holds fun a =>
          decide (a.1 = 0x202000) &&
          (a.2.1.yield 0 20 0x8f00 a.2.2).holds fun y =>
            decide (y.1.current = 0x202000)) = true := by
    decide +kernel
  obtain ⟨m, hboot, h0, hmin, -⟩ := HeapState.booted_small
  simp only [hboot, Outcome.holds_ret, Bool.and_eq_true,
    decide_eq_true_eq] at hcheck
  obtain ⟨hnode, hcheck⟩ := hcheck
  obtain ⟨⟨c, m₀⟩, hinit, hcheck⟩ := Outcome.holds_iff.mp hcheck
  obtain ⟨⟨t, c₁, m₁⟩, hnew, hcheck⟩ := Outcome.holds_iff.mp hcheck
  simp only [Bool.and_eq_true, decide_eq_true_eq] at hcheck
  obtain ⟨ht, hcheck⟩ := hcheck
  obtain ⟨⟨c₂, m₂⟩, hyield, hcur⟩ := Outcome.holds_iff.mp hcheck
  obtain rfl : t = 0x202000 := ht
  have hcur : c₂.current = 0x202000 := of_decide_eq_true hcur
  obtain ⟨s₀, hi, hc₀, ht₀, hm₀⟩ : ∃ s : Running, Initial s ∧ s.sched = c ∧
      s.ticks = 0 ∧ s.mem = m₀ :=
    ⟨_, .init (h := ⟨m, []⟩) h0 hmin .nil hnode hinit, rfl, rfl, rfl⟩
  rw [← hc₀, ← hm₀, ← ht₀] at hnew
  rw [← ht₀] at hyield
  exact ⟨s₀, c₁, m₁, _, hi, ht₀, hnew, .yield hyield, hcur⟩

/-- The task is running at the next two interrupts. -/
theorem booted_turns : ∃ s₀ tr s, Initial s₀ ∧ Run s₀ tr s ∧ s₀.ticks = 0 ∧
    tr.map Prod.snd = [.newTask 0x202000, .yield, .tick, .tick] ∧
    s.sched.current = 0x202000 ∧ charged 0x202000 tr = 2 := by
  obtain ⟨s₀, c, m, s, hi, ht, hnew, hyield, hcur⟩ := booted_steps
  refine ⟨s₀, _, _, hi, .snoc (.snoc (.snoc (.snoc .nil (.newTask hnew))
    hyield) .tick) .tick, ht, rfl, hcur, ?_⟩
  simp only [charged, charge, List.nil_append, List.cons_append,
    List.foldl, hcur, if_true]

/-- A run of four events creates few tasks. -/
theorem few_of_map (es : List Event)
    (htr : tr.map Prod.snd = es) (hlen : es.length ≤ 4) :
    tr.countP (·.2.creates) < 2 ^ 32 - Sched.AVAILABLE_IDS := by
  have hle : tr.countP (·.2.creates) ≤ tr.length := List.countP_le_length
  rw [← List.length_map (f := Prod.snd), htr] at hle
  have hfour : 4 < 2 ^ 32 - Sched.AVAILABLE_IDS :=
    show 4 < 2 ^ 32 - 100 by decide
  omega

end Running

end Ntibux
