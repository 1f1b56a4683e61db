/-
The list holds exactly the live tasks, in every run, and a kill takes out
the one task with the id.

`Sound` is the invariant of a run: the list is held (`Held`), and its
tasks are those alive, each with an id of its own below the next. Each
kind of step keeps it (`Sound.newTask` to `Sound.heap`), so it holds
along every run that has ids left to give (`run_sound`).
-/
import Ntibux.Kernel.Proofs.Creation

namespace Ntibux

namespace Running

open HeapState (Reaches)
open Mem (Wrote Spares field)
open Sched (member RunList)
open Kernel (Sane)
open Outcome (Below Gives)

variable {h : HeapState} {m m' : Mem} {s s₀ s' : Running} {c c' : Scheduler}
  {e : Event} {tr : List (Running × Event)} {al : List (Nat × Nat)}
  {head t u it id fuel fuel' ticks kernel : Nat}
  {os os' l l' freed freed' : List Nat}

-- ============================================================== more fuel

theorem killLoop_below (hle : fuel ≤ fuel') :
    Below (Scheduler.killLoop head id fuel it m)
      (Scheduler.killLoop head id fuel' it m) := by
  induction fuel generalizing fuel' it m with
  | zero => exact .inl rfl
  | succ fuel ih =>
      obtain ⟨fuel', rfl⟩ : ∃ n, fuel' = n + 1 := ⟨fuel' - 1, by omega⟩
      unfold Scheduler.killLoop
      split
      · exact .refl _
      · split
        · exact (Mem.kheapFree_below (by omega)).bind fun m =>
            (ih (by omega)).bind fun _ => .refl _
        · exact ih (by omega)

/-- What `kill_task` comes to does not depend on the fuel. -/
theorem killTask_below (hle : fuel ≤ fuel') :
    Below (c.killTask ticks fuel id m) (c.killTask ticks fuel' id m) := by
  unfold Scheduler.killTask
  split
  · exact .refl _
  · split
    · refine Below.bind ?_ fun _ => .refl _
      unfold Scheduler.killCurrentTaskLocked
      split
      · exact .refl _
      · exact (Mem.kheapFree_below hle).bind fun _ => .refl _
    · exact (killLoop_below hle).bind fun _ => .refl _

-- ========================================================== the invariant

/-- The scheduler's list is held, and its tasks are those alive. -/
structure Sound (s : Running) (al : List (Nat × Nat)) (l : List Nat) :
    Prop where
  held : Held s.heap s.sched.tasks (s.sched.idle :: l) l
  perm : l.Perm (al.map Prod.fst)
  ids : ∀ p ∈ al, s.id p.1 = p.2
  distinct : (al.map Prod.snd).Nodup
  next : ∀ p ∈ al, p.2 < s.sched.nextId
  idle : s.sched.idle ∉ l
  current : s.sched.current ∈ s.sched.idle :: l

namespace Sound

theorem holds (hs : Sound s al l) : Holds s l al :=
  ⟨hs.held.list, hs.perm, hs.held.nodup, hs.ids, hs.distinct⟩

theorem mem_of_alive (hs : Sound s al l) {p : Nat × Nat} (hp : p ∈ al) :
    p.1 ∈ l := hs.perm.mem_iff.mpr (List.mem_map_of_mem hp)

-- ============================================================== the steps

/-- A step that moves no task in or out. -/
theorem turned {live : List Block} (hs : Sound s al l) (ticks : Nat)
    (hlive : live = s.heap.live)
    (ht : Turned s.heap (s.sched.idle :: l) l s.sched c m) :
    ∃ l', Sound ⟨c, ticks, ⟨m, live⟩⟩ al l' := by
  subst hlive
  obtain ⟨l', hd, hp⟩ := ht.held
  have hmem : ∀ t, t ∈ s.sched.idle :: l' ↔ t ∈ s.sched.idle :: l := by
    intro t
    rw [List.mem_cons, List.mem_cons, hp.mem_iff]
  refine ⟨l', ?_, hp.trans hs.perm, fun p hpa => ?_, hs.distinct, ?_, ?_, ?_⟩
  · show Held ⟨m, s.heap.live⟩ c.tasks (c.idle :: l') l'
    rw [ht.tasks, ht.idle]
    exact hd.objects (fun t ht => (hmem t).mp ht)
      fun t ht => List.mem_cons_of_mem _ ht
  · rw [← hs.ids p hpa]
    exact ht.ids p.1 (List.mem_cons_of_mem _ (hs.mem_of_alive hpa))
  · intro p hpa
    show p.2 < c.nextId
    rw [ht.nextId]
    exact hs.next p hpa
  · show c.idle ∉ l'
    rw [ht.idle, hp.mem_iff]
    exact hs.idle
  · show c.current ∈ c.idle :: l'
    rw [ht.idle, hmem]
    exact ht.current

/-- `new_task`. -/
theorem newTask {killMe entry : Nat} {name : List UInt8} (hs : Sound s al l)
    (hid : s.sched.nextId + 1 < 2 ^ 32)
    (hr : s.sched.newTask s.ticks fuel killMe name entry s.mem
      = .ret (t, c, m)) :
    Sound ⟨c, s.ticks, ⟨m, stackBlock m t :: object t :: s.heap.live⟩⟩
      (al ++ [(t, s.sched.nextId)]) (l ++ [t]) := by
  have hc := newTask_created hs.held (Nat.lt_trans (Nat.lt_succ_self _) hid)
    hr
  have hsched := hc.sched
  subst hsched
  have hne : s.sched.idle ≠ t := fun heq =>
    hc.fresh (heq ▸ hs.held.live _ List.mem_cons_self)
  refine ⟨?_, ?_, fun p hp => ?_, ?_, fun p hp => ?_, ?_, ?_⟩
  · refine hc.held.objects (fun u hu => ?_) fun u hu => ?_
    · simp only [List.mem_cons, List.mem_append, List.not_mem_nil,
        or_false] at hu ⊢
      tauto
    · exact List.mem_cons_of_mem _ hu
  · rw [List.map_append]
    exact hs.perm.append_right [t]
  · rcases List.mem_append.mp hp with hp | hp
    · rw [← hs.ids p hp]
      exact sameIds_of_fields hc.fields p.1
        (List.mem_cons_of_mem _ (hs.mem_of_alive hp))
    · rw [List.mem_singleton.mp hp]
      exact hc.shows.id
  · rw [List.map_append]
    refine List.nodup_append.mpr ⟨hs.distinct, by simp, ?_⟩
    intro i hi j hj heq
    obtain ⟨p, hp, rfl⟩ := List.mem_map.mp hi
    -- the ids given before are below `next_id`
    have hlt := hs.next p hp
    have hj : j = s.sched.nextId := by simpa using hj
    omega
  · show p.2 < u32 (s.sched.nextId + 1)
    rw [u32_of_lt hid]
    rcases List.mem_append.mp hp with hp | hp
    · exact Nat.lt_succ_of_lt (hs.next p hp)
    · rw [List.mem_singleton.mp hp]
      exact Nat.lt_succ_self _
  · intro hin
    rcases List.mem_append.mp hin with hin | hin
    · exact hs.idle hin
    · exact hne (List.mem_singleton.mp hin)
  · have hcur := hs.current
    simp only [List.mem_cons, List.mem_append] at hcur ⊢
    tauto

/-- Which tasks a kill gives back. -/
theorem freed_eq (hs : Sound s al l) (id : Nat) :
    (l.filter fun t => s.id t = id)
      = (al.filter fun p => p.2 = id).map Prod.fst := by
  have hfst : (al.map Prod.fst).filter (fun t => s.id t = id)
      = (al.filter fun p => p.2 = id).map Prod.fst := by
    rw [List.filter_map]
    refine congrArg _ (List.filter_congr fun p hp => ?_)
    rw [Function.comp_apply, hs.ids p hp]
  have hperm := (hs.perm.filter fun t => s.id t = id).trans
    (.of_eq hfst)
  have hone : ((al.filter fun p => p.2 = id).map Prod.fst).length ≤ 1 := by
    have hnd : ((al.filter fun p => p.2 = id).map Prod.snd).Nodup :=
      hs.distinct.sublist (List.filter_sublist.map _)
    have hall : ∀ i ∈ (al.filter fun p => p.2 = id).map Prod.snd,
        i = id := by
      intro i hi
      obtain ⟨p, hp, rfl⟩ := List.mem_map.mp hi
      simpa using (List.mem_filter.mp hp).2
    rw [List.eq_replicate_of_mem hall] at hnd
    have hle := List.nodup_replicate.mp hnd
    rwa [List.length_map] at hle ⊢
  match hx : (al.filter fun p => p.2 = id).map Prod.fst with
  | [] =>
      rw [hx] at hperm
      exact hperm.eq_nil.trans hx.symm
  | [t] =>
      rw [hx] at hperm
      exact (List.perm_singleton.mp hperm).trans hx.symm
  | t :: u :: ts =>
      rw [hx] at hone
      simp at hone

/-- `kill_task`: it returns, what is left is sound, and the heap's clients
may have done it. -/
theorem killTask (hs : Sound s al l) (h0 : id ≠ 0)
    (hcur : id ≠ s.id s.sched.current) :
    ∃ m, Sound ⟨s.sched, s.ticks, ⟨m, without s.heap.live
        ((al.filter fun p => p.2 = id).map Prod.fst)⟩⟩
        (al.filter fun p => p.2 ≠ id)
        (l.filter (· ∉ (al.filter fun p => p.2 = id).map Prod.fst)) ∧
      Kills s id l ((al.filter fun p => p.2 = id).map Prod.fst)
        ⟨s.sched, s.ticks, ⟨m, without s.heap.live
          ((al.filter fun p => p.2 = id).map Prod.fst)⟩⟩ ∧
      Reaches s.heap ⟨m, without s.heap.live
        ((al.filter fun p => p.2 = id).map Prod.fst)⟩ := by
  obtain ⟨freed, hfreed⟩ : ∃ freed,
      (al.filter fun p => p.2 = id).map Prod.fst = freed := ⟨_, rfl⟩
  have heq := hs.freed_eq id
  rw [hfreed] at heq ⊢
  have hmem : ∀ t ∈ l, t ∈ freed ↔ s.id t = id := by
    intro t ht
    rw [← heq, List.mem_filter]
    simp [ht]
  have hsub : ∀ t ∈ freed, t ∈ l := by
    intro t ht
    rw [← heq] at ht
    exact (List.mem_filter.mp ht).1
  have hidle : s.sched.idle ∉ freed := fun h => hs.idle (hsub _ h)
  have hos : (s.sched.idle :: l).filter (· ∉ freed)
      = s.sched.idle :: l.filter (· ∉ freed) :=
    List.filter_cons_of_pos (by simpa using hidle)
  -- idle takes no part: the ids that count are those of the list
  obtain ⟨m, hg, hd, hf, hreach⟩ :=
    killTask_gives s.ticks hs.held h0 hcur heq.symm
  rw [hos] at hd hf
  refine ⟨m, ⟨hd, ?_, fun p hp => ?_, ?_, fun p hp => ?_, ?_, ?_⟩,
    ⟨hg, hd.list, fun t ht hnot i hi => ?_, rfl, ?_⟩, hreach⟩
  · have hleft : l.filter (· ∉ freed) = l.filter fun t => s.id t ≠ id :=
      List.filter_congr fun t ht => by simp [hmem t ht]
    have hright : (al.map Prod.fst).filter (fun t => s.id t ≠ id)
        = (al.filter fun p => p.2 ≠ id).map Prod.fst := by
      rw [List.filter_map]
      refine congrArg _ (List.filter_congr fun p hp => ?_)
      rw [Function.comp_apply, hs.ids p hp]
    rw [hleft, ← hright]
    exact hs.perm.filter _
  · obtain ⟨hp, hne⟩ := List.mem_filter.mp hp
    rw [← hs.ids p hp]
    refine sameIds_of_fields hf p.1 (List.mem_cons_of_mem _ ?_)
    have hl := hs.mem_of_alive hp
    refine List.mem_filter.mpr ⟨hl, ?_⟩
    rw [decide_eq_true_eq, hmem p.1 hl, hs.ids p hp]
    simpa using hne
  · exact hs.distinct.sublist (List.filter_sublist.map _)
  · exact hs.next p (List.mem_filter.mp hp).1
  · exact fun hin => hs.idle (List.mem_filter.mp hin).1
  · show s.sched.current ∈ s.sched.idle :: l.filter (· ∉ freed)
    rcases List.mem_cons.mp hs.current with hc | hc
    · rw [hc]
      exact List.mem_cons_self
    · refine List.mem_cons_of_mem _ (List.mem_filter.mpr ⟨hc, ?_⟩)
      rw [decide_eq_true_eq, hmem _ hc]
      exact hcur.symm
  · refine hf (t + i) ⟨t, ?_, Nat.le_add_right t i,
      Nat.add_lt_add_left hi t⟩
    rcases List.mem_cons.mp ht with rfl | ht
    · exact List.mem_cons_self
    · exact List.mem_cons_of_mem _
        (List.mem_filter.mpr ⟨ht, by simpa using hnot⟩)
  · obtain ⟨-, z, k, hgood⟩ := hd.sane
    exact hgood.safe

/-- A `kill_task` that has returned is the one that `killTask` speaks of:
it gave back the tasks with the id, and the scheduler is as it was. -/
theorem killed (hs : Sound s al l) (h0 : id ≠ 0)
    (hcur : id ≠ s.id s.sched.current)
    (hr : s.sched.killTask s.ticks fuel id s.mem = .ret (freed, c, m)) :
    freed = (al.filter fun p => p.2 = id).map Prod.fst ∧ c = s.sched ∧
      Sound ⟨s.sched, s.ticks, ⟨m, without s.heap.live freed⟩⟩
        (al.filter fun p => p.2 ≠ id) (l.filter (· ∉ freed)) ∧
      Kills s id l freed
        ⟨s.sched, s.ticks, ⟨m, without s.heap.live freed⟩⟩ ∧
      Reaches s.heap ⟨m, without s.heap.live freed⟩ := by
  obtain ⟨m', hsound, hk, hreach⟩ := hs.killTask h0 hcur
  have heq := (Gives.of_below (fun _ => killTask_below) hr).unique hk.returns
  injection heq with hfreed heq
  injection heq with hsched hm
  subst hfreed hsched hm
  exact ⟨rfl, rfl, hsound, hk, hreach⟩

/-- The rest of the kernel. -/
theorem heap {e : Ntibux.Event} (hs : Sound s al l)
    (hh : HeapState.Step s.heap e h) (hl : s.Leaves h) :
    Sound ⟨s.sched, s.ticks, h⟩ al l := by
  have hd := hs.held
  have hobj := hl.objects l hd.list
  have hspares : Spares (fun x =>
      (s.sched.tasks ≤ x ∧ x < s.sched.tasks + 8) ∨
        ∃ t ∈ s.sched.idle :: l, t ≤ x ∧ x < t + sizeofTask)
      s.mem h.mem := by
    intro x hx
    rcases hx with ⟨h1, h2⟩ | ⟨t, ht, h1, h2⟩
    · obtain ⟨i, rfl⟩ := Nat.exists_eq_add_of_le h1
      exact hl.node i (by omega)
    · obtain ⟨i, rfl⟩ := Nat.exists_eq_add_of_le h1
      exact (hobj t ht).2 i (by omega)
  refine ⟨hd.heap hh (fun t ht => (hobj t ht).1) hd.sub hspares ?_, hs.perm,
    fun p hp => ?_, hs.distinct, hs.next, hs.idle, hs.current⟩
  · intro p hp x h1 h2
    rcases List.mem_cons.mp hp with rfl | hp
    · exact .inl ⟨h1, h2⟩
    · obtain ⟨t, ht, rfl⟩ := List.mem_map.mp hp
      have hos := hd.sub t ht
      rw [hd.member_eq hos] at h1 h2
      exact .inr ⟨t, hos, by omega, show x < t + 96 by omega⟩
  · rw [← hs.ids p hp]
    refine hspares.load fun x h1 h2 => .inr ⟨p.1,
      List.mem_cons_of_mem _ (hs.mem_of_alive hp), h1, ?_⟩
    exact Nat.lt_trans h2 (show p.1 + 0 + 4 < p.1 + 96 by omega)

/-- One step, with an id left for a task that it makes. -/
theorem step (hs : Sound s al l)
    (hid : e.creates = true → s.sched.nextId + 1 < 2 ^ 32)
    (hstep : Step s e s') :
    (∃ l', Sound s' (after al (s, e)) l') ∧
      s'.sched.nextId = s.sched.nextId + e.creates.toNat := by
  cases hstep with
  | newTask hr =>
      have hsound := hs.newTask (hid rfl) hr
      refine ⟨⟨_, hsound⟩, ?_⟩
      have hc := newTask_created hs.held
        (Nat.lt_trans (Nat.lt_succ_self _) (hid rfl)) hr
      have hsched := hc.sched
      subst hsched
      exact u32_of_lt (hid rfl)
  | yield hr =>
      have ht := yield_turned hs.held List.mem_cons_self hs.current hr
      exact ⟨hs.turned s.ticks rfl ht, ht.nextId⟩
  | tick =>
      have hw : Wrote (OffFields (s.sched.idle :: l)) s.mem
          (s.mem.taskTick s.sched.current) :=
        store64_wrote hs.current (by decide) (by decide) _
      exact ⟨hs.turned _ rfl (hs.held.turned hw hs.current), rfl⟩
  | killTask h0 hcur hr =>
      obtain ⟨-, rfl, hsound, -, -⟩ := hs.killed h0 hcur hr
      exact ⟨⟨_, hsound⟩, rfl⟩
  | heap hh hl => exact ⟨⟨l, hs.heap hh hl⟩, rfl⟩

end Sound

-- ============================================================== whole runs

/-- What a run of the heap alone has come to, for `scheduler::init`. -/
theorem run_housed {h₀ : HeapState} {tr : List (HeapState × Ntibux.Event)}
    (h0 : HeapState.Initial h₀) (hmin : h₀.mem.kheap.minOrder = 12)
    (hr : HeapState.Run h₀ tr h) (hnode : head + 8 ≤ h.mem.kheap.freeZone) :
    Housed h head [] := by
  obtain ⟨k, -, hg⟩ := HeapState.run_good h0 hr
  have hsane : Sane h := ⟨by rw [hg.sim.minOrder]; exact hmin, _, k, hg⟩
  have hsame : h.mem.kheap.orders = h₀.mem.kheap.orders :=
    Ntibux.Run.invariant (P := fun h => h.mem.kheap.orders
      = h₀.mem.kheap.orders) (fun _ _ => True) hr (fun _ _ => trivial) rfl
      fun _ _ _ hP _ hs => hs.orders.trans hP
  refine ⟨hsane, ?_, hnode, nofun⟩
  rw [hsame, h0.orders, hg.sim.maxOrder, hg.sim.minOrder]
  rfl

/-- After `scheduler::init` the kernel's task is the only one. -/
theorem Initial.sound (hi : Initial s) :
    Sound s (alive s.sched.current []) [s.sched.current] ∧
      s.sched.nextId = Sched.AVAILABLE_IDS := by
  cases hi with
  | @init h₀ h tr fuel tasks _ _ _ ticks c m h0 hmin hr hnode hi =>
      obtain ⟨rfl, hnext, hd, hcur, -⟩ :=
        init_inited (run_housed h0 hmin hr hnode) hi
      have hne : c.idle ≠ c.current := by
        intro heq
        have hnd := hd.sane.nodup
        rw [heq] at hnd
        simp at hnd
      refine ⟨⟨hd, .refl _, ?_, by simp [alive], ?_, ?_, ?_⟩, hnext⟩
      · intro p hp
        rw [List.mem_singleton.mp hp]
        exact hcur.id
      · intro p hp
        show p.2 < c.nextId
        rw [List.mem_singleton.mp hp, hnext]
        exact show 0 < 100 by decide
      · show c.idle ∉ [c.current]
        simpa using hne
      · exact List.mem_cons_of_mem _ List.mem_cons_self

theorem alive_snoc (kernel : Nat) (tr : List (Running × Event))
    (p : Running × Event) :
    alive kernel (tr ++ [p]) = after (alive kernel tr) p := by
  unfold alive
  rw [List.foldl_append]
  rfl

/-- No kill takes the kernel's task. -/
theorem Step.kernel_alive (hstep : Step s e s')
    (hk : (kernel, Sched.KERNEL_TASK_ID) ∈ al) :
    (kernel, Sched.KERNEL_TASK_ID) ∈ after al (s, e) := by
  cases hstep with
  | newTask hr => exact List.mem_append_left _ hk
  | killTask h0 hcur hr =>
      refine List.mem_filter.mpr ⟨hk, ?_⟩
      exact decide_eq_true (Ne.symm h0)
  | _ => exact hk

/-- The invariant along every run with ids left to give. -/
theorem run_sound (hi : Initial s₀) (hr : Run s₀ tr s)
    (hfew : tr.countP (·.2.creates) < 2 ^ 32 - Sched.AVAILABLE_IDS) :
    (∃ l, Sound s (alive s₀.sched.current tr) l) ∧
      s.sched.nextId
        = Sched.AVAILABLE_IDS + tr.countP (·.2.creates) ∧
      (s₀.sched.current, Sched.KERNEL_TASK_ID)
        ∈ alive s₀.sched.current tr := by
  induction hr with
  | nil =>
      obtain ⟨hs, hnext⟩ := hi.sound
      exact ⟨⟨_, hs⟩, hnext, List.mem_singleton_self _⟩
  | @snoc tr s s' e hr hstep ih =>
      rw [List.countP_append, List.countP_singleton] at hfew ⊢
      have hnat : (if (s, e).2.creates then 1 else 0) = e.creates.toNat := by
        cases e.creates <;> rfl
      rw [hnat] at hfew ⊢
      obtain ⟨⟨l, hs⟩, hnext, hk⟩ := ih (by omega)
      have hid : e.creates = true → s.sched.nextId + 1 < 2 ^ 32 := by
        intro hc
        rw [hc] at hfew
        unfold Sched.AVAILABLE_IDS at hfew hnext
        simp only [Bool.toNat_true] at hfew
        omega
      obtain ⟨hsound, hnext'⟩ := hs.step hid hstep
      rw [alive_snoc]
      exact ⟨hsound, by omega, hstep.kernel_alive hk⟩

/-- In every run the list holds the kernel's task and the tasks created
and not yet killed, each once; and a kill of an id that is neither the
kernel's nor the running task's returns, gives back the task with that id
or nothing, and leaves the others in their order and their fields as they
were. -/
theorem run_holds_alive (hi : Initial s₀) (hr : Run s₀ tr s)
    (hfew : tr.countP (·.2.creates) < 2 ^ 32 - Sched.AVAILABLE_IDS) :
    ∃ l, Holds s l (alive s₀.sched.current tr) ∧ s₀.sched.current ∈ l ∧
      ∀ id, id ≠ 0 → id ≠ s.id s.sched.current →
        ∃ s', Step s (.killTask id) s' ∧
          Kills s id l (((alive s₀.sched.current tr).filter
            fun p => p.2 = id).map Prod.fst) s' := by
  obtain ⟨⟨l, hs⟩, -, hk⟩ := run_sound hi hr hfew
  refine ⟨l, hs.holds, hs.mem_of_alive hk, fun id h0 hcur => ?_⟩
  obtain ⟨m, -, hkills, -⟩ := hs.killTask h0 hcur
  obtain ⟨fuel, hret⟩ := hkills.returns.ret
  exact ⟨_, .killTask h0 hcur hret, hkills⟩

/-- On a booted 8 MiB machine the kernel makes two tasks and yields to the
first, which kills the second. -/
theorem run_holds_alive_booted : ∃ s₀ tr s l s', Initial s₀ ∧ Run s₀ tr s ∧
    tr.map Prod.snd
      = [.newTask 0x202000, .newTask 0x203000, .yield, .tick] ∧
    Holds s l [(0x200000, 0), (0x202000, 100), (0x203000, 101)] ∧
    Step s (.killTask 101) s' ∧ Kills s 101 l [0x203000] s' := by
  have hcheck : (HeapState.booted 7168).holds (fun m =>
      decide (0x110000 + 8 ≤ m.kheap.freeZone) &&
      (Scheduler.init 20 0x110000 0x9000 0x5000 0x100300 0 m).holds fun i =>
        decide (i.1.current = 0x200000 ∧ i.1.nextId = 100) &&
        (i.1.newTask 0 20 0x100100 [97] 0x100200 i.2).holds fun a =>
          decide (a.1 = 0x202000 ∧ a.2.1.nextId = 101) &&
          (a.2.1.newTask 0 20 0x100100 [98] 0x100200 a.2.2).holds fun b =>
            decide (b.1 = 0x203000) &&
            (b.2.1.yield 0 20 0x8f00 b.2.2).holds fun y =>
              decide (101 ≠ (y.2.taskTick y.1.current).load
                (field y.1.current .id))) = true := by
    decide +kernel
  obtain ⟨m, hboot, h0, hmin, -⟩ := HeapState.booted_small
  simp only [hboot, Outcome.holds_ret, Bool.and_eq_true,
    decide_eq_true_eq] at hcheck
  obtain ⟨hnode, hcheck⟩ := hcheck
  obtain ⟨⟨c, m₀⟩, hinit, hcheck⟩ := Outcome.holds_iff.mp hcheck
  simp only [Bool.and_eq_true, decide_eq_true_eq] at hcheck
  obtain ⟨⟨hkernel, hnext₀⟩, hcheck⟩ := hcheck
  obtain ⟨⟨t, c₁, m₁⟩, hnew₁, hcheck⟩ := Outcome.holds_iff.mp hcheck
  simp only [Bool.and_eq_true, decide_eq_true_eq] at hcheck
  obtain ⟨⟨ht, hnext₁⟩, hcheck⟩ := hcheck
  obtain ⟨⟨u, c₂, m₂⟩, hnew₂, hcheck⟩ := Outcome.holds_iff.mp hcheck
  simp only [Bool.and_eq_true, decide_eq_true_eq] at hcheck
  obtain ⟨hu, hcheck⟩ := hcheck
  obtain ⟨⟨c₃, m₃⟩, hyield, hcur⟩ := Outcome.holds_iff.mp hcheck
  rw [decide_eq_true_eq] at hcur
  obtain ⟨rfl, hnext₁⟩ : t = 0x202000 ∧ c₁.nextId = 101 := ⟨ht, hnext₁⟩
  obtain rfl : u = 0x203000 := hu
  -- the states that the calls computed above go through
  obtain ⟨s₀, hi, hc₀, ht₀, hm₀⟩ : ∃ s : Running, Initial s ∧ s.sched = c ∧
      s.ticks = 0 ∧ s.mem = m₀ :=
    ⟨_, .init (h := ⟨m, []⟩) h0 hmin .nil hnode hinit, rfl, rfl, rfl⟩
  obtain ⟨s₁, h₁, hc₁, ht₁, hm₁⟩ : ∃ s, Step s₀ (.newTask 0x202000) s ∧
      s.sched = c₁ ∧ s.ticks = 0 ∧ s.mem = m₁ := by
    rw [← hc₀, ← hm₀, ← ht₀] at hnew₁
    exact ⟨_, .newTask hnew₁, rfl, ht₀, rfl⟩
  obtain ⟨s₂, h₂, hc₂, ht₂, hm₂⟩ : ∃ s, Step s₁ (.newTask 0x203000) s ∧
      s.sched = c₂ ∧ s.ticks = 0 ∧ s.mem = m₂ := by
    rw [← hc₁, ← hm₁, ← ht₁] at hnew₂
    exact ⟨_, .newTask hnew₂, rfl, ht₁, rfl⟩
  obtain ⟨s₃, h₃, hc₃, hm₃⟩ : ∃ s, Step s₂ .yield s ∧ s.sched = c₃ ∧
      s.mem = m₃ := by
    rw [← hc₂, ← hm₂, ← ht₂] at hyield
    exact ⟨_, .yield hyield, rfl, rfl⟩
  have hr : Run s₀ [(s₀, .newTask 0x202000), (s₁, .newTask 0x203000),
      (s₂, .yield), (s₃, .tick)] _ :=
    .snoc (.snoc (.snoc (.snoc .nil h₁) h₂) h₃) .tick
  have hfew : [(s₀, Event.newTask 0x202000), (s₁, .newTask 0x203000),
      (s₂, .yield), (s₃, .tick)].countP (·.2.creates)
        < 2 ^ 32 - Sched.AVAILABLE_IDS :=
    Nat.lt_of_le_of_lt List.countP_le_length
      (show 4 < 2 ^ 32 - 100 by decide)
  obtain ⟨l, hholds, -, hkill⟩ := run_holds_alive hi hr hfew
  have halive : alive s₀.sched.current [(s₀, .newTask 0x202000),
      (s₁, .newTask 0x203000), (s₂, .yield), (s₃, .tick)]
        = [(0x200000, 0), (0x202000, 100), (0x203000, 101)] := by
    simp only [alive, after, List.foldl, List.cons_append, List.nil_append,
      hc₀, hc₁, hkernel, hnext₀, hnext₁, Sched.KERNEL_TASK_ID]
  rw [halive] at hholds hkill
  have hother : 101 ≠ (s₃.mem.taskTick s₃.sched.current).load
      (field s₃.sched.current .id) := by
    rw [hm₃, hc₃]
    exact hcur
  obtain ⟨s', hstep, hkills⟩ := hkill 101 (by decide) hother
  exact ⟨s₀, _, _, l, s', hi, hr, rfl, hholds, hstep, hkills⟩

end Running

end Ntibux
