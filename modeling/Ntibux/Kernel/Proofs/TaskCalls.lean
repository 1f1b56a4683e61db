/-
What each call of the scheduler does to its list.

Each call of the heap, and each call of the scheduler, is taken apart
once, and its one lemma says all that is asked of it later: what it
keeps of the list and of the objects, and that the heap's clients may
have done it.

# The kill

`kill_task` frees an object and goes on from it. The heap writes links
only, so the object's own link to the next task is still there
(`Held.free`), and the loop meets every task that it would have met
(`killLoop_gives`).

# The switch

The loop of `select_next` over the links is a recursion over the list
that they make (`scan`), and everything about the loop is an induction on
that list (`selectLoop_scan`). With it `yield` is the scan and one
decision (`yield_cases`). It writes fields of the objects and no links,
and keeps what `Turned` says.
-/
import Ntibux.Kernel.Proofs.Objects

namespace Ntibux

namespace Running

open HeapState (Reaches)
open Mem (Wrote Nodes Edit OffNodes Spares field)
open Sched (member listEntry RunList)
open Kernel (Sane)
open Outcome (Gives)

variable {h h' : HeapState} {m m' : Mem} {s s' : Running}
  {c c' : Scheduler} {o : TaskObject} {name : List UInt8}
  {head a t u x n id fuel size flags order ticks esp killMe entry : Nat}
  {os os' l l' l₁ l₂ freed freed' : List Nat} {P : Nat → Prop} {b : Block}

-- =============================================================== the heap

/-- A step of the heap that keeps the objects. -/
theorem Housed.heap {e : Ntibux.Event} (hd : Housed h head os)
    (hstep : HeapState.Step h e h')
    (hlive : ∀ t ∈ os', object t ∈ h'.live) : Housed h' head os' := by
  have hsane := hd.sane.step hstep
  have hsame := hstep.orders
  obtain ⟨-, z, k, hg⟩ := hd.sane
  obtain ⟨k', -, hg'⟩ := hg.step hstep
  refine ⟨hsane, ?_, ?_, hlive⟩
  · rw [hsame, hd.orders, hg.sim.maxOrder, hg'.sim.maxOrder,
      hg.sim.minOrder, hg'.sim.minOrder]
  · have hnode := hd.node
    rw [hg.sim.freeZone] at hnode
    rw [hg'.sim.freeZone]
    exact hnode

/-- What the heap does when it hands out the block `b`: it writes neither
to the scheduler's node nor into a block in use, its machine takes a step,
and the bytes that it was asked to clear are clear. -/
structure Took (h : HeapState) (head size flags : Nat) (b : Block)
    (m' : Mem) : Prop where
  spares : Spares (fun x => x < head + 8 ∨ ∃ b ∈ h.live, b.Has x) h.mem m'
  reaches : Reaches h ⟨m', b :: h.live⟩
  zeroed : flags &&& ALLOC_ZEROED ≠ 0 →
    ∀ x, b.addr ≤ x → x < b.addr + size → m'.bytes x = 0

/-- No field of an object is written either. -/
theorem Took.fields (ht : Took h head size flags b m')
    (hd : Housed h head os) : Spares (Fields os) h.mem m' := by
  refine ht.spares.mono fun x hx => ?_
  obtain ⟨t, ht, h1, h2⟩ := hx
  unfold Sched.TASKS_OFFSET at h2
  exact .inr ⟨object t, hd.live t ht, h1, show x < t + 4096 by omega⟩

/-- A block taken from the heap. -/
theorem Housed.alloc (hd : Housed h head os)
    (hr : h.mem.kheapAlloc fuel size flags = .ret (a, m'))
    (ho : ∀ k, Mem.IsOrder h.mem.kheap size k → k = order) :
    Housed ⟨m', ⟨a, order⟩ :: h.live⟩ head os ∧
      Took h head size flags ⟨a, order⟩ m' := by
  obtain ⟨k, hk, htable⟩ := Mem.kheapAlloc_order hr
  obtain rfl := ho k hk
  obtain ⟨-, z, j, hg⟩ := hd.sane
  have hmax : k ≤ h.mem.kheap.maxOrder := by
    have hle := z.min_le_max
    obtain ⟨h1, h2⟩ := htable
    rw [hd.orders] at h2
    rw [← hg.sim.minOrder, ← hg.sim.maxOrder] at hle
    omega
  have hstep : HeapState.Step h _ ⟨m', ⟨a, k⟩ :: h.live⟩ :=
    .alloc hk hmax hr
  obtain ⟨-, j', -, -, hkept, hclear⟩ := hg.alloc hk hmax hr
  have hlow := Mem.kheapAlloc_spares hg.sim hg.inv hk
    (hg.sim.maxOrder ▸ hmax) hr
  have hnode := hd.node
  rw [hg.sim.freeZone] at hnode
  refine ⟨hd.heap hstep fun t ht => List.mem_cons_of_mem _ (hd.live t ht),
    fun x hx => ?_, .step hstep, hclear⟩
  rcases hx with hx | ⟨b, hb, hx⟩
  · exact hlow x (Nat.lt_of_lt_of_le hx hnode)
  · exact hkept.bytes b hb x hx

namespace Held

/-- A link is the scheduler's own, or in an object. -/
theorem link_spared (hd : Held h head os l) {p : Nat}
    (hp : p ∈ head :: l.map member) (h1 : p ≤ x) (h2 : x < p + 8) :
    x < head + 8 ∨ ∃ b ∈ h.live, b.Has x := by
  rcases List.mem_cons.mp hp with rfl | hp
  · exact .inl h2
  · obtain ⟨t, ht, rfl⟩ := List.mem_map.mp hp
    have ht := hd.sub t ht
    have hin : t ≤ x ∧ x < t + 4096 := by
      rw [hd.member_eq ht] at h1 h2
      omega
    exact .inr ⟨object t, hd.live t ht, hin⟩

/-- A step of the heap that keeps the links. -/
theorem heap {e : Ntibux.Event} (hd : Held h head os l)
    (hstep : HeapState.Step h e h') (hlive : ∀ t ∈ os', object t ∈ h'.live)
    (hsub : ∀ t ∈ l, t ∈ os') (hspares : Spares P h.mem h'.mem)
    (hlinks : ∀ p ∈ head :: l.map member, ∀ x, p ≤ x → x < p + 8 → P x) :
    Held h' head os' l := by
  refine ⟨hd.toHoused.heap hstep hlive, ⟨hd.list.ring.congr
    (fun p hp => ?_) fun p hp => ?_, hd.list.head_lt, hd.list.task_lt⟩, hsub⟩
  · exact hspares.load fun x h1 h2 =>
      hlinks p hp x h1 (Nat.lt_trans h2 (by omega))
  · exact hspares.load fun x h1 h2 =>
      hlinks p hp x (Nat.le_trans (Nat.le_add_right p 4) h1) (by omega)

/-- A block taken from the heap leaves the list as it is. -/
theorem alloc (hd : Held h head os l)
    (hr : h.mem.kheapAlloc fuel size flags = .ret (a, m'))
    (ho : ∀ k, Mem.IsOrder h.mem.kheap size k → k = order) :
    Kept h ⟨m', ⟨a, order⟩ :: h.live⟩ head os l ∧
      Took h head size flags ⟨a, order⟩ m' := by
  obtain ⟨hh, htook⟩ := hd.toHoused.alloc hr ho
  refine ⟨⟨⟨hh, ⟨hd.list.ring.congr (fun p hp => ?_) fun p hp => ?_,
    hd.list.head_lt, hd.list.task_lt⟩, hd.sub⟩,
    htook.fields hd.toHoused, htook.reaches⟩, htook⟩
  · exact htook.spares.load fun x h1 h2 =>
      hd.link_spared hp h1 (Nat.lt_trans h2 (by omega))
  · exact htook.spares.load fun x h1 h2 =>
      hd.link_spared hp (Nat.le_trans (Nat.le_add_right p 4) h1) (by omega)

/-- A task object given back: the heap returns, and what it overwrites is
neither a field of another object nor a link of any. -/
theorem free (hd : Held h head os l) (ht : t ∈ os) (hl : t ∉ l) :
    ∃ m', Gives (fun fuel => h.mem.kheapFree fuel t sizeofTask) m' ∧
      Kept h ⟨m', without h.live [t]⟩ head (os.filter (· ∉ [t])) l ∧
      m'.links.next (member t) = h.mem.links.next (member t) := by
  obtain ⟨hmin, z, k, hg⟩ := hd.sane
  have hb := hd.live t ht
  have ho : Mem.IsOrder h.mem.kheap sizeofTask (object t).order := by
    obtain ⟨j, hj⟩ := Mem.exists_isOrder h.mem.kheap
      (show sizeofTask ≤ 2 ^ 31 by decide)
    obtain rfl : j = 12 := Kernel.task_order hmin hj
    exact hj
  obtain ⟨m', hgives⟩ := Mem.kheapFree_gives hg.sim hg.unlocked
    (hg.inv_cons hb) ho
  obtain ⟨fuel, hr⟩ := hgives.ret
  obtain ⟨k', -, hg', hkept⟩ := hg.free hb ho hr
  have hoff := Mem.kheapFree_spares hg.sim (hg.inv_cons hb) ho hr
  have hwithout : h.live.erase (object t) = without h.live [t] := by
    rw [hd.sane.nodup.erase_eq_filter]
    refine List.filter_congr fun b _ => ?_
    by_cases hbt : b = object t
    · simp [hbt]
    · simp [hbt]
  have hstep : HeapState.Step h (.free t sizeofTask 12)
      ⟨m', without h.live [t]⟩ := by
    rw [← hwithout]
    exact .free hb ho hr
  -- the nodes are not where the heap keeps its links
  have hpages : ∀ u ∈ os, ∀ i < 8,
      Mem.OffLinks z (member u + i) := by
    intro u hu i hi
    have hp := hd.page hu
    rw [hd.member_eq hu]
    exact .inr (by omega)
  refine ⟨m', hgives, ⟨hd.heap hstep ?_ ?_ hoff ?_, ?_, .step hstep⟩, ?_⟩
  · intro u hu
    -- the other objects are blocks of their own
    obtain ⟨hu, hne⟩ := List.mem_filter.mp hu
    refine List.mem_filter.mpr ⟨hd.live u hu, ?_⟩
    simp only [List.mem_singleton, decide_eq_true_eq] at hne
    simpa [object] using hne
  · intro u hu
    refine List.mem_filter.mpr ⟨hd.sub u hu, ?_⟩
    have hne : u ≠ t := fun heq => hl (heq ▸ hu)
    simpa using hne
  · intro p hp x h1 h2
    obtain ⟨i, rfl⟩ : ∃ i, x = p + i := ⟨x - p, by omega⟩
    rcases List.mem_cons.mp hp with rfl | hp
    · have hnode := hd.node
      rw [hg.sim.freeZone] at hnode
      exact .inl (by omega)
    · obtain ⟨u, hu, rfl⟩ := List.mem_map.mp hp
      exact hpages u (hd.sub u hu) i (by omega)
  · intro x hx
    obtain ⟨u, hu, h1, h2⟩ := hx
    obtain ⟨hu, hne⟩ := List.mem_filter.mp hu
    simp only [List.mem_singleton, decide_eq_true_eq] at hne
    have hin : (object u).Has x := by
      unfold Sched.TASKS_OFFSET at h2
      exact ⟨h1, show x < u + 4096 by omega⟩
    refine hkept.bytes (object u) ?_ x hin
    refine (hd.sane.nodup.mem_erase_iff).mpr ⟨?_, hd.live u hu⟩
    exact fun heq => hne (Block.mk.inj heq).1
  · refine hoff.load fun x h1 h2 => ?_
    obtain ⟨i, rfl⟩ : ∃ i, x = member t + i := ⟨x - member t, by omega⟩
    exact hpages t ht i (by omega)

end Held

-- =============================================================== the kill

/-- The object that a loop over the list is at when `l` is left of it. -/
def start (head : Nat) : List Nat → Nat
  | [] => listEntry head
  | t :: _ => t

theorem listEntry_first {L : Links Nat} (hl : RunList L head l) :
    listEntry (L.next head) = start head l := by
  cases l with
  | nil =>
      have hnext : L.next head = head := hl.ring.seg.1
      rw [hnext]
      rfl
  | cons t l =>
      rw [hl.ring.first]
      exact Sched.listEntry_member (hl.task_lt t List.mem_cons_self)

theorem listEntry_next {L : Links Nat} (hl : RunList L head (l₁ ++ t :: l₂)) :
    listEntry (L.next (member t)) = start head l₂ := by
  have hr := hl.ring
  rw [List.map_append, List.map_cons] at hr
  obtain ⟨-, hs⟩ := Seg.append_iff.mp hr.seg
  cases l₂ with
  | nil =>
      have hnext : L.next (member t) = head := hs.1
      rw [hnext]
      rfl
  | cons u l₂ =>
      have hnext : L.next (member t) = member u := hs.1.1
      rw [hnext]
      exact Sched.listEntry_member (hl.task_lt u (by simp))

/-- The loop stops at the list's own node, and at no task. -/
theorem member_start_nil {L : Links Nat} (hl : RunList L head l) :
    member (start head []) = head :=
  Sched.member_listEntry hl.head_lt

theorem member_ne_head {L : Links Nat} (hl : RunList L head l) (ht : t ∈ l) :
    member t ≠ head := fun heq =>
  hl.ring.head_notMem (heq ▸ List.mem_map_of_mem ht)

theorem without_cons (live : List Block) (t : Nat) (freed : List Nat) :
    without (without live [t]) freed = without live (t :: freed) := by
  unfold without
  rw [List.filter_filter]
  refine List.filter_congr fun b _ => ?_
  simp [Bool.and_comm]

theorem filter_cons_notMem (l : List Nat) (t : Nat) (freed : List Nat) :
    (l.filter (· ∉ [t])).filter (· ∉ freed) = l.filter (· ∉ t :: freed) := by
  rw [List.filter_filter]
  refine List.filter_congr fun b _ => ?_
  simp [Bool.and_comm]

/-- The loop of `kill_task` returns, having given back the tasks with the
id; the others are as they were. -/
theorem killLoop_gives (hd : Held h head os (l₁ ++ l₂))
    (hfreed : freed
      = l₂.filter fun t => h.mem.load (field t .id) = id) :
    ∃ m', Gives
        (fun fuel => Scheduler.killLoop head id fuel (start head l₂) h.mem)
        (freed, m') ∧
      Kept h ⟨m', without h.live freed⟩ head (os.filter (· ∉ freed))
        ((l₁ ++ l₂).filter (· ∉ freed)) := by
  induction l₂ generalizing h os l₁ freed with
  | nil =>
      subst hfreed
      have hnone : without h.live [] = h.live := by simp [without]
      refine ⟨h.mem, .of_succ (.of_eq fun fuel => ?_), ?_, .refl _ _, ?_⟩
      · unfold Scheduler.killLoop
        rw [if_pos (member_start_nil hd.list)]
        rfl
      · simpa [without] using hd
      · show Reaches h ⟨h.mem, without h.live []⟩
        rw [hnone]
        exact .refl h
  | cons t l₂ ih =>
      have ht : t ∈ l₁ ++ t :: l₂ := by simp
      have hne : member (start head (t :: l₂)) ≠ head :=
        member_ne_head hd.list ht
      have hnext := listEntry_next hd.list
      have hnd := hd.nodup
      have htnot : t ∉ l₁ ++ l₂ :=
        (List.nodup_cons.mp (List.perm_middle.nodup_iff.mp hnd)).1
      by_cases hid : h.mem.load (field t .id) = id
      · -- unlinked, given back, and gone on from
        obtain ⟨⟨hd₁, hf₁, hr₁⟩, hn₁⟩ := hd.del
        obtain ⟨m₂, hg₂, ⟨hd₂, hf₂, hr₂⟩, hn₂⟩ := hd₁.free (hd.sub t ht) htnot
        have hsame : Spares (Fields (os.filter (· ∉ [t]))) h.mem m₂ := by
          refine (hf₁.mono fun x hx => ?_).trans hf₂
          obtain ⟨u, hu, hx⟩ := hx
          exact ⟨u, (List.mem_filter.mp hu).1, hx⟩
        -- the tasks ahead keep their ids
        have hrest : l₂.filter (fun u => m₂.load (field u .id) = id)
            = l₂.filter fun u => h.mem.load (field u .id) = id := by
          refine List.filter_congr fun u hu => ?_
          have hut : u ≠ t := fun heq => htnot (heq ▸ by simp [hu])
          have huos : u ∈ os.filter (· ∉ [t]) :=
            List.mem_filter.mpr ⟨hd.sub u (by simp [hu]), by simpa using hut⟩
          have hload : m₂.load (field u .id) = h.mem.load (field u .id) :=
            hsame.load fun x h1 h2 => ⟨u, huos, h1, Nat.lt_trans h2
              (show u + 0 + 4 < u + 88 by omega)⟩
          rw [hload]
        have hfreed' : freed = t ::
            l₂.filter fun u => h.mem.load (field u .id) = id := by
          rw [hfreed, List.filter_cons_of_pos (by simpa using hid)]
        obtain ⟨m₃, hg₃, hd₃, hf₃, hr₃⟩ := ih hd₂ hrest.symm
        rw [without_cons, filter_cons_notMem, ← hfreed'] at hd₃
        rw [filter_cons_notMem, ← hfreed'] at hf₃
        rw [without_cons, ← hfreed'] at hr₃
        refine ⟨m₃, .of_succ ?_, ?_, ?_, hr₁.trans (hr₂.trans hr₃)⟩
        · have hstart : start head (t :: l₂) = t := rfl
          rw [hstart] at hne
          simp only [hstart, Scheduler.killLoop, if_neg hne, if_pos hid]
          refine hg₂.bind ?_
          rw [hn₂, hn₁, hnext]
          refine hg₃.bind (.of_eq fun fuel => ?_)
          rw [hfreed']
        · have hlist : (l₁ ++ t :: l₂).filter (· ∉ freed)
              = (l₁ ++ l₂).filter (· ∉
                l₂.filter fun u => h.mem.load (field u .id) = id) := by
            have hgone : (l₁ ++ t :: l₂).filter (· ∉ [t]) = l₁ ++ l₂ := by
              rw [List.filter_append, List.filter_cons_of_neg (by simp),
                ← List.filter_append]
              refine List.filter_eq_self.mpr fun u hu => ?_
              have hut : u ≠ t := fun heq => htnot (heq ▸ hu)
              simpa using hut
            rw [hfreed', ← filter_cons_notMem, hgone]
          rw [hlist]
          exact hd₃
        · refine (hsame.mono fun x hx => ?_).trans hf₃
          obtain ⟨u, hu, hx⟩ := hx
          refine ⟨u, ?_, hx⟩
          rw [hfreed', ← filter_cons_notMem] at hu
          exact (List.mem_filter.mp hu).1
      · -- passed by
        have hfreed' : freed
            = l₂.filter fun u => h.mem.load (field u .id) = id := by
          rw [hfreed, List.filter_cons_of_neg (by simpa using hid)]
        have hassoc : l₁ ++ t :: l₂ = (l₁ ++ [t]) ++ l₂ := by simp
        rw [hassoc] at hd ⊢
        obtain ⟨m₂, hg₂, hback⟩ := ih hd hfreed'
        refine ⟨m₂, .of_succ ?_, hback⟩
        have hcall : ∀ fuel, Scheduler.killLoop head id (fuel + 1)
            (start head (t :: l₂)) h.mem
              = Scheduler.killLoop head id fuel (start head l₂) h.mem := by
          intro fuel
          rw [Scheduler.killLoop, if_neg hne, ← hnext]
          exact if_neg hid
        simp only [hcall]
        exact hg₂

/-- `kill_task` of a task that is neither the kernel nor the running
one. -/
theorem killTask_gives (ticks : Nat) (hd : Held h c.tasks os l) (h0 : id ≠ 0)
    (hcur : id ≠ h.mem.load (field c.current .id))
    (hfreed : freed = l.filter fun t => h.mem.load (field t .id) = id) :
    ∃ m', Gives (fun fuel => c.killTask ticks fuel id h.mem)
        (freed, c, m') ∧
      Kept h ⟨m', without h.live freed⟩ c.tasks (os.filter (· ∉ freed))
        (l.filter (· ∉ freed)) := by
  have hall : Held h c.tasks os ([] ++ l) := hd
  obtain ⟨m', hg, hback⟩ := killLoop_gives hall hfreed
  refine ⟨m', ?_, hback⟩
  unfold Scheduler.killTask
  simp only [if_neg h0, if_neg hcur, listEntry_first hd.list]
  exact hg.bind (.of_eq fun _ => rfl)

-- ============================================================== the switch

/-- A 64-bit field of an object written. -/
theorem store64_wrote {f : Field} (ht : t ∈ os) (h4 : 4 ≤ f.offset)
    (h56 : f.offset + 8 ≤ 56) (v : Nat) :
    Wrote (OffFields os) m (m.store64 (field t f) v) :=
  .store64 (fun _ hx => hx.out ht h4 h56) v

/-- The loop of `select_next` as a recursion over the tasks `l`: what it
returns, and the memory that it leaves. -/
def scan (ticks : Nat) : List Nat → Mem → Nat × Mem
  | [], m => (0, m)
  | t :: l, m =>
      let sleep := m.load64 (field t .sleep)
      if sleep ≠ 0 then
        let sleeped :=
          u64 (ticks + (2 ^ 64 - m.load64 (field t .lastSwitched)))
        if sleep ≤ sleeped then (t, m.store64 (field t .sleep) 0)
        else scan ticks l ((m.store64 (field t .sleep)
          (sleep - sleeped)).store64 (field t .lastSwitched) ticks)
      else (t, m)

/-- The scan writes what the tasks sleep, and returns one of them or
none. -/
theorem scan_wrote (hl : ∀ t ∈ l, t ∈ os) (ticks : Nat) (m : Mem) :
    Wrote (OffFields os) m (scan ticks l m).2 ∧
      ((scan ticks l m).1 = 0 ∨ (scan ticks l m).1 ∈ l) := by
  induction l generalizing m with
  | nil => exact ⟨.refl _ _, .inl rfl⟩
  | cons t l ih =>
      have ht : t ∈ os := hl t List.mem_cons_self
      unfold scan
      dsimp only
      split
      · split
        · -- wake up
          exact ⟨store64_wrote ht (by decide) (by decide) _,
            .inr List.mem_cons_self⟩
        · -- sleep more
          obtain ⟨hw, ha⟩ := ih (fun u hu => hl u (List.mem_cons_of_mem t hu))
            ((m.store64 (field t .sleep) (m.load64 (field t .sleep)
              - u64 (ticks + (2 ^ 64 - m.load64 (field t .lastSwitched))))
              ).store64 (field t .lastSwitched) ticks)
          have hself := (store64_wrote (m := m) (f := .sleep) ht (by decide)
            (by decide) (m.load64 (field t .sleep)
              - u64 (ticks + (2 ^ 64 - m.load64 (field t .lastSwitched))))
            ).trans (store64_wrote (f := .lastSwitched) ht (by decide)
              (by decide) ticks)
          exact ⟨hself.trans hw, ha.imp_right (List.mem_cons_of_mem t)⟩
      · exact ⟨.refl _ _, .inr List.mem_cons_self⟩

/-- Over a list in memory the loop is the scan: it goes from link to link,
and writes none. -/
theorem selectLoop_scan (hd : Held h head os (l₁ ++ l₂))
    (hr : Scheduler.selectLoop head ticks fuel (start head l₂) h.mem
      = .ret (a, m')) : scan ticks l₂ h.mem = (a, m') := by
  induction fuel generalizing h l₁ l₂ with
  | zero => cases hr
  | succ fuel ih =>
      unfold Scheduler.selectLoop at hr
      cases l₂ with
      | nil =>
          -- back at the head
          rw [if_pos (member_start_nil hd.list)] at hr
          exact Outcome.ret.inj hr
      | cons t l₂ =>
          have ht : t ∈ l₁ ++ t :: l₂ := by simp
          have hos := hd.sub t ht
          have hne : member (start head (t :: l₂)) ≠ head :=
            member_ne_head hd.list ht
          rw [if_neg hne] at hr
          dsimp only [start] at hr
          unfold scan
          dsimp only
          split at hr
          · rename_i hsleep
            rw [if_pos hsleep]
            split at hr
            · -- wake up
              rename_i hle
              rw [if_pos hle]
              exact Outcome.ret.inj hr
            · -- sleep more: the links are those from before the two writes
              rename_i hle
              rw [if_neg hle]
              have hw : Wrote (OffFields os) h.mem _ :=
                (store64_wrote (f := .sleep) hos (by decide) (by decide)
                  (h.mem.load64 (field t .sleep) - u64 (ticks + (2 ^ 64 -
                    h.mem.load64 (field t .lastSwitched))))).trans
                (store64_wrote (f := .lastSwitched) hos (by decide)
                  (by decide) ticks)
              have hd₁ := hd.fields hw
              have hassoc : l₁ ++ t :: l₂ = (l₁ ++ [t]) ++ l₂ := by simp
              rw [listEntry_next hd₁.list] at hr
              rw [hassoc] at hd₁
              exact ih hd₁ hr
          · rename_i hsleep
            rw [if_neg hsleep]
            exact Outcome.ret.inj hr

/-- The task that `yield` switches to when `select_next` has found `next`,
which is null if no task is ready. -/
def target (c : Scheduler) (next : Nat) (m : Mem) : Option Nat :=
  if next = 0 then
    if c.current = c.idle then none
    else if m.load64 (field c.current .sleep) ≠ 0 then some c.idle
    else none
  else if c.current = next then none
  else some next

/-- `yield` taken apart: the caller's time is written, the list turned and
scanned, and then there is a switch or none. -/
theorem yield_cases (hd : Held h c.tasks os l) (hcur : c.current ∈ os)
    (hr : c.yield ticks fuel esp h.mem = .ret (c', m')) :
    ∃ next m₂, scan ticks (Sched.rotate l) ((h.mem.store64
        (field c.current .lastSwitched) ticks).listRotate c.tasks)
        = (next, m₂) ∧
      (c', m') = match target c next m₂ with
        | some t => c.performContextSwitch ticks (some (c.current, esp)) t m₂
        | none => (c, m₂) := by
  have hpage := hd.page hcur
  unfold Scheduler.yield at hr
  rw [if_neg (by omega)] at hr
  obtain ⟨⟨next, m₂⟩, hsel, hr⟩ := Outcome.bind_eq_ret.mp hr
  have hd₁ := hd.fields (store64_wrote (m := h.mem) (f := .lastSwitched)
    hcur (by decide) (by decide) ticks)
  have hd₂ := hd₁.rotate.held
  unfold Scheduler.selectNext at hsel
  dsimp only at hsel
  rw [listEntry_first hd₂.list] at hsel
  have hall : Held _ c.tasks os ([] ++ Sched.rotate l) := hd₂
  refine ⟨next, m₂, selectLoop_scan hall hsel, ?_⟩
  unfold target
  dsimp only at hr
  -- 0 is no task: nobody is ready, and the switch is to idle or none
  by_cases h0 : next = 0
  · rw [if_pos h0] at hr ⊢
    by_cases hidling : c.current = c.idle
    · rw [if_pos hidling] at hr ⊢
      exact (Outcome.ret.inj hr).symm
    · rw [if_neg hidling] at hr ⊢
      by_cases hsleep : m₂.load64 (field c.current .sleep) ≠ 0
      · rw [if_pos hsleep] at hr ⊢
        exact (Outcome.ret.inj hr).symm
      · rw [if_neg hsleep] at hr ⊢
        exact (Outcome.ret.inj hr).symm
  · rw [if_neg h0] at hr ⊢
    by_cases hsame : c.current = next
    · rw [if_pos hsame] at hr ⊢
      exact (Outcome.ret.inj hr).symm
    · rw [if_neg hsame] at hr ⊢
      exact (Outcome.ret.inj hr).symm

/-- A switch goes to idle or to what was found. -/
theorem target_eq (ht : target c a m = some t) :
    t = c.idle ∨ t = a ∧ a ≠ 0 := by
  unfold target at ht
  split at ht
  · split at ht
    · cases ht
    · split at ht
      · exact .inl (Option.some.inj ht).symm
      · cases ht
  · rename_i h0
    split at ht
    · cases ht
    · exact .inr ⟨(Option.some.inj ht).symm, h0⟩

/-- The ids of the objects stay. -/
def SameIds (os : List Nat) (m m' : Mem) : Prop :=
  ∀ t ∈ os, m'.load (field t .id) = m.load (field t .id)

theorem SameIds.trans {m₁ : Mem} (h : SameIds os m m₁)
    (h' : SameIds os m₁ m') : SameIds os m m' :=
  fun t ht => (h' t ht).trans (h t ht)

theorem sameIds_of_fields (hf : Spares (Fields os) m m') :
    SameIds os m m' := by
  intro t ht
  refine hf.load fun x h1 h2 => ⟨t, ht, h1, ?_⟩
  exact Nat.lt_trans h2 (show t + 0 + 4 < t + 88 by omega)

/-- What a call of the scheduler keeps while no task comes or goes: the
list is the same but for its order, the objects have the same ids and
names, and the blocks in use are the same. -/
structure Turned (h : HeapState) (os l : List Nat) (c c' : Scheduler)
    (m' : Mem) : Prop where
  held : ∃ l', Held ⟨m', h.live⟩ c.tasks os l' ∧ l'.Perm l
  ids : SameIds os h.mem m'
  names : Spares (NameFields os) h.mem m'
  reaches : Reaches h ⟨m', h.live⟩
  nextId : c'.nextId = c.nextId
  idle : c'.idle = c.idle
  tasks : c'.tasks = c.tasks
  current : c'.current ∈ os

namespace Turned

theorem refl (hd : Held h c.tasks os l) (hcur : c.current ∈ os) :
    Turned h os l c c h.mem :=
  ⟨⟨l, hd, .refl l⟩, fun _ _ => rfl, .refl _ _, .refl h, rfl, rfl, rfl,
    hcur⟩

/-- Fields of the objects are written, and another of them may run. -/
theorem fields (ht : Turned h os l c c m) (hw : Wrote (OffFields os) m m')
    (hnext : c'.nextId = c.nextId) (hidle : c'.idle = c.idle)
    (htasks : c'.tasks = c.tasks) (hcur : c'.current ∈ os) :
    Turned h os l c c' m' := by
  obtain ⟨l', hd, hp⟩ := ht.held
  exact ⟨⟨l', hd.fields hw, hp⟩,
    ht.ids.trans fun u hu => hd.id_of_fields hu hw,
    ht.names.trans (hw.spares.mono fun _ hx => hd.off_of_name hx),
    ht.reaches.trans (hd.fields_reaches hw), hnext, hidle, htasks, hcur⟩

/-- The list is turned. -/
theorem rotate (ht : Turned h os l c c m) :
    Turned h os l c c (m.listRotate c.tasks) := by
  obtain ⟨l', hd, hp⟩ := ht.held
  have hrot := hd.rotate
  have hperm : (Sched.rotate l').Perm l' := by
    rw [Sched.rotate_eq]
    exact List.rotate_perm l' 1
  exact ⟨⟨_, hrot.held, hperm.trans hp⟩,
    ht.ids.trans (sameIds_of_fields hrot.fields),
    ht.names.trans (hrot.fields.mono fun _ hx => hx.fields),
    ht.reaches.trans hrot.reaches, rfl, rfl, rfl, ht.current⟩

end Turned

/-- A tick, for one. -/
theorem Held.turned (hd : Held h c.tasks os l)
    (hw : Wrote (OffFields os) h.mem m') (hcur : c.current ∈ os) :
    Turned h os l c c m' :=
  (Turned.refl hd hcur).fields hw rfl rfl rfl hcur

/-- `yield` keeps the tasks, in an order of its own. -/
theorem yield_turned (hd : Held h c.tasks os l) (hidle : c.idle ∈ os)
    (hcur : c.current ∈ os)
    (hr : c.yield ticks fuel esp h.mem = .ret (c', m')) :
    Turned h os l c c' m' := by
  obtain ⟨next, m₂, hscan, hend⟩ := yield_cases hd hcur hr
  have hsub : ∀ t ∈ Sched.rotate l, t ∈ os := by
    intro t ht
    rw [Sched.rotate_eq, List.mem_rotate] at ht
    exact hd.sub t ht
  obtain ⟨hw, hfound⟩ := scan_wrote hsub ticks ((h.mem.store64
    (field c.current .lastSwitched) ticks).listRotate c.tasks)
  rw [hscan] at hw hfound
  have hscanned : Turned h os l c c m₂ :=
    (hd.turned (store64_wrote hcur (by decide) (by decide) ticks)
      hcur).rotate.fields hw rfl rfl rfl hcur
  cases htarget : target c next m₂ with
  | none =>
      rw [htarget] at hend
      cases hend
      exact hscanned
  | some t =>
      rw [htarget] at hend
      have ht : t ∈ os := by
        rcases target_eq htarget with rfl | ⟨rfl, h0⟩
        · exact hidle
        · exact hsub t (hfound.resolve_left h0)
      obtain ⟨rfl, rfl⟩ := Prod.mk.inj hend
      exact hscanned.fields ((store64_wrote (f := .lastSwitched) ht
        (by decide) (by decide) ticks).trans (.store (fun _ hx =>
          hx.out hcur (by decide) (by decide)) esp)) rfl rfl rfl ht

end Running

end Ntibux
