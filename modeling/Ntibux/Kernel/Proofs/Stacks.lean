/-
Where the stacks of killed tasks go.

A kill gives back the task object and nothing else, so the stack that
`task::init` took stays in use (`Frees.keeps`, `Step.keeps`): no kill
undoes what `new_task` did to the heap (`create_kill_leaks`). Each task
that was ever created keeps a block of order 14 (`run_stacks`), of which
the heap has only so many (`run_created_le`).
-/
import Ntibux.Kernel.Basic
import Ntibux.Mem.Proofs.Heap

namespace Ntibux

namespace Kernel

open Buddy (Zone Heap Inv)

variable {z : Zone} {k k₀ k₁ k₂ k₃ k' : Kernel} {e : Event}
  {tr tr₁ : List (Kernel × Event)} {b : Block} {t a i order : Nat}
  {flag : Bool} {h h' h₁ : HeapState} {ts : List Nat}

-- ============================================================== the heap

/-- The heap of the kernel is in order, with pages for smallest
blocks. -/
def Sane (h : HeapState) : Prop :=
  h.mem.kheap.minOrder = 12 ∧
    ∃ (z : Zone) (l : Heap z), HeapState.Good h l

/-- A call to the heap keeps it sane; the least order never changes. -/
theorem Sane.step {e : Ntibux.Event} (hs : Sane h)
    (hstep : HeapState.Step h e h') : Sane h' := by
  obtain ⟨hmin, z, l, hg⟩ := hs
  obtain ⟨l', -, hg'⟩ := hg.step hstep
  refine ⟨?_, z, l', hg'⟩
  rw [hg'.sim.minOrder, ← hg.sim.minOrder]
  exact hmin

/-- So do the frees of one call, one after the other. -/
theorem Sane.frees (hs : Sane h) (hf : Frees ts h h') : Sane h' := by
  induction hf with
  | nil => exact hs
  | cons hstep _ ih => exact ih (hs.step hstep)

/-- The kernel starts on a heap that calls have brought about. -/
theorem Initial.sane (hi : Initial k) : Sane k.heap := by
  obtain ⟨h₀, tr, hi₀, hmin, hr⟩ := hi.heap
  have h0 : Sane h₀ := ⟨hmin, _, _, hi₀.good⟩
  exact Ntibux.Run.invariant (fun _ _ => True) hr (fun _ _ => trivial) h0
    fun _ _ _ hs _ h => hs.step h

/-- The scheduler frees task objects, a creation allocates twice, and the
rest of the kernel makes calls of its own. -/
theorem Sane.move (hs : Sane k.heap) (h : Step k e k') : Sane k'.heap := by
  cases h with
  | sched hp hsched hf => exact hs.frees hf
  | create hsched ht ha => exact (hs.step ht).step ha
  | heap hh => exact hs.step hh

/-- Hence the heap is sane after any run. -/
theorem run_sane (hi : Initial k₀) (hr : Run k₀ tr k) : Sane k.heap :=
  Ntibux.Run.invariant (P := fun k => Sane k.heap) (fun _ _ => True) hr
    (fun _ _ => trivial) hi.sane fun _ _ _ hs _ h => hs.move h

/-- No two blocks in use are the same. -/
theorem Sane.nodup (hs : Sane h) : h.live.Nodup := by
  obtain ⟨-, z, l, hg⟩ := hs
  exact hg.inv.used_apart.imp fun hab heq => by
    subst heq
    exact Block.not_apart_self _ hab

/-- No block is at 0, which is what a failed allocation gives. -/
theorem Sane.addr_pos (hs : Sane h) (hb : b ∈ h.live) : 0 < b.addr := by
  obtain ⟨-, z, l, hg⟩ := hs
  exact (hg.inv.used_ok b hb).addr_pos

-- ================================================================ orders

/-- With pages for smallest blocks, `get_order` of a size. -/
theorem order_eq {kh : Kheap} {size o : Nat} (hmin : kh.minOrder = 12)
    (ho : Mem.IsOrder kh size order)
    (hloop : Mem.getOrderLoop size 32 0 = .ret o) :
    order = max 12 o := by
  obtain ⟨-, -, huniq⟩ := ho.spec
  refine (huniq kh 32 (max 12 o) rfl ?_).symm
  unfold Mem.getOrder
  rw [hloop, Outcome.ret_bind, hmin]
  split
  · rename_i hlt
    rw [max_eq_left (Nat.le_of_lt hlt)]
  · rename_i hge
    rw [max_eq_right (Nat.not_lt.mp hge)]

/-- A task object takes a whole page, as the heap has no smaller block. -/
theorem task_order {kh : Kheap} (hmin : kh.minOrder = 12)
    (ho : Mem.IsOrder kh sizeofTask order) : order = 12 :=
  order_eq (o := 7) hmin ho (by decide)

/-- A stack takes four. -/
theorem stack_order {kh : Kheap} (hmin : kh.minOrder = 12)
    (ho : Mem.IsOrder kh KERNEL_STACK_SIZE order) : order = 14 :=
  order_eq (o := 14) hmin ho (by decide)

-- =============================================================== one step

/-- A task object given back. -/
theorem free_task (hs : Sane h)
    (hf : HeapState.Step h (.free t sizeofTask order) h') :
    h'.live = h.live.erase ⟨t, 12⟩ := by
  generalize he : Ntibux.Event.free t sizeofTask order = e at hf
  cases hf with
  | free hb ho hr =>
      injection he with ht hsize horder
      subst hsize
      have h12 := task_order hs.1 ho
      rename_i b _
      obtain ⟨addr, o⟩ := b
      obtain rfl : t = addr := ht
      obtain rfl : o = 12 := h12
      rfl
  | _ => cases he

/-- Kills give back task objects, and nothing else. -/
theorem Frees.mem_iff (hs : Sane h) (hf : Frees ts h h') :
    b ∈ h'.live ↔ b ∈ h.live ∧ ∀ t ∈ ts, b ≠ ⟨t, 12⟩ := by
  induction hf with
  | nil => simp
  | @cons h h₁ h' t order ts hstep hr ih =>
      rw [ih (hs.step hstep), free_task hs hstep, hs.nodup.mem_erase_iff,
        List.forall_mem_cons]
      constructor
      · intro ⟨⟨hne, hb⟩, hts⟩
        exact ⟨hb, hne, hts⟩
      · intro ⟨hb, hne, hts⟩
        exact ⟨⟨hne, hb⟩, hts⟩

/-- A task object taken. -/
theorem alloc_task {flags : Nat} (hs : Sane h)
    (ha : HeapState.Step h (.alloc sizeofTask order flags a) h') :
    h'.live = ⟨a, 12⟩ :: h.live := by
  cases ha with
  | alloc ho hmax hr =>
      obtain rfl := task_order hs.1 ho
      rfl

/-- A stack taken. -/
theorem alloc_stack {flags : Nat} (hs : Sane h)
    (ha : HeapState.Step h (.alloc KERNEL_STACK_SIZE order flags a) h') :
    h'.live = ⟨a, 14⟩ :: h.live := by
  cases ha with
  | alloc ho hmax hr =>
      obtain rfl := stack_order hs.1 ho
      rfl

/-- The blocks that `new_task` takes. -/
theorem create_live (hs : Sane k.heap)
    (h : Step k (.create t a flag) k') :
    k'.heap.live = ⟨a, 14⟩ :: ⟨t, 12⟩ :: k.heap.live := by
  cases h with
  | create hsched ht ha =>
      rw [alloc_stack (hs.step ht) ha, alloc_task hs ht]

/-- A block that is not a task object stays in use, unless a task gives
it back itself. -/
theorem Step.keeps (h : Step k e k') (hs : Sane k.heap)
    (hown : e.givesBack = false) (hb : b ∈ k.heap.live)
    (ho : b.order ≠ 12) : b ∈ k'.heap.live := by
  cases h with
  | sched hp hsched hf =>
      refine (hf.mem_iff hs).mpr ⟨hb, fun t _ heq => ?_⟩
      rw [heq] at ho
      exact ho rfl
  | create hsched ht ha =>
      rw [create_live hs (.create hsched ht ha)]
      exact List.mem_cons_of_mem _ (List.mem_cons_of_mem _ hb)
  | heap hh =>
      cases hh with
      | alloc ho hmax hr => exact List.mem_cons_of_mem _ hb
      | free hb' ho hr => cases hown
      | write hb' hx => exact hb
      | outside hk hn hb' => exact hb

/-- A block that is no task object stays live, for the scheduler frees
nothing else. -/
theorem run_keeps (hr : Run k tr k') (hs : Sane k.heap)
    (hown : ∀ p ∈ tr, p.2.givesBack = false) (hb : b ∈ k.heap.live)
    (ho : b.order ≠ 12) : b ∈ k'.heap.live := by
  have hinv : Sane k'.heap ∧ b ∈ k'.heap.live :=
    Ntibux.Run.invariant (P := fun k => Sane k.heap ∧ b ∈ k.heap.live)
      (fun _ e => e.givesBack = false) hr hown ⟨hs, hb⟩
      fun _ _ _ hp hown h => ⟨hp.1.move h, h.keeps hp.1 hown hp.2 ho⟩
  exact hinv.2

/-- `kill_task` gives back the object. -/
theorem KillTask.object (hk : KillTask k t k') (hs : Sane k.heap) :
    ⟨t, 12⟩ ∉ k'.heap.live := by
  have hfreed : t ∈ k.sched.freed .exec := by
    have hscan := hk.scan
    unfold Sched.State.freed
    cases hst : k.sched.stack with
    | nil =>
        rw [hst] at hscan
        cases hscan
    | cons f rest =>
        rw [hst] at hscan
        cases hscan
        simpa using hk.listed
  have hstep := hk.step
  cases hstep with
  | sched hp hsched hf =>
      exact fun hb => ((hf.mem_iff hs).mp hb).2 t hfreed rfl

-- ============================================================== the leak

/-- In no reachable state does a task that is created and then killed by
another leave the heap as it was: its object is given back, its stack is
not.

The kill frees the object, which is a block of order 12. The stack is one of
order 14, which the scheduler never frees (`run_keeps`); it was not in use
before the creation, so the blocks in use are not what they were. -/
theorem create_kill_leaks (hi : Initial k₀) (hr : Run k₀ tr k)
    (hnew : Step k (.create t a flag) k₁) (hr₁ : Run k₁ tr₁ k₂)
    (hown : ∀ p ∈ tr₁, p.2.givesBack = false) (hkill : KillTask k₂ t k₃) :
    Leaks k t a k₃ ∧ ¬SameBlocks k k₃ := by
  have hs := run_sane hi hr
  have hs₁ := hs.move hnew
  have hlive := create_live hs hnew
  have hs₂ : Sane k₂.heap :=
    Ntibux.Run.invariant (P := fun k => Sane k.heap) (fun _ _ => True) hr₁
      (fun _ _ => trivial) hs₁ fun _ _ _ hs _ h => hs.move h
  have h14 : (⟨a, 14⟩ : Block).order ≠ 12 := show 14 ≠ 12 by decide
  have hmem : ⟨a, 14⟩ ∈ k₁.heap.live := by
    rw [hlive]
    exact List.mem_cons_self
  have hkept : ⟨a, 14⟩ ∈ k₂.heap.live :=
    run_keeps hr₁ hs₁ hown hmem h14
  have hstack : ⟨a, 14⟩ ∈ k₃.heap.live :=
    hkill.step.keeps hs₂ rfl hkept h14
  have hnew : ⟨a, 14⟩ ∉ k.heap.live := by
    have hnd := hs₁.nodup
    rw [hlive] at hnd
    intro hb
    exact (List.nodup_cons.mp hnd).1 (List.mem_cons_of_mem _ hb)
  refine ⟨⟨hkill.object hs₂, hstack, hnew⟩, ?_⟩
  intro hsame
  exact hnew ((hsame _).mp hstack)

-- ============================================================ many tasks

/-- The blocks of a stack's size. -/
def stackBlocks (h : HeapState) : List Block :=
  h.live.filter fun b => b.order = 14

/-- Kills leave the stacks. -/
theorem Frees.stackBlocks (hs : Sane h) (hf : Frees ts h h') :
    Kernel.stackBlocks h' = Kernel.stackBlocks h := by
  induction hf with
  | nil => rfl
  | @cons h h₁ h' t order ts hstep hr ih =>
      rw [ih (hs.step hstep)]
      unfold Kernel.stackBlocks
      rw [free_task hs hstep, ← List.erase_filter]
      exact List.erase_of_not_mem fun hb => by simp at hb

/-- The stacks only grow in number, by one for each creation. -/
theorem Step.stacks_le (h : Step k e k') (hs : Sane k.heap)
    (hown : e.givesBack = false) :
    (stackBlocks k.heap).length + e.creates.toNat
      ≤ (stackBlocks k'.heap).length := by
  cases h with
  | sched hp hsched hf =>
      rw [hf.stackBlocks hs]
      exact le_rfl
  | create hsched ht ha =>
      unfold Kernel.stackBlocks
      rw [create_live hs (.create hsched ht ha)]
      simp [Event.creates]
  | heap hh =>
      cases hh with
      | alloc ho hmax hr =>
          exact ((List.sublist_cons_self _ _).filter _).length_le
      | free hb' ho hr => cases hown
      | write hb' hx => exact le_rfl
      | outside hk hn hb' => exact le_rfl

/-- Every task that was ever created has its stack in use, however many
were killed. -/
theorem run_stacks (hr : Run k tr k') (hs : Sane k.heap)
    (hown : ∀ p ∈ tr, p.2.givesBack = false) :
    Sane k'.heap ∧ (stackBlocks k.heap).length + tr.countP (·.2.creates)
      ≤ (stackBlocks k'.heap).length := by
  induction hr with
  | nil => exact ⟨hs, le_rfl⟩
  | @snoc tr k₁ k₂ e hr h ih =>
      obtain ⟨hs₁, hle⟩ := ih fun p hp => hown p (by simp [hp])
      have hone := h.stacks_le hs₁ (hown (k₁, e) (by simp))
      refine ⟨hs₁.move h, ?_⟩
      rw [List.countP_append, List.countP_singleton]
      have hnat : (if e.creates then 1 else 0) = e.creates.toNat := by
        cases e.creates <;> rfl
      dsimp only
      omega

/-- The stacks in use lie in the reserve, side by side. -/
theorem Sane.stacks_le (hs : Sane h) :
    2 ^ 14 * (stackBlocks h).length ≤ 2 ^ h.mem.kheap.maxOrder := by
  obtain ⟨-, z, l, hg⟩ := hs
  have hsum := Block.sum_le (c := l.reserve)
    (hg.inv.used_apart.filter fun b => b.order = 14)
    fun b hb => (hg.inv.used_ok b (List.mem_filter.mp hb).1).within
  have hsize : ((stackBlocks h).map fun b => 2 ^ b.order)
      = List.replicate (stackBlocks h).length (2 ^ 14) := by
    refine List.eq_replicate_iff.mpr ⟨List.length_map _, ?_⟩
    intro n hn
    obtain ⟨b, hb, rfl⟩ := List.mem_map.mp hn
    rw [of_decide_eq_true (List.mem_filter.mp hb).2]
  have hmax : 2 ^ l.reserveOrder ≤ 2 ^ h.mem.kheap.maxOrder := by
    rw [hg.sim.maxOrder]
    exact Nat.pow_le_pow_right (by decide) l.le_max
  calc 2 ^ 14 * (stackBlocks h).length
      = ((stackBlocks h).map fun b => 2 ^ b.order).sum := by
        rw [hsize, List.sum_replicate_nat, Nat.mul_comm]
    _ ≤ 2 ^ l.reserveOrder := hsum
    _ ≤ 2 ^ h.mem.kheap.maxOrder := hmax

/-- A run in which no task gives a block back itself creates no more
tasks than the heap has room for stacks, however many of them it
kills. -/
theorem run_created_le (hi : Initial k₀) (hr : Run k₀ tr k)
    (hown : ∀ p ∈ tr, p.2.givesBack = false) :
    2 ^ 14 * tr.countP (·.2.creates) ≤ 2 ^ k.heap.mem.kheap.maxOrder := by
  obtain ⟨hs, hle⟩ := run_stacks hr hi.sane hown
  calc 2 ^ 14 * tr.countP (·.2.creates)
      ≤ 2 ^ 14 * (stackBlocks k.heap).length := Nat.mul_le_mul_left _ (by omega)
    _ ≤ 2 ^ k.heap.mem.kheap.maxOrder := hs.stacks_le

-- ======================================================= a booted machine

/-- `kheap::alloc`, where it returns. -/
def heapAlloc (size flags : Nat) (h : HeapState) :
    Option (Nat × HeapState) := do
  let order ← (Mem.getOrder 20 size h.mem.kheap).value
  let (a, m) ← (Mem.kheapAlloc 20 size flags h.mem).value
  if order ≤ h.mem.kheap.maxOrder then some (a, ⟨m, ⟨a, order⟩ :: h.live⟩)
  else none

/-- An allocation that was computed is a step of the heap. -/
theorem heapAlloc_step {size flags : Nat}
    (ha : heapAlloc size flags h = some (a, h')) :
    ∃ order, HeapState.Step h (.alloc size order flags a) h' := by
  obtain ⟨order, ho, ha⟩ := Option.bind_eq_some_iff.mp ha
  obtain ⟨⟨out, m⟩, hm, ha⟩ := Option.bind_eq_some_iff.mp ha
  dsimp only at ha
  split at ha
  · rename_i hmax
    cases ha
    exact ⟨order, .alloc ⟨20, Outcome.value_eq_some.mp ho⟩ hmax
      (Outcome.value_eq_some.mp hm)⟩
  · cases ha

/-- `kheap::free` of task objects, where it returns. -/
def heapFree : List Nat → HeapState → Option HeapState
  | [], h => some h
  | t :: ts, h => do
      let order ← (Mem.getOrder 20 sizeofTask h.mem.kheap).value
      let m ← (Mem.kheapFree 20 t sizeofTask h.mem).value
      if ⟨t, order⟩ ∈ h.live then
        heapFree ts ⟨m, h.live.erase ⟨t, order⟩⟩
      else none

/-- So are frees that were computed. -/
theorem heapFree_frees (hf : heapFree ts h = some h') : Frees ts h h' := by
  induction ts generalizing h with
  | nil =>
      cases hf
      exact .nil
  | cons t ts ih =>
      unfold heapFree at hf
      obtain ⟨order, ho, hf⟩ := Option.bind_eq_some_iff.mp hf
      obtain ⟨m, hm, hf⟩ := Option.bind_eq_some_iff.mp hf
      split at hf
      · rename_i hb
        exact .cons (.free hb ⟨20, Outcome.value_eq_some.mp ho⟩
          (Outcome.value_eq_some.mp hm)) (ih hf)
      · cases hf

/-- A step, computed. -/
def next (e : Event) (k : Kernel) : Option Kernel :=
  match e with
  | .sched e =>
      if plain e then do
        let s ← Sched.apply e k.sched
        let h ← heapFree (k.sched.freed e) k.heap
        some ⟨s, h, k.stack⟩
      else none
  | .create t a flag => do
      let s ← Sched.apply (.alloc t flag) k.sched
      let (t', h) ← heapAlloc sizeofTask ALLOC_ZEROED k.heap
      let (a', h) ← heapAlloc KERNEL_STACK_SIZE ALLOC_ALIGNED h
      if t' = t ∧ a' = a then
        some ⟨s, h, Function.update k.stack t (u32 (a + KERNEL_STACK_SIZE))⟩
      else none
  | .heap _ => none

/-- A step that was computed is one that the relation allows. -/
theorem next_step (hn : next e k = some k') : Step k e k' := by
  cases e with
  | sched e =>
      unfold next at hn
      dsimp only at hn
      split at hn
      · rename_i hp
        obtain ⟨s, hs, hn⟩ := Option.bind_eq_some_iff.mp hn
        obtain ⟨h, hf, hn⟩ := Option.bind_eq_some_iff.mp hn
        cases hn
        exact .sched hp hs (heapFree_frees hf)
      · cases hn
  | create t a flag =>
      obtain ⟨s, hs, hn⟩ := Option.bind_eq_some_iff.mp hn
      obtain ⟨⟨t', h⟩, ht, hn⟩ := Option.bind_eq_some_iff.mp hn
      obtain ⟨⟨a', h'⟩, ha, hn⟩ := Option.bind_eq_some_iff.mp hn
      dsimp only at ht ha hn
      split at hn
      · rename_i heq
        obtain ⟨rfl, rfl⟩ := heq
        cases hn
        obtain ⟨order, ht⟩ := heapAlloc_step ht
        obtain ⟨order', ha⟩ := heapAlloc_step ha
        exact .create hs ht ha
      · cases hn
  | heap e => cases hn

/-- What `scheduler::init` sets up, with the kernel's task object at `t`
and idle's at `i`. -/
def setUp (t i : Nat) : Sched.State :=
  { Sched.booted with
    current := t
    idle := i
    tasks := [t]
    task := fun u =>
      if u = t then ⟨Sched.KERNEL_TASK_ID, 0, 0, 0, none⟩
      else ⟨Sched.IDLE_TASK_ID, 0, 0, 0, some ⟨false, []⟩⟩
    objects := [i, t]
    runner := t }

/-- `scheduler::init` on a heap. -/
def setUpOn (m : Mem) : Option Kernel := do
  let (t, h) ← heapAlloc sizeofTask ALLOC_ZEROED ⟨m, []⟩
  let (i, h) ← heapAlloc sizeofTask ALLOC_ZEROED h
  let (a, h) ← heapAlloc KERNEL_STACK_SIZE ALLOC_ALIGNED h
  some ⟨setUp t i, h,
    Function.update (fun _ => 0) i (u32 (a + KERNEL_STACK_SIZE))⟩

/-- `scheduler::init` sets up a state to start from. -/
theorem setUp_initial (hne : i ≠ t) (ht : t ≠ 0) (hi : i ≠ 0) :
    Sched.Initial (setUp t i) :=
  ⟨rfl, rfl, rfl, rfl, rfl, rfl, rfl, ht, hi, hne,
    congrArg Sched.Task.id (if_pos rfl),
    congrArg Sched.Task.ctx (if_pos rfl),
    congrArg Sched.Task.id (if_neg hne),
    ⟨false, congrArg Sched.Task.ctx (if_neg hne)⟩, rfl, rfl⟩

/-- On a heap as `mem::init` leaves it, two task objects are allocated, and
the kernel starts. -/
theorem setUpOn_initial {m : Mem} (hm : HeapState.Initial ⟨m, []⟩)
    (hmin : m.kheap.minOrder = 12) (hs : setUpOn m = some k) :
    Initial k := by
  unfold setUpOn at hs
  obtain ⟨⟨t, h₁⟩, ht, hs⟩ := Option.bind_eq_some_iff.mp hs
  obtain ⟨⟨i, h₂⟩, hi, hs⟩ := Option.bind_eq_some_iff.mp hs
  obtain ⟨⟨a, h₃⟩, ha, hs⟩ := Option.bind_eq_some_iff.mp hs
  cases hs
  obtain ⟨o, ht⟩ := heapAlloc_step ht
  obtain ⟨o', hi⟩ := heapAlloc_step hi
  obtain ⟨o'', ha⟩ := heapAlloc_step ha
  have hr : HeapState.Run ⟨m, []⟩ _ h₃ := .snoc (.snoc (.snoc .nil ht) hi) ha
  have hs₀ : Sane ⟨m, []⟩ := ⟨hmin, _, _, hm.good⟩
  have hs₂ := (hs₀.step ht).step hi
  have hlive₂ : h₂.live = [⟨i, 12⟩, ⟨t, 12⟩] := by
    rw [alloc_task (hs₀.step ht) hi, alloc_task hs₀ ht]
  have hlive₃ : h₃.live = [⟨a, 14⟩, ⟨i, 12⟩, ⟨t, 12⟩] := by
    rw [alloc_stack hs₂ ha, hlive₂]
  have hne : i ≠ t := by
    have hnd := hs₂.nodup
    rw [hlive₂] at hnd
    intro heq
    exact (List.nodup_cons.mp hnd).1 (by rw [heq]; exact List.mem_cons_self)
  have hpos : t ≠ 0 ∧ i ≠ 0 := by
    constructor
    · exact Nat.ne_of_gt (hs₂.addr_pos (b := ⟨t, 12⟩) (by simp [hlive₂]))
    · exact Nat.ne_of_gt (hs₂.addr_pos (b := ⟨i, 12⟩) (by simp [hlive₂]))
  refine ⟨setUp_initial hne hpos.1 hpos.2, ⟨_, _, hm, hmin, hr⟩, ?_⟩
  intro u hu
  show _ ∈ h₃.live
  rw [hlive₃]
  have hu : u ∈ [i, t] := hu
  simpa using hu

/-- The kernel is about to allocate, in `new_task`. -/
def enterNew : List Event := [.sched (.call .newTask), .sched .exec]

/-- `new_task` returns, the kernel and the new task yield to each other,
and the kernel kills the task. -/
def yieldKill : List Event :=
  List.replicate 4 (.sched .exec) ++
    .sched (.call .yield) :: List.replicate 7 (.sched .exec) ++
    .sched (.call .yield) :: List.replicate 7 (.sched .exec) ++
    .sched (.call (.killTask Sched.AVAILABLE_IDS)) ::
      List.replicate 3 (.sched .exec)

/-- Where the 8 MiB machine is before `new_task` allocates (`k`), after,
before the kill and after it. -/
structure Cycle (k k₁ k₂ k₃ : Kernel) : Prop where
  reached : ∃ k₀ tr, Initial k₀ ∧ Run k₀ tr k
  create : Step k (.create 0x202000 0x208000 false) k₁
  run : ∃ tr, Run k₁ tr k₂ ∧ ∀ p ∈ tr, p.2.givesBack = false
  kill : KillTask k₂ 0x202000 k₃
  before : k.heap.live = [⟨0x204000, 14⟩, ⟨0x201000, 12⟩, ⟨0x200000, 12⟩]
  after : k₃.heap.live = ⟨0x208000, 14⟩ :: k.heap.live

/-- There is a kernel that creates a task, kills it and creates the next
one. -/
theorem exists_cycle : ∃ k k₁ k₂ k₃, Cycle k k₁ k₂ k₃ := by
  obtain ⟨m, hboot, hinit, hmin, -⟩ := HeapState.booted_small
  have hcheck : ((HeapState.booted 7168).value.bind fun m =>
      (setUpOn m).bind fun k₀ =>
      (Run.follow next (fun _ _ => true) enterNew k₀).bind fun k =>
      (next (.create 0x202000 0x208000 false) k).bind fun k₁ =>
      (Run.follow next (fun _ e => !e.givesBack) yieldKill k₁).bind fun k₂ =>
      (next (.sched .exec) k₂).map fun k₃ =>
        (k.heap.live, k₃.heap.live, k₂.sched.stack.head?,
          decide (0x202000 ∈ k₂.sched.tasks ∧ k₂.sched.runner ≠ 0x202000),
          (k₂.sched.task 0x202000).id))
      = some ([⟨0x204000, 14⟩, ⟨0x201000, 12⟩, ⟨0x200000, 12⟩],
        [⟨0x208000, 14⟩, ⟨0x204000, 14⟩, ⟨0x201000, 12⟩, ⟨0x200000, 12⟩],
        some (.killTask Sched.AVAILABLE_IDS .scan), true,
        Sched.AVAILABLE_IDS) := by
    decide +kernel
  -- the runs are computed in one term, and taken apart here
  rw [hboot] at hcheck
  change (setUpOn m).bind _ = _ at hcheck
  obtain ⟨k₀, hk₀, hcheck⟩ := Option.bind_eq_some_iff.mp hcheck
  obtain ⟨k, hk, hcheck⟩ := Option.bind_eq_some_iff.mp hcheck
  obtain ⟨k₁, hk₁, hcheck⟩ := Option.bind_eq_some_iff.mp hcheck
  obtain ⟨k₂, hk₂, hcheck⟩ := Option.bind_eq_some_iff.mp hcheck
  obtain ⟨k₃, hk₃, hview⟩ := Option.map_eq_some_iff.mp hcheck
  injection hview with hbefore hview
  injection hview with hafter hview
  injection hview with hhead hview
  injection hview with hlisted hid
  obtain ⟨hmem, hother⟩ := of_decide_eq_true hlisted
  obtain ⟨tr, hr, -⟩ := Run.of_follow (fun _ _ _ => next_step) hk
  obtain ⟨tr₁, hr₁, hown⟩ := Run.of_follow (fun _ _ _ => next_step) hk₂
  exact ⟨k, k₁, k₂, k₃,
    { reached := ⟨k₀, tr, setUpOn_initial hinit hmin hk₀, hr⟩
      create := next_step hk₁
      run := ⟨tr₁, hr₁, fun p hp => by simpa using hown p hp⟩
      kill := ⟨hid ▸ hhead, hmem, hother, next_step hk₃⟩
      before := hbefore
      after := hafter.trans (congrArg _ hbefore.symm) }⟩

/-- The kernel creates a task, yields to it and back, and kills it: the
stack at 0x208000 is lost. -/
theorem create_kill_leaks_booted : ∃ k k₁ k₂ k₃, Cycle k k₁ k₂ k₃ ∧
    Leaks k 0x202000 0x208000 k₃ ∧ ¬SameBlocks k k₃ := by
  obtain ⟨k, k₁, k₂, k₃, hc⟩ := exists_cycle
  obtain ⟨k₀, tr, hi, hr⟩ := hc.reached
  obtain ⟨tr₁, hr₁, hown⟩ := hc.run
  exact ⟨k, k₁, k₂, k₃, hc,
    create_kill_leaks hi hr hc.create hr₁ hown hc.kill⟩

/-- The blocks in use are not the same: four after, three before. -/
theorem booted_leaks : ∃ k k₁ k₂ k₃, Cycle k k₁ k₂ k₃ ∧
    ¬SameBlocks k k₃ := by
  obtain ⟨k, k₁, k₂, k₃, hc⟩ := exists_cycle
  refine ⟨k, k₁, k₂, k₃, hc, ?_⟩
  intro hsame
  have hin : ⟨0x208000, 14⟩ ∈ k₃.heap.live := by
    rw [hc.after]
    exact List.mem_cons_self
  have hmem := (hsame _).mp hin
  rw [hc.before] at hmem
  exact absurd hmem (by decide)

end Kernel

end Ntibux
