/-
How a task comes into the list: `new_task`, and `scheduler::init` for the
kernel and for idle.

# The blocks

The object and the stack are blocks fresh from the heap. What is written
into them, the name and its zero too, is in nobody else's block, so it is
nothing to the list and to the other tasks (`Held.blocks`); then the
object is linked.

# The objects

The three calls write their object in different orders, and all of them
leave it the same: it shows a task that has not run yet, and has its name
(`Made`). What the heap has cleared and `task::init` does not write is
still clear then, which is what the times say that nobody stores.

Each call is taken apart once (`newTask_created`, `init_kernel`,
`init_idle`), and the lemma says all that is asked of it later.
-/
import Ntibux.Kernel.Proofs.Context
import Ntibux.Kernel.Proofs.Shows
import Ntibux.Shell.Proofs.Names

namespace Ntibux

namespace Running

open HeapState (Reaches)
open Mem (Wrote Spares field)
open Sched (member RunList)
open Kernel (Sane)

variable {h h' : HeapState} {m m' m₁ : Mem} {c c' : Scheduler}
  {o : Sched.Task} {new : TaskObject} {name : List UInt8}
  {head a t u x id fuel size flags order ticks killMe entry block top : Nat}
  {os os' l : List Nat} {bs : List Block} {b : Block}

-- ============================================================ own blocks

/-- Outside the blocks. -/
def OffBlocks (bs : List Block) (x : Nat) : Prop := ∀ b ∈ bs, ¬b.Has x

/-- What is in use lies in the heap's zone. -/
theorem live_zone (hs : Sane h) (hb : b ∈ h.live) :
    h.mem.kheap.freeZone ≤ b.addr := by
  obtain ⟨-, z, k, hg⟩ := hs
  rw [hg.sim.freeZone]
  exact (hg.inv.used_ok b hb).within.1

/-- The other blocks in use are outside. -/
theorem off_of_has (hs : Sane h) (hbs : ∀ b ∈ bs, b ∈ h.live)
    (hb : b ∈ h.live) (hnot : b ∉ bs) (hx : b.Has x) : OffBlocks bs x := by
  intro b' hb'
  have hne : b ≠ b' := fun heq => hnot (heq ▸ hb')
  exact (live_apart hs hb (hbs b' hb') hne).not_has hx

/-- One more object. -/
theorem Housed.more (hd : Housed h head os) (ht : object t ∈ h.live) :
    Housed h head (t :: os) := by
  refine ⟨hd.sane, hd.orders, hd.node, fun u hu => ?_⟩
  rcases List.mem_cons.mp hu with rfl | hu
  · exact ht
  · exact hd.live u hu

/-- An object more that is in use makes no difference to the list. -/
theorem Held.more (hd : Held h head os l) (ht : object t ∈ h.live) :
    Held h head (t :: os) l :=
  ⟨hd.toHoused.more ht, hd.list, fun u hu =>
    List.mem_cons_of_mem t (hd.sub u hu)⟩

/-- What is kept of all objects is kept of some that have the list among
them. -/
theorem Kept.less (hk : Kept h h' head os l) (ho : ∀ t ∈ os', t ∈ os)
    (hl : ∀ t ∈ l, t ∈ os') : Kept h h' head os' l where
  held := hk.held.objects ho hl
  fields := hk.fields.mono fun x hx => by
    obtain ⟨u, hu, hx⟩ := hx
    exact ⟨u, ho u hu, hx⟩
  reaches := hk.reaches

/-- What is written into blocks of one's own. -/
theorem Housed.blocks (hd : Housed h head os) (hbs : ∀ b ∈ bs, b ∈ h.live)
    (hw : Wrote (OffBlocks bs) h.mem m') :
    Housed ⟨m', h.live⟩ head os ∧ Reaches h ⟨m', h.live⟩ := by
  have hloose : ∀ x, Loose h x → OffBlocks bs x :=
    fun _ hx b hb => hx.2 b (hbs b hb)
  exact ⟨hd.wrote hw hloose, reaches_of_wrote hw hloose⟩

/-- It is nothing to the list and to the objects in other blocks: a link
is in an object or below the zone, and a field is in an object. -/
theorem Held.blocks (hd : Held h head os l) (hbs : ∀ b ∈ bs, b ∈ h.live)
    (hnot : ∀ t ∈ os, object t ∉ bs) (hw : Wrote (OffBlocks bs) h.mem m') :
    Kept h ⟨m', h.live⟩ head os l where
  held := by
    refine hd.wrote hw (fun _ hx b hb => hx.2 b (hbs b hb)) ?_
    intro p hp x h1 h2
    rcases List.mem_cons.mp hp with rfl | hp
    · intro b hb hx
      have hzone := live_zone hd.sane (hbs b hb)
      have hnode := hd.node
      have haddr : b.addr ≤ x := hx.1
      omega
    · obtain ⟨u, hu, rfl⟩ := List.mem_map.mp hp
      have hos := hd.sub u hu
      have hin : (object u).Has x := by
        rw [hd.member_eq hos] at h1 h2
        exact ⟨show u ≤ x by omega, show x < u + 4096 by omega⟩
      exact off_of_has hd.sane hbs (hd.live u hos) (hnot u hos) hin
  fields := by
    refine hw.spares.mono fun x hx => ?_
    obtain ⟨t, ht, h1, h2⟩ := hx
    unfold Sched.TASKS_OFFSET at h2
    exact off_of_has hd.sane hbs (hd.live t ht) (hnot t ht)
      ⟨h1, show x < t + 4096 by omega⟩
  reaches := (hd.toHoused.blocks hbs hw).2

/-- A block fresh from the heap. -/
theorem Housed.fresh (hd : Housed ⟨m, b :: h.live⟩ head os) :
    b ∉ h.live := (List.nodup_cons.mp hd.sane.nodup).1

/-- A block of the heap ends where memory does, or before. -/
theorem live_fits (hs : Sane h) (hb : b ∈ h.live) : b.fin ≤ 2 ^ 32 := by
  obtain ⟨-, z, k, hg⟩ := hs
  exact Nat.le_trans (hg.inv.used_ok b hb).within.2 k.reserve_fin_le

-- ============================================================ the objects

/-- The fields of `task::init` are in the object. -/
theorem storeTask_wrote (t : Nat) (o : TaskObject) :
    Wrote (OffBlocks [object t]) m (m.storeTask t o) := by
  have hout : ∀ {f : Field} {n : Nat}, f.offset + n ≤ 4096 →
      ∀ x, OffBlocks [object t] x → x < field t f ∨ field t f + n ≤ x := by
    intro f n hf x hx
    have hnot : ¬(t ≤ x ∧ x < t + 4096) := hx (object t) (by simp)
    unfold field
    omega
  unfold Mem.storeTask
  exact (Wrote.store (hout (by decide)) _).trans <|
    (Wrote.store (hout (by decide)) _).trans <|
    (Wrote.store (hout (by decide)) _).trans <|
    (Wrote.store (hout (by decide)) _).trans <|
    (Wrote.store (hout (by decide)) _).trans <|
    (Wrote.store64 (hout (by decide)) _).trans <|
    (Wrote.store64 (hout (by decide)) _).trans <|
    (Wrote.store (hout (by decide)) _).trans <|
    Wrote.store64 (hout (by decide)) _

/-- The number of a new task is read back. -/
theorem storeTask_id (hid : new.id < 2 ^ 32) :
    (m.storeTask t new).load (field t .id) = new.id := by
  simp (disch := omega) only [Mem.storeTask, Mem.store64, Mem.load,
    Mem.store, field, Field.offset, Bytes.read32_write32_of_apart,
    Bytes.read32_write32_self hid]

/-- So is its stack. -/
theorem storeTask_stack (hstack : new.stack < 2 ^ 32) :
    (m.storeTask t new).load (field t .stack) = new.stack := by
  simp (disch := omega) only [Mem.storeTask, Mem.store64, Mem.load,
    Mem.store, field, Field.offset, Bytes.read32_write32_of_apart,
    Bytes.read32_write32_self hstack]

/-- The name reaches to the object's links, and no further. -/
theorem setName_wrote (t : Nat) (name : List UInt8) :
    Wrote (fun x => x < t + 56 ∨ t + 88 < x) m (m.setName t name) := by
  refine .strncpy fun x hx => ?_
  have hfield : field t .name = t + 56 := rfl
  rw [hfield]
  unfold TASK_NAME_LEN
  omega

/-- A name is written within the page of its task. -/
theorem setName_off (t : Nat) (name : List UInt8) :
    Wrote (OffBlocks [object t]) m (m.setName t name) := by
  refine (setName_wrote t name).mono fun x hx => ?_
  have hnot : ¬(t ≤ x ∧ x < t + 4096) := hx (object t) (by simp)
  omega

/-- It changes nothing that is shown of the task. -/
theorem Shows.setName (hs : Shows m t o) (name : List UInt8) :
    Shows (m.setName t name) t o := by
  have hw := setName_wrote (m := m) t name
  have hlow : ∀ i n, i + n ≤ 56 → ∀ x, t + i ≤ x → x < t + i + n →
      x < t + 56 ∨ t + 88 < x := by
    intro i n hn x h1 h2
    omega
  refine ⟨?_, ?_, ?_, ?_⟩
  · rw [← hs.id]
    exact hw.spares.load (hlow 0 4 (by omega))
  · rw [← hs.lastSwitched]
    exact hw.load64 (hlow 20 8 (by omega))
  · rw [← hs.sleep]
    exact hw.load64 (hlow 28 8 (by omega))
  · rw [← hs.cpuTime]
    exact hw.load64 (hlow 44 8 (by omega))

/-- A name that its field has room for is in the field. -/
theorem setName_hasLine {name : List UInt8} (hnul : 0 ∉ name)
    (hshort : name.length < TASK_NAME_LEN) :
    (m.setName t name).bytes.HasLine (field t .name) name := by
  have hline := Mem.strncpy_hasLine hnul m (field t .name) TASK_NAME_LEN
  rw [List.take_of_length_le (Nat.le_of_lt hshort)] at hline
  exact hline

/-- `task::init` leaves it there. -/
theorem storeTask_keeps_name (t : Nat) (new : TaskObject) :
    Wrote (fun x => x < t ∨ t + 56 ≤ x) m (m.storeTask t new) := by
  have hout : ∀ {g : Field} {n : Nat}, g.offset + n ≤ 56 →
      ∀ x, x < t ∨ t + 56 ≤ x → x < field t g ∨ field t g + n ≤ x := by
    intro g n hg x hx
    unfold field
    omega
  unfold Mem.storeTask
  exact (Wrote.store (hout (by decide)) _).trans <|
    (Wrote.store (hout (by decide)) _).trans <|
    (Wrote.store (hout (by decide)) _).trans <|
    (Wrote.store (hout (by decide)) _).trans <|
    (Wrote.store (hout (by decide)) _).trans <|
    (Wrote.store64 (hout (by decide)) _).trans <|
    (Wrote.store64 (hout (by decide)) _).trans <|
    (Wrote.store (hout (by decide)) _).trans <|
    Wrote.store64 (hout (by decide)) _

/-- The other fields lie behind the name and leave it whole. -/
theorem storeTask_hasLine {name : List UInt8} (new : TaskObject)
    (hl : m.bytes.HasLine (field t .name) name) :
    (m.storeTask t new).bytes.HasLine (field t .name) name :=
  hl.congr fun x h1 _ =>
    (storeTask_keeps_name t new).spares x (.inr h1)

/-- It stays there as long as the fields do. -/
theorem hasLine_of_fields {name : List UInt8}
    (hl : m.bytes.HasLine (field t .name) name) (hf : Spares (Fields os) m m')
    (hshort : name.length < TASK_NAME_LEN) (ht : t ∈ os) :
    m'.bytes.HasLine (field t .name) name := by
  refine hl.congr fun x h1 h2 => hf x ⟨t, ht, ?_, ?_⟩
  · exact Nat.le_trans (Nat.le_add_right t 56) h1
  · have hroom : name.length < 32 := hshort
    have hplace : field t .name = t + 56 := rfl
    show x < t + 88
    omega

/-- The fields that `task::init` writes, and the one that it leaves. -/
theorem storeTask_shows {new : TaskObject} (hid : new.id < 2 ^ 32)
    (hsleep : new.sleep < 2 ^ 64) (hcpu : new.cpuTime < 2 ^ 64) :
    Shows (m.storeTask t new) t
      { id := new.id, lastSwitched := m.load64 (field t .lastSwitched)
        sleep := new.sleep, cpuTime := new.cpuTime, ctx := none } := by
  have hjoin : ∀ v : Nat, u32 v + 2 ^ 32 * (v / 2 ^ 32) = v :=
    fun v => Nat.mod_add_div v _
  refine ⟨storeTask_id hid, ?_, ?_, ?_⟩
  · simp (disch := omega) only [Mem.storeTask, Mem.store64, Mem.load64,
      Mem.load, Mem.store, field, Field.offset,
      Bytes.read32_write32_of_apart]
  · have hhigh : new.sleep / 2 ^ 32 < 2 ^ 32 := by omega
    simp (disch := omega) only [Mem.storeTask, Mem.store64, Mem.load64,
      Mem.load, Mem.store, field, Field.offset,
      Bytes.read32_write32_of_apart,
      Bytes.read32_write32_self (u32_lt new.sleep),
      Bytes.read32_write32_self hhigh, hjoin]
  · have hhigh : new.cpuTime / 2 ^ 32 < 2 ^ 32 := by omega
    simp (disch := omega) only [Mem.storeTask, Mem.store64, Mem.load64,
      Mem.load, Mem.store, field, Field.offset,
      Bytes.read32_write32_of_apart,
      Bytes.read32_write32_self (u32_lt new.cpuTime),
      Bytes.read32_write32_self hhigh, hjoin]

-- ============================================================ a new object

/-- What a task is that has not run yet. -/
def unrun (id : Nat) : Sched.Task where
  id := id
  lastSwitched := 0
  sleep := 0
  cpuTime := 0
  ctx := none

/-- The object at `t` has the fields `new` in it, and shows a task that
has not run yet. -/
structure Blank (m : Mem) (t : Nat) (new : TaskObject) : Prop where
  shows : Shows m t (unrun new.id)
  stack : new.stack < 2 ^ 32 → m.load (field t .stack) = new.stack

/-- It has its name too, if the name has room in its field. -/
structure Made (m : Mem) (t : Nat) (new : TaskObject) (name : List UInt8) :
    Prop extends Blank m t new where
  line : 0 ∉ name → name.length < TASK_NAME_LEN →
    m.bytes.HasLine (field t .name) name

namespace Blank

/-- `task::init` writes all the fields but one time, which the heap has
cleared. -/
theorem store (hid : new.id < 2 ^ 32) (hsleep : new.sleep = 0)
    (hcpu : new.cpuTime = 0)
    (hz : ∀ x, t + 20 ≤ x → x < t + 28 → m.bytes x = 0) :
    Blank (m.storeTask t new) t new where
  shows := by
    have hword : ∀ i, 20 ≤ i → i + 4 ≤ 28 → m.load (t + i) = 0 := by
      intro i h1 h2
      have hzeros : m.load (t + i) = Bytes.read32 (fun _ => 0) (t + i) :=
        Bytes.read32_congr fun x _ _ => hz x (by omega) (by omega)
      rw [hzeros]
      rfl
    have hclear : m.load64 (field t .lastSwitched) = 0 := by
      have hlow : m.load (field t .lastSwitched) = 0 :=
        hword 20 (by decide) (by decide)
      have hhigh : m.load (field t .lastSwitched + 4) = 0 :=
        hword 24 (by decide) (by decide)
      unfold Mem.load64
      rw [hlow, hhigh, Nat.mul_zero]
    have hsmall : 0 < 2 ^ 64 := by decide
    have hshow := storeTask_shows (m := m) (t := t) hid (hsleep ▸ hsmall)
      (hcpu ▸ hsmall)
    rw [hclear, hsleep, hcpu] at hshow
    exact hshow
  stack := storeTask_stack

theorem of_fields (hb : Blank m t new) (hf : Spares (Fields os) m m')
    (ht : t ∈ os) : Blank m' t new where
  shows := hb.shows.of_fields hf ht
  stack hlt := by
    rw [← hb.stack hlt]
    exact hf.load fun x h1 h2 => ⟨t, ht,
      Nat.le_trans (Nat.le_add_right t 8) h1,
      Nat.lt_trans h2 (show t + 8 + 4 < t + 88 by omega)⟩

/-- The name goes behind all that is read here. -/
theorem setName (hb : Blank m t new) (name : List UInt8) :
    Made (m.setName t name) t new name where
  shows := hb.shows.setName name
  stack hlt := by
    rw [← hb.stack hlt]
    exact (setName_wrote t name).spares.load fun x h1 h2 =>
      .inl (Nat.lt_of_lt_of_le h2 (show t + 8 + 4 ≤ t + 56 by omega))
  line := setName_hasLine

/-- The block that the stack of the task is in. -/
theorem stackBlock_eq (hb : Blank m t new)
    (hstack : new.stack = u32 (block + KERNEL_STACK_SIZE))
    (hfit : block + KERNEL_STACK_SIZE ≤ 2 ^ 32) :
    stackBlock m t = ⟨block, 14⟩ := by
  have haddr : u32 (u32 (block + KERNEL_STACK_SIZE)
      + (2 ^ 32 - KERNEL_STACK_SIZE)) = block := by
    unfold u32 KERNEL_STACK_SIZE at *
    omega
  unfold stackBlock
  rw [hb.stack (hstack ▸ u32_lt _), hstack, haddr]

end Blank

/-- And leave a named one its name. -/
theorem Made.of_fields (hm : Made m t new name)
    (hf : Spares (Fields os) m m') (ht : t ∈ os) : Made m' t new name where
  toBlank := hm.toBlank.of_fields hf ht
  line hnul hshort := hasLine_of_fields (hm.line hnul hshort) hf hshort ht

-- =============================================================== the stack

/-- The writes to a new stack, all of them in its block. -/
theorem stack_wrote (hroom : top = block + KERNEL_STACK_SIZE) {n v : Nat}
    (h4 : 4 ≤ n) (hn : n ≤ 16384) :
    Wrote (OffBlocks [⟨block, 14⟩]) m (m.store (top - n) v) := by
  refine .store (fun x hx => ?_) v
  have hnot : ¬(block ≤ x ∧ x < block + 16384) := hx ⟨block, 14⟩ (by simp)
  unfold KERNEL_STACK_SIZE at hroom
  omega

/-- The 44 bytes that are cleared lie in the block of the stack. -/
theorem stack_zeroed (hroom : top = block + KERNEL_STACK_SIZE) :
    Wrote (OffBlocks [⟨block, 14⟩]) m (m.zero (top - 176) 44) := by
  refine .zero fun x hx => ?_
  have hnot : ¬(block ≤ x ∧ x < block + 16384) := hx ⟨block, 14⟩ (by simp)
  unfold KERNEL_STACK_SIZE at hroom
  omega

namespace Held

/-- The heap hands out no stack that does not fit into memory. -/
theorem stack_fits (hd : Held h head os l)
    (hb : h.mem.kheapAlloc fuel KERNEL_STACK_SIZE flags = .ret (block, m)) :
    block + KERNEL_STACK_SIZE ≤ 2 ^ 32 := by
  obtain ⟨hk, -⟩ := hd.alloc hb fun k => Kernel.stack_order hd.sane.1
  exact live_fits hk.held.sane (b := ⟨block, 14⟩) List.mem_cons_self

/-- A stack taken from the heap, and what is written into it. -/
theorem stack (hd : Held h head os l)
    (hb : h.mem.kheapAlloc fuel KERNEL_STACK_SIZE flags = .ret (block, m))
    (hw : Wrote (OffBlocks [⟨block, 14⟩]) m m') :
    Kept h ⟨m', ⟨block, 14⟩ :: h.live⟩ head os l := by
  obtain ⟨hk, -⟩ := hd.alloc hb fun k => Kernel.stack_order hd.sane.1
  have hbs : ∀ b ∈ [(⟨block, 14⟩ : Block)],
      b ∈ (⟨block, 14⟩ : Block) :: h.live := by simp
  refine hk.trans (hk.held.blocks hbs (fun u _ hin => ?_) hw)
  -- an object is a page, and a stack is four of them
  exact absurd (Block.mk.inj (List.mem_singleton.mp hin)).2 (by decide)

/-- What is written into an object that is not among the others. -/
theorem own (hd : Held h head os l) (hlive : object t ∈ h.live)
    (ht : t ∉ os) (hw : Wrote (OffBlocks [object t]) h.mem m') :
    Kept h ⟨m', h.live⟩ head os l := by
  refine hd.blocks (fun b hb => ?_) (fun u hu hin => ht ?_) hw
  · rw [List.mem_singleton.mp hb]
    exact hlive
  · rw [← (Block.mk.inj (List.mem_singleton.mp hin)).1]
    exact hu

end Held

-- =============================================================== new_task

/-- What `new_task` does, one call after the other. -/
theorem newTask_makes (hd : Held h c.tasks os l)
    (hr : c.newTask ticks fuel killMe name entry h.mem
      = .ret (t, c', m')) :
    ∃ m₁ mb m₂ block, ∃ new : TaskObject,
      h.mem.kheapAlloc fuel sizeofTask ALLOC_ZEROED = .ret (t, m₁) ∧
      m₁.kheapAlloc fuel KERNEL_STACK_SIZE ALLOC_ALIGNED
        = .ret (block, mb) ∧
      Wrote (OffBlocks [⟨block, 14⟩]) mb m₂ ∧
      (new.id = c.nextId ∧ new.stack = u32 (block + KERNEL_STACK_SIZE) ∧
        new.sleep = 0 ∧ new.cpuTime = 0) ∧
      c' = { c with nextId := u32 (c.nextId + 1) } ∧
      m' = ((m₂.storeTask t new).setName t name).listPushBack c.tasks
        (member t) := by
  unfold Scheduler.newTask at hr
  obtain ⟨⟨t', m₁⟩, ha, hr⟩ := Outcome.bind_eq_ret.mp hr
  obtain ⟨⟨new, m₂⟩, hinit, hr⟩ := Outcome.bind_eq_ret.mp hr
  obtain ⟨⟨block, mb⟩, hb, -⟩ := Outcome.bind_eq_ret.mp hinit
  obtain ⟨rfl, hc, hm⟩ : t' = t ∧ _ = c' ∧ _ = m' := by
    simpa only [Outcome.ret.injEq, Prod.mk.injEq] using hr
  obtain ⟨hk, -⟩ := hd.alloc ha fun k => Kernel.task_order hd.sane.1
  obtain ⟨top, htop⟩ : ∃ top, top = block + KERNEL_STACK_SIZE := ⟨_, rfl⟩
  have hfit : top ≤ 2 ^ 32 := htop ▸ hk.held.stack_fits hb
  rw [Ntibux.init_eq killMe ticks c.nextId entry m₁.kernelPd hb htop hfit]
    at hinit
  obtain ⟨ho, hm₂⟩ := Prod.mk.inj (Outcome.ret.inj hinit)
  refine ⟨m₁, mb, m₂, block, new, ha, hb, ?_, ?_, hc.symm, hm.symm⟩
  · rw [← hm₂]
    exact ((stack_zeroed htop).trans
      (stack_wrote htop (by decide) (by decide))).trans
        (stack_wrote htop (by decide) (by decide))
  · rw [← ho, ← htop]
    exact ⟨rfl, rfl, rfl, rfl⟩

/-- What `new_task` comes to: the object is a block that was not in use,
it ends the list, and it shows a task with the next id that has not run
yet. The other objects keep their fields, and the heap's clients may have
done it all. -/
structure Created (h : HeapState) (os l : List Nat) (c c' : Scheduler)
    (name : List UInt8) (t : Nat) (m' : Mem) : Prop where
  fresh : object t ∉ h.live
  held : Held ⟨m', stackBlock m' t :: object t :: h.live⟩ c.tasks (t :: os)
    (l ++ [t])
  fields : Spares (Fields os) h.mem m'
  shows : Shows m' t (unrun c.nextId)
  line : 0 ∉ name → name.length < TASK_NAME_LEN →
    m'.bytes.HasLine (field t .name) name
  reaches : Reaches h ⟨m', stackBlock m' t :: object t :: h.live⟩
  sched : c' = { c with nextId := u32 (c.nextId + 1) }

/-- A call of `new_task` that returns has created a task. -/
theorem newTask_created (hd : Held h c.tasks os l)
    (hid : c.nextId < 2 ^ 32)
    (hr : c.newTask ticks fuel killMe name entry h.mem
      = .ret (t, c', m')) : Created h os l c c' name t m' := by
  obtain ⟨m₁, mb, m₂, block, new, ha, hb, hstack,
    ⟨hnew, htop, hsleep, hcpu⟩, hc, rfl⟩ := newTask_makes hd hr
  -- the two blocks
  obtain ⟨hk₁, htook⟩ := hd.alloc ha fun k => Kernel.task_order hd.sane.1
  have hfresh := hk₁.held.fresh
  have ht : t ∉ os := fun hin => hfresh (hd.live t hin)
  have hdt := hk₁.held.more (t := t) List.mem_cons_self
  have hk₂ := hdt.stack hb hstack
  -- the object and its name, then the link
  have hk₂' : Kept _ _ c.tasks os l :=
    hk₂.less (fun u hu => List.mem_cons_of_mem t hu) hd.sub
  have hlive : object t ∈ (⟨block, 14⟩ : Block) :: object t :: h.live :=
    List.mem_cons_of_mem _ List.mem_cons_self
  have hk₃ := hk₂'.held.own hlive ht
    ((storeTask_wrote t new).trans (setName_off t name))
  have hk₄ := (hk₃.held.more hlive).pushBack List.mem_cons_self
    fun hl => ht (hd.sub t hl)
  have hkept := (hk₁.trans (hk₂'.trans hk₃)).fields.trans
    (hk₄.fields.mono fun x hx => by
      obtain ⟨u, hu, hx⟩ := hx
      exact ⟨u, List.mem_cons_of_mem t hu, hx⟩)
  -- what the heap has cleared is clear when the object is written
  have hmade : Made (((m₂.storeTask t new).setName t name).listPushBack
      c.tasks (member t)) t new name := by
    refine Made.of_fields (Blank.setName (.store (hnew ▸ hid) hsleep hcpu
      fun x h1 h2 => ?_) name) hk₄.fields List.mem_cons_self
    have hx : m₂.bytes x = m₁.bytes x := hk₂.fields x
      ⟨t, List.mem_cons_self, by omega, show x < t + 88 by omega⟩
    rw [hx]
    exact htook.zeroed (by decide) x (show t ≤ x by omega)
      (show x < t + 96 by omega)
  have hblock := hmade.stackBlock_eq htop (hdt.stack_fits hb)
  refine ⟨hfresh, ?_, hkept, hnew ▸ hmade.shows, hmade.line, ?_, hc⟩
  · rw [hblock]
    exact hk₄.held
  · rw [hblock]
    exact hk₁.reaches.trans
      (hk₂.reaches.trans (hk₃.reaches.trans hk₄.reaches))

-- ======================================================== scheduler::init

/-- The kernel's object, written and listed. -/
theorem init_kernel (hd : Housed h head [])
    (ha : h.mem.kheapAlloc fuel sizeofTask ALLOC_ZEROED = .ret (t, m))
    (hid : new.id < 2 ^ 32) (hsleep : new.sleep = 0) (hcpu : new.cpuTime = 0)
    (hm : m' = (((m.setName t name).storeTask t new).listInitHead
      head).listPush head (member t)) :
    Held ⟨m', object t :: h.live⟩ head [t] [t] ∧ Made m' t new name ∧
      Reaches h ⟨m', object t :: h.live⟩ := by
  obtain ⟨hd₁, htook⟩ := hd.alloc ha fun k => Kernel.task_order hd.sane.1
  have hbs : ∀ b ∈ [object t], b ∈ object t :: h.live := by simp
  obtain ⟨hd₂, hr₂⟩ := (hd₁.more (t := t) List.mem_cons_self).blocks hbs
    ((setName_off t name).trans (storeTask_wrote t new))
  have hk₃ := hd₂.initHead
  have hk := hk₃.trans (hk₃.held.push List.mem_cons_self List.not_mem_nil)
  have hmade : Made ((m.setName t name).storeTask t new) t new name := by
    refine ⟨.store hid hsleep hcpu fun x h1 h2 => ?_, fun hnul hshort =>
      storeTask_hasLine new (setName_hasLine hnul hshort)⟩
    rw [(setName_wrote t name).spares x (.inl (by omega))]
    exact htook.zeroed (by decide) x (show t ≤ x by omega)
      (show x < t + 96 by omega)
  rw [hm]
  exact ⟨hk.held, hmade.of_fields hk.fields List.mem_cons_self,
    htook.reaches.trans (hr₂.trans hk.reaches)⟩

/-- Idle's object and stack, written and not listed. -/
theorem init_idle {v : Nat} (hd : Held h head os l)
    (ha : h.mem.kheapAlloc fuel sizeofTask ALLOC_ZEROED = .ret (t, m))
    (hb : (m.setName t name).kheapAlloc fuel KERNEL_STACK_SIZE ALLOC_ALIGNED
      = .ret (block, m₁))
    (htop : top = block + KERNEL_STACK_SIZE) (hid : new.id < 2 ^ 32)
    (hsleep : new.sleep = 0) (hcpu : new.cpuTime = 0)
    (ho : new.stack = u32 top)
    (hm : m' = ((m₁.zero (u32 (u32 top + (2 ^ 32 - 4 * 44))) 44).store
      (u32 (u32 top + (2 ^ 32 - 8))) v).storeTask t new) :
    Held ⟨m', stackBlock m' t :: object t :: h.live⟩ head (t :: os) l ∧
      Spares (Fields os) h.mem m' ∧ Made m' t new name ∧
      Reaches h ⟨m', stackBlock m' t :: object t :: h.live⟩ := by
  -- the object and its name, then the stack
  obtain ⟨hk₁, htook⟩ := hd.alloc ha fun k => Kernel.task_order hd.sane.1
  have ht : t ∉ os := fun hin => hk₁.held.fresh (hd.live t hin)
  have hk₂ := hk₁.held.own List.mem_cons_self ht (setName_off t name)
  have hdt := hk₂.held.more (t := t) List.mem_cons_self
  have hfit : top ≤ 2 ^ 32 := htop ▸ hdt.stack_fits hb
  have hroom : 16384 ≤ top := htop ▸ Nat.le_add_left _ _
  rw [u32_below (by decide) (by decide) hroom hfit,
    u32_below (by decide) (by decide) hroom hfit] at hm
  have hstack : Wrote (OffBlocks [⟨block, 14⟩]) m₁
      ((m₁.zero (top - 176) 44).store (top - 8) v) :=
    (stack_zeroed htop).trans (stack_wrote htop (by decide) (by decide))
  have hk₃ := hdt.stack hb hstack
  have hk₃' : Kept _ _ head os l :=
    hk₃.less (fun u hu => List.mem_cons_of_mem t hu) hd.sub
  -- then the fields, which leave the name where it is
  have hlive : object t ∈ (⟨block, 14⟩ : Block) :: object t :: h.live :=
    List.mem_cons_of_mem _ List.mem_cons_self
  have hk₄ := hk₃'.held.own hlive ht (storeTask_wrote t new)
  have hk := hk₁.trans (hk₂.trans (hk₃'.trans hk₄))
  have hmade : Made m' t new name := by
    rw [hm]
    refine ⟨.store hid hsleep hcpu fun x h1 h2 => ?_, fun hnul hshort =>
      storeTask_hasLine new (hasLine_of_fields (setName_hasLine hnul hshort)
        hk₃.fields hshort List.mem_cons_self)⟩
    have hx := hk₃.fields x
      ⟨t, List.mem_cons_self, by omega, show x < t + 88 by omega⟩
    refine hx.trans (((setName_wrote t name).spares x
      (.inl (by omega))).trans ?_)
    exact htook.zeroed (by decide) x (show t ≤ x by omega)
      (show x < t + 96 by omega)
  have hblock := hmade.stackBlock_eq (htop ▸ ho) (htop ▸ hfit)
  rw [hblock]
  rw [← hm] at hk hk₄
  exact ⟨hk₄.held.more hlive, hk.fields, hmade, hk.reaches⟩

/-- What `scheduler::init` comes to: the kernel's task is listed and idle
is not, both have their names, and neither has run yet. -/
structure Inited (h : HeapState) (tasks : Nat) (c : Scheduler) (m' : Mem) :
    Prop where
  tasks : c.tasks = tasks
  nextId : c.nextId = Sched.AVAILABLE_IDS
  held : Held ⟨m', stackBlock m' c.idle :: object c.idle ::
    object c.current :: h.live⟩ c.tasks [c.idle, c.current] [c.current]
  current : Shows m' c.current (unrun Sched.KERNEL_TASK_ID)
  idle : Shows m' c.idle (unrun Sched.IDLE_TASK_ID)
  currentName : m'.bytes.HasLine (field c.current .name) (ascii "kernel")
  idleName : m'.bytes.HasLine (field c.idle .name) (ascii "idle")
  reaches : Reaches h ⟨m', stackBlock m' c.idle :: object c.idle ::
    object c.current :: h.live⟩

/-- A call of `scheduler::init` that returns has set up two tasks, the
kernel's own and the idle one. -/
theorem init_inited {tasks stackTop stackBottom busyLoop : Nat}
    (hd : Housed h tasks [])
    (hi : Scheduler.init fuel tasks stackTop stackBottom busyLoop ticks h.mem
      = .ret (c, m')) : Inited h tasks c m' := by
  have hkernel : 0 ∉ ascii "kernel" ∧ (ascii "kernel").length < TASK_NAME_LEN :=
    by decide
  have hidling : 0 ∉ ascii "idle" ∧ (ascii "idle").length < TASK_NAME_LEN := by
    decide
  have hk : "kernel".toUTF8.toList = ascii "kernel" := by decide +kernel
  have hi' : "idle".toUTF8.toList = ascii "idle" := by decide +kernel
  unfold Scheduler.init at hi
  rw [hk, hi'] at hi
  clear hk hi'
  obtain ⟨⟨kernel, m₁⟩, hk, hi⟩ := Outcome.bind_eq_ret.mp hi
  obtain ⟨⟨idle, m₂⟩, hidle, hi⟩ := Outcome.bind_eq_ret.mp hi
  obtain ⟨⟨block, m₃⟩, hb, hi⟩ := Outcome.bind_eq_ret.mp hi
  obtain ⟨rfl, hm⟩ : _ = c ∧ _ = m' := by
    simpa only [Outcome.ret.injEq, Prod.mk.injEq] using hi
  obtain ⟨new, hnew⟩ : ∃ new, TaskObject.mk Sched.KERNEL_TASK_ID 0 stackTop
      (u32 (stackTop + (2 ^ 32 - stackBottom))) 0 0 ticks 0
      (m₁.setName kernel (ascii "kernel")).kernelPd = new := ⟨_, rfl⟩
  have hnewId : new.id = Sched.KERNEL_TASK_ID := by rw [← hnew]
  rw [hnew] at hidle
  obtain ⟨hd₁, hmade₁, hr₁⟩ := init_kernel hd hk
    (hnewId ▸ (by decide : Sched.KERNEL_TASK_ID < 2 ^ 32)) (by rw [← hnew])
    (by rw [← hnew]) rfl
  obtain ⟨top, htop⟩ : ∃ top, block + KERNEL_STACK_SIZE = top := ⟨_, rfl⟩
  rw [htop] at hm
  obtain ⟨hd₂, hf₂, hmade₂, hr₂⟩ := init_idle hd₁ hidle hb htop.symm
    (show Sched.IDLE_TASK_ID < 2 ^ 32 by decide) rfl rfl rfl hm.symm
  have hmade₁' := hmade₁.of_fields hf₂ List.mem_cons_self
  exact ⟨rfl, rfl, hd₂, hnewId ▸ hmade₁'.shows, hmade₂.shows,
    hmade₁'.line hkernel.1 hkernel.2, hmade₂.line hidling.1 hidling.2,
    hr₁.trans hr₂⟩

end Running

end Ntibux
