/-
The scheduler's list among the blocks of the heap.

`Held` is the invariant of all calls: the heap is in order, the task
objects are blocks in use, the scheduler's own node lies below the zone,
and the list is a ring of some of the objects. The objects are pages of
their own, so a store to one of them is seen by no other and by no link
of the heap. Each operation of the list and each call of the heap keeps
`Held`, and leaves the fields of the objects (`Fields`) alone.

What an operation comes to is said once for each of them, in one form
(`Kept`), with the heap's side of it: the nodes are in blocks in use or
below the zone, so the heap's clients may write them.
-/
import Ntibux.Kernel.Proofs.Links
import Ntibux.Kernel.Proofs.Reaches
import Ntibux.Kernel.Proofs.Stacks

namespace Ntibux

namespace Running

open HeapState (Reaches)
open Mem (Wrote Nodes Edit OffNodes Spares)
open Sched (member listEntry RunList)
open Kernel (Sane)

variable {h h₁ h' : HeapState} {m m' : Mem}
  {head a t u x n fuel size flags : Nat}
  {os os' l l' l₁ l₂ freed : List Nat} {P : Nat → Prop} {L : Links Nat}
  {b : Block}

-- =============================================================== the zone

/-- A byte of the zone that no block in use has. -/
def Loose (h : HeapState) (x : Nat) : Prop :=
  h.mem.kheap.freeZone ≤ x ∧ ∀ b ∈ h.live, ¬b.Has x

/-- What is written into blocks in use, or below the zone, is nothing to
the heap. -/
theorem sane_wrote (hs : Sane h) (hw : Wrote P h.mem m')
    (hloose : ∀ x, Loose h x → P x) : Sane ⟨m', h.live⟩ := by
  obtain ⟨hmin, z, k, hg⟩ := hs
  refine ⟨(congrArg Kheap.minOrder hw.kheap).trans hmin, z, k, ?_⟩
  refine ⟨hg.sim.congr hw.kheap fun b hb => ?_, hg.inv, hg.noPair,
    (congrArg Kheap.locked hw.kheap).trans hg.unlocked, ?_⟩
  · have hok := hg.inv.free_ok b hb
    have hfin := Mem.four_le_fin (Nat.le_trans z.two_le_min hok.min_le)
    have hbase : z.base ≤ b.addr := hok.within.1
    refine Bytes.read32_congr fun x h1 h2 => hw.spares x (hloose x ⟨?_, ?_⟩)
    · rw [hg.sim.freeZone]
      omega
    · exact fun c hc hx =>
        (hg.inv.mixed_apart c hc b hb).not_has hx ⟨h1, by omega⟩
  · rw [show (⟨m', h.live⟩ : HeapState).mem = m' from rfl, hw.frames]
    exact hg.frames_le

/-- To the heap's clients such writes are steps of their own. -/
theorem reaches_of_wrote (hw : Wrote P h.mem m')
    (hloose : ∀ x, Loose h x → P x) : Reaches h ⟨m', h.live⟩ :=
  .writes hw.kheap hw.frames fun x hx hnot =>
    hw.spares x (hloose x ⟨hx.1, hnot⟩)

-- ============================================================ the objects

/-- A task object is a page of the zone. -/
theorem object_page (hs : Sane h) (ht : object t ∈ h.live) :
    4096 ∣ t ∧ h.mem.kheap.freeZone ≤ t ∧ t + 4096 ≤ 2 ^ 32 := by
  obtain ⟨-, z, k, hg⟩ := hs
  have hok := hg.inv.used_ok _ ht
  have hbase : z.base ≤ t := hok.within.1
  have hfin : t + 4096 ≤ k.reserve.fin := hok.within.2
  refine ⟨hok.aligned, ?_, Nat.le_trans hfin k.reserve_fin_le⟩
  rw [hg.sim.freeZone]
  exact hbase

/-- Blocks in use lie apart. -/
theorem live_apart {c : Block} (hs : Sane h) (hb : b ∈ h.live)
    (hc : c ∈ h.live) (hne : b ≠ c) : b.Apart c := by
  obtain ⟨-, z, k, hg⟩ := hs
  have : Std.Symm Block.Apart := ⟨fun _ _ => Block.Apart.symm⟩
  exact hg.inv.used_apart.forall hb hc hne

/-- Two task objects in use are a page apart, since their blocks do not
overlap. -/
theorem objects_apart (hs : Sane h) (ht : object t ∈ h.live)
    (hu : object u ∈ h.live) (hne : t ≠ u) :
    t + 4096 ≤ u ∨ u + 4096 ≤ t :=
  live_apart hs ht hu fun heq => hne (Block.mk.inj heq).1

/-- A field of a task object, links apart. -/
def Fields (os : List Nat) (x : Nat) : Prop :=
  ∃ t ∈ os, t ≤ x ∧ x < t + Sched.TASKS_OFFSET

/-- Outside the fields that a switch or a tick writes, which are those
between the id and the name: no id is among them, no name and no link. -/
def OffFields (os : List Nat) (x : Nat) : Prop :=
  ∀ t ∈ os, x < t + 4 ∨ t + 56 ≤ x

/-- What is off the fields is clear of each single one: they all lie between
the offsets 4 and 56. -/
theorem OffFields.out (hx : OffFields os x) (ht : t ∈ os) (h4 : 4 ≤ a)
    (h56 : a + n ≤ 56) : x < t + a ∨ t + a + n ≤ x := by
  have hx' := hx t ht
  omega

/-- A byte of a name. -/
def NameFields (os : List Nat) (x : Nat) : Prop :=
  ∃ t ∈ os, t + 56 ≤ x ∧ x < t + Sched.TASKS_OFFSET

/-- The names are fields as well. -/
theorem NameFields.fields (hx : NameFields os x) : Fields os x := by
  obtain ⟨t, ht, h1, h2⟩ := hx
  exact ⟨t, ht, Nat.le_of_add_right_le h1, h2⟩

-- ========================================================== the invariant

/-- The heap is in order and holds the task objects `os`, with the
scheduler's node at `head` below it. -/
structure Housed (h : HeapState) (head : Nat) (os : List Nat) : Prop where
  sane : Sane h
  orders : h.mem.kheap.orders
    = h.mem.kheap.maxOrder - h.mem.kheap.minOrder + 1
  node : head + 8 ≤ h.mem.kheap.freeZone
  live : ∀ t ∈ os, object t ∈ h.live

/-- The scheduler's list holds the tasks `l` of the objects. -/
structure Held (h : HeapState) (head : Nat) (os l : List Nat) : Prop
    extends Housed h head os where
  list : RunList h.mem.links head l
  sub : ∀ t ∈ l, t ∈ os

namespace Housed

/-- A task object has a page to itself, above the scheduler's own node and
below 4 GiB. -/
theorem page (hd : Housed h head os) (ht : t ∈ os) :
    4096 ∣ t ∧ head + 8 ≤ t ∧ t + 4096 ≤ 2 ^ 32 := by
  obtain ⟨h1, h2, h3⟩ := object_page hd.sane (hd.live t ht)
  exact ⟨h1, Nat.le_trans hd.node h2, h3⟩

/-- Two of the objects lie in two pages. -/
theorem apart (hd : Housed h head os) (ht : t ∈ os) (hu : u ∈ os)
    (hne : t ≠ u) : t + 4096 ≤ u ∨ u + 4096 ≤ t :=
  objects_apart hd.sane (hd.live t ht) (hd.live u hu) hne

/-- The node of an object is at offset 88, with no wrap-around. -/
theorem member_eq (hd : Housed h head os) (ht : t ∈ os) :
    member t = t + 88 := by
  have hp := hd.page ht
  exact u32_of_lt (show t + 88 < 2 ^ 32 by omega)

/-- The scheduler's own node has an address of 32 bits. -/
theorem head_lt (hd : Housed h head os) : head < 2 ^ 32 := by
  obtain ⟨-, z, k, hg⟩ := hd.sane
  have hnode := hd.node
  have hbase := z.base_lt
  rw [hg.sim.freeZone] at hnode
  omega

/-- The nodes of the head and of all objects, in the list or not. -/
theorem nodes (hd : Housed h head os) :
    Nodes (head :: os.map member) := by
  have hhead : ∀ t ∈ os, head + 8 ≤ member t := by
    intro t ht
    have hp := hd.page ht
    rw [hd.member_eq ht]
    omega
  constructor
  · intro p hp
    rcases List.mem_cons.mp hp with rfl | hp
    · exact hd.head_lt
    · obtain ⟨t, -, rfl⟩ := List.mem_map.mp hp
      exact u32_lt _
  · intro p hp q hq hne
    rcases List.mem_cons.mp hp with rfl | hp
    · rcases List.mem_cons.mp hq with rfl | hq
      · exact absurd rfl hne
      · obtain ⟨u, hu, rfl⟩ := List.mem_map.mp hq
        exact .inl (hhead u hu)
    · obtain ⟨t, ht, rfl⟩ := List.mem_map.mp hp
      rcases List.mem_cons.mp hq with rfl | hq
      · exact .inr (hhead t ht)
      · obtain ⟨u, hu, rfl⟩ := List.mem_map.mp hq
        have hap := hd.apart ht hu fun heq => hne (heq ▸ rfl)
        rw [hd.member_eq ht, hd.member_eq hu]
        omega

/-- The list's own node is one of the nodes. -/
theorem head_mem : head ∈ head :: os.map member := List.mem_cons_self

/-- So is the node of each object. -/
theorem member_mem (ht : t ∈ os) : member t ∈ head :: os.map member :=
  List.mem_cons_of_mem head (List.mem_map_of_mem ht)

/-- The nodes are no fields, and lie in blocks in use or below the
zone. -/
theorem off_of_fields (hd : Housed h head os) (hx : Fields os x) :
    OffNodes (head :: os.map member) x := by
  obtain ⟨t, ht, h1, h2⟩ := hx
  have hp := hd.page ht
  unfold Sched.TASKS_OFFSET at h2
  intro p hp'
  rcases List.mem_cons.mp hp' with rfl | hp'
  · omega
  · obtain ⟨u, hu, rfl⟩ := List.mem_map.mp hp'
    rw [hd.member_eq hu]
    by_cases hne : t = u
    · omega
    · have hap := hd.apart ht hu hne
      omega

/-- What a client of the heap may write is clear of the list's nodes. -/
theorem off_of_loose (hd : Housed h head os) (hx : Loose h x) :
    OffNodes (head :: os.map member) x := by
  obtain ⟨hz, hx⟩ := hx
  intro p hp
  have hnode := hd.node
  rcases List.mem_cons.mp hp with rfl | hp
  · exact .inr (by omega)
  · obtain ⟨t, ht, rfl⟩ := List.mem_map.mp hp
    have hnot : ¬(t ≤ x ∧ x < t + 4096) := hx _ (hd.live t ht)
    rw [hd.member_eq ht]
    omega

/-- It is clear of the fields of the objects, too. -/
theorem off_fields_of_loose (hd : Housed h head os) (hx : Loose h x) :
    OffFields os x := by
  intro t ht
  have hnot : ¬(t ≤ x ∧ x < t + 4096) := hx.2 _ (hd.live t ht)
  omega

/-- A name is none of the fields that a switch or a tick writes, in its own
object and in the others. -/
theorem off_of_name (hd : Housed h head os) (hx : NameFields os x) :
    OffFields os x := by
  obtain ⟨u, hu, h1, h2⟩ := hx
  intro t ht
  have hsize : Sched.TASKS_OFFSET = 88 := rfl
  by_cases hut : u = t
  · omega
  · have hap := hd.apart hu ht hut
    omega

-- ================================================================= writes

/-- Writes that are nothing to the heap. -/
theorem wrote (hd : Housed h head os) (hw : Wrote P h.mem m')
    (hloose : ∀ x, Loose h x → P x) : Housed ⟨m', h.live⟩ head os where
  sane := sane_wrote hd.sane hw hloose
  orders := by
    show m'.kheap.orders = m'.kheap.maxOrder - m'.kheap.minOrder + 1
    rw [hw.kheap]
    exact hd.orders
  node := (congrArg Kheap.freeZone hw.kheap).symm ▸ hd.node
  live := hd.live

/-- Writes into the fields of the objects are the clients' own. -/
theorem fields_reaches (hd : Housed h head os)
    (hw : Wrote (OffFields os) h.mem m') : Reaches h ⟨m', h.live⟩ :=
  reaches_of_wrote hw fun _ hx => hd.off_fields_of_loose hx

end Housed

/-- What an operation keeps: the list is `l` now, no field of an object
has changed, and the heap's clients may have done it. -/
structure Kept (h h' : HeapState) (head : Nat) (os l : List Nat) :
    Prop where
  held : Held h' head os l
  fields : Spares (Fields os) h.mem h'.mem
  reaches : Reaches h h'

/-- One operation after another. -/
theorem Kept.trans (hk : Kept h h₁ head os l) (hk' : Kept h₁ h' head os l') :
    Kept h h' head os l' :=
  ⟨hk'.held, hk.fields.trans hk'.fields, hk.reaches.trans hk'.reaches⟩

namespace Housed

/-- An operation of the list that makes the ring it should. -/
theorem edit (hd : Housed h head os)
    (he : Edit (head :: os.map member) h.mem m' L)
    (hr : Ring L head (l'.map member)) (hsub : ∀ t ∈ l', t ∈ os) :
    Kept h ⟨m', h.live⟩ head os l' where
  held :=
    { toHoused := hd.wrote he.wrote fun _ hx => hd.off_of_loose hx
      list := by
        refine ⟨he.ring hr fun p hp => ?_, hd.head_lt, fun t ht => ?_⟩
        · rcases List.mem_cons.mp hp with rfl | hp
          · exact head_mem
          · obtain ⟨t, ht, rfl⟩ := List.mem_map.mp hp
            exact member_mem (hsub t ht)
        · have hp := hd.page (hsub t ht)
          omega
      sub := hsub }
  fields := he.wrote.spares.mono fun _ hx => hd.off_of_fields hx
  reaches := reaches_of_wrote he.wrote fun _ hx => hd.off_of_loose hx

/-- `list::init_head`. -/
theorem initHead (hd : Housed h head os) :
    Kept h ⟨h.mem.listInitHead head, h.live⟩ head os [] := by
  have hmem : head ∈ head :: os.map member := head_mem
  have he := Mem.listInitHead_edit (m := h.mem) hd.nodes hmem
  refine hd.edit he ⟨by simp, ?_, ?_⟩ nofun
  · rw [Links.setPrev_next, Links.setNext_next, if_pos rfl]
  · rw [Links.setPrev_prev, if_pos rfl]

end Housed

namespace Held

open Housed (head_mem member_mem)

/-- No task is in the list twice. -/
theorem nodup (hd : Held h head os l) : l.Nodup := hd.list.nodup

/-- The nodes of the list are among those of the objects. -/
theorem list_sub (hd : Held h head os l) :
    ∀ p ∈ head :: l.map member, p ∈ head :: os.map member := by
  intro p hp
  rcases List.mem_cons.mp hp with rfl | hp
  · exact head_mem
  · obtain ⟨t, ht, rfl⟩ := List.mem_map.mp hp
    exact member_mem (hd.sub t ht)

/-- The objects are the same in another order. -/
theorem objects (hd : Held h head os l) (ho : ∀ t ∈ os', t ∈ os)
    (hl : ∀ t ∈ l, t ∈ os') : Held h head os' l :=
  ⟨⟨hd.sane, hd.orders, hd.node, fun t ht => hd.live t (ho t ht)⟩, hd.list,
    hl⟩

/-- Writes that are nothing to the heap and to the links. -/
theorem wrote (hd : Held h head os l) (hw : Wrote P h.mem m')
    (hloose : ∀ x, Loose h x → P x)
    (hlinks : ∀ p ∈ head :: l.map member, ∀ x, p ≤ x → x < p + 8 → P x) :
    Held ⟨m', h.live⟩ head os l where
  toHoused := hd.toHoused.wrote hw hloose
  list := by
    refine ⟨hd.list.ring.congr (fun p hp => ?_) fun p hp => ?_,
      hd.list.head_lt, hd.list.task_lt⟩
    · exact hw.spares.load fun x h1 h2 =>
        hlinks p hp x h1 (Nat.lt_trans h2 (by omega))
    · exact hw.spares.load fun x h1 h2 =>
        hlinks p hp x (Nat.le_trans (Nat.le_add_right p 4) h1) (by omega)
  sub := hd.sub

/-- Writes into the fields of the objects. -/
theorem fields (hd : Held h head os l)
    (hw : Wrote (OffFields os) h.mem m') :
    Held ⟨m', h.live⟩ head os l := by
  refine hd.wrote hw (fun x hx => hd.off_fields_of_loose hx) ?_
  intro p hp x h1 h2 t ht
  have hpage := hd.page ht
  rcases List.mem_cons.mp hp with rfl | hp
  · omega
  · obtain ⟨u, hu, rfl⟩ := List.mem_map.mp hp
    have hu := hd.sub u hu
    rw [hd.member_eq hu] at h1 h2
    by_cases hne : t = u
    · omega
    · have hap := hd.apart ht hu hne
      omega

/-- The ids stay. -/
theorem id_of_fields (hd : Held h head os l) (ht : t ∈ os)
    (hw : Wrote (OffFields os) h.mem m') :
    m'.load (Mem.field t .id) = h.mem.load (Mem.field t .id) := by
  refine hw.spares.load fun x h1 h2 u hu => ?_
  have h1 : t ≤ x := h1
  have h2 : x < t + 4 := h2
  by_cases hne : t = u
  · omega
  · have hap := hd.apart ht hu hne
    omega

-- =============================================================== the list

/-- An object that is not in the list has its node off the list. -/
theorem member_notMem (hd : Held h head os l) (ht : t ∈ os) (hl : t ∉ l) :
    member t ∉ head :: l.map member := by
  intro hp
  have hpage := hd.page ht
  rcases List.mem_cons.mp hp with hp | hp
  · rw [hd.member_eq ht] at hp
    omega
  · obtain ⟨u, hu, heq⟩ := List.mem_map.mp hp
    rw [hd.member_eq ht, hd.member_eq (hd.sub u hu)] at heq
    obtain rfl : u = t := by omega
    exact hl hu

/-- `list::rotate`. -/
theorem rotate (hd : Held h head os l) :
    Kept h ⟨h.mem.listRotate head, h.live⟩ head os (Sched.rotate l) := by
  have he := Mem.listRotate_edit hd.nodes hd.list.ring hd.list_sub
  refine hd.edit he hd.list.rotate.ring fun t ht => ?_
  rw [Sched.rotate_eq, List.mem_rotate] at ht
  exact hd.sub t ht

/-- `list::push` of an object that is not in the list. -/
theorem push (hd : Held h head os l) (ht : t ∈ os) (hl : t ∉ l) :
    Kept h ⟨h.mem.listPush head (member t), h.live⟩ head os (t :: l) := by
  have hnot := hd.member_notMem ht hl
  have hne : member t ≠ head := fun h => hnot (h ▸ List.mem_cons_self)
  have he := Mem.listPush_edit hd.nodes head_mem (member_mem ht) hne
    (hd.list_sub _ (hd.list.ring.next_mem List.mem_cons_self))
  refine hd.edit he (hd.list.ring.push hnot) fun u hu => ?_
  rcases List.mem_cons.mp hu with rfl | hu
  · exact ht
  · exact hd.sub u hu

/-- `list::push_back` of one. -/
theorem pushBack (hd : Held h head os l) (ht : t ∈ os) (hl : t ∉ l) :
    Kept h ⟨h.mem.listPushBack head (member t), h.live⟩ head os (l ++ [t]) := by
  have hnot := hd.member_notMem ht hl
  have hne : member t ≠ head := fun h => hnot (h ▸ List.mem_cons_self)
  have he := Mem.listPushBack_edit hd.nodes head_mem (member_mem ht) hne
    (hd.list_sub _ hd.list.ring.seg.prev_mem)
  have hr := hd.list.ring.pushBack hnot
  rw [← List.map_singleton, ← List.map_append] at hr
  refine hd.edit he hr fun u hu => ?_
  rcases List.mem_append.mp hu with hu | hu
  · exact hd.sub u hu
  · rw [List.mem_singleton.mp hu]
    exact ht

/-- An element that is taken out still knows what came after it. -/
theorem del (hd : Held h head os (l₁ ++ t :: l₂)) :
    Kept h ⟨h.mem.listDel (member t), h.live⟩ head os (l₁ ++ l₂) ∧
      (h.mem.listDel (member t)).links.next (member t)
        = h.mem.links.next (member t) := by
  have ht : t ∈ os := hd.sub t (by simp)
  have hr := hd.list.ring
  have hmem : member t ∈ head :: (l₁ ++ t :: l₂).map member :=
    List.mem_cons_of_mem head (List.mem_map_of_mem (by simp))
  have hprev : h.mem.links.prev (member t) ∈ head :: os.map member := by
    rw [List.map_append, List.map_cons] at hr
    obtain ⟨hs, -⟩ := Seg.append_iff.mp hr.seg
    apply hd.list_sub
    rw [List.map_append, ← List.cons_append]
    exact List.mem_append_left _ hs.prev_mem
  have hnext := hd.list_sub _ (hr.next_mem hmem)
  rw [List.map_append, List.map_cons] at hr
  have he := Mem.listDel_edit hd.nodes (member_mem ht) hnext hprev hr.ne_prev
  have hr' := hr.del
  rw [← List.map_append] at hr'
  refine ⟨hd.edit he hr' fun u hu => hd.sub u ?_, ?_⟩
  · rcases List.mem_append.mp hu with hu | hu
    · exact List.mem_append_left _ hu
    · exact List.mem_append_right l₁ (List.mem_cons_of_mem t hu)
  · rw [he.next _ (member_mem ht)]
    exact hr.del_next

end Held

end Running

end Ntibux
