/-
The intrusive list by itself: a list in memory is a sequence of nodes,
and each call does to the sequence what it is for.

`ListIn` is the list with its head at `head` and the nodes `l`, all of
them apart. A call keeps it (`ListCall.keeps`), with the sequence that
`ListCall.on` says, and writes no other node; so every run of calls does
(`run_listIn`). What it cannot say of itself is that it is empty:
`list::size` looks for the head one node too late (`size_gives`).
-/
import Ntibux.Kernel.Proofs.Links
import Ntibux.Lib.Run

namespace Ntibux

open Outcome (Gives)
open Mem (Edit Nodes OffNodes Wrote)

-- ============================================================== the calls

/-- A call of `class list` that changes the list at a head. -/
inductive ListCall
  | push (elt : Nat)
  | pushBack (elt : Nat)
  | pop
  | popBack
  | del (elt : Nat)
  | rotate

namespace ListCall

/-- What it does to memory. -/
def run (head : Nat) : ListCall → Mem → Mem
  | push elt, m => m.listPush head elt
  | pushBack elt, m => m.listPushBack head elt
  | pop, m => m.listPop head
  | popBack, m => m.listPopBack head
  | del elt, m => m.listDel elt
  | rotate, m => m.listRotate head

/-- What it does to a sequence. -/
def on : ListCall → List Nat → List Nat
  | push elt, l => elt :: l
  | pushBack elt, l => l ++ [elt]
  | pop, l => l.tail
  | popBack, l => l.dropLast
  | del elt, l => l.erase elt
  | rotate, l => l.rotate 1

/-- A node is put in if it is not in, a list is popped if it has a node,
and a node is taken out if it is in. -/
def Allowed (head : Nat) (l : List Nat) : ListCall → Prop
  | push elt => elt ∉ head :: l
  | pushBack elt => elt ∉ head :: l
  | pop => l ≠ []
  | popBack => l ≠ []
  | del elt => elt ∈ l
  | rotate => True

instance (head : Nat) (l : List Nat) (c : ListCall) :
    Decidable (c.Allowed head l) :=
  match c with
  | .push elt => inferInstanceAs (Decidable (elt ∉ head :: l))
  | .pushBack elt => inferInstanceAs (Decidable (elt ∉ head :: l))
  | .pop => inferInstanceAs (Decidable (l ≠ []))
  | .popBack => inferInstanceAs (Decidable (l ≠ []))
  | .del elt => inferInstanceAs (Decidable (elt ∈ l))
  | .rotate => inferInstanceAs (Decidable True)

/-- The node that is put in. -/
def elts : ListCall → List Nat
  | push elt => [elt]
  | pushBack elt => [elt]
  | _ => []

end ListCall

/-- The list at `head` is the sequence `l` of distinct nodes: following
`next` from the head visits them and returns, and `prev` is the way
back. -/
structure ListIn (m : Mem) (head : Nat) (l : List Nat) : Prop where
  ring : Ring m.links head l
  nodes : Nodes (head :: l)

/-- One call that is allowed, with a node of `N` if it puts one in. -/
inductive ListStep (N : List Nat) (head : Nat) :
    Mem × List Nat → ListCall → Mem × List Nat → Prop
  | call {m : Mem} {l : List Nat} {c : ListCall} (ha : c.Allowed head l)
      (he : ∀ p ∈ c.elts, p ∈ N) :
      ListStep N head (m, l) c (c.run head m, c.on l)

-- ================================================================== rings

namespace Ring

variable {m : Links Nat} {head a z : Nat} {l : List Nat}

/-- `init_head` makes an empty ring. -/
theorem initHead (m : Links Nat) (head : Nat) :
    Ring (m.initHead head) head [] := by
  refine ⟨List.nodup_singleton head, ?_, ?_⟩
  · show ((m.setNext head head).setPrev head head).next head = head
    rw [Links.setPrev_next, Links.setNext_next, if_pos rfl]
  · show ((m.setNext head head).setPrev head head).prev head = head
    rw [Links.setPrev_prev, if_pos rfl]

/-- A node that is out of the ring can be cleared. -/
theorem clear (hr : Ring m head l) (ha : a ∉ head :: l) :
    Ring ((m.setNext a 0).setPrev a 0) head l := by
  refine hr.congr (fun p hp => ?_) fun p hp => ?_
  · rw [Links.setPrev_next, Links.setNext_next,
      if_neg (ne_of_mem_of_not_mem hp ha)]
  · rw [Links.setPrev_prev, Links.setNext_prev,
      if_neg (ne_of_mem_of_not_mem hp ha)]

/-- `pop` is `del` of the first element, which is then cleared. -/
theorem pop (hr : Ring m head (a :: l)) : Ring (m.pop head) head l := by
  have hd : Ring (m.del a) head ([] ++ l) := Ring.del hr
  obtain ⟨⟨hnext, hprev⟩, -⟩ := hr.seg
  have hne : a ≠ head := fun h => hr.head_notMem (h ▸ List.mem_cons_self)
  have heq : m.pop head = ((m.del a).setNext a 0).setPrev a 0 := by
    unfold Links.pop Links.del
    simp only [hnext, hprev, Links.setNext_next, Links.setNext_prev,
      if_true, if_neg hne]
  rw [heq]
  refine hd.clear fun h => ?_
  rcases List.mem_cons.mp h with h | h
  · exact hne h
  · have hnd := (List.nodup_cons.mp hr.nodup).2
    exact (List.nodup_cons.mp hnd).1 h

/-- `pop_back` is `del` of the last element, which is then cleared. -/
theorem popBack (hr : Ring m head (l ++ [z])) :
    Ring (m.popBack head) head l := by
  have hd : Ring (m.del z) head (l ++ []) := Ring.del hr
  have hpz := hr.ne_prev
  obtain ⟨-, hnext, hprev⟩ := Seg.append_iff.mp hr.seg
  have heq : m.popBack head = ((m.del z).setNext z 0).setPrev z 0 := by
    unfold Links.popBack Links.del
    simp only [hnext, hprev, Links.setNext_next, Links.setNext_prev,
      Links.setPrev_prev, if_neg hpz]
    rfl
  rw [heq]
  rw [List.append_nil] at hd
  refine hd.clear fun h => ?_
  rcases List.mem_cons.mp h with h | h
  · exact hr.head_notMem (h ▸ by simp)
  · have hnd := (List.nodup_cons.mp hr.nodup).2
    exact (List.nodup_append.mp hnd).2.2 z h z (by simp) rfl

/-- `empty` looks at one link: a ring whose head follows itself has no
element. -/
theorem empty_iff (hr : Ring m head l) : m.empty head ↔ l.length = 0 := by
  rw [List.length_eq_zero_iff, ← hr.next_head_iff]
  exact eq_comm

/-- A list whose head has the same neighbour twice has one element. -/
theorem singular_iff (hr : Ring m head l) :
    m.singular head ↔ l.length = 1 := by
  unfold Links.singular
  rw [hr.empty_iff]
  match l with
  | [] => simp
  | [a] =>
      have hend : m.next head = m.prev head :=
        hr.first.trans hr.seg.2.2.symm
      simp [hend]
  | a :: b :: l =>
      have he := Links.ends hr
      have hne : m.next head ≠ m.prev head := by
        rw [he.first]
        exact he.last_ne'.symm
      simp [hne]

end Ring

-- ================================================================= on memory

namespace Mem

variable {m : Mem} {N N' l : List Nat} {head : Nat}

/-- Fewer nodes are apart all the more. -/
theorem Nodes.sub (hN : Nodes N) (h : ∀ p ∈ N', p ∈ N) : Nodes N' :=
  ⟨fun p hp => hN.lt p (h p hp),
    fun p hp q hq => hN.apart p (h p hp) q (h q hq)⟩

/-- `list_pop` reads two links down the list, so the two nodes have to be
there. -/
theorem listPop_edit (hN : Nodes N) (hh : head ∈ N)
    (hf : m.links.next head ∈ N)
    (hs : m.links.next (m.links.next head) ∈ N) :
    Edit N m (m.listPop head) (m.links.pop head) := by
  have h1 := (Edit.start N m).setNext hN hh (hN.lt _ hs)
  have hfirst : (m.links.setNext head
      (m.links.next (m.links.next head))).next head
        = m.links.next (m.links.next head) := by
    rw [Links.setNext_next, if_pos rfl]
  have h2 := h1.setPrev hN hs (hN.lt head hh)
  have h3 := h2.setNext hN hf (Nat.two_pow_pos 32)
  have h4 := h3.setPrev hN hf (Nat.two_pow_pos 32)
  unfold listPop Links.pop
  dsimp only
  rw [h1.next head hh, hfirst]
  exact h4

/-- `list_pop_back` does it from the other end. -/
theorem listPopBack_edit (hN : Nodes N) (hh : head ∈ N)
    (hl : m.links.prev head ∈ N)
    (hs : m.links.prev (m.links.prev head) ∈ N) :
    Edit N m (m.listPopBack head) (m.links.popBack head) := by
  have h1 := (Edit.start N m).setPrev hN hh (hN.lt _ hs)
  have hlast : (m.links.setPrev head
      (m.links.prev (m.links.prev head))).prev head
        = m.links.prev (m.links.prev head) := by
    rw [Links.setPrev_prev, if_pos rfl]
  have h2 := h1.setNext hN hs (hN.lt head hh)
  have h3 := h2.setNext hN hl (Nat.two_pow_pos 32)
  have h4 := h3.setPrev hN hl (Nat.two_pow_pos 32)
  unfold listPopBack Links.popBack
  dsimp only
  rw [h1.prev head hh, hlast]
  exact h4

end Mem

variable {m m' : Mem} {L : Links Nat} {N l l' : List Nat} {head : Nat}
  {c : ListCall}

/-- A call brings in its own elements only. -/
theorem ListCall.mem_on {p : Nat} (hp : p ∈ c.on l) : p ∈ c.elts ++ l := by
  cases c with
  | push e => exact hp
  | pushBack e => exact (List.perm_append_singleton e l).mem_iff.mp hp
  | pop => exact List.mem_of_mem_tail hp
  | popBack => exact List.mem_of_mem_dropLast hp
  | del e => exact List.mem_of_mem_erase hp
  | rotate => exact List.mem_rotate.mp hp

/-- Each call writes links of nodes, and leaves the ring of the sequence
that it is for. -/
theorem ListCall.edits (hr : Ring m.links head l) (ha : c.Allowed head l)
    (hN : Nodes (c.elts ++ head :: l)) :
    ∃ L, Edit (c.elts ++ head :: l) m (c.run head m) L
      ∧ Ring L head (c.on l) := by
  have hnext : m.links.next head ∈ head :: l := hr.next_mem List.mem_cons_self
  have hprev : m.links.prev head ∈ head :: l := hr.seg.prev_mem
  have hin : ∀ e, ∀ p ∈ head :: l, p ∈ e :: head :: l :=
    fun e p hp => List.mem_cons_of_mem e hp
  cases c with
  | push e =>
      have hne : e ≠ head := fun h => ha (h ▸ List.mem_cons_self)
      exact ⟨_, Mem.listPush_edit hN (hin e head List.mem_cons_self)
        List.mem_cons_self hne (hin e _ hnext), hr.push ha⟩
  | pushBack e =>
      have hne : e ≠ head := fun h => ha (h ▸ List.mem_cons_self)
      exact ⟨_, Mem.listPushBack_edit hN (hin e head List.mem_cons_self)
        List.mem_cons_self hne (hin e _ hprev), hr.pushBack ha⟩
  | pop =>
      cases l with
      | nil => exact absurd rfl ha
      | cons a l =>
          exact ⟨_, Mem.listPop_edit hN List.mem_cons_self hnext
            (hr.next_mem hnext), hr.pop⟩
  | popBack =>
      rcases List.eq_nil_or_concat l with rfl | ⟨l, z, rfl⟩
      · exact absurd rfl ha
      · rw [List.concat_eq_append] at *
        obtain ⟨hs, -, hlast⟩ := Seg.append_iff.mp hr.seg
        -- the last element has another one before it, or the head
        have hbefore : m.links.prev (m.links.prev head)
            ∈ head :: (l ++ [z]) := by
          rw [hlast]
          exact List.mem_append_left [z] hs.prev_mem
        have hon : ListCall.popBack.on (l ++ [z]) = l :=
          List.dropLast_concat
        rw [hon]
        exact ⟨_, Mem.listPopBack_edit hN List.mem_cons_self hprev hbefore,
          hr.popBack⟩
  | del e =>
      obtain ⟨l₁, l₂, rfl⟩ := List.append_of_mem ha
      have hmem : e ∈ head :: (l₁ ++ e :: l₂) := List.mem_cons_of_mem head ha
      have hbefore : m.links.prev e ∈ head :: (l₁ ++ e :: l₂) :=
        List.mem_append_left (e :: l₂) (Seg.append_iff.mp hr.seg).1.prev_mem
      have hnot : e ∉ l₁ := fun h =>
        (List.nodup_append.mp (List.nodup_cons.mp hr.nodup).2).2.2 e h e
          List.mem_cons_self rfl
      have hon : (ListCall.del e).on (l₁ ++ e :: l₂) = l₁ ++ l₂ := by
        show (l₁ ++ e :: l₂).erase e = l₁ ++ l₂
        rw [List.erase_append_right _ hnot, List.erase_cons_head]
      rw [hon]
      exact ⟨_, Mem.listDel_edit hN hmem (hr.next_mem hmem) hbefore
        hr.ne_prev, hr.del⟩
  | rotate =>
      have hrot := hr.rotate
      rw [Sched.rotate_eq] at hrot
      exact ⟨_, Mem.listRotate_edit hN hr fun p hp => hp, hrot⟩

/-- Each call keeps the list, and writes no node but those of the list and
the one that it puts in. -/
theorem ListCall.keeps (hl : ListIn m head l) (ha : c.Allowed head l)
    (hN : Nodes (c.elts ++ head :: l)) :
    ListIn (c.run head m) head (c.on l)
      ∧ Wrote (OffNodes (c.elts ++ head :: l)) m (c.run head m) := by
  obtain ⟨L, he, hr⟩ := ListCall.edits hl.ring ha hN
  have hsub : ∀ p ∈ head :: c.on l, p ∈ c.elts ++ head :: l := by
    intro p hp
    refine List.perm_middle.mem_iff.mpr ?_
    rcases List.mem_cons.mp hp with rfl | hp
    · exact List.mem_cons_self
    · exact List.mem_cons_of_mem head (ListCall.mem_on hp)
  exact ⟨⟨he.ring hr hsub, hN.sub hsub⟩, he.wrote⟩

/-- A head, the last, and three nodes for it. -/
def sampleList : List Nat := [0x4000, 0x3000, 0x2000, 0x1000]

/-- Four nodes that do not overlap. -/
theorem sampleNodes : Nodes sampleList := ⟨by decide, by decide⟩

/-- A head that has just been made. -/
theorem listIn_initHead (hN : Nodes N) (hh : head ∈ N) (m : Mem) :
    ListIn (m.listInitHead head) head [] := by
  have hsub : ∀ p ∈ [head], p ∈ N := by
    intro p hp
    rw [List.mem_singleton.mp hp]
    exact hh
  exact ⟨(Mem.listInitHead_edit hN hh).ring (Ring.initHead m.links head) hsub,
    hN.sub hsub⟩

/-- The intrusive list is a sequence: `push`, `push_back`, `pop`,
`pop_back`, `del` and `rotate` do to it in memory what they do to the
sequence, and `empty` and `singular` say how long it is. -/
theorem list_refines (hl : ListIn m head l) :
    (∀ c : ListCall, c.Allowed head l → Nodes (c.elts ++ head :: l) →
      ListIn (c.run head m) head (c.on l)
        ∧ Wrote (OffNodes (c.elts ++ head :: l)) m (c.run head m))
    ∧ (m.links.empty head ↔ l.length = 0)
    ∧ (m.links.singular head ↔ l.length = 1) :=
  ⟨fun _ ha hN => ListCall.keeps hl ha hN, hl.ring.empty_iff,
    hl.ring.singular_iff⟩

/-- The three nodes are put in, the second at the back. -/
def sampleMem : Mem :=
  ((((Mem.new fun _ => 0).listInitHead 0x1000).listPush 0x1000
    0x2000).listPushBack 0x1000 0x3000).listPush 0x1000 0x4000

/-- The list of the examples has three elements to start with. -/
theorem listIn_sampleMem :
    ListIn sampleMem 0x1000 [0x4000, 0x2000, 0x3000] := by
  have hh : 0x1000 ∈ sampleList := by decide
  have h0 := listIn_initHead sampleNodes hh (Mem.new fun _ => 0)
  have h1 := (ListCall.keeps (c := .push 0x2000) h0 (by decide)
    (sampleNodes.sub (by decide))).1
  have h2 := (ListCall.keeps (c := .pushBack 0x3000) h1 (by decide)
    (sampleNodes.sub (by decide))).1
  exact (ListCall.keeps (c := .push 0x4000) h2 (by decide)
    (sampleNodes.sub (by decide))).1

/-- The calls that take a node out of three, or turn them. -/
theorem list_refines_sample :
    ListIn (sampleMem.listPop 0x1000) 0x1000 [0x2000, 0x3000]
    ∧ ListIn (sampleMem.listPopBack 0x1000) 0x1000 [0x4000, 0x2000]
    ∧ ListIn (sampleMem.listDel 0x2000) 0x1000 [0x4000, 0x3000]
    ∧ ListIn (sampleMem.listRotate 0x1000) 0x1000 [0x2000, 0x3000, 0x4000]
    ∧ ¬sampleMem.links.singular 0x1000 := by
  obtain ⟨hcalls, -, hone⟩ := list_refines listIn_sampleMem
  have hN : Nodes [0x1000, 0x4000, 0x2000, 0x3000] :=
    sampleNodes.sub (by decide)
  exact ⟨(hcalls .pop (by decide) hN).1, (hcalls .popBack (by decide) hN).1,
    (hcalls (.del 0x2000) (by decide) hN).1, (hcalls .rotate trivial hN).1,
    fun h => absurd (hone.mp h) (by decide)⟩

-- ============================================================== whole runs

/-- The call, if it is allowed. -/
def ListStep.next (N : List Nat) (head : Nat) (c : ListCall)
    (s : Mem × List Nat) : Option (Mem × List Nat) :=
  if c.Allowed head s.2 ∧ ∀ p ∈ c.elts, p ∈ N then
    some (c.run head s.1, c.on s.2)
  else none

/-- A step that was computed is one that the relation allows. -/
theorem ListStep.of_next {s s' : Mem × List Nat}
    (h : ListStep.next N head c s = some s') : ListStep N head s c s' := by
  unfold ListStep.next at h
  split at h
  case isTrue hc =>
    cases h
    exact .call hc.1 hc.2
  case isFalse => cases h

/-- A step keeps the list in memory, and its elements among the nodes. -/
theorem ListStep.keeps {s s' : Mem × List Nat} (hN : Nodes N) (hh : head ∈ N)
    (hl : ListIn s.1 head s.2) (hsub : ∀ p ∈ s.2, p ∈ N)
    (hs : ListStep N head s c s') :
    ListIn s'.1 head s'.2 ∧ ∀ p ∈ s'.2, p ∈ N := by
  cases hs with
  | @call m l c ha he =>
      have hin : ∀ p ∈ c.elts ++ head :: l, p ∈ N := by
        intro p hp
        rcases List.mem_append.mp hp with hp | hp
        · exact he p hp
        · rcases List.mem_cons.mp hp with rfl | hp
          · exact hh
          · exact hsub p hp
      refine ⟨(ListCall.keeps hl ha (hN.sub hin)).1, fun p hp => ?_⟩
      rcases List.mem_append.mp (ListCall.mem_on hp) with hp | hp
      · exact he p hp
      · exact hsub p hp

/-- What calls from `init_head` on make is a list, if each is allowed in its
turn. -/
theorem run_listIn {m₀ : Mem} {tr : List ((Mem × List Nat) × ListCall)}
    {s : Mem × List Nat} (hN : Nodes N) (hh : head ∈ N)
    (hr : Run (ListStep N head) (m₀.listInitHead head, []) tr s) :
    ListIn s.1 head s.2 := by
  have hinv : ListIn s.1 head s.2 ∧ ∀ p ∈ s.2, p ∈ N :=
    hr.invariant (P := fun s => ListIn s.1 head s.2 ∧ ∀ p ∈ s.2, p ∈ N)
      (fun _ _ => True) (fun _ _ => trivial)
      ⟨listIn_initHead hN hh m₀, nofun⟩
      fun _ _ _ hP _ hs => hs.keeps hN hh hP.1 hP.2
  exact hinv.1

-- ==================================================================== size

/-- The loop of `size` from a node on counts that node and what is behind
it. -/
theorem sizeLoop_ret {a n fuel : Nat} (hs : Seg L a l head) (hnot : head ∉ l)
    (hlen : n + l.length + 1 < 2 ^ 32) (hfuel : l.length < fuel) :
    L.sizeLoop head fuel a n = .ret (n + l.length + 1) := by
  induction l generalizing a n fuel with
  | nil =>
      obtain ⟨fuel, rfl⟩ : ∃ k, fuel = k + 1 := ⟨fuel - 1, by omega⟩
      unfold Links.sizeLoop
      dsimp only
      rw [hs.1, if_neg (not_not.mpr rfl)]
      exact congrArg Outcome.ret (u32_of_lt hlen)
  | cons b l ih =>
      obtain ⟨fuel, rfl⟩ : ∃ k, fuel = k + 1 := ⟨fuel - 1, by omega⟩
      rw [List.mem_cons, not_or] at hnot
      rw [List.length_cons] at hlen hfuel
      have hrest := ih (n := n + 1) hs.2 hnot.2 (by omega)
        (Nat.lt_of_succ_lt_succ hfuel)
      unfold Links.sizeLoop
      dsimp only
      rw [hs.1.1, if_pos (Ne.symm hnot.1), u32_of_lt (by omega), hrest,
        List.length_cons]
      refine congrArg Outcome.ret ?_
      omega

/-- A list in memory has fewer than 2^32 elements, which is why its size
fits a `u32`. -/
theorem ListIn.length_lt (hl : ListIn m head l) : l.length < 2 ^ 32 := by
  have hsub : head :: l ⊆ List.range (2 ^ 32) :=
    fun p hp => List.mem_range.mpr (hl.nodes.lt p hp)
  have hle := (List.subperm_of_subset hl.ring.nodup hsub).length_le
  rw [List.length_cons, List.length_range] at hle
  exact hle

/-- `size` starts at the first element and goes on before it looks, so it
counts the head of an empty list. -/
theorem ListIn.size_gives (hl : ListIn m head l) :
    Gives (fun fuel => m.links.size head fuel) (max 1 l.length) := by
  have hlt := hl.length_lt
  have hseg := hl.ring.seg
  refine ⟨l.length + 1, fun fuel hfuel => ?_⟩
  show m.links.sizeLoop head fuel (m.links.next head) 0 = _
  cases l with
  | nil =>
      have hnext : m.links.next head = head := hseg.1
      rw [hnext]
      exact sizeLoop_ret hseg (List.not_mem_nil) (by decide) hfuel
  | cons a l =>
      have hnot : head ∉ l := fun h =>
        hl.ring.head_notMem (List.mem_cons_of_mem a h)
      rw [List.length_cons] at hlt hfuel
      rw [hl.ring.first, sizeLoop_ret hseg.2 hnot (by omega) (by omega),
        List.length_cons]
      refine congrArg Outcome.ret ?_
      omega

/-- `size` counts every list but the empty one, also after any calls from
`init_head` on. -/
theorem size_counts_iff (head : Nat) :
    (∀ {m : Mem} {l : List Nat}, ListIn m head l →
      (Gives (fun fuel => m.links.size head fuel) l.length ↔ l ≠ []))
    ∧ ∀ {N l : List Nat} {m₀ m : Mem}
        {tr : List ((Mem × List Nat) × ListCall)}, Nodes N → head ∈ N →
        Run (ListStep N head) (m₀.listInitHead head, []) tr (m, l) →
        ListIn m head l
          ∧ (Gives (fun fuel => m.links.size head fuel) l.length ↔ l ≠ []) := by
  have hlist : ∀ {m : Mem} {l : List Nat}, ListIn m head l →
      (Gives (fun fuel => m.links.size head fuel) l.length ↔ l ≠ []) := by
    intro m l hl
    constructor
    · rintro hg rfl
      exact absurd (hg.unique hl.size_gives) (by decide)
    · intro hne
      have hpos := List.length_pos_iff.mpr hne
      have hg := hl.size_gives
      rwa [Nat.max_eq_right hpos] at hg
  exact ⟨hlist, fun hN hh hr =>
    ⟨run_listIn hN hh hr, hlist (run_listIn hN hh hr)⟩⟩

/-- Seven calls from `init_head` on: three nodes go in, the list is turned,
one of them is taken out and put back, and the first is popped. -/
theorem size_counts_sample : ∃ tr m,
    Run (ListStep sampleList 0x1000)
      ((Mem.new fun _ => 0).listInitHead 0x1000, []) tr
      (m, [0x4000, 0x3000])
    ∧ Gives (fun fuel => m.links.size 0x1000 fuel) 2 := by
  have hcalls : (Run.follow (ListStep.next sampleList 0x1000)
      (fun _ _ => true)
      [.push 0x2000, .pushBack 0x3000, .push 0x4000, .rotate, .del 0x3000,
        .pushBack 0x3000, .pop]
      ((Mem.new fun _ => 0).listInitHead 0x1000, [])).map Prod.snd
      = some [0x4000, 0x3000] := by decide
  obtain ⟨tr, ⟨m, l⟩, hr, -, rfl⟩ :=
    Run.of_follow_map (fun _ _ _ => ListStep.of_next) hcalls
  exact ⟨tr, m, hr,
    ((size_counts_iff 0x1000).2 sampleNodes (by decide) hr).2.mpr (by decide)⟩

/-- A list that has just been made is empty, and its size is 1. -/
theorem size_of_empty :
    ¬∀ (m : Mem) (head : Nat) (l : List Nat), ListIn m head l →
      Gives (fun fuel => m.links.size head fuel) l.length := by
  intro h
  have hh : 0x1000 ∈ sampleList := by decide
  have hl := listIn_initHead sampleNodes hh (Mem.new fun _ => 0)
  exact absurd ((h _ _ _ hl).unique hl.size_gives) (by decide)

end Ntibux
