/-
Circular doubly linked lists: the list that the links spell from a head
that is a node like the others, so that nothing is null and the last
element links back to the head.

`Seg m a l c` is the way from `a` over exactly `l` to `c`; a ring is a
way from the head to itself (`Ring`). The lemmas are those of a segment:
it can be cut at any node, it survives what leaves its own links alone
(`Seg.congr`), and its far end can be moved by one link
(`Seg.redirect`).
-/
import Mathlib.Logic.Function.Basic
import Mathlib.Data.List.Basic

namespace Ntibux

/-- The two links of every node. -/
structure Links (α : Type) where
  next : α → α
  prev : α → α

namespace Links

variable {α : Type} [DecidableEq α] (m : Links α) (a b c : α)

def setNext : Links α := { m with next := Function.update m.next a b }

def setPrev : Links α := { m with prev := Function.update m.prev a b }

@[simp] theorem setNext_prev : (m.setNext a b).prev = m.prev := rfl

@[simp] theorem setPrev_next : (m.setPrev a b).next = m.next := rfl

theorem setNext_next :
    (m.setNext a b).next c = if c = a then b else m.next c :=
  Function.update_apply m.next a b c

theorem setPrev_prev :
    (m.setPrev a b).prev c = if c = a then b else m.prev c :=
  Function.update_apply m.prev a b c

end Links

variable {α : Type} {m m' : Links α} {a b c c' : α} {l l' : List α}

-- ============================================================= segments

/-- `b` comes right after `a`, by both links. -/
def Joined (m : Links α) (a b : α) : Prop := m.next a = b ∧ m.prev b = a

/-- From `a` over exactly `l` to `c`. -/
def Seg (m : Links α) : α → List α → α → Prop
  | a, [], c => Joined m a c
  | a, b :: l, c => Joined m a b ∧ Seg m b l c

namespace Seg

@[simp] theorem nil_iff : Seg m a [] c ↔ Joined m a c := Iff.rfl

@[simp] theorem cons_iff :
    Seg m a (b :: l) c ↔ Joined m a b ∧ Seg m b l c := Iff.rfl

/-- A segment is cut at a node of it. -/
theorem append_iff :
    Seg m a (l ++ b :: l') c ↔ Seg m a l b ∧ Seg m b l' c := by
  induction l generalizing a with
  | nil => rfl
  | cons x l ih =>
      rw [List.cons_append, cons_iff, cons_iff, ih, and_assoc]

/-- A segment survives any change that keeps the links along it. -/
theorem congr (hs : Seg m a l c)
    (hnext : ∀ x ∈ a :: l, m'.next x = m.next x)
    (hprev : ∀ x ∈ l ++ [c], m'.prev x = m.prev x) : Seg m' a l c := by
  induction l generalizing a with
  | nil =>
      obtain ⟨h1, h2⟩ := hs
      exact ⟨(hnext a (by simp)).trans h1, (hprev c (by simp)).trans h2⟩
  | cons b l ih =>
      obtain ⟨⟨h1, h2⟩, hs⟩ := hs
      have hnext' : ∀ x ∈ b :: l, m'.next x = m.next x :=
        fun x hx => hnext x (List.mem_cons_of_mem a hx)
      have hprev' : ∀ x ∈ l ++ [c], m'.prev x = m.prev x :=
        fun x hx => hprev x (List.mem_cons_of_mem b hx)
      exact ⟨⟨(hnext a (by simp)).trans h1, (hprev b (by simp)).trans h2⟩,
        ih hs hnext' hprev'⟩

/-- The node before the end is one of the segment's own. -/
theorem prev_mem (hs : Seg m a l c) : m.prev c ∈ a :: l := by
  induction l generalizing a with
  | nil => exact List.mem_singleton.mpr hs.2
  | cons b l ih => exact List.mem_cons_of_mem a (ih hs.2)

/-- The last node of a segment links to a new end. -/
theorem redirect (hs : Seg m a l c) (hnd : (a :: l).Nodup)
    (hnext : ∀ x ∈ a :: l, x ≠ m.prev c → m'.next x = m.next x)
    (hprev : ∀ x ∈ l, m'.prev x = m.prev x)
    (hlast : Joined m' (m.prev c) c') : Seg m' a l c' := by
  induction l generalizing a with
  | nil =>
      obtain ⟨-, h2⟩ := hs
      rwa [h2] at hlast
  | cons b l ih =>
      obtain ⟨⟨h1, h2⟩, hs⟩ := hs
      have hne : a ≠ m.prev c := by
        intro heq
        exact (List.nodup_cons.mp hnd).1 (heq ▸ hs.prev_mem)
      refine ⟨⟨?_, ?_⟩, ?_⟩
      · rw [hnext a (by simp) hne]
        exact h1
      · rw [hprev b (by simp)]
        exact h2
      · exact ih hs (List.nodup_cons.mp hnd).2
          (fun x hx => hnext x (List.mem_cons_of_mem a hx))
          (fun x hx => hprev x (List.mem_cons_of_mem b hx))

/-- The way to the first visit of a node is the only one. -/
theorem unique (hs : Seg m a l c) (hs' : Seg m a l' c) (hl : c ∉ l)
    (hl' : c ∉ l') : l = l' := by
  induction l generalizing a l' with
  | nil =>
      cases l' with
      | nil => rfl
      | cons b l' =>
          have heq : c = b := hs.1.symm.trans hs'.1.1
          exact absurd (heq ▸ List.mem_cons_self) hl'
  | cons b l ih =>
      cases l' with
      | nil =>
          have heq : c = b := hs'.1.symm.trans hs.1.1
          exact absurd (heq ▸ List.mem_cons_self) hl
      | cons b' l' =>
          obtain rfl : b = b' := hs.1.1.symm.trans hs'.1.1
          rw [ih hs.2 hs'.2 (fun h => hl (List.mem_cons_of_mem b h))
            fun h => hl' (List.mem_cons_of_mem b h)]

end Seg

-- ================================================================ rings

/-- The links from `head` spell `l` and come back. -/
structure Ring (m : Links α) (head : α) (l : List α) : Prop where
  nodup : (head :: l).Nodup
  seg : Seg m head l head

namespace Ring

variable {head : α}

theorem head_notMem (hr : Ring m head l) : head ∉ l :=
  (List.nodup_cons.mp hr.nodup).1

/-- Links spell one ring from a head. -/
theorem unique (hr : Ring m head l) (hr' : Ring m head l') : l = l' :=
  hr.seg.unique hr'.seg hr.head_notMem hr'.head_notMem

/-- The first element, and the way from it to the rest. -/
theorem first (hr : Ring m head (a :: l)) : m.next head = a := hr.seg.1.1

/-- The head of an empty ring, and of no other, links to itself. -/
theorem next_head_iff (hr : Ring m head l) : m.next head = head ↔ l = [] := by
  cases l with
  | nil => simpa using hr.seg.1
  | cons a l =>
      rw [hr.first]
      have hne : a ≠ head := by
        intro heq
        exact hr.head_notMem (heq ▸ List.mem_cons_self)
      simpa using hne

end Ring

end Ntibux
