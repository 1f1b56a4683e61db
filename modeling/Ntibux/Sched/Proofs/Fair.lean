/-
`select_next` on the links does what it does on the list they spell
(`selectNext_runList`), and the list turns by one task at each call.

So a task is the first that a scan meets in exactly one of as many calls
as the list has tasks (`turn`): if it is ready there it is returned. The
tasks' fields take no part in who is first, which is why nothing need be
known of how they change from one call to the next.
-/
import Mathlib.Data.List.Count
import Mathlib.Data.List.Rotate
import Ntibux.Sched.List

namespace Ntibux

-- ============================================================ list::rotate

namespace Links

variable {m : Links Nat} {head a b : Nat} {l : List Nat}

/-- The nodes that `rotate` works on, where there are two elements or
more. -/
structure Ends (m : Links Nat) (head a b : Nat) : Prop where
  first : m.next head = a
  second : m.next a = b
  a_ne : a ≠ head
  b_ne : b ≠ head
  ab : b ≠ a
  last_ne : m.prev head ≠ head
  last_ne' : m.prev head ≠ a

/-- A list of two elements or more has a first and a second. -/
theorem ends (hr : Ring m head (a :: b :: l)) : Ends m head a b := by
  have hnd := hr.nodup
  obtain ⟨h1, h2, hs⟩ := hr.seg
  have hlast := hs.prev_mem
  simp only [List.nodup_cons, List.mem_cons, not_or] at hnd
  obtain ⟨⟨ha, hb, hl⟩, ⟨hab, hal⟩, -⟩ := hnd
  refine ⟨h1.1, h2.1, Ne.symm ha, Ne.symm hb, Ne.symm hab, ?_, ?_⟩
  · intro heq
    rw [heq] at hlast
    rcases List.mem_cons.mp hlast with h | h
    · exact hb h
    · exact hl h
  · intro heq
    rw [heq] at hlast
    rcases List.mem_cons.mp hlast with h | h
    · exact hab h
    · exact hal h

/-- There `rotate` is six stores. -/
theorem Ends.rotate_eq (he : Ends m head a b) :
    m.rotate head =
      (((((m.setPrev b head).setNext (m.prev head) a).setNext head b).setNext
        a head).setPrev a (m.prev head)).setPrev head a := by
  have hemp : ¬m.empty head := by
    unfold empty
    rw [he.first]
    exact he.a_ne.symm
  have hsing : ¬m.singular head := by
    intro h
    rw [singular, he.first] at h
    exact he.last_ne' h.2.symm
  unfold rotate
  rw [if_neg (by simp [hemp, hsing])]
  simp only [he.first, he.second, setNext_next, setPrev_prev, setNext_prev,
    setPrev_next, if_neg he.b_ne.symm, if_neg he.last_ne'.symm]

/-- The `next` links afterwards: the first element has gone behind the last.
-/
theorem Ends.rotate_next (he : Ends m head a b) (c : Nat) :
    (m.rotate head).next c =
      if c = a then head
      else if c = head then b
      else if c = m.prev head then a else m.next c := by
  rw [he.rotate_eq]
  simp only [setPrev_next, setNext_next]

/-- The `prev` links say the same. -/
theorem Ends.rotate_prev (he : Ends m head a b) (c : Nat) :
    (m.rotate head).prev c =
      if c = head then a
      else if c = a then m.prev head
      else if c = b then head else m.prev c := by
  rw [he.rotate_eq]
  simp only [setPrev_prev, setNext_prev]

end Links

namespace Ring

variable {m : Links Nat} {head : Nat} {l : List Nat}

/-- `rotate` moves the first element to the end. -/
theorem rotate (hr : Ring m head l) :
    Ring (m.rotate head) head (Sched.rotate l) := by
  match l with
  | [] =>
      have hemp : m.empty head := hr.seg.1.symm
      unfold Links.rotate
      rwa [if_pos (Or.inl hemp)]
  | [a] =>
      have hemp : ¬m.empty head := by
        intro h
        exact List.cons_ne_nil a [] (hr.next_head_iff.mp h.symm)
      have hsing : m.singular head :=
        ⟨hemp, hr.first.trans hr.seg.2.2.symm⟩
      unfold Links.rotate
      rwa [if_pos (Or.inr hsing)]
  | a :: b :: l =>
      have he := Links.ends hr
      have hnd := hr.nodup
      obtain ⟨h1, h2, hs⟩ := hr.seg
      simp only [List.nodup_cons, List.mem_cons, not_or] at hnd
      obtain ⟨⟨-, -, hl⟩, ⟨-, hal⟩, hbl, hndl⟩ := hnd
      constructor
      · have hperm : (head :: (b :: l ++ [a])).Perm (head :: a :: b :: l) :=
          List.Perm.cons head (List.perm_append_singleton a (b :: l))
        exact hperm.nodup_iff.mpr hr.nodup
      · change Seg (m.rotate head) head ([] ++ b :: (l ++ [a])) head
        have hbl' : ∀ x ∈ b :: l, x ≠ a ∧ x ≠ head := by
          intro x hx
          rcases List.mem_cons.mp hx with rfl | hx
          · exact ⟨he.ab, he.b_ne⟩
          · exact ⟨fun h => hal (h ▸ hx), fun h => hl (h ▸ hx)⟩
        refine ⟨⟨?_, ?_⟩, ?_⟩
        · rw [he.rotate_next, if_neg he.a_ne.symm, if_pos rfl]
        · rw [he.rotate_prev, if_neg he.b_ne, if_neg he.ab, if_pos rfl]
        -- the rest of the list ends at `a` now, and `a` at the head
        refine Seg.append_iff.mpr ⟨?_, ?_, ?_⟩
        · apply hs.redirect
          · exact List.nodup_cons.mpr ⟨hbl, hndl⟩
          · intro x hx hne
            rw [he.rotate_next, if_neg (hbl' x hx).1, if_neg (hbl' x hx).2,
              if_neg hne]
          · intro x hx
            have hx' := hbl' x (List.mem_cons_of_mem b hx)
            rw [he.rotate_prev, if_neg hx'.2, if_neg hx'.1,
              if_neg (ne_of_mem_of_not_mem hx hbl)]
          · refine ⟨?_, ?_⟩
            · rw [he.rotate_next, if_neg he.last_ne', if_neg he.last_ne,
                if_pos rfl]
            · rw [he.rotate_prev, if_neg he.a_ne, if_pos rfl]
        · rw [he.rotate_next, if_pos rfl]
        · rw [he.rotate_prev, if_pos rfl]

end Ring

namespace Sched

variable {m : Links Nat} {head p turns t : Nat} {l : List Nat} {c : Scan}

-- ========================================================= the loop's list

/-- The list turns by one. -/
theorem rotate_eq (l : List Nat) : rotate l = l.rotate 1 := by
  cases l with
  | nil => rfl
  | cons a l => simp [rotate]

/-- It does not matter what stands in it. -/
theorem rotate_map (f : Nat → Nat) (l : List Nat) :
    rotate (l.map f) = (rotate l).map f := by
  rw [rotate_eq, rotate_eq, List.map_rotate]

/-- The loop meets the tasks that the links spell, in their order. -/
theorem selectFrom_eq {ticks : Nat} {f : Nat → Task}
    (hs : Seg m p (l.map member) head) (hnot : head ∉ l.map member)
    (hhead : head < 2 ^ 32) (hlt : ∀ t ∈ l, t < 2 ^ 32)
    (hturns : l.length < turns) :
    selectFrom ticks m head turns (listEntry (m.next p)) f =
      some (selectLoop ticks l f) := by
  induction l generalizing p turns f with
  | nil =>
      obtain ⟨turns, rfl⟩ := Nat.exists_eq_add_of_lt hturns
      rw [hs.1]
      unfold selectFrom selectLoop
      rw [if_pos (member_listEntry hhead)]
  | cons t l ih =>
      obtain ⟨turns, rfl⟩ : ∃ n, turns = n + 1 :=
        Nat.exists_eq_succ_of_ne_zero (by omega)
      obtain ⟨⟨h1, -⟩, hs⟩ := hs
      have hne : member t ≠ head := by
        intro h
        exact hnot (h ▸ List.mem_cons_self)
      have hrest (f : Nat → Task) :
          selectFrom ticks m head turns (listEntry (m.next (member t))) f =
            some (selectLoop ticks l f) := by
        apply ih hs
        · exact fun h => hnot (List.mem_cons_of_mem _ h)
        · exact fun u hu => hlt u (List.mem_cons_of_mem t hu)
        · rw [List.length_cons] at hturns
          omega
      rw [h1, listEntry_member (hlt t List.mem_cons_self)]
      unfold selectFrom selectLoop
      rw [if_neg hne]
      simp only [hrest]
      split
      · split
        · rfl
        · rfl
      · rfl

namespace RunList

/-- `rotate` on memory turns the list that is there. -/
theorem rotate (h : RunList m head l) :
    RunList (m.rotate head) head (rotate l) := by
  constructor
  · rw [← rotate_map]
    exact h.ring.rotate
  · exact h.head_lt
  · intro t ht
    rw [rotate_eq, List.mem_rotate] at ht
    exact h.task_lt t ht

/-- No task is in the list twice. -/
theorem nodup (h : RunList m head l) : l.Nodup :=
  (List.nodup_cons.mp h.ring.nodup).2.of_map member

/-- `select_next` on the links: what it does to the list they spell. -/
theorem selectNext (h : RunList m head l) (hturns : l.length < turns) :
    c.selectNext head turns m =
      some (selectLoop c.ticks (Sched.rotate l) c.task, m.rotate head) := by
  have hr := h.rotate
  have hlen : (Sched.rotate l).length < turns := by
    rwa [rotate_eq, List.length_rotate]
  unfold Scan.selectNext
  simp only [selectFrom_eq hr.ring.seg hr.ring.head_notMem hr.head_lt
    hr.task_lt hlen, Option.map_some]

end RunList

/-- The scheduler's `selectNext` is the code's, as long as its `tasks`
are what the links spell. -/
theorem selectNext_runList {s : State} (h : RunList m head s.tasks)
    (hturns : s.tasks.length < turns) :
    Scan.selectNext ⟨s.ticks, s.task⟩ head turns m =
        some ((s.selectNext.1, s.selectNext.2.task), m.rotate head) ∧
      RunList (m.rotate head) head s.selectNext.2.tasks :=
  ⟨h.selectNext hturns, h.rotate⟩

-- ================================================================ fairness

/-- A task that `select_next` returns if it comes to it. -/
def Scan.Ready (c : Scan) (t : Nat) : Prop :=
  (c.task t).sleep = 0 ∨ (c.task t).lastSwitched + (c.task t).sleep ≤ c.ticks

/-- A task that is ready is selected when the search comes to it. -/
theorem selectLoop_ready (hready : c.Ready t) (hticks : c.ticks < 2 ^ 64) :
    (selectLoop c.ticks (t :: l) c.task).1 = some t := by
  unfold selectLoop
  split
  · rename_i hsleep
    have hle := hready.resolve_left hsleep
    have hsub : u64 (c.ticks + (2 ^ 64 - (c.task t).lastSwitched)) =
        c.ticks - (c.task t).lastSwitched := by
      unfold u64
      omega
    rw [hsub, if_pos (by omega)]
  · rfl

/-- Every call returns, and returns the task that the turns so far have
brought to the front, if it is ready then. -/
theorem selectCalls_runList {cs : List Scan} (h : RunList m head l)
    (hturns : l.length < turns) (hticks : ∀ c ∈ cs, c.ticks < 2 ^ 64) :
    ∃ out m', selectCalls head turns cs m = some (out, m') ∧
      out.length = cs.length ∧
      ∀ j c t, cs[j]? = some c → (l.rotate (j + 1)).head? = some t →
        c.Ready t → out[j]? = some (some t) := by
  induction cs generalizing m l with
  | nil => exact ⟨[], m, rfl, rfl, nofun⟩
  | cons c cs ih =>
      have hlen : (rotate l).length < turns := by
        rwa [rotate_eq, List.length_rotate]
      obtain ⟨out, m', hout, hl, hall⟩ := ih h.rotate hlen
        fun c hc => hticks c (List.mem_cons_of_mem _ hc)
      refine ⟨(selectLoop c.ticks (rotate l) c.task).1 :: out, m', ?_, ?_, ?_⟩
      · unfold selectCalls
        rw [h.selectNext hturns]
        simp only [hout, Option.map_some]
      · rw [List.length_cons, List.length_cons, hl]
      · intro j c' t hj ht hready
        cases j with
        | zero =>
            obtain rfl : c = c' := by simpa using hj
            rw [Nat.zero_add, ← rotate_eq] at ht
            obtain ⟨rest, hrest⟩ := List.head?_eq_some_iff.mp ht
            rw [hrest, selectLoop_ready hready (hticks c List.mem_cons_self)]
            rfl
        | succ j =>
            rw [List.getElem?_cons_succ] at hj ⊢
            apply hall j c' t hj _ hready
            rw [rotate_eq, List.rotate_rotate, Nat.add_comm 1]
            exact ht

/-- A task comes to the front in one of as many turns as there are
tasks. -/
theorem turn (ht : t ∈ l) :
    ∃ j < l.length, (l.rotate (j + 1)).head? = some t := by
  obtain ⟨k, hk, rfl⟩ := List.mem_iff_getElem.mp ht
  cases k with
  | zero =>
      refine ⟨l.length - 1, by omega, ?_⟩
      rw [Nat.sub_add_cancel hk, List.rotate_length, List.head?_eq_getElem?]
      exact List.getElem?_eq_getElem hk
  | succ j =>
      refine ⟨j, by omega, ?_⟩
      rw [List.head?_rotate hk]
      exact List.getElem?_eq_getElem hk

/-- Round robin: of as many calls of `select_next` as the list has tasks,
one returns a task that is ready at each of them, whatever becomes of
the tasks' fields in between; and where all tasks are, each is returned
by exactly one. -/
theorem selectCalls_fair (turns : Nat) (cs : List Scan)
    (h : RunList m head l) (hturns : l.length < turns)
    (hticks : ∀ c ∈ cs, c.ticks < 2 ^ 64)
    (hcs : cs.length = l.length) :
    ∃ out m', selectCalls head turns cs m = some (out, m') ∧
      out.length = l.length ∧
      (∀ t ∈ l, (∀ c ∈ cs, c.Ready t) → some t ∈ out) ∧
      ((∀ t ∈ l, ∀ c ∈ cs, c.Ready t) →
        ∀ t ∈ l, out.count (some t) = 1) := by
  obtain ⟨out, m', hout, hlen, hall⟩ := selectCalls_runList h hturns hticks
  have hfront (j : Nat) (hj : j < l.length) (t : Nat)
      (ht : (l.rotate (j + 1)).head? = some t)
      (hready : ∀ c ∈ cs, c.Ready t) : out[j]? = some (some t) := by
    have hj' : j < cs.length := hcs ▸ hj
    exact hall j cs[j] t (List.getElem?_eq_getElem hj') ht
      (hready cs[j] (List.getElem_mem hj'))
  refine ⟨out, m', hout, hlen.trans hcs, ?_, ?_⟩
  · intro t ht hready
    obtain ⟨j, hj, hjt⟩ := turn ht
    exact List.mem_of_getElem? (hfront j hj t hjt hready)
  · intro hready t ht
    -- each call returns the task at the front
    have heq : out = (l.rotate 1).map some := by
      apply List.ext_getElem?
      intro j
      rw [List.getElem?_map]
      by_cases hj : j < l.length
      · have hjr : j < (l.rotate 1).length := by
          rwa [List.length_rotate]
        have hmem : (l.rotate 1)[j] ∈ l :=
          List.mem_rotate.mp (List.getElem_mem hjr)
        rw [hfront j hj (l.rotate 1)[j] _ (hready _ hmem),
          List.getElem?_eq_getElem hjr]
        · rfl
        · rw [Nat.add_comm, ← List.rotate_rotate, List.head?_rotate hjr]
          exact List.getElem?_eq_getElem hjr
      · rw [List.getElem?_eq_none (by omega),
          List.getElem?_eq_none (by rw [List.length_rotate]; omega)]
        rfl
    rw [heq, List.count_map_of_injective _ some fun _ _ => Option.some.inj]
    exact List.count_eq_one_of_mem (List.nodup_rotate.mpr h.nodup)
      (List.mem_rotate.mpr ht)

/-- The head at 0, and the tasks 100 and 200. -/
def pair : Links Nat where
  next p := if p = 0 then member 100 else if p = member 100 then member 200
    else 0
  prev p := if p = 0 then member 200 else if p = member 200 then member 100
    else 0

/-- Two tasks in memory. -/
theorem pair_runList : RunList pair 0 [100, 200] := by
  refine ⟨⟨by decide, ?_⟩, by decide, by decide⟩
  simp only [List.map_cons, List.map_nil, Seg.cons_iff, Seg.nil_iff, Joined]
  decide

/-- 100 sleeps on and 200 is ready. -/
def halfAsleep : Scan where
  ticks := 0
  task t := if t = 100 then ⟨0, 0, 1, 0, none⟩ else ⟨0, 0, 0, 0, none⟩

/-- Where the first of two tasks sleeps on, two calls come to the second. -/
theorem selectCalls_fair_pair :
    ∃ out m', selectCalls 0 3 [halfAsleep, halfAsleep] pair =
      some (out, m') ∧ some 200 ∈ out := by
  obtain ⟨out, m', hout, -, hready, -⟩ :=
    selectCalls_fair 3 [halfAsleep, halfAsleep] pair_runList (by decide)
      (by decide) rfl
  refine ⟨out, m', hout, hready 200 (by decide) ?_⟩
  intro c hc
  have hmem : c = halfAsleep := by simpa using hc
  rw [hmem]
  exact Or.inl rfl

end Sched

end Ntibux
