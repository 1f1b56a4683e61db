/-
What the bytes of a task object say.

An object shows a task (`Shows`) by four fields, and every write of the
scheduler is to one field of one object, or to the links. A field of an
object is a field of no other object and none of its own other fields, so
a time that is stored changes what one object shows, in one place
(`Shows.store64`), and the stack pointer changes nothing
(`Shows.store_esp`).
-/
import Ntibux.Kernel.Reads
import Ntibux.Kernel.Proofs.TaskCalls

namespace Ntibux

-- ================================================================ stores

namespace Mem

variable {m : Mem} {a b v : Nat}

/-- The other fields of an object, 64 bits of them or 32. -/
theorem load64_field_store64 {g k : Field}
    (h : g.offset + 8 ≤ k.offset ∨ k.offset + 8 ≤ g.offset) :
    (m.store64 (field a g) v).load64 (field a k)
      = m.load64 (field a k) := by
  refine Wrote.load64 (P := fun x => x < field a g ∨ field a g + 8 ≤ x)
    (.store64 (fun _ hx => hx) v) fun x h1 h2 => ?_
  unfold field at *
  omega

theorem load_field_store64 {g k : Field}
    (h : g.offset + 8 ≤ k.offset ∨ k.offset + 4 ≤ g.offset) :
    (m.store64 (field a g) v).load (field a k) = m.load (field a k) := by
  have hw : Wrote (fun x => x < field a g ∨ field a g + 8 ≤ x) m
      (m.store64 (field a g) v) := .store64 (fun _ hx => hx) v
  refine hw.spares.load fun x h1 h2 => ?_
  unfold field at *
  omega

theorem load64_lt (m : Mem) (a : Nat) : m.load64 a < 2 ^ 64 := by
  have hlow : m.load a < 2 ^ 32 := Bytes.read32_lt ..
  have hhigh : m.load (a + 4) < 2 ^ 32 := Bytes.read32_lt ..
  unfold load64
  omega

end Mem

namespace Running

open Mem (Wrote Spares field)

variable {h : HeapState} {m m' : Mem} {o : Sched.Task}
  {f : Nat → Sched.Task} {head t u v esp : Nat} {os : List Nat}

-- ================================================================ fields

namespace Shows

/-- Nothing of the object's fields has changed. -/
theorem congr (hs : Shows m t o)
    (heq : ∀ i < Sched.TASKS_OFFSET, m'.bytes (t + i) = m.bytes (t + i)) :
    Shows m' t o := by
  have hsp : Spares (fun x => t ≤ x ∧ x < t + Sched.TASKS_OFFSET) m m' := by
    intro x hx
    obtain ⟨i, rfl⟩ := Nat.exists_eq_add_of_le hx.1
    exact heq i (by omega)
  have hwide : ∀ g : Field, g.offset + 8 ≤ Sched.TASKS_OFFSET →
      m'.load64 (field t g) = m.load64 (field t g) := by
    intro g hg
    unfold Mem.load64 field
    rw [hsp.load fun x h1 h2 => ⟨by omega, by omega⟩,
      hsp.load fun x h1 h2 => ⟨by omega, by omega⟩]
  refine ⟨?_, ?_, ?_, ?_⟩
  · rw [← hs.id]
    exact hsp.load fun x h1 h2 => ⟨h1, Nat.lt_trans h2
      (show t + 0 + 4 < t + 88 by omega)⟩
  · rw [hwide _ (by decide), hs.lastSwitched]
  · rw [hwide _ (by decide), hs.sleep]
  · rw [hwide _ (by decide), hs.cpuTime]

theorem of_fields (hs : Shows m t o) (hf : Spares (Fields os) m m')
    (ht : t ∈ os) : Shows m' t o :=
  hs.congr fun i hi => hf (t + i)
    ⟨t, ht, Nat.le_add_right t i, Nat.add_lt_add_left hi t⟩

end Shows

/-- The times among the fields. -/
inductive Time : Field → Prop
  | lastSwitched : Time .lastSwitched
  | sleep : Time .sleep
  | cpuTime : Time .cpuTime

/-- A task with one time set. -/
def setTime (g : Field) (v : Nat) (o : Sched.Task) : Sched.Task :=
  match g with
  | .lastSwitched => { o with lastSwitched := v }
  | .sleep => { o with sleep := v }
  | .cpuTime => { o with cpuTime := v }
  | _ => o

theorem Time.wide {g : Field} (hg : Time g) :
    4 ≤ g.offset ∧ g.offset + 8 ≤ Sched.TASKS_OFFSET := by
  cases hg <;> decide

/-- A time stored into an object is that object's time, and nobody
else's. -/
theorem Shows.store64 {g : Field} (hd : Housed h head os) (hg : Time g)
    (hv : v < 2 ^ 64) (ht : t ∈ os) (hu : u ∈ os)
    (hs : Shows m u (f u)) :
    Shows (m.store64 (field t g) v) u
      (Function.update f t (setTime g v (f t)) u) := by
  by_cases hut : u = t
  · subst hut
    rw [Function.update_self]
    have hself := Mem.load64_store64_self (m := m) (a := field u g) hv
    have hid : 4 ≤ g.offset := hg.wide.1
    have hid' := (Mem.load_field_store64 (m := m) (a := u) (v := v)
      (k := .id) (.inr hid)).trans hs.id
    have hother : ∀ k : Field,
        g.offset + 8 ≤ k.offset ∨ k.offset + 8 ≤ g.offset →
          (m.store64 (field u g) v).load64 (field u k)
            = m.load64 (field u k) := fun k hk => Mem.load64_field_store64 hk
    cases hg with
    | lastSwitched =>
        exact ⟨hid', hself, (hother _ (by decide)).trans hs.sleep,
          (hother _ (by decide)).trans hs.cpuTime⟩
    | sleep =>
        exact ⟨hid', (hother _ (by decide)).trans hs.lastSwitched, hself,
          (hother _ (by decide)).trans hs.cpuTime⟩
    | cpuTime =>
        exact ⟨hid', (hother _ (by decide)).trans hs.lastSwitched,
          (hother _ (by decide)).trans hs.sleep, hself⟩
  · rw [Function.update_of_ne hut]
    have hap := hd.apart hu ht hut
    obtain ⟨-, hwide⟩ := hg.wide
    have hw : Wrote (fun x => x < field t g ∨ field t g + 8 ≤ x) m
        (m.store64 (field t g) v) := .store64 (fun _ hx => hx) v
    refine hs.congr fun i hi => hw.spares (u + i) ?_
    unfold field Sched.TASKS_OFFSET at *
    omega

/-- The stack pointer is none of the fields that are read. -/
theorem Shows.store_esp (hd : Housed h head os) (ht : t ∈ os) (hu : u ∈ os)
    (hs : Shows m u o) : Shows (m.store (field t .esp) esp) u o := by
  have hw : Wrote (fun x => x < t + 4 ∨ t + 4 + 4 ≤ x) m
      (m.store (field t .esp) esp) := .store (fun _ hx => hx) esp
  have hfar : ∀ i n, (i + n ≤ 4 ∨ 8 ≤ i) → i + n ≤ 88 →
      ∀ x, u + i ≤ x → x < u + i + n → x < t + 4 ∨ t + 4 + 4 ≤ x := by
    intro i n hi hn x h1 h2
    by_cases hut : u = t
    · omega
    · have hap := hd.apart hu ht hut
      omega
  refine ⟨?_, ?_, ?_, ?_⟩
  · rw [← hs.id]
    exact hw.spares.load (hfar 0 4 (by omega) (by omega))
  · rw [← hs.lastSwitched]
    exact hw.load64 (hfar 20 8 (by omega) (by omega))
  · rw [← hs.sleep]
    exact hw.load64 (hfar 28 8 (by omega) (by omega))
  · rw [← hs.cpuTime]
    exact hw.load64 (hfar 44 8 (by omega) (by omega))

/-- The objects show the tasks `f`. -/
def Shown (m : Mem) (os : List Nat) (f : Nat → Sched.Task) : Prop :=
  ∀ u ∈ os, Shows m u (f u)

theorem Shown.store64 {g : Field} (hd : Housed h head os) (hg : Time g)
    (hv : v < 2 ^ 64) (ht : t ∈ os) (hs : Shown m os f) :
    Shown (m.store64 (field t g) v) os
      (Function.update f t (setTime g v (f t))) :=
  fun u hu => (hs u hu).store64 hd hg hv ht hu

end Running

end Ntibux
