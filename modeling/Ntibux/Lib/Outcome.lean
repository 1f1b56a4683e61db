/-
What running a piece of low-level code comes to: a value, or one of the
ways it never gives one. The interpreter of a `while` loop or of an
unbounded recursion carries an explicit fuel, and `timeout` is its
answer when the fuel runs out, so "the code diverges" is "every fuel
times out" and "the code returns" is "some fuel gives `ret`".

The five outcomes are kept apart because they are different facts about
a program: `panic` is an orderly stop, `fault` a memory access outside
its table, `spin` a wait on a lock that the waiting flow itself holds.
-/
import Mathlib.Tactic.Basic

namespace Ntibux

/-- The outcome of running code that returns an `α`. -/
inductive Outcome (α : Type) : Type
  | ret (a : α)
  | panic (msg : String)
  | fault
  | spin
  | timeout
  deriving DecidableEq, Repr

namespace Outcome

variable {α β γ : Type}

/-- Sequencing: anything but a returned value ends the run. -/
@[simp] def bind : Outcome α → (α → Outcome β) → Outcome β
  | ret a, f => f a
  | panic msg, _ => panic msg
  | fault, _ => fault
  | spin, _ => spin
  | timeout, _ => timeout

instance : Monad Outcome where
  pure := ret
  bind := bind

@[simp] theorem pure_eq (a : α) : (pure a : Outcome α) = ret a := rfl

@[simp] theorem ret_bind (a : α) (f : α → Outcome β) :
    (ret a >>= f) = f a := rfl

@[simp] theorem panic_bind (msg : String) (f : α → Outcome β) :
    ((panic msg : Outcome α) >>= f) = panic msg := rfl

@[simp] theorem fault_bind (f : α → Outcome β) :
    ((fault : Outcome α) >>= f) = fault := rfl

@[simp] theorem spin_bind (f : α → Outcome β) :
    ((spin : Outcome α) >>= f) = spin := rfl

@[simp] theorem timeout_bind (f : α → Outcome β) :
    ((timeout : Outcome α) >>= f) = timeout := rfl

/-- Calls one after another, however they are grouped. -/
theorem bind_assoc (x : Outcome α) (f : α → Outcome β)
    (g : β → Outcome γ) :
    ((x >>= f) >>= g) = x >>= fun a => f a >>= g := by
  cases x <;> rfl

/-- A sequence returns exactly when both parts do. -/
theorem bind_eq_ret {x : Outcome α} {f : α → Outcome β} {b : β} :
    (x >>= f) = ret b ↔ ∃ a, x = ret a ∧ f a = ret b := by
  cases x <;> simp

/-- The code returns a value that passes a check. -/
def holds : Outcome α → (α → Bool) → Bool
  | ret a, p => p a
  | _, _ => false

@[simp] theorem holds_ret (a : α) (p : α → Bool) :
    (ret a).holds p = p a := rfl

/-- A check that has gone well is a value and its property: a run that was
evaluated is taken apart with this. -/
theorem holds_iff {x : Outcome α} {p : α → Bool} :
    x.holds p = true ↔ ∃ a, x = ret a ∧ p a = true := by
  cases x <;> simp [holds]

/-- The value that the code returns, if it does. -/
def value : Outcome α → Option α
  | ret a => some a
  | _ => none

/-- The value is there where the call has returned. -/
theorem value_eq_some {x : Outcome α} {a : α} :
    x.value = some a ↔ x = ret a := by
  cases x <;> simp [value]

/-- `for (; n turns; ++i) body(i)`. -/
def turns (body : Nat → α → Outcome α) : Nat → Nat → α → Outcome α
  | 0, _, a => ret a
  | n + 1, i, a => body i a >>= turns body n (i + 1)

/-- A counted loop returns, with what each turn keeps. -/
theorem turns_ret {body : Nat → α → Outcome α} {P : Nat → α → Prop}
    {n i k : Nat} {a : α} (hbody : ∀ i a, i < k → P i a →
      ∃ a', body i a = ret a' ∧ P (i + 1) a')
    (hk : i + n = k) (h : P i a) :
    ∃ a', turns body n i a = ret a' ∧ P k a' := by
  induction n generalizing i a with
  | zero =>
      obtain rfl : i = k := by omega
      exact ⟨a, rfl, h⟩
  | succ n ih =>
      obtain ⟨a₁, h₁, hP⟩ := hbody i a (by omega) h
      unfold turns
      rw [h₁, ret_bind]
      exact ih (by omega) hP

-- ============================================================== more fuel

/-- The outcome `y` is that of the same code with more fuel. -/
def Below (x y : Outcome α) : Prop := x = timeout ∨ x = y

namespace Below

variable {x y : Outcome α}

/-- More fuel may change nothing. -/
theorem refl (x : Outcome α) : Below x x := .inr rfl

/-- A call that returns, before one that does. -/
theorem bind {f g : α → Outcome β} (h : Below x y)
    (hf : ∀ a, Below (f a) (g a)) : Below (x >>= f) (y >>= g) := by
  rcases h with rfl | rfl
  · exact .inl rfl
  · cases x with
    | ret a => exact hf a
    | _ => exact .refl _

/-- What has returned does not change with more fuel. -/
theorem eq_ret {a : α} (h : Below (ret a) y) : y = ret a := by
  rcases h with h | h
  · cases h
  · exact h.symm

/-- Two fuels that suffice give the same value. -/
theorem unique {x : Nat → Outcome α} {i j : Nat} {a b : α}
    (hx : ∀ i j, i ≤ j → Below (x i) (x j)) (hi : x i = ret a)
    (hj : x j = ret b) : a = b := by
  rcases Nat.le_total i j with h | h
  · have hb := hx i j h
    rw [hi] at hb
    exact Outcome.ret.inj (hb.eq_ret.symm.trans hj)
  · have hb := hx j i h
    rw [hj] at hb
    exact Outcome.ret.inj (hi.symm.trans hb.eq_ret)

end Below

/-- Given enough fuel, the code comes to the outcome `o`. -/
def Ends (x : Nat → Outcome α) (o : Outcome α) : Prop :=
  ∃ enough, ∀ fuel ≥ enough, x fuel = o

namespace Ends

variable {x : Nat → Outcome α} {o : Outcome α}

theorem of_eq (h : ∀ fuel, x fuel = o) : Ends x o := ⟨0, fun fuel _ => h fuel⟩

/-- The first turn of a loop uses one unit. -/
theorem of_succ (h : Ends (fun fuel => x (fuel + 1)) o) : Ends x o := by
  obtain ⟨n, hn⟩ := h
  refine ⟨n + 1, fun fuel hfuel => ?_⟩
  obtain ⟨k, rfl⟩ : ∃ k, fuel = k + 1 := ⟨fuel - 1, by omega⟩
  exact hn k (by omega)

/-- One part after the other, each with the same fuel. -/
theorem bind {f : Nat → α → Outcome β} {g : α → Outcome β}
    (h : Ends x o) (hf : ∀ a, Ends (fun fuel => f fuel a) (g a)) :
    Ends (fun fuel => x fuel >>= f fuel) (o >>= g) := by
  obtain ⟨n, hn⟩ := h
  cases o with
  | ret a =>
      obtain ⟨k, hk⟩ := hf a
      refine ⟨max n k, fun fuel hfuel => ?_⟩
      show (x fuel >>= f fuel) = g a
      rw [hn fuel (by omega), ret_bind]
      exact hk fuel (by omega)
  | _ =>
      refine ⟨n, fun fuel hfuel => ?_⟩
      show (x fuel >>= f fuel) = _
      rw [hn fuel hfuel]
      rfl

/-- After a part that needs no fuel. -/
theorem after {y : Outcome β} {f : Nat → β → Outcome α}
    {g : β → Outcome α} (hf : ∀ b, Ends (fun fuel => f fuel b) (g b)) :
    Ends (fun fuel => y >>= f fuel) (y >>= g) :=
  bind (of_eq fun _ => rfl) hf

/-- A call gives one value. -/
theorem unique {o' : Outcome α} (h : Ends x o) (h' : Ends x o') :
    o = o' := by
  obtain ⟨n, hn⟩ := h
  obtain ⟨k, hk⟩ := h'
  rw [← hn (max n k) (by omega), hk (max n k) (by omega)]

end Ends

/-- Given enough fuel, the code returns `a`. -/
def Gives (x : Nat → Outcome α) (a : α) : Prop :=
  ∃ enough, ∀ fuel ≥ enough, x fuel = ret a

namespace Gives

variable {x : Nat → Outcome α} {a : α}

theorem of_eq (h : ∀ fuel, x fuel = ret a) : Gives x a :=
  ⟨0, fun fuel _ => h fuel⟩

/-- One run that returns is enough, if more fuel changes nothing. -/
theorem of_below {fuel : Nat} (hx : ∀ n, fuel ≤ n → Below (x fuel) (x n))
    (h : x fuel = ret a) : Gives x a := by
  refine ⟨fuel, fun n hn => ?_⟩
  have hb := hx n hn
  rw [h] at hb
  exact hb.eq_ret

/-- What comes after a part that returns. -/
theorem ends {f : Nat → α → Outcome β} {o : Outcome β} (h : Gives x a)
    (hf : Ends (fun fuel => f fuel a) o) :
    Ends (fun fuel => x fuel >>= f fuel) o := by
  obtain ⟨n, hn⟩ := h
  obtain ⟨k, hk⟩ := hf
  refine ⟨max n k, fun fuel hfuel => ?_⟩
  show (x fuel >>= f fuel) = _
  rw [hn fuel (by omega), ret_bind]
  exact hk fuel (by omega)

theorem bind {f : Nat → α → Outcome β} {b : β} (h : Gives x a)
    (hf : Gives (fun fuel => f fuel a) b) :
    Gives (fun fuel => x fuel >>= f fuel) b :=
  h.ends hf

/-- What came after a part that returns. -/
theorem of_bind {f : Nat → α → Outcome β} {b : β} (h : Gives x a)
    (hb : Gives (fun fuel => x fuel >>= f fuel) b) :
    Gives (fun fuel => f fuel a) b := by
  obtain ⟨n, hn⟩ := h
  obtain ⟨k, hk⟩ := hb
  refine ⟨max n k, fun fuel hfuel => ?_⟩
  have hfuel' := hk fuel (by omega)
  dsimp only at hfuel'
  rw [hn fuel (by omega), ret_bind] at hfuel'
  exact hfuel'

theorem of_succ (h : Gives (fun fuel => x (fuel + 1)) a) : Gives x a :=
  Ends.of_succ h

/-- The fuel that is enough. -/
theorem ret (h : Gives x a) : ∃ fuel, x fuel = .ret a :=
  ⟨h.choose, h.choose_spec _ (Nat.le_refl _)⟩

theorem ends_iff : Gives x a ↔ Ends x (.ret a) := Iff.rfl

theorem unique {b : α} (h : Gives x a) (h' : Gives x b) : a = b :=
  Outcome.ret.inj (Ends.unique (ends_iff.mp h) (ends_iff.mp h'))

end Gives

-- ================================================================ endings

/-- The code came to an end of its own: it returned or it panicked. -/
def Finished : Outcome α → Prop
  | ret _ => True
  | panic _ => True
  | _ => False

@[simp] theorem finished_ret (a : α) : (ret a).Finished := trivial

@[simp] theorem finished_panic (msg : String) :
    (panic msg : Outcome α).Finished := trivial

@[simp] theorem not_finished_fault : ¬ (fault : Outcome α).Finished := id

@[simp] theorem not_finished_spin : ¬ (spin : Outcome α).Finished := id

@[simp] theorem not_finished_timeout : ¬ (timeout : Outcome α).Finished := id

end Outcome

end Ntibux
