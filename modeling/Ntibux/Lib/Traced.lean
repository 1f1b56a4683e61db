/-
Code that writes down what it does: the actions it has taken, in order,
and what it came to. Code that ends early has taken the actions before
that. Whether some action is of a kind (`Some`) is settled part by part.
-/
import Ntibux.Lib.Outcome

namespace Ntibux

/-- The actions of code that returns an `α`, and its outcome. -/
structure Traced (ε α : Type) where
  log : List ε
  out : Outcome α

namespace Traced

variable {ε α β : Type}

/-- Sequencing: the second part acts if the first returns. -/
protected def bind (x : Traced ε α) (f : α → Traced ε β) : Traced ε β where
  log := x.log ++ x.out.value.elim [] fun a => (f a).log
  out := x.out >>= fun a => (f a).out

instance : Monad (Traced ε) where
  pure a := ⟨[], .ret a⟩
  bind := Traced.bind

/-- The action `e`. -/
def emit (e : ε) : Traced ε Unit := ⟨[e], .ret ()⟩

/-- Code that takes no action. -/
def lift (x : Outcome α) : Traced ε α := ⟨[], x⟩

@[simp] theorem pure_out (a : α) : (pure a : Traced ε α).out = .ret a := rfl

@[simp] theorem emit_log (e : ε) : (emit e).log = [e] := rfl

@[simp] theorem emit_out (e : ε) : (emit e).out = .ret () := rfl

@[simp] theorem lift_out (x : Outcome α) :
    (lift x : Traced ε α).out = x := rfl

/-- The log of a sequence is that of the first part, and then that of the
second if it is reached. -/
theorem bind_log (x : Traced ε α) (f : α → Traced ε β) :
    (x >>= f).log = x.log ++ x.out.value.elim [] fun a => (f a).log := rfl

/-- The outcome is that of the outcomes in sequence. -/
theorem bind_out (x : Traced ε α) (f : α → Traced ε β) :
    (x >>= f).out = x.out >>= fun a => (f a).out := rfl

/-- What comes after a part that returns. -/
theorem bind_of_ret {x : Traced ε α} {a : α} (h : x.out = .ret a)
    (f : α → Traced ε β) :
    (x >>= f) = ⟨x.log ++ (f a).log, (f a).out⟩ := by
  show Traced.bind x f = _
  unfold Traced.bind
  rw [h]
  rfl

/-- A step without an event adds nothing to the log. -/
theorem lift_ret_bind (a : α) (f : α → Traced ε β) :
    (lift (.ret a) >>= f) = f a := rfl

/-- An event stands before the events of what follows it. -/
theorem emit_bind (e : ε) (f : Unit → Traced ε β) :
    (emit e >>= f) = ⟨e :: (f ()).log, (f ()).out⟩ := rfl

/-- An event of a sequence is one of the first part, or one of the second on
a value that the first part has returned. -/
theorem mem_bind {x : Traced ε α} {f : α → Traced ε β} {e : ε} :
    e ∈ (x >>= f).log
      ↔ e ∈ x.log ∨ ∃ a, x.out = .ret a ∧ e ∈ (f a).log := by
  rw [bind_log, List.mem_append]
  refine or_congr_right ?_
  cases hx : x.out <;> simp [Outcome.value]

-- ============================================================ some action

/-- Some action is of the kind `P`. -/
def Some (P : ε → Prop) (x : Traced ε α) : Prop := ∃ e ∈ x.log, P e

variable {P : ε → Prop}

@[simp] theorem some_pure (a : α) : ¬Some P (pure a : Traced ε α) := by
  rintro ⟨e, he, -⟩
  cases he

@[simp] theorem some_lift (x : Outcome α) : ¬Some P (lift x) := by
  rintro ⟨e, he, -⟩
  cases he

@[simp] theorem some_emit {e : ε} : Some P (emit e) ↔ P e := by
  simp [Some]

/-- The same for there being an event with a property: the rule that a walk
along a program is taken with. -/
theorem some_bind {x : Traced ε α} {f : α → Traced ε β} :
    Some P (x >>= f)
      ↔ Some P x ∨ ∃ a, x.out = .ret a ∧ Some P (f a) := by
  unfold Some
  simp only [mem_bind]
  constructor
  · rintro ⟨e, he | ⟨a, ha, he⟩, hP⟩
    · exact .inl ⟨e, he, hP⟩
    · exact .inr ⟨a, ha, e, he, hP⟩
  · rintro (⟨e, he, hP⟩ | ⟨a, ha, e, he, hP⟩)
    · exact ⟨e, .inl he, hP⟩
    · exact ⟨e, .inr ⟨a, ha, he⟩, hP⟩

/-- A part that returns comes before another. -/
theorem some_bind_of_ret {x : Traced ε α} {a : α} (h : x.out = .ret a)
    (f : α → Traced ε β) :
    Some P (x >>= f) ↔ Some P x ∨ Some P (f a) := by
  rw [some_bind, h]
  simp

/-- No action is of the kind, if that is so of both parts. -/
theorem not_some_bind {x : Traced ε α} {f : α → Traced ε β}
    (hx : ¬Some P x) (hf : ∀ a, ¬Some P (f a)) : ¬Some P (x >>= f) := by
  rw [some_bind]
  rintro (h | ⟨a, -, h⟩)
  · exact hx h
  · exact hf a h

end Traced

end Ntibux
