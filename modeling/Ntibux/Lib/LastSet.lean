/-
A variable that some events of a sequence set: it ends with what the last
of them sets. Two accounts of the events that differ on one kind, which
sets the variable in the one and does not in the other, are compared by
what comes after the last event of that kind (`lastSet_eq_iff`).
-/
import Mathlib.Data.List.Induction

namespace Ntibux

variable {α β : Type}

/-- What the last event that sets anything sets, or the first value. -/
def lastSet (sets : α → Option β) (init : β) (es : List α) : β :=
  (es.filterMap sets).getLast?.getD init

section

variable {a b : α → Option β} {init d : β} {es : List α} {e : α}

@[simp] theorem lastSet_nil : lastSet a init [] = init := rfl

@[simp] theorem lastSet_concat :
    lastSet a init (es ++ [e]) = (a e).getD (lastSet a init es) := by
  unfold lastSet
  rw [List.filterMap_append]
  cases h : a e with
  | none => simp [h]
  | some v => simp [h]

/-- Every event of the kind is followed by one that sets the variable. -/
def Covered (kind : α → Prop) (sets : α → Option β) (es : List α) : Prop :=
  ∀ es₁ e es₂, es = es₁ ++ e :: es₂ → kind e → ∃ e' ∈ es₂, sets e' ≠ none

theorem covered_nil (kind : α → Prop) : Covered kind b [] := by
  intro es₁ e es₂ h
  simp at h

theorem covered_concat {kind : α → Prop} :
    Covered kind b (es ++ [e])
      ↔ ¬kind e ∧ (b e ≠ none ∨ Covered kind b es) := by
  constructor
  · intro h
    have hlast : ¬kind e := by
      intro hk
      obtain ⟨e', he', -⟩ := h es e [] rfl hk
      cases he'
    refine ⟨hlast, ?_⟩
    by_cases hb : b e = none
    · right
      intro es₁ k es₂ heq hk
      obtain ⟨e', he', hset⟩ := h es₁ k (es₂ ++ [e]) (by simp [heq]) hk
      rcases List.mem_append.mp he' with he' | he'
      · exact ⟨e', he', hset⟩
      · rw [List.mem_singleton.mp he'] at hset
        exact absurd hb hset
    · exact .inl hb
  · intro h es₁ k es₂ heq hk
    obtain ⟨hlast, h⟩ := h
    rcases List.eq_nil_or_concat es₂ with rfl | ⟨es₃, e', rfl⟩
    · obtain ⟨-, hke⟩ := List.append_inj' heq rfl
      exact absurd ((List.cons.inj hke).1 ▸ hk) hlast
    · rw [List.concat_eq_append, ← List.cons_append, ← List.append_assoc]
        at heq
      obtain ⟨hes, hee⟩ := List.append_inj' heq rfl
      obtain rfl := (List.cons.inj hee).1
      rw [List.concat_eq_append]
      rcases h with h | h
      · exact ⟨e, by simp, h⟩
      · obtain ⟨e', he', hset⟩ := h es₁ k es₃ hes hk
        exact ⟨e', by simp [he'], hset⟩

/-- Two accounts that agree but for one kind of event, which sets `d` in
the one and nothing in the other. -/
theorem lastSet_eq_iff (kind : α → Prop) (ha : ∀ e, kind e → a e = some d)
    (hb : ∀ e, kind e → b e = none) (hab : ∀ e, ¬kind e → a e = b e) :
    lastSet a init es = lastSet b init es
      ↔ Covered kind b es ∨ lastSet b init es = d := by
  induction es using List.reverseRecOn with
  | nil => exact iff_of_true rfl (.inl (covered_nil kind))
  | append_singleton es e ih =>
      rw [lastSet_concat, lastSet_concat, covered_concat]
      by_cases hk : kind e
      · rw [ha e hk, hb e hk]
        simp only [Option.getD_some, Option.getD_none, hk,
          not_true_eq_false, false_and, false_or]
        exact eq_comm
      · rw [hab e hk]
        cases hbe : b e with
        | none => simpa [hk] using ih
        | some v => simp [hk]

end

end Ntibux
