/-
Runs of a labelled step relation, with the state and the label of each
step on record, so that a statement can speak of everything that
happened and not of the last state only.

The one rule is `Run.invariant`: what holds at the start and is kept by
every step of a kind holds at the end of every run made of such steps.
-/
import Mathlib.Tactic.Basic

namespace Ntibux

variable {σ ε : Type}

/-- A run from `s₀`. -/
inductive Run (Step : σ → ε → σ → Prop) (s₀ : σ) :
    List (σ × ε) → σ → Prop
  | nil : Run Step s₀ [] s₀
  | snoc {tr : List (σ × ε)} {s s' : σ} {e : ε}
      (hr : Run Step s₀ tr s) (hs : Step s e s') :
      Run Step s₀ (tr ++ [(s, e)]) s'

namespace Run

variable {Step : σ → ε → σ → Prop} {s₀ s s' : σ} {tr tr' : List (σ × ε)}

/-- What every step of a kind keeps, every run of such steps keeps. -/
theorem invariant {P : σ → Prop} (ok : σ → ε → Prop)
    (hr : Run Step s₀ tr s) (hok : ∀ p ∈ tr, ok p.1 p.2) (h0 : P s₀)
    (hstep : ∀ s e s', P s → ok s e → Step s e s' → P s') : P s := by
  induction hr with
  | nil => exact h0
  | @snoc tr s s' e hr hs ih =>
      have hlast : ok s e := hok (s, e) (by simp)
      apply hstep s e s' _ hlast hs
      exact ih fun p hp => hok p (by simp [hp])

/-- It holds before every step of the run as well. -/
theorem invariant_before {P : σ → Prop} (ok : σ → ε → Prop)
    (hr : Run Step s₀ tr s) (hok : ∀ p ∈ tr, ok p.1 p.2) (h0 : P s₀)
    (hstep : ∀ s e s', P s → ok s e → Step s e s' → P s') :
    ∀ p ∈ tr, P p.1 := by
  induction hr with
  | nil => exact nofun
  | @snoc tr s s' e hr hs ih =>
      have hok' : ∀ p ∈ tr, ok p.1 p.2 := fun p hp => hok p (by simp [hp])
      intro p hp
      rcases List.mem_append.mp hp with hp | hp
      · exact ih hok' p hp
      · rw [List.mem_singleton.mp hp]
        exact hr.invariant ok hok' h0 hstep

/-- One run after another. -/
theorem append (hr : Run Step s₀ tr s) (hr' : Run Step s tr' s') :
    Run Step s₀ (tr ++ tr') s' := by
  induction hr' with
  | nil =>
      rw [List.append_nil]
      exact hr
  | snoc _ hs ih =>
      rw [← List.append_assoc]
      exact ih.snoc hs

-- ======================================================= chosen events

/-- The events `es` one after another, where `next` computes a step, as
long as each step is `ok`. -/
def follow (next : ε → σ → Option σ) (ok : σ → ε → Bool) :
    List ε → σ → Option σ
  | [], s => some s
  | e :: es, s =>
      if ok s e then (next e s).bind (follow next ok es) else none

theorem of_follow {next : ε → σ → Option σ} {ok : σ → ε → Bool}
    {es : List ε} (hnext : ∀ s e s', next e s = some s' → Step s e s')
    (h : follow next ok es s = some s') :
    ∃ tr, Run Step s tr s' ∧ ∀ p ∈ tr, ok p.1 p.2 = true := by
  induction es generalizing s with
  | nil =>
      cases h
      exact ⟨[], .nil, nofun⟩
  | cons e es ih =>
      unfold follow at h
      split at h
      · rename_i hok
        obtain ⟨s₁, h₁, h⟩ := Option.bind_eq_some_iff.mp h
        obtain ⟨tr, hr, htr⟩ := ih h
        have hone : Run Step s ([] ++ [(s, e)]) s₁ :=
          .snoc .nil (hnext s e s₁ h₁)
        refine ⟨[] ++ [(s, e)] ++ tr, hone.append hr, ?_⟩
        intro p hp
        rcases List.mem_append.mp hp with hp | hp
        · rw [List.mem_singleton.mp hp]
          exact hok
        · exact htr p hp
      · cases h

/-- The same, for what is seen of the state reached. -/
theorem of_follow_map {α : Type} {next : ε → σ → Option σ}
    {ok : σ → ε → Bool} {es : List ε} {view : σ → α} {v : α}
    (hnext : ∀ s e s', next e s = some s' → Step s e s')
    (h : (follow next ok es s).map view = some v) :
    ∃ tr s', Run Step s tr s' ∧ (∀ p ∈ tr, ok p.1 p.2 = true) ∧
      view s' = v := by
  obtain ⟨s', hs, hv⟩ := Option.map_eq_some_iff.mp h
  obtain ⟨tr, hr, htr⟩ := of_follow hnext hs
  exact ⟨tr, s', hr, htr, hv⟩

/-- The same, with an account `γ` that is kept of what happens. -/
theorem of_follow_account {γ : Type} {next : ε → σ → Option σ}
    {ok : σ → ε → Bool} (mark : σ → ε → γ → γ) {es : List ε} {g g' : γ}
    (hnext : ∀ s e s', next e s = some s' → Step s e s')
    (h : follow (fun e (p : σ × γ) =>
        (next e p.1).map fun s' => (s', mark p.1 e p.2))
      (fun p e => ok p.1 e) es (s, g) = some (s', g')) :
    ∃ tr, Run Step s tr s' ∧ (∀ p ∈ tr, ok p.1 p.2 = true) ∧
      tr.foldl (fun g p => mark p.1 p.2 g) g = g' := by
  induction es generalizing s g with
  | nil =>
      cases h
      exact ⟨[], .nil, nofun, rfl⟩
  | cons e es ih =>
      unfold follow at h
      split at h
      · rename_i hok
        obtain ⟨p, hp, h⟩ := Option.bind_eq_some_iff.mp h
        obtain ⟨s₁, h₁, rfl⟩ := Option.map_eq_some_iff.mp hp
        obtain ⟨tr, hr, htr, hg⟩ := ih h
        have hone : Run Step s ([] ++ [(s, e)]) s₁ :=
          .snoc .nil (hnext s e s₁ h₁)
        refine ⟨[] ++ [(s, e)] ++ tr, hone.append hr, ?_, hg⟩
        intro p hp
        rcases List.mem_append.mp hp with hp | hp
        · rw [List.mem_singleton.mp hp]
          exact hok
        · exact htr p hp
      · cases h

end Run

end Ntibux
