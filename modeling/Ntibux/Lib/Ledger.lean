/-
Ledgers: holders that hold at most one piece of a resource each, and a
mark on every piece that is taken.

The two moves are what an owner table with a separate free map does: a
piece that is not marked is written down for a holder, whatever the
holder had before, and a held piece is given back.

Two facts carry what is built on it. Nobody comes to share a piece
(`Sound.step`). And a piece that is marked with no holder is marked for
good (`Lost.step`), so nothing is lost after a move exactly when nothing
was before it and it wrote over no holder (`Sound.full_iff`).
-/
import Mathlib.Logic.Function.Basic

namespace Ntibux

/-- Who holds what, and which pieces are marked. -/
structure Ledger (ι φ : Type) where
  hold : ι → Option φ
  used : φ → Prop

namespace Ledger

variable {ι φ : Type}

inductive Move (ι φ : Type)
  | take (i : ι) (f : φ)
  | drop (i : ι)

/-- One move. -/
inductive Step [DecidableEq ι] (l : Ledger ι φ) :
    Move ι φ → Ledger ι φ → Prop
  | take {i : ι} {f : φ} {l' : Ledger ι φ} (hf : ¬l.used f)
      (hold : ∀ j, l'.hold j = if j = i then some f else l.hold j)
      (hused : ∀ g, l'.used g ↔ g = f ∨ l.used g) : Step l (.take i f) l'
  | drop {i : ι} {f : φ} {l' : Ledger ι φ} (hf : l.hold i = some f)
      (hold : ∀ j, l'.hold j = if j = i then none else l.hold j)
      (hused : ∀ g, l'.used g ↔ l.used g ∧ g ≠ f) : Step l (.drop i) l'

/-- What is held is marked, and held by one. -/
structure Sound (l : Ledger ι φ) : Prop where
  used : ∀ i f, l.hold i = some f → l.used f
  unshared : ∀ i j f, l.hold i = some f → l.hold j = some f → i = j

/-- What is marked is held. -/
def Full (l : Ledger ι φ) : Prop := ∀ f, l.used f → ∃ i, l.hold i = some f

/-- A marked piece that nobody holds. -/
structure Lost (l : Ledger ι φ) (f : φ) : Prop where
  used : l.used f
  unheld : ∀ i, l.hold i ≠ some f

/-- The move writes over what a holder has. -/
def Overwrites (l : Ledger ι φ) : Move ι φ → Prop
  | .take i _ => l.hold i ≠ none
  | .drop _ => False

variable [DecidableEq ι] {l l' : Ledger ι φ} {e : Move ι φ} {f : φ}

theorem Sound.step (hl : Sound l) (h : Step l e l') : Sound l' := by
  cases h with
  | @take i f l' hf hold hused =>
      refine ⟨?_, ?_⟩
      · intro j g hj
        rw [hold] at hj
        rw [hused]
        split at hj
        · exact .inl (Option.some.inj hj).symm
        · exact .inr (hl.used j g hj)
      · intro j k g hj hk
        rw [hold] at hj hk
        split at hj <;> split at hk
        · -- both are the account that takes it; one of them cannot be alone
          rename_i hji hki
          exact hji.trans hki.symm
        · cases hj
          exact absurd (hl.used k _ hk) hf
        · cases hk
          exact absurd (hl.used j _ hj) hf
        · exact hl.unshared j k g hj hk
  | @drop i f l' hf hold hused =>
      have hother : ∀ j g, l'.hold j = some g → j ≠ i ∧ l.hold j = some g := by
        intro j g hj
        rw [hold] at hj
        split at hj
        · cases hj
        · rename_i hji
          exact ⟨hji, hj⟩
      refine ⟨?_, ?_⟩
      · intro j g hj
        obtain ⟨hne, hj⟩ := hother j g hj
        rw [hused]
        refine ⟨hl.used j g hj, ?_⟩
        intro hgf
        exact hne (hl.unshared j i g hj (hgf ▸ hf))
      · intro j k g hj hk
        exact hl.unshared j k g (hother j g hj).2 (hother k g hk).2

/-- What is lost stays lost: its mark keeps it from being taken, and
nobody is there to give it back. -/
theorem Lost.step (hl : Lost l f) (h : Step l e l') : Lost l' f := by
  cases h with
  | @take i g l' hg hold hused =>
      refine ⟨(hused f).mpr (.inr hl.used), ?_⟩
      intro j hj
      rw [hold] at hj
      split at hj
      · cases hj
        exact hg hl.used
      · exact hl.unheld j hj
  | @drop i g l' hg hold hused =>
      refine ⟨(hused f).mpr ⟨hl.used, ?_⟩, ?_⟩
      · intro hfg
        exact hl.unheld i (hfg ▸ hg)
      · intro j hj
        rw [hold] at hj
        split at hj
        · cases hj
        · exact hl.unheld j hj

/-- A holder that is written over loses what it had. -/
theorem Sound.loses (hl : Sound l) (h : Step l e l')
    (ho : l.Overwrites e) : ∃ f, Lost l' f := by
  cases h with
  | @drop i f l' hf hold hused => exact ho.elim
  | @take i f l' hf hold hused =>
      obtain ⟨g, hg⟩ := Option.ne_none_iff_exists'.mp ho
      have hug : l.used g := hl.used i g hg
      refine ⟨g, (hused g).mpr (.inr hug), ?_⟩
      intro j hj
      rw [hold] at hj
      split at hj
      · cases hj
        exact hf hug
      · rename_i hji
        exact hji (hl.unshared j i g hj hg)

theorem Full.step (hl : Full l) (h : Step l e l')
    (ho : ¬l.Overwrites e) : Full l' := by
  cases h with
  | @take i f l' hf hold hused =>
      intro g hg
      rcases (hused g).mp hg with rfl | hg
      · exact ⟨i, by rw [hold, if_pos rfl]⟩
      · obtain ⟨j, hj⟩ := hl g hg
        refine ⟨j, ?_⟩
        have hji : j ≠ i := by
          intro hji
          apply ho
          show l.hold i ≠ none
          rw [← hji, hj]
          exact Option.some_ne_none g
        rw [hold, if_neg hji]
        exact hj
  | @drop i f l' hf hold hused =>
      intro g hg
      obtain ⟨hg, hne⟩ := (hused g).mp hg
      obtain ⟨j, hj⟩ := hl g hg
      refine ⟨j, ?_⟩
      have hji : j ≠ i := by
        intro hji
        rw [hji, hf] at hj
        exact hne (Option.some.inj hj).symm
      rw [hold, if_neg hji]
      exact hj

omit [DecidableEq ι] in
theorem Lost.not_full (hl : Lost l f) : ¬Full l := by
  intro hf
  obtain ⟨i, hi⟩ := hf f hl.used
  exact hl.unheld i hi

/-- What one move means for the ledger as a whole. -/
theorem Sound.full_iff (hl : Sound l) (h : Step l e l') :
    Full l' ↔ Full l ∧ ¬l.Overwrites e := by
  constructor
  · intro hfull
    refine ⟨?_, ?_⟩
    · intro f hu
      by_contra hno
      have hlost : Lost l f := ⟨hu, fun i hi => hno ⟨i, hi⟩⟩
      exact (hlost.step h).not_full hfull
    · intro ho
      obtain ⟨f, hlost⟩ := hl.loses h ho
      exact hlost.not_full hfull
  · intro hok
    exact hok.1.step h hok.2

end Ledger

end Ntibux
