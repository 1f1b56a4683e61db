/-
A page without end, written row by row from its top left corner, and a
window of a fixed height that stands at its last rows.

`Page` is the text laid out: what is in every cell, where the cursor
stands, and nothing but blanks from the cursor on. `Window` relates it to
a screen of `h` rows on which the cursor is in row `y`; its three rules
are the three things that a screen does: a cell is written, the cursor
goes down a row, the screen moves up a row.
-/
import Mathlib.Tactic.Basic

namespace Ntibux

/-- A page `w` cells wide. -/
structure Page (α : Type) (w : Nat) (blank : α) where
  cell : Nat → Nat → α
  row : Nat
  col : Nat
  col_lt : col < w
  unused : ∀ r c, row < r ∨ r = row ∧ col ≤ c → cell r c = blank

/-- What is written on a page. -/
inductive Mark (α : Type) : Type
  | cell (a : α)
  | newRow
  deriving DecidableEq, Repr

namespace Page

variable {α : Type} {w : Nat} {blank : α}

/-- The page before anything is written. -/
def empty (hw : 0 < w) : Page α w blank where
  cell _ _ := blank
  row := 0
  col := 0
  col_lt := hw
  unused _ _ _ := rfl

/-- The cursor goes to the start of the next row. -/
def newRow (p : Page α w blank) : Page α w blank where
  cell := p.cell
  row := p.row + 1
  col := 0
  col_lt := Nat.zero_lt_of_lt p.col_lt
  unused r c h := p.unused r c (by omega)

/-- The cursor goes to the next cell, which is on the next row when the
row is full. -/
def put (a : α) (p : Page α w blank) : Page α w blank where
  cell r c := if r = p.row ∧ c = p.col then a else p.cell r c
  row := if p.col + 1 < w then p.row else p.row + 1
  col := if p.col + 1 < w then p.col + 1 else 0
  col_lt := by
    have hlt := p.col_lt
    split <;> omega
  unused r c h := by
    have hne : ¬ (r = p.row ∧ c = p.col) := by
      split at h <;> omega
    have hout : p.row < r ∨ r = p.row ∧ p.col ≤ c := by
      split at h <;> omega
    rw [if_neg hne]
    exact p.unused r c hout

def write (m : Mark α) (p : Page α w blank) : Page α w blank :=
  match m with
  | .cell a => p.put a
  | .newRow => p.newRow

/-- The page after the marks, one after another. -/
def writes (ms : List (Mark α)) (p : Page α w blank) : Page α w blank :=
  ms.foldl (fun p m => p.write m) p

@[simp] theorem writes_nil (p : Page α w blank) : p.writes [] = p := rfl

@[simp] theorem writes_cons (m : Mark α) (ms : List (Mark α))
    (p : Page α w blank) : p.writes (m :: ms) = (p.write m).writes ms :=
  rfl

end Page

-- ============================================================== windows

/-- A screen of `h` rows shows the last rows of `cell` down to `row`, or
the first ones while there are fewer, and `y` is `row` on the screen. -/
structure Window {α : Type} (h w : Nat) (cell : Nat → Nat → α) (row : Nat)
    (screen : Nat → Nat → α) (y : Nat) : Prop where
  at_row : y + (row + 1 - h) = row
  shows : ∀ i < h, ∀ j < w, screen i j = cell (row + 1 - h + i) j

namespace Window

variable {α : Type} {h w row y : Nat} {cell cell' screen screen' :
  Nat → Nat → α}

theorem y_lt (hW : Window h w cell row screen y) : y < h := by
  have hat := hW.at_row
  omega

/-- A cell of the cursor's row is written on both. -/
theorem set (hW : Window h w cell row screen y) {x : Nat} {a : α}
    (hscreen : ∀ i < h, ∀ j < w,
      screen' i j = if i = y ∧ j = x then a else screen i j) :
    Window h w (fun r c => if r = row ∧ c = x then a else cell r c) row
      screen' y := by
  have hat := hW.at_row
  refine ⟨hat, fun i hi j hj => ?_⟩
  rw [hscreen i hi j hj, hW.shows i hi j hj]
  have hiff : (row + 1 - h + i = row ∧ j = x) ↔ (i = y ∧ j = x) := by
    omega
  simp only [hiff]

/-- While the screen has a row below, the cursor goes down to it. -/
theorem down (hW : Window h w cell row screen y) (hy : y + 1 < h) :
    Window h w cell (row + 1) screen (y + 1) := by
  have hat := hW.at_row
  refine ⟨by omega, fun i hi j hj => ?_⟩
  rw [hW.shows i hi j hj]
  have hrow : row + 1 - h + i = row + 1 + 1 - h + i := by omega
  rw [hrow]

/-- On the last row of the screen everything moves up, and the row that
comes in is as empty as the one below the page's last. -/
theorem scroll (hW : Window h w cell row screen y) (hy : y + 1 = h)
    (hup : ∀ i, i + 1 < h → ∀ j < w, screen' i j = screen (i + 1) j)
    (hlast : ∀ j < w, screen' y j = cell (row + 1) j) :
    Window h w cell (row + 1) screen' y := by
  have hat := hW.at_row
  refine ⟨by omega, fun i hi j hj => ?_⟩
  by_cases hin : i + 1 < h
  · rw [hup i hin j hj, hW.shows (i + 1) hin j hj]
    have hrow : row + 1 - h + (i + 1) = row + 1 + 1 - h + i := by omega
    rw [hrow]
  · obtain rfl : i = y := by omega
    rw [hlast j hj]
    have hrow : row + 1 = row + 1 + 1 - h + i := by omega
    rw [← hrow]

end Window

end Ntibux
