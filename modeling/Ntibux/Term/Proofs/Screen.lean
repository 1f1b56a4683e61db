/-
The screen is a window on an unbounded page: what is written stands on a
page that never ends, and `cache_buffer` shows the last rows of it.

A call of the terminal is taken apart into characters, and a character
into what the `Window` rules know: a cell written, the cursor down a row,
everything up a row. `Shows` is kept by every character, hence by every
text and by every sequence of calls (`run_shows`).
-/
import Ntibux.Term.Basic
import Ntibux.Lib.Page

namespace Ntibux

-- ================================================================ cells

/-- The cell in row `i` and column `j`. -/
def Screen.at (s : Screen) (i j : Nat) : UInt16 :=
  s[i * VGA_WIDTH + j]?.getD 0

theorem cell_lt {i j : Nat} (hi : i < VGA_HEIGHT) (hj : j < VGA_WIDTH) :
    i * VGA_WIDTH + j < CELLS := by
  unfold CELLS VGA_HEIGHT VGA_WIDTH at *
  omega

theorem cell_inj {i j y x : Nat} (hj : j < VGA_WIDTH)
    (hx : x < VGA_WIDTH) :
    i * VGA_WIDTH + j = y * VGA_WIDTH + x ↔ i = y ∧ j = x := by
  unfold VGA_WIDTH at *
  omega

namespace Screen

theorem at_eq (s : Screen) {i j : Nat} (h : i * VGA_WIDTH + j < CELLS) :
    s.at i j = s[i * VGA_WIDTH + j] := by
  unfold Screen.at
  rw [Vector.getElem?_eq_getElem h, Option.getD_some]

theorem at_some (s : Screen) {i j : Nat} (hi : i < VGA_HEIGHT)
    (hj : j < VGA_WIDTH) :
    s[i * VGA_WIDTH + j]? = some (s.at i j) := by
  rw [at_eq s (cell_lt hi hj)]
  exact Vector.getElem?_eq_getElem (cell_lt hi hj)

/-- One cell of the screen is written. -/
theorem at_set (s : Screen) {i j y x : Nat} (hi : i < VGA_HEIGHT)
    (hj : j < VGA_WIDTH) (hy : y < VGA_HEIGHT) (hx : x < VGA_WIDTH)
    (a : UInt16) :
    Screen.at (s.set (y * VGA_WIDTH + x) a (cell_lt hy hx)) i j
      = if i = y ∧ j = x then a else s.at i j := by
  rw [at_eq _ (cell_lt hi hj), at_eq s (cell_lt hi hj), Vector.getElem_set]
  have hiff := @cell_inj y x i j hx hj
  have hswap : (y = i ∧ x = j) ↔ (i = y ∧ j = x) := by omega
  simp only [hiff, hswap]

end Screen

-- ============================================================ the copies

namespace Terminal

variable {t t' : Terminal}

/-- The hardware's copy is the cache, cell for cell. -/
theorem updateVgaBuffer_eq (t : Terminal) :
    t.updateVgaBuffer = .ret { t with vgaBuffer := t.cacheBuffer } := by
  unfold updateVgaBuffer
  rw [Outcome.fill_load, Outcome.ret_bind]
  rfl

/-- A scroll moves every row up by one and blanks the last one. -/
theorem tcurScroll_ret (t : Terminal) :
    ∃ cache : Screen,
      t.tcurScroll = .ret { t with cacheBuffer := cache }
      ∧ (∀ i, i + 1 < VGA_HEIGHT → ∀ j < VGA_WIDTH,
        cache.at i j = t.cacheBuffer.at (i + 1) j)
      ∧ ∀ j < VGA_WIDTH,
        cache.at (VGA_HEIGHT - 1) j = vgaEntry 0x20 t.defColor := by
  have hC : CELLS - VGA_WIDTH = 1920 := rfl
  have hlast : (VGA_HEIGHT - 1) * VGA_WIDTH = CELLS - VGA_WIDTH := rfl
  have hread : ∀ k < 0 + (CELLS - VGA_WIDTH), 0 ≤ k →
      Outcome.load t.cacheBuffer (VGA_WIDTH + k)
        = .ret (t.cacheBuffer[VGA_WIDTH + k]?.getD 0) :=
    fun k hk _ => Outcome.load_getD _ (by omega) 0
  -- every cell but the last row's takes the one a row below it
  obtain ⟨b₁, h₁, hb₁⟩ := Outcome.fill_ret (Vector.replicate CELLS 0)
    hread (by omega)
  -- the last row is blank
  obtain ⟨b₂, h₂, hb₂⟩ := Outcome.fill_ret b₁
    (fun k (_ : k < CELLS - VGA_WIDTH + (CELLS - (CELLS - VGA_WIDTH)))
      (_ : CELLS - VGA_WIDTH ≤ k) =>
      (rfl : Outcome.ret (vgaEntry 0x20 t.defColor) = .ret _))
    (by omega)
  refine ⟨b₂, ?_, fun i hi j hj => ?_, fun j hj => ?_⟩
  · dsimp only [tcurScroll]
    rw [h₁, Outcome.ret_bind, h₂, Outcome.ret_bind, Outcome.fill_load]
    rfl
  · have hin := Nat.lt_of_succ_lt hi
    have hlt := cell_lt hin hj
    have hup := cell_lt hi hj
    have hstep : VGA_WIDTH + (i * VGA_WIDTH + j)
        = (i + 1) * VGA_WIDTH + j := by
      rw [Nat.succ_mul]
      omega
    have hsmall : i * VGA_WIDTH + j < CELLS - VGA_WIDTH := by omega
    rw [Screen.at_eq b₂ (cell_lt hin hj), hb₂ _ hlt, if_neg (by omega),
      hb₁ _ hlt, if_pos (by omega), hstep]
    rfl
  · have hin : VGA_HEIGHT - 1 < VGA_HEIGHT := by decide
    have hlt := cell_lt hin hj
    rw [Screen.at_eq b₂ (cell_lt hin hj), hb₂ _ hlt, if_pos (by omega)]

-- ============================================================== window

end Terminal

/-- The page of a terminal whose default colour is `d`. -/
abbrev Sheet (d : UInt8) : Type := Page UInt16 VGA_WIDTH (vgaEntry 0x20 d)

def Sheet.empty (d : UInt8) : Sheet d := Page.empty (by decide)

/-- How a character stands on the page: a newline starts a row, and
everything else is a cell in the colour of the moment. -/
def mark (color c : UInt8) : Mark UInt16 :=
  if c = 0x0a then .newRow else .cell (vgaEntry c color)

/-- The screen and the cursor are a window on the page. -/
structure Shows {d : UInt8} (t : Terminal) (p : Sheet d) : Prop where
  default : t.defColor = d
  col : t.x = p.col
  window : Window VGA_HEIGHT VGA_WIDTH p.cell p.row t.cacheBuffer.at t.y

namespace Terminal

variable {t t' : Terminal} {d : UInt8} {p : Sheet d}

/-- The cursor goes to the start of the next row, which nothing has been
written on. -/
theorem tcurNextl_ret {cell : Nat → Nat → UInt16} {row : Nat}
    (hW : Window VGA_HEIGHT VGA_WIDTH cell row t.cacheBuffer.at t.y)
    (hblank : ∀ j < VGA_WIDTH,
      cell (row + 1) j = vgaEntry 0x20 t.defColor) :
    ∃ t', t.tcurNextl = .ret t' ∧ t'.color = t.color
      ∧ t'.defColor = t.defColor ∧ t'.x = 0
      ∧ Window VGA_HEIGHT VGA_WIDTH cell (row + 1) t'.cacheBuffer.at t'.y := by
  have hlt := hW.y_lt
  by_cases hy : t.y < VGA_HEIGHT - 1
  · refine ⟨{ t with x := 0, y := t.y + 1 }, if_pos hy, rfl, rfl, rfl, ?_⟩
    exact hW.down (by omega)
  · obtain ⟨cache, hs, hup, hlast⟩ := tcurScroll_ret { t with x := 0 }
    have heq : t.y + 1 = VGA_HEIGHT := by omega
    refine ⟨{ t with x := 0, cacheBuffer := cache }, ?_, rfl, rfl, rfl, ?_⟩
    · unfold tcurNextl
      rw [if_neg hy]
      exact hs
    · refine hW.scroll heq hup fun j hj => ?_
      have hbottom : t.y = VGA_HEIGHT - 1 := by omega
      rw [hblank j hj]
      show cache.at t.y j = _
      rw [hbottom]
      exact hlast j hj

/-- One character more, on the screen and on the page. -/
theorem tputcNoup_shows (h : Shows t p) {c : UInt8} (hc : c ≠ 0x0d) :
    ∃ t', t.tputcNoup c = .ret t' ∧ t'.color = t.color
      ∧ Shows t' (p.write (mark t.color c)) := by
  obtain ⟨hd, hcol, hW⟩ := h
  have hx : t.x < VGA_WIDTH := hcol ▸ p.col_lt
  unfold tputcNoup mark
  by_cases hnl : c = 0x0a
  · have hblank : ∀ j < VGA_WIDTH,
        p.cell (p.row + 1) j = vgaEntry 0x20 t.defColor := by
      intro j _
      rw [hd]
      exact p.unused _ _ (.inl (Nat.lt_succ_self _))
    obtain ⟨t', ht', hcolor, hdef, hx', hW'⟩ := tcurNextl_ret hW hblank
    rw [if_pos hnl, if_pos hnl]
    exact ⟨t', ht', hcolor, hdef.trans hd, hx', hW'⟩
  rw [if_neg hnl, if_neg hnl, if_neg hc,
    Outcome.store_ret _ (cell_lt hW.y_lt hx), Outcome.ret_bind]
  -- the cell is written, with the cursor still on it
  have hset : Window VGA_HEIGHT VGA_WIDTH
      (fun i j => if i = p.row ∧ j = p.col then vgaEntry c t.color
        else p.cell i j) p.row
      (Screen.at (t.cacheBuffer.set (t.y * VGA_WIDTH + t.x)
        (vgaEntry c t.color) (cell_lt hW.y_lt hx))) t.y := by
    refine hW.set fun i hi j hj => ?_
    rw [Screen.at_set _ hi hj hW.y_lt hx, hcol]
  unfold tcurNext
  by_cases hroom : t.x < VGA_WIDTH - 1
  · have hfits : p.col + 1 < VGA_WIDTH := by omega
    rw [if_pos hroom]
    refine ⟨_, rfl, rfl, hd, ?_, ?_⟩
    · show t.x + 1 = if p.col + 1 < VGA_WIDTH then p.col + 1 else 0
      rw [if_pos hfits, hcol]
    · show Window _ _ _ (if p.col + 1 < VGA_WIDTH then p.row
        else p.row + 1) _ _
      rw [if_pos hfits]
      exact hset
  · have hfull : ¬ p.col + 1 < VGA_WIDTH := by omega
    have hblank : ∀ j < VGA_WIDTH, (if p.row + 1 = p.row ∧ j = p.col
        then vgaEntry c t.color else p.cell (p.row + 1) j)
        = vgaEntry 0x20 t.defColor := by
      intro j _
      rw [if_neg (by omega), hd]
      exact p.unused _ _ (.inl (Nat.lt_succ_self _))
    rw [if_neg hroom]
    obtain ⟨t', ht', hcolor, hdef, hx', hW'⟩ := tcurNextl_ret
      (t := { t with
        cacheBuffer := t.cacheBuffer.set (t.y * VGA_WIDTH + t.x)
          (vgaEntry c t.color) (cell_lt hW.y_lt hx)
        x := 0 }) hset hblank
    refine ⟨t', ht', hcolor, hdef.trans hd, ?_, ?_⟩
    · show t'.x = if p.col + 1 < VGA_WIDTH then p.col + 1 else 0
      rw [if_neg hfull, hx']
    · show Window _ _ _ (if p.col + 1 < VGA_WIDTH then p.row
        else p.row + 1) _ _
      rw [if_neg hfull]
      exact hW'

-- ================================================================ texts

theorem putString_shows {s : List UInt8} (h : Shows t p) (hnul : 0 ∈ s)
    (hcr : 0x0d ∉ s.takeWhile (· ≠ 0)) :
    ∃ t', putString s t = .ret t' ∧ t'.color = t.color
      ∧ Shows t' (p.writes ((s.takeWhile (· ≠ 0)).map (mark t.color))) := by
  induction s generalizing t p with
  | nil => cases hnul
  | cons c s ih =>
      unfold putString
      by_cases hc : c = 0
      · have hnone : (c :: s).takeWhile (· ≠ 0) = [] := by simp [hc]
        rw [if_pos hc, hnone]
        exact ⟨t, rfl, rfl, h⟩
      · have hone : (c :: s).takeWhile (· ≠ 0)
            = c :: s.takeWhile (· ≠ 0) := by simp [hc]
        rw [hone] at hcr ⊢
        have hne : c ≠ 0x0d := fun heq => hcr (heq ▸ List.mem_cons_self)
        have hs : 0 ∈ s :=
          (List.mem_cons.mp hnul).resolve_left fun heq => hc heq.symm
        obtain ⟨t₁, h₁, hcolor, hshow⟩ := tputcNoup_shows h hne
        obtain ⟨t', h₂, hcolor', hshow'⟩ := ih hshow hs
          fun hin => hcr (List.mem_cons_of_mem c hin)
        rw [if_neg hc, h₁, Outcome.ret_bind]
        refine ⟨t', h₂, hcolor'.trans hcolor, ?_⟩
        rw [hcolor] at hshow'
        exact hshow'

theorem putChars_shows {n : Nat} {s : List UInt8} (h : Shows t p)
    (hn : n ≤ s.length) (hcr : 0x0d ∉ s.take n) :
    ∃ t', putChars n s t = .ret t' ∧ t'.color = t.color
      ∧ Shows t' (p.writes ((s.take n).map (mark t.color))) := by
  induction n generalizing s t p with
  | zero => exact ⟨t, rfl, rfl, h⟩
  | succ n ih =>
      cases s with
      | nil => cases hn
      | cons c s =>
          rw [List.take_succ_cons] at hcr ⊢
          have hne : c ≠ 0x0d := fun heq => hcr (heq ▸ List.mem_cons_self)
          obtain ⟨t₁, h₁, hcolor, hshow⟩ := tputcNoup_shows h hne
          obtain ⟨t', h₂, hcolor', hshow'⟩ := ih hshow
            (Nat.le_of_succ_le_succ hn)
            fun hin => hcr (List.mem_cons_of_mem c hin)
          unfold putChars
          rw [h₁, Outcome.ret_bind]
          refine ⟨t', h₂, hcolor'.trans hcolor, ?_⟩
          rw [hcolor] at hshow'
          exact hshow'

/-- The copy to the hardware shows nothing new. -/
theorem updateVgaBuffer_shows (h : Shows t p) :
    ∃ t', t.updateVgaBuffer = .ret t' ∧ t'.color = t.color ∧ Shows t' p :=
  ⟨_, updateVgaBuffer_eq t, rfl, ⟨h.default, h.col, h.window⟩⟩

/-- `clear` starts a page. -/
theorem clear_shows (t : Terminal) :
    ∃ t', t.clear = .ret t' ∧ t'.color = t.color
      ∧ Shows t' (Sheet.empty t.defColor) := by
  have hsize : VGA_HEIGHT * VGA_WIDTH = CELLS := rfl
  have hfill : Outcome.fill (fun _ => .ret (vgaEntry 0x20 t.defColor))
      (VGA_HEIGHT * VGA_WIDTH) 0 t.cacheBuffer
      = .ret (Vector.ofFn fun _ => vgaEntry 0x20 t.defColor) := by
    rw [hsize]
    exact Outcome.fill_all (g := fun _ => vgaEntry 0x20 t.defColor)
      t.cacheBuffer fun k _ => rfl
  have hat : 0 + (0 + 1 - VGA_HEIGHT) = 0 := by decide
  dsimp only [clear]
  rw [hfill, Outcome.ret_bind]
  refine ⟨_, updateVgaBuffer_eq _, rfl, rfl, rfl, hat, ?_⟩
  intro i hi j hj
  rw [Screen.at_eq _ (cell_lt hi hj)]
  exact Vector.getElem_ofFn (cell_lt hi hj)

end Terminal

-- ================================================================ calls

namespace TermCall

variable {t t' : Terminal} {d : UInt8} {p : Sheet d}

/-- The layout of everything that the calls write: each text in the
colour that the calls before it have set. -/
def layout {d : UInt8} : List TermCall → Terminal → Sheet d → Sheet d
  | [], _, p => p
  | c :: cs, t, p =>
      layout cs (c.recolor t) (p.writes (c.text.map (mark t.color)))

/-- The call has its text in memory, and the text no carriage return. -/
def Plain (c : TermCall) : Prop := c.Valid ∧ 0x0d ∉ c.text

instance : DecidablePred Plain := fun c => by
  unfold Plain
  infer_instance

/-- Only the colours of the terminal matter to the layout. -/
theorem layout_congr {cs : List TermCall} (hcolor : t'.color = t.color)
    (hdef : t'.defColor = t.defColor) :
    layout cs t' p = layout cs t p := by
  induction cs generalizing t t' p with
  | nil => rfl
  | cons c cs ih =>
      unfold layout
      rw [hcolor]
      apply ih
      · cases c <;> simp [recolor, Terminal.setFg, Terminal.setBg,
          Terminal.resetColor, Terminal.setColor, Terminal.setColors,
          hcolor, hdef]
      · cases c <;> exact hdef

/-- A call writes its text and changes the colour, and the screen stays a
window on the page. -/
theorem exec_shows {c : TermCall} (h : Shows t p) (hc : c.Plain) :
    ∃ t', c.exec t = .ret t' ∧ t'.color = (c.recolor t).color
      ∧ Shows t' (p.writes (c.text.map (mark t.color))) := by
  -- a call that also copies the screen to the hardware shows no more
  obtain ⟨hvalid, hcr⟩ := hc
  cases c with
  | setFg fg => exact ⟨_, rfl, rfl, ⟨h.default, h.col, h.window⟩⟩
  | setBg bg => exact ⟨_, rfl, rfl, ⟨h.default, h.col, h.window⟩⟩
  | resetColor => exact ⟨_, rfl, rfl, ⟨h.default, h.col, h.window⟩⟩
  | setColor color => exact ⟨_, rfl, rfl, ⟨h.default, h.col, h.window⟩⟩
  | setColors fg bg => exact ⟨_, rfl, rfl, ⟨h.default, h.col, h.window⟩⟩
  | tputcNoup c =>
      exact Terminal.tputcNoup_shows h fun heq =>
        hcr (List.mem_singleton.mpr heq.symm)
  | tputc c =>
      obtain ⟨t₁, h₁, hcolor, hshow⟩ := Terminal.tputcNoup_shows h
        fun heq => hcr (List.mem_singleton.mpr heq.symm)
      obtain ⟨t', h₂, hcolor', hshow'⟩ :=
        Terminal.updateVgaBuffer_shows hshow
      refine ⟨t', ?_, hcolor'.trans hcolor, hshow'⟩
      simp only [exec, Terminal.tputc, h₁, h₂, Outcome.ret_bind]
  | tputsNoup s =>
      obtain ⟨t', h₁, hcolor, hshow⟩ :=
        Terminal.putString_shows h hvalid hcr
      refine ⟨t', ?_, hcolor, hshow⟩
      simp only [exec, Terminal.tputsNoup, h₁, Outcome.ret_bind,
        Outcome.pure_eq]
  | tputs s =>
      obtain ⟨t₁, h₁, hcolor, hshow⟩ :=
        Terminal.putString_shows h hvalid hcr
      obtain ⟨t', h₂, hcolor', hshow'⟩ :=
        Terminal.updateVgaBuffer_shows hshow
      refine ⟨t', ?_, hcolor'.trans hcolor, hshow'⟩
      simp only [exec, Terminal.tputs, Terminal.tputsNoup, h₁, h₂,
        Outcome.ret_bind, Outcome.pure_eq]
  | tputsNoupN s n =>
      obtain ⟨t', h₁, hcolor, hshow⟩ :=
        Terminal.putChars_shows h hvalid hcr
      refine ⟨t', ?_, hcolor, hshow⟩
      simp only [exec, Terminal.tputsNoupN, h₁, Outcome.ret_bind,
        Outcome.pure_eq]
  | tputsN s n =>
      obtain ⟨t₁, h₁, hcolor, hshow⟩ :=
        Terminal.putChars_shows h hvalid hcr
      obtain ⟨t', h₂, hcolor', hshow'⟩ :=
        Terminal.updateVgaBuffer_shows hshow
      refine ⟨t', ?_, hcolor'.trans hcolor, hshow'⟩
      simp only [exec, Terminal.tputsN, Terminal.tputsNoupN, h₁, h₂,
        Outcome.ret_bind, Outcome.pure_eq]

theorem recolor_defColor (c : TermCall) (t : Terminal) :
    (c.recolor t).defColor = t.defColor := by
  cases c <;> rfl

/-- Calls one after another keep the screen a window on the page. -/
theorem run_shows {cs : List TermCall} (h : Shows t p)
    (hcs : ∀ c ∈ cs, c.Plain) :
    ∃ t', run cs t = .ret t' ∧ Shows t' (layout cs t p) := by
  induction cs generalizing t p with
  | nil => exact ⟨t, rfl, h⟩
  | cons c cs ih =>
      obtain ⟨t₁, h₁, hcolor, hshow⟩ := exec_shows h (hcs c (by simp))
      obtain ⟨t', h₂, hshow'⟩ := ih hshow
        fun c' hc' => hcs c' (List.mem_cons_of_mem c hc')
      have hdef : t₁.defColor = (c.recolor t).defColor := by
        rw [recolor_defColor, hshow.default, h.default]
      refine ⟨t', ?_, ?_⟩
      · unfold run
        rw [h₁, Outcome.ret_bind]
        exact h₂
      · unfold layout
        rw [← layout_congr hcolor hdef]
        exact hshow'

/-- From `clear` on, whatever is written and however it is coloured: the
cursor is on the screen, no access leaves an array, and the screen shows
the last rows of the page, with the cursor where the page has it.

The screen is a window on a page without an end, and the invariant has the
one show the last rows of the other (`Shows`). A step past the last row
moves the window; everything else happens at the cursor. -/
theorem clear_run_window (t : Terminal) {cs : List TermCall}
    (hcs : ∀ c ∈ cs, c.Plain) :
    ∃ t₀ t' p, t.clear = .ret t₀ ∧ run cs t₀ = .ret t'
      ∧ p = layout cs t₀ (Sheet.empty t.defColor)
      ∧ t'.x < VGA_WIDTH ∧ t'.y < VGA_HEIGHT
      ∧ (∀ i < VGA_HEIGHT, ∀ j < VGA_WIDTH,
        t'.cacheBuffer[i * VGA_WIDTH + j]?
          = some (p.cell (p.row + 1 - VGA_HEIGHT + i) j))
      ∧ t'.x = p.col ∧ t'.y = p.row - (p.row + 1 - VGA_HEIGHT) := by
  obtain ⟨t₀, h₀, -, hstart⟩ := Terminal.clear_shows t
  obtain ⟨t', hrun, hshow⟩ := run_shows hstart hcs
  have hx := hshow.col
  have hat := hshow.window.at_row
  refine ⟨t₀, t', _, h₀, hrun, rfl, ?_, hshow.window.y_lt, ?_, hx, ?_⟩
  · rw [hx]
    exact Page.col_lt _
  · intro i hi j hj
    rw [Screen.at_some _ hi hj, hshow.window.shows i hi j hj]
  · omega

/-- A terminal with light grey text on black. -/
def console : Terminal where
  x := 79
  y := 24
  color := 7
  defColor := 7
  vgaBuffer := Vector.replicate _ 0
  cacheBuffer := Vector.replicate _ 0

/-- A line in red that is too long for its row, more empty lines than there
are rows, and the start of the next line. -/
def greeting : List TermCall :=
  [.setFg .red, .tputs (List.replicate 83 0x2a ++ [0x0a, 0]), .resetColor,
    .tputsN (List.replicate 30 0x0a) 30, .tputsN [0x3e, 0x20, 0x3f] 2]

theorem layout_greeting :
    (layout greeting console (Sheet.empty 7)).row = 32
      ∧ (layout greeting console (Sheet.empty 7)).col = 2 := by
  decide +kernel

/-- The page has 33 rows then, and the screen shows the last 25 of them, with
the cursor behind the prompt. -/
theorem clear_run_window_greeting : ∃ t₀ t', ∃ p : Sheet 7,
    console.clear = .ret t₀ ∧ run greeting t₀ = .ret t'
    ∧ p = layout greeting t₀ (Sheet.empty 7)
    ∧ t'.x = 2 ∧ t'.y = 24
    ∧ ∀ i < VGA_HEIGHT, ∀ j < VGA_WIDTH,
      t'.cacheBuffer[i * VGA_WIDTH + j]? = some (p.cell (8 + i) j) := by
  obtain ⟨t₀, t', p, h₀, hrun, hp, -, -, hcells, hx, hy⟩ :=
    clear_run_window console (show ∀ c ∈ greeting, c.Plain by decide +kernel)
  obtain ⟨t₁, h₁, hcolor, hshow⟩ := Terminal.clear_shows console
  obtain rfl : t₀ = t₁ := Outcome.ret.inj (h₀.symm.trans h₁)
  change p = layout greeting t₀ (Sheet.empty 7) at hp
  obtain ⟨hrow, hcol⟩ := layout_greeting
  rw [← layout_congr hcolor hshow.default, ← hp] at hrow hcol
  rw [hrow] at hy hcells
  exact ⟨t₀, t', p, h₀, hrun, hp, hx.trans hcol, hy, hcells⟩

end TermCall

end Ntibux
