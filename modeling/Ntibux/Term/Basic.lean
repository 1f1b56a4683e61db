/-
The terminal's screen (terminal.cpp, vga.cpp): `cache_buffer`, the cursor
in it and the colours, and the copy of it that the VGA hardware shows.

A `char` is its eight bits. `cacheBuffer` and `vgaBuffer` are arrays of
`VGA_WIDTH * VGA_HEIGHT` cells, and every access to either goes through
`load`, `store` or `fill`, so that one outside is a `fault`. A string is
the memory from its first character on; running past the end of that
memory is a `fault` as well.
-/
import Ntibux.Lib.Cells

namespace Ntibux

def VGA_WIDTH : Nat := 80

def VGA_HEIGHT : Nat := 25

/-- `VGA_WIDTH * VGA_HEIGHT`, the cells of a screen. -/
abbrev CELLS : Nat := VGA_WIDTH * VGA_HEIGHT

abbrev Screen : Type := Vector UInt16 CELLS

-- =============================================================== colours

/-- `enum vga_color`. -/
inductive VgaColor : Type
  | black | blue | green | cyan | red | magenta | brown | lightGrey
  | darkGrey | lightBlue | lightGreen | lightCyan | lightRed
  | lightMagenta | lightBrown | white
  deriving DecidableEq, Repr

/-- The number of a colour, in the order of the enumeration. -/
def VgaColor.code (c : VgaColor) : UInt8 := UInt8.ofNat c.ctorIdx

def vgaEntryColor (fg bg : VgaColor) : UInt8 := fg.code ||| (bg.code <<< 4)

def vgaEntry (uc color : UInt8) : UInt16 :=
  uc.toUInt16 ||| (color.toUInt16 <<< 8)

-- ============================================================== terminal

structure Terminal where
  x : Nat
  y : Nat
  color : UInt8
  defColor : UInt8
  vgaBuffer : Screen
  cacheBuffer : Screen

namespace Terminal

variable (t : Terminal)

def setFg (fg : VgaColor) : Terminal :=
  { t with color := fg.code ||| (t.color &&& 0xf0) }

def setBg (bg : VgaColor) : Terminal :=
  { t with color := (t.color &&& (0x0f : UInt8)) ||| (bg.code <<< 4) }

def resetColor : Terminal := { t with color := t.defColor }

/-- `set_color(color)`. -/
def setColor (color : UInt8) : Terminal := { t with color := color }

/-- `set_color(fg, bg)`. -/
def setColors (fg bg : VgaColor) : Terminal :=
  { t with color := vgaEntryColor fg bg }

def updateVgaBuffer : Outcome Terminal := do
  let vga ← Outcome.fill (Outcome.load t.cacheBuffer) CELLS 0 t.vgaBuffer
  pure { t with vgaBuffer := vga }

/-- `newbuf` is not initialised, and every cell of it is written before
it is read. -/
def tcurScroll : Outcome Terminal := do
  let v := vgaEntry 0x20 t.defColor
  let newbuf : Screen := Vector.replicate CELLS 0
  let rest := CELLS - VGA_WIDTH
  let newbuf ← Outcome.fill
    (fun dst => Outcome.load t.cacheBuffer (VGA_WIDTH + dst)) rest 0 newbuf
  let newbuf ← Outcome.fill (fun _ => .ret v) (CELLS - rest) rest newbuf
  let cache ← Outcome.fill (Outcome.load newbuf) CELLS 0 t.cacheBuffer
  pure { t with cacheBuffer := cache }

/-- `while (this->x)`: the cells left of the cursor are blanked, the first
one of the row apart. -/
def blankLeft (y : Nat) (v : UInt16) : Nat → Screen → Outcome Screen
  | 0, cache => .ret cache
  | x + 1, cache => do
      let cache ← Outcome.store cache (y * VGA_WIDTH + (x + 1)) v
      blankLeft y v x cache

def tcurBeginning : Outcome Terminal := do
  let cache ← blankLeft t.y (vgaEntry 0x20 t.defColor) t.x t.cacheBuffer
  updateVgaBuffer { t with cacheBuffer := cache, x := 0 }

def tcurNextl : Outcome Terminal :=
  if t.y < VGA_HEIGHT - 1 then .ret { t with x := 0, y := t.y + 1 }
  else tcurScroll { t with x := 0 }

def tcurNext : Outcome Terminal :=
  if t.x < VGA_WIDTH - 1 then .ret { t with x := t.x + 1 }
  else tcurNextl { t with x := 0 }

def clear : Outcome Terminal := do
  let c := vgaEntry 0x20 t.defColor
  let cache ← Outcome.fill (fun _ => .ret c) (VGA_HEIGHT * VGA_WIDTH) 0
    t.cacheBuffer
  updateVgaBuffer { t with x := 0, y := 0, cacheBuffer := cache }

def tputcNoup (c : UInt8) : Outcome Terminal :=
  if c = 0x0a then t.tcurNextl
  else if c = 0x0d then t.tcurBeginning
  else do
    let cache ← Outcome.store t.cacheBuffer (t.y * VGA_WIDTH + t.x)
      (vgaEntry c t.color)
    tcurNext { t with cacheBuffer := cache }

def tputc (c : UInt8) : Outcome Terminal := do
  let t ← t.tputcNoup c
  t.updateVgaBuffer

/-- The loop of `tputs_noup(s)`: up to the terminating NUL. -/
def putString : List UInt8 → Terminal → Outcome Terminal
  | [], _ => .fault
  | c :: s, t => if c = 0 then .ret t else do
      let t ← t.tputcNoup c
      putString s t

/-- The loop of `tputs_noup(s, n)`: `n` characters, whatever they are. -/
def putChars : Nat → List UInt8 → Terminal → Outcome Terminal
  | 0, _, t => .ret t
  | _ + 1, [], _ => .fault
  | n + 1, c :: s, t => do
      let t ← t.tputcNoup c
      putChars n s t

/-- `tputs_noup(s)`, with the number of characters it returns. -/
def tputsNoup (s : List UInt8) : Outcome (Nat × Terminal) := do
  let t ← putString s t
  pure ((s.takeWhile (· ≠ 0)).length, t)

/-- `tputs_noup(s, n)`. -/
def tputsNoupN (s : List UInt8) (n : Nat) : Outcome (Nat × Terminal) := do
  let t ← putChars n s t
  pure (n, t)

/-- `tputs(s)`. -/
def tputs (s : List UInt8) : Outcome (Nat × Terminal) := do
  let (ret, t) ← t.tputsNoup s
  let t ← t.updateVgaBuffer
  pure (ret, t)

/-- `tputs(s, n)`. -/
def tputsN (s : List UInt8) (n : Nat) : Outcome (Nat × Terminal) := do
  let (ret, t) ← t.tputsNoupN s n
  let t ← t.updateVgaBuffer
  pure (ret, t)

end Terminal

-- ================================================================= calls

/-- A call of the terminal that writes or changes the colour. -/
inductive TermCall : Type
  | setFg (fg : VgaColor)
  | setBg (bg : VgaColor)
  | resetColor
  | setColor (color : UInt8)
  | setColors (fg bg : VgaColor)
  | tputc (c : UInt8)
  | tputcNoup (c : UInt8)
  | tputs (s : List UInt8)
  | tputsNoup (s : List UInt8)
  | tputsN (s : List UInt8) (n : Nat)
  | tputsNoupN (s : List UInt8) (n : Nat)
  deriving DecidableEq, Repr

namespace TermCall

def exec : TermCall → Terminal → Outcome Terminal
  | setFg fg, t => .ret (t.setFg fg)
  | setBg bg, t => .ret (t.setBg bg)
  | resetColor, t => .ret t.resetColor
  | setColor color, t => .ret (t.setColor color)
  | setColors fg bg, t => .ret (t.setColors fg bg)
  | tputc c, t => t.tputc c
  | tputcNoup c, t => t.tputcNoup c
  | tputs s, t => do
      let (_, t) ← t.tputs s
      pure t
  | tputsNoup s, t => do
      let (_, t) ← t.tputsNoup s
      pure t
  | tputsN s n, t => do
      let (_, t) ← t.tputsN s n
      pure t
  | tputsNoupN s n, t => do
      let (_, t) ← t.tputsNoupN s n
      pure t

/-- The calls one after another. -/
def run : List TermCall → Terminal → Outcome Terminal
  | [], t => .ret t
  | c :: cs, t => do
      let t ← c.exec t
      run cs t

/-- What a call writes: the characters of its text, up to the NUL or the
count. -/
def text : TermCall → List UInt8
  | tputc c | tputcNoup c => [c]
  | tputs s | tputsNoup s => s.takeWhile (· ≠ 0)
  | tputsN s n | tputsNoupN s n => s.take n
  | _ => []

/-- What a call does to the colour. -/
def recolor : TermCall → Terminal → Terminal
  | setFg fg, t => t.setFg fg
  | setBg bg, t => t.setBg bg
  | resetColor, t => t.resetColor
  | setColor color, t => t.setColor color
  | setColors fg bg, t => t.setColors fg bg
  | _, t => t

/-- The memory holds the text that the call is to write: a string ends
with a NUL, and `n` characters are there when `n` are asked for. -/
def Valid : TermCall → Prop
  | tputs s | tputsNoup s => 0 ∈ s
  | tputsN s n | tputsNoupN s n => n ≤ s.length
  | _ => True

instance : DecidablePred Valid := fun c => by
  cases c <;> unfold Valid <;> infer_instance

end TermCall

end Ntibux
