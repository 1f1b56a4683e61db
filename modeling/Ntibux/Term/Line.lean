/-
The line editor (terminal.cpp): scancodes become keypresses, and
`tread_line` puts their characters in a buffer.

The scancodes that come are a list, and when it is used up the code sleeps
on for the next one, which is a `timeout`. `buf` is the array of its first
`m` cells: a write to another is a `fault`.
-/
import Ntibux.Term.Basic

namespace Ntibux

/-- `terminal::kbdus`. -/
def kbdus : Vector UInt8 128 :=
  ⟨#[0, 0x1b, 0x31, 0x32, 0x33, 0x34, 0x35, 0x36, 0x37, 0x38, 0x39, 0x30,
    0x2d, 0x3d, 0x08, 0x09, 0x71, 0x77, 0x65, 0x72, 0x74, 0x79, 0x75, 0x69,
    0x6f, 0x70, 0x5b, 0x5d, 0x0a, 0, 0x61, 0x73, 0x64, 0x66, 0x67, 0x68,
    0x6a, 0x6b, 0x6c, 0x3b, 0x27, 0x60, 0, 0x5c, 0x7a, 0x78, 0x63, 0x76,
    0x62, 0x6e, 0x6d, 0x2c, 0x2e, 0x2f, 0, 0x2a, 0, 0x20, 0, 0,
    0, 0, 0, 0, 0, 0, 0, 0, 0, 0, 0, 0,
    0, 0, 0x2d, 0, 0, 0, 0x2b, 0, 0, 0, 0, 0,
    0, 0, 0, 0, 0, 0, 0, 0, 0, 0, 0, 0,
    0, 0, 0, 0, 0, 0, 0, 0, 0, 0, 0, 0,
    0, 0, 0, 0, 0, 0, 0, 0, 0, 0, 0, 0,
    0, 0, 0, 0, 0, 0, 0, 0], rfl⟩

/-- `terminal::uppercase`. -/
def uppercase : Vector UInt8 128 :=
  ⟨#[0, 0, 0, 0, 0, 0, 0, 0, 0, 0, 0, 0,
    0, 0, 0, 0, 0, 0, 0, 0, 0, 0, 0, 0,
    0, 0, 0, 0, 0, 0, 0, 0, 0, 0, 0, 0,
    0, 0, 0, 0x22, 0, 0, 0, 0, 0x3c, 0x5f, 0x3e, 0x3f,
    0x29, 0x21, 0x40, 0x23, 0x24, 0x25, 0x5e, 0x26, 0x2a, 0x28, 0, 0x3a,
    0, 0x2b, 0, 0, 0, 0, 0, 0, 0, 0, 0, 0,
    0, 0, 0, 0, 0, 0, 0, 0, 0, 0, 0, 0,
    0, 0, 0, 0, 0, 0, 0, 0x7b, 0x7c, 0x7d, 0, 0,
    0x7e, 0x41, 0x42, 0x43, 0x44, 0x45, 0x46, 0x47, 0x48, 0x49, 0x4a, 0x4b,
    0x4c, 0x4d, 0x4e, 0x4f, 0x50, 0x51, 0x52, 0x53, 0x54, 0x55, 0x56, 0x57,
    0x58, 0x59, 0x5a, 0, 0, 0, 0, 0], rfl⟩

structure Keypress where
  asc : UInt8
  scancode : UInt8
  ctrl : Bool
  alt : Bool
  deriving DecidableEq, Repr

/-- The scancodes to come, and the bits `shift`, `ctrl` and `alt` of the
terminal. -/
structure Keys where
  codes : List UInt8
  shift : Bool
  ctrl : Bool
  alt : Bool
  deriving DecidableEq, Repr

/-- `get_scancode`, from the codes on. -/
def getScancodeFrom : List UInt8 → Keys → Outcome (UInt8 × Keys)
  | [], _ => .timeout
  | c :: codes, s =>
      if c = 0x1d ∨ c = 0x9d then
        getScancodeFrom codes { s with ctrl := c &&& 0x80 == 0 }
      else if c = 0x2a ∨ c = 0xaa then
        getScancodeFrom codes { s with shift := c &&& 0x80 == 0 }
      else if c = 0x38 ∨ c = 0xb8 then
        getScancodeFrom codes { s with alt := c &&& 0x80 == 0 }
      else if c &&& 0x80 ≠ 0 then getScancodeFrom codes s
      else .ret (c, { s with codes := codes })

def getScancode (s : Keys) : Outcome (UInt8 × Keys) :=
  getScancodeFrom s.codes s

/-- The character of a scancode. -/
def ascOf (shift : Bool) (scancode : UInt8) : Outcome UInt8 := do
  let lower ← Outcome.load kbdus scancode.toNat
  if shift then do
    let upper ← Outcome.load uppercase lower.toNat
    .ret (if upper ≠ 0 then upper else lower)
  else .ret lower

namespace Terminal

variable (cursor : UInt16)

def updateCursor (t : Terminal) : Outcome Terminal := do
  let vga ← Outcome.store t.vgaBuffer (t.y * VGA_WIDTH + t.x) cursor
  .ret { t with vgaBuffer := vga }

def getchar (s : Keys) (t : Terminal) :
    Outcome (Keypress × Keys × Terminal) := do
  let t ← t.updateCursor cursor
  let (scancode, s) ← getScancode s
  let asc ← ascOf s.shift scancode
  .ret ({ asc, scancode, ctrl := s.ctrl, alt := s.alt }, s, t)

def tputcXyNoup (c : UInt8) (x y : Nat) (t : Terminal) :
    Outcome Terminal := do
  let cache ← Outcome.store t.cacheBuffer (y * VGA_WIDTH + x)
    (vgaEntry c t.color)
  .ret { t with x := x, y := y, cacheBuffer := cache }

def tputcXy (c : UInt8) (x y : Nat) (t : Terminal) : Outcome Terminal := do
  let t ← t.tputcXyNoup c x y
  t.updateVgaBuffer

/-- `check_binds(k)`: `ctrl` and `l` clear the screen. -/
def checkBinds (k : Keypress) (t : Terminal) : Outcome (Bool × Terminal) :=
  if k.ctrl ∧ k.asc = 0x6c then do
    let t ← t.clear
    .ret (true, t)
  else .ret (false, t)

/-- The cursor steps back, over the edge of the row as well. -/
def stepBack (t : Terminal) : Terminal :=
  if 0 < t.x then { t with x := t.x - 1 }
  else if 0 < t.y then { t with x := VGA_WIDTH - 1, y := t.y - 1 }
  else t

/-- The variables of `tread_line`. -/
structure Line (m : Nat) where
  keys : Keys
  i : Nat
  buf : Vector UInt8 m
  term : Terminal

variable {m : Nat}

/-- What the loop does with a keypress, and whether it returns. -/
def treadKey (k : Keypress) (s : Line m) : Outcome (Bool × Line m) := do
  let (bound, t) ← s.term.checkBinds k
  if bound then .ret (false, { s with term := t })
  else do
    let asc := if k.asc = 0x09 then 0x20 else k.asc
    if asc = 0x08 then
      if 0 < s.i then do
        let t := t.stepBack
        let t ← t.tputcXy 0x20 t.x t.y
        .ret (false, { s with i := s.i - 1, term := t })
      else .ret (false, { s with term := t })
    else do
      let buf ← Outcome.store s.buf s.i asc
      let t ← t.tputc asc
      .ret (asc == 0x0a, { s with i := s.i + 1, buf := buf, term := t })

/-- `while (i < n - 1)`. -/
def treadLoop (n : Nat) : Nat → Line m → Outcome (Line m)
  | 0, _ => .timeout
  | fuel + 1, s =>
      if s.i < n - 1 then do
        let (k, keys, t) ← s.term.getchar cursor s.keys
        let (stop, s) ← treadKey k { s with keys := keys, term := t }
        if stop then .ret s else treadLoop n fuel s
      else .ret s

/-- `tread_line(buf, n)`; what it returns is `i`. -/
def treadLine (n fuel : Nat) (keys : Keys) (buf : Vector UInt8 m)
    (t : Terminal) : Outcome (Line m) :=
  treadLoop cursor n fuel { keys := keys, i := 0, buf := buf, term := t }

end Terminal

end Ntibux
