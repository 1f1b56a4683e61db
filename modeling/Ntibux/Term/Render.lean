/-
What a format and its arguments are to print, read off the format alone.

`Directive.text` is the text of a directive and the arguments behind it;
`ink` puts the texts of the pieces one after another, each character in
the colour that the directives before it have set. A message of the log
starts with the text of its level, where the level is not above the log
level (`messagePieces`), and is not printed at all where it is
(`Quiet`). `stamp` is the ink on the screen.
-/
import Ntibux.Term.Format
import Ntibux.Term.Proofs.Number

namespace Ntibux

-- ================================================================== texts

section

variable (memory : Nat → List UInt8)

/-- The text of a directive, and the arguments left. -/
def Directive.text (d : Directive) (param : UInt8) (params : List Arg) :
    List UInt8 × List Arg :=
  match d, params with
  | .percent, params => ([0x25], params)
  | .string, .str p :: params =>
      (if param = 0 then (memory p).takeWhile (· ≠ 0)
        else (memory p).take param.toNat, params)
  | .ulong, .long n :: params => (padded 10 param.toNat n, params)
  | .uint, .int n :: params => (padded 10 param.toNat n, params)
  | .int, .int n :: params =>
      ((if int32 n < 0 then [0x2d] else [])
        ++ padded 10 param.toNat (int32 n).natAbs, params)
  | .pointer, .int n :: params =>
      (ascii "0x" ++ padded 16 param.toNat n, params)
  | .hex, .int n :: params => (padded 16 param.toNat n, params)
  | .binary, .int n :: params => (padded 2 param.toNat n, params)
  | .char, .int n :: params => ([.ofNat n], params)
  | _, params => ([], params)

def Piece.text (p : Piece) (params : List Arg) : List UInt8 × List Arg :=
  match p with
  | .plain c _ => ([c], params)
  | .directive width letter _ _ =>
      (Directive.of letter).text memory (paramOf width) params

-- ==================================================================== ink

/-- A character and the colour it is written in. -/
structure Ink where
  char : UInt8
  color : UInt8
  deriving DecidableEq, Repr

/-- What the pieces print, the first of them in `color`. -/
def ink (defColor : UInt8) : List Piece → UInt8 → List Arg → List Ink
  | [], _, _ => []
  | p :: ps, color, params =>
      (p.text memory params).1.map (fun c => ⟨c, color⟩)
        ++ ink defColor ps (p.paint defColor color) (p.text memory params).2

end

/-- The colour after the pieces. -/
def colorAfter (defColor : UInt8) (ps : List Piece) (color : UInt8) :
    UInt8 :=
  ps.foldl (fun c p => p.paint defColor c) color

/-- The level of a message of the log. -/
def levelIn : List UInt8 → Option Int
  | c :: d :: _ => if c = LOG_HDR then some (levelOf d) else none
  | _ => none

/-- The message is not printed. -/
def Quiet (logLevel : UInt8) (s : List UInt8) : Prop :=
  ∃ level ∈ levelIn s, (logLevel.toNat : Int) < level

instance (logLevel : UInt8) (s : List UInt8) : Decidable (Quiet logLevel s) :=
  inferInstanceAs (Decidable (∃ level, level ∈ levelIn s ∧ _))

/-- What comes before the format itself: the text of the level. -/
def levelPieces (s : List UInt8) : List Piece :=
  match levelIn s with
  | none => []
  | some level => if h : level.toNat < 8 then
      pieces (klogText ⟨level.toNat, h⟩) else []

/-- All pieces of a message. -/
def messagePieces (s : List UInt8) : List Piece :=
  levelPieces s ++ pieces (unheaded s)

namespace Terminal

/-- The ink on the screen. -/
def stamp : List Ink → Terminal → Outcome Terminal
  | [], t => .ret t
  | i :: is, t => do
      let t ← (t.setColor i.color).tputcNoup i.char
      stamp is t

end Terminal

namespace PrintkCall

/-- The format without its NUL. -/
def text (c : PrintkCall) : List UInt8 := c.format.dropLast

/-- The format is complete and its arguments are of the right types, and
the log level lets it through. -/
structure Proper (memory : Nat → List UInt8) (logLevel : UInt8)
    (c : PrintkCall) : Prop where
  ended : c.format = c.text ++ [0]
  noNul : 0 ∉ c.text
  headed : Headed c.text
  complete : complete (unheaded c.text) = true
  types : RightTypes memory (unheaded c.text) c.params
  loud : ¬Quiet logLevel c.text

end PrintkCall

/-- The ink of a call. -/
def PrintkCall.ink (memory : Nat → List UInt8) (defColor color : UInt8)
    (c : PrintkCall) : List Ink :=
  Ntibux.ink memory defColor (messagePieces c.text) color c.params

end Ntibux
