/-
Formats as what they are made of: plain characters and directives, a
directive being `%`, digits and a letter.

`complete` tells a format that is nothing but these from one that ends
inside a directive. `RightTypes` is what its directives take from the
argument list, and `fg` and `bg` are what they ask of the two halves of
the colour. None of this looks at what the scanner does.
-/
import Ntibux.Term.Printk
import Ntibux.Lib.LastSet

namespace Ntibux

/-- A plain character, or a directive with its digits and its letter. -/
inductive Piece : Type
  | plain (c : UInt8) (h : c ≠ 0 ∧ c ≠ 0x25)
  | directive (width : List UInt8) (letter : UInt8)
      (hw : ∀ d ∈ width, isDigit d = true)
      (hl : letter ≠ 0 ∧ isDigit letter = false)

namespace Piece

def bytes : Piece → List UInt8
  | plain c _ => [c]
  | directive width letter _ _ => 0x25 :: (width ++ [letter])

/-- The format that the pieces spell. -/
def spell (ps : List Piece) : List UInt8 := ps.flatMap bytes

/-- The pieces of a string, and what is left of it at the end. Behind a
`%`, the digits so far are at hand. -/
def cut : Option { w : List UInt8 // ∀ d ∈ w, isDigit d = true } →
    List UInt8 → List Piece × List UInt8
  | none, [] => ([], [])
  | some w, [] => ([], 0x25 :: w.val)
  | none, c :: s =>
      if h : c ≠ 0 ∧ c ≠ 0x25 then
        let (ps, rest) := cut none s
        (plain c h :: ps, rest)
      else cut (some ⟨[], nofun⟩) s
  | some w, c :: s =>
      if h : isDigit c = true then
        cut (some ⟨w.val ++ [c], by
          intro d hd
          rcases List.mem_append.mp hd with hd | hd
          · exact w.property d hd
          · rw [List.mem_singleton.mp hd]
            exact h⟩) s
      else if h0 : c ≠ 0 then
        let (ps, rest) := cut none s
        (directive w.val c w.property ⟨h0, Bool.eq_false_iff.mpr h⟩ :: ps,
          rest)
      else ([], 0x25 :: w.val)

end Piece

/-- The complete pieces of a format. -/
def pieces (s : List UInt8) : List Piece := (Piece.cut none s).1

/-- The digits as the scanner reads them, in eight bits. -/
def paramOf (width : List UInt8) : UInt8 :=
  width.foldl (fun p c => p * 10 + c - 0x30) 0

/-- The number that the digits are. -/
def numberOf (width : List UInt8) : Nat :=
  width.foldl (fun n c => n * 10 + (c.toNat - 0x30)) 0

/-- The format is no more than plain characters and directives with their
letters. `inside` is set behind a `%` whose letter has not come. -/
def completeFrom : Bool → List UInt8 → Bool
  | inside, [] => !inside
  | false, c :: s => completeFrom (c == 0x25) s
  | true, c :: s => completeFrom (isDigit c) s

def complete (s : List UInt8) : Bool := completeFrom false s

/-- The format behind its log header. -/
def unheaded : List UInt8 → List UInt8
  | [] => []
  | c :: s => if c = LOG_HDR then s.drop 1 else c :: s

/-- If there is a log header, it has a level. -/
def Headed : List UInt8 → Prop
  | [] => True
  | c :: s => c = LOG_HDR → ∃ d rest, s = d :: rest ∧ 0x30 ≤ d ∧ d ≤ 0x37

-- ============================================================== arguments

section

variable (memory : Nat → List UInt8)

/-- The directive takes an argument of its type off the list. -/
def Directive.Accepts (d : Directive) (param : UInt8)
    (params rest : List Arg) : Prop :=
  match d with
  | .string => ∃ p, params = .str p :: rest ∧
      if param = 0 then 0 ∈ memory p else param.toNat ≤ (memory p).length
  | .ulong => ∃ n < 2 ^ 64, params = .long n :: rest
  | .uint | .int | .pointer | .hex | .binary | .char =>
      ∃ n < 2 ^ 32, params = .int n :: rest
  | .percent | .fg | .bg | .reset | .other => params = rest

/-- The list has an argument of the right type for every directive. -/
def Accept : List Piece → List Arg → Prop
  | [], _ => True
  | .plain _ _ :: ps, params => Accept ps params
  | .directive width letter _ _ :: ps, params =>
      ∃ rest, (Directive.of letter).Accepts memory (paramOf width) params rest
        ∧ Accept ps rest

/-- The argument list has the right types for the format. -/
def RightTypes (s : List UInt8) (params : List Arg) : Prop :=
  Accept memory (pieces s) params

end

-- ================================================================ colours

/-- The foreground half of a colour. -/
def fgOf (color : UInt8) : UInt8 := color &&& (0xf : UInt8)

/-- The background half. -/
def bgOf (color : UInt8) : UInt8 := color >>> 4

namespace Piece

/-- What the piece sets the foreground to. -/
def fg (defColor : UInt8) : Piece → Option UInt8
  | plain _ _ => none
  | directive width letter _ _ =>
      match Directive.of letter with
      | .fg => some (if numberOf width = 0 then fgOf defColor
          else .ofNat (numberOf width))
      | .reset => some (fgOf defColor)
      | _ => none

/-- What the piece sets the background to. -/
def bg (defColor : UInt8) : Piece → Option UInt8
  | plain _ _ => none
  | directive width letter _ _ =>
      match Directive.of letter with
      | .bg => some (if numberOf width = 0 then bgOf defColor
          else .ofNat (numberOf width))
      | .reset => some (bgOf defColor)
      | _ => none

/-- `%G` without a parameter. -/
def BareBg : Piece → Prop
  | plain _ _ => False
  | directive width letter _ _ =>
      Directive.of letter = .bg ∧ numberOf width = 0

/-- A background set by anything but a bare `%G`. -/
def paramBg (defColor : UInt8) : Piece → Option UInt8
  | plain _ _ => none
  | directive width letter _ _ =>
      match Directive.of letter with
      | .bg => if numberOf width = 0 then none
          else some (.ofNat (numberOf width))
      | .reset => some (bgOf defColor)
      | _ => none

/-- A parameter of a colour directive is a colour. -/
def Coloured : Piece → Prop
  | plain _ _ => True
  | directive width letter _ _ =>
      Directive.of letter = .fg ∨ Directive.of letter = .bg →
        numberOf width < 16

end Piece

/-- No bare `%G` has a say in the colour at the end: each is followed by a
directive for the foreground, or the foreground asked for is the default
one; and each is followed by another one for the background, or the
background that those leave is the default one. -/
def BareHarmless (defColor color : UInt8) (ps : List Piece) : Prop :=
  (Covered Piece.BareBg (Piece.fg defColor) ps
      ∨ lastSet (Piece.fg defColor) (fgOf color) ps = fgOf defColor)
    ∧ (Covered Piece.BareBg (Piece.paramBg defColor) ps
      ∨ lastSet (Piece.paramBg defColor) (bgOf color) ps = bgOf defColor)

-- ================================================================= paint

/-- What a directive makes of the colour. -/
def Directive.paint (d : Directive) (param defColor color : UInt8) :
    UInt8 :=
  match d with
  | .fg =>
      if param ≠ 0 then param ||| (color &&& 0xf0)
      else (defColor &&& (0xf : UInt8)) ||| (color &&& 0xf0)
  | .bg =>
      if param ≠ 0 then (color &&& (0xf : UInt8)) ||| (param <<< 4)
      else (defColor &&& (0xf : UInt8)) ||| (color &&& 0xf0)
  | .reset => defColor
  | _ => color

/-- What a piece makes of it. -/
def Piece.paint (defColor : UInt8) : Piece → UInt8 → UInt8
  | plain _ _, color => color
  | directive width letter _ _, color =>
      (Directive.of letter).paint (paramOf width) defColor color

-- ================================================================= levels

/-- The format of a log level, without its NUL. -/
def klogText (i : Fin 8) : List UInt8 := klog[i.val].dropLast

end Ntibux
