/-
The printer (terminal_printk.cpp): numbers in a base, and the scanner of
`vprintk` over its format.

The format is the memory from its first character on, and reading past
the end of that memory is a `fault`: with the terminating NUL as the last
byte, a scan that goes on behind it shows. `params` is the argument list,
each argument with the type it was passed as; taking one that is not
there, or of another type, is a `fault` too. `memory` gives the memory
from an address on, for the strings that are passed by address.
-/
import Ntibux.Term.Basic
import Ntibux.Lib.Word

namespace Ntibux

/-- The characters of a literal, without the NUL. -/
def ascii (s : String) : List UInt8 := s.toList.map fun c => .ofNat c.toNat

def isDigit (c : UInt8) : Bool := 0x30 ≤ c && c ≤ 0x39

/-- The types `putuint_b` is instantiated at. -/
inductive UType : Type
  | u32 | u64
  deriving DecidableEq, Repr

def UType.bits : UType → Nat
  | .u32 => 32
  | .u64 => 64

/-- An argument of `printk`: an `unsigned int`, an `unsigned long long`
or a `char *`. -/
inductive Arg : Type
  | int (n : Nat)
  | long (n : Nat)
  | str (p : Nat)
  deriving DecidableEq, Repr

/-- `va_arg(params, unsigned int)`. -/
def vaInt : List Arg → Outcome (Nat × List Arg)
  | .int n :: params => .ret (n, params)
  | _ => .fault

/-- `va_arg(params, unsigned long long)`. -/
def vaLong : List Arg → Outcome (Nat × List Arg)
  | .long n :: params => .ret (n, params)
  | _ => .fault

/-- `va_arg(params, char*)`. -/
def vaStr : List Arg → Outcome (Nat × List Arg)
  | .str p :: params => .ret (p, params)
  | _ => .fault

/-- A call of `printk`, as it is made. -/
structure PrintkCall where
  format : List UInt8
  params : List Arg
  deriving DecidableEq, Repr

-- =============================================================== numbers

/-- `"0123456789abcdef"`, with its NUL. -/
def hexDigits : Vector UInt8 17 :=
  ⟨(ascii "0123456789abcdef" ++ [0]).toArray, rfl⟩

/-- The variables of the first loop of `putuint_b`. -/
structure Lead where
  tmp : Nat
  l : Nat
  padding : Int

/-- The variables of its last loop. -/
structure Tail where
  nbr : Nat
  l : Nat

/-- One turn of the first loop. -/
def Lead.next (T : UType) (base : Nat) (s : Lead) : Lead where
  tmp := s.tmp / base
  l := s.l * base % 2 ^ T.bits
  padding := s.padding - 1

/-- One turn of the last loop. -/
def Tail.next (base : Nat) (s : Tail) : Tail where
  nbr := s.nbr % s.l
  l := s.l / base

/-- `while (tmp >= (T)base)`. -/
def leadLoop (T : UType) (base : Nat) : Nat → Lead → Outcome Lead
  | 0, _ => .timeout
  | fuel + 1, s =>
      if base % 2 ^ T.bits ≤ s.tmp then leadLoop T base fuel (s.next T base)
      else .ret s

namespace Terminal

/-- `while (--padding > 0)`, with the number of characters so far. -/
def padLoop : Nat → Int → Nat → Terminal → Outcome (Nat × Terminal)
  | 0, _, _, _ => .timeout
  | fuel + 1, padding, w, t =>
      if 0 < padding - 1 then do
        let t ← t.tputcNoup 0x30
        padLoop fuel (padding - 1) (w + 1) t
      else .ret (w, t)

/-- `while (l)`. -/
def tailLoop (base : Nat) : Nat → Tail → Nat → Terminal →
    Outcome (Nat × Terminal)
  | 0, _, _, _ => .timeout
  | fuel + 1, s, w, t =>
      if s.l ≠ 0 then do
        let c ← Outcome.load hexDigits (s.nbr / s.l)
        let t ← t.tputcNoup c
        tailLoop base fuel (s.next base) (w + 1) t
      else .ret (w, t)

/-- `putuint_b<T>(nbr, base, padding)`. -/
def putuintB (T : UType) (fuel nbr base : Nat) (padding : Int)
    (t : Terminal) : Outcome (Nat × Terminal) := do
  let s ← leadLoop T base fuel { tmp := nbr, l := 1, padding := padding }
  let (w, t) ← padLoop fuel s.padding 0 t
  tailLoop base fuel { nbr := nbr, l := s.l } w t

/-- `putint_b(nbr, base, padding)`; `-nbr` is taken as an `unsigned`. -/
def putintB (fuel : Nat) (nbr : Int) (base : Nat) (padding : Int)
    (t : Terminal) : Outcome (Nat × Terminal) :=
  if nbr < 0 then do
    let t ← t.tputcNoup 0x2d
    let (w, t) ← t.putuintB .u32 fuel (-nbr % 2 ^ 32).toNat base padding
    .ret (1 + w, t)
  else do
    let (w, t) ← t.putuintB .u32 fuel nbr.toNat base padding
    .ret (0 + w, t)

end Terminal

-- ============================================================ the scanner

/-- `*LOG_HDR`. -/
def LOG_HDR : UInt8 := 1

/-- `*format - '0'`. -/
def levelOf (c : UInt8) : Int := c.toInt8.toInt - 0x30

/-- `terminal::klog`, the formats of the log levels. -/
def klog : Vector (List UInt8) 8 :=
  #v[ascii "%4G%0g[EMRG]%r " ++ [0],
    ascii "%4g[ALT]%r " ++ [0],
    ascii "%12g[CRI]%r " ++ [0],
    ascii "%12g[ERR]%r " ++ [0],
    ascii "%14g[WAR]%r " ++ [0],
    ascii "%11g[NOT]%r " ++ [0],
    ascii "%6g[INF]%r " ++ [0],
    ascii "%3g[DBG]%r " ++ [0]]

/-- `klog[level]`. -/
def klogAt (level : Int) : Outcome (List UInt8) :=
  if level < 0 then .fault else Outcome.load klog level.toNat

/-- The digits between `%` and its letter: the parameter, and the format
from the letter on. -/
def widthLoop : List UInt8 → UInt8 → Outcome (UInt8 × List UInt8)
  | [], _ => .fault
  | c :: format, param =>
      if c ≠ 0 ∧ isDigit c then
        widthLoop format (param * 10 + c - 0x30)
      else .ret (param, c :: format)

/-- The cases of `switch(*format)`. -/
inductive Directive : Type
  | percent | string | ulong | uint | int | pointer | hex | binary
  | char | fg | bg | reset | other
  deriving DecidableEq, Repr

/-- The case of a letter. -/
def Directive.of (c : UInt8) : Directive :=
  match Char.ofNat c.toNat with
  | '%' => .percent
  | 's' => .string
  | 'U' => .ulong
  | 'u' => .uint
  | 'i' | 'd' => .int
  | 'p' => .pointer
  | 'x' => .hex
  | 'b' => .binary
  | 'c' => .char
  | 'g' => .fg
  | 'G' => .bg
  | 'r' => .reset
  | _ => .other

namespace Terminal

/-- `%g`: set the foreground, or reset it if there is no parameter. -/
def setParamFg (param : UInt8) (t : Terminal) : Terminal :=
  if param ≠ 0 then t.setColor (param ||| (t.color &&& 0xf0))
  else t.setColor ((t.defColor &&& (0xf : UInt8)) ||| (t.color &&& 0xf0))

/-- `%G`, with the same second branch as `%g`. -/
def setParamBg (param : UInt8) (t : Terminal) : Terminal :=
  if param ≠ 0 then t.setColor ((t.color &&& (0xf : UInt8)) ||| (param <<< 4))
  else t.setColor ((t.defColor &&& (0xf : UInt8)) ||| (t.color &&& 0xf0))

/-- `putuint_b(va_arg(params, unsigned int), base, param)`. -/
def putArg (fuel base : Nat) (param : UInt8) (params : List Arg)
    (t : Terminal) : Outcome (Nat × List Arg × Terminal) := do
  let (n, params) ← vaInt params
  let (w, t) ← t.putuintB .u32 fuel n base param.toNat
  .ret (w, params, t)

section

variable (memory : Nat → List UInt8)

/-- A case of the switch: what is added to `w`, and the arguments left. -/
def directive (fuel : Nat) (d : Directive) (param : UInt8)
    (params : List Arg) (t : Terminal) :
    Outcome (Nat × List Arg × Terminal) :=
  match d with
  | .percent => do
      let t ← t.tputcNoup 0x25
      .ret (1, params, t)
  | .string => do
      let (p, params) ← vaStr params
      let (w, t) ← if param ≠ 0 then t.tputsNoupN (memory p) param.toNat
        else t.tputsNoup (memory p)
      .ret (w, params, t)
  | .ulong => do
      let (n, params) ← vaLong params
      let (w, t) ← t.putuintB .u64 fuel n 10 param.toNat
      .ret (w, params, t)
  | .uint => t.putArg fuel 10 param params
  | .int => do
      let (n, params) ← vaInt params
      let (w, t) ← t.putintB fuel (int32 n) 10 param.toNat
      .ret (w, params, t)
  | .pointer => do
      let (_, t) ← t.tputsNoup (ascii "0x" ++ [0])
      -- and on into case 'x'
      let (w, params, t) ← t.putArg fuel 16 param params
      .ret (2 + w, params, t)
  | .hex => t.putArg fuel 16 param params
  | .binary => t.putArg fuel 2 param params
  | .char => do
      let (n, params) ← vaInt params
      let t ← t.tputcNoup (.ofNat n)
      .ret (1, params, t)
  | .fg => .ret (0, params, t.setParamFg param)
  | .bg => .ret (0, params, t.setParamBg param)
  | .reset => .ret (0, params, t.resetColor)
  | .other => .ret (0, params, t)

/-- `while (*format)`. -/
def scanLoop : Nat → List UInt8 → List Arg → Nat → Terminal →
    Outcome (Nat × Terminal)
  | 0, _, _, _, _ => .timeout
  | _ + 1, [], _, _, _ => .fault
  | fuel + 1, c :: format, params, w, t =>
      if c = 0 then .ret (w, t)
      else if c = 0x25 then do
        let (param, format) ← widthLoop format 0
        match format with
        | [] => .fault
        | c :: format => do
            let (dw, params, t) ←
              t.directive memory fuel (.of c) param params
            scanLoop fuel format params (u32 (w + dw)) t
      else do
        let t ← t.tputcNoup c
        scanLoop fuel format params (u32 (w + 1)) t

variable (logLevel : UInt8)

/-- The message is above the log level. -/
def hushed : List UInt8 → Outcome Bool
  | [] => .fault
  | c :: format =>
      if c = LOG_HDR then
        match format with
        | [] => .fault
        | d :: _ => .ret (decide ((logLevel.toNat : Int) < levelOf d))
      else .ret false

/-- `printk_noup(format, ...)`; `vprintk` is its call of `vprintk`, with
the arguments that it was given. -/
def printkNoup (vprintk : List UInt8 → Outcome (Nat × Terminal))
    (format : List UInt8) (t : Terminal) : Outcome (Nat × Terminal) := do
  let quiet ← hushed logLevel format
  if quiet then .ret (0, t)
  else vprintk format

/-- The branch of `vprintk` for a log header; `vprintk` is its call of
itself, through `printk_noup`, on the format of the level. -/
def logHeader (vprintk : List UInt8 → Outcome (Nat × Terminal))
    (level : Int) (t : Terminal) : Outcome Terminal :=
  if level ≤ logLevel.toNat then do
    let format ← klogAt level
    let (_, t) ← t.printkNoup logLevel vprintk format
    .ret t
  else .ret t

/-- `vprintk(format, params)`. -/
def vprintk : Nat → List UInt8 → List Arg → Terminal →
    Outcome (Nat × Terminal)
  | 0, _, _, _ => .timeout
  | _ + 1, [], _, _ => .fault
  | fuel + 1, c :: format, params, t =>
      if c = LOG_HDR then
        match format with
        | [] => .fault
        | d :: format => do
            let t ← logHeader logLevel
              (fun format => vprintk fuel format [] t) (levelOf d) t
            t.scanLoop memory fuel format params 0
      else t.scanLoop memory fuel (c :: format) params 0

/-- `printk(format, ...)`. -/
def printk (fuel : Nat) (format : List UInt8) (params : List Arg)
    (t : Terminal) : Outcome (Nat × Terminal) := do
  let quiet ← hushed logLevel format
  if quiet then .ret (0, t)
  else do
    let (w, t) ← t.vprintk memory logLevel fuel format params
    let t ← t.updateVgaBuffer
    .ret (w, t)

end

end Terminal

end Ntibux
