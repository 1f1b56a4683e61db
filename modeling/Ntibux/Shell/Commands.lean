/-
The commands (interpreter.cpp), one handler for each.

A handler is modelled by what it does, in order: the pointers that it
uses, what it prints, and its calls of the rest of the kernel, which end
the part of it that matters here. A use of `args[n]` at an offset is
written down with both. The words that `x` reads at the address it was
given are those of the memory, whether a page is mapped there or not.
-/
import Ntibux.Lib.Traced
import Ntibux.Mem.Basic
import Ntibux.Shell.Basic

namespace Ntibux

-- =================================================================== atoi

def isLower (c : UInt8) : Bool := 0x61 ≤ c && c ≤ 0x7a

def isUpper (c : UInt8) : Bool := 0x41 ≤ c && c ≤ 0x5a

def isPrint (c : UInt8) : Bool := 0x20 ≤ c && c ≤ 0x7e

def isBdigit (c : UInt8) : Bool := 0x30 ≤ c && c ≤ 0x31

def isOdigit (c : UInt8) : Bool := 0x30 ≤ c && c ≤ 0x37

def isXdigit (c : UInt8) : Bool :=
  (0x30 ≤ c && c ≤ 0x39) || (0x41 ≤ c && c ≤ 0x46)
    || (0x61 ≤ c && c ≤ 0x66)

def toLower (c : UInt8) : UInt8 := if isUpper c then c + 0x20 else c

/-- `is_digit_base`. -/
def isDigitBase : Nat → Option (UInt8 → Bool)
  | 2 => some isBdigit
  | 8 => some isOdigit
  | 10 => some isDigit
  | 16 => some isXdigit
  | _ => none

/-- The loop of `atoi(s, base)`. -/
def atoiLoop (isDigit : UInt8 → Bool) (base : Nat) :
    List UInt8 → Nat → Outcome Nat
  | [], _ => .fault
  | c :: s, out =>
      if isDigit c then
        atoiLoop isDigit base s (u32 (out * base
          + ((toLower c).toNat - if isLower c then 0x61 - 10 else 0x30)))
      else .ret out

/-- `atoi(s, base)`. -/
def atoiBase (s : List UInt8) (base : Nat) : Outcome Nat :=
  match isDigitBase base with
  | some isDigit => atoiLoop isDigit base s 0
  | none => .fault

/-- `atoi(s)`. -/
def atoi : List UInt8 → Outcome Nat
  | [] => .fault
  | c :: s =>
      if c = 0x30 then
        match s with
        | [] => .fault
        | d :: s' =>
            if toLower d = 0x78 then atoiBase s' 16
            else if toLower d = 0x62 then atoiBase s' 2
            else atoiBase s 8
      else atoiBase (c :: s) 10

/-- `strchr(s, c)` finds the character. -/
def strchr (s : List UInt8) (c : UInt8) : Bool := (s.takeWhile (· ≠ 0)).elem c

-- ================================================================= actions

/-- What a handler does. -/
inductive Action : Type
  | atoi (p i : Nat)
  | strcmp (s : List UInt8) (p : Nat)
  | index (p i : Nat)
  | peek (ptr : Nat)
  | printk (call : PrintkCall)
  | tputs (p : Nat)
  | tputc (c : UInt8)
  | updateCursor
  | clear
  | setFg (c : Nat)
  | setBg (c : Nat)
  | resetColor
  | setLogLevel (level : Nat)
  | inb (port : Nat)
  | outb (port val : Nat)
  | motd
  | trace
  | memStatus
  | memDump (pd : Option Nat)
  | kheapAlloc (size : Nat)
  | kheapFree (addr size : Nat)
  | intDump
  | timerDump
  | schedDump (id : Option Nat)
  | cpusDump
  deriving DecidableEq, Repr

/-- A null pointer is converted, compared, indexed or printed. -/
def Action.usesNull : Action → Bool
  | .atoi p _ => p == 0
  | .strcmp _ p => p == 0
  | .index p _ => p == 0
  | .tputs p => p == 0
  | .printk call => call.params.contains (.str 0)
  | _ => false

/-- The member functions that are registered. -/
inductive Handler : Type
  | help | clear | exit | echo | motd | colortest | logLevel | trace | mem
  | x | int | time | sched | cpus
  deriving DecidableEq, Repr

/-- What the handlers work on: the interpreter at `self`, the memory, the
log level of the terminal, and what the port that `exit` waits on will
give. -/
structure Shell where
  interp : Interpreter Handler
  self : Nat
  self_ne : self ≠ 0
  bytes : Bytes
  logLevel : Nat
  inputs : List UInt8

namespace Shell

open Traced (emit lift)

/-- The size of a `command`: its name and a pointer to member. -/
def COMMAND_SIZE : Nat := MAX_COMMAND_NAME_LEN + 8

def printk (format : String) (params : List Arg) : Traced Action Unit :=
  emit (.printk ⟨ascii format ++ [0], params⟩)

/-- `!strcmp(s, args[n])`, for a literal. -/
def spells (s : String) (p : Nat) (sh : Shell) : Traced Action Bool := do
  emit (.strcmp (ascii s ++ [0]) p)
  let diff ← lift (strcmp (ascii s ++ [0]) (sh.bytes.upFrom p))
  pure (diff = 0)

/-- `atoi(args[n] + i)`. -/
def atoiArg (p i : Nat) (sh : Shell) : Traced Action Nat := do
  emit (.atoi p i)
  lift (atoi (sh.bytes.upFrom (p + i)))

/-- `args[n][i]`. -/
def indexArg (p i : Nat) (sh : Shell) : Traced Action UInt8 := do
  emit (.index p i)
  pure (sh.bytes (p + i))

-- ================================================================ handlers

/-- The loop of `command_help` from index `i` on. -/
def helpLoop (self : Nat) : Nat → List (Command Handler) →
    Traced Action Unit
  | _, [] => pure ()
  | i, _ :: commands => do
      printk "    %11g%s%r\n" [.str (self + COMMAND_SIZE * i)]
      helpLoop self (i + 1) commands

def commandHelp (sh : Shell) : Traced Action Nat := do
  printk "%10gavailable commands:%r \n" []
  helpLoop sh.self 0 sh.interp.commands
  pure 0

def commandClear : Traced Action Nat := do
  emit .clear
  pure 0

/-- `while (inb(0x64 & 1)) inb(0x60)`, for what the first port gives. -/
def exitLoop : List UInt8 → Traced Action Unit
  | [] => lift .timeout
  | status :: inputs => do
      emit (.inb (0x64 &&& 1))
      if status ≠ 0 then do
        emit (.inb 0x60)
        exitLoop inputs
      else pure ()

def commandExit (sh : Shell) : Traced Action Nat := do
  exitLoop sh.inputs
  emit (.outb 0x64 0xfe)
  pure 0

/-- The loop of `command_echo` over the rest of the array. -/
def echoLoop : List Nat → Traced Action Unit
  | [] => lift .fault
  | p :: args =>
      if p ≠ 0 then do
        emit (.tputs p)
        emit (.tputc 0x20)
        echoLoop args
      else pure ()

def commandEcho (args : Splits) : Traced Action Nat := do
  echoLoop (args.toList.drop 1)
  emit (.tputc 0x0a)
  emit .updateCursor
  pure 0

def commandMotd : Traced Action Nat := do
  emit .motd
  pure 0

/-- The loop of `command_colortest`, for `n` more colours from `c` on. -/
def colortestLoop : Nat → Nat → Traced Action Unit
  | 0, _ => pure ()
  | n + 1, c => do
      emit (.setFg c)
      printk "%2d " [.int c]
      emit (.setBg c)
      printk "  \n" [.int c]
      emit .resetColor
      colortestLoop n (c + 1)

def commandColortest : Traced Action Nat := do
  colortestLoop 16 0
  pure 0

/-- `set_log_level` takes a `u8`, and refuses what is above 7. -/
def commandLogLevel (args : Splits) (sh : Shell) : Traced Action Nat := do
  printk "current log level: %8g%u%r\n" [.int sh.logLevel]
  if args.get 1 ≠ 0 then do
    let c ← sh.indexArg (args.get 1) 0
    let level := (c - 0x30).toNat
    emit (.setLogLevel level)
    if level ≤ 7 then do
      printk "new log level: %8g%u%r\n" [.int level]
      pure 0
    else pure 0
  else pure 0

def commandTrace : Traced Action Nat := do
  emit .trace
  pure 0

/-- `usage:` of `command_mem`. -/
def memUsage (args : Splits) : Traced Action Nat := do
  printk "usage: %s (status|dump|alloc|free)\n" [.str (args.get 0)]
  pure 1

def memDumpCommand (args : Splits) (sh : Shell) : Traced Action Nat :=
  if args.get 2 ≠ 0 then do
    let pd ← sh.atoiArg (args.get 2) 0
    if pd ≠ 0 then do
      emit (.memDump (some pd))
      pure 0
    else do
      printk "usage: %s %s [pd address]\n"
        [.str (args.get 0), .str (args.get 1)]
      pure 0
  else do
    emit (.memDump none)
    pure 0

def memAllocCommand (args : Splits) (sh : Shell) : Traced Action Nat := do
  let nbr ← (if args.get 2 ≠ 0 then sh.atoiArg (args.get 2) 0 else pure 0)
  if nbr ≠ 0 then do
    emit (.kheapAlloc (u32 (nbr * PAGESIZE)))
    pure 0
  else do
    printk "usage: %s %s $nbr_of_pages\n"
      [.str (args.get 0), .str (args.get 1)]
    pure 0

/-- `addr` and `nbr` are converted before the arguments are looked at, and
once more behind that. -/
def memFreeCommand (args : Splits) (sh : Shell) : Traced Action Nat := do
  let _ ← sh.atoiArg (args.get 2) 0
  let _ ← sh.atoiArg (args.get 3) 0
  let both := args.get 2 ≠ 0 ∧ args.get 3 ≠ 0
  let addr ← (if both then sh.atoiArg (args.get 2) 0 else pure 0)
  let nbr ← (if addr ≠ 0 then sh.atoiArg (args.get 3) 0 else pure 0)
  if nbr ≠ 0 then do
    emit (.kheapFree addr (u32 (nbr * PAGESIZE)))
    pure 0
  else do
    printk "usage: %s %s $addr $nbr_of_pages\n"
      [.str (args.get 0), .str (args.get 1)]
    pure 0

def commandMem (args : Splits) (sh : Shell) : Traced Action Nat := do
  if args.get 1 = 0 then memUsage args
  else if ← sh.spells "status" (args.get 1) then do
    emit .memStatus
    pure 0
  else if ← sh.spells "dump" (args.get 1) then sh.memDumpCommand args
  else if ← sh.spells "alloc" (args.get 1) then sh.memAllocCommand args
  else if ← sh.spells "free" (args.get 1) then sh.memFreeCommand args
  else do
    printk "unknown subcommand %s\n" [.str (args.get 1)]
    memUsage args

/-- `is_print(c) && !is_sep(c) ? c : ' '`. -/
def shown (c : UInt8) : UInt8 := if isPrint c && !isSep c then c else 0x20

/-- The `switch (fmt)` of `command_x`. -/
def printWord (fmt : UInt8) (ptr : Nat) (sh : Shell) :
    Traced Action Unit := do
  if fmt = 0x64 ∨ fmt = 0x69 then do
    emit (.peek ptr)
    printk " %d" [.int (sh.bytes.read32 ptr)]
  else if fmt = 0x75 then do
    emit (.peek ptr)
    printk " %u" [.int (sh.bytes.read32 ptr)]
  else if fmt = 0x63 then do
    emit (.peek ptr)
    printk " %c%c%c%c" [.int (shown (sh.bytes ptr)).toNat,
      .int (shown (sh.bytes (ptr + 1))).toNat,
      .int (shown (sh.bytes (ptr + 2))).toNat,
      .int (shown (sh.bytes (ptr + 3))).toNat]
  else if fmt = 0x78 then do
    emit (.peek ptr)
    printk " 0x%8x" [.int (sh.bytes.read32 ptr)]
  else pure ()

/-- `while (rep--)` of `command_x`. -/
def xLoop (address : Nat) (fmt : UInt8) (sh : Shell) :
    Nat → Nat → Traced Action Unit
  | 0, _ => pure ()
  | rep + 1, ptr => do
      (if address &&& 0xf = ptr &&& 0xf then printk "%8x:" [.int ptr]
        else pure ())
      sh.printWord fmt ptr
      let ptr := u32 (ptr + 4)
      (if address &&& 0xf = ptr &&& 0xf then printk "\n" [] else pure ())
      xLoop address fmt sh rep ptr

def xDump (address rep : Nat) (fmt : UInt8) (sh : Shell) :
    Traced Action Nat := do
  xLoop address fmt sh rep address
  printk "\n" []
  pure 0

def xUsage (args : Splits) : Traced Action Nat := do
  printk "usage: %s (/(x|d|i|u|c)?nbr)? address\n" [.str (args.get 0)]
  pure 1

/-- `command_x` behind the format, with `param` at `args[1] + i`. -/
def xParam (args : Splits) (i : Nat) (fmt : UInt8) (sh : Shell) :
    Traced Action Nat := do
  let c ← sh.indexArg (args.get 1) i
  let rep ← (if c = 0 then pure 1 else sh.atoiArg (args.get 1) i)
  let address ← sh.atoiArg (args.get 2) 0
  sh.xDump address rep fmt

def commandX (args : Splits) (sh : Shell) : Traced Action Nat := do
  if args.get 1 = 0 then xUsage args
  else do
    let slash ← (if args.get 2 ≠ 0 then do
        let c ← sh.indexArg (args.get 1) 0
        pure (c == 0x2f)
      else pure false)
    if slash then do
      let c ← sh.indexArg (args.get 1) 1
      if strchr (ascii "xdiuc" ++ [0]) c then sh.xParam args 2 c
      else if isDigit c then sh.xParam args 1 0x78
      else xUsage args
    else do
      let address ← sh.atoiArg (args.get 1) 0
      sh.xDump address 1 0x78

/-- The commands that have `dump` for a subcommand, and no other. -/
def dumpOnly (dump : Action) (args : Splits) (sh : Shell) :
    Traced Action Nat := do
  if args.get 1 = 0 then usage
  else if ← sh.spells "dump" (args.get 1) then do
    emit dump
    pure 0
  else do
    printk "unknown subcommand %s\n" [.str (args.get 1)]
    usage
where
  usage : Traced Action Nat := do
    printk "usage: %s (dump)\n" [.str (args.get 0)]
    pure 1

def commandInt (args : Splits) (sh : Shell) : Traced Action Nat :=
  sh.dumpOnly .intDump args

def commandTime (args : Splits) (sh : Shell) : Traced Action Nat :=
  sh.dumpOnly .timerDump args

def schedUsage (args : Splits) : Traced Action Nat := do
  printk "usage: %s (dump [id])\n" [.str (args.get 0)]
  pure 1

def commandSched (args : Splits) (sh : Shell) : Traced Action Nat := do
  if args.get 1 = 0 then schedUsage args
  else if ← sh.spells "dump" (args.get 1) then
    if args.get 2 ≠ 0 then do
      let id ← sh.atoiArg (args.get 2) 0
      emit (.schedDump (some id))
      pure 0
    else do
      emit (.schedDump none)
      pure 0
  else schedUsage args

def commandCpus (args : Splits) (sh : Shell) : Traced Action Nat :=
  sh.dumpOnly .cpusDump args

-- ================================================================= running

/-- The handler, on the arguments and the memory that it is called with. -/
def runHandler (h : Handler) (args : Splits) (sh : Shell) :
    Traced Action Nat :=
  match h with
  | .help => sh.commandHelp
  | .clear => commandClear
  | .exit => sh.commandExit
  | .echo => commandEcho args
  | .motd => commandMotd
  | .colortest => commandColortest
  | .logLevel => sh.commandLogLevel args
  | .trace => commandTrace
  | .mem => sh.commandMem args
  | .x => sh.commandX args
  | .int => sh.commandInt args
  | .time => sh.commandTime args
  | .sched => sh.commandSched args
  | .cpus => sh.commandCpus args

/-- The calls of `add_command` in `interpreter::interpreter()`. -/
def builtinNames : List (String × Handler) :=
  [("help", .help), ("clear", .clear), ("exit", .exit), ("quit", .exit),
    ("echo", .echo), ("motd", .motd), ("colortest", .colortest),
    ("log_level", .logLevel), ("trace", .trace), ("mem", .mem), ("x", .x),
    ("int", .int), ("time", .time), ("sched", .sched), ("cpus", .cpus)]

/-- The same, over what is in the names of the table before. -/
def builtins (old : Vector UInt8 MAX_COMMAND_NAME_LEN) :
    List (Interpreter.Registration Handler) :=
  builtinNames.map fun c =>
    { old := old, name := ascii c.1 ++ [0], run := c.2 }

/-- `interpret(line)` with the handler that it calls. -/
def runLine (fuel line : Nat) (sh : Shell) : Traced Action Nat := do
  match ← lift (sh.interp.interpret fuel line sh.bytes) with
  | .call h args bytes => runHandler h args { sh with bytes := bytes }
  | .ret value printed => ⟨printed.map Action.printk, .ret value⟩

end Shell

end Ntibux
