/-
What an interrupt and a switch of tasks leave on a stack and take off it
again: the stubs of interrupts.s, and `context_switch`, `push_ints` and
`pop_ints` of asm_misc.s, instruction by instruction.

All code runs in ring 0, so an interrupt stays on the stack it meets: the
processor pushes `eflags`, `cs` and `eip` there, and for some vectors an
error code. Where a fixed address of the image is pushed, such as the one
a `call` returns to, it is a field of `Image`.

# The threads

A thread is a stack and the word that its `task::esp` is in. `left` is
not in the source: it says where the thread left off, the innermost
first, a switch to another thread or an interrupt that has not returned.

A step is one of the sequences above, or `compute`: whatever the running
thread does between two of them. It keeps to its own stack below what is
saved there, and to memory that is no stack.
-/
import Ntibux.Kernel.Context
import Ntibux.Lib.Run
import Ntibux.Lib.Stack

namespace Ntibux

-- ========================================================== instructions

/-- The interrupt flag. -/
def EFLAGS_IF : Nat := 0x200

/-- The flags that an interrupt gate clears: TF, IF, NT, RF and VM. -/
def EFLAGS_GATE : Nat := 0x34300

/-- The flags that a comparison sets: CF, PF, AF, ZF, SF and OF. -/
def EFLAGS_STATUS : Nat := 0x8d5

/-- Those flags after `cmp a, b`. -/
def cmpStatus (a b : Nat) : Nat :=
  let d := u32 (a + (2 ^ 32 - b))
  (if a < b then 0x1 else 0)
    ||| (if ((List.range 8).countP fun i => d.testBit i) % 2 = 0
      then 0x4 else 0)
    ||| (if a % 16 < b % 16 then 0x10 else 0)
    ||| (if d = 0 then 0x40 else 0)
    ||| (if 2 ^ 31 ≤ d then 0x80 else 0)
    ||| (if int32 a - int32 b = int32 d then 0 else 0x800)

/-- `SS_KCODE`, the selector of the kernel's code. -/
def SS_KCODE : Nat := 0x8

/-- The selector of the kernel's data. -/
def SS_KDATA : Nat := 0x10

/-- The addresses of the image that end up on a stack, and where
`interrupts_semaphore` is. -/
structure Image where
  semaphore : Nat
  /-- the first `ret` of `context_switch` -/
  firstRet : Nat
  /-- its label `1:`, where the second one is -/
  label : Nat
  /-- behind a `call` of `push_ints` or `pop_ints` -/
  back : Nat
  /-- `interrupt_handler` -/
  handler : Nat
  /-- `pic_interrupt_handler` -/
  picHandler : Nat
  /-- behind the `call` of either -/
  handlerBack : Nat
  /-- the `iret` of the common handler -/
  iretAt : Nat

/-- They are addresses. -/
structure Image.Ok (i : Image) : Prop where
  firstRet : i.firstRet < 2 ^ 32
  label : i.label < 2 ^ 32
  handler : i.handler < 2 ^ 32
  picHandler : i.picHandler < 2 ^ 32
  handlerBack : i.handlerBack < 2 ^ 32
  iretAt : i.iretAt < 2 ^ 32

namespace Cpu

variable (c : Cpu)

/-- One `push` after the other. -/
def pushes (ws : List Nat) : Cpu := ws.foldl Cpu.push c

/-- The word for `esp` is its value before the first push. -/
def pushad : Cpu :=
  c.pushes [c.eax, c.ecx, c.edx, c.ebx, c.esp, c.ebp, c.esi, c.edi]

/-- VM and RF are stored as zero. -/
def pushf : Cpu := c.push (c.eflags &&& 0xfcffff)

def cli : Cpu := { c with eflags := c.eflags &&& not32 EFLAGS_IF }

def sti : Cpu := { c with eflags := c.eflags ||| EFLAGS_IF }

def cmp (a b : Nat) : Cpu :=
  { c with
    eflags := (c.eflags &&& not32 EFLAGS_STATUS) ||| cmpStatus a b }

/-- `call push_ints`, where `by` is 1, and `call pop_ints`, where it is
-1. What `inc` and `dec` do to the flags, `cmp` does again. -/
def callInts (i : Image) (delta : Nat) : Cpu :=
  let c := c.push i.back
  let c := c.cli
  let c := c.push c.eax
  let c := { c with eax := c.bytes.read32 i.semaphore }
  let c := { c with eax := u32 (c.eax + delta) }
  let c := { c with bytes := c.bytes.write32 i.semaphore c.eax }
  let count := c.eax
  let c := c.cmp count 1
  let (eax, c) := c.pop
  let c := { c with eax := eax }
  -- jl
  let c := if int32 count < 1 then c else c.sti
  c.pop.2

end Cpu

/-- The processor with its instruction pointer and its selectors. -/
structure Core where
  cpu : Cpu
  eip : Nat
  cs : Nat
  ds : Nat
  es : Nat
  fs : Nat
  gs : Nat

/-- The stubs of interrupts.s. -/
inductive Stub
  | noerr (nbr : Nat)
  | err (nbr : Nat)
  | pic (nbr : Nat)
  deriving DecidableEq, Repr

/-- What the stub pushes before it comes to the common handler. -/
def Stub.words : Stub → List Nat
  | .noerr nbr => [0, nbr]
  | .err nbr => [nbr]
  | .pic nbr => [nbr, nbr + 32]

/-- The processor pushes an error code. -/
def Stub.hasCode : Stub → Bool
  | .err _ => true
  | _ => false

/-- The C handler that it calls. -/
def Stub.handler (i : Image) : Stub → Nat
  | .pic _ => i.picHandler
  | _ => i.handler

/-- `interrupts_semaphore--` and `interrupts_semaphore++`. -/
def POP_INTS : Nat := 2 ^ 32 - 1

def PUSH_INTS : Nat := 1

namespace Core

variable (i : Image) (c : Core)

/-- An interrupt comes through its gate; `code` is its error code. -/
def deliver (code : Option Nat) : Core :=
  { c with
    cpu := { c.cpu.pushes ([c.cpu.eflags, c.cs, c.eip] ++ code.toList) with
      eflags := c.cpu.eflags &&& not32 EFLAGS_GATE }
    cs := SS_KCODE }

/-- The stub and the common handler, up to the first instruction of
`interrupt_handler` or `pic_interrupt_handler`. -/
def stub (s : Stub) : Core :=
  let cpu := c.cpu.callInts i POP_INTS
  let cpu := cpu.pushes s.words
  let cpu := cpu.pushad
  -- mov ax, ds
  let cpu := { cpu with eax := cpu.eax / 2 ^ 16 * 2 ^ 16 + c.ds }
  let cpu := cpu.push cpu.eax
  -- mov ax, 0x10
  let cpu := { cpu with eax := cpu.eax / 2 ^ 16 * 2 ^ 16 + SS_KDATA }
  let cpu := cpu.push i.handlerBack
  { c with cpu, eip := s.handler i, ds := SS_KDATA, es := SS_KDATA
           fs := SS_KDATA, gs := SS_KDATA }

/-- The rest of the common handler, after the C handler has returned, up
to `iret`. -/
def leave : Core :=
  let (eax, cpu) := c.cpu.pop
  let ds := eax % 2 ^ 16
  let cpu := { cpu with eax }
  let cpu := cpu.popad
  let cpu := { cpu with esp := u32 (cpu.esp + 8) }
  let cpu := cpu.callInts i PUSH_INTS
  { c with cpu, eip := i.iretAt, ds, es := ds, fs := ds, gs := ds }

def iret : Core :=
  let (eip, cpu) := c.cpu.pop
  let (cs, cpu) := cpu.pop
  { c with cpu := cpu.popf, eip, cs := cs % 2 ^ 16 }

/-- `context_switch(ecx, edx)` up to its first `ret`. A new task returns
from there to its entry, any other one to the second `ret`. -/
def contextSwitch : Core :=
  let cpu := { c.cpu with eax := i.label }
  let cpu := cpu.push cpu.eax
  let cpu := cpu.pushf
  let cpu := cpu.pushad
  let cpu := { cpu with bytes := cpu.bytes.write32 cpu.ecx cpu.esp }
  -- mov esp, edx
  let cpu := cpu.load cpu.edx
  { c with cpu := cpu.callInts i PUSH_INTS, eip := i.firstRet }

def ret : Core :=
  let (eip, cpu) := c.cpu.pop
  { c with cpu, eip }

/-- `interrupts_semaphore`, as it is in memory. -/
def semaphore : Nat := c.cpu.bytes.read32 i.semaphore

end Core

-- =============================================================== threads

/-- Where a thread left off. -/
inductive Left
  /-- it has not run yet -/
  | fresh (entry killMe : Nat)
  /-- at the first instruction of `context_switch` -/
  | switched (c : Core)
  /-- at an instruction, when an interrupt came -/
  | interrupted (s : Stub) (c : Core)

/-- What is saved for it. It is `loaded` between `push_ints` and the `ret`
or `iret` behind it: the registers are back, the words for that one
instruction are still on the stack. The number is what `push_ints` has
counted `interrupts_semaphore` to. -/
structure Frame where
  left : Left
  loaded : Option Nat

/-- Where these words begin; `hi` is the end of the stack. -/
def Frame.addr (hi : Nat) : Frame → Nat
  | ⟨.fresh _ _, none⟩ => hi - 44
  | ⟨.fresh _ _, some _⟩ => hi - 8
  | ⟨.switched c, none⟩ => c.cpu.esp - 40
  | ⟨.switched c, some _⟩ => c.cpu.esp - 4
  | ⟨.interrupted _ c, none⟩ => c.cpu.esp - 56
  | ⟨.interrupted _ c, some _⟩ => c.cpu.esp - 12

structure Thread where
  lo : Nat
  hi : Nat
  /-- `&task->esp` -/
  cell : Nat
  frames : List Frame

/-- The end of what a thread may use of its stack. -/
def baseOf (hi : Nat) : List Frame → Nat
  | [] => hi
  | f :: _ => f.addr hi

namespace Thread

variable (t : Thread)

def base : Nat := baseOf t.hi t.frames

/-- The thread is about to `ret` or `iret` to where it left off. -/
def Entering : Prop := ∃ f n rest, t.frames = ⟨f, some n⟩ :: rest

/-- The byte is saved on the thread's stack. -/
def Saved (x : Nat) : Prop := t.base ≤ x ∧ x < t.hi

def OnStack (x : Nat) : Prop := t.lo ≤ x ∧ x < t.hi

/-- The byte is one of `task::esp`. -/
def InCell (x : Nat) : Prop := t.cell ≤ x ∧ x < t.cell + 4

/-- The byte is the thread's alone. -/
def Owns (x : Nat) : Prop := t.OnStack x ∨ t.InCell x

/-- The stack and the word for its pointer are where there is memory, and
clear of each other and of the semaphore. -/
structure Placed (i : Image) : Prop where
  room : t.lo + 128 ≤ t.hi
  hi_lt : t.hi < 2 ^ 32
  cell_off : ∀ x, t.InCell x → ¬t.OnStack x
  semaphore_off : ∀ x, i.semaphore ≤ x → x < i.semaphore + 4 → ¬t.Owns x

def Apart (u : Thread) : Prop := ∀ x, t.Owns x → ¬u.Owns x

end Thread

/-- All registers hold what they can hold. -/
structure Core.Ok (c : Core) : Prop where
  eax : c.cpu.eax < 2 ^ 32
  ebx : c.cpu.ebx < 2 ^ 32
  ecx : c.cpu.ecx < 2 ^ 32
  edx : c.cpu.edx < 2 ^ 32
  esi : c.cpu.esi < 2 ^ 32
  edi : c.cpu.edi < 2 ^ 32
  ebp : c.cpu.ebp < 2 ^ 32
  esp : c.cpu.esp < 2 ^ 32
  eflags : c.cpu.eflags < 2 ^ 32
  eip : c.eip < 2 ^ 32
  cs : c.cs < 2 ^ 16
  ds : c.ds < 2 ^ 16

/-- The processor, the thread that it runs, and the others. -/
structure Machine where
  core : Core
  current : Thread
  others : List Thread

namespace Machine

/-- What happens next. -/
inductive Event
  | compute
  | interrupt (s : Stub) (code : Option Nat)
  | leave
  | switch (t : Thread)
  | resume
  | create (t : Thread)
  | kill (t : Thread)

def bytes (m : Machine) : Bytes := m.core.cpu.bytes

def threads (m : Machine) : List Thread := m.current :: m.others

/-- Enough of the stack is left for what an interrupt or a switch puts on
it. -/
def Room (m : Machine) : Prop := m.current.lo + 128 ≤ m.core.cpu.esp

/-- The running thread leaves alone what others have on their stacks,
what is saved on its own, and where the stacks are said to be. -/
structure Keeps (m : Machine) (c : Core) : Prop where
  ok : c.Ok
  above : m.current.lo ≤ c.cpu.esp
  below : c.cpu.esp ≤ m.current.base
  saved : ∀ x, m.current.Saved x → c.cpu.bytes x = m.bytes x
  others : ∀ t ∈ m.others, ∀ x, t.Owns x → c.cpu.bytes x = m.bytes x

/-- A thread that `new_task` puts up: the first words for it are in
place. -/
structure Creates (i : Image) (m : Machine) (t : Thread)
    (entry killMe : Nat) (c : Core) : Prop where
  keeps : m.Keeps c
  placed : t.Placed i
  apart : ∀ u ∈ m.threads, t.Apart u
  frames : t.frames = [⟨.fresh entry killMe, none⟩]
  entry : c.cpu.bytes.read32 (t.hi - 8) = entry
  killMe : c.cpu.bytes.read32 (t.hi - 4) = killMe
  pointer : c.cpu.bytes.read32 t.cell = t.hi - 44

/-- The instruction that the thread is about to go on with. -/
def finish : Left → Core → Core
  | .interrupted _ _ => Core.iret
  | _ => Core.ret

/-- One step. An interrupt comes at any time, the rest is the running
thread's own. -/
inductive Step (i : Image) : Machine → Event → Machine → Prop
  | compute {m : Machine} {c : Core} (hrun : ¬m.current.Entering)
      (hk : m.Keeps c) : Step i m .compute ⟨c, m.current, m.others⟩
  | interrupt {m : Machine} {s : Stub} {code : Option Nat}
      (hroom : m.Room) (hcode : code.isSome = s.hasCode)
      (hword : ∀ w ∈ code, w < 2 ^ 32) (hs : ∀ w ∈ s.words, w < 2 ^ 32) :
      Step i m (.interrupt s code)
        ⟨(m.core.deliver code).stub i s,
          { m.current with
            frames := ⟨.interrupted s m.core, none⟩ :: m.current.frames },
          m.others⟩
  | leave {m : Machine} {s : Stub} {c : Core} {rest : List Frame}
      (hframes : m.current.frames = ⟨.interrupted s c, none⟩ :: rest)
      (hesp : m.core.cpu.esp = m.current.base)
      (heip : m.core.eip = i.handlerBack) :
      Step i m .leave
        ⟨m.core.leave i,
          { m.current with
            frames := ⟨.interrupted s c,
              some ((m.core.leave i).semaphore i)⟩ :: rest },
          m.others⟩
  | switch {m : Machine} {t : Thread} {pre post : List Thread} {f : Left}
      {rest : List Frame} (hrun : ¬m.current.Entering) (hroom : m.Room)
      (ht : m.others = pre ++ t :: post)
      (hframes : t.frames = ⟨f, none⟩ :: rest)
      -- the call has left an address to return to
      (hcall : m.core.cpu.esp + 4 ≤ m.current.base)
      (hecx : m.core.cpu.ecx = m.current.cell)
      (hedx : m.core.cpu.edx = m.bytes.read32 t.cell) :
      Step i m (.switch t)
        ⟨m.core.contextSwitch i,
          { t with
            frames := ⟨f, some ((m.core.contextSwitch i).semaphore i)⟩
              :: rest },
          { m.current with
            frames := ⟨.switched m.core, none⟩ :: m.current.frames }
            :: (pre ++ post)⟩
  | resume {m : Machine} {f : Left} {n : Nat} {rest : List Frame}
      (hframes : m.current.frames = ⟨f, some n⟩ :: rest) :
      Step i m .resume
        ⟨finish f m.core, { m.current with frames := rest }, m.others⟩
  | create {m : Machine} {t : Thread} {entry killMe : Nat} {c : Core}
      (hrun : ¬m.current.Entering) (hc : m.Creates i t entry killMe c) :
      Step i m (.create t) ⟨c, m.current, t :: m.others⟩
  | kill {m : Machine} {t : Thread} {pre post : List Thread}
      (hrun : ¬m.current.Entering) (ht : m.others = pre ++ t :: post) :
      Step i m (.kill t) ⟨m.core, m.current, pre ++ post⟩

/-- The boot thread alone, with nothing saved. -/
structure Initial (i : Image) (m : Machine) : Prop where
  ok : m.core.Ok
  image : i.Ok
  placed : m.current.Placed i
  above : m.current.lo ≤ m.core.cpu.esp
  below : m.core.cpu.esp ≤ m.current.hi
  frames : m.current.frames = []
  others : m.others = []

/-- A run, with the state and the event of each step. -/
abbrev Run (i : Image) := Ntibux.Run (Step i)

end Machine

-- ========================================================= the statements

/-- The registers that a call gives back, and `ecx` and `edx`. -/
structure SameRegisters (c c' : Cpu) : Prop where
  ebx : c'.ebx = c.ebx
  ecx : c'.ecx = c.ecx
  edx : c'.edx = c.edx
  esi : c'.esi = c.esi
  edi : c'.edi = c.edi
  ebp : c'.ebp = c.ebp

/-- All that the stack held when the thread left, it holds again. -/
def SameStack (hi : Nat) (c c' : Core) : Prop :=
  ∀ x, c.cpu.esp ≤ x → x < hi → c'.cpu.bytes x = c.cpu.bytes x

/-- The thread goes on from the instruction before which an interrupt
came. -/
structure Returned (hi : Nat) (c c' : Core) : Prop where
  registers : SameRegisters c.cpu c'.cpu
  eax : c'.cpu.eax = c.cpu.eax
  esp : c'.cpu.esp = c.cpu.esp
  eip : c'.eip = c.eip
  eflags : c'.cpu.eflags = c.cpu.eflags
  cs : c'.cs = c.cs
  selectors : c'.ds = c.ds ∧ c'.es = c.ds ∧ c'.fs = c.ds ∧ c'.gs = c.ds
  stack : SameStack hi c c'

/-- The flags behind a call of `push_ints` that has counted to `count`: the
interrupt flag says whether that is positive, the status flags are those
of the comparison with 1, and all others are as before. -/
def pushIntsFlags (count flags : Nat) : Nat :=
  let flags := (flags &&& not32 EFLAGS_IF) &&& not32 EFLAGS_STATUS
    ||| cmpStatus count 1
  if int32 count < 1 then flags else flags ||| EFLAGS_IF

/-- The thread is at the second `ret` of `context_switch`, which takes it
back to its caller. The flags are those it left with, but for VM and RF,
which `pushf` stores as zero, and for what `push_ints` has made of them
when it counted to `count`. -/
structure Switched (i : Image) (hi count : Nat) (c c' : Core) : Prop where
  registers : SameRegisters c.cpu c'.cpu
  eflags : c'.cpu.eflags = pushIntsFlags count (c.cpu.eflags &&& 0xfcffff)
  esp : c'.cpu.esp = c.cpu.esp
  eip : c'.eip = i.label
  caller : c'.ret.eip = c.cpu.top
  stack : SameStack hi c c'

/-- The thread begins, with the address of `kill_me` to return to. -/
structure Began (hi entry killMe : Nat) (c' : Core) : Prop where
  esp : c'.cpu.esp = hi - 4
  eip : c'.eip = entry
  killMe : c'.cpu.top = killMe

/-- The processor is where the thread left off; `count` is what
`push_ints` has counted to on the way back. -/
def Left.Back (i : Image) (hi count : Nat) (c' : Core) : Left → Prop
  | .fresh entry killMe => Began hi entry killMe c'
  | .switched c => Switched i hi count c c'
  | .interrupted _ c => Returned hi c c'

end Ntibux
