/-
How interrupts are answered (interrupt_handlers.cpp): the handlers that
are on record, `interrupt_handler` and `pic_interrupt_handler`, the two
counters, and what `dump_int_summary` prints of them, from the controllers
as `IDT::init` programs them.

What a handler does is the lines it prints and how it ends (`After`); the
timer's and the keyboard's go on into the scheduler and the terminal. A
handler has the registers of the interrupted code, and the page fault's
reads `cr2` besides, where the processor has put the address.

# The boot

`kernel_main` puts the handlers on record in four places: `mem::init` the
page fault's, `IDT::init` the keyboard's, `timer::init` the timer's, and
`set_interrupts_handlers` all others. Vectors 9, 15, 18 and those from 21
on have none.
-/
import Ntibux.Kernel.Descriptors
import Ntibux.Lib.Outcome
import Ntibux.Lib.Pic
import Ntibux.Term.Printk

namespace Ntibux

-- ================================================================ handlers

/-- The handlers of the processor's exceptions that are put on record, and
those of the two lines. -/
inductive IntHandler
  | timer | keyboard
  | divideByZero | debugTrap | nmi | breakpoint | overflow | boundCheckFail
  | invalidOpcode | nonAvailableFeature | doubleFault | invalidTss
  | invalidSegment | invalidStackSegment | generalProtectionFault
  | pageFault | fpuFloatingPointException | alignmentCheck
  | simdFloatingPointException | virtualizationException
  deriving DecidableEq, Repr

/-- How a handler ends. -/
inductive After
  | returns
  | tick
  | kbdReady
  | killMe
  | panic (msg : String)
  deriving DecidableEq, Repr

/-- `KERN_…`, with the level. -/
def kern (level : UInt8) (s : String) : List UInt8 :=
  [LOG_HDR, 0x30 + level] ++ ascii s

/-- A line about the instruction that was interrupted. -/
def atEip (level : UInt8) (s : String) (ir : IntRegisters) : PrintkCall :=
  ⟨kern level (s ++ " @eip: 0x%x\n"), [.int ir.eip]⟩

/-- The character for a bit of the error code of a page fault. -/
def faultBit (ir : IntRegisters) (bit : Nat) (set clear : Char) : Arg :=
  .int (if ir.errCode &&& bit ≠ 0 then set else clear).toNat

/-- A handler: what it prints, and how it ends. -/
def IntHandler.run (cr2 : Nat) (ir : IntRegisters) :
    IntHandler → List PrintkCall × After
  | .timer => ([], .tick)
  | .keyboard => ([], .kbdReady)
  | .divideByZero => ([atEip 4 "division by zero" ir], .killMe)
  | .debugTrap => ([⟨kern 6 "debug interruption", []⟩], .returns)
  | .nmi => ([], .panic "unknown hardware failure")
  | .breakpoint => ([atEip 6 "breakpoint hit" ir], .returns)
  | .overflow => ([⟨kern 4 "overflow\n", []⟩], .killMe)
  | .boundCheckFail => ([atEip 4 "bound check failed" ir], .killMe)
  | .invalidOpcode => ([atEip 4 "invalid opcode" ir], .killMe)
  | .nonAvailableFeature =>
      ([atEip 4 "use of non supported/activated cpu feature" ir], .killMe)
  | .doubleFault => ([], .panic "double fault")
  | .invalidTss =>
      ([atEip 4 "invalid task switch segment selector" ir], .returns)
  | .invalidSegment =>
      ([⟨kern 4 "invalid segment selector 0x%x @eip: 0x%x\n",
        [.int ir.errCode, .int ir.eip]⟩], .returns)
  | .invalidStackSegment =>
      ([⟨kern 4 "invalid stack segment selector 0x%x @eip: 0x%x\n",
        [.int ir.errCode, .int ir.eip]⟩], .returns)
  | .generalProtectionFault =>
      ([atEip 0 "general protection fault" ir], .killMe)
  | .pageFault =>
      ([⟨kern 0 "page fault @0x%x  %c%c%c%c%c\n",
        [.int cr2, faultBit ir 0x1 'v' 'p', faultBit ir 0x2 'w' 'r',
          faultBit ir 0x4 'u' 'k', faultBit ir 0x8 'c' '-',
          faultBit ir 0x10 'i' '-']⟩], .killMe)
  | .fpuFloatingPointException =>
      ([atEip 0 "floating point exception" ir], .killMe)
  | .alignmentCheck => ([atEip 0 "ailgnment check failed" ir], .killMe)
  | .simdFloatingPointException =>
      ([atEip 0 "SIMD floating point exception" ir], .killMe)
  | .virtualizationException =>
      ([atEip 0 "virtualization exception" ir], .killMe)

def INT_PAGE_FAULT : Nat := 14
def PIC_TIMER : Nat := 0
def PIC_KBD : Nat := 1
def PIC_EOI : Nat := 0x20

-- ================================================================= service

/-- The tables and counters, and the controllers. -/
structure Ints where
  pics : Pics
  intHandler : Nat → Option IntHandler
  picIntHandler : Nat → Option IntHandler
  interruptsCounter : Nat → Nat
  picInterruptsCounter : Nat → Nat

/-- `counter[n]++`. -/
def bump (counter : Nat → Nat) (n : Nat) : Nat → Nat :=
  Function.update counter n (u32 (counter n + 1))

namespace Ints

variable (s : Ints)

/-- What answers an interrupt for which there is no handler. -/
def unknown (nbr : Nat) (msg : String) : List PrintkCall × After :=
  ([⟨ascii "unknown interrupt (%d)\n", [.int nbr]⟩], .panic msg)

/-- `interrupt_handler(int_regs)`. -/
def interruptHandler (cr2 : Nat) (ir : IntRegisters) :
    (List PrintkCall × After) × Ints :=
  let s := { s with
    interruptsCounter := bump s.interruptsCounter ir.intNbr }
  match s.intHandler ir.intNbr with
  | some h => (h.run cr2 ir, s)
  | none => (unknown ir.intNbr "unhandled interrupt\n", s)

/-- `pic_interrupt_handler(int_regs)`; `err_code` is `pic_int_nbr`. -/
def picInterruptHandler (cr2 : Nat) (ir : IntRegisters) :
    (List PrintkCall × After) × Ints :=
  let pics := if 8 ≤ ir.errCode then s.pics.outb PIC2_CMD PIC_EOI
    else s.pics
  let pics := pics.outb PIC1_CMD PIC_EOI
  let s := { s with
    pics := pics
    picInterruptsCounter := bump s.picInterruptsCounter ir.errCode }
  match s.picIntHandler ir.errCode with
  | some h => (h.run cr2 ir, s)
  | none => (unknown ir.errCode "unhandled PIC interrupt\n", s)

/-- `add_interrupt_handler(nbr, handler)`. -/
def addInterruptHandler (nbr : Nat) (h : IntHandler) : Ints :=
  { s with intHandler := Function.update s.intHandler nbr (some h) }

/-- `add_pic_interrupt_handler(nbr, handler)`. -/
def addPicInterruptHandler (nbr : Nat) (h : IntHandler) : Ints :=
  { s with picIntHandler := Function.update s.picIntHandler nbr (some h) }

/-- A turn of either loop of `dump_int_summary`. -/
def counterLine (format : String) (counter : Nat → Nat) (i : Nat) :
    Option PrintkCall :=
  if counter i ≠ 0 then
    some ⟨ascii format, [.int i, .int (counter i)]⟩
  else none

/-- `dump_int_summary()`. -/
def dumpIntSummary : List PrintkCall :=
  (List.range 16).filterMap
      (counterLine "PIC int %x: %d\n" s.picInterruptsCounter) ++
    (List.range 256).filterMap
      (counterLine "int %x: %d\n" s.interruptsCounter)

end Ints

-- ================================================================= booting

/-- The bytes that `IDT::init` sends, port and value. -/
def remap : List (Nat × Nat) :=
  [(PIC1_CMD, 0x11), (PIC2_CMD, 0x11), (PIC1_DATA, 0x20), (PIC2_DATA, 0x28),
    (PIC1_DATA, 0x04), (PIC2_DATA, 0x02), (PIC1_DATA, 0x01),
    (PIC2_DATA, 0x01), (PIC1_DATA, 0x0), (PIC2_DATA, 0x0)]

/-- The calls of `set_interrupts_handlers`. -/
def interruptsHandlers : List (Nat × IntHandler) :=
  [(13, .generalProtectionFault), (0, .divideByZero), (1, .debugTrap),
    (2, .nmi), (3, .breakpoint), (4, .overflow), (5, .boundCheckFail),
    (6, .invalidOpcode), (7, .nonAvailableFeature), (8, .doubleFault),
    (10, .invalidTss), (11, .invalidSegment), (12, .invalidStackSegment),
    (16, .fpuFloatingPointException), (17, .alignmentCheck),
    (19, .simdFloatingPointException), (20, .virtualizationException)]

namespace Ints

/-- The interrupts' part of `kernel_main`: of `mem.init()` the page
fault's handler, of `idt.init()` the bytes and the keyboard's handler, of
`timer.init()` the timer's, and `set_interrupts_handlers()`; all tables
and counters are zero before. -/
def boot (pics : Pics) : Ints :=
  let s : Ints :=
    { pics := pics
      intHandler := fun _ => none
      picIntHandler := fun _ => none
      interruptsCounter := fun _ => 0
      picInterruptsCounter := fun _ => 0 }
  let s := s.addInterruptHandler INT_PAGE_FAULT .pageFault
  let s := { s with pics := s.pics.outbs remap }
  let s := s.addPicInterruptHandler PIC_KBD .keyboard
  let s := s.addPicInterruptHandler PIC_TIMER .timer
  interruptsHandlers.foldl (fun s h => s.addInterruptHandler h.1 h.2) s

-- ==================================================================== runs

/-- What happens: an exception with its vector, or an interrupt at a line,
both with the processor and `cr2` as they are then; or a handler is put
on record. -/
inductive Event
  | int (n : Nat) (code : Option Nat) (c : Core) (cr2 : Nat)
  | irq (k : Nat) (c : Core) (cr2 : Nat)
  | add (nbr : Nat) (h : IntHandler)
  | addPic (nbr : Nat) (h : IntHandler)

/-- The C handler that the stub of the vector calls. -/
def dispatch (v cr2 : Nat) (ir : IntRegisters) (s : Ints) :
    Outcome ((List PrintkCall × After) × Ints) :=
  if v < 32 then .ret (s.interruptHandler cr2 ir)
  else if v < 48 then .ret (s.picInterruptHandler cr2 ir)
  else .fault

/-- One event, and what answers it; nothing does where the controllers
hold a line back. -/
def apply (e : Event) (s : Ints) :
    Outcome (Option (List PrintkCall × After) × Ints) :=
  match e with
  | .int n code c cr2 => do
      let (r, s) ← s.dispatch n cr2 (c.registers n code)
      .ret (some r, s)
  | .irq k c cr2 =>
      match s.pics.request k with
      | none => .ret (none, s)
      | some (v, pics) => do
          let (r, s) ← { s with pics := pics }.dispatch v cr2
            (c.registers v none)
          .ret (some r, s)
  | .add nbr h => .ret (none, s.addInterruptHandler nbr h)
  | .addPic nbr h => .ret (none, s.addPicInterruptHandler nbr h)

/-- The event can come: the processor has 32 exceptions, there are 16
lines, of which line 2 has the second controller, and the tables have as
many places. -/
def Event.Ok : Event → Prop
  | .int n _ _ _ => n < 32
  | .irq k _ _ => k < 16 ∧ k ≠ 2
  | .add nbr _ => nbr < 32
  | .addPic nbr _ => nbr < 16

instance (e : Event) : Decidable e.Ok := by
  cases e <;> unfold Event.Ok <;> infer_instance

/-- Behind a panic nothing comes any more. -/
def goesOn : After → Bool
  | .panic _ => false
  | _ => true

/-- A step of the machine, which has not panicked. -/
def Step (s : Ints) (e : Event) (s' : Ints) : Prop :=
  e.Ok ∧ ∃ r, s.apply e = .ret (r, s') ∧ ∀ a ∈ r, goesOn a.2 = true

/-- A run, with the state and the event of each step. -/
abbrev Run := Ntibux.Run Step

end Ints

-- ========================================================== the statements

namespace Ints

def Event.isInt (n : Nat) : Event → Bool
  | .int m _ _ _ => m == n
  | _ => false

def Event.isIrq (k : Nat) : Event → Bool
  | .irq l _ _ => l == k
  | _ => false

/-- What answers, with the handler `h` or without one. -/
def answer (h : Option IntHandler) (cr2 : Nat) (ir : IntRegisters)
    (nbr : Nat) (msg : String) : List PrintkCall × After :=
  match h with
  | some h => h.run cr2 ir
  | none => unknown nbr msg

/-- The handler of the exception `n` after the events `es`: the last one
put on record, or the one of the boot. -/
def handlerAfter (n : Nat) (es : List Event) : Option IntHandler :=
  es.foldl (fun h e => match e with
    | .add nbr h' => if nbr = n then some h' else h
    | _ => h)
    (((INT_PAGE_FAULT, .pageFault) :: interruptsHandlers).lookup n)

/-- The same for the line `k`. -/
def picHandlerAfter (k : Nat) (es : List Event) : Option IntHandler :=
  es.foldl (fun h e => match e with
    | .addPic nbr h' => if nbr = k then some h' else h
    | _ => h) ([(PIC_TIMER, .timer), (PIC_KBD, .keyboard)].lookup k)

/-- The lines that tell how often each interrupt has come. -/
def summary (irqs ints : Nat → Nat) : List PrintkCall :=
  ((List.range 16).filter fun k => irqs k ≠ 0).map
      (fun k => ⟨ascii "PIC int %x: %d\n", [.int k, .int (irqs k)]⟩) ++
    ((List.range 256).filter fun n => ints n ≠ 0).map
      fun n => ⟨ascii "int %x: %d\n", [.int n, .int (ints n)]⟩

/-- The controllers behind `remap`: no line is masked, none in service. -/
def remapped : Pics where
  master := ⟨.ready, false, true, 0x20, 4, 1, 0, 0⟩
  slave := ⟨.ready, false, true, 0x28, 2, 1, 0, 0⟩

/-- What there is after the events `es`: idle controllers, each counter at
the number of its interrupts, and the handlers put on record. -/
structure Serviced (es : List Event) (s : Ints) : Prop where
  pics : s.pics = remapped
  ints : ∀ n, s.interruptsCounter n = u32 (es.countP (Event.isInt n))
  irqs : ∀ k, s.picInterruptsCounter k = u32 (es.countP (Event.isIrq k))
  handlers : ∀ n, s.intHandler n = handlerAfter n es
  picHandlers : ∀ k, s.picIntHandler k = picHandlerAfter k es

end Ints

end Ntibux
