/-
How a task starts: the stack that `task::init` builds (scheduler.cpp) and
what the first `context_switch` into the task (asm_misc.s) takes off it.

The processor is the registers that `pushad` knows, the flags and the
memory that the stack is in. What `push_ints` leaves in the flags is up
to the interrupt semaphore and to `sti`; it is a parameter here, as is
the address that the call leaves on the stack.
-/
import Ntibux.Kernel.Basic

namespace Ntibux

-- ============================================================ task::init

/-- The fields of `class task` that `task::init` writes. -/
structure TaskObject where
  id : Nat
  esp : Nat
  stack : Nat
  stackSize : Nat
  status : Nat
  sleep : Nat
  created : Nat
  cpuTime : Nat
  pd : Nat

/-- `task::init(id, entry, pd)`, with the address of `kill_me` and with
`timer.ticks`. The argument of `memset` is a `u32 *`, so the 44 that is
taken off it counts words and not bytes. -/
def TaskObject.init (kalloc : Kalloc) (killMe ticks id entry pd : Nat)
    (m : Mem) : Outcome (TaskObject × Mem) := do
  let (block, m) ← kalloc KERNEL_STACK_SIZE ALLOC_ALIGNED m
  let stack := u32 (block + KERNEL_STACK_SIZE)
  let m := m.zero (u32 (stack + (2 ^ 32 - 4 * 44))) 44
  let m := m.store (u32 (stack + (2 ^ 32 - 4))) killMe
  let m := m.store (u32 (stack + (2 ^ 32 - 8))) entry
  .ret ({ id := id, esp := u32 (stack + (2 ^ 32 - 44)), stack := stack
          stackSize := KERNEL_STACK_SIZE, status := 0, sleep := 0
          created := ticks, cpuTime := 0, pd := pd }, m)

-- ======================================================== context_switch

/-- The processor, and the memory its stack is in. -/
structure Cpu where
  eax : Nat
  ebx : Nat
  ecx : Nat
  edx : Nat
  esi : Nat
  edi : Nat
  ebp : Nat
  esp : Nat
  eflags : Nat
  bytes : Bytes

namespace Cpu

variable (c : Cpu)

/-- The word on top of the stack. -/
def top : Nat := c.bytes.read32 c.esp

def pop : Nat × Cpu := (c.top, { c with esp := u32 (c.esp + 4) })

def push (v : Nat) : Cpu :=
  let esp := u32 (c.esp + (2 ^ 32 - 4))
  { c with esp := esp, bytes := c.bytes.write32 esp v }

/-- The word for `esp` is taken off and not used. -/
def popad : Cpu :=
  let (edi, c) := c.pop
  let (esi, c) := c.pop
  let (ebp, c) := c.pop
  let (_, c) := c.pop
  let (ebx, c) := c.pop
  let (edx, c) := c.pop
  let (ecx, c) := c.pop
  let (eax, c) := c.pop
  { c with
    edi := edi, esi := esi, ebp := ebp, ebx := ebx, edx := edx, ecx := ecx
    eax := eax }

def popf : Cpu :=
  let (eflags, c) := c.pop
  { c with eflags := eflags }

/-- `call push_ints`: it saves `eax` on the stack while it counts. -/
def pushInts (back flags : Nat) : Cpu :=
  let c := c.push back
  let c := c.push c.eax
  let (eax, c) := c.pop
  let c := { c with eax := eax, eflags := flags }
  c.pop.2

/-- `context_switch(old_esp, new_esp)` from `mov esp, edx` on, up to the
flags. -/
def load (newEsp : Nat) : Cpu := popf (popad { c with esp := newEsp })

/-- The rest of it, with the address it returns to. -/
def enter (back flags : Nat) : Nat × Cpu := (c.pushInts back flags).pop

end Cpu

-- ========================================================= the statement

/-- A switch into the stack at `esp` loads zero into all general
registers and zero into the flags, goes to `entry`, and leaves `killMe`
on top of the stack. -/
structure StartsClean (entry killMe esp : Nat) (b : Bytes) : Prop where
  flags : ∀ c : Cpu, c.bytes = b → (c.load esp).eflags = 0
  registers : ∀ c : Cpu, c.bytes = b → ∀ back flags,
    let c' := ((c.load esp).enter back flags).2
    c'.eax = 0 ∧ c'.ebx = 0 ∧ c'.ecx = 0 ∧ c'.edx = 0 ∧ c'.esi = 0
      ∧ c'.edi = 0 ∧ c'.ebp = 0
  entry : ∀ c : Cpu, c.bytes = b → ∀ back flags,
    ((c.load esp).enter back flags).1 = entry
  killMe : ∀ c : Cpu, c.bytes = b → ∀ back flags,
    ((c.load esp).enter back flags).2.top = killMe

end Ntibux
