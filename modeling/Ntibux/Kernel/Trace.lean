/-
The stack trace of debug.cpp.

A function that keeps a frame pointer has its caller's at the address in
`ebp`, and its return address in the word above. `trace` follows the frame
pointers up to one that is zero and prints the return addresses; where
there is none that is zero, it prints on and on.
-/
import Ntibux.Shell.Basic
import Ntibux.Term.Render

namespace Ntibux

/-- The call of `printk` for a frame. -/
def frameCall (frame eip : Nat) : PrintkCall where
  format := ascii "%u: %8x in ??? ()\n" ++ [0]
  params := [.int frame, .int eip]

namespace Terminal

variable (logLevel : UInt8) (bytes : Bytes)

/-- The loop of `trace`, from a frame on. -/
def traceLoop : Nat → Nat → Nat → Terminal → Outcome Terminal
  | 0, _, _, _ => .timeout
  | fuel + 1, stack, frame, t =>
      if stack = 0 then .ret t
      else do
        let ebp := bytes.read32 stack
        let eip := bytes.read32 (u32 (stack + 4))
        let c := frameCall frame eip
        let (_, t) ← t.printk bytes.upFrom logLevel fuel c.format c.params
        traceLoop fuel ebp (u32 (frame + 1)) t

/-- `trace()`, with the register `ebp`. -/
def trace (fuel ebp : Nat) (t : Terminal) : Outcome Terminal :=
  traceLoop logLevel bytes fuel ebp 0 t

end Terminal

-- ========================================================== the statements

/-- The frames from `stack` on, with their return addresses. -/
def StackFrames (bytes : Bytes) (stack : Nat) : List Nat → Prop
  | [] => stack = 0
  | eip :: eips => stack ≠ 0 ∧ eip = bytes.read32 (u32 (stack + 4)) ∧
      StackFrames bytes (bytes.read32 stack) eips

instance StackFrames.decidable (bytes : Bytes) : (stack : Nat) →
    (eips : List Nat) → Decidable (StackFrames bytes stack eips)
  | stack, [] => inferInstanceAs (Decidable (stack = 0))
  | stack, eip :: eips =>
      have := StackFrames.decidable bytes (bytes.read32 stack) eips
      inferInstanceAs (Decidable (stack ≠ 0 ∧
        eip = bytes.read32 (u32 (stack + 4)) ∧
        StackFrames bytes (bytes.read32 stack) eips))

/-- The line for a frame. -/
def frameLine (frame eip : Nat) : List UInt8 :=
  padded 10 0 frame ++ ascii ": " ++ padded 16 8 eip ++ ascii " in ??? ()\n"

/-- The lines for frames that are counted from `frame` on. -/
def frameLines : Nat → List Nat → List UInt8
  | _, [] => []
  | frame, eip :: eips =>
      frameLine frame eip ++ frameLines (u32 (frame + 1)) eips

end Ntibux
