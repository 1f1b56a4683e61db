/-
The frame bitmap on its own: the calls that change it, one after another;
its search with every read checked; and `frames::status`.
-/
import Ntibux.Mem.Init
import Ntibux.Lib.LastSet
import Ntibux.Term.Printk

namespace Ntibux

/-- A call of `mark_frame` or of `unmark_frame`. -/
inductive FrameCall : Type
  | markFrame (faddr : Nat)
  | unmarkFrame (faddr : Nat)
  deriving DecidableEq, Repr

namespace FrameCall

def faddr : FrameCall → Nat
  | markFrame faddr => faddr
  | unmarkFrame faddr => faddr

def marks : FrameCall → Bool
  | markFrame _ => true
  | unmarkFrame _ => false

def apply : FrameCall → Frames → Outcome Frames
  | markFrame faddr, f => f.markFrame faddr
  | unmarkFrame faddr, f => f.unmarkFrame faddr

def run : List FrameCall → Frames → Outcome Frames
  | [], f => .ret f
  | c :: cs, f => do
      let f ← c.apply f
      run cs f

/-- Whether the last of the calls on frame `n`, if there is one, marks
it. -/
def lastMarks (cs : List FrameCall) (n : Nat) : Bool :=
  lastSet (fun c => if c.faddr / 4096 = n then some c.marks else none)
    false cs

end FrameCall

namespace Frames

/-- The addresses of the frames that a bitmap for `nframes` frames has a
bit for. -/
def Tracked (nframes faddr : Nat) : Prop :=
  faddr < 2 ^ 32 ∧ faddr / 4096 < 32 * (nframes / 32)

instance (nframes faddr : Nat) : Decidable (Tracked nframes faddr) :=
  inferInstanceAs (Decidable (_ ∧ _))

/-- The loops of `get_free_frame` over the words from `i` on, each read
checked. -/
def searchFrom (f : Frames) : Nat → Nat → Outcome Nat
  | 0, _ => .ret 0
  | words + 1, i => do
      let w ← f.word i
      if w = 0xffffffff then searchFrom f words (i + 1)
      else
        match clearBit w with
        | some j => .ret (u32 ((i * 32 + j) <<< 12))
        | none => searchFrom f words (i + 1)

/-- `frames::get_free_frame`, with its reads checked. -/
def search (f : Frames) : Outcome Nat := f.searchFrom (index f.nframes) 0

-- ================================================================= status

/-- `for (tmp = frames[i]; tmp; tmp >>= 1, ++nbr)`. -/
def shiftLoop : Nat → Nat → Nat → Outcome Nat
  | 0, _, _ => .timeout
  | fuel + 1, tmp, nbr =>
      if tmp ≠ 0 then shiftLoop fuel (tmp >>> 1) (u32 (nbr + 1))
      else .ret nbr

/-- The loop of `status` over the words. -/
def usedPages (f : Frames) (fuel : Nat) : Outcome Nat :=
  Outcome.turns (fun i nbr => do
    let tmp ← f.word i
    shiftLoop fuel tmp nbr) (index f.nframes) 0 0

/-- The calls of `printk` in `status`. -/
def statusCalls (nbr nframes percent : Nat) : List PrintkCall := [
  { format := ascii "physical memory usage:\n" ++ [0], params := [] },
  { format := ascii "  %d/%d pages (%d%%)\n" ++ [0]
    params := [.int nbr, .int nframes, .int percent] }]

/-- `frames::status`, with what it has printed. For `nframes = 0` its
division is a trap. -/
def status (f : Frames) (fuel : Nat) : Outcome (List PrintkCall) := do
  let nbr ← f.usedPages fuel
  if f.nframes = 0 then .fault
  else .ret (statusCalls nbr f.nframes (u32 (nbr * 100) / f.nframes))

end Frames

end Ntibux
