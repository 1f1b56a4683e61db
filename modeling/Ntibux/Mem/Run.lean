/-
Runs of the kernel heap: a client calls `alloc` and `free`, writes into
what it holds, and the rest of the kernel goes on around it.

# The steps

- `alloc` and `free` are the code's, for any fuel that lets them return.
  The caller asks for no more than the largest order, and gives back a
  block it holds with a size of the same order.
- `write` puts any byte anywhere inside a live block.
- `outside` is everything else the kernel does to memory: frames are
  claimed and freed, directories and page tables change as they like.
  The heap's own record and the bytes of the reserve stay.

`live` is not in the source. It is the list of blocks handed out and not
yet given back.

# The trace

A run records the state each step was taken in, so that a statement can
speak of the whole history and not of the last state only.
-/
import Ntibux.Mem.Kheap
import Ntibux.Lib.Chain
import Ntibux.Lib.Run
import Ntibux.Buddy.Basic

namespace Ntibux

/-- What a step of a run does, with the order that `get_order` gives the
size and with the block that `alloc` returns. -/
inductive Event
  | alloc (size order flags out : Nat)
  | free (addr size order : Nat)
  | write (addr : Nat) (v : UInt8)
  | outside

-- ===================================================== the kernel's runs

/-- The kernel's memory and the blocks handed out. -/
structure HeapState where
  mem : Mem
  live : List Block

namespace HeapState

/-- The reserve as one block. -/
def reserve (s : HeapState) : Block :=
  ⟨s.mem.kheap.freeZone, s.mem.kheap.reserveOrder⟩

/-- Following the links from the head of its order meets the block. -/
def Free (s : HeapState) (b : Block) : Prop :=
  s.mem.kheap.minOrder ≤ b.order ∧ b.order ≤ s.mem.kheap.maxOrder
    ∧ ∃ l, Chain s.mem.load (s.mem.kheap.head b.order) l ∧ b.addr ∈ l

/-- The state `kheap::enable_paging` aims at: one free block, the
reserve, at an address aligned to the largest order. -/
structure Initial (s : HeapState) : Prop where
  page_le : 12 ≤ s.mem.kheap.minOrder
  min_le : s.mem.kheap.minOrder ≤ s.mem.kheap.reserveOrder
  le_max : s.mem.kheap.reserveOrder ≤ s.mem.kheap.maxOrder
  max_lt : s.mem.kheap.maxOrder < 32
  orders : s.mem.kheap.orders
    = s.mem.kheap.maxOrder - s.mem.kheap.minOrder + 1
  zone_pos : 0 < s.mem.kheap.freeZone
  zone_lt : s.mem.kheap.freeZone < 2 ^ 32
  zone_dvd : 2 ^ s.mem.kheap.maxOrder ∣ s.mem.kheap.freeZone
  unlocked : s.mem.kheap.locked = false
  frames_le : s.mem.frames.nframes ≤ 2 ^ 20
  head : s.mem.kheap.head s.mem.kheap.reserveOrder = s.mem.kheap.freeZone
  link : s.mem.load s.mem.kheap.freeZone = 0
  others : ∀ k, s.mem.kheap.minOrder ≤ k → k ≤ s.mem.kheap.maxOrder →
    k ≠ s.mem.kheap.reserveOrder → s.mem.kheap.head k = 0
  live : s.live = []

/-- One step of a run. -/
inductive Step : HeapState → Event → HeapState → Prop
  | alloc {s : HeapState} {fuel size order flags out : Nat} {m' : Mem}
      (ho : Mem.IsOrder s.mem.kheap size order)
      (hmax : order ≤ s.mem.kheap.maxOrder)
      (hr : Mem.kheapAlloc fuel size flags s.mem = .ret (out, m')) :
      Step s (.alloc size order flags out) ⟨m', ⟨out, order⟩ :: s.live⟩
  | free {s : HeapState} {fuel size : Nat} {b : Block} {m' : Mem}
      (hb : b ∈ s.live) (ho : Mem.IsOrder s.mem.kheap size b.order)
      (hr : Mem.kheapFree fuel b.addr size s.mem = .ret m') :
      Step s (.free b.addr size b.order) ⟨m', s.live.erase b⟩
  | write {s : HeapState} {addr : Nat} {v : UInt8} {b : Block}
      (hb : b ∈ s.live) (hx : b.Has addr) :
      Step s (.write addr v)
        ⟨{ s.mem with bytes := Function.update s.mem.bytes addr v }, s.live⟩
  | outside {s : HeapState} {m' : Mem} (hk : m'.kheap = s.mem.kheap)
      (hn : m'.frames.nframes = s.mem.frames.nframes)
      (hb : ∀ x, s.reserve.Has x → m'.bytes x = s.mem.bytes x) :
      Step s .outside ⟨m', s.live⟩

/-- A run from `s₀`, with the state and the event of each step. -/
abbrev Run := Ntibux.Run Step

-- ========================================================= the statements

/-- Every live block and every free block is inside the reserve and
aligned to its size, and no two of them overlap. -/
structure Safe (s : HeapState) : Prop where
  within : ∀ b, b ∈ s.live ∨ s.Free b → b.Within s.reserve
  aligned : ∀ b, b ∈ s.live ∨ s.Free b → b.Aligned
  live_apart : s.live.Pairwise Block.Apart
  mixed_apart : ∀ b ∈ s.live, ∀ c, s.Free c → b.Apart c
  free_apart : ∀ b c, s.Free b → s.Free c → b ≠ c → b.Apart c

/-- Every byte of the reserve belongs to a live block or a free one. -/
def Complete (s : HeapState) : Prop :=
  ∀ x, s.reserve.Has x →
    (∃ b ∈ s.live, b.Has x) ∨ ∃ b, s.Free b ∧ b.Has x

/-- The step asks for more than the whole reserve while the whole
reserve is free: `double_reserve` runs with a block on its list. -/
def Drops (s : HeapState) : Event → Prop
  | .alloc _ order _ _ => s.mem.kheap.reserveOrder < order
      ∧ s.mem.kheap.head s.mem.kheap.reserveOrder ≠ 0
  | _ => False

/-- No two buddies below the reserve order are both free. -/
def Coalesced (s : HeapState) : Prop :=
  ∀ k < s.mem.kheap.reserveOrder, ∀ a, s.Free ⟨a, k⟩ →
    ¬ s.Free ⟨a ^^^ 2 ^ k, k⟩

/-- The heap with its list table ending at the reserve order: a look at
a list above it is a fault. -/
def cutTable (m : Mem) : Mem :=
  { m with kheap := { m.kheap with
      orders := m.kheap.reserveOrder - m.kheap.minOrder + 1 } }

-- ================================================== the list machine's runs

/-- The zone of a heap that starts well. -/
def Initial.zone {s : HeapState} (hi : Initial s) : Buddy.Zone where
  minOrder := s.mem.kheap.minOrder
  maxOrder := s.mem.kheap.maxOrder
  base := s.mem.kheap.freeZone
  two_le_min := Nat.le_trans (by omega) hi.page_le
  min_le_max := Nat.le_trans hi.min_le hi.le_max
  max_lt := hi.max_lt
  base_pos := hi.zone_pos
  base_lt := hi.zone_lt
  base_dvd := hi.zone_dvd

/-- The list machine's initial state. -/
def Initial.heap {s : HeapState} (hi : Initial s) : Buddy.Heap hi.zone where
  reserveOrder := s.mem.kheap.reserveOrder
  free k := if k = s.mem.kheap.reserveOrder
    then [s.mem.kheap.freeZone] else []
  min_le := hi.min_le
  le_max := hi.le_max

end HeapState

namespace Buddy.Heap

/-- The list machine's answer to an event. -/
inductive Step {z : Zone} : Heap z → Event → Heap z → Prop
  | alloc {h h' : Heap z} {fuel size order flags out : Nat}
      (ha : h.alloc fuel order = some (out, h')) :
      Step h (.alloc size order flags out) h'
  | free {h h' : Heap z} {fuel addr size order : Nat}
      (hr : h.release fuel addr order = some h') :
      Step h (.free addr size order) h'
  | write {h : Heap z} {addr : Nat} {v : UInt8} : Step h (.write addr v) h
  | outside {h : Heap z} : Step h .outside h

/-- The list machine's run over a list of events. -/
inductive Run {z : Zone} (h₀ : Heap z) : List Event → Heap z → Prop
  | nil : Run h₀ [] h₀
  | snoc {es : List Event} {h h' : Heap z} {e : Event}
      (hr : Run h₀ es h) (hs : Step h e h') : Run h₀ (es ++ [e]) h'

end Buddy.Heap

end Ntibux
