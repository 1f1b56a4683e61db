/-
The order that `get_order` finds.

Up to 2^31 the loop passes every shift count below the logarithm of the
size and stops there (`getOrder_gives`). Above, no power that a 32-bit 1
can be shifted to is as large as the size: the shift count goes round
(`shl1_le`), and the loop with it, with the heap's lock held
(`getOrderLoop_timeout`).
-/
import Mathlib.Data.Nat.Log
import Ntibux.Mem.Proofs.Heap

namespace Ntibux

namespace Mem

open Outcome (Gives)

variable {kh : Kheap} {m m' : Mem} {size order fuel k o : Nat}

/-- The order is the least, from `min_order` on, of which a block has room
for the size. -/
structure LeastOrder (kh : Kheap) (size order : Nat) : Prop where
  min_le : kh.minOrder ≤ order
  size_le : size ≤ 2 ^ order
  le : ∀ o, kh.minOrder ≤ o → size ≤ 2 ^ o → order ≤ o

/-- `get_order` returns the least order, and an `alloc` of the size takes
a block of that order, which a `free` with the size gives back. -/
def OrderExact (m : Mem) (size : Nat) : Prop :=
  ∃ order, LeastOrder m.kheap size order
    ∧ Gives (fun fuel => getOrder fuel size m.kheap) order
    ∧ (∀ {fuel flags out m₁},
        kheapAlloc fuel size flags m = .ret (out, m₁) →
        ∃ n m₂, buddyAlloc (kheapAlloc n) n order (m.setLock true)
          = .ret (out, m₂))
    ∧ ∀ {m' : Mem} {fuel addr m₁},
        m'.kheap.minOrder = m.kheap.minOrder →
        kheapFree fuel addr size m' = .ret m₁ →
        ∃ n m₂, buddyFree n addr order (m'.setLock true) = .ret m₂

-- ================================================================= the loop

theorem shl1_le (k : Nat) : shl1 k ≤ 2 ^ 31 :=
  Nat.pow_le_pow_right (by decide) (by omega)

/-- Above `2^31` the shift count goes round and round. -/
theorem getOrderLoop_timeout (hsize : 2 ^ 31 < size) (fuel k : Nat) :
    getOrderLoop size fuel k = .timeout := by
  induction fuel generalizing k with
  | zero => rfl
  | succ fuel ih =>
      unfold getOrderLoop
      rw [if_pos (Nat.lt_of_le_of_lt (shl1_le k) hsize)]
      exact ih (k + 1)

/-- The loop passes the powers below the size, and stops at the next. -/
theorem getOrderLoop_clog (ho : Nat.clog 2 size < 32)
    (hk : k ≤ Nat.clog 2 size) (hfuel : Nat.clog 2 size - k < fuel) :
    getOrderLoop size fuel k = .ret (Nat.clog 2 size) := by
  induction fuel generalizing k with
  | zero => omega
  | succ fuel ih =>
      have hpow := shl1_of_lt (Nat.lt_of_le_of_lt hk ho)
      unfold getOrderLoop
      rw [hpow]
      rcases Nat.lt_or_eq_of_le hk with hlt | heq
      · rw [if_pos (Nat.pow_lt_of_lt_clog hlt)]
        exact ih hlt (by omega)
      · rw [heq, if_neg (Nat.not_lt.mpr (Nat.le_pow_clog (by decide) size))]

theorem clog_lt (hsize : size ≤ 2 ^ 31) : Nat.clog 2 size < 32 :=
  Nat.lt_succ_of_le (Nat.clog_le_of_le_pow hsize)

theorem getOrder_gives (kh : Kheap) (hsize : size ≤ 2 ^ 31) :
    Gives (fun fuel => getOrder fuel size kh)
      (max kh.minOrder (Nat.clog 2 size)) := by
  refine ⟨32, fun fuel hfuel => ?_⟩
  have hlt := clog_lt hsize
  show (getOrderLoop size fuel 0 >>= fun order =>
    .ret (if order < kh.minOrder then kh.minOrder else order)) = _
  rw [getOrderLoop_clog hlt (Nat.zero_le _) (by omega), Outcome.ret_bind]
  refine congrArg Outcome.ret ?_
  split <;> omega

theorem leastOrder (kh : Kheap) (size : Nat) :
    LeastOrder kh size (max kh.minOrder (Nat.clog 2 size)) where
  min_le := Nat.le_max_left _ _
  size_le := Nat.le_trans (Nat.le_pow_clog (by decide) size)
    (Nat.pow_le_pow_right (by decide) (Nat.le_max_right _ _))
  le o hmin hle := Nat.max_le.mpr ⟨hmin, Nat.clog_le_of_le_pow hle⟩

/-- The orders that the shell's requests come to are below 32. -/
theorem IsOrder.lt (ho : IsOrder kh size order) (hmin : kh.minOrder < 32) :
    order < 32 := by
  obtain ⟨fuel, hret⟩ := ho
  rcases Nat.lt_or_ge (2 ^ 31) size with hsize | hsize
  · unfold getOrder at hret
    rw [getOrderLoop_timeout hsize] at hret
    cases hret
  · obtain ⟨n, hn⟩ := getOrder_gives kh hsize
    obtain ⟨-, -, huniq⟩ := IsOrder.spec ⟨fuel, hret⟩
    have heq := huniq kh n _ rfl (hn n (Nat.le_refl n))
    have hlt := clog_lt hsize
    omega

end Mem

-- ============================================================ whole runs

namespace HeapState

/-- `min_order` stays what it is. -/
theorem run_minOrder {s₀ s : HeapState} {tr : List (HeapState × Event)}
    (hi : Initial s₀) (hr : Run s₀ tr s) :
    s.mem.kheap.minOrder = s₀.mem.kheap.minOrder := by
  obtain ⟨h, -, hg⟩ := run_good hi hr
  exact hg.sim.minOrder

end HeapState

namespace Mem

/-- `get_order` is exact up to 2^31 and for no size above. What `alloc` and
`free` ask it is the same question all along a run, since `min_order`
stays.

Up to 2^31 the loop stops at the least power of two that is large enough.
For a larger size there is none among the shifted ones, which come back to 1
behind 2^31, and the loop never ends. -/
theorem getOrder_exact_iff (size : Nat) :
    (∀ m, OrderExact m size ↔ size ≤ 2 ^ 31)
    ∧ ∀ {s₀ s : HeapState} {tr : List (HeapState × Event)},
        HeapState.Initial s₀ → HeapState.Run s₀ tr s →
        s.mem.kheap.minOrder = s₀.mem.kheap.minOrder := by
  refine ⟨fun m => ⟨?_, fun hsize => ?_⟩, HeapState.run_minOrder⟩
  · rintro ⟨order, -, ⟨n, hn⟩, -, -⟩
    by_contra hsize
    have hret : getOrder n size m.kheap = .ret order := hn n (Nat.le_refl n)
    unfold getOrder at hret
    rw [getOrderLoop_timeout (Nat.not_le.mp hsize)] at hret
    cases hret
  · obtain ⟨k, hk⟩ := getOrder_gives m.kheap hsize
    have hret := hk k (Nat.le_refl k)
    refine ⟨_, leastOrder m.kheap size, ⟨k, hk⟩, ?_, ?_⟩
    · intro fuel flags out m₁ h
      obtain ⟨n, order, m₂, -, ho, hb, -⟩ := kheapAlloc_eq_ret h
      have huniq := (IsOrder.spec ⟨n, ho⟩).2.2
      rw [huniq m.kheap k _ rfl hret]
      exact ⟨n, m₂, hb⟩
    · intro m' fuel addr m₁ hmin h
      obtain ⟨order, m₂, ho, hb, -⟩ := kheapFree_eq_ret h
      have huniq := (IsOrder.spec ⟨fuel, ho⟩).2.2
      rw [huniq m.kheap k _ hmin.symm hret]
      exact ⟨fuel, m₂, hb⟩

/-- 5000 bytes, after allocations, growth and a `free` on a booted
machine. -/
theorem getOrder_exact_booted : ∃ s₀ tr s, HeapState.Run s₀ tr s
    ∧ tr.map Prod.snd = HeapState.session ∧ OrderExact s.mem 5000
    ∧ s.mem.kheap.minOrder = s₀.mem.kheap.minOrder := by
  obtain ⟨m, tr, s, -, -, hi, hr, hev, -⟩ := HeapState.booted_run
  obtain ⟨hexact, hrun⟩ := getOrder_exact_iff 5000
  exact ⟨_, tr, s, hr, hev, (hexact s.mem).mpr (by decide), hrun hi hr⟩

/-- One byte more than half of the address space. -/
theorem getOrder_diverges :
    ¬∀ size < 2 ^ 32, ∀ m, OrderExact m size := by
  intro h
  obtain ⟨order, -, ⟨n, hn⟩, -⟩ :=
    h (2 ^ 31 + 1) (by decide) (Mem.new fun _ => 0)
  have hret : getOrder n (2 ^ 31 + 1) (Mem.new fun _ => 0).kheap
      = .ret order := hn n (Nat.le_refl n)
  unfold getOrder at hret
  rw [getOrderLoop_timeout (by decide)] at hret
  cases hret

end Mem

end Ntibux
