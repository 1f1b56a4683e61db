/-
The buddy allocator as a machine over lists of blocks: what `buddy_alloc`,
`buddy_free` and `double_reserve` do to the free lists, with the links,
the list heads and the memory they live in abstracted away.

# The state

A `Zone` is the configuration that never changes: the aligned zone
`[base, base + 2^maxOrder)` and the smallest order. It carries its own
well-formedness, so no lemma below re-proves that the zone fits in 32
bits. A `Heap` over a zone is the current reserve
`[base, base + 2^reserveOrder)` and one free list per order.

# The invariant

`Inv h used` says that the blocks handed out (`used`) and the blocks on
the free lists are aligned, lie in the reserve and are pairwise apart.
It is kept by six moves and every operation is a sequence of them: take
a block off its list, give a block back, split and join a block in hand,
reorder what is in hand, and grow the reserve. `used` is what the caller
holds at that moment: between the moves of one operation it also has the
block the operation is working on.

# Growth

`doubleReserve` is the source's, to the letter: the new upper half goes
in front of the TAIL of the old top list, so a block that was on it is
dropped (`grow_free_iff`). Safety survives this; coverage does not
(`Buddy/Alloc.lean`).
-/
import Ntibux.Lib.Dyadic
import Mathlib.Logic.Function.Basic
import Mathlib.Data.List.Basic

namespace Ntibux.Buddy

-- ============================================================= the state

/-- The configuration of a buddy heap. -/
structure Zone where
  minOrder : Nat
  maxOrder : Nat
  base : Nat
  two_le_min : 2 ≤ minOrder
  min_le_max : minOrder ≤ maxOrder
  max_lt : maxOrder < 32
  base_pos : 0 < base
  base_lt : base < 2 ^ 32
  base_dvd : 2 ^ maxOrder ∣ base

/-- The reserve in use and the free list of each order. -/
structure Heap (z : Zone) where
  reserveOrder : Nat
  free : Nat → List Nat
  min_le : z.minOrder ≤ reserveOrder
  le_max : reserveOrder ≤ z.maxOrder

variable {z : Zone} {h h' : Heap z} {used : List Block} {k a p : Nat}
  {b c : Block}

namespace Heap

/-- The reserve as one block. -/
def reserve (h : Heap z) : Block := ⟨z.base, h.reserveOrder⟩

/-- The block is on the free list of its order. -/
def Free (h : Heap z) (b : Block) : Prop := b.addr ∈ h.free b.order

/-- A block of this heap: no smaller than the smallest order, aligned,
inside the reserve. -/
structure Ok (h : Heap z) (b : Block) : Prop where
  min_le : z.minOrder ≤ b.order
  aligned : b.Aligned
  within : b.Within h.reserve

/-- The heap with the free list of order `k` replaced. -/
def setFree (h : Heap z) (k : Nat) (l : List Nat) : Heap z :=
  { h with free := Function.update h.free k l }

/-- Take a block off its free list. -/
def take (h : Heap z) (k a : Nat) : Heap z :=
  h.setFree k ((h.free k).erase a)

/-- Put a block in front of its free list. -/
def give (h : Heap z) (k a : Nat) : Heap z :=
  h.setFree k (a :: h.free k)

-- ======================================================== the operations

/-- The reserve doubled: its upper half in front of what follows the
first block of the old top list. -/
def grow (h : Heap z) (hlt : h.reserveOrder < z.maxOrder) : Heap z where
  reserveOrder := h.reserveOrder + 1
  free := Function.update h.free h.reserveOrder
    ((z.base + 2 ^ h.reserveOrder) :: (h.free h.reserveOrder).tail)
  min_le := Nat.le_succ_of_le h.min_le
  le_max := hlt

/-- `double_reserve`: no effect once the reserve is the whole zone. -/
def doubleReserve (h : Heap z) : Heap z :=
  if hlt : h.reserveOrder < z.maxOrder then h.grow hlt else h

/-- The growth loop of `buddy_alloc`. -/
def reserveLoop (order : Nat) : Nat → Heap z → Option (Heap z)
  | 0, _ => none
  | fuel + 1, h =>
      if h.reserveOrder ≤ order then
        if z.maxOrder < order then none
        else reserveLoop order fuel h.doubleReserve
      else some h

/-- `buddy_alloc` on lists of blocks. -/
def alloc : Nat → Nat → Heap z → Option (Nat × Heap z)
  | 0, _, _ => none
  | fuel + 1, order, h => do
      let h ← (if h.free order = [] then reserveLoop order fuel h
        else some h)
      match h.free order with
      | out :: rest => some (out, h.setFree order rest)
      | [] => do
          let (out, h) ← alloc fuel (order + 1) h
          some (out, h.give order (out ^^^ 2 ^ order))

/-- `buddy_free` on lists of blocks: merge with the buddy as long as the
buddy is free. -/
def release : Nat → Nat → Nat → Heap z → Option (Heap z)
  | 0, _, _, _ => none
  | fuel + 1, addr, order, h =>
      if addr ^^^ 2 ^ order ∈ h.free order then
        release fuel (min addr (addr ^^^ 2 ^ order)) (order + 1)
          (h.take order (addr ^^^ 2 ^ order))
      else some (h.give order addr)

end Heap

-- ======================================================== basic geometry

/-- The zone ends inside the 32-bit address space. -/
theorem Zone.top_le (z : Zone) : z.base + 2 ^ z.maxOrder ≤ 2 ^ 32 :=
  add_le_of_dvd_of_lt z.base_dvd
    (Nat.pow_dvd_pow 2 (Nat.le_of_lt z.max_lt)) z.base_lt

namespace Heap

/-- The reserve is aligned to its own size. -/
theorem reserve_aligned (h : Heap z) : h.reserve.Aligned :=
  Nat.dvd_trans (Nat.pow_dvd_pow 2 h.le_max) z.base_dvd

theorem reserve_fin_le (h : Heap z) : h.reserve.fin ≤ 2 ^ 32 := by
  refine Nat.le_trans ?_ z.top_le
  exact Nat.add_le_add_left
    (Nat.pow_le_pow_right (by omega) h.le_max) z.base

/-- A heap block's order is at most the reserve's. -/
theorem Ok.order_le (hb : h.Ok b) : b.order ≤ h.reserveOrder :=
  hb.within.order_le

theorem Ok.addr_pos (hb : h.Ok b) : 0 < b.addr :=
  Nat.lt_of_lt_of_le z.base_pos hb.within.1

theorem Ok.addr_lt (hb : h.Ok b) : b.addr < 2 ^ 32 :=
  Nat.lt_of_lt_of_le (Nat.lt_of_lt_of_le b.addr_lt_fin hb.within.2)
    h.reserve_fin_le

/-- A block as large as the reserve is the reserve. -/
theorem Ok.eq_base (hb : h.Ok ⟨a, h.reserveOrder⟩) : a = z.base := by
  obtain ⟨-, -, h1, h2⟩ := hb
  unfold Block.fin reserve at h2
  have h1' : z.base ≤ a := h1
  simp only at h2
  omega

/-- No block is larger than the reserve. -/
theorem not_ok_of_lt (hk : h.reserveOrder < k) : ¬ h.Ok ⟨a, k⟩ := by
  intro hb
  have := hb.order_le
  simp only at this
  omega

end Heap

-- ========================================================= the invariant

/-- Handed-out blocks and free blocks are heap blocks, pairwise apart. -/
structure Inv (h : Heap z) (used : List Block) : Prop where
  used_ok : ∀ b ∈ used, h.Ok b
  free_ok : ∀ b, h.Free b → h.Ok b
  used_apart : used.Pairwise Block.Apart
  mixed_apart : ∀ b ∈ used, ∀ c, h.Free c → b.Apart c
  free_apart : ∀ b c, h.Free b → h.Free c → b ≠ c → b.Apart c
  nodup : ∀ k, (h.free k).Nodup

/-- The address belongs to a block in hand or to a free block. -/
def Covered (h : Heap z) (used : List Block) (x : Nat) : Prop :=
  (∃ b ∈ used, b.Has x) ∨ ∃ b, h.Free b ∧ b.Has x

/-- No two buddies below the top order are both free. -/
def NoPair (h : Heap z) : Prop :=
  ∀ k < h.reserveOrder, ∀ a ∈ h.free k, a ^^^ 2 ^ k ∉ h.free k

-- ------------------------------------------------- what each move frees

namespace Heap

@[simp] theorem reserveOrder_setFree (k : Nat) (l : List Nat) :
    (h.setFree k l).reserveOrder = h.reserveOrder := rfl

@[simp] theorem reserveOrder_take :
    (h.take k a).reserveOrder = h.reserveOrder := rfl

@[simp] theorem reserveOrder_give :
    (h.give k a).reserveOrder = h.reserveOrder := rfl

theorem free_setFree_self (k : Nat) (l : List Nat) :
    (h.setFree k l).free k = l := Function.update_self ..

theorem free_setFree_of_ne {j : Nat} (hne : j ≠ k) (l : List Nat) :
    (h.setFree k l).free j = h.free j := Function.update_of_ne hne ..

/-- Being a heap block is about the reserve only. -/
theorem ok_iff_of_reserveOrder (heq : h'.reserveOrder = h.reserveOrder) :
    h'.Ok b ↔ h.Ok b := by
  have hr : h'.reserve = h.reserve := by
    unfold reserve
    rw [heq]
  exact ⟨fun ⟨h1, h2, h3⟩ => ⟨h1, h2, hr ▸ h3⟩,
    fun ⟨h1, h2, h3⟩ => ⟨h1, h2, hr ▸ h3⟩⟩

/-- Giving adds one free block. -/
theorem give_free_iff :
    (h.give k a).Free b ↔ b = ⟨a, k⟩ ∨ h.Free b := by
  obtain ⟨x, j⟩ := b
  unfold Free give
  by_cases hj : j = k
  · subst hj
    rw [free_setFree_self, List.mem_cons, Block.mk.injEq]
    simp
  · rw [free_setFree_of_ne hj, Block.mk.injEq]
    simp [hj]

/-- Taking removes one free block. -/
theorem take_free_iff (hnd : (h.free k).Nodup) :
    (h.take k a).Free b ↔ h.Free b ∧ b ≠ ⟨a, k⟩ := by
  obtain ⟨x, j⟩ := b
  unfold Free take
  by_cases hj : j = k
  · subst hj
    rw [free_setFree_self, hnd.mem_erase_iff]
    simp [and_comm]
  · rw [free_setFree_of_ne hj, ne_eq, Block.mk.injEq]
    simp [hj]

/-- Popping the front of a list is taking it. -/
theorem setFree_tail_eq_take {l : List Nat} (hl : h.free k = a :: l) :
    h.setFree k l = h.take k a := by
  unfold take
  rw [hl, List.erase_cons_head]

end Heap

-- ============================================================= the moves

namespace Inv

/-- What is in hand may be reordered. -/
theorem perm {used' : List Block} (hi : Inv h used)
    (hp : used.Perm used') : Inv h used' where
  used_ok b hb := hi.used_ok b (hp.mem_iff.mpr hb)
  free_ok := hi.free_ok
  used_apart := (hp.pairwise_iff fun {_ _} => Block.Apart.symm).mp
    hi.used_apart
  mixed_apart b hb := hi.mixed_apart b (hp.mem_iff.mpr hb)
  free_apart := hi.free_apart
  nodup := hi.nodup

/-- Take: a free block comes in hand. -/
theorem take (hi : Inv h used) (ha : a ∈ h.free k) :
    Inv (h.take k a) (⟨a, k⟩ :: used) := by
  have hfree : ∀ c, (h.take k a).Free c ↔ h.Free c ∧ c ≠ ⟨a, k⟩ :=
    fun c => Heap.take_free_iff (hi.nodup k)
  have hok : ∀ c, (h.take k a).Ok c ↔ h.Ok c :=
    fun c => Heap.ok_iff_of_reserveOrder rfl
  have hka : h.Free ⟨a, k⟩ := ha
  constructor
  · intro b hb
    rw [hok]
    rcases List.mem_cons.mp hb with rfl | hb
    · exact hi.free_ok _ hka
    · exact hi.used_ok b hb
  · intro b hb
    rw [hok]
    exact hi.free_ok b ((hfree b).mp hb).1
  · refine List.pairwise_cons.mpr ⟨fun b hb => ?_, hi.used_apart⟩
    exact (hi.mixed_apart b hb _ hka).symm
  · intro b hb c hc
    obtain ⟨hc, hne⟩ := (hfree c).mp hc
    rcases List.mem_cons.mp hb with rfl | hb
    · exact hi.free_apart _ c hka hc (Ne.symm hne)
    · exact hi.mixed_apart b hb c hc
  · intro b c hb hc hne
    exact hi.free_apart b c ((hfree b).mp hb).1 ((hfree c).mp hc).1 hne
  · intro j
    unfold Heap.take
    by_cases hj : j = k
    · rw [hj, Heap.free_setFree_self]
      exact (hi.nodup k).erase a
    · rw [Heap.free_setFree_of_ne hj]
      exact hi.nodup j

/-- Give: the block in hand goes in front of its free list. -/
theorem give (hi : Inv h (⟨a, k⟩ :: used)) : Inv (h.give k a) used := by
  have hok : ∀ c, (h.give k a).Ok c ↔ h.Ok c :=
    fun c => Heap.ok_iff_of_reserveOrder rfl
  have hmix : ∀ c, h.Free c → Block.Apart ⟨a, k⟩ c :=
    hi.mixed_apart ⟨a, k⟩ (by simp)
  have hpair := List.pairwise_cons.mp hi.used_apart
  constructor
  · intro b hb
    rw [hok]
    exact hi.used_ok b (List.mem_cons_of_mem _ hb)
  · intro b hb
    rw [hok]
    rcases Heap.give_free_iff.mp hb with rfl | hb
    · exact hi.used_ok _ (by simp)
    · exact hi.free_ok b hb
  · exact hpair.2
  · intro b hb c hc
    rcases Heap.give_free_iff.mp hc with rfl | hc
    · exact (hpair.1 b hb).symm
    · exact hi.mixed_apart b (List.mem_cons_of_mem _ hb) c hc
  · intro b c hb hc hne
    rcases Heap.give_free_iff.mp hb with rfl | hb
    · rcases Heap.give_free_iff.mp hc with rfl | hc
      · exact absurd rfl hne
      · exact hmix c hc
    · rcases Heap.give_free_iff.mp hc with rfl | hc
      · exact (hmix b hb).symm
      · exact hi.free_apart b c hb hc hne
  · intro j
    unfold Heap.give
    by_cases hj : j = k
    · rw [hj, Heap.free_setFree_self]
      refine List.nodup_cons.mpr ⟨fun hm => ?_, hi.nodup k⟩
      exact Block.not_apart_self _ (hmix ⟨a, k⟩ hm)
    · rw [Heap.free_setFree_of_ne hj]
      exact hi.nodup j

/-- Split: the block in hand becomes its two halves in hand. -/
theorem split (hi : Inv h (⟨p, k + 1⟩ :: used)) (hk : z.minOrder ≤ k) :
    Inv h (⟨p, k⟩ :: ⟨p + 2 ^ k, k⟩ :: used) := by
  have hpair := List.pairwise_cons.mp hi.used_apart
  have hp := hi.used_ok ⟨p, k + 1⟩ (by simp)
  have hpa : 2 ^ (k + 1) ∣ p := hp.aligned
  have hpd : 2 ^ k ∣ p :=
    Nat.dvd_trans (Nat.pow_dvd_pow 2 (Nat.le_succ k)) hpa
  have hlo := Block.lower_within p k
  have hup := Block.upper_within p k
  constructor
  · intro b hb
    rcases List.mem_cons.mp hb with rfl | hb
    · exact ⟨hk, hpd, hlo.trans hp.within⟩
    · rcases List.mem_cons.mp hb with rfl | hb
      · exact ⟨hk, Nat.dvd_add hpd (Nat.dvd_refl _), hup.trans hp.within⟩
      · exact hi.used_ok b (List.mem_cons_of_mem _ hb)
  · exact hi.free_ok
  · refine List.pairwise_cons.mpr ⟨fun b hb => ?_,
      List.pairwise_cons.mpr ⟨fun b hb => ?_, hpair.2⟩⟩
    · rcases List.mem_cons.mp hb with rfl | hb
      · exact Block.halves_apart p k
      · exact (hpair.1 b hb).of_within hlo
    · exact (hpair.1 b hb).of_within hup
  · intro b hb c hc
    have hm := hi.mixed_apart ⟨p, k + 1⟩ (by simp) c hc
    rcases List.mem_cons.mp hb with rfl | hb
    · exact hm.of_within hlo
    · rcases List.mem_cons.mp hb with rfl | hb
      · exact hm.of_within hup
      · exact hi.mixed_apart b (List.mem_cons_of_mem _ hb) c hc
  · exact hi.free_apart
  · exact hi.nodup

/-- Join: two halves in hand, below the top order, become one block. -/
theorem join (hi : Inv h (⟨p, k⟩ :: ⟨p + 2 ^ k, k⟩ :: used))
    (hp : 2 ^ (k + 1) ∣ p) (hk : k < h.reserveOrder) :
    Inv h (⟨p, k + 1⟩ :: used) := by
  obtain ⟨hlo, hrest⟩ := List.pairwise_cons.mp hi.used_apart
  have hup := List.pairwise_cons.mp hrest
  have hp1 := hi.used_ok ⟨p, k⟩ (by simp)
  constructor
  · intro b hb
    rcases List.mem_cons.mp hb with rfl | hb
    · exact ⟨Nat.le_succ_of_le hp1.min_le, hp,
        Block.parent_within hp h.reserve_aligned hk (Or.inl hp1.within)⟩
    · exact hi.used_ok b (by simp [hb])
  · exact hi.free_ok
  · refine List.pairwise_cons.mpr ⟨fun b hb => ?_, hup.2⟩
    exact Block.apart_succ (hlo b (by simp [hb])) (hup.1 b hb)
  · intro b hb c hc
    rcases List.mem_cons.mp hb with rfl | hb
    · exact Block.apart_succ (hi.mixed_apart ⟨p, k⟩ (by simp) c hc)
        (hi.mixed_apart ⟨p + 2 ^ k, k⟩ (by simp) c hc)
    · exact hi.mixed_apart b (by simp [hb]) c hc
  · exact hi.free_apart
  · exact hi.nodup

end Inv

end Ntibux.Buddy
