/-
The allocator's memory simulates the machine over lists of blocks.

`Sim z top m h` reads the list machine's state `h` out of the memory
`m`: the configuration and the reserve order agree, and from each list
head the links stored in the blocks spell that order's free list. `top`
is how far `free_blocks` reaches, so that a table which ends at the
reserve order can be talked about as well as the full one.

# Why no link is lost

A link word sits at the start of its own free block. Every store of the
allocator goes either into a block in hand, which is apart from every
free block, or into a free block of the list being edited; the other
chains read the same words afterwards (`Sim.store`, `Sim.unlink`). What
a client wrote into a block while it held it is never followed: a block
enters a chain only through a store to its first word.
-/
import Ntibux.Mem.Kheap
import Ntibux.Mem.Proofs.Paging
import Ntibux.Buddy.Alloc
import Ntibux.Lib.Chain

namespace Ntibux

namespace Mem

open Buddy (Zone Heap Inv)

variable {z : Zone} {h h' : Heap z} {m m' m₁ : Mem} {used : List Block}
  {kalloc : Kalloc} {top k a v order fuel addr buddy : Nat} {b c : Block}

/-- An allocator call under the lock waits for it forever. -/
theorem kheapAlloc_stopsLocked (fuel : Nat) :
    Kalloc.StopsLocked (kheapAlloc fuel) := by
  intro size flags m r hl hr
  cases fuel with
  | zero => cases hr
  | succ fuel =>
      unfold kheapAlloc at hr
      rw [if_pos hl] at hr
      cases hr

-- ============================================================= link words

@[simp] theorem store_kheap : (m.store a v).kheap = m.kheap := rfl

@[simp] theorem store_currentPd : (m.store a v).currentPd = m.currentPd := rfl

/-- A list head is written after a store as before it. -/
theorem setFreeBlock_store (ht : m.kheap.InTable k) (a v w : Nat) :
    (m.store a v).setFreeBlock k w
      = .ret { m.store a v with kheap := m.kheap.setHead k w } := if_pos ht

theorem load_lt (m : Mem) (a : Nat) : m.load a < 2 ^ 32 := m.bytes.read32_lt a

theorem load_store_self (hv : v < 2 ^ 32) : (m.store a v).load a = v :=
  Bytes.read32_write32_self hv

/-- A block of order two or more holds its link word. -/
theorem four_le_fin (hb : 2 ≤ b.order) : b.addr + 4 ≤ b.fin := by
  have hpow : 2 ^ 2 ≤ 2 ^ b.order := Nat.pow_le_pow_right (by omega) hb
  exact Nat.add_le_add_left hpow b.addr

/-- A store to one block's link word leaves the other's. -/
theorem load_store_of_apart (hap : b.Apart c) (hb : 2 ≤ b.order)
    (hc : 2 ≤ c.order) (v : Nat) :
    (m.store b.addr v).load c.addr = m.load c.addr := by
  have hbf := four_le_fin hb
  have hcf := four_le_fin hc
  refine Bytes.read32_write32_of_apart ?_ v
  rcases hap with hap | hap <;> omega

/-- A store to one block's link word leaves the other's bytes. -/
theorem bytes_store_of_apart (hap : b.Apart c) (hb : 2 ≤ b.order)
    {x : Nat} (hx : c.Has x) (v : Nat) :
    (m.store b.addr v).bytes x = m.bytes x := by
  have hbf := four_le_fin hb
  obtain ⟨h1, h2⟩ := hx
  refine Bytes.write32_of_out ?_ v
  rcases hap with hap | hap <;> omega

-- ========================================================= the simulation

/-- The memory `m` holds the list machine's heap `h`, with a list table
that reaches up to `top`. -/
structure Sim (z : Zone) (top : Nat) (m : Mem) (h : Heap z) : Prop where
  page_le : 12 ≤ z.minOrder
  minOrder : m.kheap.minOrder = z.minOrder
  maxOrder : m.kheap.maxOrder = z.maxOrder
  freeZone : m.kheap.freeZone = z.base
  reserveOrder : m.kheap.reserveOrder = h.reserveOrder
  table : ∀ k, z.minOrder ≤ k → k ≤ top → m.kheap.InTable k
  chain : ∀ k, z.minOrder ≤ k → k ≤ top →
    Chain m.load (m.kheap.head k) (h.free k)

/-- What an operation of the allocator leaves alone: the blocks in other
hands, the lock, the page directory and the size of the bitmap. -/
structure Kept (used : List Block) (m m' : Mem) : Prop where
  bytes : ∀ b ∈ used, ∀ x, b.Has x → m'.bytes x = m.bytes x
  locked : m'.kheap.locked = m.kheap.locked
  currentPd : m'.currentPd = m.currentPd
  nframes : m'.frames.nframes = m.frames.nframes

theorem Kept.refl (used : List Block) (m : Mem) : Kept used m m :=
  ⟨fun _ _ _ _ => rfl, rfl, rfl, rfl⟩

theorem Kept.trans (h : Kept used m m₁) (h' : Kept used m₁ m') :
    Kept used m m' :=
  ⟨fun b hb x hx => (h'.bytes b hb x hx).trans (h.bytes b hb x hx),
    h'.locked.trans h.locked, h'.currentPd.trans h.currentPd,
    h'.nframes.trans h.nframes⟩

/-- What is kept for more hands is kept for fewer. -/
theorem Kept.of_cons (h : Kept (b :: used) m m') : Kept used m m' :=
  ⟨fun c hc => h.bytes c (List.mem_cons_of_mem b hc), h.locked,
    h.currentPd, h.nframes⟩

/-- A list head replaced. -/
theorem Kept.setHead (used : List Block) (m : Mem) (k v : Nat) :
    Kept used m { m with kheap := m.kheap.setHead k v } :=
  ⟨fun _ _ _ _ => rfl, rfl, rfl, rfl⟩

/-- A store into a block apart from those in other hands. -/
theorem Kept.store (hb : 2 ≤ b.order) (hap : ∀ c ∈ used, b.Apart c)
    (v : Nat) : Kept used m (m.store b.addr v) :=
  ⟨fun c hc _ hx => bytes_store_of_apart (hap c hc) hb hx v, rfl, rfl, rfl⟩

namespace Sim

/-- The head of a list in the table is read without a fault. -/
theorem getFreeBlock (hs : Sim z top m h) (hmin : z.minOrder ≤ k)
    (hk : k ≤ top) : m.kheap.getFreeBlock k = .ret (m.kheap.head k) :=
  if_pos (hs.table k hmin hk)

/-- The head of a list in the table is written without a fault. -/
theorem setFreeBlock (hs : Sim z top m h) (hmin : z.minOrder ≤ k)
    (hk : k ≤ top) (v : Nat) :
    m.setFreeBlock k v
      = .ret { m with kheap := m.kheap.setHead k v } :=
  if_pos (hs.table k hmin hk)

/-- A list is empty when its head is null. -/
theorem head_eq_zero_iff (hs : Sim z top m h) (hmin : z.minOrder ≤ k)
    (hk : k ≤ top) : m.kheap.head k = 0 ↔ h.free k = [] :=
  (hs.chain k hmin hk).eq_nil_iff

/-- The simulation survives what keeps the heap and its link words. -/
theorem congr (hs : Sim z top m h) (hkheap : m'.kheap = m.kheap)
    (hload : ∀ b, h.Free b → m'.load b.addr = m.load b.addr) :
    Sim z top m' h where
  page_le := hs.page_le
  minOrder := by rw [hkheap, hs.minOrder]
  maxOrder := by rw [hkheap, hs.maxOrder]
  freeZone := by rw [hkheap, hs.freeZone]
  reserveOrder := by rw [hkheap, hs.reserveOrder]
  table k := by
    rw [hkheap]
    exact hs.table k
  chain k hmin hk := by
    rw [hkheap]
    exact (hs.chain k hmin hk).congr fun x hx => hload ⟨x, k⟩ hx

/-- A list replaced, with a head from which the links spell it. -/
theorem setHead {l : List Nat} (hs : Sim z top m h)
    (hmin : z.minOrder ≤ k) (hc : Chain m.load v l) :
    Sim z top { m with kheap := m.kheap.setHead k v } (h.setFree k l) where
  page_le := hs.page_le
  minOrder := hs.minOrder
  maxOrder := hs.maxOrder
  freeZone := hs.freeZone
  reserveOrder := hs.reserveOrder
  table := hs.table
  chain j hj hjt := by
    show Chain m.load
      (Function.update m.kheap.freeBlocks (k - m.kheap.minOrder) v
        (j - m.kheap.minOrder)) ((h.setFree k l).free j)
    by_cases hjk : j = k
    · rw [hjk, Function.update_self, Heap.free_setFree_self]
      exact hc
    · have hne : j - m.kheap.minOrder ≠ k - m.kheap.minOrder := by
        rw [hs.minOrder]
        omega
      rw [Function.update_of_ne hne, Heap.free_setFree_of_ne hjk]
      exact hs.chain j hj hjt

/-- A store to the first word of a block apart from every free block. -/
theorem store (hs : Sim z top m h) (hi : Inv h used)
    (hb : 2 ≤ b.order) (hap : ∀ c, h.Free c → b.Apart c) (v : Nat) :
    Sim z top (m.store b.addr v) h :=
  hs.congr rfl fun c hc => load_store_of_apart (hap c hc) hb
    (Nat.le_trans z.two_le_min (hi.free_ok c hc).min_le) v

/-- Pop: the front block leaves its list. -/
theorem pop {l : List Nat} (hs : Sim z top m h) (hmin : z.minOrder ≤ k)
    (hk : k ≤ top) (hfree : h.free k = a :: l) :
    m.kheap.head k = a ∧ a ≠ 0
      ∧ Sim z top { m with kheap := m.kheap.setHead k (m.load a) }
        (h.setFree k l) := by
  have hc := hs.chain k hmin hk
  rw [hfree] at hc
  exact ⟨hc.1, hc.2.1, hs.setHead hmin hc.2.2⟩

/-- Push: a block in hand goes in front of its list. -/
theorem push (hs : Sim z top m h) (hi : Inv h (⟨a, k⟩ :: used))
    (hk : k ≤ top) :
    Sim z top
        { m.store a (m.kheap.head k) with
          kheap := m.kheap.setHead k a }
        (h.give k a)
      ∧ Kept used m
        { m.store a (m.kheap.head k) with
          kheap := m.kheap.setHead k a } := by
  have hok := hi.used_ok ⟨a, k⟩ (by simp)
  have hmin : z.minOrder ≤ k := hok.min_le
  have htwo : 2 ≤ k := Nat.le_trans z.two_le_min hmin
  have hne : a ≠ 0 := Nat.ne_of_gt hok.addr_pos
  have hap : ∀ c, h.Free c → Block.Apart ⟨a, k⟩ c :=
    hi.mixed_apart ⟨a, k⟩ (by simp)
  have hc := hs.chain k hmin hk
  have hs₁ : Sim z top (m.store a (m.kheap.head k)) h :=
    hs.store (b := ⟨a, k⟩) hi htwo hap _
  -- the head that becomes the link is a 32-bit address
  have hhead : m.kheap.head k < 2 ^ 32 := by
    cases hfree : h.free k with
    | nil =>
        rw [(hs.head_eq_zero_iff hmin hk).mpr hfree]
        exact Nat.two_pow_pos 32
    | cons x l =>
        rw [hfree] at hc
        rw [hc.1]
        exact (hi.free_ok ⟨x, k⟩ (by simp [Heap.Free, hfree])).addr_lt
  refine ⟨hs₁.setHead hmin ?_, ?_⟩
  · refine ⟨rfl, hne, ?_⟩
    rw [load_store_self hhead]
    exact hs₁.chain k hmin hk
  · refine (Kept.store (b := ⟨a, k⟩) htwo ?_ _).trans
      (Kept.setHead used (m.store a (m.kheap.head k)) k a)
    exact (List.pairwise_cons.mp hi.used_apart).1

end Sim

-- ================================================================ growth

/-- What the new block's link is: where the old top list went on after
its front. -/
theorem Sim.chain_tail (hs : Sim z top m h) (hmin : z.minOrder ≤ k)
    (hk : k ≤ top) :
    Chain m.load
      (if m.kheap.head k ≠ 0 then m.load (m.kheap.head k) else 0)
      (h.free k).tail := by
  have hc := hs.chain k hmin hk
  cases hfree : h.free k with
  | nil =>
      rw [if_neg (by simpa using (hs.head_eq_zero_iff hmin hk).mpr hfree)]
      rfl
  | cons x l =>
      rw [hfree] at hc
      rw [hc.1, if_pos hc.2.1]
      exact hc.2.2

/-- Where `double_reserve` maps: the end of the reserve. -/
theorem Sim.reserveEnd (hs : Sim z top m h)
    (hlt : h.reserveOrder < z.maxOrder) :
    u32 (m.kheap.freeZone + shl1 m.kheap.reserveOrder)
      = z.base + 2 ^ h.reserveOrder := by
  have hpow : 2 ^ h.reserveOrder < 2 ^ z.maxOrder :=
    Nat.pow_lt_pow_right (by decide) hlt
  have htop := z.top_le
  have hmax := z.max_lt
  rw [hs.freeZone, hs.reserveOrder, shl1_of_lt (by omega),
    u32_of_lt (by omega)]

/-- `map_range` in `double_reserve` changes no byte of the old
reserve. -/
theorem doubleReserve_mapped (hk : kalloc.StopsLocked)
    (hl : m.kheap.locked = true) (hs : Sim z top m h)
    (hlt : h.reserveOrder < z.maxOrder) {r : Nat}
    (hr : m.mapRange kalloc fuel
      (u32 (m.kheap.freeZone + shl1 m.kheap.reserveOrder))
      (shl1 m.kheap.reserveOrder) MAP_KERNEL_DATA = .ret (r, m')) :
    Mapped m m' (z.base + 2 ^ h.reserveOrder) (2 ^ h.reserveOrder) := by
  have hmax := z.max_lt
  have htop := z.top_le
  have hpow : 2 ^ (h.reserveOrder + 1) ≤ 2 ^ z.maxOrder :=
    Nat.pow_le_pow_right (by omega) hlt
  have hpos := Nat.two_pow_pos h.reserveOrder
  have hr12 : 2 ^ 12 ∣ 2 ^ h.reserveOrder :=
    Nat.pow_dvd_pow 2 (Nat.le_trans hs.page_le h.min_le)
  have hb12 : 2 ^ 12 ∣ z.base :=
    Nat.dvd_trans (Nat.pow_dvd_pow 2 (by
      have := hs.page_le
      have := z.min_le_max
      omega)) z.base_dvd
  rw [pow_succ] at hpow
  rw [hs.reserveEnd hlt, hs.reserveOrder, shl1_of_lt (by omega)] at hr
  exact mapRange_mapped hk hl (Nat.dvd_add hb12 hr12) hr12 (by omega) hpos
    (by omega) hr

/-- `double_reserve` is growth of the list machine. -/
theorem doubleReserve_sim (hk : kalloc.StopsLocked)
    (hl : m.kheap.locked = true) (hs : Sim z z.maxOrder m h)
    (hi : Inv h used) (hr : m.doubleReserve kalloc fuel = .ret m') :
    Sim z z.maxOrder m' h.doubleReserve ∧ Kept used m m' := by
  unfold doubleReserve at hr
  rw [hs.maxOrder, hs.reserveOrder] at hr
  split at hr
  case isTrue hge =>
    cases hr
    unfold Heap.doubleReserve
    rw [dif_neg (Nat.not_lt.mpr hge)]
    exact ⟨hs, Kept.refl used m⟩
  case isFalse hge =>
    have hlt : h.reserveOrder < z.maxOrder := Nat.not_le.mp hge
    rw [← hs.reserveOrder] at hr
    obtain ⟨⟨r, m₁⟩, hmap, hr⟩ := Outcome.bind_eq_ret.mp hr
    have hm := doubleReserve_mapped hk hl hs hlt hmap
    have hmin := h.min_le
    have hle := h.le_max
    have htwo : 2 ≤ h.reserveOrder := Nat.le_trans z.two_le_min hmin
    -- mapping left the heap and every old link in place
    have hold : ∀ b, h.Ok b → ∀ x, b.Has x → m₁.bytes x = m.bytes x := by
      intro b hb x hx
      refine hm.bytes x (Or.inl ?_)
      exact Nat.lt_of_lt_of_le hx.2 hb.within.2
    have hload : ∀ b, h.Ok b → m₁.load b.addr = m.load b.addr := by
      intro b hb
      refine Bytes.read32_congr fun x h1 h2 => hold b hb x ⟨h1, ?_⟩
      have := four_le_fin (Nat.le_trans z.two_le_min hb.min_le)
      omega
    have hs₁ : Sim z z.maxOrder m₁ h :=
      hs.congr hm.kheap fun b hb => hload b (hi.free_ok b hb)
    have hkept₁ : Kept used m m₁ :=
      ⟨fun b hb => hold b (hi.used_ok b hb), by rw [hm.kheap],
        hm.currentPd, hm.nframes⟩
    -- the new block's link, then its list
    have hpow : 2 ^ (h.reserveOrder + 1) ≤ 2 ^ z.maxOrder :=
      Nat.pow_le_pow_right (by omega) hlt
    have htop := z.top_le
    have hpos := Nat.two_pow_pos h.reserveOrder
    rw [pow_succ] at hpow
    have hmax := z.max_lt
    have hend := hs₁.reserveEnd hlt
    rw [hs₁.reserveOrder] at hend
    simp only [hs₁.reserveOrder, hend] at hr
    rw [hs₁.getFreeBlock hmin hle, Outcome.ret_bind] at hr
    have hv : (if m₁.kheap.head h.reserveOrder ≠ 0
        then m₁.load (m₁.kheap.head h.reserveOrder) else 0) < 2 ^ 32 := by
      split
      · exact load_lt ..
      · omega
    have hapart : ∀ b, h.Ok b → Block.Apart
        ⟨z.base + 2 ^ h.reserveOrder, h.reserveOrder⟩ b :=
      fun b hb => hb.apart_new.symm
    have hs₂ := hs₁.store
      (b := ⟨z.base + 2 ^ h.reserveOrder, h.reserveOrder⟩) hi htwo
      (fun c hc => hapart c (hi.free_ok c hc))
      (if m₁.kheap.head h.reserveOrder ≠ 0
        then m₁.load (m₁.kheap.head h.reserveOrder) else 0)
    rw [hs₂.setFreeBlock hmin hle, Outcome.ret_bind] at hr
    cases hr
    have htail : Chain
        (m₁.store (z.base + 2 ^ h.reserveOrder)
          (if m₁.kheap.head h.reserveOrder ≠ 0
            then m₁.load (m₁.kheap.head h.reserveOrder) else 0)).load
        (z.base + 2 ^ h.reserveOrder)
        ((z.base + 2 ^ h.reserveOrder) :: (h.free h.reserveOrder).tail) := by
      refine ⟨rfl, by omega, ?_⟩
      rw [load_store_self hv]
      refine (hs₁.chain_tail hmin hle).congr fun x hx => ?_
      have hxf : h.Free ⟨x, h.reserveOrder⟩ := List.mem_of_mem_tail hx
      exact load_store_of_apart
        (b := ⟨z.base + 2 ^ h.reserveOrder, h.reserveOrder⟩)
        (c := ⟨x, h.reserveOrder⟩) (hapart _ (hi.free_ok _ hxf)) htwo htwo _
    have hs₃ := hs₂.setHead hmin htail
    unfold Heap.doubleReserve
    rw [dif_pos hlt]
    refine ⟨⟨hs₃.page_le, hs₃.minOrder, hs₃.maxOrder, hs₃.freeZone, rfl,
      hs₃.table, hs₃.chain⟩, hkept₁.trans ?_⟩
    refine (Kept.store
      (b := ⟨z.base + 2 ^ h.reserveOrder, h.reserveOrder⟩) htwo
      (fun c hc => hapart c (hi.used_ok c hc)) _).trans ⟨?_, rfl, rfl, rfl⟩
    exact fun _ _ _ _ => rfl

end Mem

end Ntibux
