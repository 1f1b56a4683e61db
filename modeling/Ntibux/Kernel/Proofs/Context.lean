/-
When a new task starts in a clean context: exactly when the words that
`popad` and `popf` take off its stack were zero in the block that the
heap handed out.

`task::init` clears 44 bytes, but 176 bytes below the top of the stack;
the frame that `context_switch` takes off is the 44 bytes at the top. Of
that frame only the last two words are written (`init_frame`).
-/
import Ntibux.Kernel.Context
import Ntibux.Mem.Proofs.Calls

namespace Ntibux

variable {b : Bytes} {c : Cpu} {esp back flags entry killMe top : Nat}

-- ============================================================ the switch

namespace Cpu

variable {eax ebx ecx edx esi edi ebp eflags : Nat}

@[simp] theorem pop_mk :
    (Cpu.mk eax ebx ecx edx esi edi ebp esp eflags b).pop
      = (b.read32 esp, ⟨eax, ebx, ecx, edx, esi, edi, ebp, u32 (esp + 4),
        eflags, b⟩) := rfl

@[simp] theorem push_mk (v : Nat) :
    (Cpu.mk eax ebx ecx edx esi edi ebp esp eflags b).push v
      = ⟨eax, ebx, ecx, edx, esi, edi, ebp, u32 (esp + (2 ^ 32 - 4)), eflags,
        b.write32 (u32 (esp + (2 ^ 32 - 4))) v⟩ := rfl

/-- The words of the frame, one for each register. -/
theorem load_eq (c : Cpu) (h : esp + 44 ≤ 2 ^ 32) :
    c.load esp = {
      edi := c.bytes.read32 esp
      esi := c.bytes.read32 (esp + 4)
      ebp := c.bytes.read32 (esp + 8)
      ebx := c.bytes.read32 (esp + 16)
      edx := c.bytes.read32 (esp + 20)
      ecx := c.bytes.read32 (esp + 24)
      eax := c.bytes.read32 (esp + 28)
      eflags := c.bytes.read32 (esp + 32)
      esp := esp + 36
      bytes := c.bytes } := by
  have hstep : ∀ n ≤ 32, u32 (esp + n + 4) = esp + (n + 4) := by
    intro n hn
    rw [u32_of_lt (by omega), Nat.add_assoc]
  have h1 : u32 (esp + 4) = esp + 4 := u32_of_lt (by omega)
  have h2 := hstep 4 (by omega)
  have h3 := hstep 8 (by omega)
  have h4 := hstep 12 (by omega)
  have h5 := hstep 16 (by omega)
  have h6 := hstep 20 (by omega)
  have h7 := hstep 24 (by omega)
  have h8 := hstep 28 (by omega)
  have h9 := hstep 32 (by omega)
  simp only [Nat.reduceAdd] at h2 h3 h4 h5 h6 h7 h8 h9
  cases c with
  | mk eax ebx ecx edx esi edi ebp esp' eflags b =>
      simp only [load, popad, popf, pop_mk, h1, h2, h3, h4, h5, h6, h7, h8,
        h9]

/-- `push_ints` gives the registers back and writes below the stack
pointer only. -/
theorem enter_eq (c : Cpu) (h8 : 8 ≤ c.esp) (h4 : c.esp + 4 < 2 ^ 32)
    (ha : c.eax < 2 ^ 32) (back flags : Nat) :
    ∃ b, (∀ x, c.esp ≤ x → b x = c.bytes x)
      ∧ c.enter back flags = (c.top,
        { c with eflags := flags, esp := c.esp + 4, bytes := b }) := by
  cases c with
  | mk eax ebx ecx edx esi edi ebp esp eflags b =>
      simp only at h8 h4 ha
      have h1 : u32 (esp + (2 ^ 32 - 4)) = esp - 4 := by
        unfold u32
        omega
      have h2 : u32 (esp - 4 + (2 ^ 32 - 4)) = esp - 8 := by
        unfold u32
        omega
      have h3 : u32 (esp - 8 + 4) = esp - 4 := by
        unfold u32
        omega
      have h5 : u32 (esp - 4 + 4) = esp := by
        unfold u32
        omega
      have h6 : u32 (esp + 4) = esp + 4 := u32_of_lt h4
      have hbytes : ∀ x, esp ≤ x →
          ((b.write32 (esp - 4) back).write32 (esp - 8) eax) x = b x := by
        intro x hx
        rw [Bytes.write32_of_out (by omega), Bytes.write32_of_out (by omega)]
      have htop : ((b.write32 (esp - 4) back).write32 (esp - 8)
          eax).read32 esp = b.read32 esp :=
        Bytes.read32_congr fun x hx _ => hbytes x hx
      refine ⟨_, hbytes, ?_⟩
      simp only [enter, pushInts, push_mk, pop_mk, h1, h2, h3, h5, h6,
        Bytes.read32_write32_self ha, htop, top]

end Cpu

/-- The frame at `esp`, with its last two words in place, starts a task
clean exactly when the words for the registers and the flags are zero. -/
theorem startsClean_iff (h8 : 8 ≤ esp) (h44 : esp + 44 ≤ 2 ^ 32)
    (hentry : b.read32 (esp + 36) = entry)
    (hkill : b.read32 (esp + 40) = killMe) :
    StartsClean entry killMe esp b
      ↔ ∀ i < 9, i ≠ 3 → b.read32 (esp + 4 * i) = 0 := by
  -- what `load` takes off the stack, and what `enter` returns to
  have hload : ∀ c : Cpu, c.bytes = b → ∀ back flags, ∃ b',
      (∀ x, esp + 36 ≤ x → b' x = b x)
      ∧ (c.load esp).enter back flags = (b.read32 (esp + 36),
        { c.load esp with
          eflags := flags, esp := esp + 40, bytes := b' }) := by
    intro c hc back flags
    have heq := c.load_eq h44
    rw [hc] at heq
    obtain ⟨b', hb', henter⟩ := (c.load esp).enter_eq
      (by rw [heq]; show 8 ≤ esp + 36; omega)
      (by rw [heq]; show esp + 36 + 4 < 2 ^ 32; omega)
      (by rw [heq]; exact Bytes.read32_lt _ _) back flags
    refine ⟨b', ?_, ?_⟩
    · rw [heq] at hb'
      exact hb'
    · rw [henter, heq]
      rfl
  have hone : ∃ c : Cpu, c.bytes = b := ⟨⟨0, 0, 0, 0, 0, 0, 0, 0, 0, b⟩, rfl⟩
  constructor
  · intro hs i hi hne
    obtain ⟨c, hc⟩ := hone
    obtain ⟨b', -, henter⟩ := hload c hc 0 0
    have hf := hs.flags c hc
    have hr := hs.registers c hc 0 0
    rw [henter] at hr
    have heq := c.load_eq h44
    rw [hc] at heq
    rw [heq] at hf hr
    obtain ⟨h7, h4, h6, h5, h1, h0, h2⟩ := hr
    -- the word at 3 is the one for `esp`, which `popad` skips
    have hcases : i = 0 ∨ i = 1 ∨ i = 2 ∨ i = 4 ∨ i = 5 ∨ i = 6 ∨ i = 7
        ∨ i = 8 := by omega
    rcases hcases with rfl | rfl | rfl | rfl | rfl | rfl | rfl | rfl
    all_goals assumption
  · intro hz
    have hword : ∀ c : Cpu, c.bytes = b → c.load esp = {
        edi := 0, esi := 0, ebp := 0, ebx := 0, edx := 0, ecx := 0, eax := 0
        eflags := 0, esp := esp + 36, bytes := b } := by
      intro c hc
      have h0 : b.read32 esp = 0 := hz 0 (by decide) (by decide)
      have h1 : b.read32 (esp + 4) = 0 := hz 1 (by decide) (by decide)
      have h2 : b.read32 (esp + 8) = 0 := hz 2 (by decide) (by decide)
      have h4 : b.read32 (esp + 16) = 0 := hz 4 (by decide) (by decide)
      have h5 : b.read32 (esp + 20) = 0 := hz 5 (by decide) (by decide)
      have h6 : b.read32 (esp + 24) = 0 := hz 6 (by decide) (by decide)
      have h7 : b.read32 (esp + 28) = 0 := hz 7 (by decide) (by decide)
      have h8 : b.read32 (esp + 32) = 0 := hz 8 (by decide) (by decide)
      rw [c.load_eq h44, hc, h0, h1, h2, h4, h5, h6, h7, h8]
    refine ⟨fun c hc => ?_, fun c hc back flags => ?_,
      fun c hc back flags => ?_, fun c hc back flags => ?_⟩
    · rw [hword c hc]
    · obtain ⟨b', -, henter⟩ := hload c hc back flags
      rw [henter, hword c hc]
      exact ⟨rfl, rfl, rfl, rfl, rfl, rfl, rfl⟩
    · obtain ⟨b', -, henter⟩ := hload c hc back flags
      rw [henter]
      exact hentry
    · obtain ⟨b', hb', henter⟩ := hload c hc back flags
      rw [henter, ← hkill]
      exact Bytes.read32_congr fun x hx _ => hb' x (Nat.le_trans
        (Nat.add_le_add_left (by decide) esp) hx)

-- ============================================================ task::init

theorem u32_below {top n : Nat} (h0 : 0 < n) (h1 : n ≤ 16384)
    (h2 : 16384 ≤ top) (h3 : top ≤ 2 ^ 32) :
    u32 (u32 top + (2 ^ 32 - n)) = top - n := by
  unfold u32
  omega

/-- The addresses of `task::init` do not wrap. -/
theorem init_eq {kalloc : Kalloc} {block : Nat} {m m₁ : Mem}
    (killMe ticks id entry pd : Nat)
    (ha : kalloc KERNEL_STACK_SIZE ALLOC_ALIGNED m = .ret (block, m₁))
    (htop : top = block + KERNEL_STACK_SIZE) (hfit : top ≤ 2 ^ 32) :
    TaskObject.init kalloc killMe ticks id entry pd m
      = .ret (⟨id, top - 44, u32 top, KERNEL_STACK_SIZE, 0, 0, ticks, 0, pd⟩,
        ((m₁.zero (top - 176) 44).store (top - 4) killMe).store (top - 8)
          entry) := by
  have hroom : 16384 ≤ top := htop ▸ Nat.le_add_left _ _
  have h176 : u32 (u32 top + (2 ^ 32 - 4 * 44)) = top - 176 :=
    u32_below (by decide) (by decide) hroom hfit
  have h4 := u32_below (by decide : 0 < 4) (by decide) hroom hfit
  have h8 := u32_below (by decide : 0 < 8) (by decide) hroom hfit
  have h44 := u32_below (by decide : 0 < 44) (by decide) hroom hfit
  simp only [TaskObject.init, ha, Outcome.ret_bind, ← htop, h176, h4, h8,
    h44]

/-- What `task::init` leaves of the frame at the top of the stack: the
last two words are its own, the others are the block's. -/
theorem init_frame {kalloc : Kalloc} {block : Nat} {m m₁ : Mem}
    (killMe ticks id entry pd : Nat)
    (ha : kalloc KERNEL_STACK_SIZE ALLOC_ALIGNED m = .ret (block, m₁))
    (hfit : block + KERNEL_STACK_SIZE ≤ 2 ^ 32) (hentry : entry < 2 ^ 32)
    (hkill : killMe < 2 ^ 32) :
    ∃ t m', TaskObject.init kalloc killMe ticks id entry pd m = .ret (t, m')
      ∧ t.esp = block + KERNEL_STACK_SIZE - 44
      ∧ (∀ i < 9, m'.load (t.esp + 4 * i) = m₁.load (t.esp + 4 * i))
      ∧ m'.load (t.esp + 36) = entry ∧ m'.load (t.esp + 40) = killMe := by
  obtain ⟨top, htop⟩ : ∃ top, top = block + KERNEL_STACK_SIZE := ⟨_, rfl⟩
  rw [← htop] at hfit ⊢
  have hroom : 16384 ≤ top := htop ▸ Nat.le_add_left _ _
  refine ⟨_, _, init_eq killMe ticks id entry pd ha htop hfit, rfl, ?_⟩
  simp only [Mem.load, Mem.store, Mem.zero]
  have h36 : top - 44 + 36 = top - 8 := by omega
  have h40 : top - 44 + 40 = top - 4 := by omega
  rw [h36, h40, Bytes.read32_write32_self hentry,
    Bytes.read32_write32_of_apart (by omega),
    Bytes.read32_write32_self hkill]
  refine ⟨fun i hi => ?_, rfl, rfl⟩
  -- neither the zeros nor the two stores come near the first nine words
  rw [Bytes.read32_write32_of_apart (by omega),
    Bytes.read32_write32_of_apart (by omega)]
  exact Bytes.read32_congr fun x h1 h2 => Bytes.fill_of_not (by omega) 0

open HeapState in
/-- On a heap that a run has reached: the first switch into a new task
starts it clean exactly when the words that `popad` and `popf` take off
(all but the one for `esp`) are zero in the block that the heap hands
out for the stack. That is what was there before the call, unless the
heap had to grow to find the block. -/
theorem run_init_clean_iff {s₀ s : HeapState}
    {tr : List (HeapState × Event)} {fuel block : Nat} {m₁ : Mem}
    (killMe ticks id entry pd : Nat)
    (hi : HeapState.Initial s₀) (hr : HeapState.Run s₀ tr s)
    (ha : Mem.kheapAlloc fuel KERNEL_STACK_SIZE ALLOC_ALIGNED s.mem
      = .ret (block, m₁))
    (hentry : entry < 2 ^ 32) (hkill : killMe < 2 ^ 32) :
    (m₁.kheap.reserveOrder = s.mem.kheap.reserveOrder →
      ∀ x, block ≤ x → x < block + KERNEL_STACK_SIZE →
        m₁.bytes x = s.mem.bytes x)
    ∧ ∃ t m', TaskObject.init (Mem.kheapAlloc fuel) killMe ticks id entry pd
        s.mem = .ret (t, m')
      ∧ (StartsClean entry killMe t.esp m'.bytes
        ↔ ∀ i < 9, i ≠ 3 →
          m₁.load (block + KERNEL_STACK_SIZE - 44 + 4 * i) = 0) := by
  obtain ⟨h, -, hg⟩ := run_good hi hr
  obtain ⟨order, ho, htable⟩ := Mem.kheapAlloc_order ha
  have hmax := ((run_inTable_iff hi hr order).mp htable).2
  obtain ⟨-, h₁, -, hg₁, -, -⟩ := hg.alloc ho hmax ha
  have hsize : KERNEL_STACK_SIZE ≤ 2 ^ order := ho.spec.2.1
  constructor
  · intro hgrow x h1 h2
    refine Mem.kheapAlloc_content hg.sim hg.inv ho
      (hg.sim.maxOrder ▸ hmax) (by decide) ha hgrow x ⟨h1, ?_⟩
    exact Nat.lt_of_lt_of_le h2 (Nat.add_le_add_left hsize block)
  · have hok := hg₁.inv.used_ok ⟨block, order⟩ (by simp)
    have hfit : block + KERNEL_STACK_SIZE ≤ 2 ^ 32 := by
      refine Nat.le_trans (Nat.add_le_add_left hsize block) ?_
      exact Nat.le_trans hok.within.2 h₁.reserve_fin_le
    obtain ⟨t, m', hinit, hesp, hwords, hentry', hkill'⟩ :=
      init_frame killMe ticks id entry pd ha hfit hentry hkill
    have hroom : 16384 ≤ block + KERNEL_STACK_SIZE := Nat.le_add_left _ _
    refine ⟨t, m', hinit, ?_⟩
    rw [startsClean_iff (by omega) (by omega) hentry' hkill', ← hesp]
    constructor
    · intro hz i h9 h3
      rw [← hwords i h9]
      exact hz i h9 h3
    · intro hz i h9 h3
      rw [← hz i h9 h3]
      exact hwords i h9

open HeapState in
/-- The first task of a booted 8 MiB machine whose memory reads zero. -/
theorem run_init_clean_iff_booted : ∃ m t m', booted 7168 = .ret m
    ∧ TaskObject.init (Mem.kheapAlloc 20) 0x100100 0 100 0x100200 0 m
      = .ret (t, m')
    ∧ StartsClean 0x100200 0x100100 t.esp m'.bytes := by
  have hcheck : (booted 7168).holds (fun m =>
      (m.kheapAlloc 20 KERNEL_STACK_SIZE ALLOC_ALIGNED).holds fun r =>
        (List.range 9).all fun i => decide
          (r.2.load (r.1 + KERNEL_STACK_SIZE - 44 + 4 * i) = 0)) = true := by
    decide +kernel
  obtain ⟨m, hboot, hi, -⟩ := booted_small
  rw [hboot, Outcome.holds_ret] at hcheck
  obtain ⟨⟨block, m₁⟩, ha, hzero⟩ := Outcome.holds_iff.mp hcheck
  rw [List.all_eq_true] at hzero
  obtain ⟨-, t, m', hinit, hiff⟩ := run_init_clean_iff 0x100100 0 100
    0x100200 0 hi (.nil : HeapState.Run ⟨m, []⟩ [] ⟨m, []⟩) ha (by decide)
    (by decide)
  refine ⟨m, t, m', hboot, hinit, hiff.mpr fun i h9 _ => ?_⟩
  exact decide_eq_true_eq.mp (hzero i (List.mem_range.mpr h9))

/-- A client's block of stack size. -/
def usedBlock : Nat := 0x200000

/-- The client writes where the flags of a stack in this block are. -/
def used (m : Mem) : Mem :=
  { m with
    bytes := Function.update m.bytes (usedBlock + KERNEL_STACK_SIZE - 12) 2 }

open HeapState in
/-- On the same machine a client takes a block of the size of a stack,
writes into it and gives it back; the next task's stack is that block,
and its flags are what the client wrote. -/
theorem booted_starts_unclean : ∃ m tr s t m', booted 7168 = .ret m
    ∧ HeapState.Initial ⟨m, []⟩ ∧ HeapState.Run ⟨m, []⟩ tr s
    ∧ TaskObject.init (Mem.kheapAlloc 20) 0x100100 0 100 0x100200 0 s.mem
      = .ret (t, m')
    ∧ ¬ StartsClean 0x100200 0x100100 t.esp m'.bytes := by
  have hcheck : (booted 7168).holds (fun m =>
      decide (Mem.getOrder 20 KERNEL_STACK_SIZE m.kheap = .ret 14)
      && (m.kheapAlloc 20 KERNEL_STACK_SIZE ALLOC_ALIGNED).holds fun r =>
        decide (r.1 = usedBlock
          ∧ Mem.getOrder 20 KERNEL_STACK_SIZE r.2.kheap = .ret 14)
        && (Mem.kheapFree 20 usedBlock KERNEL_STACK_SIZE
          (used r.2)).holds fun m₂ =>
          (m₂.kheapAlloc 20 KERNEL_STACK_SIZE ALLOC_ALIGNED).holds fun r =>
            decide (r.1 = usedBlock
              ∧ r.2.load (usedBlock + KERNEL_STACK_SIZE - 44 + 4 * 8)
                ≠ 0)) = true := by
    decide +kernel
  obtain ⟨m, hboot, hi, -, -, hmax, -⟩ := booted_small
  rw [hboot, Outcome.holds_ret, Bool.and_eq_true, decide_eq_true_eq]
    at hcheck
  obtain ⟨ho, hcheck⟩ := hcheck
  obtain ⟨⟨out, m₁⟩, ha, hcheck⟩ := Outcome.holds_iff.mp hcheck
  rw [Bool.and_eq_true, decide_eq_true_eq] at hcheck
  obtain ⟨⟨hout, ho₁⟩, hcheck⟩ := hcheck
  obtain rfl : out = usedBlock := hout
  obtain ⟨m₂, hfree, hcheck⟩ := Outcome.holds_iff.mp hcheck
  obtain ⟨⟨out', m₃⟩, ha', hcheck⟩ := Outcome.holds_iff.mp hcheck
  rw [decide_eq_true_eq] at hcheck
  obtain ⟨hout', hstale⟩ := hcheck
  obtain rfl : out' = usedBlock := hout'
  -- the run: taken, written, given back
  have hs₁ : HeapState.Step ⟨m, []⟩
      (.alloc KERNEL_STACK_SIZE 14 ALLOC_ALIGNED usedBlock)
      ⟨m₁, [⟨usedBlock, 14⟩]⟩ :=
    .alloc ⟨20, ho⟩ (by simp only [hmax]; decide) ha
  have hs₂ : HeapState.Step ⟨m₁, [⟨usedBlock, 14⟩]⟩
      (.write (usedBlock + KERNEL_STACK_SIZE - 12) 2)
      ⟨used m₁, [⟨usedBlock, 14⟩]⟩ :=
    .write (List.mem_singleton_self _) (by decide)
  have hs₃ := HeapState.Step.free (b := ⟨usedBlock, 14⟩)
    (s := ⟨used m₁, [⟨usedBlock, 14⟩]⟩)
    (List.mem_singleton_self _) ⟨20, ho₁⟩ hfree
  obtain ⟨t, m', hinit, hesp, hwords, hentry, hkill⟩ :=
    init_frame 0x100100 0 100 0x100200 0 ha' (by decide) (by decide)
      (by decide)
  have hrun : HeapState.Run ⟨m, []⟩ _ _ :=
    ((Ntibux.Run.nil.snoc hs₁).snoc hs₂).snoc hs₃
  refine ⟨m, _, _, t, m', hboot, hi, hrun, hinit, fun hclean => ?_⟩
  have hroom : usedBlock + KERNEL_STACK_SIZE - 44 + 44 ≤ 2 ^ 32 := by decide
  rw [← hesp] at hstale hroom
  have hzero := (startsClean_iff (by rw [hesp]; decide) hroom hentry
    hkill).mp hclean 8 (by decide) (by decide)
  exact hstale ((hwords 8 (by decide)).symm.trans hzero)

end Ntibux
