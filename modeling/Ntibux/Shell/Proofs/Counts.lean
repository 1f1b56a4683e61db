/-
The page counts that `mem alloc` takes.

The shell multiplies the count by `PAGESIZE` in 32 bits. Up to 2^19 pages
that is exact, and the order search ends on a block that is large enough.
Above, up to 2^20, no shift of 1 is as large as the size, and the search
does not end; from 2^20 on the size has wrapped, and an order is looked
for that is too small (`run_countMet_iff`).
-/
import Ntibux.Mem.Proofs.Calls
import Ntibux.Shell.Proofs.Commands

namespace Ntibux

-- =================================================================== alloc

namespace Mem

variable {kh : Kheap} {m : Mem} {size order fuel k o : Nat}

/-- Under a free lock, `alloc` is a call of `buddy_alloc` for the order of
the size. -/
theorem kheapAlloc_of_order (hl : m.kheap.locked = false)
    (ho : getOrder fuel size m.kheap = .ret order) (flags : Nat) :
    kheapAlloc (fuel + 1) size flags m
      = buddyAlloc (kheapAlloc fuel) fuel order (m.setLock true)
        >>= fun r => .ret (r.1, (if flags &&& ALLOC_ZEROED ≠ 0 then
          r.2.zero r.1 size else r.2).setLock false) := by
  have hord : getOrder fuel size (m.setLock true).kheap = .ret order := ho
  simp only [kheapAlloc, hl, Bool.false_eq_true, if_false, hord,
    Outcome.ret_bind]

/-- Without a list for the order, nothing is looked at. -/
theorem buddyAlloc_of_not_inTable {kalloc : Kalloc}
    (ht : ¬m.kheap.InTable order) (fuel : Nat) :
    buddyAlloc kalloc fuel order m = .timeout
      ∨ buddyAlloc kalloc fuel order m = .fault := by
  cases fuel with
  | zero => exact .inl rfl
  | succ fuel =>
      have hget : m.kheap.getFreeBlock order = .fault := if_neg ht
      unfold buddyAlloc
      rw [hget]
      exact .inr rfl

end Mem

-- ================================================================ requests

namespace HeapState

open Buddy (Zone Heap)

variable {z : Zone} {h : Heap z} {s s₀ : HeapState} {size n : Nat}
  {tr : List (HeapState × Event)}

/-- `kheap::alloc(size)` calls `buddy_alloc` with the order `k`. -/
def CallsBuddy (s : HeapState) (size k : Nat) : Prop :=
  s.mem.kheap.locked = false ∧ Mem.IsOrder s.mem.kheap size k

/-- `kheap::alloc(size)` reaches `PANIC`. -/
def Panics (s : HeapState) (size : Nat) : Prop :=
  ∃ fuel msg, Mem.kheapAlloc fuel size 0 s.mem = .panic msg

/-- No block for the size is free, and the frames run out on the way to
one, before a page without a table is met. -/
def RunsOut (s : HeapState) (size : Nat) : Prop :=
  ∃ order, Mem.IsOrder s.mem.kheap size order
    ∧ order ≤ s.mem.kheap.maxOrder ∧ ¬s.FreeFrom order
    ∧ ¬s.mem.Blocked s.growthBase (s.growthPages order)
    ∧ s.mem.frames.avail < s.growthPages order

/-- A request that `mem alloc` has made for `n` pages is refused, reaches
`PANIC`, or has `buddy_alloc` called for as much as that. -/
def CountMet (s : HeapState) (log : List Action) (n : Nat) : Prop :=
  (∀ size, .kheapAlloc size ∉ log)
    ∨ ∃ size, .kheapAlloc size ∈ log
      ∧ (s.Panics size ∨ ∃ k, s.CallsBuddy size k ∧ n * PAGESIZE ≤ 2 ^ k)

/-- What `PANIC` an `alloc` reaches, its `buddy_alloc` has reached. -/
theorem panic_of_bind {α β : Type} {x : Outcome α} {f : α → β}
    {msg : String} (h : (x >>= fun a => .ret (f a)) = .panic msg) :
    x = .panic msg := by
  cases x with
  | ret a => cases h
  | panic msg' => exact congrArg Outcome.panic (Outcome.panic.inj h)
  | _ => cases h

/-- `PANIC` is reached exactly if the frames run out. -/
theorem run_panics_iff (hi : Initial s₀) (hr : Run s₀ tr s) (size : Nat) :
    s.Panics size ↔ s.RunsOut size := by
  have htable := run_inTable_iff hi hr
  obtain ⟨h, -, hg⟩ := run_good hi hr
  constructor
  · rintro ⟨fuel, msg, hpanic⟩
    cases fuel with
    | zero => cases hpanic
    | succ fuel =>
        -- the order search panics nowhere, nor does a list that is not there
        rcases Mem.getOrder_outcome fuel size s.mem.kheap with
          ht | ⟨order, ho⟩
        · have hord : Mem.getOrder fuel size (s.mem.setLock true).kheap
              = .timeout := ht
          simp [Mem.kheapAlloc, hg.unlocked, hord] at hpanic
        · rw [Mem.kheapAlloc_of_order hg.unlocked ho] at hpanic
          have hbuddy := panic_of_bind hpanic
          have hin : s.mem.kheap.InTable order := by
            by_contra hout
            rcases Mem.buddyAlloc_of_not_inTable
              (m := s.mem.setLock true) hout fuel with heq | heq
            · rw [heq] at hbuddy
              cases hbuddy
            · rw [heq] at hbuddy
              cases hbuddy
          obtain ⟨hmin, hmax⟩ := (htable order).mp hin
          refine ⟨order, ⟨fuel, ho⟩, hmax, ?_⟩
          rw [hg.sim.minOrder] at hmin
          rw [hg.sim.maxOrder] at hmax
          have hfree : ¬s.FreeFrom order := by
            intro hf
            rcases hg.alloc_of_freeFrom hmin hf fuel with
              ⟨ht, -⟩ | ⟨r, hret⟩
            · rw [ht] at hbuddy
              cases hbuddy
            · rw [hret] at hbuddy
              cases hbuddy
          have hmaps := hg.alloc_maps hmin hmax hfree fuel
          rw [hbuddy] at hmaps
          cases hmaps with
          | panic hb hlt => exact ⟨hfree, hb, hlt⟩
  · rintro ⟨order, ho, hmax, hfree, hblocked, hshort⟩
    have hmin := ho.spec.1
    rw [hg.sim.minOrder] at hmin
    rw [hg.sim.maxOrder] at hmax
    obtain ⟨enough, henough⟩ := ho.eventually
    have hord := henough (enough + (2 ^ 20 + 67)) (Nat.le_add_right _ _)
    have hmaps := hg.alloc_maps hmin hmax hfree (enough + (2 ^ 20 + 67))
    refine ⟨enough + (2 ^ 20 + 67) + 1, "no available frame found", ?_⟩
    rw [Mem.kheapAlloc_of_order hg.unlocked hord]
    -- with fuel enough, of all that growth may come to only `PANIC` is left
    generalize Mem.buddyAlloc (Mem.kheapAlloc (enough + (2 ^ 20 + 67)))
      (enough + (2 ^ 20 + 67)) order (s.mem.setLock true) = x at hmaps ⊢
    cases hmaps with
    | ret hfit hd => exact absurd hfit.2 (Nat.not_le.mpr hshort)
    | panic hb hlt => rfl
    | spin hb => exact absurd hb hblocked
    | timeout hlate =>
        rcases hlate with hle | ⟨-, hfit⟩
        · omega
        · exact absurd hfit.2 (Nat.not_le.mpr hshort)

/-- Up to 2^19 pages, and only there, `buddy_alloc` is called for as much
as the count says. -/
theorem run_callsBuddy_iff (hi : Initial s₀) (hr : Run s₀ tr s) :
    (∃ k, s.CallsBuddy (u32 (n * PAGESIZE)) k ∧ n * PAGESIZE ≤ 2 ^ k)
      ↔ n ≤ 2 ^ 19 := by
  obtain ⟨h, -, hg⟩ := run_good hi hr
  unfold PAGESIZE
  constructor
  · rintro ⟨k, ⟨-, ho⟩, hle⟩
    have hmin : s.mem.kheap.minOrder < 32 := by
      rw [hg.sim.minOrder]
      exact Nat.lt_of_le_of_lt hi.zone.min_le_max hi.zone.max_lt
    have hk := ho.lt hmin
    have hpow : 2 ^ k ≤ 2 ^ 31 :=
      Nat.pow_le_pow_right (by decide) (Nat.lt_succ_iff.mp hk)
    omega
  · intro hn
    have hsize : u32 (n * 4096) = n * 4096 := u32_of_lt (by omega)
    obtain ⟨k, ho⟩ := Mem.exists_isOrder s.mem.kheap
      (show n * 4096 ≤ 2 ^ 31 by omega)
    rw [hsize]
    exact ⟨k, ⟨hg.unlocked, ho⟩, ho.spec.2.1⟩

/-- A request of `mem alloc` for the wrapped size. -/
theorem run_countMet_iff (hi : Initial s₀) (hr : Run s₀ tr s)
    {log : List Action}
    (hlog : ∀ size, .kheapAlloc size ∈ log ↔ size = u32 (n * PAGESIZE)) :
    s.CountMet log n ↔ n ≤ 2 ^ 19 ∨ s.RunsOut (u32 (n * PAGESIZE)) := by
  have hin := (hlog _).mpr rfl
  unfold CountMet
  rw [or_iff_right fun hnone => hnone _ hin]
  constructor
  · rintro ⟨size, hsize, hpanic | hcalls⟩
    · rw [(hlog size).mp hsize] at hpanic
      exact .inr ((run_panics_iff hi hr _).mp hpanic)
    · rw [(hlog size).mp hsize] at hcalls
      exact .inl ((run_callsBuddy_iff hi hr).mp hcalls)
  · rintro (hn | hout)
    · exact ⟨_, hin, .inr ((run_callsBuddy_iff hi hr).mpr hn)⟩
    · exact ⟨_, hin, .inl ((run_panics_iff hi hr _).mpr hout)⟩

end HeapState

-- =============================================================== the shell

namespace Shell

variable {sh : Shell} {args : Splits} {n : Nat}
  {old : Vector UInt8 MAX_COMMAND_NAME_LEN}

/-- A number is what its text converts to, whatever is behind it. -/
theorem atoi_of_ret {t : List UInt8} (ht : atoi (t ++ [0]) = .ret n)
    (rest : List UInt8) : atoi (t ++ 0 :: rest) = .ret n := by
  rw [atoi_string t rest, ← atoi_string t [], ht]

/-- What `mem alloc` does with a count. -/
theorem commandMem_alloc {c t : List UInt8} {rest : List (List UInt8)}
    (h : HasArgs sh.bytes args (c :: ascii "alloc" :: t :: rest))
    (ht : atoi (t ++ [0]) = .ret n) (hn : n ≠ 0) :
    (sh.commandMem args).log
      = [.strcmp (ascii "status" ++ [0]) (args.get 1),
        .strcmp (ascii "dump" ++ [0]) (args.get 1),
        .strcmp (ascii "alloc" ++ [0]) (args.get 1),
        .atoi (args.get 2) 0, .kheapAlloc (u32 (n * PAGESIZE))] := by
  obtain ⟨h1, rest₁, htext⟩ := h.text 1 (ascii "alloc") rfl
  obtain ⟨h2, rest₂, hcount⟩ := h.text 2 t rfl
  have hspells : ∀ s : String, 0 ∉ ascii s →
      (sh.spells s (args.get 1)).out = .ret (decide (ascii "alloc" = ascii s)) :=
    fun s hs => spells_out hs (by decide) htext
  have halloc : (sh.memAllocCommand args).log
      = [.atoi (args.get 2) 0, .kheapAlloc (u32 (n * PAGESIZE))] := by
    unfold memAllocCommand
    rw [if_pos h2, Traced.bind_of_ret (atoiArg_out hcount (atoi_of_ret ht))]
    simp only [if_pos hn]
    rfl
  unfold commandMem
  rw [if_neg h1, Traced.bind_of_ret (hspells "status" (by decide)),
    decide_eq_false (by decide), if_neg Bool.false_ne_true,
    Traced.bind_of_ret (hspells "dump" (by decide)),
    decide_eq_false (by decide), if_neg Bool.false_ne_true,
    Traced.bind_of_ret (hspells "alloc" (by decide)),
    decide_eq_true rfl, if_pos rfl]
  simp only [spells_log, halloc]
  rfl

theorem LineRun.alloc_log {line t : List UInt8} {rest : List (List UInt8)}
    {x : Traced Action Nat} (h : LineRun old sh line x)
    (htexts : texts line = ascii "mem" :: ascii "alloc" :: t :: rest)
    (ht : atoi (t ++ [0]) = .ret n) (hn : n ≠ 0) (size : Nat) :
    .kheapAlloc size ∈ x.log ↔ size = u32 (n * PAGESIZE) := by
  cases h with
  | empty hnone =>
      rw [htexts] at hnone
      cases hnone
  | run args b r rest' hargs hr hname =>
      rw [htexts] at hargs hname
      have hmem := (run_eq_mem_iff hr).mpr (List.cons.inj hname).1.symm
      rw [hmem]
      show _ ∈ (commandMem args _).log ↔ _
      rw [commandMem_alloc hargs ht hn]
      simp
  | missing p hp hnone =>
      obtain ⟨r, hr, hmem⟩ := exists_mem old
      refine absurd htexts ?_
      rw [← (run_eq_mem_iff hr).mp hmem]
      exact hnone r hr _

/-- For every count and every state of the heap: the request is refused,
reaches `PANIC` or asks `buddy_alloc` for as much as the count says,
exactly if the count is at most 2^19, or the frames run out for the wrapped
size.

What a line asks the heap for is `count * 4096` in 32 bits, and up to 2^19
that is what the count says. Above, `get_order` never ends on it or the size
has wrapped, and the count is met only by the `PANIC` of a heap that cannot
serve the wrapped size. -/
theorem mem_alloc_met_iff {s₀ s : HeapState}
    {tr : List (HeapState × Event)}
    (hi : HeapState.Initial s₀) (hr : HeapState.Run s₀ tr s)
    {p fuel : Nat} {line t : List UInt8} {rest : List (List UInt8)}
    (hs : Interpreter.addCommands (builtins old) Interpreter.new
      = .ret sh.interp)
    (hb : sh.bytes.HasLine p line) (hnul : 0 ∉ line)
    (hlen : line.length ≤ MAX_LINE_LEN - 1) (hp : p ≠ 0)
    (hend : p + line.length < 2 ^ 32) (hfuel : line.length < fuel)
    (htexts : texts line = ascii "mem" :: ascii "alloc" :: t :: rest)
    (ht : atoi (t ++ [0]) = .ret n) (hn : 1 ≤ n) :
    s.CountMet (sh.runLine fuel p).log n
      ↔ n ≤ 2 ^ 19 ∨ s.RunsOut (u32 (n * PAGESIZE)) := by
  have hlt : line.length < MAX_LINE_LEN := by
    unfold MAX_LINE_LEN at hlen ⊢
    omega
  have hrun := runLine_lineRun (registered_builtins hs) hb hnul hlt hp hend
    hfuel
  exact HeapState.run_countMet_iff hi hr
    (hrun.alloc_log htexts ht (Nat.ne_of_gt hn))

/-- On the booted 8 MiB machine, `mem alloc 0x10` gets the sixteen bytes it
asks for. -/
theorem mem_alloc_met_sixteen : ∃ m, HeapState.booted 7168 = .ret m
    ∧ HeapState.CountMet ⟨m, []⟩
      ((sampleShell (ascii "mem alloc 0x10")).runLine 15 4).log 16 := by
  obtain ⟨m, hboot, hi, -⟩ := HeapState.booted_small
  refine ⟨m, hboot, (@mem_alloc_met_iff (sampleShell (ascii "mem alloc 0x10"))
    16 (Vector.replicate _ 0) _ _ _ hi Run.nil 4 15
    (ascii "mem alloc 0x10") (ascii "0x10") [] rfl (sampleShell_hasLine _)
    (by decide) (by decide) (by decide) (by decide) (by decide) (by decide)
    (by decide) (by decide)).mpr (.inl (by decide))⟩

/-- The order of one page is the smallest there is. -/
theorem isOrder_page {kh : Kheap} (hmin : kh.minOrder = 12) {fuel : Nat}
    (hfuel : 13 ≤ fuel) : Mem.getOrder fuel 4096 kh = .ret 12 := by
  have hloop : Mem.getOrderLoop 4096 13 0 = .ret 12 := by decide
  unfold Mem.getOrder
  rw [Mem.getOrderLoop_mono hloop hfuel, Outcome.ret_bind, hmin]
  rfl

/-- On the booted machine of 8 MiB, the request for 2^20 + 1 pages is
served with one page. -/
theorem mem_alloc_wraps : ∃ m, HeapState.booted 7168 = .ret m
    ∧ HeapState.Initial ⟨m, []⟩
    ∧ texts (ascii "mem alloc 0x100001")
      = [ascii "mem", ascii "alloc", ascii "0x100001"]
    ∧ atoi (ascii "0x100001" ++ [0]) = .ret (2 ^ 20 + 1)
    ∧ (∃ fuel r, Mem.kheapAlloc fuel 4096 0 m = .ret r)
    ∧ ¬HeapState.CountMet ⟨m, []⟩
      ((sampleShell (ascii "mem alloc 0x100001")).runLine 19 4).log
      (2 ^ 20 + 1) := by
  obtain ⟨m, hboot, hi, hmin, hres, hmax, -⟩ := HeapState.booted_small
  have htexts : texts (ascii "mem alloc 0x100001")
      = [ascii "mem", ascii "alloc", ascii "0x100001"] := by decide
  have hcount : atoi (ascii "0x100001" ++ [0]) = .ret (2 ^ 20 + 1) := by
    decide
  have hfree : HeapState.FreeFrom ⟨m, []⟩ 12 := by
    refine ⟨18, by decide, by simp only [hmax]; decide, ?_⟩
    have hhead := hi.head
    rw [hres] at hhead
    rw [hhead]
    exact Nat.ne_of_gt hi.zone_pos
  refine ⟨m, hboot, hi, htexts, hcount, ?_, ?_⟩
  · have hle : hi.zone.minOrder ≤ 12 := Nat.le_of_eq hmin
    rcases hi.good.alloc_of_freeFrom hle hfree (hi.zone.maxOrder + 13) with
      ⟨-, hlate⟩ | ⟨r, hret⟩
    · omega
    · have hord := isOrder_page hmin (Nat.le_add_left 13 hi.zone.maxOrder)
      have halloc := Mem.kheapAlloc_of_order hi.unlocked hord 0
      rw [hret] at halloc
      exact ⟨_, _, halloc⟩
  · have hrun := @runLine_lineRun
      (sampleShell (ascii "mem alloc 0x100001")) (Vector.replicate _ 0) 4 19
      (ascii "mem alloc 0x100001") (registered_builtins rfl)
      (sampleShell_hasLine _) (by decide) (by decide) (by decide)
      (by decide) (by decide)
    rw [HeapState.run_countMet_iff hi Run.nil
      (hrun.alloc_log htexts hcount (by decide))]
    -- the count is above 2^19, and a block for the one page is free
    rintro (hle | ⟨order, ho, -, hnone, -⟩)
    · exact absurd hle (by decide)
    · have hsize : u32 ((2 ^ 20 + 1) * PAGESIZE) = 4096 := by decide
      rw [hsize] at ho
      obtain rfl := ho.spec.2.2 m.kheap 13 12 rfl
        (isOrder_page hmin (le_refl 13))
      exact hnone hfree

end Shell

end Ntibux
