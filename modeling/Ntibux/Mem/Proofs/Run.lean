/-
The kernel heap over whole runs.

`Good s h` ties a state to the list machine's: memory spells its lists,
the invariant holds of the lists and the live blocks, no two buddies are
both free, the lock is free. It holds at the start (`Initial.good`),
every step keeps it in step with the list machine (`Good.step`), so it
holds along every run (`run_good`); the results at the end read it off.
-/
import Ntibux.Mem.Run
import Ntibux.Mem.Proofs.Refine

namespace Ntibux

namespace HeapState

open Buddy (Zone Heap Inv NoPair Full)

variable {z : Zone} {h h' : Heap z} {s s₀ s' : HeapState} {e : Event}
  {tr : List (HeapState × Event)} {m' : Mem} {b : Block}
  {fuel size order flags out : Nat}

-- ========================================================= the invariant

/-- The state holds the list machine's heap, and all is well there. -/
structure Good (s : HeapState) (h : Heap z) : Prop where
  sim : Mem.Sim z z.maxOrder s.mem h
  inv : Inv h s.live
  noPair : NoPair h
  unlocked : s.mem.kheap.locked = false
  frames_le : s.mem.frames.nframes ≤ 2 ^ 20

namespace Good

theorem reserve_eq (hg : Good s h) : s.reserve = h.reserve := by
  unfold reserve Heap.reserve
  rw [hg.sim.freeZone, hg.sim.reserveOrder]

/-- The links in memory meet the free blocks and nothing else. -/
theorem free_iff (hg : Good s h) : s.Free b ↔ h.Free b := by
  have hs := hg.sim
  constructor
  · intro hand
    obtain ⟨hmin, hmax, l, hc, hb⟩ := hand
    rw [hs.minOrder] at hmin
    rw [hs.maxOrder] at hmax
    rw [hc.unique (hs.chain b.order hmin hmax)] at hb
    exact hb
  · intro hb
    have hok := hg.inv.free_ok b hb
    have hmax : b.order ≤ z.maxOrder := Nat.le_trans hok.order_le h.le_max
    refine ⟨?_, ?_, h.free b.order, hs.chain _ hok.min_le hmax, hb⟩
    · rw [hs.minOrder]
      exact hok.min_le
    · rw [hs.maxOrder]
      exact hmax

/-- The list of the reserve order is empty when its head is null. -/
theorem top_head (hg : Good s h) :
    s.mem.kheap.head s.mem.kheap.reserveOrder ≠ 0
      ↔ h.free h.reserveOrder ≠ [] := by
  rw [hg.sim.reserveOrder]
  exact not_congr (hg.sim.head_eq_zero_iff h.min_le h.le_max)

theorem complete_iff (hg : Good s h) : Complete s ↔ Full h s.live := by
  unfold Complete Full Buddy.Covered
  simp only [hg.reserve_eq, hg.free_iff]

end Good

/-- The initial state is good. -/
theorem Initial.good (hi : Initial s) : Good s hi.heap := by
  -- the reserve is the one block
  have hfree : ∀ b : Block, hi.heap.Free b ↔ b = hi.heap.reserve := by
    intro b
    obtain ⟨a, k⟩ := b
    show a ∈ (if k = s.mem.kheap.reserveOrder
      then [s.mem.kheap.freeZone] else []) ↔ _
    unfold Heap.reserve
    by_cases hk : k = s.mem.kheap.reserveOrder
    · rw [if_pos hk, List.mem_singleton, Block.mk.injEq]
      exact ⟨fun ha => ⟨ha, hk⟩, fun ha => ha.1⟩
    · rw [if_neg hk, Block.mk.injEq]
      exact ⟨fun ha => absurd ha List.not_mem_nil, fun ha => absurd ha.2 hk⟩
  constructor
  · refine ⟨hi.page_le, rfl, rfl, rfl, rfl, fun k hmin hmax => ?_,
      fun k hmin hmax => ?_⟩
    · refine ⟨hmin, ?_⟩
      have horders := hi.orders
      have hmax' : k ≤ s.mem.kheap.maxOrder := hmax
      omega
    · show Chain s.mem.load (s.mem.kheap.head k)
        (if k = s.mem.kheap.reserveOrder then [s.mem.kheap.freeZone]
          else [])
      by_cases hk : k = s.mem.kheap.reserveOrder
      · rw [if_pos hk, hk, hi.head]
        exact ⟨rfl, Nat.ne_of_gt hi.zone_pos, hi.link⟩
      · rw [if_neg hk]
        exact hi.others k hmin hmax hk
  · rw [hi.live]
    refine ⟨by simp, fun b hb => ?_, List.Pairwise.nil, by simp, ?_, ?_⟩
    · rw [(hfree b).mp hb]
      exact ⟨hi.min_le, hi.heap.reserve_aligned, Nat.le_refl _,
        Nat.le_refl _⟩
    · intro b c hb hc hne
      exact absurd (((hfree b).mp hb).trans ((hfree c).mp hc).symm) hne
    · intro k
      show (if k = s.mem.kheap.reserveOrder then [s.mem.kheap.freeZone]
        else []).Nodup
      split <;> simp
  · intro k hk a ha
    have hf := (hfree ⟨a, k⟩).mp ha
    have hke : k = hi.heap.reserveOrder := (Block.mk.inj hf).2
    omega
  · exact hi.unlocked
  · exact hi.frames_le

-- ============================================================== one step

/-- An `alloc` that returns. -/
theorem Good.alloc (hg : Good s h)
    (ho : Mem.IsOrder s.mem.kheap size order)
    (hmax : order ≤ s.mem.kheap.maxOrder)
    (hr : Mem.kheapAlloc fuel size flags s.mem = .ret (out, m')) :
    ∃ n h', h.alloc n order = some (out, h')
      ∧ Good ⟨m', ⟨out, order⟩ :: s.live⟩ h'
      ∧ Mem.Kept s.live (s.mem.setLock false) m'
      ∧ (flags &&& ALLOC_ZEROED ≠ 0 →
        ∀ x, out ≤ x → x < out + size → m'.bytes x = 0) := by
  have hmin : z.minOrder ≤ order := by
    rw [← hg.sim.minOrder]
    exact ho.spec.1
  rw [hg.sim.maxOrder] at hmax
  obtain ⟨n, h', ha, hs', hkept, hz⟩ :=
    Mem.kheapAlloc_sim hg.sim hg.inv ho hmax hr
  exact ⟨n, h', ha, ⟨hs', (Buddy.alloc_grows hg.inv hmin ha).inv,
    Buddy.alloc_noPair hg.inv hg.noPair hmin ha, hkept.locked,
    hkept.nframes.trans_le hg.frames_le⟩, hkept, hz⟩

/-- A block given back leaves the others in hand. -/
theorem Good.inv_cons (hg : Good s h) (hb : b ∈ s.live) :
    Inv h (b :: s.live.erase b) :=
  hg.inv.perm (List.perm_cons_erase hb)

/-- A `free` of a live block that returns. -/
theorem Good.free (hg : Good s h) (hb : b ∈ s.live)
    (ho : Mem.IsOrder s.mem.kheap size b.order)
    (hr : Mem.kheapFree fuel b.addr size s.mem = .ret m') :
    ∃ h', h.release fuel b.addr b.order = some h'
      ∧ Good ⟨m', s.live.erase b⟩ h'
      ∧ Mem.Kept (s.live.erase b) (s.mem.setLock false) m' := by
  obtain ⟨h', hf, hs', hkept⟩ :=
    Mem.kheapFree_sim hg.sim (hg.inv_cons hb) ho hr
  have hrel := Buddy.release_spec (hg.inv_cons hb) hf
  exact ⟨h', hf, ⟨hs', hrel.inv, hrel.noPair hg.noPair, hkept.locked,
    hkept.nframes.trans_le hg.frames_le⟩, hkept⟩

/-- A client's write. -/
theorem Good.write {addr : Nat} (hg : Good s h) (hb : b ∈ s.live)
    (hx : b.Has addr) (v : UInt8) :
    Good ⟨{ s.mem with bytes := Function.update s.mem.bytes addr v },
      s.live⟩ h := by
  refine ⟨hg.sim.write hg.inv fun x hne => ⟨b, hb, ?_⟩, hg.inv, hg.noPair,
    hg.unlocked, hg.frames_le⟩
  by_cases hxa : x = addr
  · rw [hxa]
    exact hx
  · exact absurd (Function.update_of_ne hxa v s.mem.bytes).symm hne

/-- The rest of the kernel. -/
theorem Good.outside (hg : Good s h) (hk : m'.kheap = s.mem.kheap)
    (hn : m'.frames.nframes = s.mem.frames.nframes)
    (hb : ∀ x, s.reserve.Has x → m'.bytes x = s.mem.bytes x) :
    Good ⟨m', s.live⟩ h := by
  refine ⟨hg.sim.congr hk fun b hf => ?_, hg.inv, hg.noPair,
    (congrArg Kheap.locked hk).trans hg.unlocked, hn.trans_le hg.frames_le⟩
  have hok := hg.inv.free_ok b hf
  have hfin := Mem.four_le_fin (Nat.le_trans z.two_le_min hok.min_le)
  refine Bytes.read32_congr fun x h1 h2 => hb x ?_
  rw [hg.reserve_eq]
  exact hok.within.has ⟨h1, Nat.lt_of_lt_of_le h2 hfin⟩

/-- Every step is a step of the list machine. -/
theorem Good.step (hg : Good s h) (hs : Step s e s') :
    ∃ h', Heap.Step h e h' ∧ Good s' h' := by
  cases hs with
  | alloc ho hmax hr =>
      obtain ⟨n, h', ha, hg', -, -⟩ := hg.alloc ho hmax hr
      exact ⟨h', .alloc ha, hg'⟩
  | free hb ho hr =>
      obtain ⟨h', hf, hg', -⟩ := hg.free hb ho hr
      exact ⟨h', .free hf, hg'⟩
  | write hb hx => exact ⟨h, .write, hg.write hb hx _⟩
  | outside hk hn hb => exact ⟨h, .outside, hg.outside hk hn hb⟩

/-- A step loses memory exactly when it drops a block. -/
theorem Good.step_complete (hg : Good s h) (hs : Step s e s') :
    Complete s' ↔ Complete s ∧ ¬ Drops s e := by
  cases hs with
  | @alloc fuel size order flags out m' ho hmax hr =>
      obtain ⟨n, h', ha, hg', -, -⟩ := hg.alloc ho hmax hr
      have hmin : z.minOrder ≤ order := by
        rw [← hg.sim.minOrder]
        exact ho.spec.1
      have hgrow := Buddy.alloc_grows hg.inv hmin ha
      rw [hg'.complete_iff, hgrow.full_iff, hg.complete_iff]
      refine and_congr_right fun _ => ?_
      simp only [Buddy.alloc_dropped_iff hg.inv ha]
      unfold Drops
      rw [hg.top_head, hg.sim.reserveOrder]
      constructor
      · exact fun hno hd => hno z.base ⟨hd, h.reserve.has_addr⟩
      · exact fun hno x hd => hno hd.1
  | free hb ho hr =>
      obtain ⟨h', hf, hg', -⟩ := hg.free hb ho hr
      have hrel := Buddy.release_spec (hg.inv_cons hb) hf
      rw [hg'.complete_iff, hg.complete_iff]
      unfold Full Heap.reserve
      simp only [hrel.covered, hrel.reserve_eq, Drops, not_false_eq_true,
        and_true]
      refine forall_congr' fun x => imp_congr_right fun _ => ?_
      exact Buddy.covered_perm (List.perm_cons_erase hb).symm
  | write hb hx =>
      rw [(hg.write hb hx _).complete_iff, hg.complete_iff]
      simp [Drops]
  | outside hk hn hb =>
      rw [(hg.outside hk hn hb).complete_iff, hg.complete_iff]
      simp [Drops]

-- ============================================================ whole runs

/-- Every run is a run of the list machine. -/
theorem run_good (hi : Initial s₀) (hr : Run s₀ tr s) :
    ∃ h : Heap hi.zone,
      Heap.Run hi.heap (tr.map Prod.snd) h ∧ Good s h := by
  induction hr with
  | nil => exact ⟨hi.heap, .nil, hi.good⟩
  | snoc hr hs ih =>
      obtain ⟨h, hrun, hg⟩ := ih
      obtain ⟨h', hstep, hg'⟩ := hg.step hs
      refine ⟨h', ?_, hg'⟩
      rw [List.map_append]
      exact .snoc hrun hstep

/-- The list machine's state after some events is determined. -/
theorem heapRun_unique {es : List Event} {h₀ : Heap z}
    (hr : Heap.Run h₀ es h) (hr' : Heap.Run h₀ es h') : h = h' := by
  induction hr generalizing h' with
  | nil =>
      generalize hes : ([] : List Event) = es' at hr'
      cases hr' with
      | nil => rfl
      | snoc => simp at hes
  | @snoc es h₁ h₂ e hr hs ih =>
      generalize hes : es ++ [e] = es' at hr'
      cases hr' with
      | nil => simp at hes
      | snoc hr' hs' =>
          obtain ⟨rfl, he⟩ := List.append_inj' hes rfl
          obtain rfl := List.singleton_injective he
          obtain rfl := ih hr'
          cases hs with
          | alloc ha =>
              cases hs' with
              | alloc ha' =>
                  exact (Prod.mk.inj (Buddy.alloc_unique ha ha')).2
          | free hf =>
              cases hs' with
              | free hf' => exact Buddy.release_unique hf hf'
          | write =>
              cases hs'
              rfl
          | outside =>
              cases hs'
              rfl

end HeapState

end Ntibux
