/-
What growth comes to, decided from the state before it.

Mapping `q` pages from `b` on, under the heap's lock, does one of three
things, and which one depends only on the directory and on how many
frames are left (`Maps`):

- it meets a directory entry without a table while frames last, calls
  `kheap::alloc` for one and waits for its own lock (`Blocked`);
- it runs out of frames and panics;
- it maps all of them (`Fits`).

`Maps.bind` puts two stretches together, so the account of one page
gives that of `map_range`, of `double_reserve`, of the growth loop and
of `buddy_alloc` in turn. The fuel enters only through `late`, what has
to be true for a run to be cut short.
-/
import Ntibux.Mem.Proofs.Frames
import Ntibux.Mem.Proofs.Refine

namespace Ntibux

/-- An allocator call under the lock ends in the wait for it. -/
def Kalloc.SpinsLocked (kalloc : Kalloc) : Prop :=
  ∀ size flags m, m.kheap.locked = true → kalloc size flags m = .spin

theorem Kalloc.SpinsLocked.stops {kalloc : Kalloc}
    (hk : kalloc.SpinsLocked) : kalloc.StopsLocked := by
  intro size flags m r hl hr
  rw [hk size flags m hl] at hr
  cases hr

namespace Mem

open Buddy (Zone Heap Inv)

variable {z : Zone} {h h' : Heap z} {m m' m₁ : Mem} {used : List Block}
  {kalloc : Kalloc} {k a b q q₁ q₂ order fuel flags : Nat} {α β : Type}
  {late late₁ : Prop} {done : α → Prop} {done' : β → Prop}

theorem kheapAlloc_spinsLocked (fuel : Nat) :
    Kalloc.SpinsLocked (kheapAlloc (fuel + 1)) := fun _ _ _ hl => if_pos hl

-- ========================================================== what decides it

/-- The directory has no table for the page at `x`. -/
def Missing (m : Mem) (x : Nat) : Prop :=
  m.currentPd.tables (directoryIndex x) = 0

/-- One of `q` pages from `b` on has no table, and frames last until
there. -/
def Blocked (m : Mem) (b q : Nat) : Prop :=
  ∃ i < q, m.Missing (b + 4096 * i) ∧ i ≤ m.frames.avail

/-- All of `q` pages from `b` on can be mapped. -/
def Fits (m : Mem) (b q : Nat) : Prop :=
  ¬ m.Blocked b q ∧ q ≤ m.frames.avail

/-- The outcome of code that maps `q` pages from `b` on and does nothing
else that could fail. -/
inductive Maps (m : Mem) (b q : Nat) (late : Prop) (done : α → Prop) :
    Outcome α → Prop
  | ret {a : α} (hf : m.Fits b q) (hd : done a) :
      Maps m b q late done (.ret a)
  | panic (hb : ¬ m.Blocked b q) (hlt : m.frames.avail < q) :
      Maps m b q late done (.panic "no available frame found")
  | spin (hb : m.Blocked b q) : Maps m b q late done .spin
  | timeout (hl : late) : Maps m b q late done .timeout

/-- From `m` to `m'`, `q` frames went, and nothing else that decides the
next stretch. -/
structure Spent (m m' : Mem) (q : Nat) : Prop where
  currentPd : m'.currentPd = m.currentPd
  locked : m'.kheap.locked = m.kheap.locked
  nframes : m'.frames.nframes = m.frames.nframes
  avail : m'.frames.avail + q = m.frames.avail

theorem Spent.trans (h : Spent m m₁ q₁) (h' : Spent m₁ m' q₂) :
    Spent m m' (q₁ + q₂) := by
  have h1 := h.avail
  have h2 := h'.avail
  exact ⟨h'.currentPd.trans h.currentPd, h'.locked.trans h.locked,
    h'.nframes.trans h.nframes, by omega⟩

theorem fits_zero (m : Mem) (b : Nat) : m.Fits b 0 := by
  refine ⟨?_, Nat.zero_le _⟩
  intro hex
  obtain ⟨i, hi, -⟩ := hex
  omega

/-- After a first stretch that went well, the rest is blocked exactly
when the whole is. -/
theorem blocked_add (q₂ : Nat) (hs : Spent m m₁ q₁) (hb : ¬ m.Blocked b q₁) :
    m.Blocked b (q₁ + q₂) ↔ m₁.Blocked (b + 4096 * q₁) q₂ := by
  have hmiss : ∀ x, m₁.Missing x ↔ m.Missing x := by
    intro x
    unfold Missing
    rw [hs.currentPd]
  have havail := hs.avail
  constructor
  · intro hex
    obtain ⟨i, hi, hm, hle⟩ := hex
    have hge : q₁ ≤ i := by
      by_contra hlt
      exact hb ⟨i, by omega, hm, hle⟩
    refine ⟨i - q₁, by omega, ?_, by omega⟩
    rw [hmiss]
    have hx : b + 4096 * q₁ + 4096 * (i - q₁) = b + 4096 * i := by omega
    rw [hx]
    exact hm
  · intro hex
    obtain ⟨i, hi, hm, hle⟩ := hex
    refine ⟨q₁ + i, by omega, ?_, by omega⟩
    rw [hmiss] at hm
    have hx : b + 4096 * (q₁ + i) = b + 4096 * q₁ + 4096 * i := by omega
    rw [hx]
    exact hm

/-- Two stretches one after the other. -/
theorem Maps.bind {x : Outcome α} {f : α → Outcome β} (g : α → Mem)
    (late₂ : α → Prop) (hx : Maps m b q₁ late₁ done x)
    (hs : ∀ a, done a → Spent m (g a) q₁)
    (hf : ∀ a, x = .ret a → m.Fits b q₁ → done a →
      Maps (g a) (b + 4096 * q₁) q₂ (late₂ a) done' (f a))
    (hl₁ : late₁ → late)
    (hl₂ : ∀ a, m.Fits b q₁ → done a → late₂ a → late) :
    Maps m b (q₁ + q₂) late done' (x >>= f) := by
  cases hx with
  | @ret a hfit hd =>
      have hsp := hs a hd
      have havail := hsp.avail
      have hadd := blocked_add q₂ hsp hfit.1
      have hrest := hf a rfl hfit hd
      have hl := hl₂ a hfit hd
      rw [Outcome.ret_bind]
      generalize f a = y at hrest ⊢
      cases hrest with
      | ret hfit₂ hd₂ =>
          have hle := hfit₂.2
          exact .ret ⟨fun hb => hfit₂.1 (hadd.mp hb), by omega⟩ hd₂
      | panic hb hlt =>
          exact .panic (fun hb' => hb (hadd.mp hb')) (by omega)
      | spin hb => exact .spin (hadd.mpr hb)
      | timeout hlate => exact .timeout (hl hlate)
  | panic hb hlt =>
      refine .panic ?_ (by omega)
      intro hex
      obtain ⟨i, -, hm, hle⟩ := hex
      exact hb ⟨i, by omega, hm, hle⟩
  | spin hb =>
      obtain ⟨i, hi, hm, hle⟩ := hb
      exact .spin ⟨i, by omega, hm, hle⟩
  | timeout hlate => exact .timeout (hl₁ hlate)

/-- A stretch followed by code that returns. -/
theorem Maps.andThen {x : Outcome α} {f : α → Outcome β}
    (hx : Maps m b q late done x)
    (hf : ∀ a, x = .ret a → done a → ∃ c, f a = .ret c ∧ done' c) :
    Maps m b q late done' (x >>= f) := by
  cases hx with
  | @ret a hfit hd =>
      obtain ⟨c, hc, hd'⟩ := hf a rfl hd
      rw [Outcome.ret_bind, hc]
      exact .ret hfit hd'
  | panic hb hlt => exact .panic hb hlt
  | spin hb => exact .spin hb
  | timeout hl => exact .timeout hl

/-- Less said about what is returned. -/
theorem Maps.imp {done₁ : α → Prop} {x : Outcome α}
    (hx : Maps m b q late done x) (hd : ∀ a, done a → done₁ a) :
    Maps m b q late done₁ x := by
  cases hx with
  | ret hfit h => exact .ret hfit (hd _ h)
  | panic hb hlt => exact .panic hb hlt
  | spin hb => exact .spin hb
  | timeout hl => exact .timeout hl

/-- A longer time limit is one too. -/
theorem Maps.mono {x : Outcome α} (hx : Maps m b q late₁ done x)
    (hl : late₁ → late) : Maps m b q late done x := by
  cases hx with
  | ret hfit hd => exact .ret hfit hd
  | panic hb hlt => exact .panic hb hlt
  | spin hb => exact .spin hb
  | timeout h => exact .timeout (hl h)

-- =============================================================== map_range

/-- Under the lock, `get_page` without a table waits for the lock. -/
theorem getPage_missing (hk : kalloc.SpinsLocked)
    (hl : m.kheap.locked = true) (hm : m.Missing a) :
    m.getPage kalloc a = .spin := by
  unfold Missing at hm
  simp only [getPage, if_pos hm]
  split
  · rw [hk _ _ _ hl]
    rfl
  · unfold unpagedAlloc
    rw [if_pos hl]
    rfl

theorem getPage_present (hm : ¬ m.Missing a) :
    m.getPage kalloc a = .ret
      ((m.currentPd.tables (directoryIndex a), tableIndex a), m) := by
  unfold Missing at hm
  simp only [getPage, if_neg hm]

/-- One page. -/
theorem map_maps (hk : kalloc.SpinsLocked) (hl : m.kheap.locked = true)
    (hn : m.frames.nframes ≤ 2 ^ 20) (ha : 4096 ∣ a) (halt : a < 2 ^ 32) :
    Maps m a 1 False
      (fun r : Nat × Mem => r.1 = 1 ∧ r.2.kheap = m.kheap ∧ Spent m r.2 1)
      (m.map kalloc a flags) := by
  simp only [map, pageMask_of_dvd ha halt]
  by_cases hm : m.Missing a
  · rw [getPage_missing hk hl hm, Outcome.spin_bind]
    exact .spin ⟨0, by omega, hm, Nat.zero_le _⟩
  · have hnb : ¬ m.Blocked a 1 := by
      intro hex
      obtain ⟨i, hi, hmi, -⟩ := hex
      obtain rfl : i = 0 := by omega
      exact hm hmi
    rw [getPage_present hm, Outcome.ret_bind]
    rcases allocFrame_outcome
        (m.currentPd.tables (directoryIndex a), tableIndex a) flags hn with
      ⟨h0, hf⟩ | ⟨h0, m', hf, hc, havail⟩
    · rw [hf]
      exact .panic hnb (by omega)
    · rw [hf, Outcome.ret_bind]
      refine .ret ⟨hnb, by omega⟩ ⟨rfl, ?_, ?_, ?_, ?_, ?_⟩
      all_goals simp only [if_neg (show (1 : Nat) ≠ 0 by omega), mmu_kheap,
        mmu_currentPd, mmu_frames]
      · exact hc.kheap
      · exact hc.currentPd
      · rw [hc.kheap]
      · exact hc.nframes
      · exact havail

/-- The loop of `map_range`, from the `i`-th byte, `q` pages before its
end. -/
theorem mapRangeLoop_maps {i : Nat} (fuel flags : Nat)
    (hk : kalloc.SpinsLocked) (hl : m.kheap.locked = true)
    (hn : m.frames.nframes ≤ 2 ^ 20)
    (ha : 4096 ∣ a) (hi : 4096 ∣ i) (hpos : 0 < a)
    (hend : a + (i + 4096 * q) ≤ 2 ^ 32) :
    Maps m (a + i) q (fuel ≤ q)
      (fun m' => m'.kheap = m.kheap ∧ Spent m m' q)
      (mapRangeLoop kalloc a (i + 4096 * q) flags fuel i m) := by
  induction fuel generalizing i q m with
  | zero => exact .timeout (Nat.zero_le _)
  | succ fuel ih =>
      unfold mapRangeLoop
      cases q with
      | zero =>
          rw [if_neg (by omega)]
          exact .ret (fits_zero m _) ⟨rfl, rfl, rfl, rfl, rfl⟩
      | succ q =>
          rw [if_pos (by omega), u32_of_lt (by omega), Nat.add_comm q 1]
          refine Maps.bind (fun r => r.2) (fun _ => fuel ≤ q)
            (map_maps hk hl hn (Nat.dvd_add ha hi) (by omega))
            (fun r hr => hr.2.2) ?_ False.elim (fun _ _ _ hle => by omega)
          intro p _ _ hp
          obtain ⟨r, m₁⟩ := p
          obtain ⟨rfl, hkh, hsp⟩ := hp
          have hrange : i + 4096 * (1 + q) = i + 4096 + 4096 * q := by omega
          have hbase : a + i + 4096 * 1 = a + (i + 4096) := by omega
          simp only [if_neg (show (1 : Nat) ≠ 0 by omega), PAGESIZE]
          rw [u32_of_lt (by omega), hrange, hbase]
          have hrec := ih (m := m₁) (i := i + 4096) (q := q)
            (hsp.locked.trans hl)
            (hsp.nframes.trans_le hn) (Nat.dvd_add hi (Nat.dvd_refl _))
            (by omega)
          exact hrec.imp fun m' hd => ⟨hd.1.trans hkh, hsp.trans hd.2⟩

/-- `map_range` of `q` pages. -/
theorem mapRange_maps (fuel flags : Nat) (hk : kalloc.SpinsLocked)
    (hl : m.kheap.locked = true) (hn : m.frames.nframes ≤ 2 ^ 20)
    (ha : 4096 ∣ a) (hpos : 0 < a) (halt : a < 2 ^ 32)
    (hend : a + 4096 * q ≤ 2 ^ 32) :
    Maps m a q (fuel ≤ q)
      (fun r : Nat × Mem => r.2.kheap = m.kheap ∧ Spent m r.2 q)
      (m.mapRange kalloc fuel a (4096 * q) flags) := by
  unfold mapRange
  rw [pageMask_of_dvd ha halt]
  have hloop := mapRangeLoop_maps (i := 0) (q := q) fuel flags hk hl hn ha
    (Nat.dvd_zero _) hpos (by omega)
  rw [Nat.zero_add, Nat.add_zero] at hloop
  exact hloop.andThen fun m' _ hd => ⟨(1, m'), rfl, hd⟩

-- ========================================================= double_reserve

/-- The pages between a reserve of order `r` and one of order `t`. -/
def pagesTo (r t : Nat) : Nat := 2 ^ (t - 12) - 2 ^ (r - 12)

theorem four_kib (hr : 12 ≤ k) : 2 ^ k = 4096 * 2 ^ (k - 12) := by
  have hsum : k = 12 + (k - 12) := by omega
  calc 2 ^ k = 2 ^ (12 + (k - 12)) := by rw [← hsum]
    _ = 4096 * 2 ^ (k - 12) := by rw [pow_add]; rfl

theorem pagesTo_self (r : Nat) : pagesTo r r = 0 := Nat.sub_self _

/-- The pages of one doubling and of the rest. -/
theorem pagesTo_step {r t : Nat} (hr : 12 ≤ r) (hlt : r < t) :
    pagesTo r t = 2 ^ (r - 12) + pagesTo (r + 1) t := by
  unfold pagesTo
  have hsucc : 2 ^ (r + 1 - 12) = 2 ^ (r - 12) * 2 := by
    rw [show r + 1 - 12 = r - 12 + 1 by omega, pow_succ]
  have hle : 2 ^ (r + 1 - 12) ≤ 2 ^ (t - 12) :=
    Nat.pow_le_pow_right (by omega) (by omega)
  omega

/-- `double_reserve` below the largest order maps the new half. -/
theorem doubleReserve_maps (fuel : Nat) (hk : kalloc.SpinsLocked)
    (hl : m.kheap.locked = true) (hs : Sim z z.maxOrder m h)
    (hn : m.frames.nframes ≤ 2 ^ 20) (hlt : h.reserveOrder < z.maxOrder) :
    Maps m (z.base + 2 ^ h.reserveOrder) (2 ^ (h.reserveOrder - 12))
      (fuel ≤ 2 ^ (h.reserveOrder - 12))
      (fun m' => Spent m m' (2 ^ (h.reserveOrder - 12)))
      (m.doubleReserve kalloc fuel) := by
  have hmin := h.min_le
  have hmax := z.max_lt
  have htop := z.top_le
  have hpos := Nat.two_pow_pos h.reserveOrder
  have hr12 : 12 ≤ h.reserveOrder := Nat.le_trans hs.page_le hmin
  have hpow : 2 ^ (h.reserveOrder + 1) ≤ 2 ^ z.maxOrder :=
    Nat.pow_le_pow_right (by omega) hlt
  have hb12 : 2 ^ 12 ∣ z.base :=
    Nat.dvd_trans (Nat.pow_dvd_pow 2 (by omega)) z.base_dvd
  have ha : 4096 ∣ z.base + 2 ^ h.reserveOrder :=
    Nat.dvd_add hb12 (Nat.pow_dvd_pow 2 hr12)
  rw [pow_succ] at hpow
  unfold doubleReserve
  rw [if_neg (by rw [hs.maxOrder, hs.reserveOrder]; omega)]
  have hmap := mapRange_maps (q := 2 ^ (h.reserveOrder - 12)) fuel
    MAP_KERNEL_DATA hk hl hn ha (by omega) (by omega)
    (by rw [← four_kib hr12]; omega)
  rw [← four_kib hr12] at hmap
  -- the second half of the new reserve is what is mapped
  have hargs : m.mapRange kalloc fuel
      (u32 (m.kheap.freeZone + shl1 m.kheap.reserveOrder))
      (shl1 m.kheap.reserveOrder) MAP_KERNEL_DATA
      = m.mapRange kalloc fuel (z.base + 2 ^ h.reserveOrder)
        (2 ^ h.reserveOrder) MAP_KERNEL_DATA := by
    rw [hs.reserveEnd hlt, hs.reserveOrder, shl1_of_lt (by omega)]
  rw [hargs]
  refine hmap.andThen ?_
  intro p _ hp
  obtain ⟨r, m₁⟩ := p
  obtain ⟨hkh, hsp⟩ := hp
  have htab : m₁.kheap.InTable m₁.kheap.reserveOrder := by
    simp only at hkh
    rw [hkh, hs.reserveOrder]
    exact hs.table _ hmin h.le_max
  have hget : m₁.kheap.getFreeBlock m₁.kheap.reserveOrder
      = .ret (m₁.kheap.head m₁.kheap.reserveOrder) := if_pos htab
  simp only [hget, Outcome.ret_bind, setFreeBlock_store htab]
  exact ⟨_, rfl, hsp.currentPd, hsp.locked, hsp.nframes, hsp.avail⟩

-- ======================================================== the growth loop

/-- The pages that `buddy_alloc(order)` maps when it has to grow. -/
def growthPages (z : Zone) (r order : Nat) : Nat :=
  pagesTo r (min (max order r + 1) z.maxOrder)

/-- The growth loop of a request at or above the reserve order. A
request of the largest order never gets out of it. -/
theorem reserveLoop_maps (fuel : Nat) (hk : kalloc.SpinsLocked)
    (hl : m.kheap.locked = true) (hs : Sim z z.maxOrder m h)
    (hi : Inv h used) (hn : m.frames.nframes ≤ 2 ^ 20)
    (hle : h.reserveOrder ≤ order) (hmax : order ≤ z.maxOrder) :
    Maps m (z.base + 2 ^ h.reserveOrder) (growthPages z h.reserveOrder order)
      (fuel ≤ 2 ^ 20 + (z.maxOrder - h.reserveOrder) + 1
        ∨ (order = z.maxOrder
          ∧ m.Fits (z.base + 2 ^ h.reserveOrder)
            (growthPages z h.reserveOrder order)))
      (fun _ => order < z.maxOrder) (reserveLoop kalloc order fuel m) := by
  induction fuel generalizing m h with
  | zero => exact .timeout (Or.inl (Nat.zero_le _))
  | succ fuel ih =>
      have hr12 : 12 ≤ h.reserveOrder := Nat.le_trans hs.page_le h.min_le
      have hmax32 := z.max_lt
      unfold reserveLoop
      rw [if_pos (by rw [hs.reserveOrder]; exact hle),
        if_neg (by rw [hs.maxOrder]; omega)]
      by_cases hlt : h.reserveOrder < z.maxOrder
      · -- one doubling, then the loop again
        have hstep : growthPages z h.reserveOrder order
            = 2 ^ (h.reserveOrder - 12) + pagesTo (h.reserveOrder + 1)
              (min (order + 1) z.maxOrder) := by
          unfold growthPages
          rw [Nat.max_eq_left hle]
          exact pagesTo_step hr12 (by omega)
        have hq : 2 ^ (h.reserveOrder - 12) ≤ 2 ^ 20 :=
          Nat.pow_le_pow_right (by omega) (by omega)
        have hdoubled : z.base + 2 ^ h.reserveOrder
            + 4096 * 2 ^ (h.reserveOrder - 12)
            = z.base + 2 ^ (h.reserveOrder + 1) := by
          rw [← four_kib hr12, pow_succ]
          omega
        rw [hstep]
        refine Maps.bind id (fun m₁ => fuel ≤ 2 ^ 20
              + (z.maxOrder - (h.reserveOrder + 1)) + 1
            ∨ (order = z.maxOrder
              ∧ m₁.Fits (z.base + 2 ^ (h.reserveOrder + 1))
                (pagesTo (h.reserveOrder + 1) (min (order + 1) z.maxOrder))))
          (doubleReserve_maps fuel hk hl hs hn hlt)
          (fun m₁ hsp => hsp) ?_ (fun hf => by omega) ?_
        · intro m₁ hd _ hsp
          rw [hdoubled]
          obtain ⟨hs₁, hkept⟩ := doubleReserve_sim hk.stops hl hs hi hd
          have hgrow : h.doubleReserve = h.grow hlt := dif_pos hlt
          rw [hgrow] at hs₁
          have hi₁ : Inv (h.grow hlt) used := hi.grow hlt
          by_cases hle₁ : h.reserveOrder + 1 ≤ order
          · have hrec := ih (hsp.locked.trans hl) hs₁ hi₁
              (hsp.nframes.trans_le hn) hle₁
            unfold growthPages at hrec
            rw [show (h.grow hlt).reserveOrder = h.reserveOrder + 1 from rfl,
              Nat.max_eq_left hle₁] at hrec
            exact hrec
          · -- that was the last one
            have heq : order = h.reserveOrder := by omega
            have hpages : pagesTo (h.reserveOrder + 1)
                (min (order + 1) z.maxOrder) = 0 := by
              rw [heq, Nat.min_eq_left (by omega)]
              exact pagesTo_self _
            rw [hpages]
            cases fuel with
            | zero => exact .timeout (Or.inl (Nat.zero_le _))
            | succ fuel =>
                unfold reserveLoop
                have hr₁ : m₁.kheap.reserveOrder = h.reserveOrder + 1 :=
                  hs₁.reserveOrder
                rw [if_neg (by omega)]
                exact .ret (fits_zero m₁ _) (by omega)
        · intro m₁ hfit hsp hor
          rcases hor with hf | ⟨ho, hfit₁⟩
          · exact Or.inl (by omega)
          · refine Or.inr ⟨ho, ?_⟩
            have havail := hsp.avail
            have h2 := hfit₁.2
            refine ⟨fun hbl => hfit₁.1 ?_, by omega⟩
            rw [← hdoubled]
            exact (blocked_add _ hsp hfit.1).mp hbl
      · -- the reserve is the whole zone: `double_reserve` does nothing
        have heq : h.reserveOrder = z.maxOrder :=
          Nat.le_antisymm h.le_max (Nat.not_lt.mp hlt)
        have horder : order = z.maxOrder := by omega
        have hdouble : m.doubleReserve kalloc fuel = .ret m := by
          unfold doubleReserve
          rw [if_pos (by rw [hs.maxOrder, hs.reserveOrder]; omega)]
        have hpages : growthPages z h.reserveOrder order = 0 := by
          unfold growthPages
          rw [horder, heq, Nat.max_self, Nat.min_eq_right (by omega)]
          exact pagesTo_self _
        rw [hdouble, Outcome.ret_bind]
        refine (ih hl hs hi hn hle).mono fun _ => Or.inr ⟨horder, ?_⟩
        rw [hpages]
        exact fits_zero m _

-- =========================================================== buddy_alloc

/-- Once the recursive call of `buddy_alloc` has returned, the split
returns too. -/
theorem buddyAlloc_push {out : Nat} (hk : kalloc.StopsLocked)
    (hl : m.kheap.locked = true) (hs : Sim z z.maxOrder m h)
    (hi : Inv h used) (hmin : z.minOrder ≤ order)
    (hmax : order + 1 ≤ z.maxOrder)
    (hr : buddyAlloc kalloc fuel (order + 1) m = .ret (out, m₁)) :
    ∃ c, (do
        let next ← m₁.kheap.getFreeBlock order
        let m ← (m₁.store (out ^^^ shl1 order) next).setFreeBlock order
          (out ^^^ shl1 order)
        Outcome.ret (out, m)) = .ret c := by
  obtain ⟨h₁, -, hs₁, -⟩ :=
    buddyAlloc_sim hk hl hs hi (Nat.le_succ_of_le hmin) hmax hr
  rw [hs₁.getFreeBlock hmin (by omega), Outcome.ret_bind,
    setFreeBlock_store (hs₁.table order hmin (by omega)), Outcome.ret_bind]
  exact ⟨_, rfl⟩

/-- With a block on a list from the request up, `buddy_alloc` finds it
and the reserve does not grow. -/
theorem buddyAlloc_of_free (fuel : Nat) (hk : kalloc.StopsLocked)
    (hl : m.kheap.locked = true) (hs : Sim z z.maxOrder m h)
    (hi : Inv h used) (hmin : z.minOrder ≤ order) (hok : order ≤ k)
    (hkr : k ≤ h.reserveOrder) (hfree : h.free k ≠ []) :
    (buddyAlloc kalloc fuel order m = .timeout ∧ fuel ≤ k - order + 1)
      ∨ ∃ r, buddyAlloc kalloc fuel order m = .ret r := by
  induction fuel generalizing order with
  | zero => exact Or.inl ⟨rfl, Nat.zero_le _⟩
  | succ fuel ih =>
      have hmax : order ≤ z.maxOrder :=
        Nat.le_trans hok (Nat.le_trans hkr h.le_max)
      simp only [buddyAlloc, hs.getFreeBlock hmin hmax, Outcome.ret_bind,
        hs.head_eq_zero_iff hmin hmax]
      cases hlist : h.free order with
      | cons x l =>
          obtain ⟨hx, hxne, -⟩ := hs.pop hmin hmax hlist
          rw [if_neg (List.cons_ne_nil _ _), Outcome.ret_bind,
            hs.getFreeBlock hmin hmax, Outcome.ret_bind, hx, if_pos hxne,
            hs.setFreeBlock hmin hmax, Outcome.ret_bind]
          exact Or.inr ⟨_, rfl⟩
      | nil =>
          have hne : order ≠ k := by
            intro heq
            subst heq
            exact hfree hlist
          rw [if_pos rfl]
          cases fuel with
          | zero => exact Or.inl ⟨rfl, by omega⟩
          | succ fuel =>
              -- the request is no larger than the reserve: nothing to grow for
              have hidle :
                  reserveLoop kalloc order (fuel + 1) m = .ret m := by
                unfold reserveLoop
                rw [if_neg (by rw [hs.reserveOrder]; omega)]
              rw [hidle, Outcome.ret_bind, hs.getFreeBlock hmin hmax,
                Outcome.ret_bind, (hs.head_eq_zero_iff hmin hmax).mpr hlist,
                if_neg (by simp)]
              rcases ih (Nat.le_succ_of_le hmin) (by omega) with
                ⟨ht, hle⟩ | ⟨⟨out, m₁⟩, hr⟩
              · rw [ht]
                exact Or.inl ⟨rfl, by omega⟩
              · right
                have hrmax := h.le_max
                obtain ⟨c, hc⟩ := buddyAlloc_push hk hl hs hi hmin
                  (by omega) hr
                rw [hr, Outcome.ret_bind]
                exact ⟨c, hc⟩

/-- With nothing free from the request up, `buddy_alloc` comes to what
growth comes to. It returns only where both the request and the reserve
are below the largest order. -/
theorem buddyAlloc_maps (fuel : Nat) (hk : kalloc.SpinsLocked)
    (hl : m.kheap.locked = true) (hs : Sim z z.maxOrder m h)
    (hi : Inv h used) (hn : m.frames.nframes ≤ 2 ^ 20)
    (hmin : z.minOrder ≤ order) (hmax : order ≤ z.maxOrder)
    (hnone : ∀ k, order ≤ k → h.free k = []) :
    Maps m (z.base + 2 ^ h.reserveOrder) (growthPages z h.reserveOrder order)
      (fuel ≤ 2 ^ 20 + (z.maxOrder - h.reserveOrder)
          + (z.maxOrder - order) + 2
        ∨ ((order = z.maxOrder ∨ h.reserveOrder = z.maxOrder)
          ∧ m.Fits (z.base + 2 ^ h.reserveOrder)
            (growthPages z h.reserveOrder order)))
      (fun _ => order < z.maxOrder ∧ h.reserveOrder < z.maxOrder)
      (buddyAlloc kalloc fuel order m) := by
  induction fuel generalizing order with
  | zero => exact .timeout (Or.inl (Nat.zero_le _))
  | succ fuel ih =>
      have hnil := hnone order (Nat.le_refl _)
      simp only [buddyAlloc, hs.getFreeBlock hmin hmax, Outcome.ret_bind,
        hs.head_eq_zero_iff hmin hmax, hnil, if_true]
      by_cases hle : h.reserveOrder ≤ order
      · -- the reserve grows past the request
        refine Maps.andThen
          (Maps.mono (reserveLoop_maps fuel hk hl hs hi hn hle hmax) ?_) ?_
        · intro hor
          rcases hor with hf | ⟨ho, hfit⟩
          · exact Or.inl (by omega)
          · exact Or.inr ⟨Or.inl ho, hfit⟩
        · intro m₁ hr hlt
          obtain ⟨h₁, hh₁, hs₁, -⟩ := reserveLoop_sim hk.stops hl hs hi hr
          obtain ⟨-, hne⟩ := Buddy.reserveLoop_reached hle hh₁
          obtain ⟨x, l, hlist⟩ := List.exists_cons_of_ne_nil hne
          obtain ⟨hx, hxne, -⟩ := hs₁.pop hmin hmax hlist
          rw [hs₁.getFreeBlock hmin hmax, Outcome.ret_bind, hx, if_pos hxne,
            hs₁.setFreeBlock hmin hmax, Outcome.ret_bind]
          exact ⟨_, rfl, hlt, by omega⟩
      · -- a larger block is split
        have hlt : order < h.reserveOrder := Nat.not_le.mp hle
        have hrmax := h.le_max
        cases fuel with
        | zero => exact .timeout (Or.inl (by omega))
        | succ fuel =>
            have hidle : reserveLoop kalloc order (fuel + 1) m = .ret m := by
              unfold reserveLoop
              rw [if_neg (by rw [hs.reserveOrder]; omega)]
            have hpages : growthPages z h.reserveOrder order
                = growthPages z h.reserveOrder (order + 1) := by
              unfold growthPages
              rw [Nat.max_eq_right (by omega), Nat.max_eq_right hlt]
            rw [hidle, Outcome.ret_bind, hs.getFreeBlock hmin hmax,
              Outcome.ret_bind, (hs.head_eq_zero_iff hmin hmax).mpr hnil,
              if_neg (by simp), hpages]
            refine Maps.andThen (Maps.mono (ih (Nat.le_succ_of_le hmin)
              (by omega) fun k hk => hnone k (by omega)) ?_) ?_
            · intro hor
              rcases hor with hf | ⟨ho, hfit⟩
              · exact Or.inl (by omega)
              · exact Or.inr ⟨Or.inr (by omega), hfit⟩
            · intro p hr hp
              obtain ⟨out, m₁⟩ := p
              obtain ⟨h1, h2⟩ := hp
              obtain ⟨c, hc⟩ := buddyAlloc_push hk.stops hl hs hi hmin
                (by omega) hr
              exact ⟨c, hc, by omega, h2⟩

end Mem

end Ntibux
