/-
Bring-up, stage by stage.

`mem::init` is two mapping calls before paging with bookkeeping around
them (`init_stages`).
-/
import Ntibux.Mem.Layout
import Ntibux.Mem.Proofs.Owners

namespace Ntibux

-- ============================================================= arithmetic

namespace Layout

variable {a b kend total : Nat}

theorem pageUp_dvd : 4096 ∣ pageUp a := Nat.dvd_mul_left _ _

theorem le_pageUp : a ≤ pageUp a ∧ pageUp a ≤ a + 0xfff := by
  unfold pageUp
  omega

/-- An address that is a page's own is not moved. -/
theorem pageUp_of_dvd (h : 4096 ∣ a) : pageUp a = a := by
  unfold pageUp
  omega

/-- Rounding up as the code does it. -/
theorem pageUp_eq (h : a + 0xfff < 2 ^ 32) :
    u32 (a + 0xfff) &&& 0xfffff000 = pageUp a := by
  rw [u32_of_lt h, and_pageMask]
  unfold pageUp
  omega

end Layout

namespace Mem

open Layout

variable {kalloc : Kalloc} {m m' m₀ m₁ : Mem} {ram : Bytes}
  {kend total highMem fuel order out size flags : Nat}

-- ========================================================== the heap's sizes

/-- The loop over the orders ends at the smallest power of two that is not
below the memory, and at a page at least. -/
theorem maxOrderLoop_eq (ht : total < 2 ^ 32) (h12 : 12 ≤ order)
    (ho : order ≤ max 12 (Nat.clog 2 total))
    (h : maxOrderLoop total fuel order = .ret out) :
    out = max 12 (Nat.clog 2 total) := by
  have hclog : ∀ {k}, Nat.clog 2 total ≤ k ↔ total ≤ 2 ^ k :=
    Nat.clog_le_iff_le_pow (by decide)
  have h32 : Nat.clog 2 total ≤ 32 := hclog.mpr (Nat.le_of_lt ht)
  induction fuel generalizing order with
  | zero => cases h
  | succ fuel ih =>
      unfold maxOrderLoop at h
      split at h
      · rename_i hlt
        have hpow := hlt.1
        rw [shl1_of_lt hlt.2] at hpow
        have hnot : ¬Nat.clog 2 total ≤ order := by
          rw [hclog]
          omega
        exact ih (by omega) (by omega) h
      · rename_i hge
        rw [← Outcome.ret.inj h]
        rcases Nat.lt_or_ge order 32 with hlt | hge32
        · have hpow : ¬2 ^ order < total := by
            intro hpow
            rw [shl1_of_lt hlt] at hge
            exact hge ⟨hpow, hlt⟩
          have hle : Nat.clog 2 total ≤ order := hclog.mpr (by omega)
          omega
        · omega

/-- The one over the sizes ends at 18, for the reserve that `mem::init` asks
for. -/
theorem reserveOrderLoop_eq (ho : order ≤ 18)
    (h : reserveOrderLoop (2 ^ 18) fuel order = .ret out) : out = 18 := by
  induction fuel generalizing order with
  | zero => cases h
  | succ fuel ih =>
      unfold reserveOrderLoop at h
      rw [shl1_of_lt (by omega)] at h
      split at h
      · rename_i hlt
        have hne : order ≠ 18 := by
          intro heq
          rw [heq] at hlt
          exact absurd hlt (Nat.lt_irrefl _)
        exact ih (by omega) h
      · rename_i hge
        cases h
        by_contra hne
        exact hge (Nat.pow_lt_pow_right (by decide) (by omega))

-- ============================================================== the stages

/-- The memory `[out, out + size)`, zeroed, is given away. -/
def handOut (out size : Nat) (m : Mem) : Mem :=
  { m with
    kheap := { m.kheap with freeZone := u32 (out + size) }
    bytes := m.bytes.fill out size 0 }

@[simp] theorem handOut_pagingEnabled :
    (m.handOut out size).pagingEnabled = m.pagingEnabled := rfl

@[simp] theorem handOut_kheap : (m.handOut out size).kheap
    = { m.kheap with freeZone := u32 (out + size) } := rfl

@[simp] theorem handOut_frames :
    (m.handOut out size).frames = m.frames := rfl

@[simp] theorem handOut_kernelPd :
    (m.handOut out size).kernelPd = m.kernelPd := rfl

@[simp] theorem handOut_currentPd :
    (m.handOut out size).currentPd = m.currentPd := rfl

@[simp] theorem handOut_pages :
    (m.handOut out size).pages = m.pages := rfl

/-- What is handed out before paging starts where the free zone does, to the
byte. -/
theorem unpagedAlloc_zeroed
    (h : m.unpagedAlloc size ALLOC_ZEROED = .ret (out, m')) :
    out = m.kheap.freeZone ∧ m' = m.handOut out size := by
  simp only [unpagedAlloc] at h
  split at h
  · cases h
  · obtain ⟨rfl, rfl⟩ := Prod.mk.inj (Outcome.ret.inj h)
    exact ⟨rfl, rfl⟩

/-- An aligned piece starts at the next page. -/
theorem unpagedAlloc_aligned (h : m.unpagedAlloc size
      (ALLOC_ALIGNED ||| ALLOC_ZEROED) = .ret (out, m')) :
    out = u32 (m.kheap.freeZone + 0xfff) &&& 0xfffff000
      ∧ m' = m.handOut out size := by
  simp only [unpagedAlloc] at h
  split at h
  · cases h
  · obtain ⟨rfl, rfl⟩ := Prod.mk.inj (Outcome.ret.inj h)
    exact ⟨rfl, rfl⟩

/-- What `mem::init` has done when it begins to map. -/
structure Prepared (kend total : Nat) (ram : Bytes) (m : Mem) : Prop where
  off : m.pagingEnabled = false
  unlocked : m.kheap.locked = false
  zeroed : ∀ d, m.currentPd.tables d = 0 ∧ m.currentPd.paddrs d = 0
  words : ∀ i, m.frames.words i = 0
  nframes : m.frames.nframes = total / PAGESIZE
  frames : m.frames.frames = u32 (kend + 0xfff) &&& 0xfffff000
  start : m.kheap.kheapStart = m.frames.frames
  kernelPd : m.kernelPd
    = u32 (u32 (m.frames.frames + u32 (bitmapSize total)) + 0xfff)
      &&& 0xfffff000
  freeZone : m.kheap.freeZone = u32 (m.kernelPd + sizeofPageDirectory)
  minOrder : m.kheap.minOrder = 12
  maxOrder : m.kheap.maxOrder = Layout.maxOrder total
  orders : m.kheap.orders = u32 (Layout.maxOrder total + 1 + (2 ^ 32 - 12))
  reserveOrder : m.kheap.reserveOrder = Layout.reserveOrder total
  bytes : ∀ x, m.bytes x = ram x
    ∨ m.frames.frames ≤ x ∧ x < m.frames.frames + u32 (bitmapSize total)
    ∨ m.kernelPd ≤ x ∧ x < m.kernelPd + sizeofPageDirectory

/-- The part of `mem::init` before the mapping. -/
def prepare (kend fuel highMem : Nat) (m : Mem) : Outcome Mem := do
  let m := { m with total := u32 (highMem <<< 10) }
  let m ← m.kheapInit kend fuel (PAGESIZE * 64)
  let m ← m.framesInit (m.total / PAGESIZE)
  let (pd, m) ←
    m.unpagedAlloc sizeofPageDirectory (ALLOC_ALIGNED ||| ALLOC_ZEROED)
  .ret { m with
    kernelPd := pd
    currentPd := { tables := fun _ => 0, paddrs := fun _ => 0 } }

/-- `free_blocks` is put at the end of what has been handed out. -/
def blocksPut (m : Mem) : Outcome Mem := do
  let (blocks, m) ← m.unpagedAlloc (u32 (4 * m.kheap.orders)) ALLOC_ZEROED
  let freeZone := u32 (m.kheap.freeZone + 0xfff) &&& 0xfffff000
  .ret { m with
    kheap := { m.kheap with
      freeBlocksAt := blocks, freeBlocks := fun _ => 0
      freeZone := freeZone } }

/-- The reserve becomes the heap's one free block. -/
def reservePut (newFreeZone : Nat) (m : Mem) : Outcome Mem := do
  let m := { m with kheap := { m.kheap with freeZone := newFreeZone } }
  let m ← m.setFreeBlock m.kheap.reserveOrder m.kheap.freeZone
  let first ← m.kheap.getFreeBlock m.kheap.reserveOrder
  .ret (m.store first 0)

/-- `mem::init` up to the directory: the frames, the bitmap and the kernel's
directory follow each other behind the kernel's image. -/
theorem prepare_prepared (ht : u32 (highMem <<< 10) = total)
    (h : (new ram).prepare kend fuel highMem = .ret m) :
    Prepared kend total ram m := by
  have ht32 : total < 2 ^ 32 := by
    rw [← ht]
    exact Nat.mod_lt _ (by decide)
  obtain ⟨m₁, h₁, h⟩ := Outcome.bind_eq_ret.mp h
  obtain ⟨m₂, h₂, h⟩ := Outcome.bind_eq_ret.mp h
  obtain ⟨⟨pd, m₃⟩, h₃, h⟩ := Outcome.bind_eq_ret.mp h
  cases h
  simp only [kheapInit, new, Bool.false_eq_true, if_false] at h₁
  obtain ⟨o, ho, h₁⟩ := Outcome.bind_eq_ret.mp h₁
  obtain ⟨r, hr, h₁⟩ := Outcome.bind_eq_ret.mp h₁
  rw [ht] at ho
  have ho' := maxOrderLoop_eq ht32 (Nat.le_refl _) (Nat.le_max_left _ _) ho
  have hr' := reserveOrderLoop_eq (Nat.zero_le _) hr
  subst ho' hr'
  cases h₁
  obtain ⟨⟨fr, m₄⟩, hfr, h₂⟩ := Outcome.bind_eq_ret.mp h₂
  cases h₂
  obtain ⟨rfl, rfl⟩ := unpagedAlloc_zeroed hfr
  obtain ⟨rfl, rfl⟩ := unpagedAlloc_aligned h₃
  refine ⟨rfl, rfl, fun _ => ⟨rfl, rfl⟩, fun _ => rfl, ?_, rfl, rfl, ?_, rfl,
    rfl, rfl, rfl, ?_, ?_⟩
  · show u32 (highMem <<< 10) / PAGESIZE = _
    rw [ht]
  · show u32 (u32 (_ + u32 (4 * Frames.index
      (u32 (highMem <<< 10) / PAGESIZE))) + 0xfff) &&& _ = _
    rw [ht]
    rfl
  · show (if max 12 (Nat.clog 2 total) - 3 < 18 then
      max 12 (Nat.clog 2 total) - 3 else 18)
        = min 18 (max 12 (Nat.clog 2 total) - 3)
    split <;> omega
  · -- a byte is as in RAM, or a zero of the bitmap or of the directory
    intro x
    rcases Bytes.fill_cases (ram.fill _ _ 0) _ _ 0 x with hpd | hpd
    · rcases Bytes.fill_cases ram _ _ 0 x with hbm | hbm
      · exact .inl (hpd.trans hbm)
      · refine .inr (.inl ?_)
        rw [ht] at hbm
        exact hbm
    · exact .inr (.inr hpd)

/-- Where `kheap::enable_paging` will put the heap. -/
def newFreeZone (m : Mem) : Nat :=
  u32 (m.kheap.freeZone + (shl1 m.kheap.maxOrder - 1))
    &&& not32 (shl1 m.kheap.maxOrder - 1)

/-- The heap set up on the reserve. -/
structure OnReserve (zone : Nat) (m m' : Mem) : Prop where
  inTable : m.kheap.InTable m.kheap.reserveOrder
  minOrder : m'.kheap.minOrder = m.kheap.minOrder
  maxOrder : m'.kheap.maxOrder = m.kheap.maxOrder
  orders : m'.kheap.orders = m.kheap.orders
  reserveOrder : m'.kheap.reserveOrder = m.kheap.reserveOrder
  freeZone : m'.kheap.freeZone = zone
  freeBlocksAt : m'.kheap.freeBlocksAt = m.kheap.freeBlocksAt
  freeBlocks : m'.kheap.freeBlocks = Function.update m.kheap.freeBlocks
    (m.kheap.reserveOrder - m.kheap.minOrder) zone
  frames : m'.frames = m.frames
  kernelPd : m'.kernelPd = m.kernelPd
  currentPd : m'.currentPd = m.currentPd
  pages : m'.pages = m.pages
  bytes : m'.bytes = m.bytes.write32 zone 0

/-- The first block is put on the list of the reserve's order, and the word
behind it is what was in memory there. -/
theorem reservePut_inv {zone : Nat} (h : m.reservePut zone = .ret m') :
    OnReserve zone m m' := by
  obtain ⟨m₁, hset, h⟩ := Outcome.bind_eq_ret.mp h
  obtain ⟨first, hget, h⟩ := Outcome.bind_eq_ret.mp h
  unfold setFreeBlock at hset
  split at hset
  case isFalse => cases hset
  case isTrue hin =>
    cases hset
    unfold Kheap.getFreeBlock at hget
    split at hget
    case isFalse => cases hget
    case isTrue =>
      have hfirst := Outcome.ret.inj hget
      simp only [Kheap.head, Kheap.setHead, Function.update_self] at hfirst
      subst hfirst
      cases h
      exact ⟨hin, rfl, rfl, rfl, rfl, rfl, rfl, rfl, rfl, rfl, rfl, rfl, rfl⟩

/-- The zone for the heap starts behind the table of the free blocks, at the
next multiple of the largest order. -/
theorem newFreeZone_eq (ho : m.kheap.maxOrder = Layout.maxOrder total)
    (ht : total < 2 ^ 32)
    (hz : m.kheap.freeZone = blocksAt kend total) :
    m.newFreeZone = zoneAt kend total := by
  have hclog : Nat.clog 2 total ≤ 32 :=
    (Nat.clog_le_iff_le_pow (by decide)).mpr (Nat.le_of_lt ht)
  have hle : Layout.maxOrder total < 32 := by
    unfold Layout.maxOrder
    omega
  unfold newFreeZone zoneAt
  rw [ho, hz, shl1_of_lt hle, and_not32_pred _ (Nat.le_of_lt hle)]
  unfold u32
  generalize blocksAt kend total + (2 ^ Layout.maxOrder total - 1) = a
  have hpow : 2 ^ 32 = 2 ^ Layout.maxOrder total
      * 2 ^ (32 - Layout.maxOrder total) := by
    rw [← Nat.pow_add, Nat.add_sub_cancel' (Nat.le_of_lt hle)]
  rw [hpow, Nat.mod_mul_right_div_self, Nat.mod_mod,
    Nat.mul_comm (2 ^ Layout.maxOrder total), Nat.mul_mod_mul_right]

/-- The call that maps the kernel image. -/
def imageCall (kend : Nat) : RangeCall := .mapAt 0 0 kend MAP_KERNEL_CODE

/-- The call that maps what has been handed out, and the spare page. -/
def usedCall (m : Mem) : RangeCall :=
  .mapAt m.kheap.kheapStart m.kheap.kheapStart
    (u32 (m.kheap.freeZone + (2 ^ 32 - m.kheap.kheapStart) + PAGESIZE))
    MAP_KERNEL_DATA

/-- The call that maps the reserve. -/
def reserveCall (zone : Nat) (m : Mem) : RangeCall :=
  .map zone (shl1 m.kheap.reserveOrder) MAP_KERNEL_DATA

/-- `mem::init`: three range calls with bookkeeping around them. -/
theorem init_stages (h : m₀.init kalloc kend fuel highMem = .ret m) :
    ∃ s₁ s₂ s₃ s₄ s₅ s₆, m₀.prepare kend fuel highMem = .ret s₁
      ∧ (imageCall kend).Does kalloc s₁ s₂
      ∧ s₂.blocksPut = .ret s₃
      ∧ s₃.usedCall.Does kalloc s₃ s₄
      ∧ (s₄.reserveCall s₂.newFreeZone).Does kalloc s₄ s₅
      ∧ s₅.reservePut s₂.newFreeZone = .ret s₆
      ∧ m = s₆.enablePaging := by
  obtain ⟨m₁, h₁, h⟩ := Outcome.bind_eq_ret.mp h
  obtain ⟨m₂, h₂, h⟩ := Outcome.bind_eq_ret.mp h
  obtain ⟨s₂, h₃, h⟩ := Outcome.bind_eq_ret.mp h
  obtain ⟨s₆, h₄, h⟩ := Outcome.bind_eq_ret.mp h
  obtain ⟨⟨pd, m₃⟩, hpd, h₃⟩ := Outcome.bind_eq_ret.mp h₃
  obtain ⟨⟨r₁, m₄⟩, hmap₁, h₃⟩ := Outcome.bind_eq_ret.mp h₃
  cases h₃
  obtain ⟨⟨b, m₅⟩, hb, h₄⟩ := Outcome.bind_eq_ret.mp h₄
  obtain ⟨⟨r₂, s₄⟩, hmap₂, h₄⟩ := Outcome.bind_eq_ret.mp h₄
  obtain ⟨⟨r₃, s₅⟩, hmap₃, h₄⟩ := Outcome.bind_eq_ret.mp h₄
  refine ⟨_, s₂, _, s₄, s₅, s₆, ?_, ⟨fuel, r₁, hmap₁⟩, ?_,
    ⟨fuel, r₂, hmap₂⟩, ⟨fuel, r₃, hmap₃⟩, h₄, ?_⟩
  · exact Outcome.bind_eq_ret.mpr ⟨m₁, h₁, Outcome.bind_eq_ret.mpr
      ⟨m₂, h₂, Outcome.bind_eq_ret.mpr ⟨(pd, m₃), hpd, rfl⟩⟩⟩
  · exact Outcome.bind_eq_ret.mpr ⟨(b, m₅), hb, rfl⟩
  · exact (Outcome.ret.inj h).symm

-- ======================================================== stages as a run

/-- Mapping before paging leaves the heap's sizes alone. -/
structure SameHeap (m m' : Mem) : Prop where
  off : m'.pagingEnabled = false
  kheap : m'.kheap = { m.kheap with freeZone := m'.kheap.freeZone }

theorem SameHeap.refl (hoff : m.pagingEnabled = false) : SameHeap m m :=
  ⟨hoff, rfl⟩

theorem SameHeap.trans (h : SameHeap m m₁) (h' : SameHeap m₁ m') :
    SameHeap m m' := by
  refine ⟨h'.off, ?_⟩
  rw [h'.kheap, h.kheap]

/-- A table that is made during bring-up is taken off the free zone, and the
lists of the heap stay. -/
theorem getPage_sameHeap {a : Nat} {p : PagePtr}
    (hoff : m.pagingEnabled = false)
    (h : m.getPage kalloc a = .ret (p, m')) : SameHeap m m' := by
  rcases getPage_cases h with ⟨-, rfl, -⟩ | ⟨-, pt, m₁, q, halloc, rfl, -⟩
  · exact SameHeap.refl hoff
  · unfold tableAlloc at halloc
    rw [if_neg (by simp [hoff])] at halloc
    obtain ⟨-, hm₁⟩ := unpagedAlloc_aligned halloc
    have hs : SameHeap m m₁ := by
      rw [hm₁]
      refine ⟨?_, ?_⟩
      · rw [handOut_pagingEnabled]
        exact hoff
      · rw [handOut_kheap]
    exact ⟨hs.off, hs.kheap⟩

/-- A claimed frame is no memory of the heap's. -/
theorem allocFrameAt_sameHeap {p : PagePtr} {frame res : Nat}
    (hoff : m.pagingEnabled = false)
    (h : m.allocFrameAt p frame flags = .ret (res, m')) :
    SameHeap m (m'.mmu out p) ∧ SameHeap m m' := by
  have hs : SameHeap m m' := by
    obtain ⟨-, ⟨-, -, rfl⟩ | ⟨-, -, rfl⟩⟩ := allocFrameAt_cases h
    · exact SameHeap.refl hoff
    · exact ⟨hoff, rfl⟩
  refine ⟨?_, hs⟩
  rw [mmu, if_neg (by simp [hs.off])]
  exact hs

/-- The two calls that bring-up maps with. -/
theorem does_sameHeap {c : PageCall} (hoff : m.pagingEnabled = false)
    (hc : ∀ v, c ≠ .unmap v) (h : c.Does kalloc m m') : SameHeap m m' := by
  cases c with
  | getPage v =>
      obtain ⟨p, h⟩ := h
      exact getPage_sameHeap hoff h
  | map v flags =>
      obtain ⟨res, h⟩ := h
      obtain ⟨⟨p, m₁⟩, hp, h₁⟩ := Outcome.bind_eq_ret.mp h
      obtain ⟨⟨r, m₂⟩, hf, h₂⟩ := Outcome.bind_eq_ret.mp h₁
      have hs := getPage_sameHeap hoff hp
      simp only [allocFrame] at hf
      split at hf
      · cases hf
      · obtain ⟨hmmu, hsame⟩ := @allocFrameAt_sameHeap _ _
          (v &&& 0xfffff000) _ _ _ _ hs.off hf
        obtain ⟨-, hm'⟩ := Prod.mk.inj (Outcome.ret.inj h₂)
        rw [← hm']
        split
        · exact hs.trans hsame
        · exact hs.trans hmmu
  | mapAt v a flags =>
      obtain ⟨res, h⟩ := h
      obtain ⟨⟨p, m₁⟩, hp, h₁⟩ := Outcome.bind_eq_ret.mp h
      obtain ⟨⟨r, m₂⟩, hf, h₂⟩ := Outcome.bind_eq_ret.mp h₁
      have hs := getPage_sameHeap hoff hp
      obtain ⟨hmmu, hsame⟩ := @allocFrameAt_sameHeap _ _
        (v &&& 0xfffff000) _ _ _ _ hs.off hf
      obtain ⟨-, hm'⟩ := Prod.mk.inj (Outcome.ret.inj h₂)
      rw [← hm']
      split
      · exact hs.trans hsame
      · exact hs.trans hmmu
  | unmap v => exact absurd rfl (hc v)

/-- So a range that is mapped during bring-up leaves the heap but for the
start of the free zone. -/
theorem range_sameHeap {r : RangeCall} (hoff : m.pagingEnabled = false)
    (hr : ∀ v range, r ≠ .unmap v range) (h : r.Does kalloc m m') :
    SameHeap m m' := by
  obtain ⟨n, hc, -⟩ := h.comes
  clear h
  induction hc with
  | start => exact SameHeap.refl hoff
  | @next n m₁ m₂ _ _ hd ih =>
      refine ih.trans (does_sameHeap ih.off ?_ hd)
      intro v
      cases r with
      | unmap v range => exact absurd rfl (hr v range)
      | _ => simp [RangeCall.turn]

-- ================================================== one page before paging

/-- `n` page tables more were handed out, and nothing else of what is
not mapping. -/
structure Grew (n : Nat) (m m' : Mem) : Prop where
  off : m'.pagingEnabled = false
  kheap : m'.kheap
    = { m.kheap with freeZone := m.kheap.freeZone + 4096 * n }
  frames : m'.frames.frames = m.frames.frames
  nframes : m'.frames.nframes = m.frames.nframes
  kernelPd : m'.kernelPd = m.kernelPd
  bytes : ∀ x, m'.bytes x = m.bytes x
    ∨ m.kheap.freeZone ≤ x ∧ x < m.kheap.freeZone + 4096 * n

/-- Each table moves the free zone by a page. -/
theorem Grew.freeZone {n : Nat} (h : Grew n m m') :
    m'.kheap.freeZone = m.kheap.freeZone + 4096 * n := by
  rw [h.kheap]

theorem Grew.refl (hoff : m.pagingEnabled = false) : Grew 0 m m :=
  ⟨hoff, rfl, rfl, rfl, rfl, fun _ => .inl rfl⟩

/-- The tables of two calls add up. -/
theorem Grew.trans {n n' : Nat} (h : Grew n m m₁) (h' : Grew n' m₁ m') :
    Grew (n + n') m m' := by
  have hz := h.freeZone
  refine ⟨h'.off, ?_, h'.frames.trans h.frames, h'.nframes.trans h.nframes,
    h'.kernelPd.trans h.kernelPd, ?_⟩
  · rw [h'.kheap, h.kheap, Kheap.mk.injEq]
    simp only [true_and, and_true]
    omega
  · intro x
    rcases h'.bytes x with hx | hx
    · rcases h.bytes x with hx₁ | hx₁
      · exact .inl (hx.trans hx₁)
      · exact .inr (by omega)
    · exact .inr (by omega)

/-- A table that the page is missing would go to fresh memory. -/
def Ready (m : Mem) (v : Nat) : Prop :=
  m.currentPd.tables (directoryIndex v) = 0 →
    m.kheap.freeZone ≠ 0 ∧ 4096 ∣ m.kheap.freeZone
      ∧ m.kheap.freeZone + 4096 < 2 ^ 32
      ∧ ∀ d < 0x400, m.currentPd.tables d ≠ m.kheap.freeZone

/-- Whether the page can be claimed depends on the page alone. -/
theorem Ready.mask {v : Nat} (h : m.Ready v) : m.Ready (v &&& 0xfffff000) := by
  unfold Ready
  rw [directoryIndex_mask]
  exact h

/-- What `get_page` does before paging. -/
theorem getPage_off {a : Nat} {p : PagePtr} (hoff : m.pagingEnabled = false)
    (ha : m.TablesApart) (hr : m.Ready a)
    (h : m.getPage kalloc a = .ret (p, m')) :
    Reached m a p m'
      ∧ (m.currentPd.tables (directoryIndex a) ≠ 0 → m' = m)
      ∧ (m.currentPd.tables (directoryIndex a) = 0 →
        m' = ((m.handOut m.kheap.freeZone 4096).newTable
          m.kheap.freeZone).setTable (directoryIndex a) m.kheap.freeZone
            (m.kheap.freeZone ||| 7)
        ∧ Grew 1 m m') := by
  -- the table's address
  have hat : ∀ pt m₁, m.currentPd.tables (directoryIndex a) = 0 →
      m.tableAlloc kalloc = .ret (pt, m₁) →
        pt = m.kheap.freeZone ∧ m₁ = m.handOut m.kheap.freeZone 4096
          ∧ FreshTable m pt m₁ := by
    intro pt m₁ h0 halloc
    obtain ⟨hne, hd, hlt, hfresh⟩ := hr h0
    unfold tableAlloc at halloc
    rw [if_neg (by simp [hoff])] at halloc
    obtain ⟨hpt, hm₁⟩ := unpagedAlloc_aligned halloc
    rw [pageUp_eq (by omega), pageUp_of_dvd hd] at hpt
    subst hpt
    exact ⟨rfl, hm₁, unpagedAlloc_fresh halloc hne hfresh⟩
  refine ⟨getPage_reached ha (fun h0 pt m₁ h => (hat pt m₁ h0 h).2.2) h,
    ?_, ?_⟩
  · intro hne
    rcases getPage_cases h with ⟨-, hm', -⟩ | ⟨h0, -⟩
    · exact hm'
    · exact absurd h0 hne
  · intro h0
    rcases getPage_cases h with ⟨hne, -⟩ | ⟨-, pt, m₁, q, halloc, hm', -, hq⟩
    · exact absurd h0 hne
    · obtain ⟨rfl, rfl, -⟩ := hat pt m₁ h0 halloc
      rw [if_neg (by simp [hoff])] at hq
      subst hq
      refine ⟨hm', ?_⟩
      have hz := (hr h0).2.2.1
      have hgive : Grew 1 m (m.handOut m.kheap.freeZone 4096) := by
        refine ⟨?_, ?_, ?_, ?_, ?_, ?_⟩
        · rw [handOut_pagingEnabled]
          exact hoff
        · unfold handOut
          rw [u32_of_lt hz]
        · rw [handOut_frames]
        · rw [handOut_frames]
        · rw [handOut_kernelPd]
        · intro x
          exact Bytes.fill_cases ..
      generalize m.handOut m.kheap.freeZone 4096 = m₁ at hgive hm'
      rw [hm']
      exact ⟨hgive.off, hgive.kheap, hgive.frames, hgive.nframes,
        hgive.kernelPd, hgive.bytes⟩

/-- A frame mapped before paging. -/
structure Put (m : Mem) (v n flags : Nat) (m' : Mem) : Prop where
  tracked : Frames.index n < Frames.index m.frames.nframes
  free : m.frames.Unused n
  apart : m'.TablesApart
  entry : ∀ q : Page, q.1 < 0x400 →
    m'.entry q = if q = pageOf v then claim (n * 4096) flags else m.entry q
  unused : ∀ i, m'.frames.Unused i ↔ m.frames.Unused i ∧ i ≠ n
  old : m.currentPd.tables (directoryIndex v) ≠ 0 →
    m'.currentPd = m.currentPd ∧ Grew 0 m m'
  new : m.currentPd.tables (directoryIndex v) = 0 →
    m'.currentPd.tables = Function.update m.currentPd.tables
        (directoryIndex v) m.kheap.freeZone
      ∧ m'.currentPd.paddrs = Function.update m.currentPd.paddrs
        (directoryIndex v) (m.kheap.freeZone ||| 7)
      ∧ Grew 1 m m'

/-- The frame of a page whose entry `get_page` found. -/
theorem put_of_getPage {v n flags : Nat} {p : PagePtr}
    (hoff : m.pagingEnabled = false) (ha : m.TablesApart)
    (hr : m.Ready v)
    (h : m.getPage kalloc (v &&& 0xfffff000) = .ret (p, m₁))
    (hlt : Frames.index n < Frames.index m₁.frames.nframes)
    (hu : m₁.frames.Unused n)
    (hm' : m' = ({ m₁ with frames := m₁.frames.marked n }.setPage p
      (claim (n * 4096) flags)).mmu (v &&& 0xfffff000) p) :
    Put m v n flags m' := by
  obtain ⟨hreach, hold, hnew⟩ := getPage_off hoff ha hr.mask h
  rw [directoryIndex_mask] at hold hnew
  have htable := hreach.table
  have hptr := hreach.ptr
  rw [directoryIndex_mask] at htable hptr
  rw [tableIndex_mask] at hptr
  -- without paging there is no MMU to see the write
  have hmmu : m' = { m₁ with frames := m₁.frames.marked n }.setPage p
      (claim (n * 4096) flags) := by
    rw [hm', mmu]
    refine if_neg ?_
    show ¬m₁.pagingEnabled = true
    by_cases h0 : m.currentPd.tables (directoryIndex v) = 0
    · simp [(hnew h0).2.off]
    · simp [hold h0, hoff]
  have hgrew : ∀ k, Grew k m m₁ → Grew k m m' := by
    intro k hg
    rw [hmmu]
    exact ⟨hg.off, hg.kheap, hg.frames, hg.nframes, hg.kernelPd, hg.bytes⟩
  have hpd : m'.currentPd = m₁.currentPd := by
    rw [hmmu]
    rfl
  refine ⟨hreach.frames ▸ hlt, hreach.frames ▸ hu, ?_, ?_, ?_, ?_, ?_⟩
  · unfold TablesApart
    rw [hpd]
    exact hreach.apart
  · intro q hq
    rw [← hreach.entry q hq, hmmu, hptr]
    exact entry_setPage (m := { m₁ with frames := _ }) hreach.apart
      (directoryIndex_lt v) htable hq
  · intro i
    rw [hmmu, ← hreach.frames]
    exact Frames.unused_marked_iff i
  · intro hne
    have hm₁ := hold hne
    refine ⟨by rw [hpd, hm₁], hgrew 0 ?_⟩
    rw [hm₁]
    exact Grew.refl hoff
  · intro h0
    obtain ⟨hm₁, hg⟩ := hnew h0
    refine ⟨?_, ?_, hgrew 1 hg⟩
    · rw [hpd, hm₁]
      rfl
    · rw [hpd, hm₁]
      rfl

/-- A mapping made before paging: the entry is the frame's, the frame is
marked, and all other entries stay. -/
theorem mapAt_put {v a flags res : Nat} (hoff : m.pagingEnabled = false)
    (ha : m.TablesApart) (hr : m.Ready v)
    (hu : m.frames.Unused (frameOf a))
    (h : m.mapAt kalloc v a flags = .ret (res, m')) :
    Put m v (frameOf a) flags m' := by
  obtain ⟨⟨p, m₁⟩, hp, h₁⟩ := Outcome.bind_eq_ret.mp h
  obtain ⟨⟨r, m₂⟩, hf, h₂⟩ := Outcome.bind_eq_ret.mp h₁
  have haddr : a &&& 0xfffff000 = frameOf a * 4096 := by
    rw [and_pageMask, frameOf_eq]
  have hfr := (getPage_off hoff ha hr.mask hp).1.frames
  obtain ⟨hlt, ⟨hbusy, -⟩ | ⟨hfree, rfl, rfl⟩⟩ := allocFrameAt_cases hf
  · change ¬m₁.frames.Unused (frameOf a) at hbusy
    rw [hfr] at hbusy
    exact absurd hu hbusy
  · refine put_of_getPage hoff ha hr hp hlt hfree ?_
    rw [← haddr]
    exact (Prod.mk.inj (Outcome.ret.inj h₂)).2.symm

/-- Where the caller names no frame, it is the first that is free. -/
theorem map_put {v flags res : Nat} (hoff : m.pagingEnabled = false)
    (ha : m.TablesApart) (hr : m.Ready v) (hn : m.frames.nframes ≤ 2 ^ 20)
    (h : m.map kalloc v flags = .ret (res, m')) :
    ∃ n, Put m v n flags m' ∧ ∀ k < n, ¬m.frames.Unused k := by
  obtain ⟨⟨p, m₁⟩, hp, h₁⟩ := Outcome.bind_eq_ret.mp h
  obtain ⟨⟨r, m₂⟩, hf, h₂⟩ := Outcome.bind_eq_ret.mp h₁
  have hfr := (getPage_off hoff ha hr.mask hp).1.frames
  simp only [allocFrame] at hf
  split at hf
  · cases hf
  · rename_i hne
    obtain ⟨n, heq, hpos, hlt, hu, hleast⟩ :=
      Frames.getFreeFrame_least (by rw [hfr]; exact hn) hne
    have hsh := Frames.shiftRight_mul n
    rw [heq] at hf
    obtain ⟨hlt', ⟨hbusy, -⟩ | ⟨hfree, rfl, rfl⟩⟩ := allocFrameAt_cases hf
    · rw [hsh] at hbusy
      exact absurd hu hbusy
    · rw [hsh] at h₂ hlt' hfree
      refine ⟨n, ?_, ?_⟩
      · refine put_of_getPage hoff ha hr hp hlt' hfree ?_
        exact (Prod.mk.inj (Outcome.ret.inj h₂)).2.symm
      · rw [hfr] at hleast
        exact hleast

end Mem

end Ntibux
