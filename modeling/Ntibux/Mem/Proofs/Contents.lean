/-
A copy of a table: its contents.

`copy_page` takes its addresses from `esi` and `edi`, and nobody puts
them there. Whatever the registers of the calls are, the loop runs to
its end (`cloneTable_runs`); with the right registers it copies the
pages, and with wrong ones it writes over a page that is not the copy's,
as soon as the table has one page (`clone_contents_iff`).
-/
import Ntibux.Mem.Proofs.Clone
import Ntibux.Mem.Proofs.Tables

namespace Ntibux

variable {b : Bytes} {n esi edi : Nat}

-- ============================================================= rep movsd

/-- Words that are copied one by one, up and away from where they come
from, are copied at once. -/
theorem movsd_eq (hs : esi + 4 * n ≤ 2 ^ 32) (hd : edi + 4 * n ≤ 2 ^ 32)
    (hapart : edi + 4 * n ≤ esi ∨ esi + 4 * n ≤ edi) :
    movsd n esi edi b = b.copy edi esi (4 * n) := by
  induction n generalizing esi edi b with
  | zero =>
      funext x
      exact (Bytes.copy_of_out (by omega)).symm
  | succ n ih =>
      have hstep : movsd n (u32 (esi + 4)) (u32 (edi + 4))
          (b.copy edi esi 4)
          = (b.copy edi esi 4).copy (edi + 4) (esi + 4) (4 * n) := by
        rcases Nat.eq_zero_or_pos n with rfl | hpos
        · funext x
          exact (Bytes.copy_of_out (by omega)).symm
        · rw [u32_of_lt (by omega), u32_of_lt (by omega)]
          exact ih (by omega) (by omega) (by omega)
      unfold movsd
      rw [Bytes.write32_read32, hstep]
      funext x
      by_cases hx : edi ≤ x ∧ x < edi + 4 * (n + 1)
      · obtain ⟨i, rfl⟩ : ∃ i, x = edi + i := ⟨x - edi, by omega⟩
        rw [Bytes.copy_at (show i < 4 * (n + 1) by omega)]
        rcases Nat.lt_or_ge i 4 with hi | hi
        · rw [Bytes.copy_of_out (by omega), Bytes.copy_at hi]
        · obtain ⟨k, rfl⟩ : ∃ k, i = 4 + k := ⟨i - 4, by omega⟩
          rw [← Nat.add_assoc, Bytes.copy_at (by omega), Nat.add_assoc,
            Bytes.copy_of_out (by omega)]
      · rw [Bytes.copy_of_out hx, Bytes.copy_of_out (by omega),
          Bytes.copy_of_out (by omega)]

namespace Mem

variable {kalloc : Kalloc} {regs : Nat → Regs} {m m' m₁ : Mem}
  {this out i : Nat}

-- ============================================================== the loop

/-- What a turn makes of physical memory. -/
def turnRam (regs : Nat → Regs) (m : Mem) (this i : Nat) (b : Bytes) :
    Bytes :=
  if m.pages this i ≠ 0 then
    movsd (PAGESIZE / 4) (regs i).esi (regs i).edi b
  else b

theorem copyPage_ram (m : Mem) (r : Regs) (dst src : Nat) :
    (m.copyPage r dst src).ram = movsd (PAGESIZE / 4) r.esi r.edi m.ram := by
  simp only [copyPage]

theorem cloneEntry_ram (h : m.cloneEntry regs this out i = .ret m') :
    m'.ram = turnRam regs m this i m.ram := by
  unfold cloneEntry at h
  unfold turnRam
  split at h
  case isTrue hne =>
    obtain ⟨⟨r, m₁⟩, halloc, h⟩ := Outcome.bind_eq_ret.mp h
    have hram : m₁.ram = m.ram := by
      simp only [allocFrame] at halloc
      split at halloc
      · cases halloc
      · obtain ⟨-, ⟨-, -, rfl⟩ | ⟨-, -, rfl⟩⟩ := allocFrameAt_cases halloc
        · rfl
        · rfl
    obtain rfl := Outcome.ret.inj h
    rw [if_pos hne, copyPage_ram, hram]
  case isFalse hz =>
    obtain rfl := Outcome.ret.inj h
    rw [if_neg hz]

/-- The loop runs to its end, with what each turn keeps of physical
memory. -/
theorem cloneTable_runs {R : Nat → Bytes → Prop}
    (halloc : kalloc sizeofPageTable (ALLOC_ALIGNED ||| ALLOC_ZEROED) m
      = .ret (out, m₁))
    (hc : CopyMemory m this out m₁) (hn : m.frames.nframes ≤ 2 ^ 20)
    (hp : ∀ j < 1024, m.pages this j ≠ 0 →
      m.pages this j &&& PAGE_PRESENT ≠ 0)
    (havail : m.entries this 1024 ≤ m.frames.avail)
    (hR : R 0 m.ram)
    (hstep : ∀ i b, i < 1024 → R i b → R (i + 1) (turnRam regs m this i b)) :
    ∃ m', m.cloneTable kalloc regs this = .ret (out, m') ∧
      (∀ j < 1024, m.pages this j ≠ 0 →
        Copied m.frames m'.frames (m.pages this j) (m'.pages out j)) ∧
      (∀ j < 1024, ∀ j' < 1024, m.pages this j ≠ 0 → m.pages this j' ≠ 0 →
        frameOf (m'.pages out j) = frameOf (m'.pages out j') → j = j') ∧
      R 1024 m'.ram := by
  have hthis : (m₁.newTable out).pages this = m.pages this := by
    show Function.update m₁.pages out _ this = _
    rw [Function.update_of_ne hc.ne.symm, hc.pages]
  have hframes : (m₁.newTable out).frames = m.frames := hc.frames
  have hentries : ∀ k, (m₁.newTable out).entries this k
      = m.entries this k := by
    intro k
    unfold entries
    rw [hthis]
  have hstart : TableCopy (m₁.newTable out) this out 0 (m₁.newTable out) := by
    refine ⟨rfl, rfl, rfl, fun _ _ => rfl, ?_, nofun, nofun, nofun, .refl _,
      rfl⟩
    intro j _
    exact congrFun (Function.update_self out _ m₁.pages) j
  have hturn : ∀ i m₂, i < 1024 →
      (TableCopy (m₁.newTable out) this out i m₂ ∧ R i m₂.ram) →
        ∃ m₃, cloneEntry regs this out i m₂ = .ret m₃ ∧
          TableCopy (m₁.newTable out) this out (i + 1) m₃ ∧
          R (i + 1) m₃.ram := by
    intro i m₂ hi h
    obtain ⟨hcopy, hr⟩ := h
    obtain ⟨m₃, hret, hnext⟩ := hcopy.turn regs hc.ne (hframes ▸ hn) hi
      (by rw [hthis]; exact hp)
      (by rw [hentries, hframes]; exact havail)
    refine ⟨m₃, hret, hnext, ?_⟩
    -- the table that is copied does not change on the way
    have hsame : m₂.pages this = m.pages this := by
      rw [hcopy.pages this hc.ne.symm, hthis]
    rw [cloneEntry_ram hret]
    unfold turnRam
    rw [hsame]
    exact hstep i m₂.ram hi hr
  obtain ⟨m', hloop, hcopy, hr⟩ := Outcome.turns_ret hturn
    (Nat.zero_add 1024) ⟨hstart, hc.ram.symm ▸ hR⟩
  refine ⟨m', ?_, ?_, ?_, hr⟩
  · unfold cloneTable
    rw [halloc, Outcome.ret_bind]
    dsimp only
    rw [hloop, Outcome.ret_bind]
  · rw [← hthis, ← hframes]
    exact hcopy.copied
  · rw [← hthis]
    exact hcopy.apart

-- ======================================================= right registers

theorem frameOf_lt (e : Nat) : frameOf e < 2 ^ 20 := by
  rw [frameOf_eq]
  exact Nat.mod_lt _ (by decide)

/-- The pages of the turns before `i` are copied to the frames `dst`. -/
structure RamCopied (src dst : Nat → Nat) (on : Nat → Prop) (b₀ : Bytes)
    (i : Nat) (b : Bytes) : Prop where
  copied : ∀ j < i, on j → ∀ k < PAGESIZE,
    b (dst j * PAGESIZE + k) = b₀ (src j * PAGESIZE + k)
  others : ∀ x, (∀ j < i, on j → dst j ≠ x / PAGESIZE) → b x = b₀ x

theorem RamCopied.turn {src dst : Nat → Nat} {on : Nat → Prop} {b₀ : Bytes}
    (h : RamCopied src dst on b₀ i b) (hi : on i)
    (hs : src i < 2 ^ 20) (hd : dst i < 2 ^ 20)
    (hnew : ∀ j ≤ i, on j → dst j ≠ src i)
    (hapart : ∀ j < i, on j → dst j ≠ dst i) :
    RamCopied src dst on b₀ (i + 1)
      (movsd (PAGESIZE / 4) (src i * PAGESIZE) (dst i * PAGESIZE) b) := by
  have hne := hnew i (Nat.le_refl i) hi
  have hcopy : movsd (PAGESIZE / 4) (src i * PAGESIZE) (dst i * PAGESIZE) b
      = b.copy (dst i * PAGESIZE) (src i * PAGESIZE) PAGESIZE := by
    refine movsd_eq ?_ ?_ ?_
    all_goals unfold PAGESIZE
    all_goals omega
  have hpage : ∀ (n k : Nat), k < PAGESIZE →
      (n * PAGESIZE + k) / PAGESIZE = n := by
    unfold PAGESIZE
    omega
  have hout : ∀ x, dst i ≠ x / PAGESIZE →
      b.copy (dst i * PAGESIZE) (src i * PAGESIZE) PAGESIZE x = b x := by
    intro x hx
    refine Bytes.copy_of_out ?_
    unfold PAGESIZE at hx ⊢
    omega
  rw [hcopy]
  constructor
  · intro j hj hon k hk
    rcases Nat.lt_succ_iff_lt_or_eq.mp hj with hj | rfl
    · rw [hout _ (by rw [hpage _ k hk]; exact (hapart j hj hon).symm)]
      exact h.copied j hj hon k hk
    · rw [Bytes.copy_at hk]
      refine h.others _ fun j' hj' hon' => ?_
      rw [hpage _ k hk]
      exact hnew j' (Nat.le_of_lt hj') hon'
  · intro x hx
    rw [hout x (hx i (by omega) hi)]
    exact h.others x fun j hj hon => hx j (by omega) hon

/-- With the right registers at each call, the copy has the contents of
the original. -/
theorem sameContents_of_fit
    (halloc : kalloc sizeofPageTable (ALLOC_ALIGNED ||| ALLOC_ZEROED) m
      = .ret (out, m₁))
    (hc : CopyMemory m this out m₁) (hn : m.frames.nframes ≤ 2 ^ 20)
    (hp : ∀ j < 1024, m.pages this j ≠ 0 →
      m.pages this j &&& PAGE_PRESENT ≠ 0)
    (havail : m.entries this 1024 ≤ m.frames.avail)
    (hmarked : ∀ j < 1024, m.pages this j ≠ 0 →
      m.Marked (frameOf (m.pages this j)))
    (h : m.cloneTable kalloc regs this = .ret (out, m'))
    (hregs : RegsFit regs m this out m') : SameContents this out m m' := by
  obtain ⟨m₂, h₂, hcopied, hapart, -⟩ := @cloneTable_runs kalloc regs m m₁
    this out (fun _ _ => True) halloc hc hn hp havail trivial
    fun _ _ _ _ => trivial
  obtain rfl : m₂ = m' :=
    congrArg Prod.snd (Outcome.ret.inj (h₂.symm.trans h))
  -- a frame of the copy was unused, a frame of the original is not
  have hnew : ∀ i < 1024, ∀ j < 1024, m.pages this i ≠ 0 →
      m.pages this j ≠ 0 →
        frameOf (m₂.pages out j) ≠ frameOf (m.pages this i) := by
    intro i hi j hj hon hon' heq
    exact (hmarked i hi hon).used (heq ▸ (hcopied j hj hon').unused)
  have hstep : ∀ i b, i < 1024 →
      RamCopied (fun j => frameOf (m.pages this j))
        (fun j => frameOf (m₂.pages out j))
        (fun j => j < 1024 ∧ m.pages this j ≠ 0) m.ram i b →
      RamCopied (fun j => frameOf (m.pages this j))
        (fun j => frameOf (m₂.pages out j))
        (fun j => j < 1024 ∧ m.pages this j ≠ 0) m.ram (i + 1)
        (turnRam regs m this i b) := by
    intro i b hi hr
    unfold turnRam
    by_cases hon : m.pages this i = 0
    · rw [if_neg (not_not.mpr hon)]
      refine ⟨fun j hj hj' => ?_, fun x hx => ?_⟩
      · rcases Nat.lt_succ_iff_lt_or_eq.mp hj with hj | rfl
        · exact hr.copied j hj hj'
        · exact absurd hon hj'.2
      · exact hr.others x fun j hj => hx j (by omega)
    · rw [if_pos hon, hregs i hi hon]
      exact hr.turn ⟨hi, hon⟩ (frameOf_lt _) (frameOf_lt _)
        (fun j _ hj => hnew i hi j hj.1 hon hj.2)
        (fun j hj hj' heq => absurd
          (hapart j hj'.1 i hi hj'.2 hon heq) (by omega))
  obtain ⟨m₃, h₃, -, -, hr⟩ := @cloneTable_runs kalloc regs m m₁ this out
    (RamCopied (fun j => frameOf (m.pages this j))
      (fun j => frameOf (m₂.pages out j))
      (fun j => j < 1024 ∧ m.pages this j ≠ 0) m.ram) halloc hc hn hp havail
    ⟨nofun, fun _ _ => rfl⟩ hstep
  obtain rfl : m₃ = m₂ :=
    congrArg Prod.snd (Outcome.ret.inj (h₃.symm.trans h))
  constructor
  · intro j hj hon k hk
    rw [hr.copied j hj ⟨hj, hon⟩ k hk]
    refine (hr.others _ fun j' hj' hon' => ?_).symm
    have hpage : (frameOf (m.pages this j) * PAGESIZE + k) / PAGESIZE
        = frameOf (m.pages this j) := by
      unfold PAGESIZE at hk ⊢
      omega
    rw [hpage]
    exact hnew j hj j' hj' hon hon'.2
  · intro x _ hx
    exact hr.others x fun j hj hon => hx j hj hon.2

-- ======================================================= wrong registers

/-- Physical memory with a zero page at its start. -/
def lowZeros : Bytes := fun x => if x < PAGESIZE then 0 else 1

theorem movsd_lowZeros (h : b = lowZeros ∨ b = fun _ => 1) :
    movsd (PAGESIZE / 4) PAGESIZE 0 b = fun _ => 1 := by
  have hcopy : movsd (PAGESIZE / 4) PAGESIZE 0 b
      = b.copy 0 PAGESIZE PAGESIZE := by
    refine movsd_eq ?_ ?_ ?_ <;> decide
  rw [hcopy]
  funext x
  unfold Bytes.copy
  rcases h with rfl | rfl
  · unfold lowZeros PAGESIZE
    split
    · exact if_neg (by omega)
    · exact if_neg (by omega)
  · exact ite_self _

/-- When `esi` and `edi` are left at page 1 and page 0, the copy of any
table with a page goes to page 0. -/
theorem clone_clobbers
    (halloc : kalloc sizeofPageTable (ALLOC_ALIGNED ||| ALLOC_ZEROED) m
      = .ret (out, m₁))
    (hc : CopyMemory m this out m₁) (hn : m.frames.nframes ≤ 2 ^ 20)
    (hp : ∀ j < 1024, m.pages this j ≠ 0 →
      m.pages this j &&& PAGE_PRESENT ≠ 0)
    (havail : m.entries this 1024 ≤ m.frames.avail)
    (hram : m.ram = lowZeros) (hi : i < 1024) (hon : m.pages this i ≠ 0) :
    ∃ m', m.cloneTable kalloc (fun _ => ⟨PAGESIZE, 0⟩) this
        = .ret (out, m') ∧ ¬SameContents this out m m' := by
  have hstep : ∀ i b, i < 1024 →
      ((b = lowZeros ∨ b = fun _ => 1) ∧
        ((∃ j < i, m.pages this j ≠ 0) → b = fun _ => 1)) →
      (turnRam (fun _ => ⟨PAGESIZE, 0⟩) m this i b = lowZeros ∨
          turnRam (fun _ => ⟨PAGESIZE, 0⟩) m this i b = fun _ => 1) ∧
        ((∃ j < i + 1, m.pages this j ≠ 0) →
          turnRam (fun _ => ⟨PAGESIZE, 0⟩) m this i b = fun _ => 1) := by
    intro i b _ h
    obtain ⟨hb, hones⟩ := h
    unfold turnRam
    by_cases hi : m.pages this i = 0
    · rw [if_neg (not_not.mpr hi)]
      refine ⟨hb, fun hex => hones ?_⟩
      obtain ⟨j, hj, hne⟩ := hex
      refine ⟨j, ?_, hne⟩
      rcases Nat.lt_succ_iff_lt_or_eq.mp hj with hj | rfl
      · exact hj
      · exact absurd hi hne
    · rw [if_pos hi, movsd_lowZeros hb]
      exact ⟨.inr rfl, fun _ => rfl⟩
  obtain ⟨m', h, hcopied, -, -, hones⟩ := @cloneTable_runs kalloc
    (fun _ => ⟨PAGESIZE, 0⟩) m m₁ this out
    (fun i b => (b = lowZeros ∨ b = fun _ => 1) ∧
      ((∃ j < i, m.pages this j ≠ 0) → b = fun _ => 1))
    halloc hc hn hp havail ⟨.inl hram, nofun⟩ hstep
  refine ⟨m', h, fun hsame => ?_⟩
  -- frame 0 is never handed out
  have hpos : 0 < m.entries this 1024 :=
    List.countP_pos_iff.mpr ⟨i, List.mem_range.mpr hi,
      decide_eq_true hon⟩
  have hzero : ¬m.frames.Unused 0 := by
    intro hu
    have h0 : m.frames.avail = 0 := if_pos hu
    omega
  have hbyte := hsame.others 0 (by decide) fun j hj hne heq => by
    have hu := (hcopied j hj hne).unused
    rw [heq] at hu
    exact hzero hu
  rw [hones ⟨i, hi, hon⟩, hram] at hbyte
  exact absurd hbyte (by decide)

-- ============================================================= the results

/-- What a copy contains. Given memory for the table and enough frames,
the copy has the contents of the original and nothing else has changed,
for all contents of physical memory and whatever `esi` and `edi` are left
at, exactly if the table has no page at all. With a page, it is so when
each call happens to find the two addresses in its registers. -/
theorem clone_contents_iff (kalloc : Kalloc) (m : Mem) (this : Nat)
    (hheap : ∀ ram, ∃ out m₁,
      kalloc sizeofPageTable (ALLOC_ALIGNED ||| ALLOC_ZEROED)
        { m with ram := ram } = .ret (out, m₁) ∧
        CopyMemory { m with ram := ram } this out m₁)
    (hn : m.frames.nframes ≤ 2 ^ 20)
    (hp : ∀ j < 1024, m.pages this j ≠ 0 →
      m.pages this j &&& PAGE_PRESENT ≠ 0)
    (havail : m.entries this 1024 ≤ m.frames.avail) :
    ((∀ ram regs, ∃ out m',
        cloneTable kalloc regs this { m with ram := ram } = .ret (out, m') ∧
          SameContents this out { m with ram := ram } m')
      ↔ ∀ j < 1024, m.pages this j = 0)
    ∧ ∀ regs,
      (∀ j < 1024, m.pages this j ≠ 0 →
        m.Marked (frameOf (m.pages this j))) →
      ∃ out m', m.cloneTable kalloc regs this = .ret (out, m') ∧
        (RegsFit regs m this out m' → SameContents this out m m') := by
  refine ⟨⟨fun h => ?_, fun hnone ram regs => ?_⟩, fun regs hmarked => ?_⟩
  · by_contra hsome
    rw [not_forall] at hsome
    obtain ⟨i, hi⟩ := hsome
    rw [Classical.not_imp] at hi
    obtain ⟨hi, hon⟩ := hi
    obtain ⟨out, m₁, halloc, hc⟩ := hheap lowZeros
    obtain ⟨m', h', hdiff⟩ := clone_clobbers halloc hc hn hp havail rfl hi hon
    obtain ⟨out', m'', h'', hsame⟩ := h lowZeros fun _ => ⟨PAGESIZE, 0⟩
    rw [h'] at h''
    obtain ⟨rfl, rfl⟩ := Prod.mk.inj (Outcome.ret.inj h'')
    exact hdiff hsame
  · obtain ⟨out, m₁, halloc, hc⟩ := hheap ram
    obtain ⟨m', h', -, -, hram⟩ := @cloneTable_runs kalloc regs _ m₁ this
      out (fun _ b => b = ram) halloc hc hn hp havail rfl fun i b hi hb => by
        unfold turnRam
        rw [if_neg (not_not.mpr (hnone i hi))]
        exact hb
    exact ⟨out, m', h', fun j hj hne => absurd (hnone j hj) hne,
      fun x _ _ => congrFun hram x⟩
  · obtain ⟨out, m₁, halloc, hc⟩ := hheap m.ram
    obtain ⟨m', h', -⟩ := @cloneTable_runs kalloc regs m m₁ this out
      (fun _ _ => True) halloc hc hn hp havail trivial fun _ _ _ _ => trivial
    exact ⟨out, m', h', fun hregs => sameContents_of_fit halloc hc hn hp
      havail hmarked h' hregs⟩

open Directories in
theorem twin_memory {this : Nat} (h : this < 0x400000) (ram : Bytes) :
    ∃ out m₁, handOn sizeofPageTable (ALLOC_ALIGNED ||| ALLOC_ZEROED)
        { twin with ram := ram } = .ret (out, m₁) ∧
      CopyMemory { twin with ram := ram } this out m₁ := by
  refine ⟨0x400000, _, rfl, ?_, rfl, rfl, rfl⟩
  omega

open Directories in
theorem twin_avail : 32 * 1 ≤ twin.frames.avail :=
  Frames.le_avail (i := 1) (by decide) (by decide) (by decide)

open Directories in
theorem twin_present (j : Nat) (hne : twin.pages 0x4000 j ≠ 0) :
    twin.pages 0x4000 j &&& PAGE_PRESENT ≠ 0 := by
  change (if (0x4000 : Nat) = 0x1000 then 3
    else if 0x4000 = 0x4000 ∧ j = 5 then 0x9007 else 0) ≠ 0 at hne
  change (if (0x4000 : Nat) = 0x1000 then 3
    else if 0x4000 = 0x4000 ∧ j = 5 then 0x9007 else 0) &&& PAGE_PRESENT ≠ 0
  rw [if_neg (by decide)] at hne ⊢
  by_cases hj : j = 5
  · rw [if_pos ⟨rfl, hj⟩]
    decide
  · rw [if_neg fun h => hj h.2] at hne
    exact absurd rfl hne

open Directories in
/-- A table without pages is copied right; the table at 0x4000, which has
one, is not, for some contents and registers. -/
theorem clone_contents_iff_twin :
    (∀ ram regs, ∃ out m',
      cloneTable handOn regs 0x9000 { twin with ram := ram }
          = .ret (out, m') ∧
        SameContents 0x9000 out { twin with ram := ram } m')
    ∧ ¬∀ ram regs, ∃ out m',
      cloneTable handOn regs 0x4000 { twin with ram := ram }
          = .ret (out, m') ∧
        SameContents 0x4000 out { twin with ram := ram } m' := by
  constructor
  · refine (clone_contents_iff handOn twin 0x9000
      (twin_memory (by decide)) (by decide) ?_ ?_).1.mpr fun _ _ => rfl
    · exact fun j _ hne => absurd rfl hne
    · exact Nat.le_trans (by decide +kernel) twin_avail
  · intro h
    have hnone := (clone_contents_iff handOn twin 0x4000
      (twin_memory (by decide)) (by decide) (fun j _ => twin_present j)
      (Nat.le_trans (by decide +kernel) twin_avail)).1.mp h 5 (by decide)
    exact absurd hnone (by decide)

open Directories in
/-- The copy of the table at 0x4000 writes over page 0, which is in use
and is not the copy's. -/
theorem twin_clobbers : ∃ ram regs out m',
    cloneTable handOn regs 0x4000 { twin with ram := ram } = .ret (out, m')
      ∧ ¬SameContents 0x4000 out { twin with ram := ram } m' := by
  obtain ⟨out, m₁, halloc, hc⟩ := @twin_memory 0x4000 (by decide) lowZeros
  obtain ⟨m', h', hdiff⟩ := clone_clobbers halloc hc (by decide)
    (fun j _ => twin_present j)
    (Nat.le_trans (by decide +kernel) twin_avail) rfl
    (show 5 < 1024 by decide) (by decide)
  exact ⟨lowZeros, _, out, m', h', hdiff⟩

end Mem

end Ntibux
