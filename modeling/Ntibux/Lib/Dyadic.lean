/-
Dyadic blocks: intervals `[addr, addr + 2^order)` of natural numbers,
the unit a binary buddy allocator hands out and takes back.

Two facts carry everything built on them. An aligned block's buddy,
which the machine computes by flipping bit `order` of the address, is
the other half of one aligned block of the next order
(`buddy_cases`). And two aligned blocks are either apart or nested
(`Block.apart_or_within`), so blocks of one order are apart as soon as
their addresses differ.
-/
import Mathlib.Data.Nat.Bitwise
import Mathlib.Order.Interval.Finset.Nat
import Mathlib.Tactic.Ring

namespace Ntibux

-- ======================================================= bit arithmetic

/-- Flipping bit `k` of a multiple of `2^(k+1)` adds `2^k`. -/
theorem xor_two_pow_of_dvd {a k : Nat} (ha : 2 ^ (k + 1) ∣ a) :
    a ^^^ 2 ^ k = a + 2 ^ k := by
  obtain ⟨q, rfl⟩ := ha
  have hlt : 2 ^ k < 2 ^ (k + 1) := Nat.pow_lt_pow_right (by omega) (by omega)
  refine Nat.eq_of_testBit_eq fun i => ?_
  rw [Nat.testBit_xor, Nat.testBit_two_pow_mul_add q hlt,
    Nat.testBit_two_pow_mul, Nat.testBit_two_pow]
  by_cases hi : i < k + 1
  · rw [if_pos hi]
    simp [Nat.not_le.mpr hi]
  · rw [if_neg hi]
    have hne : k ≠ i := by omega
    simp [hne, Nat.not_lt.mp hi]

/-- Flipping bit `k` back off an odd multiple of `2^k`. -/
theorem xor_two_pow_of_add {p k : Nat} (hp : 2 ^ (k + 1) ∣ p) :
    (p + 2 ^ k) ^^^ 2 ^ k = p := by
  rw [← xor_two_pow_of_dvd hp, Nat.xor_assoc, Nat.xor_self, Nat.xor_zero]

/-- A flipped bit is a different number. -/
theorem xor_two_pow_ne (a k : Nat) : a ^^^ 2 ^ k ≠ a := by
  intro h
  have h' := congrArg (a ^^^ ·) h
  simp only [← Nat.xor_assoc, Nat.xor_self, Nat.zero_xor] at h'
  exact absurd h' (Nat.ne_of_gt (Nat.two_pow_pos k))

/-- Masking with all `w` bits but bit `k`, on a multiple of `2^(k+1)`. -/
theorem and_not_two_pow_of_dvd {a k w : Nat} (ha : 2 ^ (k + 1) ∣ a)
    (hk : k < w) (haw : a < 2 ^ w) : a &&& (2 ^ w - (2 ^ k + 1)) = a := by
  obtain ⟨q, rfl⟩ := ha
  have hkw : 2 ^ k < 2 ^ w := Nat.pow_lt_pow_right (by omega) hk
  refine Nat.eq_of_testBit_eq fun i => ?_
  rw [Nat.testBit_and, Nat.testBit_two_pow_sub_succ hkw, Nat.testBit_two_pow]
  cases hb : (2 ^ (k + 1) * q).testBit i with
  | false => simp
  | true =>
      have hik : k ≠ i := by
        intro h
        rw [← h, Nat.testBit_two_pow_mul] at hb
        simp at hb
      have hiw : i < w := by
        by_contra hge
        have hlt : 2 ^ (k + 1) * q < 2 ^ i :=
          Nat.lt_of_lt_of_le haw
            (Nat.pow_le_pow_right (by omega) (Nat.not_lt.mp hge))
        rw [Nat.testBit_lt_two_pow hlt] at hb
        cases hb
      simp [hik, hiw]

/-- Masking with all `w` bits but bit `k`, on an odd multiple of `2^k`. -/
theorem and_not_two_pow_of_add {p k w : Nat} (hp : 2 ^ (k + 1) ∣ p)
    (hk : k < w) (hpw : p + 2 ^ k < 2 ^ w) :
    (p + 2 ^ k) &&& (2 ^ w - (2 ^ k + 1)) = p := by
  have hkw : 2 ^ k < 2 ^ w := Nat.pow_lt_pow_right (by omega) hk
  have hself : 2 ^ k &&& (2 ^ w - (2 ^ k + 1)) = 0 := by
    refine Nat.eq_of_testBit_eq fun i => ?_
    rw [Nat.testBit_and, Nat.testBit_two_pow_sub_succ hkw,
      Nat.testBit_two_pow]
    by_cases hki : k = i <;> simp [hki]
  rw [← xor_two_pow_of_dvd hp, Nat.and_xor_distrib_right,
    and_not_two_pow_of_dvd hp hk (by omega), hself, Nat.xor_zero]

/-- A multiple of `2^k` is an even multiple or an odd one. -/
theorem dvd_succ_or {a k : Nat} (ha : 2 ^ k ∣ a) :
    2 ^ (k + 1) ∣ a ∨ ∃ p, a = p + 2 ^ k ∧ 2 ^ (k + 1) ∣ p := by
  obtain ⟨q, rfl⟩ := ha
  obtain ⟨j, hj | hj⟩ := Nat.even_or_odd' q
  · exact Or.inl ⟨j, by rw [hj, pow_succ]; ring⟩
  · exact Or.inr ⟨2 ^ (k + 1) * j, by rw [hj, pow_succ]; ring, j, rfl⟩

/-- The two halves of an aligned block of order `k + 1`: an aligned
address of order `k` is the lower half `p` or the upper half
`p + 2^k`, bit `k` of it flips to the other half, and clearing bit `k`
(in `w`-bit arithmetic) gives `p`. -/
theorem buddy_cases {a k w : Nat} (ha : 2 ^ k ∣ a) (hk : k < w)
    (haw : a < 2 ^ w) :
    ∃ p, 2 ^ (k + 1) ∣ p ∧ a &&& (2 ^ w - (2 ^ k + 1)) = p
      ∧ ((a = p ∧ a ^^^ 2 ^ k = p + 2 ^ k)
        ∨ (a = p + 2 ^ k ∧ a ^^^ 2 ^ k = p)) := by
  rcases dvd_succ_or ha with h | ⟨p, rfl, hp⟩
  · exact ⟨a, h, and_not_two_pow_of_dvd h hk haw,
      Or.inl ⟨rfl, xor_two_pow_of_dvd h⟩⟩
  · exact ⟨p, hp, and_not_two_pow_of_add hp hk haw,
      Or.inr ⟨rfl, xor_two_pow_of_add hp⟩⟩

/-- Between two multiples of `n` there is room for one `n`. -/
theorem add_le_of_dvd_of_lt {n a b : Nat} (ha : n ∣ a) (hb : n ∣ b)
    (h : a < b) : a + n ≤ b := by
  obtain ⟨c, rfl⟩ := ha
  obtain ⟨d, rfl⟩ := hb
  have hcd : c < d := Nat.lt_of_mul_lt_mul_left h
  calc n * c + n = n * (c + 1) := by ring
    _ ≤ n * d := Nat.mul_le_mul_left n hcd

-- =============================================================== blocks

/-- The interval `[addr, addr + 2^order)`. -/
structure Block where
  addr : Nat
  order : Nat
  deriving DecidableEq, Repr

namespace Block

/-- The end of the block. -/
def fin (b : Block) : Nat := b.addr + 2 ^ b.order

/-- The block holds the address `x`. -/
def Has (b : Block) (x : Nat) : Prop := b.addr ≤ x ∧ x < b.fin

/-- The two blocks share no address. -/
def Apart (b c : Block) : Prop := b.fin ≤ c.addr ∨ c.fin ≤ b.addr

/-- The block starts at a multiple of its size. -/
def Aligned (b : Block) : Prop := 2 ^ b.order ∣ b.addr

/-- The block lies inside `c`. -/
def Within (b c : Block) : Prop := c.addr ≤ b.addr ∧ b.fin ≤ c.fin

instance (b : Block) (x : Nat) : Decidable (b.Has x) :=
  inferInstanceAs (Decidable (_ ∧ _))

instance (b c : Block) : Decidable (b.Apart c) :=
  inferInstanceAs (Decidable (_ ∨ _))

instance (b : Block) : Decidable b.Aligned :=
  inferInstanceAs (Decidable (_ ∣ _))

instance (b c : Block) : Decidable (b.Within c) :=
  inferInstanceAs (Decidable (_ ∧ _))

variable {b c d : Block} {x : Nat}

theorem Apart.symm (h : b.Apart c) : c.Apart b := Or.symm h

/-- Apart blocks hold no address in common. -/
theorem Apart.not_has (h : b.Apart c) (hx : b.Has x) : ¬ c.Has x := by
  intro hc
  obtain ⟨hb1, hb2⟩ := hx
  obtain ⟨hc1, hc2⟩ := hc
  rcases h with h | h <;> omega

theorem addr_lt_fin (b : Block) : b.addr < b.fin :=
  Nat.lt_add_of_pos_right (Nat.two_pow_pos _)

theorem has_addr (b : Block) : b.Has b.addr := ⟨Nat.le_refl _, b.addr_lt_fin⟩

theorem not_apart_self (b : Block) : ¬ b.Apart b := fun h =>
  h.not_has b.has_addr b.has_addr

theorem Within.has (h : b.Within c) (hx : b.Has x) : c.Has x :=
  ⟨Nat.le_trans h.1 hx.1, Nat.lt_of_lt_of_le hx.2 h.2⟩

theorem Within.trans (h : b.Within c) (h' : c.Within d) : b.Within d :=
  ⟨Nat.le_trans h'.1 h.1, Nat.le_trans h.2 h'.2⟩

/-- What is apart from a block is apart from everything inside it. -/
theorem Apart.of_within (h : c.Apart d) (hb : b.Within c) : b.Apart d := by
  obtain ⟨h1, h2⟩ := hb
  rcases h with h | h
  · exact Or.inl (Nat.le_trans h2 h)
  · exact Or.inr (Nat.le_trans h h1)

/-- A block inside another is no larger. -/
theorem Within.order_le (h : b.Within c) : b.order ≤ c.order := by
  obtain ⟨h1, h2⟩ := h
  unfold fin at h2
  exact (Nat.pow_le_pow_iff_right (a := 2) (by omega)).mp (by omega)

/-- Two aligned blocks are apart, or the smaller lies in the larger. -/
theorem apart_or_within (hb : b.Aligned) (hc : c.Aligned)
    (hle : b.order ≤ c.order) : b.Apart c ∨ b.Within c := by
  have hcb : 2 ^ b.order ∣ c.addr :=
    Nat.dvd_trans (Nat.pow_dvd_pow 2 hle) hc
  have hcf : 2 ^ b.order ∣ c.fin :=
    Nat.dvd_add hcb (Nat.pow_dvd_pow 2 hle)
  by_cases h1 : b.addr < c.addr
  · exact Or.inl (Or.inl (add_le_of_dvd_of_lt hb hcb h1))
  · by_cases h2 : b.addr < c.fin
    · exact Or.inr ⟨Nat.not_lt.mp h1, add_le_of_dvd_of_lt hb hcf h2⟩
    · exact Or.inl (Or.inr (Nat.not_lt.mp h2))

-- -------------------------------------------------------------- halves

/-- The lower half of a block of order `k + 1` lies in it. -/
theorem lower_within (p k : Nat) : Within ⟨p, k⟩ ⟨p, k + 1⟩ := by
  refine ⟨Nat.le_refl _, ?_⟩
  show p + 2 ^ k ≤ p + 2 ^ (k + 1)
  rw [pow_succ]
  omega

/-- The upper half of a block of order `k + 1` lies in it. -/
theorem upper_within (p k : Nat) : Within ⟨p + 2 ^ k, k⟩ ⟨p, k + 1⟩ := by
  refine ⟨Nat.le_add_right _ _, ?_⟩
  show p + 2 ^ k + 2 ^ k ≤ p + 2 ^ (k + 1)
  rw [pow_succ]
  omega

/-- The two halves are apart. -/
theorem halves_apart (p k : Nat) : Apart ⟨p, k⟩ ⟨p + 2 ^ k, k⟩ :=
  Or.inl (Nat.le_refl _)

/-- A block is exactly its two halves. -/
theorem has_succ_iff {p k x : Nat} :
    Has ⟨p, k + 1⟩ x ↔ Has ⟨p, k⟩ x ∨ Has ⟨p + 2 ^ k, k⟩ x := by
  unfold Has fin
  simp only [pow_succ]
  omega

/-- What is apart from both halves is apart from the whole. -/
theorem apart_succ {p k : Nat} (h1 : Apart ⟨p, k⟩ c)
    (h2 : Apart ⟨p + 2 ^ k, k⟩ c) : Apart ⟨p, k + 1⟩ c := by
  have hpos := c.addr_lt_fin
  have hk := Nat.two_pow_pos k
  unfold Apart fin at h1 h2
  unfold fin at hpos
  show p + 2 ^ (k + 1) ≤ c.addr ∨ c.addr + 2 ^ c.order ≤ p
  simp only [pow_succ] at h1 h2 ⊢
  omega

/-- If one half of an aligned block of order `k + 1` lies in an aligned
block larger than that half, the whole does. -/
theorem parent_within {p k : Nat} (hp : 2 ^ (k + 1) ∣ p)
    (hc : c.Aligned) (hk : k < c.order)
    (h : Within ⟨p, k⟩ c ∨ Within ⟨p + 2 ^ k, k⟩ c) :
    Within ⟨p, k + 1⟩ c := by
  have hw : Apart ⟨p, k + 1⟩ c ∨ Within ⟨p, k + 1⟩ c :=
    apart_or_within hp hc hk
  refine hw.resolve_left fun hap => ?_
  rcases h with h | h
  · exact (hap.of_within (lower_within p k)).not_has (has_addr _)
      (h.has (has_addr _))
  · exact (hap.of_within (upper_within p k)).not_has (has_addr _)
      (h.has (has_addr _))

-- ------------------------------------------------------------- together

/-- Blocks apart hold as many addresses as their sizes add up to. -/
theorem exists_cover {l : List Block} (hp : l.Pairwise Apart) :
    ∃ S : Finset Nat, S.card = (l.map fun b => 2 ^ b.order).sum ∧
      ∀ x, x ∈ S ↔ ∃ b ∈ l, b.Has x := by
  induction l with
  | nil => exact ⟨∅, rfl, fun x => by simp⟩
  | cons b l ih =>
      obtain ⟨hb, hp⟩ := List.pairwise_cons.mp hp
      obtain ⟨S, hcard, hS⟩ := ih hp
      have hdisj : Disjoint (Finset.Ico b.addr b.fin) S := by
        refine Finset.disjoint_left.mpr fun x hx hxS => ?_
        obtain ⟨c, hc, hxc⟩ := (hS x).mp hxS
        exact (hb c hc).not_has (Finset.mem_Ico.mp hx) hxc
      refine ⟨Finset.Ico b.addr b.fin ∪ S, ?_, ?_⟩
      · rw [Finset.card_union_of_disjoint hdisj, hcard, Nat.card_Ico,
          List.map_cons, List.sum_cons]
        unfold fin
        rw [Nat.add_sub_cancel_left]
      · intro x
        rw [Finset.mem_union, Finset.mem_Ico, hS, List.exists_mem_cons_iff]
        rfl

/-- Blocks apart fill no more than what they lie in. -/
theorem sum_le {l : List Block} (hp : l.Pairwise Apart)
    (hw : ∀ b ∈ l, b.Within c) :
    (l.map fun b => 2 ^ b.order).sum ≤ 2 ^ c.order := by
  obtain ⟨S, hcard, hS⟩ := exists_cover hp
  have hsub : S ⊆ Finset.Ico c.addr c.fin := by
    intro x hx
    obtain ⟨b, hb, hxb⟩ := (hS x).mp hx
    exact Finset.mem_Ico.mpr ((hw b hb).has hxb)
  calc (l.map fun b => 2 ^ b.order).sum = S.card := hcard.symm
    _ ≤ (Finset.Ico c.addr c.fin).card := Finset.card_le_card hsub
    _ = 2 ^ c.order := by
        rw [Nat.card_Ico]
        unfold fin
        rw [Nat.add_sub_cancel_left]

-- ------------------------------------------------------------ whole again

/-- A block as large as the one it lies in is that block. -/
theorem Within.eq_of_order (h : b.Within c) (ho : b.order = c.order) :
    b = c := by
  obtain ⟨h1, h2⟩ := h
  obtain ⟨a, k⟩ := b
  obtain ⟨a', k'⟩ := c
  obtain rfl : k = k' := ho
  unfold fin at h2
  simp only at h1 h2
  obtain rfl : a = a' := by omega
  rfl

/-- Aligned blocks apart that fill a block, no two of them buddies: it is
filled by itself. The smallest of them has a buddy; what holds that is
no smaller, and if larger it holds the smallest one too. -/
theorem eq_of_tiles {F : Block → Prop} {r : Block} (hr : r.Aligned)
    (haligned : ∀ b, F b → b.Aligned) (hwithin : ∀ b, F b → b.Within r)
    (hapart : ∀ b c, F b → F c → b ≠ c → b.Apart c)
    (hcover : ∀ x, r.Has x → ∃ b, F b ∧ b.Has x)
    (hpair : ∀ k < r.order, ∀ a, F ⟨a, k⟩ → ¬F ⟨a ^^^ 2 ^ k, k⟩) :
    ∀ b, F b ↔ b = r := by
  classical
  have hsome : ∃ k, ∃ a, F ⟨a, k⟩ := by
    obtain ⟨b, hb, -⟩ := hcover r.addr r.has_addr
    exact ⟨b.order, b.addr, hb⟩
  obtain ⟨k, ⟨a, hF⟩, hleast⟩ : ∃ k, (∃ a, F ⟨a, k⟩)
      ∧ ∀ b, F b → k ≤ b.order :=
    ⟨Nat.find hsome, Nat.find_spec hsome, fun b hb =>
      Nat.find_min' hsome ⟨b.addr, hb⟩⟩
  have hwhole : (⟨a, k⟩ : Block) = r := by
    rcases Nat.lt_or_eq_of_le (hwithin _ hF).order_le with hlt | heq
    · exfalso
      change k < r.order at hlt
      -- the two halves of the next larger block, and the buddy among them
      obtain ⟨p, hp, hmine, hbuddy⟩ : ∃ p, 2 ^ (k + 1) ∣ p
          ∧ (a = p ∨ a = p + 2 ^ k)
          ∧ (a ^^^ 2 ^ k = p ∨ a ^^^ 2 ^ k = p + 2 ^ k) := by
        rcases dvd_succ_or (haligned _ hF) with h | ⟨p, hap, hp⟩
        · exact ⟨a, h, .inl rfl, .inr (xor_two_pow_of_dvd h)⟩
        · change a = p + 2 ^ k at hap
          refine ⟨p, hp, .inr hap, .inl ?_⟩
          rw [hap]
          exact xor_two_pow_of_add hp
      have hhalf : ∀ {e : Nat} {d : Block}, (e = p ∨ e = p + 2 ^ k) →
          Within ⟨e, k⟩ d → Within ⟨p, k⟩ d ∨ Within ⟨p + 2 ^ k, k⟩ d := by
        rintro e d (rfl | rfl) h
        · exact .inl h
        · exact .inr h
      have hparent := parent_within hp hr hlt (hhalf hmine (hwithin _ hF))
      have hin : ∀ {e : Nat}, (e = p ∨ e = p + 2 ^ k) →
          Within ⟨e, k⟩ ⟨p, k + 1⟩ := by
        rintro e (rfl | rfl)
        · exact lower_within _ _
        · exact upper_within _ _
      obtain ⟨d, hd, hhas⟩ := hcover (a ^^^ 2 ^ k)
        (hparent.has ((hin hbuddy).has (has_addr _)))
      have hbd : Within ⟨a ^^^ 2 ^ k, k⟩ d := by
        have hal : Aligned ⟨a ^^^ 2 ^ k, k⟩ := by
          have hpk : 2 ^ k ∣ p :=
            Nat.dvd_trans (Nat.pow_dvd_pow 2 (Nat.le_succ k)) hp
          show 2 ^ k ∣ a ^^^ 2 ^ k
          rcases hbuddy with h | h
          · rw [h]
            exact hpk
          · rw [h]
            exact Nat.dvd_add hpk (Nat.dvd_refl _)
        refine (apart_or_within hal (haligned d hd) (hleast d hd)).resolve_left
          fun hap => ?_
        exact hap.not_has (has_addr _) hhas
      rcases Nat.lt_or_eq_of_le (hleast d hd) with hgt | heq
      · have hup := parent_within hp (haligned d hd) hgt (hhalf hbuddy hbd)
        have hne : (⟨a, k⟩ : Block) ≠ d := by
          intro h
          rw [← h] at hgt
          exact Nat.lt_irrefl _ hgt
        exact (hapart _ d hF hd hne).not_has (has_addr _)
          (hup.has ((hin hmine).has (has_addr _)))
      · rw [← hbd.eq_of_order heq] at hd
        exact hpair k hlt a hF hd
    · exact (hwithin _ hF).eq_of_order heq
  rw [hwhole] at hF
  intro b
  constructor
  · intro hb
    by_contra hne
    exact (hapart b r hb hF hne).not_has b.has_addr
      ((hwithin b hb).has b.has_addr)
  · rintro rfl
    exact hF

end Block

end Ntibux
