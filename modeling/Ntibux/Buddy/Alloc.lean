/-
What each operation of the buddy machine keeps, assembled from the six
moves of `Buddy/Basic.lean`.

`Grows h used h' used'` is the account of one operation that may enlarge
the reserve: the invariant holds afterwards, the reserve has not shrunk,
and the addresses covered afterwards are exactly those covered before,
plus the new part of the reserve, minus the block that growth drops.
`alloc_grows` proves it of `buddy_alloc`; `release_spec` proves that
`buddy_free` covers what was covered before and looks at no list above
the reserve order (each call it makes on itself stays at or below it).

The dropped block is always the whole old reserve: the top list can hold
nothing else (`top_list`), and growth drops its front
(`grow_free_iff`). So the drop is visible in the state before the call:
the request is larger than the reserve and the reserve is free as one
block (`alloc_dropped_iff`).
-/
import Ntibux.Buddy.Basic

namespace Ntibux.Buddy

variable {z : Zone} {h h' h₁ : Heap z} {used used' : List Block}
  {k a p x order fuel addr : Nat} {b c : Block}

-- ================================================================ growth

/-- The top list is empty or holds the whole reserve and nothing else. -/
theorem Inv.top_list (hi : Inv h used) :
    h.free h.reserveOrder = [] ∨ h.free h.reserveOrder = [z.base] := by
  have hall : ∀ y ∈ h.free h.reserveOrder, y = z.base := fun y hy =>
    (hi.free_ok ⟨y, h.reserveOrder⟩ hy).eq_base
  have hnd := hi.nodup h.reserveOrder
  cases hl : h.free h.reserveOrder with
  | nil => exact Or.inl rfl
  | cons y l =>
      right
      rw [hl] at hall hnd
      have hy := hall y (by simp)
      cases l with
      | nil => rw [hy]
      | cons y' l =>
          have hy' := hall y' (by simp)
          rw [hy, hy'] at hnd
          simp at hnd

/-- The lists above the reserve order are empty. -/
theorem Inv.free_above (hi : Inv h used) (hk : h.reserveOrder < k) :
    h.free k = [] := by
  refine List.eq_nil_iff_forall_not_mem.mpr fun y hy => ?_
  exact Heap.not_ok_of_lt hk (hi.free_ok ⟨y, k⟩ hy)

/-- The old top list without its front is empty. -/
theorem Inv.top_tail (hi : Inv h used) :
    (h.free h.reserveOrder).tail = [] := by
  rcases hi.top_list with hl | hl <;> rw [hl] <;> rfl

namespace Heap

theorem free_grow_self (hlt : h.reserveOrder < z.maxOrder) :
    (h.grow hlt).free h.reserveOrder
      = (z.base + 2 ^ h.reserveOrder) :: (h.free h.reserveOrder).tail :=
  Function.update_self ..

theorem free_grow_of_ne (hlt : h.reserveOrder < z.maxOrder)
    (hne : k ≠ h.reserveOrder) : (h.grow hlt).free k = h.free k :=
  Function.update_of_ne hne ..

end Heap

/-- Growth adds the new upper half and drops the old reserve block. -/
theorem grow_free_iff (hi : Inv h used)
    (hlt : h.reserveOrder < z.maxOrder) :
    (h.grow hlt).Free b
      ↔ b = ⟨z.base + 2 ^ h.reserveOrder, h.reserveOrder⟩
        ∨ (h.Free b ∧ b ≠ h.reserve) := by
  obtain ⟨y, j⟩ := b
  unfold Heap.Free Heap.reserve
  by_cases hj : j = h.reserveOrder
  · subst hj
    rw [Heap.free_grow_self, hi.top_tail, List.mem_singleton]
    rcases hi.top_list with hl | hl <;> simp [hl]
  · simp only [Heap.free_grow_of_ne hlt hj]
    simp [hj]

theorem grow_ok (hlt : h.reserveOrder < z.maxOrder) (hb : h.Ok b) :
    (h.grow hlt).Ok b :=
  ⟨hb.min_le, hb.aligned,
    hb.within.trans (Block.lower_within z.base h.reserveOrder)⟩

/-- The new upper half is a block of the grown heap. -/
theorem grow_new_ok (hlt : h.reserveOrder < z.maxOrder) :
    (h.grow hlt).Ok ⟨z.base + 2 ^ h.reserveOrder, h.reserveOrder⟩ :=
  ⟨h.min_le, Nat.dvd_add h.reserve_aligned (Nat.dvd_refl _),
    Block.upper_within z.base h.reserveOrder⟩

/-- The new upper half is apart from everything in the old reserve. -/
theorem Heap.Ok.apart_new (hb : h.Ok b) :
    b.Apart ⟨z.base + 2 ^ h.reserveOrder, h.reserveOrder⟩ :=
  (Block.halves_apart z.base h.reserveOrder).of_within hb.within

/-- Grow keeps the invariant. -/
theorem Inv.grow (hi : Inv h used) (hlt : h.reserveOrder < z.maxOrder) :
    Inv (h.grow hlt) used := by
  constructor
  · exact fun b hb => grow_ok hlt (hi.used_ok b hb)
  · intro b hb
    rcases (grow_free_iff hi hlt).mp hb with rfl | ⟨hb, -⟩
    · exact grow_new_ok hlt
    · exact grow_ok hlt (hi.free_ok b hb)
  · exact hi.used_apart
  · intro b hb c hc
    rcases (grow_free_iff hi hlt).mp hc with rfl | ⟨hc, -⟩
    · exact (hi.used_ok b hb).apart_new
    · exact hi.mixed_apart b hb c hc
  · intro b c hb hc hne
    rcases (grow_free_iff hi hlt).mp hb with rfl | ⟨hb, -⟩
    · rcases (grow_free_iff hi hlt).mp hc with rfl | ⟨hc, -⟩
      · exact absurd rfl hne
      · exact (hi.free_ok c hc).apart_new.symm
    · rcases (grow_free_iff hi hlt).mp hc with rfl | ⟨hc, -⟩
      · exact (hi.free_ok b hb).apart_new
      · exact hi.free_apart b c hb hc hne
  · intro j
    by_cases hj : j = h.reserveOrder
    · rw [hj, Heap.free_grow_self, hi.top_tail]
      exact List.nodup_cons.mpr ⟨List.not_mem_nil, List.nodup_nil⟩
    · rw [Heap.free_grow_of_ne hlt hj]
      exact hi.nodup j

/-- Growth creates no free buddy pair: the new upper half stands alone
on its list. -/
theorem Inv.doubleReserve (hi : Inv h used) :
    Inv h.doubleReserve used := by
  unfold Heap.doubleReserve
  split
  case isTrue hlt => exact hi.grow hlt
  case isFalse => exact hi

theorem Inv.grow_noPair (hi : Inv h used)
    (hlt : h.reserveOrder < z.maxOrder) (hn : NoPair h) :
    NoPair (h.grow hlt) := by
  intro j hj y hy
  by_cases hjr : j = h.reserveOrder
  · subst hjr
    rw [Heap.free_grow_self, hi.top_tail, List.mem_singleton] at hy ⊢
    rw [hy, xor_two_pow_of_add
      (Nat.dvd_trans (Nat.pow_dvd_pow 2 hlt) z.base_dvd)]
    have := Nat.two_pow_pos h.reserveOrder
    omega
  · rw [Heap.free_grow_of_ne hlt hjr] at hy ⊢
    have hj' : j < h.reserveOrder + 1 := hj
    exact hn j (by omega) y hy

-- =============================================================== coverage

/-- Growth from `h` to `h'` dropped the block at `x`: the old reserve
was on its list as one block. -/
def Dropped (h h' : Heap z) (x : Nat) : Prop :=
  h.reserveOrder < h'.reserveOrder ∧ h.free h.reserveOrder ≠ []
    ∧ h.reserve.Has x

/-- The address lies in the part of the reserve that `h'` has and `h`
has not. -/
def Fresh (h h' : Heap z) (x : Nat) : Prop :=
  z.base + 2 ^ h.reserveOrder ≤ x ∧ x < z.base + 2 ^ h'.reserveOrder

/-- The account of one operation: see the module doc. -/
structure Grows (h : Heap z) (used : List Block) (h' : Heap z)
    (used' : List Block) : Prop where
  inv : Inv h' used'
  reserve_le : h.reserveOrder ≤ h'.reserveOrder
  covered : ∀ x, Covered h' used' x
    ↔ (Covered h used x ∧ ¬ Dropped h h' x) ∨ Fresh h h' x

/-- Doing nothing. -/
theorem Grows.refl (hi : Inv h used) : Grows h used h used := by
  refine ⟨hi, Nat.le_refl _, fun x => ?_⟩
  unfold Dropped Fresh
  constructor
  · exact fun hc => Or.inl ⟨hc, fun ⟨hlt, _⟩ => absurd hlt (by omega)⟩
  · intro hor
    rcases hor with ⟨hc, -⟩ | hf
    · exact hc
    · omega

/-- A further move that leaves the reserve and the covered set alone. -/
theorem Grows.move (hg : Grows h used h₁ used)
    (hi : Inv h' used') (hr : h'.reserveOrder = h₁.reserveOrder)
    (hc : ∀ x, Covered h' used' x ↔ Covered h₁ used x) :
    Grows h used h' used' := by
  refine ⟨hi, hr ▸ hg.reserve_le, fun x => ?_⟩
  rw [hc, hg.covered]
  unfold Dropped Fresh
  rw [hr]

/-- Covered addresses under growth by one step. -/
theorem covered_grow (hi : Inv h used)
    (hlt : h.reserveOrder < z.maxOrder) :
    Covered (h.grow hlt) used x
      ↔ (Covered h used x
          ∧ ¬ (h.free h.reserveOrder ≠ [] ∧ h.reserve.Has x))
        ∨ Block.Has ⟨z.base + 2 ^ h.reserveOrder, h.reserveOrder⟩ x := by
  have htop : h.free h.reserveOrder ≠ [] → h.Free h.reserve := by
    intro hne
    have hl := hi.top_list.resolve_left hne
    show z.base ∈ h.free h.reserveOrder
    rw [hl]
    exact List.mem_singleton_self _
  constructor
  · intro hor
    rcases hor with ⟨b, hb, hx⟩ | ⟨b, hb, hx⟩
    · refine Or.inl ⟨Or.inl ⟨b, hb, hx⟩, fun ⟨hne, hr⟩ => ?_⟩
      exact (hi.mixed_apart b hb _ (htop hne)).not_has hx hr
    · rcases (grow_free_iff hi hlt).mp hb with rfl | ⟨hb, hbne⟩
      · exact Or.inr hx
      · refine Or.inl ⟨Or.inr ⟨b, hb, hx⟩, fun ⟨hne, hr⟩ => ?_⟩
        exact (hi.free_apart b _ hb (htop hne) hbne).not_has hx hr
  · intro hor
    rcases hor with ⟨⟨b, hb, hx⟩ | ⟨b, hb, hx⟩, hnd⟩ | hx
    · exact Or.inl ⟨b, hb, hx⟩
    · refine Or.inr ⟨b, (grow_free_iff hi hlt).mpr (Or.inr ⟨hb, ?_⟩), hx⟩
      intro heq
      subst heq
      exact hnd ⟨List.ne_nil_of_mem hb, hx⟩
    · exact Or.inr ⟨_, (grow_free_iff hi hlt).mpr (Or.inl rfl), hx⟩

/-- One growth step, then an operation on the grown heap: only the first
step can drop anything, since the new top list is empty. -/
theorem Grows.of_grow (hi : Inv h used)
    (hlt : h.reserveOrder < z.maxOrder)
    (hg : Grows (h.grow hlt) used h' used') : Grows h used h' used' := by
  have hle : h.reserveOrder + 1 ≤ h'.reserveOrder := hg.reserve_le
  have htop : (h.grow hlt).free (h.reserveOrder + 1) = [] := by
    rw [Heap.free_grow_of_ne hlt (by omega)]
    exact hi.free_above (by omega)
  refine ⟨hg.inv, by omega, fun x => ?_⟩
  rw [hg.covered, covered_grow hi hlt]
  have hnd : ¬ Dropped (h.grow hlt) h' x := fun hd => hd.2.1 htop
  have hpow : 2 ^ (h.reserveOrder + 1) ≤ 2 ^ h'.reserveOrder :=
    Nat.pow_le_pow_right (by omega) hle
  have hfresh : Fresh h h' x
      ↔ Block.Has ⟨z.base + 2 ^ h.reserveOrder, h.reserveOrder⟩ x
        ∨ Fresh (h.grow hlt) h' x := by
    show _ ↔ (z.base + 2 ^ h.reserveOrder ≤ x
        ∧ x < z.base + 2 ^ h.reserveOrder + 2 ^ h.reserveOrder)
      ∨ (z.base + 2 ^ (h.reserveOrder + 1) ≤ x
        ∧ x < z.base + 2 ^ h'.reserveOrder)
    unfold Fresh
    rw [pow_succ] at hpow ⊢
    omega
  have hdrop : Dropped h h' x
      ↔ h.free h.reserveOrder ≠ [] ∧ h.reserve.Has x :=
    ⟨fun hd => hd.2, fun hd => ⟨by omega, hd⟩⟩
  rw [hfresh, hdrop]
  tauto

/-- Every address of the reserve is covered. -/
def Full (h : Heap z) (used : List Block) : Prop :=
  ∀ x, h.reserve.Has x → Covered h used x

/-- An operation keeps the reserve covered exactly when it was and
nothing was dropped: what is lost once stays lost. -/
theorem Grows.full_iff (hg : Grows h used h' used') :
    Full h' used' ↔ Full h used ∧ ∀ x, ¬ Dropped h h' x := by
  have hpow : 2 ^ h.reserveOrder ≤ 2 ^ h'.reserveOrder :=
    Nat.pow_le_pow_right (by omega) hg.reserve_le
  have hold : ∀ x, h.reserve.Has x → h'.reserve.Has x ∧ ¬ Fresh h h' x := by
    intro x hx
    obtain ⟨h1, h2⟩ := hx
    have h2' : x < z.base + 2 ^ h.reserveOrder := h2
    refine ⟨⟨h1, ?_⟩, fun hf => ?_⟩
    · show x < z.base + 2 ^ h'.reserveOrder
      omega
    · have := hf.1
      omega
  constructor
  · intro hf
    refine ⟨fun x hx => ?_, fun x hd => ?_⟩
    · obtain ⟨hx', hnf⟩ := hold x hx
      exact (((hg.covered x).mp (hf x hx')).resolve_right hnf).1
    · obtain ⟨hx', hnf⟩ := hold x hd.2.2
      exact (((hg.covered x).mp (hf x hx')).resolve_right hnf).2 hd
  · intro hand x hx
    obtain ⟨hf, hd⟩ := hand
    obtain ⟨h1, h2⟩ := hx
    refine (hg.covered x).mpr ?_
    by_cases hx : x < z.base + 2 ^ h.reserveOrder
    · exact Or.inl ⟨hf x ⟨h1, hx⟩, hd x⟩
    · exact Or.inr ⟨Nat.not_lt.mp hx, h2⟩

-- ======================================================== the growth loop

/-- The growth loop is a sequence of growth steps. -/
theorem reserveLoop_grows (hi : Inv h used)
    (hl : Heap.reserveLoop order fuel h = some h') :
    Grows h used h' used := by
  induction fuel generalizing h with
  | zero => cases hl
  | succ fuel ih =>
      simp only [Heap.reserveLoop] at hl
      split at hl
      case isFalse =>
        cases hl
        exact Grows.refl hi
      case isTrue =>
        split at hl
        case isTrue => cases hl
        case isFalse =>
          unfold Heap.doubleReserve at hl
          split at hl
          case isTrue hlt => exact Grows.of_grow hi hlt (ih (hi.grow hlt) hl)
          case isFalse => exact ih hi hl

/-- The growth loop keeps the absence of free buddy pairs. -/
theorem reserveLoop_noPair (hi : Inv h used) (hn : NoPair h)
    (hl : Heap.reserveLoop order fuel h = some h') : NoPair h' := by
  induction fuel generalizing h with
  | zero => cases hl
  | succ fuel ih =>
      simp only [Heap.reserveLoop] at hl
      split at hl
      case isFalse =>
        cases hl
        exact hn
      case isTrue =>
        split at hl
        case isTrue => cases hl
        case isFalse =>
          unfold Heap.doubleReserve at hl
          split at hl
          case isTrue hlt =>
            exact ih (hi.grow hlt) (hi.grow_noPair hlt hn) hl
          case isFalse => exact ih hi hn hl

/-- A loop that has something to do ends one order above the request,
with the block it was after on the list. -/
theorem reserveLoop_reached (hle : h.reserveOrder ≤ order)
    (hl : Heap.reserveLoop order fuel h = some h') :
    h'.reserveOrder = order + 1 ∧ h'.free order ≠ [] := by
  induction fuel generalizing h with
  | zero => cases hl
  | succ fuel ih =>
      simp only [Heap.reserveLoop, if_pos hle] at hl
      split at hl
      case isTrue => cases hl
      case isFalse =>
        unfold Heap.doubleReserve at hl
        split at hl
        case isFalse => exact ih hle hl
        case isTrue hlt =>
          by_cases heq : h.reserveOrder = order
          · -- the step just made is the last one
            cases fuel with
            | zero => cases hl
            | succ fuel =>
                have hr : (h.grow hlt).reserveOrder = order + 1 :=
                  congrArg (· + 1) heq
                rw [Heap.reserveLoop, if_neg (by omega)] at hl
                cases hl
                refine ⟨hr, ?_⟩
                rw [← heq, Heap.free_grow_self]
                exact List.cons_ne_nil _ _
          · refine ih ?_ hl
            show h.reserveOrder + 1 ≤ order
            omega

/-- A loop below the reserve order has nothing to do. -/
theorem reserveLoop_idle (hlt : order < h.reserveOrder)
    (hl : Heap.reserveLoop order fuel h = some h') : h' = h := by
  cases fuel with
  | zero => cases hl
  | succ fuel =>
      rw [Heap.reserveLoop, if_neg (by omega)] at hl
      cases hl
      rfl

-- =========================================================== buddy_alloc

/-- The three ways through `buddy_alloc`: the list has a block; the
reserve grows past the request; a larger block is split, with the heap
untouched before the inner call. -/
theorem alloc_cases (ha : Heap.alloc (fuel + 1) order h = some (a, h')) :
    (∃ rest, h.free order = a :: rest ∧ h' = h.setFree order rest)
      ∨ (h.free order = [] ∧ h.reserveOrder ≤ order
        ∧ ∃ h₁ rest, Heap.reserveLoop order fuel h = some h₁
          ∧ h₁.free order = a :: rest ∧ h' = h₁.setFree order rest)
      ∨ (h.free order = [] ∧ order < h.reserveOrder
        ∧ ∃ h₁, Heap.alloc fuel (order + 1) h = some (a, h₁)
          ∧ h' = h₁.give order (a ^^^ 2 ^ order)) := by
  simp only [Heap.alloc] at ha
  cases hfree : h.free order with
  -- there is a block in the list
  | cons y rest =>
      rw [if_neg (by simp [hfree])] at ha
      simp only [Option.bind_eq_bind, Option.bind_some, hfree,
        Option.some.injEq, Prod.mk.injEq] at ha
      obtain ⟨rfl, rfl⟩ := ha
      exact Or.inl ⟨rest, rfl, rfl⟩
  | nil =>
      rw [if_pos hfree] at ha
      cases hl : Heap.reserveLoop order fuel h with
      | none =>
          rw [hl] at ha
          cases ha
      | some h₁ =>
          rw [hl] at ha
          simp only [Option.bind_eq_bind, Option.bind_some] at ha
          right
          -- growth has made one, or the next list is asked
          by_cases hle : h.reserveOrder ≤ order
          · left
            obtain ⟨-, hne⟩ := reserveLoop_reached hle hl
            cases hfree₁ : h₁.free order with
            | nil => exact absurd hfree₁ hne
            | cons y rest =>
                simp only [hfree₁, Option.some.injEq, Prod.mk.injEq] at ha
                obtain ⟨rfl, rfl⟩ := ha
                exact ⟨rfl, hle, h₁, rest, rfl, hfree₁, rfl⟩
          · right
            obtain rfl := reserveLoop_idle (Nat.not_le.mp hle) hl
            simp only [hfree] at ha
            cases hr : Heap.alloc fuel (order + 1) h₁ with
            | none =>
                rw [hr] at ha
                cases ha
            | some r =>
                obtain ⟨out, h₂⟩ := r
                rw [hr] at ha
                simp only [Option.bind_some, Option.some.injEq,
                  Prod.mk.injEq] at ha
                obtain ⟨rfl, rfl⟩ := ha
                exact ⟨rfl, Nat.not_le.mp hle, h₂, rfl, rfl⟩

/-- Taking a block moves it from the free side to the used side. -/
theorem covered_take (hi : Inv h used) (ha : a ∈ h.free k) :
    Covered (h.take k a) (⟨a, k⟩ :: used) x ↔ Covered h used x := by
  have hfree : ∀ c, (h.take k a).Free c ↔ h.Free c ∧ c ≠ ⟨a, k⟩ :=
    fun c => Heap.take_free_iff (hi.nodup k)
  constructor
  · intro hor
    rcases hor with ⟨b, hb, hx⟩ | ⟨b, hb, hx⟩
    · rcases List.mem_cons.mp hb with rfl | hb
      · exact Or.inr ⟨⟨a, k⟩, ha, hx⟩
      · exact Or.inl ⟨b, hb, hx⟩
    · exact Or.inr ⟨b, ((hfree b).mp hb).1, hx⟩
  · intro hor
    rcases hor with ⟨b, hb, hx⟩ | ⟨b, hb, hx⟩
    · exact Or.inl ⟨b, List.mem_cons_of_mem _ hb, hx⟩
    · by_cases hne : b = ⟨a, k⟩
      · exact Or.inl ⟨b, hne ▸ List.mem_cons_self, hx⟩
      · exact Or.inr ⟨b, (hfree b).mpr ⟨hb, hne⟩, hx⟩

/-- Giving a block back moves it from the used side to the free side. -/
theorem covered_give :
    Covered (h.give k a) used x ↔ Covered h (⟨a, k⟩ :: used) x := by
  constructor
  · intro hor
    rcases hor with ⟨b, hb, hx⟩ | ⟨b, hb, hx⟩
    · exact Or.inl ⟨b, List.mem_cons_of_mem _ hb, hx⟩
    · rcases Heap.give_free_iff.mp hb with rfl | hb
      · exact Or.inl ⟨_, List.mem_cons_self, hx⟩
      · exact Or.inr ⟨b, hb, hx⟩
  · intro hor
    rcases hor with ⟨b, hb, hx⟩ | ⟨b, hb, hx⟩
    · rcases List.mem_cons.mp hb with rfl | hb
      · exact Or.inr ⟨_, Heap.give_free_iff.mpr (Or.inl rfl), hx⟩
      · exact Or.inl ⟨b, hb, hx⟩
    · exact Or.inr ⟨b, Heap.give_free_iff.mpr (Or.inr hb), hx⟩

/-- The order of what is in hand does not matter to coverage. -/
theorem covered_perm (hp : used.Perm used') :
    Covered h used x ↔ Covered h used' x := by
  unfold Covered
  simp only [hp.mem_iff]

/-- Two halves in hand cover what their block does. -/
theorem covered_halves :
    Covered h (⟨p, k⟩ :: ⟨p + 2 ^ k, k⟩ :: used) x
      ↔ Covered h (⟨p, k + 1⟩ :: used) x := by
  unfold Covered
  simp only [List.exists_mem_cons_iff, Block.has_succ_iff, or_assoc]

/-- `buddy_alloc` hands out a block and keeps the account. -/
theorem alloc_grows (hi : Inv h used) (hmin : z.minOrder ≤ order)
    (ha : Heap.alloc fuel order h = some (a, h')) :
    Grows h used h' (⟨a, order⟩ :: used) := by
  induction fuel generalizing order h' with
  | zero => cases ha
  | succ fuel ih =>
      rcases alloc_cases ha with ⟨rest, hfree, rfl⟩
        | ⟨-, -, h₁, rest, hl, hfree, rfl⟩ | ⟨-, -, h₁, hr, rfl⟩
      · -- the list has a block
        have hmem : a ∈ h.free order := by simp [hfree]
        rw [Heap.setFree_tail_eq_take hfree]
        exact (Grows.refl hi).move (hi.take hmem) rfl
          fun x => covered_take hi hmem
      · -- the reserve grew past the request
        have hg := reserveLoop_grows hi hl
        have hmem : a ∈ h₁.free order := by simp [hfree]
        rw [Heap.setFree_tail_eq_take hfree]
        exact hg.move (hg.inv.take hmem) rfl
          fun x => covered_take hg.inv hmem
      · -- a larger block is split and its upper half given back
        have hg := ih (Nat.le_succ_of_le hmin) hr
        have hok := hg.inv.used_ok ⟨a, order + 1⟩ (by simp)
        have hd : 2 ^ (order + 1) ∣ a := hok.aligned
        rw [xor_two_pow_of_dvd hd]
        have hsw : (⟨a, order⟩ :: ⟨a + 2 ^ order, order⟩ :: used).Perm
            (⟨a + 2 ^ order, order⟩ :: ⟨a, order⟩ :: used) :=
          List.Perm.swap _ _ _
        refine ⟨((hg.inv.split hmin).perm hsw).give, hg.reserve_le,
          fun x => ?_⟩
        rw [covered_give, ← covered_perm hsw, covered_halves, hg.covered]
        rfl

/-- Below the request and below the reserve, `buddy_alloc` changes no
list. -/
theorem alloc_free_below (ha : Heap.alloc fuel order h = some (a, h'))
    (hk : k < order) (hkr : k < h.reserveOrder) :
    h'.free k = h.free k := by
  induction fuel generalizing order h' with
  | zero => cases ha
  | succ fuel ih =>
      rcases alloc_cases ha with ⟨rest, -, rfl⟩
        | ⟨-, -, h₁, rest, hl, -, rfl⟩ | ⟨-, -, h₁, hr, rfl⟩
      · exact Heap.free_setFree_of_ne (by omega) rest
      · rw [Heap.free_setFree_of_ne (by omega)]
        exact reserveLoop_free_below hl hkr
      · unfold Heap.give
        rw [Heap.free_setFree_of_ne (by omega)]
        -- the half that is given back goes into the list of `order` itself
        exact ih hr (by omega)
where
  /-- The growth loop only touches lists from the reserve order on. -/
  reserveLoop_free_below {order fuel : Nat} {h h' : Heap z}
      (hl : Heap.reserveLoop order fuel h = some h')
      (hkr : k < h.reserveOrder) : h'.free k = h.free k := by
    induction fuel generalizing h with
    | zero => cases hl
    | succ fuel ih =>
        simp only [Heap.reserveLoop] at hl
        split at hl
        case isFalse =>
          cases hl
          rfl
        case isTrue =>
          split at hl
          case isTrue => cases hl
          case isFalse =>
            unfold Heap.doubleReserve at hl
            split at hl
            case isFalse => exact ih hl hkr
            case isTrue hlt =>
              rw [ih hl (Nat.lt_succ_of_lt hkr)]
              exact Heap.free_grow_of_ne hlt (by omega)

/-- `buddy_alloc` has one answer, whatever the fuel. -/
theorem alloc_unique {fuel' : Nat} {r r' : Nat × Heap z}
    (hr : Heap.alloc fuel order h = some r)
    (hr' : Heap.alloc fuel' order h = some r') : r = r' := by
  induction fuel generalizing fuel' order h r r' with
  | zero => cases hr
  | succ fuel ih =>
      cases fuel' with
      | zero => cases hr'
      | succ fuel' =>
          obtain ⟨a, h₁⟩ := r
          obtain ⟨a', h₁'⟩ := r'
          rcases alloc_cases hr with ⟨rest, hfree, rfl⟩
            | ⟨hnil, hle, g, rest, hl, hfree, rfl⟩ | ⟨hnil, hlt, g, hg, rfl⟩
          -- by different ways, the lists or the orders would differ
          all_goals
            rcases alloc_cases hr' with ⟨rest', hfree', rfl⟩
              | ⟨hnil', hle', g', rest', hl', hfree', rfl⟩
              | ⟨hnil', hlt', g', hg', rfl⟩
          · obtain ⟨rfl, rfl⟩ := List.cons.inj (hfree.symm.trans hfree')
            rfl
          · exact absurd (hfree.symm.trans hnil') (List.cons_ne_nil _ _)
          · exact absurd (hfree.symm.trans hnil') (List.cons_ne_nil _ _)
          · exact absurd (hfree'.symm.trans hnil) (List.cons_ne_nil _ _)
          · obtain rfl := reserveLoop_unique hl hl'
            obtain ⟨rfl, rfl⟩ := List.cons.inj (hfree.symm.trans hfree')
            rfl
          · omega
          · exact absurd (hfree'.symm.trans hnil) (List.cons_ne_nil _ _)
          · omega
          · obtain ⟨rfl, rfl⟩ := Prod.mk.inj (ih hg hg')
            rfl
where
  /-- So does its growth loop. -/
  reserveLoop_unique {order fuel fuel' : Nat} {h g g' : Heap z}
      (hl : Heap.reserveLoop order fuel h = some g)
      (hl' : Heap.reserveLoop order fuel' h = some g') : g = g' := by
    induction fuel generalizing fuel' h with
    | zero => cases hl
    | succ fuel ih =>
        cases fuel' with
        | zero => cases hl'
        | succ fuel' =>
            simp only [Heap.reserveLoop] at hl hl'
            split at hl
            case isFalse hge =>
              rw [if_neg hge] at hl'
              exact Option.some.inj (hl.symm.trans hl')
            case isTrue hle =>
              rw [if_pos hle] at hl'
              split at hl
              case isTrue => cases hl
              case isFalse hmax =>
                rw [if_neg hmax] at hl'
                exact ih hl hl'

/-- Taking a block off a list creates no free buddy pair. -/
theorem noPair_take (hn : NoPair h) : NoPair (h.take k a) := by
  intro j hj y hy hm
  unfold Heap.take at hy hm
  by_cases hjk : j = k
  · subst hjk
    rw [Heap.free_setFree_self] at hy hm
    exact hn j hj y (List.mem_of_mem_erase hy) (List.mem_of_mem_erase hm)
  · rw [Heap.free_setFree_of_ne hjk] at hy hm
    exact hn j hj y hy hm

/-- Giving back a block whose buddy is not free creates none. -/
theorem noPair_give (hn : NoPair h)
    (hb : a ^^^ 2 ^ k ∉ h.free k) : NoPair (h.give k a) := by
  intro j hj y hy hm
  unfold Heap.give at hy hm
  by_cases hjk : j = k
  · subst hjk
    rw [Heap.free_setFree_self] at hy hm
    rcases List.mem_cons.mp hy with rfl | hy
    · rcases List.mem_cons.mp hm with hm | hm
      · exact xor_two_pow_ne _ _ hm
      · exact hb hm
    · rcases List.mem_cons.mp hm with hm | hm
      · refine hb ?_
        rw [← hm, Nat.xor_assoc, Nat.xor_self, Nat.xor_zero]
        exact hy
      · exact hn j hj y hy hm
  · rw [Heap.free_setFree_of_ne hjk] at hy hm
    exact hn j hj y hy hm

/-- `buddy_alloc` creates no free buddy pair. -/
theorem alloc_noPair (hi : Inv h used) (hn : NoPair h)
    (hmin : z.minOrder ≤ order)
    (ha : Heap.alloc fuel order h = some (a, h')) : NoPair h' := by
  induction fuel generalizing order h' with
  | zero => cases ha
  | succ fuel ih =>
      rcases alloc_cases ha with ⟨rest, hfree, rfl⟩
        | ⟨-, -, h₁, rest, hl, hfree, rfl⟩ | ⟨hnil, hlt, h₁, hr, rfl⟩
      · rw [Heap.setFree_tail_eq_take hfree]
        exact noPair_take hn
      · rw [Heap.setFree_tail_eq_take hfree]
        exact noPair_take (reserveLoop_noPair hi hn hl)
      · refine noPair_give (ih (Nat.le_succ_of_le hmin) hr) ?_
        -- the list was empty and the inner call has not touched it
        rw [alloc_free_below hr (Nat.lt_succ_self _) hlt, hnil]
        exact List.not_mem_nil

/-- With a block of the reserve on some list from the request up, the
reserve does not grow. -/
theorem alloc_reserve_eq (ha : Heap.alloc fuel order h = some (a, h'))
    (hok : order ≤ k) (hkr : k ≤ h.reserveOrder)
    (hk : h.free k ≠ []) : h'.reserveOrder = h.reserveOrder := by
  induction fuel generalizing order h' with
  | zero => cases ha
  | succ fuel ih =>
      rcases alloc_cases ha with ⟨rest, -, rfl⟩
        | ⟨hnil, hle, h₁, rest, hl, -, rfl⟩ | ⟨hnil, -, h₁, hr, rfl⟩
      · rfl
      · obtain rfl : order = k := by omega
        exact absurd hnil hk
      · show h₁.reserveOrder = h.reserveOrder
        refine ih hr ?_
        rcases Nat.lt_or_eq_of_le hok with hlt | rfl
        · omega
        · exact absurd hnil hk

/-- A request above the reserve grows it. -/
theorem alloc_reserve_lt (hi : Inv h used)
    (ha : Heap.alloc fuel order h = some (a, h'))
    (hlt : h.reserveOrder < order) : h.reserveOrder < h'.reserveOrder := by
  cases fuel with
  | zero => cases ha
  | succ fuel =>
      have hnil := hi.free_above hlt
      rcases alloc_cases ha with ⟨rest, hfree, rfl⟩
        | ⟨-, hle, h₁, rest, hl, -, rfl⟩ | ⟨-, hlt', h₁, hr, rfl⟩
      · rw [hnil] at hfree
        cases hfree
      · show h.reserveOrder < h₁.reserveOrder
        rw [(reserveLoop_reached hle hl).1]
        omega
      · omega

/-- Growth drops the old reserve exactly when the request is above the
reserve and the reserve is free as one block. -/
theorem alloc_dropped_iff (hi : Inv h used)
    (ha : Heap.alloc fuel order h = some (a, h')) :
    Dropped h h' x ↔ (h.reserveOrder < order
      ∧ h.free h.reserveOrder ≠ []) ∧ h.reserve.Has x := by
  constructor
  · intro hand
    obtain ⟨hlt, hne, hx⟩ := hand
    refine ⟨⟨?_, hne⟩, hx⟩
    by_contra hle
    have := alloc_reserve_eq ha (Nat.not_lt.mp hle) (Nat.le_refl _) hne
    omega
  · intro hand
    obtain ⟨⟨hlt, hne⟩, hx⟩ := hand
    exact ⟨alloc_reserve_lt hi ha hlt, hne, hx⟩

-- ============================================================ buddy_free

/-- The half that a merge continues with, and the order it does so at. -/
theorem merge_facts (hi : Inv h (⟨addr, k⟩ :: used))
    (hb : addr ^^^ 2 ^ k ∈ h.free k) :
    k < h.reserveOrder ∧ 2 ^ (k + 1) ∣ min addr (addr ^^^ 2 ^ k)
      ∧ ([⟨addr ^^^ 2 ^ k, k⟩, ⟨addr, k⟩] : List Block).Perm
        [⟨min addr (addr ^^^ 2 ^ k), k⟩,
          ⟨min addr (addr ^^^ 2 ^ k) + 2 ^ k, k⟩] := by
  have hok := hi.used_ok ⟨addr, k⟩ (by simp)
  have hbok := hi.free_ok ⟨addr ^^^ 2 ^ k, k⟩ hb
  have hkr : k ≤ h.reserveOrder := hok.order_le
  have hpos := Nat.two_pow_pos k
  have hlt : k < h.reserveOrder := by
    rcases Nat.lt_or_eq_of_le hkr with hlt | rfl
    · exact hlt
    · -- at the top order both would be the reserve itself
      exact absurd (hbok.eq_base.trans hok.eq_base.symm)
        (xor_two_pow_ne _ _)
  refine ⟨hlt, ?_⟩
  obtain ⟨p, hp, -, ⟨h1, h2⟩ | ⟨h1, h2⟩⟩ := buddy_cases (w := 32)
    hok.aligned (show k < 32 by have := h.le_max; have := z.max_lt; omega)
    hok.addr_lt
  · simp only at h1 h2
    have hmin : min addr (addr ^^^ 2 ^ k) = addr := by omega
    rw [hmin, h2, h1]
    exact ⟨hp, List.Perm.swap _ _ _⟩
  · simp only at h1 h2
    have hmin : min addr (addr ^^^ 2 ^ k) = p := by omega
    rw [hmin, h2, h1]
    exact ⟨hp, List.Perm.refl _⟩

/-- The state a merge continues with: the merged block in hand. -/
theorem merge_inv (hi : Inv h (⟨addr, k⟩ :: used))
    (hb : addr ^^^ 2 ^ k ∈ h.free k) :
    Inv (h.take k (addr ^^^ 2 ^ k))
      (⟨min addr (addr ^^^ 2 ^ k), k + 1⟩ :: used) := by
  obtain ⟨hlt, hd, hp⟩ := merge_facts hi hb
  exact ((hi.take hb).perm (hp.append_right used)).join hd hlt

/-- A merge covers what was covered. -/
theorem merge_covered (hi : Inv h (⟨addr, k⟩ :: used))
    (hb : addr ^^^ 2 ^ k ∈ h.free k) :
    Covered (h.take k (addr ^^^ 2 ^ k))
        (⟨min addr (addr ^^^ 2 ^ k), k + 1⟩ :: used) x
      ↔ Covered h (⟨addr, k⟩ :: used) x := by
  obtain ⟨-, -, hp⟩ := merge_facts hi hb
  rw [← covered_halves, ← covered_take hi hb]
  exact covered_perm (hp.append_right used).symm

/-- What `buddy_free` keeps. -/
structure Released (h : Heap z) (b : Block) (used : List Block)
    (h' : Heap z) : Prop where
  inv : Inv h' used
  reserve_eq : h'.reserveOrder = h.reserveOrder
  covered : ∀ x, Covered h' used x ↔ Covered h (b :: used) x
  noPair : NoPair h → NoPair h'

/-- `buddy_free` puts the block in hand back. -/
theorem release_spec (hi : Inv h (⟨addr, k⟩ :: used))
    (hr : Heap.release fuel addr k h = some h') :
    Released h ⟨addr, k⟩ used h' := by
  induction fuel generalizing addr k h with
  | zero => cases hr
  | succ fuel ih =>
      simp only [Heap.release] at hr
      split at hr
      case isFalse hb =>
        cases hr
        exact ⟨hi.give, rfl, fun x => covered_give,
          fun hn => noPair_give hn hb⟩
      case isTrue hb =>
        have hrec := ih (merge_inv hi hb) hr
        exact ⟨hrec.inv, hrec.reserve_eq,
          fun x => (hrec.covered x).trans (merge_covered hi hb),
          fun hn => hrec.noPair (noPair_take hn)⟩

/-- `buddy_free` has one answer, whatever the fuel. -/
theorem release_unique {fuel' : Nat}
    (hr : Heap.release fuel addr k h = some h')
    (hr' : Heap.release fuel' addr k h = some h₁) : h' = h₁ := by
  induction fuel generalizing fuel' addr k h with
  | zero => cases hr
  | succ fuel ih =>
      cases fuel' with
      | zero => cases hr'
      | succ fuel' =>
          simp only [Heap.release] at hr hr'
          split at hr
          case isTrue hb =>
            rw [if_pos hb] at hr'
            exact ih hr hr'
          case isFalse hb =>
            rw [if_neg hb] at hr'
            exact Option.some.inj (hr.symm.trans hr')

-- ====================================================== alloc then free

/-- A block comes back to where it was, when its buddy is not free. -/
theorem release_pop {rest : List Nat} (hi : Inv h used) (hn : NoPair h)
    (hfree : h.free k = a :: rest) (n : Nat) :
    Heap.release (n + 1) a k (h.setFree k rest) = some h := by
  have hlist : (h.setFree k rest).free k = rest :=
    Heap.free_setFree_self k rest
  have hbuddy : a ^^^ 2 ^ k ∉ rest := by
    intro hm
    have hmem : a ^^^ 2 ^ k ∈ h.free k := hfree ▸ List.mem_cons_of_mem a hm
    have hkr := (hi.free_ok ⟨a, k⟩ (by simp [Heap.Free, hfree])).order_le
    rcases Nat.lt_or_eq_of_le hkr with hlt | heq
    · exact hn k hlt a (by simp [hfree]) hmem
    · -- the top list holds nothing but the reserve
      have htop := hi.top_tail
      simp only at heq
      rw [← heq, hfree, List.tail_cons] at htop
      rw [htop] at hm
      cases hm
  have hgive : (h.setFree k rest).give k a = h := by
    unfold Heap.give
    rw [hlist, ← hfree]
    unfold Heap.setFree
    simp only [Function.update_idem, Function.update_eq_self]
  unfold Heap.release
  rw [hlist, if_neg hbuddy, hgive]

/-- A split comes undone: the half just given back is the buddy of the
one in hand, and with it gone the list is as empty as it was. -/
theorem release_split (hnil : h.free k = []) (ha : 2 ^ (k + 1) ∣ a)
    (n : Nat) :
    Heap.release (n + 1) a k (h.give k (a ^^^ 2 ^ k))
      = Heap.release n a (k + 1) h := by
  have hlist : (h.give k (a ^^^ 2 ^ k)).free k = [a ^^^ 2 ^ k] := by
    unfold Heap.give
    rw [Heap.free_setFree_self, hnil]
  have htake : (h.give k (a ^^^ 2 ^ k)).take k (a ^^^ 2 ^ k) = h := by
    unfold Heap.take
    rw [hlist, List.erase_cons_head, ← hnil]
    unfold Heap.give Heap.setFree
    simp only [Function.update_idem, Function.update_eq_self]
  have hmin : min a (a ^^^ 2 ^ k) = a := by
    rw [xor_two_pow_of_dvd ha]
    exact Nat.min_eq_left (Nat.le_add_right _ _)
  have hmem : a ^^^ 2 ^ k ∈ (h.give k (a ^^^ 2 ^ k)).free k := by
    rw [hlist]
    exact List.mem_singleton_self _
  rw [Heap.release, if_pos hmem, hmin, htake]

/-- `buddy_free` undoes a `buddy_alloc` that has not grown the reserve:
every list is what it was, in the same order. -/
theorem release_alloc (hi : Inv h used) (hn : NoPair h)
    (hmin : z.minOrder ≤ order)
    (ha : Heap.alloc fuel order h = some (a, h'))
    (hr : h'.reserveOrder = h.reserveOrder) :
    Heap.release fuel a order h' = some h := by
  induction fuel generalizing order h' with
  | zero => cases ha
  | succ fuel ih =>
      rcases alloc_cases ha with ⟨rest, hfree, rfl⟩
        | ⟨-, hle, h₁, rest, hl, -, rfl⟩ | ⟨hnil, hlt, h₁, hrec, rfl⟩
      · exact release_pop hi hn hfree fuel
      · -- the loop ends with a larger reserve
        have hgrown := (reserveLoop_reached hle hl).1
        have hsame : h₁.reserveOrder = h.reserveOrder := hr
        omega
      · have hmin' := Nat.le_succ_of_le hmin
        have hd : 2 ^ (order + 1) ∣ a :=
          ((alloc_grows hi hmin' hrec).inv.used_ok ⟨a, order + 1⟩
            (by simp)).aligned
        have hnil₁ : h₁.free order = [] :=
          (alloc_free_below hrec (Nat.lt_succ_self order) hlt).trans hnil
        rw [release_split hnil₁ hd]
        exact ih hmin' hrec hr

end Ntibux.Buddy
