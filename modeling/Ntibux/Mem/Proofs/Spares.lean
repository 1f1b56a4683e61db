/-
The bytes that a call of the heap cannot change.

`alloc` maps pages and writes links, all of it in the zone, so memory
below the zone reads as before (`kheapAlloc_spares`). `free` writes
links only, each the first word of a block, and a block starts at a page
boundary (`kheapFree_spares`): what lies further into a page reads as
before, in the freed block itself too.
-/
import Ntibux.Mem.Proofs.Calls
import Ntibux.Mem.Proofs.Turns

namespace Ntibux

namespace Mem

open Buddy (Zone Heap Inv)

variable {z : Zone} {h h' : Heap z} {m m' m₁ : Mem} {used : List Block}
  {kalloc : Kalloc} {k a v order fuel flags addr size : Nat} {b : Block}
  {P Q : Nat → Prop}

-- ============================================================== the frame

/-- Memory reads as before at `P`. -/
def Spares (P : Nat → Prop) (m m' : Mem) : Prop :=
  ∀ x, P x → m'.bytes x = m.bytes x

namespace Spares

theorem refl (P : Nat → Prop) (m : Mem) : Spares P m m := fun _ _ => rfl

theorem trans (h : Spares P m m₁) (h' : Spares P m₁ m') : Spares P m m' :=
  fun x hx => (h' x hx).trans (h x hx)

theorem mono (h : Spares P m m') (hPQ : ∀ x, Q x → P x) : Spares Q m m' :=
  fun x hx => h x (hPQ x hx)

/-- A word that is spared. -/
theorem load (h : Spares P m m') (ha : ∀ x, a ≤ x → x < a + 4 → P x) :
    m'.load a = m.load a :=
  Bytes.read32_congr fun x h1 h2 => h x (ha x h1 h2)

theorem of_bytes (h : m'.bytes = m.bytes) : Spares P m m' :=
  fun x _ => congrFun h x

theorem store (h : ∀ x, P x → x < a ∨ a + 4 ≤ x) (v : Nat) :
    Spares P m (m.store a v) :=
  fun x hx => Bytes.write32_of_out (h x hx) v

end Spares

/-- A list head is written into the heap's own record. -/
theorem setFreeBlock_bytes (h : m.setFreeBlock k v = .ret m') :
    m'.bytes = m.bytes := by
  unfold setFreeBlock at h
  split at h
  · cases h
    rfl
  · cases h

-- ============================================================== the links

/-- Out of reach of the links: below the zone, or further into a page
than a word. -/
def OffLinks (z : Zone) (x : Nat) : Prop := x < z.base ∨ 4 ≤ x % 4096

/-- A block's link is the first word of a page of the zone. -/
theorem store_spares (hmin : 12 ≤ z.minOrder) (hb : h.Ok b) (v : Nat) :
    Spares (OffLinks z) m (m.store b.addr v) := by
  have hpage : 4096 ∣ b.addr := by
    have h12 : 2 ^ 12 ∣ 2 ^ b.order :=
      Nat.pow_dvd_pow 2 (Nat.le_trans hmin hb.min_le)
    exact Nat.dvd_trans h12 hb.aligned
  have hbase : z.base ≤ b.addr := hb.within.1
  refine .store (fun x hx => ?_) v
  rcases hx with hx | hx
  · exact .inl (by omega)
  · omega

-- ============================================================ buddy_alloc

/-- Growth maps and writes above the old reserve. -/
theorem doubleReserve_spares (hk : kalloc.StopsLocked)
    (hl : m.kheap.locked = true) (hs : Sim z z.maxOrder m h)
    (hr : m.doubleReserve kalloc fuel = .ret m') :
    Spares (· < z.base) m m' := by
  unfold doubleReserve at hr
  rw [hs.maxOrder, hs.reserveOrder] at hr
  split at hr
  case isTrue =>
    cases hr
    exact .refl _ m
  case isFalse hge =>
    have hlt : h.reserveOrder < z.maxOrder := Nat.not_le.mp hge
    rw [← hs.reserveOrder] at hr
    obtain ⟨⟨r, m₁⟩, hmap, hr⟩ := Outcome.bind_eq_ret.mp hr
    have hm := doubleReserve_mapped hk hl hs hlt hmap
    obtain ⟨old, -, hr⟩ := Outcome.bind_eq_ret.mp hr
    obtain ⟨m₂, hset, hr⟩ := Outcome.bind_eq_ret.mp hr
    cases hr
    have hnew := hs.reserveEnd hlt
    rw [← hm.kheap] at hnew
    rw [hnew] at hset
    have hbytes := setFreeBlock_bytes hset
    intro x hx
    have hx' : x < z.base + 2 ^ h.reserveOrder :=
      Nat.lt_of_lt_of_le hx (Nat.le_add_right ..)
    calc m₂.bytes x
        = (m₁.store (z.base + 2 ^ h.reserveOrder) _).bytes x :=
          congrFun hbytes x
      _ = m₁.bytes x := Bytes.write32_of_out (.inl hx') _
      _ = m.bytes x := hm.bytes x (.inl hx')

theorem reserveLoop_spares (hk : kalloc.StopsLocked)
    (hl : m.kheap.locked = true) (hs : Sim z z.maxOrder m h)
    (hi : Inv h used) (hr : reserveLoop kalloc order fuel m = .ret m') :
    Spares (· < z.base) m m' := by
  induction fuel generalizing m h with
  | zero => cases hr
  | succ fuel ih =>
      unfold reserveLoop at hr
      split at hr
      case isFalse =>
        cases hr
        exact .refl _ _
      case isTrue =>
        split at hr
        case isTrue => cases hr
        case isFalse =>
          obtain ⟨m₁, hd, hr⟩ := Outcome.bind_eq_ret.mp hr
          obtain ⟨hs₁, hkept⟩ := doubleReserve_sim hk hl hs hi hd
          have hrest := ih (hkept.locked.trans hl) hs₁ hi.doubleReserve hr
          exact (doubleReserve_spares hk hl hs hd).trans hrest

theorem buddyAlloc_spares (hk : kalloc.StopsLocked)
    (hl : m.kheap.locked = true) (hs : Sim z z.maxOrder m h)
    (hi : Inv h used) (hmin : z.minOrder ≤ order)
    (hmax : order ≤ z.maxOrder)
    (hr : buddyAlloc kalloc fuel order m = .ret (a, m')) :
    Spares (· < z.base) m m' := by
  induction fuel generalizing order a m' with
  | zero => cases hr
  | succ fuel ih =>
      obtain ⟨h', ha, -, -⟩ := buddyAlloc_sim hk hl hs hi hmin hmax hr
      simp only [buddyAlloc, hs.getFreeBlock hmin hmax, Outcome.ret_bind,
        hs.head_eq_zero_iff hmin hmax] at hr
      obtain ⟨m₁, hgrow, hr⟩ := Outcome.bind_eq_ret.mp hr
      rcases Buddy.alloc_cases ha with ⟨rest, hfree, -⟩
        | ⟨hnil, -, h₁, rest, hloop, hfree, -⟩ | ⟨hnil, hlt, h₁, -, -⟩
      · -- popped
        rw [if_neg (by simp [hfree])] at hgrow
        cases hgrow
        obtain ⟨hx, hxne, -⟩ := hs.pop hmin hmax hfree
        rw [hs.getFreeBlock hmin hmax, Outcome.ret_bind, hx, if_pos hxne] at hr
        obtain ⟨m₂, hset, hr⟩ := Outcome.bind_eq_ret.mp hr
        cases hr
        exact .of_bytes (setFreeBlock_bytes hset)
      · -- popped from the grown reserve
        rw [if_pos hnil] at hgrow
        have hspared := reserveLoop_spares hk hl hs hi hgrow
        obtain ⟨h₂, hloop₂, hs₁, -⟩ := reserveLoop_sim hk hl hs hi hgrow
        obtain rfl : h₂ = h₁ := Option.some.inj (hloop₂.symm.trans hloop)
        obtain ⟨hx, hxne, -⟩ := hs₁.pop hmin hmax hfree
        rw [hs₁.getFreeBlock hmin hmax, Outcome.ret_bind, hx,
          if_pos hxne] at hr
        obtain ⟨m₂, hset, hr⟩ := Outcome.bind_eq_ret.mp hr
        cases hr
        exact hspared.trans (.of_bytes (setFreeBlock_bytes hset))
      · -- split off a larger block: the growth loop had nothing to do
        rw [if_pos hnil] at hgrow
        obtain rfl : m = m₁ := by
          cases fuel with
          | zero => cases hgrow
          | succ fuel =>
              unfold reserveLoop at hgrow
              rw [if_neg (by rw [hs.reserveOrder]; omega)] at hgrow
              exact Outcome.ret.inj hgrow
        rw [hs.getFreeBlock hmin hmax, Outcome.ret_bind,
          (hs.head_eq_zero_iff hmin hmax).mpr hnil,
          if_neg (by simp)] at hr
        obtain ⟨⟨out, m₂⟩, hrec, hr⟩ := Outcome.bind_eq_ret.mp hr
        obtain ⟨next, -, hr⟩ := Outcome.bind_eq_ret.mp hr
        obtain ⟨m₃, hset, hr⟩ := Outcome.bind_eq_ret.mp hr
        cases hr
        have hrmax := h.le_max
        have hmin' : z.minOrder ≤ order + 1 := Nat.le_succ_of_le hmin
        have hmax' : order + 1 ≤ z.maxOrder := by omega
        obtain ⟨h₂, ha₂, -, -⟩ :=
          buddyAlloc_sim hk hl hs hi hmin' hmax' hrec
        have hi₂ := (Buddy.alloc_grows hi hmin' ha₂).inv
        have hok := hi₂.used_ok ⟨out, order + 1⟩ (by simp)
        have h32 := z.max_lt
        have hbuddy : out ^^^ shl1 order = out + 2 ^ order := by
          rw [shl1_of_lt (by omega), xor_two_pow_of_dvd hok.aligned]
        have hupper :=
          (hi₂.split hmin).used_ok ⟨out + 2 ^ order, order⟩ (by simp)
        have hstore : Spares (· < z.base) m₂
            (m₂.store (out + 2 ^ order) next) :=
          (store_spares hs.page_le hupper next).mono fun _ hx => .inl hx
        rw [← hbuddy] at hstore
        exact (ih hmin' hmax' hrec).trans
          (hstore.trans (.of_bytes (setFreeBlock_bytes hset)))

/-- `kheap::alloc` changes nothing below the zone. -/
theorem kheapAlloc_spares (hs : Sim z z.maxOrder m h) (hi : Inv h used)
    (ho : IsOrder m.kheap size order) (hmax : order ≤ z.maxOrder)
    (hr : kheapAlloc fuel size flags m = .ret (a, m')) :
    Spares (· < z.base) m m' := by
  have hmin := ho.spec.1
  rw [hs.minOrder] at hmin
  obtain ⟨n, m₁, hb, rfl⟩ := ho.kheapAlloc_eq_ret hr
  have hs₁ := hs.setLock true
  have hk := kheapAlloc_stopsLocked n
  have hspared : Spares (· < z.base) (m.setLock true) m₁ :=
    buddyAlloc_spares hk rfl hs₁ hi hmin hmax hb
  obtain ⟨h', ha, -, -⟩ := buddyAlloc_sim hk rfl hs₁ hi hmin hmax hb
  have hok := (Buddy.alloc_grows hi hmin ha).inv.used_ok ⟨a, order⟩
    (by simp)
  have hbase : z.base ≤ a := hok.within.1
  intro x hx
  have hx' : x < z.base := hx
  refine Eq.trans ?_ (hspared x hx)
  show (if flags &&& ALLOC_ZEROED ≠ 0 then m₁.zero a size
    else m₁).bytes x = m₁.bytes x
  split
  · exact Bytes.fill_of_not (by omega) 0
  · rfl

-- ============================================================= buddy_free

/-- The block whose link is rewritten comes off the list with it. -/
theorem storeSlot_spares {pre post : List Nat} (hmin : 12 ≤ z.minOrder)
    (hi : Inv h used) (hfree : h.free k = pre ++ post)
    (hr : m.storeSlot v (slotAfter k pre) = .ret m') :
    Spares (OffLinks z) m m' := by
  rcases List.eq_nil_or_concat pre with rfl | ⟨pre', c, rfl⟩
  · exact .of_bytes (setFreeBlock_bytes hr)
  · rw [List.concat_eq_append] at hr hfree
    rw [slotAfter_concat] at hr
    cases hr
    have hcf : h.Free ⟨c, k⟩ := by simp [Heap.Free, hfree]
    exact store_spares hmin (hi.free_ok _ hcf) _

theorem buddyFree_spares (hs : Sim z z.maxOrder m h)
    (hi : Inv h (⟨addr, k⟩ :: used))
    (hr : buddyFree fuel addr k m = .ret m') :
    Spares (OffLinks z) m m' := by
  induction fuel generalizing addr k m h with
  | zero => cases hr
  | succ fuel ih =>
      have hok := hi.used_ok ⟨addr, k⟩ (by simp)
      have hmin : z.minOrder ≤ k := hok.min_le
      have hkt : k ≤ z.maxOrder := Nat.le_trans hok.order_le h.le_max
      have hk32 : k < 32 := Nat.lt_of_le_of_lt hkt z.max_lt
      have hc := hs.chain k hmin hkt
      simp only [buddyFree, shl1_of_lt hk32] at hr
      rcases findSlot_spec (addr ^^^ 2 ^ k) fuel [] hc
          (hs.getFreeBlock hmin hkt) with
        ⟨ht, -⟩ | ⟨-, s, hf, h0⟩ | ⟨pre, post, hfree, hf, hbud⟩
      · rw [slotAfter_nil] at ht
        rw [ht] at hr
        cases hr
      · -- the buddy is not free: push
        rw [slotAfter_nil] at hf
        rw [hf, Outcome.ret_bind, h0, Outcome.ret_bind, if_pos rfl] at hr
        obtain ⟨next, -, hr⟩ := Outcome.bind_eq_ret.mp hr
        exact (store_spares hs.page_le hok next).trans
          (.of_bytes (setFreeBlock_bytes hr))
      · -- the buddy is free: unlink it and go on with the merged block
        rw [slotAfter_nil] at hf
        rw [List.nil_append] at hf hbud
        have hmem : addr ^^^ 2 ^ k ∈ h.free k := by simp [hfree]
        have hne : addr ^^^ 2 ^ k ≠ 0 :=
          Nat.ne_of_gt (hi.free_ok ⟨_, k⟩ hmem).addr_pos
        rw [hf, Outcome.ret_bind, hbud, Outcome.ret_bind, if_neg hne] at hr
        obtain ⟨m₁, hst, hs₁, -⟩ := hs.remove hi hmin hkt hfree
        rw [hst, Outcome.ret_bind,
          and_not32_eq_min hok.aligned hk32 hok.addr_lt] at hr
        have hunlink := storeSlot_spares hs.page_le hi hfree hst
        exact hunlink.trans (ih hs₁ (Buddy.merge_inv hi hmem) hr)

/-- `kheap::free` of a block in hand writes links, and nothing else. -/
theorem kheapFree_spares (hs : Sim z z.maxOrder m h)
    (hi : Inv h (⟨addr, order⟩ :: used))
    (ho : IsOrder m.kheap size order)
    (hr : kheapFree fuel addr size m = .ret m') :
    Spares (OffLinks z) m m' := by
  obtain ⟨m₁, hb, rfl⟩ := ho.kheapFree_eq_ret hr
  have hspared : Spares (OffLinks z) (m.setLock true) m₁ :=
    buddyFree_spares (hs.setLock true) hi hb
  exact hspared

/-- `kheap::free` of a block in hand returns, and what it returns does not
depend on the fuel. -/
theorem kheapFree_gives (hs : Sim z z.maxOrder m h)
    (hl : m.kheap.locked = false) (hi : Inv h (b :: used))
    (ho : IsOrder m.kheap size b.order) :
    ∃ m', Outcome.Gives (fun fuel => kheapFree fuel b.addr size m) m' := by
  obtain ⟨-, n, hn⟩ := kheapFree_outcome hs hl hi ho
  obtain ⟨m', hr⟩ := hn n (Nat.le_refl n)
  exact ⟨m', .of_below (fun _ => kheapFree_below) hr⟩

end Mem

end Ntibux
