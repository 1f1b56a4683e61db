/-
`buddy_alloc` and `buddy_free` refine the list machine.

The code's recursion and the list machine's go in step, call for call,
so each proof is one induction on the fuel with the list machine's own
cases. For `buddy_free` the search loop is settled first
(`findSlot_spec`): it stops at the slot that holds the buddy, or at the
end of a list without it.
-/
import Ntibux.Mem.Proofs.Sim

namespace Ntibux

namespace Mem

open Buddy (Zone Heap Inv)

variable {z : Zone} {h h' : Heap z} {m m' m₁ : Mem} {used : List Block}
  {kalloc : Kalloc} {top k a v order fuel addr buddy : Nat} {b c : Block}

-- =========================================================== buddy_alloc

/-- The growth loop refines the list machine's. -/
theorem reserveLoop_sim (hk : kalloc.StopsLocked)
    (hl : m.kheap.locked = true) (hs : Sim z z.maxOrder m h)
    (hi : Inv h used) (hr : reserveLoop kalloc order fuel m = .ret m') :
    ∃ h', Heap.reserveLoop order fuel h = some h'
      ∧ Sim z z.maxOrder m' h' ∧ Kept used m m' := by
  induction fuel generalizing m h with
  | zero => cases hr
  | succ fuel ih =>
      unfold reserveLoop at hr
      rw [hs.reserveOrder, hs.maxOrder] at hr
      rw [Heap.reserveLoop]
      split at hr
      case isFalse hlt =>
        cases hr
        rw [if_neg hlt]
        exact ⟨h, rfl, hs, Kept.refl used _⟩
      case isTrue hle =>
        rw [if_pos hle]
        split at hr
        case isTrue => cases hr
        case isFalse hmax =>
          rw [if_neg hmax]
          obtain ⟨m₁, hd, hr⟩ := Outcome.bind_eq_ret.mp hr
          obtain ⟨hs₁, hkept⟩ := doubleReserve_sim hk hl hs hi hd
          obtain ⟨h', hh, hs', hkept'⟩ :=
            ih (by rw [hkept.locked, hl]) hs₁ hi.doubleReserve hr
          exact ⟨h', hh, hs', hkept.trans hkept'⟩

/-- `buddy_alloc` refines the list machine's. -/
theorem buddyAlloc_sim (hk : kalloc.StopsLocked)
    (hl : m.kheap.locked = true) (hs : Sim z z.maxOrder m h)
    (hi : Inv h used) (hmin : z.minOrder ≤ order)
    (hmax : order ≤ z.maxOrder)
    (hr : buddyAlloc kalloc fuel order m = .ret (a, m')) :
    ∃ h', Heap.alloc fuel order h = some (a, h')
      ∧ Sim z z.maxOrder m' h' ∧ Kept used m m' := by
  induction fuel generalizing a order m m' h with
  | zero => cases hr
  | succ fuel ih =>
      simp only [buddyAlloc, hs.getFreeBlock hmin hmax, Outcome.ret_bind,
        hs.head_eq_zero_iff hmin hmax] at hr
      obtain ⟨m₁, hgrow, hr⟩ := Outcome.bind_eq_ret.mp hr
      -- after the growth loop, if it ran
      obtain ⟨h₁, hh₁, hs₁, hkept₁⟩ : ∃ h₁,
          (if h.free order = [] then Heap.reserveLoop order fuel h
            else some h) = some h₁
          ∧ Sim z z.maxOrder m₁ h₁ ∧ Kept used m m₁ := by
        split at hgrow
        case isTrue hnil =>
          rw [if_pos hnil]
          exact reserveLoop_sim hk hl hs hi hgrow
        case isFalse hne =>
          cases hgrow
          rw [if_neg hne]
          exact ⟨h, rfl, hs, Kept.refl used _⟩
      have hi₁ : Inv h₁ used := by
        split at hh₁
        · exact (Buddy.reserveLoop_grows hi hh₁).inv
        · cases hh₁
          exact hi
      have hl₁ : m₁.kheap.locked = true := hkept₁.locked.trans hl
      simp only [Heap.alloc, hh₁, Option.bind_eq_bind, Option.bind_some]
      rw [hs₁.getFreeBlock hmin hmax, Outcome.ret_bind] at hr
      cases hfree : h₁.free order with
      | cons x l =>
          obtain ⟨hx, hxne, hs₂⟩ := hs₁.pop hmin hmax hfree
          rw [hx, if_pos hxne, hs₁.setFreeBlock hmin hmax,
            Outcome.ret_bind] at hr
          cases hr
          exact ⟨_, rfl, hs₂, hkept₁.trans (Kept.setHead used m₁ order _)⟩
      | nil =>
          have hhead := (hs₁.head_eq_zero_iff hmin hmax).mpr hfree
          rw [hhead, if_neg (by simp)] at hr
          obtain ⟨⟨out, m₂⟩, hrec, hr⟩ := Outcome.bind_eq_ret.mp hr
          -- an empty list below the reserve: the loop is over, so the
          -- next order is one of the table
          have hlt : order < h₁.reserveOrder := by
            by_cases hle : h.reserveOrder ≤ order
            · by_cases hnil : h.free order = []
              · rw [if_pos hnil] at hh₁
                exact absurd hfree (Buddy.reserveLoop_reached hle hh₁).2
              · rw [if_neg hnil] at hh₁
                cases hh₁
                exact absurd hfree hnil
            · by_cases hnil : h.free order = []
              · rw [if_pos hnil] at hh₁
                obtain rfl :=
                  Buddy.reserveLoop_idle (Nat.not_le.mp hle) hh₁
                exact Nat.not_le.mp hle
              · rw [if_neg hnil] at hh₁
                cases hh₁
                exact absurd hfree hnil
          have hnext : order + 1 ≤ z.maxOrder :=
            Nat.le_trans hlt h₁.le_max
          obtain ⟨h₂, hh₂, hs₂, hkept₂⟩ :=
            ih hl₁ hs₁ hi₁ (Nat.le_succ_of_le hmin) hnext hrec
          have hi₂ := (Buddy.alloc_grows hi₁ (Nat.le_succ_of_le hmin) hh₂).inv
          have hd : 2 ^ (order + 1) ∣ out :=
            (hi₂.used_ok ⟨out, order + 1⟩ (by simp)).aligned
          have hi₃ : Inv h₂
              (⟨out + 2 ^ order, order⟩ :: ⟨out, order⟩ :: used) :=
            (hi₂.split hmin).perm (List.Perm.swap _ _ _)
          have hmax' := z.max_lt
          simp only [shl1_of_lt (show order < 32 by omega),
            xor_two_pow_of_dvd hd, hs₂.getFreeBlock hmin hmax,
            Outcome.ret_bind] at hr
          obtain ⟨hs₃, hkept₃⟩ := hs₂.push hi₃ hmax
          rw [setFreeBlock_store (hs₂.table order hmin hmax),
            Outcome.ret_bind] at hr
          cases hr
          rw [hh₂, Option.bind_some, xor_two_pow_of_dvd hd]
          exact ⟨_, rfl, hs₃,
            hkept₁.trans (hkept₂.trans hkept₃.of_cons)⟩

-- ============================================================ buddy_free

/-- The slot that holds what comes after `pre` on the list of `k`. -/
def slotAfter (k : Nat) (pre : List Nat) : Slot :=
  match pre.getLast? with
  | none => .head k
  | some c => .cell c

@[simp] theorem slotAfter_nil : slotAfter k [] = .head k := rfl

@[simp] theorem slotAfter_concat {pre : List Nat} :
    slotAfter k (pre ++ [a]) = .cell a := by
  unfold slotAfter
  rw [List.getLast?_concat]

/-- The search ends at the slot that holds the buddy, or, on a list
without it, at the slot that ends the list. -/
theorem findSlot_spec (buddy fuel : Nat) (pre : List Nat)
    {post : List Nat} (hc : Chain m.load v post)
    (hv : m.loadSlot (slotAfter k pre) = .ret v) :
    (findSlot buddy fuel (slotAfter k pre) m = .timeout
        ∧ fuel ≤ post.length)
      ∨ (buddy ∉ post ∧ ∃ s,
        findSlot buddy fuel (slotAfter k pre) m = .ret s
          ∧ m.loadSlot s = .ret 0)
      ∨ ∃ pre' post', post = pre' ++ buddy :: post'
        ∧ findSlot buddy fuel (slotAfter k pre) m
          = .ret (slotAfter k (pre ++ pre'))
        ∧ m.loadSlot (slotAfter k (pre ++ pre')) = .ret buddy := by
  induction fuel generalizing pre post v with
  | zero => exact Or.inl ⟨rfl, Nat.zero_le _⟩
  | succ fuel ih =>
      unfold findSlot
      rw [hv, Outcome.ret_bind]
      cases post with
      | nil =>
          obtain rfl : v = 0 := hc
          rw [if_neg (by simp)]
          exact Or.inr (Or.inl ⟨List.not_mem_nil, _, rfl, hv⟩)
      | cons x post =>
          obtain ⟨rfl, hne, hc⟩ := hc
          -- the list has a block: the buddy, or one to pass by
          by_cases hb : v = buddy
          · rw [if_neg (by simp [hb])]
            refine Or.inr (Or.inr ⟨[], post, by rw [hb]; rfl, ?_, ?_⟩)
            · rw [List.append_nil]
            · rw [List.append_nil, hv, hb]
          · rw [if_pos ⟨hne, hb⟩]
            have hcell : slotAfter k (pre ++ [v]) = .cell v :=
              slotAfter_concat
            rcases ih (pre ++ [v]) hc (by rw [hcell]; rfl) with
              ⟨ht, hle⟩ | ⟨hnm, s, hs, h0⟩ | ⟨pre', post', rfl, hs, hbud⟩
            · rw [hcell] at ht
              exact Or.inl ⟨ht, Nat.succ_le_succ hle⟩
            · rw [hcell] at hs
              refine Or.inr (Or.inl ⟨?_, s, hs, h0⟩)
              exact List.not_mem_cons_of_ne_of_not_mem (Ne.symm hb) hnm
            · rw [hcell] at hs
              refine Or.inr (Or.inr ⟨v :: pre', post', rfl, ?_, ?_⟩)
              · rw [hs, List.append_assoc, List.singleton_append]
              · rw [List.append_assoc, List.singleton_append] at hbud
                exact hbud

/-- Remove: one link is rewritten and the buddy is off its list. -/
theorem Sim.remove {pre post : List Nat} (hs : Sim z top m h)
    (hi : Inv h used) (hmin : z.minOrder ≤ k) (hk : k ≤ top)
    (hfree : h.free k = pre ++ buddy :: post) :
    ∃ m', m.storeSlot (m.load buddy) (slotAfter k pre) = .ret m'
      ∧ Sim z top m' (h.take k buddy) ∧ Kept used m m' := by
  have hc := hs.chain k hmin hk
  have hnd := hi.nodup k
  rw [hfree] at hc hnd
  have hnm : buddy ∉ pre := fun hm =>
    (List.nodup_append.mp hnd).2.2 buddy hm buddy (by simp) rfl
  have herase : (h.free k).erase buddy = pre ++ post := by
    rw [hfree, List.erase_append_right _ hnm, List.erase_cons_head]
  have htake : h.take k buddy = h.setFree k (pre ++ post) := by
    unfold Heap.take
    rw [herase]
  rw [htake]
  rcases List.eq_nil_or_concat pre with rfl | ⟨pre', c, rfl⟩
  · -- the head takes the buddy's link
    refine ⟨_, hs.setFreeBlock hmin hk _, ?_, Kept.setHead used m k _⟩
    exact hs.setHead hmin hc.2.2
  · -- the block before it does
    rw [List.concat_eq_append] at hfree hc hnd ⊢
    have htwo : 2 ≤ k := Nat.le_trans z.two_le_min hmin
    have hcf : h.Free ⟨c, k⟩ := by simp [Heap.Free, hfree]
    have hload : ∀ d, h.Free d → d ≠ ⟨c, k⟩ →
        (m.store c (m.load buddy)).load d.addr = m.load d.addr :=
      fun d hd hne => load_store_of_apart (b := ⟨c, k⟩)
        (hi.free_apart _ d hcf hd (Ne.symm hne)) htwo
        (Nat.le_trans z.two_le_min (hi.free_ok d hd).min_le) _
    refine ⟨m.store c (m.load buddy), by rw [slotAfter_concat]; rfl, ?_,
      Kept.store (b := ⟨c, k⟩) htwo
        (fun b hb => (hi.mixed_apart b hb _ hcf).symm) _⟩
    refine ⟨hs.page_le, hs.minOrder, hs.maxOrder, hs.freeZone,
      hs.reserveOrder, hs.table, fun j hj hjt => ?_⟩
    by_cases hjk : j = k
    · subst hjk
      rw [Heap.free_setFree_self]
      have hlast : ∀ d, (pre' ++ [c]).getLast? = some d →
          (m.store c (m.load buddy)).load d = m.load buddy := by
        intro d hd
        obtain rfl : c = d := by simpa using hd
        exact load_store_self (load_lt m buddy)
      have hother : ∀ d ∈ pre' ++ [c] ++ post,
          (pre' ++ [c]).getLast? ≠ some d →
          (m.store c (m.load buddy)).load d = m.load d := by
        intro d hd hne
        refine hload ⟨d, j⟩ ?_ fun heq => ?_
        · show d ∈ h.free j
          rw [hfree]
          simp only [List.mem_append, List.mem_cons] at hd ⊢
          tauto
        · obtain ⟨rfl, -⟩ := Block.mk.inj heq
          exact hne List.getLast?_concat
      have hu := hc.unlink hnd hlast hother
      rwa [if_neg (by simp)] at hu
    · rw [Heap.free_setFree_of_ne hjk]
      refine (hs.chain j hj hjt).congr fun d hd => hload ⟨d, j⟩ hd ?_
      intro heq
      exact hjk (Block.mk.inj heq).2

/-- `addr & ~(1U << order)` is the lower of the two buddies. -/
theorem and_not32_eq_min (hd : 2 ^ k ∣ addr) (hk : k < 32)
    (hlt : addr < 2 ^ 32) :
    addr &&& not32 (2 ^ k) = min addr (addr ^^^ 2 ^ k) := by
  unfold not32
  obtain ⟨p, -, hp, ⟨h1, h2⟩ | ⟨h1, h2⟩⟩ := buddy_cases hd hk hlt
  · rw [hp, h2, h1]
    omega
  · rw [hp, h2, h1]
    omega

/-- `buddy_free` refines the list machine's, and never leaves a list
table that ends at the reserve order. It runs out of fuel only where
there is less of it than the longest list and the merges still possible
can use up. -/
theorem buddyFree_sim {n : Nat} (fuel : Nat) (hs : Sim z top m h)
    (hi : Inv h (⟨addr, k⟩ :: used)) (htop : h.reserveOrder ≤ top)
    (hn : ∀ j ≤ h.reserveOrder, (h.free j).length ≤ n) :
    (buddyFree fuel addr k m = .timeout
        ∧ fuel ≤ n + 1 + (h.reserveOrder - k))
      ∨ ∃ m' h', buddyFree fuel addr k m = .ret m'
        ∧ Heap.release fuel addr k h = some h' ∧ Sim z top m' h'
        ∧ Kept used m m' := by
  induction fuel generalizing addr k m h with
  | zero => exact Or.inl ⟨rfl, Nat.zero_le _⟩
  | succ fuel ih =>
      have hok := hi.used_ok ⟨addr, k⟩ (by simp)
      have hmin : z.minOrder ≤ k := hok.min_le
      have hkr : k ≤ h.reserveOrder := hok.order_le
      have hkt : k ≤ top := Nat.le_trans hkr htop
      have hk32 : k < 32 :=
        Nat.lt_of_le_of_lt (Nat.le_trans hkr h.le_max) z.max_lt
      have hc := hs.chain k hmin hkt
      simp only [buddyFree, Heap.release, shl1_of_lt hk32]
      rcases findSlot_spec (addr ^^^ 2 ^ k) fuel [] hc
          (hs.getFreeBlock hmin hkt) with
        ⟨ht, hle⟩ | ⟨hnm, s, hf, h0⟩ | ⟨pre, post, hfree, hf, hbud⟩
      · -- the fuel ran out in the list
        rw [slotAfter_nil] at ht
        rw [ht]
        have hlen := hn k hkr
        exact Or.inl ⟨rfl, by omega⟩
      · -- the buddy is not free: push
        rw [slotAfter_nil] at hf
        obtain ⟨hs', hkept⟩ := hs.push hi hkt
        rw [hf, Outcome.ret_bind, h0, Outcome.ret_bind, if_pos rfl,
          hs.getFreeBlock hmin hkt, Outcome.ret_bind, if_neg hnm]
        refine Or.inr ⟨_, _, ?_, rfl, hs', hkept⟩
        exact if_pos (hs.table k hmin hkt)
      · -- the buddy is free: unlink it and go on with the merged block
        rw [slotAfter_nil] at hf
        rw [List.nil_append] at hf hbud
        have hmem : addr ^^^ 2 ^ k ∈ h.free k := by simp [hfree]
        have hne : addr ^^^ 2 ^ k ≠ 0 :=
          Nat.ne_of_gt (hi.free_ok ⟨_, k⟩ hmem).addr_pos
        obtain ⟨m₁, hst, hs₁, hkept⟩ := hs.remove hi hmin hkt hfree
        have hi₁ := Buddy.merge_inv hi hmem
        have hlt := (Buddy.merge_facts hi hmem).1
        have hn₁ : ∀ j ≤ h.reserveOrder,
            ((h.take k (addr ^^^ 2 ^ k)).free j).length ≤ n := by
          intro j hj
          unfold Heap.take
          by_cases hjk : j = k
          · rw [hjk, Heap.free_setFree_self]
            exact Nat.le_trans (List.length_erase_le ..) (hn k hkr)
          · rw [Heap.free_setFree_of_ne hjk]
            exact hn j hj
        rw [hf, Outcome.ret_bind, hbud, Outcome.ret_bind, if_neg hne, hst,
          Outcome.ret_bind, if_pos hmem,
          and_not32_eq_min hok.aligned hk32 hok.addr_lt]
        rcases ih hs₁ hi₁ htop hn₁ with
          ⟨ht, hle⟩ | ⟨m', h', hr, hh, hs', hkept'⟩
        · refine Or.inl ⟨ht, ?_⟩
          rw [Heap.reserveOrder_take] at hle
          omega
        · exact Or.inr ⟨m', h', hr, hh, hs',
            hkept.of_cons.trans hkept'⟩

/-- The lists up to an order have a longest one. -/
theorem exists_length_le (f : Nat → List Nat) (r : Nat) :
    ∃ n, ∀ j ≤ r, (f j).length ≤ n := by
  induction r with
  | zero =>
      refine ⟨(f 0).length, fun j hj => ?_⟩
      obtain rfl : j = 0 := Nat.le_zero.mp hj
      exact Nat.le_refl _
  | succ r ih =>
      obtain ⟨n, hn⟩ := ih
      refine ⟨n + (f (r + 1)).length, fun j hj => ?_⟩
      rcases Nat.lt_or_eq_of_le hj with hlt | rfl
      · exact Nat.le_trans (hn j (by omega)) (Nat.le_add_right ..)
      · exact Nat.le_add_left ..

-- ============================================================= get_order

/-- The loop's answer does not depend on the fuel. -/
theorem getOrderLoop_unique {size x y fuel' : Nat}
    (hx : getOrderLoop size fuel order = .ret x)
    (hy : getOrderLoop size fuel' order = .ret y) : x = y := by
  induction fuel generalizing fuel' order with
  | zero => cases hx
  | succ fuel ih =>
      cases fuel' with
      | zero => cases hy
      | succ fuel' =>
          unfold getOrderLoop at hx hy
          split at hx
          case isTrue hlt =>
            rw [if_pos hlt] at hy
            exact ih hx hy
          case isFalse hge =>
            rw [if_neg hge] at hy
            cases hx
            cases hy
            rfl

/-- More fuel changes nothing about an answer. -/
theorem getOrderLoop_mono {size x fuel' : Nat}
    (hx : getOrderLoop size fuel order = .ret x) (hle : fuel ≤ fuel') :
    getOrderLoop size fuel' order = .ret x := by
  induction fuel generalizing fuel' order with
  | zero => cases hx
  | succ fuel ih =>
      obtain ⟨fuel', rfl⟩ : ∃ f, fuel' = f + 1 := ⟨fuel' - 1, by omega⟩
      unfold getOrderLoop at hx ⊢
      split at hx
      case isTrue hlt =>
        rw [if_pos hlt]
        exact ih hx (by omega)
      case isFalse hge =>
        rw [if_neg hge]
        exact hx

/-- `get_order` takes no lock. -/
theorem getOrder_ne_spin {size : Nat} {kh : Kheap} :
    getOrder fuel size kh ≠ .spin := by
  have hloop : ∀ fuel k, getOrderLoop size fuel k ≠ .spin := by
    intro fuel
    induction fuel with
    | zero => exact fun k hk => by cases hk
    | succ fuel ih =>
        intro k hk
        unfold getOrderLoop at hk
        split at hk
        · exact ih _ hk
        · cases hk
  intro hs
  unfold getOrder at hs
  cases hl : getOrderLoop size fuel 0 with
  | spin => exact hloop fuel 0 hl
  | _ =>
      rw [hl] at hs
      cases hs

/-- With enough fuel, `get_order` answers. -/
theorem IsOrder.eventually {kh : Kheap} {size : Nat}
    (ho : IsOrder kh size order) :
    ∃ n, ∀ fuel, n ≤ fuel → getOrder fuel size kh = .ret order := by
  obtain ⟨n, ho⟩ := ho
  unfold getOrder at ho
  obtain ⟨x, hx, hret⟩ := Outcome.bind_eq_ret.mp ho
  refine ⟨n, fun fuel hle => ?_⟩
  unfold getOrder
  rw [getOrderLoop_mono hx hle]
  exact hret

/-- The loop stops where the block is large enough. -/
theorem size_le_of_getOrderLoop {size x : Nat}
    (hx : getOrderLoop size fuel order = .ret x) : size ≤ 2 ^ x := by
  induction fuel generalizing order with
  | zero => cases hx
  | succ fuel ih =>
      unfold getOrderLoop at hx
      split at hx
      case isTrue => exact ih hx
      case isFalse hge =>
        cases hx
        refine Nat.le_trans (Nat.not_lt.mp hge) ?_
        exact Nat.pow_le_pow_right (by omega) (Nat.mod_le _ _)

/-- `get_order` has one answer, in the table and large enough. -/
theorem IsOrder.spec {kh : Kheap} {size : Nat}
    (ho : IsOrder kh size order) :
    kh.minOrder ≤ order ∧ size ≤ 2 ^ order
      ∧ ∀ kh' fuel o, kh'.minOrder = kh.minOrder →
        getOrder fuel size kh' = .ret o → o = order := by
  obtain ⟨f, ho⟩ := ho
  unfold getOrder at ho
  obtain ⟨x, hx, ho⟩ := Outcome.bind_eq_ret.mp ho
  have hle := size_le_of_getOrderLoop hx
  have huniq : ∀ kh' : Kheap, ∀ fuel o, kh'.minOrder = kh.minOrder →
      getOrder fuel size kh' = .ret o → o = order := by
    intro kh' fuel o hmin hy
    unfold getOrder at hy
    obtain ⟨y, hy, heq⟩ := Outcome.bind_eq_ret.mp hy
    rw [hmin, getOrderLoop_unique hy hx] at heq
    exact Outcome.ret.inj (heq.symm.trans ho)
  split at ho
  case isTrue hlt =>
    cases ho
    refine ⟨Nat.le_refl _, Nat.le_trans hle ?_, huniq⟩
    exact Nat.pow_le_pow_right (by omega) (Nat.le_of_lt hlt)
  case isFalse hge =>
    cases ho
    exact ⟨Nat.not_lt.mp hge, hle, huniq⟩

-- ======================================================== alloc and free

/-- The lock is not part of what the list machine sees. -/
theorem Sim.setLock (hs : Sim z top m h) (l : Bool) :
    Sim z top (m.setLock l) h :=
  ⟨hs.page_le, hs.minOrder, hs.maxOrder, hs.freeZone, hs.reserveOrder,
    hs.table, hs.chain⟩

/-- Bytes written inside blocks in hand are no links. -/
theorem Sim.write {b' : Bytes} (hs : Sim z top m h) (hi : Inv h used)
    (hb : ∀ x, m.bytes x ≠ b' x → ∃ b ∈ used, b.Has x) :
    Sim z top { m with bytes := b' } h := by
  refine hs.congr rfl fun c hc => Bytes.read32_congr fun x h1 h2 => ?_
  by_contra hne
  obtain ⟨b, hbu, hx⟩ := hb x fun heq => hne heq.symm
  have hfin := four_le_fin
    (Nat.le_trans z.two_le_min (hi.free_ok c hc).min_le)
  exact (hi.mixed_apart b hbu c hc).not_has hx ⟨h1, by omega⟩

/-- The block of an `alloc` that returned is of the size's order. -/
theorem IsOrder.kheapAlloc_eq_ret {size flags : Nat}
    (ho : IsOrder m.kheap size order)
    (hr : kheapAlloc fuel size flags m = .ret (a, m')) :
    ∃ n m₁, buddyAlloc (kheapAlloc n) n order (m.setLock true) = .ret (a, m₁)
      ∧ m' = (if flags &&& ALLOC_ZEROED ≠ 0 then m₁.zero a size
          else m₁).setLock false := by
  obtain ⟨n, o, m₁, -, ho', hb, heq⟩ := Mem.kheapAlloc_eq_ret hr
  obtain rfl := ho.spec.2.2 (m.setLock true).kheap n o rfl ho'
  exact ⟨n, m₁, hb, heq⟩

/-- So is the block that a `free` gave back. -/
theorem IsOrder.kheapFree_eq_ret {size : Nat}
    (ho : IsOrder m.kheap size order)
    (hr : kheapFree fuel addr size m = .ret m') :
    ∃ m₁, buddyFree fuel addr order (m.setLock true) = .ret m₁
      ∧ m' = m₁.setLock false := by
  obtain ⟨o, m₁, ho', hb, heq⟩ := Mem.kheapFree_eq_ret hr
  obtain rfl := ho.spec.2.2 (m.setLock true).kheap fuel o rfl ho'
  exact ⟨m₁, hb, heq⟩

/-- `kheap::alloc`, from an unlocked heap: the list machine's allocation,
bytes in other hands untouched, the requested bytes cleared if so
asked. -/
theorem kheapAlloc_sim {size flags : Nat} (hs : Sim z z.maxOrder m h)
    (hi : Inv h used) (ho : IsOrder m.kheap size order)
    (hmax : order ≤ z.maxOrder)
    (hr : kheapAlloc fuel size flags m = .ret (a, m')) :
    ∃ n h', Heap.alloc n order h = some (a, h') ∧ Sim z z.maxOrder m' h'
      ∧ Kept used (m.setLock false) m'
      ∧ (flags &&& ALLOC_ZEROED ≠ 0 →
        ∀ x, a ≤ x → x < a + size → m'.bytes x = 0) := by
  have hsize := ho.spec.2.1
  have hmin := ho.spec.1
  rw [hs.minOrder] at hmin
  obtain ⟨n, m₁, hb, rfl⟩ := ho.kheapAlloc_eq_ret hr
  obtain ⟨h', hh, hs₁, hkept⟩ := buddyAlloc_sim
    (kheapAlloc_stopsLocked n) rfl (hs.setLock true) hi hmin hmax hb
  have hi' := (Buddy.alloc_grows hi hmin hh).inv
  refine ⟨n, h', hh, ?_, ?_, ?_⟩
  · refine Sim.setLock ?_ false
    split
    · refine hs₁.write hi' fun x hx => ?_
      refine ⟨⟨a, order⟩, by simp, ?_⟩
      by_contra hnot
      refine hx (Bytes.fill_of_not ?_ 0).symm
      intro hand
      obtain ⟨h1, h2⟩ := hand
      exact hnot ⟨h1, Nat.lt_of_lt_of_le h2
        (Nat.add_le_add_left hsize a)⟩
    · exact hs₁
  · refine ⟨fun b hbu x hx => ?_, rfl, ?_, ?_⟩
    · have hbytes : m₁.bytes x = m.bytes x := hkept.bytes b hbu x hx
      show (if flags &&& ALLOC_ZEROED ≠ 0 then m₁.zero a size
        else m₁).bytes x = m.bytes x
      rw [← hbytes]
      split
      · refine Bytes.fill_of_not ?_ 0
        intro hand
        obtain ⟨h1, h2⟩ := hand
        -- the size may be less than the block, and the block is apart
        have hap := (List.pairwise_cons.mp hi'.used_apart).1 b hbu
        refine hap.not_has ⟨h1, ?_⟩ hx
        exact Nat.lt_of_lt_of_le h2 (Nat.add_le_add_left hsize a)
      · rfl
    · have hpd : m₁.currentPd = m.currentPd := hkept.currentPd
      show (if flags &&& ALLOC_ZEROED ≠ 0 then m₁.zero a size
        else m₁).currentPd = m.currentPd
      rw [← hpd]
      split <;> rfl
    · have hnf : m₁.frames.nframes = m.frames.nframes := hkept.nframes
      show (if flags &&& ALLOC_ZEROED ≠ 0 then m₁.zero a size
        else m₁).frames.nframes = m.frames.nframes
      rw [← hnf]
      split <;> rfl
  · intro hz x h1 h2
    show (if flags &&& ALLOC_ZEROED ≠ 0 then m₁.zero a size
      else m₁).bytes x = 0
    rw [if_pos hz]
    exact Bytes.fill_of_has ⟨h1, h2⟩ 0

/-- `kheap::free` of a block in hand, from an unlocked heap. -/
theorem kheapFree_sim {size : Nat} (hs : Sim z z.maxOrder m h)
    (hi : Inv h (⟨addr, order⟩ :: used))
    (ho : IsOrder m.kheap size order)
    (hr : kheapFree fuel addr size m = .ret m') :
    ∃ h', Heap.release fuel addr order h = some h'
      ∧ Sim z z.maxOrder m' h' ∧ Kept used (m.setLock false) m' := by
  obtain ⟨m₁, hb, rfl⟩ := ho.kheapFree_eq_ret hr
  obtain ⟨n, hn⟩ := exists_length_le h.free h.reserveOrder
  rcases buddyFree_sim fuel (hs.setLock true) hi h.le_max hn with
    ⟨ht, -⟩ | ⟨m₂, h', hb', hh, hs', hkept⟩
  · rw [ht] at hb
    cases hb
  · rw [hb'] at hb
    cases hb
    exact ⟨h', hh, hs'.setLock false, hkept.bytes, rfl, hkept.currentPd,
      hkept.nframes⟩

end Mem

end Ntibux
