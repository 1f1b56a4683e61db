/-
A range call is its turns.

The three loops of mem.cpp over a range are one loop with a body
(`pageLoop`). It returns only from a range of less than the whole address
space, so its offset never wraps, and the state it returns is the one
that the turns lead to (`RangeCall.Does.comes`).
-/
import Ntibux.Mem.Ranges
import Ntibux.Mem.Proofs.Entry

namespace Ntibux

namespace Mem

variable {kalloc : Kalloc} {m m' : Mem} {v a range flags fuel i : Nat}
  {body : Nat → Nat → Mem → Outcome Mem}

-- ============================================================== more fuel

section Fuel

open Outcome

variable {addr size order fuel' : Nat}

theorem getOrderLoop_below (h : fuel ≤ fuel') :
    Below (getOrderLoop size fuel order) (getOrderLoop size fuel' order) := by
  induction fuel generalizing fuel' order with
  | zero => exact .inl rfl
  | succ fuel ih =>
      obtain ⟨fuel', rfl⟩ : ∃ n, fuel' = n + 1 := ⟨fuel' - 1, by omega⟩
      unfold getOrderLoop
      split
      · exact ih (by omega)
      · exact .refl _

theorem findSlot_below {buddy : Nat} {s : Slot} (h : fuel ≤ fuel') :
    Below (findSlot buddy fuel s m) (findSlot buddy fuel' s m) := by
  induction fuel generalizing fuel' s with
  | zero => exact .inl rfl
  | succ fuel ih =>
      obtain ⟨fuel', rfl⟩ : ∃ n, fuel' = n + 1 := ⟨fuel' - 1, by omega⟩
      unfold findSlot
      refine (Below.refl _).bind fun v => ?_
      split
      · exact ih (by omega)
      · exact .refl _

theorem buddyFree_below (h : fuel ≤ fuel') :
    Below (buddyFree fuel addr order m) (buddyFree fuel' addr order m) := by
  induction fuel generalizing fuel' addr order m with
  | zero => exact .inl rfl
  | succ fuel ih =>
      obtain ⟨fuel', rfl⟩ : ∃ n, fuel' = n + 1 := ⟨fuel' - 1, by omega⟩
      unfold buddyFree
      refine (findSlot_below (by omega)).bind fun s => ?_
      refine (Below.refl _).bind fun found => ?_
      split
      · exact .refl _
      · exact (Below.refl _).bind fun m => ih (by omega)

theorem kheapFree_below (h : fuel ≤ fuel') :
    Below (kheapFree fuel addr size m) (kheapFree fuel' addr size m) := by
  unfold kheapFree
  split
  · exact .refl _
  · have horder : Below (getOrder fuel size (m.setLock true).kheap)
        (getOrder fuel' size (m.setLock true).kheap) :=
      (getOrderLoop_below h).bind fun _ => .refl _
    exact horder.bind fun _ => (buddyFree_below h).bind fun _ => .refl _

/-- What `unmap` comes to does not depend on the fuel. -/
theorem unmap_below (h : fuel ≤ fuel') :
    Below (m.unmap kalloc fuel v) (m.unmap kalloc fuel' v) := by
  unfold unmap
  dsimp only
  split
  · exact .refl _
  · refine (Below.refl _).bind fun _ => (Below.refl _).bind fun m => ?_
    split
    · exact (kheapFree_below h).bind fun _ => .refl _
    · exact .refl _

end Fuel

-- =============================================================== the loop

/-- The loop over the pages of a range, from offset `i`. -/
def pageLoop (body : Nat → Nat → Mem → Outcome Mem) (range : Nat) :
    Nat → Nat → Mem → Outcome Mem
  | 0, _, _ => .timeout
  | fuel + 1, i, m =>
      if i < range then do
        let m ← body fuel i m
        pageLoop body range fuel (u32 (i + PAGESIZE)) m
      else .ret m

/-- A turn that must not come to nothing. -/
def orPanic (x : Outcome (Nat × Mem)) : Outcome Mem := do
  let (r, m) ← x
  if r = 0 then .panic "can't map requested memory" else .ret m

theorem mapRangeLoop_eq : mapRangeLoop kalloc v range flags fuel i m
    = pageLoop (fun _ i m => orPanic (m.map kalloc (u32 (v + i)) flags))
      range fuel i m := by
  induction fuel generalizing i m with
  | zero => rfl
  | succ fuel ih =>
      unfold mapRangeLoop pageLoop orPanic
      split
      · cases m.map kalloc (u32 (v + i)) flags with
        | ret x =>
            simp only [Outcome.ret_bind]
            split
            · rfl
            · exact ih
        | _ => rfl
      · rfl

theorem mapRangeAtLoop_eq : mapRangeAtLoop kalloc v a range flags fuel i m
    = pageLoop (fun _ i m =>
        orPanic (m.mapAt kalloc (u32 (v + i)) (u32 (a + i)) flags))
      range fuel i m := by
  induction fuel generalizing i m with
  | zero => rfl
  | succ fuel ih =>
      unfold mapRangeAtLoop pageLoop orPanic
      split
      · cases m.mapAt kalloc (u32 (v + i)) (u32 (a + i)) flags with
        | ret x =>
            simp only [Outcome.ret_bind]
            split
            · rfl
            · exact ih
        | _ => rfl
      · rfl

theorem unmapRangeLoop_eq : unmapRangeLoop kalloc v range fuel i m
    = pageLoop (fun fuel i m => do
        let (_, m) ← m.unmap kalloc fuel (u32 (v + i))
        .ret m) range fuel i m := by
  induction fuel generalizing i m with
  | zero => rfl
  | succ fuel ih =>
      unfold unmapRangeLoop pageLoop
      split
      · cases m.unmap kalloc fuel (u32 (v + i)) with
        | ret x =>
            simp only [Outcome.ret_bind]
            exact ih
        | _ => rfl
      · rfl

/-- The offset stays a page offset, also where it wraps. -/
theorem next_offset (hi : 4096 ∣ i) :
    4096 ∣ u32 (i + PAGESIZE) ∧ u32 (i + PAGESIZE) ≤ 0xfffff000 := by
  unfold u32 PAGESIZE
  omega

/-- A loop that returns has a range that its offset can get past. -/
theorem pageLoop_range_le (hi : 4096 ∣ i) (hle : i ≤ 0xfffff000)
    (h : pageLoop body range fuel i m = .ret m') : range ≤ 0xfffff000 := by
  induction fuel generalizing i m with
  | zero => cases h
  | succ fuel ih =>
      unfold pageLoop at h
      split at h
      · obtain ⟨m₁, -, h⟩ := Outcome.bind_eq_ret.mp h
        obtain ⟨hd, hb⟩ := next_offset hi
        exact ih hd hb h
      · omega

/-- A loop whose turns return returns, with what each turn keeps. The
turns are counted. -/
theorem pageLoop_gives (body : Nat → Nat → Mem → Outcome Mem)
    (P : Nat → Mem → Prop) (hr : range ≤ 0xfffff000)
    (hbody : ∀ j m, PAGESIZE * j < range → P j m → ∃ m',
      Outcome.Gives (fun fuel => body fuel (PAGESIZE * j) m) m' ∧
        P (j + 1) m') :
    ∀ k j m, j + k = turns range → P j m → ∃ m',
      Outcome.Gives (fun fuel =>
        pageLoop body range fuel (PAGESIZE * j) m) m' ∧
        P (turns range) m' := by
  intro k
  induction k with
  | zero =>
      intro j m hj hP
      refine ⟨m, .of_succ (.of_eq fun fuel => ?_), hj ▸ hP⟩
      have hge : ¬PAGESIZE * j < range := by
        unfold turns PAGESIZE at hj
        unfold PAGESIZE
        omega
      unfold pageLoop
      exact if_neg hge
  | succ k ih =>
      intro j m hj hP
      have hlt : PAGESIZE * j < range := by
        unfold turns PAGESIZE at hj
        unfold PAGESIZE
        omega
      obtain ⟨m₁, hg₁, hP₁⟩ := hbody j m hlt hP
      obtain ⟨m', hg', hP'⟩ := ih (j + 1) m₁ (by omega) hP₁
      refine ⟨m', .of_succ ?_, hP'⟩
      -- the counter stays below 2^32, so the loop ends
      have hnext : u32 (PAGESIZE * j + PAGESIZE) = PAGESIZE * (j + 1) := by
        unfold PAGESIZE at hlt ⊢
        rw [u32_of_lt (by omega)]
        omega
      have hloop : ∀ fuel, pageLoop body range (fuel + 1) (PAGESIZE * j) m
          = body fuel (PAGESIZE * j) m >>=
            pageLoop body range fuel (PAGESIZE * (j + 1)) := by
        intro fuel
        rw [← hnext]
        exact if_pos hlt
      simp only [hloop]
      exact hg₁.bind hg'

end Mem

/-- The state that a call leaves is determined. -/
theorem PageCall.Does.unique {kalloc : Kalloc} {m m₁ m₂ : Mem}
    {c : PageCall} (h : c.Does kalloc m m₁) (h' : c.Does kalloc m m₂) :
    m₁ = m₂ := by
  have hret : ∀ {α : Type} {x : Outcome (α × Mem)},
      (∃ r, x = .ret (r, m₁)) → (∃ r, x = .ret (r, m₂)) → m₁ = m₂ := by
    intro α x h h'
    obtain ⟨r, h⟩ := h
    obtain ⟨r', h'⟩ := h'
    exact (Prod.mk.inj (Outcome.ret.inj (h.symm.trans h'))).2
  cases c with
  | getPage v => exact hret h h'
  | map v flags => exact hret h h'
  | mapAt v a flags => exact hret h h'
  | unmap v =>
      obtain ⟨fuel, r, h⟩ := h
      obtain ⟨fuel', r', h'⟩ := h'
      exact (Prod.mk.inj (Outcome.Below.unique
        (fun _ _ hle => Mem.unmap_below hle) h h')).2

namespace RangeCall

open Mem

variable {kalloc : Kalloc} {m m' m₀ m₁ m₂ : Mem} {r : RangeCall}
  {n i fuel : Nat} {body : Nat → Nat → Mem → Outcome Mem}

-- ============================================================== the turns

theorem Comes.dvd (h : r.Comes kalloc m n m₁) : 4096 ∣ n := by
  induction h with
  | start => exact Nat.dvd_zero _
  | next _ _ _ ih => exact Nat.dvd_add ih (Nat.dvd_refl _)

/-- No turn begins after the one that got past the range. -/
theorem Comes.lt_range (h : r.Comes kalloc m n m₁) (hi : i < n)
    (hd : 4096 ∣ i) : i < r.range := by
  cases h with
  | start => omega
  | next hn h _ =>
      have hdn := h.dvd
      unfold PAGESIZE at hi
      omega

/-- The loop's result is where its turns lead. -/
theorem Comes.loop (hb : ∀ fuel i m m', body fuel i m = .ret m' →
      (r.turn i).Does kalloc m m') (hi : r.range ≤ 0xfffff000)
    (hc : r.Comes kalloc m₀ i m)
    (h : pageLoop body r.range fuel i m = .ret m') :
    ∃ n, r.Comes kalloc m₀ n m' ∧ r.range ≤ n := by
  induction fuel generalizing i m with
  | zero => cases h
  | succ fuel ih =>
      unfold pageLoop at h
      split at h
      case isTrue hlt =>
        obtain ⟨m₁, h₁, h⟩ := Outcome.bind_eq_ret.mp h
        rw [u32_of_lt (by unfold PAGESIZE; omega)] at h
        exact ih (hc.next hlt (hb _ _ _ _ h₁)) h
      case isFalse hge =>
        cases h
        exact ⟨i, hc, by omega⟩

theorem orPanic_inv {x : Outcome (Nat × Mem)} (h : orPanic x = .ret m) :
    ∃ r, x = .ret (r, m) := by
  obtain ⟨⟨r, m₁⟩, hx, h⟩ := Outcome.bind_eq_ret.mp h
  dsimp only at h
  split at h
  · cases h
  · cases h
    exact ⟨r, hx⟩

/-- A range call that returns has taken all its turns. -/
theorem Does.comes (h : r.Does kalloc m m') :
    ∃ n, r.Comes kalloc m n m' ∧ r.range ≤ n := by
  have hstart : 4096 ∣ 0 ∧ 0 ≤ 0xfffff000 := by decide
  cases r with
  | map v range flags =>
      obtain ⟨fuel, res, h⟩ := h
      obtain ⟨m₁, h, hret⟩ := Outcome.bind_eq_ret.mp h
      cases hret
      rw [mapRangeLoop_eq] at h
      refine Comes.loop (fun _ _ _ _ h => orPanic_inv h) ?_ .start h
      exact pageLoop_range_le hstart.1 hstart.2 h
  | mapAt v a range flags =>
      obtain ⟨fuel, res, h⟩ := h
      obtain ⟨m₁, h, hret⟩ := Outcome.bind_eq_ret.mp h
      cases hret
      rw [mapRangeAtLoop_eq] at h
      refine Comes.loop (fun _ _ _ _ h => orPanic_inv h) ?_ .start h
      exact pageLoop_range_le hstart.1 hstart.2 h
  | unmap v range =>
      obtain ⟨fuel, res, h⟩ := h
      obtain ⟨m₁, h, hret⟩ := Outcome.bind_eq_ret.mp h
      cases hret
      rw [unmapRangeLoop_eq] at h
      refine Comes.loop (fun fuel i m m' h => ?_) ?_ .start h
      · obtain ⟨⟨res, m₁⟩, h, hret⟩ := Outcome.bind_eq_ret.mp h
        cases hret
        exact ⟨fuel, res, h⟩
      · exact pageLoop_range_le hstart.1 hstart.2 h

/-- Past the range the loop goes nowhere. -/
theorem Comes.eq_of_range_le (h : r.Comes kalloc m i m₁)
    (hn : r.Comes kalloc m n m₂) (hge : r.range ≤ n) (hle : n ≤ i) :
    n = i := by
  rcases Nat.eq_or_lt_of_le hle with heq | hlt
  · exact heq
  · have hin := h.lt_range hlt hn.dvd
    omega

/-- The turns of a loop are determined. -/
theorem Comes.unique (h : r.Comes kalloc m n m₁)
    (h' : r.Comes kalloc m n m₂) : m₁ = m₂ := by
  induction h generalizing m₂ with
  | start =>
      generalize hn : 0 = n at h'
      cases h' with
      | start => rfl
      | next => unfold PAGESIZE at hn; omega
  | @next k a b hk hc hd ih =>
      generalize hn : k + PAGESIZE = n at h'
      cases h' with
      | start => unfold PAGESIZE at hn; omega
      | @next k' a' b' hk' hc' hd' =>
          obtain rfl : k = k' := by
            unfold PAGESIZE at hn
            omega
          obtain rfl := ih hc'
          exact hd.unique hd'

end RangeCall

end Ntibux
