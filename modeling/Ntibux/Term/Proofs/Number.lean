/-
Numbers come out as their numerals.

The first loop of `putuint_b` stops at the leading power of the base: in
turn `i` it holds `nbr / base ^ i` and `base ^ i`, and since that power
is not above `nbr` the multiplication never overflows (`lead_at`). The
last loop divides by the falling powers, which is `falling` of the
numeral library.
-/
import Ntibux.Term.Printk
import Ntibux.Term.Proofs.Cursor
import Ntibux.Lib.Numeral

namespace Ntibux

/-- The character of a digit. -/
def digitChar (d : Nat) : UInt8 :=
  if d < 10 then .ofNat (48 + d) else .ofNat (87 + d)

/-- The numeral of `n` with zeros before it, `padding` characters if it is
not longer by itself. -/
def padded (base padding n : Nat) : List UInt8 :=
  List.replicate (padding - (numeral base n).length) 0x30
    ++ (numeral base n).map digitChar

namespace Terminal

open Outcome (Ends)

variable {T : UType} {base nbr i k w l : Nat} {padding : Int}
  {t : Terminal}

/-- The code writes the text, whatever fuel beyond enough it has, and
returns its length. -/
def Prints (x : Nat → Outcome (Nat × Terminal)) (text : List UInt8)
    (t : Terminal) : Prop :=
  Ends x (do
    let t ← emit text t
    .ret (text.length, t))

/-- The multiplication of the first loop never overflows, in any turn that
the loop comes to. -/
def PowerFits (T : UType) (base nbr : Nat) (padding : Int) : Prop :=
  ∀ i, (∀ j ≤ i, base % 2 ^ T.bits
      ≤ ((Lead.next T base)^[j] ⟨nbr, 1, padding⟩).tmp) →
    ((Lead.next T base)^[i] ⟨nbr, 1, padding⟩).l * base < 2 ^ T.bits

/-- Every index into the digits is below the base, in any turn that the
last loop comes to. -/
def DigitsBelow (base nbr l : Nat) : Prop :=
  ∀ i, (∀ j ≤ i, ((Tail.next base)^[j] ⟨nbr, l⟩).l ≠ 0) →
    ((Tail.next base)^[i] ⟨nbr, l⟩).nbr / ((Tail.next base)^[i] ⟨nbr, l⟩).l
      < base

/-- Where the cursor is on the screen, what is printed is emitted. -/
theorem Prints.emits {x : Nat → Outcome (Nat × Terminal)}
    {text : List UInt8} (h : Prints x text t) (ht : t.Inside) :
    ∃ t', emit text t = .ret t' ∧ Moved t t' ∧
      Outcome.Gives x (text.length, t') := by
  obtain ⟨t', he, hm⟩ := emit_moved ht text
  unfold Prints at h
  rw [he, Outcome.ret_bind] at h
  exact ⟨t', he, hm, h⟩

-- =========================================================== leading power

theorem base_cast (hb16 : base ≤ 16) : base % 2 ^ T.bits = base := by
  apply Nat.mod_eq_of_lt
  cases T <;> simp only [UType.bits] <;> omega

theorem lead_next (hn : nbr < 2 ^ T.bits) (hle : base ^ (i + 1) ≤ nbr) :
    Lead.next T base ⟨nbr / base ^ i, base ^ i, padding - i⟩
      = ⟨nbr / base ^ (i + 1), base ^ (i + 1), padding - (i + 1 : Nat)⟩ := by
  unfold Lead.next
  rw [Nat.div_div_eq_div_mul, ← Nat.pow_succ,
    Nat.mod_eq_of_lt (Nat.lt_of_le_of_lt hle hn)]
  simp only [Lead.mk.injEq, true_and]
  omega

/-- The variables of the first loop in turn `i`. -/
theorem lead_at (hb : 2 ≤ base) (hn : nbr < 2 ^ T.bits) (padding : Int)
    (hi : i = 0 ∨ base ^ i ≤ nbr) :
    (Lead.next T base)^[i] ⟨nbr, 1, padding⟩
      = ⟨nbr / base ^ i, base ^ i, padding - i⟩ := by
  induction i with
  | zero => simp
  | succ i ih =>
      have hle : base ^ (i + 1) ≤ nbr := hi.resolve_left (Nat.succ_ne_zero i)
      have hprev : base ^ i ≤ nbr :=
        Nat.le_trans (Nat.pow_le_pow_right (by omega) (by omega)) hle
      rw [Function.iterate_succ_apply', ih (.inr hprev), lead_next hn hle]

/-- The first loop stops at the leading power. -/
theorem leadLoop_gives (padding : Int) (hb : 2 ≤ base) (hb16 : base ≤ 16)
    (hn : nbr < 2 ^ T.bits) (hlt : nbr < base ^ (k + 1))
    (hle : k = 0 ∨ base ^ k ≤ nbr) :
    Outcome.Gives (fun fuel => leadLoop T base fuel ⟨nbr, 1, padding⟩)
      ⟨nbr / base ^ k, base ^ k, padding - k⟩ := by
  have hpow : ∀ {i}, i ≤ k → i = 0 ∨ base ^ i ≤ nbr := by
    intro i hi
    rcases hle with h | h
    · left
      omega
    · right
      exact Nat.le_trans (Nat.pow_le_pow_right (by omega) hi) h
  -- from turn `i` on, by induction on the turns that are left
  have hturn : ∀ left i fuel, i + left = k → left < fuel →
      leadLoop T base fuel ⟨nbr / base ^ i, base ^ i, padding - i⟩
        = .ret ⟨nbr / base ^ k, base ^ k, padding - k⟩ := by
    intro left
    induction left with
    | zero =>
        intro i fuel hi hfuel
        obtain rfl : i = k := hi
        obtain ⟨fuel, rfl⟩ : ∃ n, fuel = n + 1 := ⟨fuel - 1, by omega⟩
        unfold leadLoop
        refine if_neg ?_
        rw [base_cast hb16, Nat.not_le]
        exact Nat.div_lt_of_lt_mul hlt
    | succ left ih =>
        intro i fuel hi hfuel
        obtain ⟨fuel, rfl⟩ : ∃ n, fuel = n + 1 := ⟨fuel - 1, by omega⟩
        have hnext : base ^ (i + 1) ≤ nbr :=
          (hpow (by omega)).resolve_left (Nat.succ_ne_zero i)
        have htest : base ≤ nbr / base ^ i := by
          rw [Nat.le_div_iff_mul_le (Nat.pow_pos (by omega)), Nat.mul_comm,
            ← Nat.pow_succ]
          exact hnext
        unfold leadLoop
        rw [if_pos (by rw [base_cast hb16]; exact htest),
          lead_next hn hnext]
        exact ih (i + 1) fuel (by omega) (by omega)
  refine ⟨k + 1, fun fuel hfuel => ?_⟩
  have h := hturn k 0 fuel (Nat.zero_add k) hfuel
  simpa using h

theorem powerFits (hb : 2 ≤ base) (hb16 : base ≤ 16)
    (hn : nbr < 2 ^ T.bits) : PowerFits T base nbr padding := by
  intro i htest
  have hle : ∀ j ≤ i, base ^ (j + 1) ≤ nbr := by
    intro j
    induction j with
    | zero =>
        intro _
        have h := htest 0 (Nat.zero_le i)
        rw [base_cast hb16] at h
        simpa using h
    | succ j ih =>
        intro hj
        have h := htest (j + 1) hj
        rw [base_cast hb16, lead_at hb hn padding (.inr (ih (by omega))),
          Nat.le_div_iff_mul_le (Nat.pow_pos (by omega)), Nat.mul_comm,
          ← Nat.pow_succ] at h
        exact h
  have hlast := hle i (Nat.le_refl i)
  have hprev : base ^ i ≤ nbr :=
    Nat.le_trans (Nat.pow_le_pow_right (by omega) (by omega)) hlast
  rw [lead_at hb hn padding (.inr hprev)]
  show base ^ i * base < 2 ^ T.bits
  rw [← Nat.pow_succ]
  exact Nat.lt_of_le_of_lt hlast hn

-- ================================================================= padding

/-- The zeros: one fewer than the padding that is left. -/
theorem padLoop_ends (padding : Int) (w : Nat) (t : Terminal) :
    Ends (fun fuel => padLoop fuel padding w t) (do
      let t ← emit (List.replicate (padding - 1).toNat 0x30) t
      .ret (w + (padding - 1).toNat, t)) := by
  obtain ⟨n, hn⟩ : ∃ n, (padding - 1).toNat = n := ⟨_, rfl⟩
  rw [hn]
  induction n generalizing padding w t with
  | zero =>
      refine .of_succ (.of_eq fun fuel => ?_)
      unfold padLoop
      rw [if_neg (by omega)]
      rfl
  | succ n ih =>
      have hcount : w + 1 + n = w + (n + 1) := by omega
      have hrest := ih (padding - 1) (w + 1)
      rw [hcount] at hrest
      have hpos : 0 < padding - 1 := by omega
      refine .of_succ ?_
      unfold padLoop
      simp only [hpos, if_true, List.replicate_succ, emit,
        Outcome.bind_assoc]
      exact .after fun t₁ => hrest t₁ (by omega)

-- ================================================================== digits

theorem hexDigits_eq : ∀ d : Fin 16, hexDigits[d.val] = digitChar d.val := by
  decide

theorem load_hexDigits {d : Nat} (h : d < 16) :
    Outcome.load hexDigits d = .ret (digitChar d) := by
  rw [Outcome.load_ret _ (Nat.lt_succ_of_lt h)]
  exact congrArg Outcome.ret (hexDigits_eq ⟨d, h⟩)

/-- The variables of the last loop in turn `i`. -/
theorem tail_at (hb : 2 ≤ base) (hlt : nbr < base ^ (k + 1)) (hi : i ≤ k) :
    (Tail.next base)^[i] ⟨nbr, base ^ k⟩
      = ⟨nbr % base ^ (k + 1 - i), base ^ (k - i)⟩ := by
  induction i with
  | zero => simp [Nat.mod_eq_of_lt hlt]
  | succ i ih =>
      have hpow : base ^ (k - i) = base ^ (k - (i + 1)) * base := by
        rw [← Nat.pow_succ]
        congr 1
        omega
      have hmod : nbr % base ^ (k + 1 - i) % base ^ (k - i)
          = nbr % base ^ (k - i) :=
        Nat.mod_mod_of_dvd nbr (Nat.pow_dvd_pow base (by omega))
      have hexp : k + 1 - (i + 1) = k - i := by omega
      rw [Function.iterate_succ_apply', ih (by omega)]
      unfold Tail.next
      simp only [Tail.mk.injEq]
      refine ⟨?_, ?_⟩
      · rw [hmod, hexp]
      · rw [hpow, Nat.mul_div_cancel _ (by omega)]

theorem digitsBelow (hb : 2 ≤ base) (hlt : nbr < base ^ (k + 1)) :
    DigitsBelow base nbr (base ^ k) := by
  intro i hl
  have hi : i ≤ k := by
    by_contra hik
    apply hl (k + 1) (by omega)
    rw [Function.iterate_succ_apply', tail_at hb hlt (Nat.le_refl k)]
    show base ^ (k - k) / base = 0
    rw [Nat.sub_self, Nat.pow_zero]
    exact Nat.div_eq_of_lt (by omega)
  rw [tail_at hb hlt hi]
  show nbr % base ^ (k + 1 - i) / base ^ (k - i) < base
  refine Nat.div_lt_of_lt_mul ?_
  have hpow : base ^ (k + 1 - i) = base ^ (k - i) * base := by
    rw [← Nat.pow_succ]
    congr 1
    omega
  rw [← hpow]
  exact Nat.mod_lt _ (Nat.pow_pos (by omega))

/-- The last loop divides by the falling powers. -/
theorem tailLoop_ends (hb : 2 ≤ base) (hb16 : base ≤ 16)
    (hlt : nbr < base ^ (k + 1)) (w : Nat) (t : Terminal) :
    Ends (fun fuel => tailLoop base fuel ⟨nbr, base ^ k⟩ w t) (do
      let t ← emit ((falling base k nbr).map digitChar) t
      .ret (w + (k + 1), t)) := by
  have hpos : ∀ j, base ^ j ≠ 0 :=
    fun j => Nat.ne_of_gt (Nat.pow_pos (by omega))
  have hdigit : ∀ {j n}, n < base ^ (j + 1) →
      Outcome.load hexDigits (n / base ^ j)
        = .ret (digitChar (n / base ^ j)) := by
    intro j n hn
    refine load_hexDigits (Nat.lt_of_lt_of_le ?_ hb16)
    exact Nat.div_lt_of_lt_mul hn
  induction k generalizing nbr w t with
  | zero =>
      refine .of_succ (.of_succ ?_)
      refine .of_eq fun fuel => ?_
      unfold tailLoop
      rw [if_pos (hpos 0), hdigit hlt, Outcome.ret_bind, Nat.pow_zero,
        Nat.div_one, falling]
      -- the power after 1 is 0, on which the loop ends
      have hnext : (Tail.next base ⟨nbr, 1⟩).l = 0 :=
        Nat.div_eq_of_lt (Nat.lt_of_succ_le hb)
      have hstop : ∀ t, tailLoop base (fuel + 1)
          (Tail.next base ⟨nbr, 1⟩) (w + 1) t = .ret (w + 1, t) := by
        intro t
        unfold tailLoop
        exact if_neg (not_not.mpr hnext)
      simp only [hstop, List.map_cons, List.map_nil, emit]
      cases t.tputcNoup (digitChar nbr) <;> rfl
  | succ k ih =>
      have hnext : Tail.next base ⟨nbr, base ^ (k + 1)⟩
          = ⟨nbr % base ^ (k + 1), base ^ k⟩ := by
        unfold Tail.next
        rw [Nat.pow_succ, Nat.mul_div_cancel _ (by omega)]
      have hmod : nbr % base ^ (k + 1) < base ^ (k + 1) :=
        Nat.mod_lt _ (Nat.pow_pos (by omega))
      have hcount : w + 1 + (k + 1) = w + (k + 1 + 1) := by omega
      have hrest := ih hmod (w + 1)
      rw [hcount] at hrest
      refine .of_succ ?_
      unfold tailLoop
      simp only [hpos, ne_eq, not_false_eq_true, if_true, hdigit hlt,
        Outcome.ret_bind, hnext, falling, List.map_cons, emit,
        Outcome.bind_assoc]
      exact .after hrest

-- ================================================================= numbers

/-- `putuint_b` prints the numeral; a negative padding is none. -/
theorem putuintB_prints_int (hb : 2 ≤ base) (hb16 : base ≤ 16)
    (hn : nbr < 2 ^ T.bits) (padding : Int) (t : Terminal) :
    Prints (fun fuel => t.putuintB T fuel nbr base padding)
      (padded base padding.toNat nbr) t := by
  obtain ⟨k, hlen, hlt, hle⟩ := length_numeral (n := nbr) hb
  have hfall := falling_eq_numeral hb hlt hle
  have hzeros : (padding - k - 1).toNat = padding.toNat - (k + 1) := by
    omega
  have hcount : (padded base padding.toNat nbr).length
      = 0 + (padding.toNat - (k + 1)) + (k + 1) := by
    unfold padded
    rw [List.length_append, List.length_replicate, List.length_map, hlen]
    omega
  have hpad := padLoop_ends (padding - k) 0 t
  rw [hzeros] at hpad
  have hrest := Ends.bind hpad fun p : Nat × Terminal =>
    tailLoop_ends hb hb16 hlt p.1 p.2
  have hall := (leadLoop_gives padding hb hb16 hn hlt hle).ends
    (f := fun fuel s => padLoop fuel s.padding 0 t >>= fun p =>
      tailLoop base fuel ⟨nbr, s.l⟩ p.1 p.2) hrest
  unfold Prints
  rw [hcount]
  unfold padded
  rw [emit_append, hlen, ← hfall, Outcome.bind_assoc]
  simp only [Outcome.bind_assoc, Outcome.ret_bind] at hall
  exact hall

theorem putuintB_prints (hb : 2 ≤ base) (hb16 : base ≤ 16)
    (hn : nbr < 2 ^ T.bits) (padding : Nat) (t : Terminal) :
    Prints (fun fuel => t.putuintB T fuel nbr base padding)
      (padded base padding nbr) t :=
  putuintB_prints_int hb hb16 hn padding t

/-- A character before what is printed. -/
theorem Prints.cons {x : Nat → Terminal → Outcome (Nat × Terminal)}
    {c : UInt8} {text : List UInt8}
    (h : ∀ t, Prints (fun fuel => x fuel t) text t) (t : Terminal) :
    Prints (fun fuel => do
      let t ← t.tputcNoup c
      let (w, t) ← x fuel t
      .ret (1 + w, t)) (c :: text) t := by
  unfold Prints
  simp only [emit, Outcome.bind_assoc]
  refine .after fun t₁ => ?_
  have hrest := Ends.bind (h t₁) fun p : Nat × Terminal =>
    Ends.of_eq (x := fun _ => Outcome.ret (1 + p.1, p.2)) fun _ => rfl
  simp only [Outcome.bind_assoc, Outcome.ret_bind] at hrest
  rw [List.length_cons, Nat.add_comm text.length]
  exact hrest

/-- `putint_b` prints the sign and the numeral of the absolute value. -/
theorem putintB_prints (hb : 2 ≤ base) (hb16 : base ≤ 16) {n : Int}
    (hlow : -2 ^ 31 ≤ n) (hhigh : n < 2 ^ 31) (padding : Nat)
    (t : Terminal) :
    Prints (fun fuel => t.putintB fuel n base padding)
      ((if n < 0 then [0x2d] else []) ++ padded base padding n.natAbs) t := by
  unfold putintB
  by_cases hneg : n < 0
  · have habs : (-n % 2 ^ 32).toNat = n.natAbs := by omega
    simp only [hneg, if_true, habs, List.singleton_append]
    have hn : n.natAbs < 2 ^ UType.u32.bits := by
      show n.natAbs < 2 ^ 32
      omega
    exact Prints.cons (putuintB_prints hb hb16 hn padding) t
  · have habs : n.toNat = n.natAbs := by omega
    have hn : n.natAbs < 2 ^ UType.u32.bits := by
      show n.natAbs < 2 ^ 32
      omega
    simp only [hneg, if_false, habs, List.nil_append]
    have hrest := Ends.bind (putuintB_prints hb hb16 hn padding t)
      fun p : Nat × Terminal =>
        Ends.of_eq (x := fun _ => Outcome.ret (0 + p.1, p.2)) fun _ => rfl
    simp only [Outcome.bind_assoc, Outcome.ret_bind, Nat.zero_add] at hrest
    unfold Prints
    simp only [Nat.zero_add]
    exact hrest

/-- Numbers are printed as their numerals, padded with zeros: no power
overflows and no digit is out of reach on the way.

The first loop finds the highest power that is needed, the last one takes
the digits off from the top. As the first one divides the number while it
multiplies the power, the power never passes the number, and so it fits the
type. -/
theorem put_numeral (hb : 2 ≤ base) (hb16 : base ≤ 16) (padding : UInt8)
    (t : Terminal) :
    (∀ (T : UType) (nbr : Nat), nbr < 2 ^ T.bits →
      Prints (fun fuel => t.putuintB T fuel nbr base padding.toNat)
          (padded base padding.toNat nbr) t
        ∧ PowerFits T base nbr padding.toNat
        ∧ ∃ s, Outcome.Gives
            (fun fuel => leadLoop T base fuel ⟨nbr, 1, padding.toNat⟩) s
          ∧ DigitsBelow base nbr s.l)
    ∧ ∀ n : Int, -2 ^ 31 ≤ n → n < 2 ^ 31 →
      Prints (fun fuel => t.putintB fuel n base padding.toNat)
        ((if n < 0 then [0x2d] else [])
          ++ padded base padding.toNat n.natAbs) t := by
  refine ⟨fun T nbr hn => ⟨?_, ?_, ?_⟩, fun n hlow hhigh => ?_⟩
  · exact putuintB_prints hb hb16 hn padding.toNat t
  · exact powerFits hb hb16 hn
  · obtain ⟨k, -, hlt, hle⟩ := length_numeral (n := nbr) hb
    exact ⟨_, leadLoop_gives _ hb hb16 hn hlt hle, digitsBelow hb hlt⟩
  · exact putintB_prints hb hb16 hlow hhigh padding.toNat t

/-- A word in hexadecimal, eight digits wide. -/
theorem put_numeral_hex :
    Prints (fun fuel => TermCall.console.putuintB .u32 fuel 0xbeef 16 8)
        (ascii "0000beef") TermCall.console
      ∧ Prints (fun fuel => TermCall.console.putintB fuel (-2 ^ 31) 16 8)
        (ascii "-80000000") TermCall.console := by
  have h := @put_numeral 16 (by decide) (by decide) 8 TermCall.console
  have hword := (h.1 .u32 0xbeef (by decide)).1
  have hint := h.2 (-2 ^ 31) (by decide) (by decide)
  have htext : padded 16 8 0xbeef = ascii "0000beef" := by decide +kernel
  have hmin : padded 16 8 (-2 ^ 31 : Int).natAbs = ascii "80000000" := by
    decide +kernel
  rw [show (8 : UInt8).toNat = 8 from rfl] at hword hint
  rw [htext] at hword
  rw [hmin] at hint
  exact ⟨hword, hint⟩

end Terminal

end Ntibux
