/-
The colour at the end of a format.

Each directive acts on the two halves of the colour apart, and each half
ends with what the last directive that sets it sets. On the foreground the
code has one directive more than it is asked for, and on the background
one less: a bare `%G`, which does what a bare `%g` does.
-/
import Ntibux.Term.Proofs.Scan

namespace Ntibux

open Outcome (Ends Gives)

-- ================================================================ the halves

/-- The masks and shifts of the printer, on one byte. -/
theorem byte_halves (c : UInt8) :
    (c &&& (0xf0 : UInt8)) &&& 0xf = 0 ∧ (c &&& (0xf : UInt8)) >>> 4 = 0
      ∧ (c &&& (0xf0 : UInt8)) >>> 4 = c >>> 4
      ∧ (c <<< 4) &&& (0xf : UInt8) = 0
      ∧ (c <<< 4) >>> 4 = c &&& (0xf : UInt8) := by
  have h : ∀ i : Fin 256, let c := UInt8.ofFin i
      (c &&& (0xf0 : UInt8)) &&& 0xf = 0 ∧ (c &&& (0xf : UInt8)) >>> 4 = 0
      ∧ (c &&& (0xf0 : UInt8)) >>> 4 = c >>> 4
      ∧ (c <<< 4) &&& (0xf : UInt8) = 0
      ∧ (c <<< 4) >>> 4 = c &&& (0xf : UInt8) := by
    decide +kernel
  exact h c.toFin

theorem fgOf_or (a b : UInt8) : fgOf (a ||| b) = fgOf a ||| fgOf b := by
  apply UInt8.toBitVec_inj.mp
  exact BitVec.and_or_distrib_right

theorem bgOf_or (a b : UInt8) : bgOf (a ||| b) = bgOf a ||| bgOf b :=
  UInt8.shiftRight_or

theorem fgOf_fgOf (c : UInt8) : fgOf (fgOf c) = fgOf c :=
  UInt8.and_assoc c 0xf 0xf

/-- A colour on the background of another. -/
theorem halves_fg {a : UInt8} (ha : fgOf a = a) (c : UInt8) :
    fgOf (a ||| (c &&& 0xf0)) = a ∧ bgOf (a ||| (c &&& 0xf0)) = bgOf c := by
  obtain ⟨hlow, hhigh, hc, -, -⟩ := byte_halves c
  constructor
  · rw [fgOf_or, ha]
    unfold fgOf
    rw [hlow, UInt8.or_zero]
  · rw [bgOf_or, ← ha]
    unfold bgOf fgOf
    rw [(byte_halves a).2.1, hc, UInt8.zero_or]

/-- A background under the foreground of another colour. -/
theorem halves_bg (c m : UInt8) :
    fgOf ((c &&& (0xf : UInt8)) ||| (m <<< 4)) = fgOf c
      ∧ bgOf ((c &&& (0xf : UInt8)) ||| (m <<< 4)) = fgOf m := by
  obtain ⟨-, -, -, hm, hshift⟩ := byte_halves m
  constructor
  · rw [fgOf_or]
    show fgOf (fgOf c) ||| ((m <<< 4) &&& (0xf : UInt8)) = _
    rw [hm, fgOf_fgOf, UInt8.or_zero]
  · rw [bgOf_or]
    show (c &&& (0xf : UInt8)) >>> 4 ||| ((m <<< 4) >>> 4) = _
    rw [(byte_halves c).2.1, hshift, UInt8.zero_or]
    rfl

-- =============================================================== parameters

/-- The scanner reads the number of the digits, in eight bits. -/
theorem paramOf_eq {width : List UInt8}
    (hw : ∀ d ∈ width, isDigit d = true) :
    paramOf width = .ofNat (numberOf width) := by
  induction width using List.reverseRecOn with
  | nil => rfl
  | append_singleton width d ih =>
      have hd : 0x30 ≤ d.toNat := by
        have h := hw d (by simp)
        unfold isDigit at h
        rw [Bool.and_eq_true, decide_eq_true_iff] at h
        exact h.1
      have hstep : paramOf (width ++ [d]) = paramOf width * 10 + d - 0x30 := by
        unfold paramOf
        rw [List.foldl_append]
        rfl
      have hnumber : numberOf (width ++ [d])
          = numberOf width * 10 + (d.toNat - 0x30) := by
        unfold numberOf
        rw [List.foldl_append]
        rfl
      rw [hstep, hnumber, ih fun d' hd' => hw d' (by simp [hd'])]
      apply UInt8.toNat_inj.mp
      rw [UInt8.toNat_sub, UInt8.toNat_add, UInt8.toNat_mul,
        UInt8.toNat_ofNat', UInt8.toNat_ofNat']
      have hd' : d.toNat < 256 := d.toNat_lt
      show (256 - 48 + (numberOf width % 256 * 10 % 256 + d.toNat) % 256)
        % 256 = _
      omega

/-- A parameter that is a colour is read as it is. -/
theorem fgOf_ofNat {n : Nat} (h : n < 16) :
    fgOf (.ofNat n) = .ofNat n := by
  have hall : ∀ i : Fin 16, fgOf (.ofNat i.val) = .ofNat i.val := by decide
  exact hall ⟨n, h⟩

theorem paramOf_ne_zero {width : List UInt8}
    (hw : ∀ d ∈ width, isDigit d = true) (h : numberOf width < 16) :
    paramOf width ≠ 0 ↔ numberOf width ≠ 0 := by
  rw [paramOf_eq hw, ne_eq, ne_eq, not_iff_not, ← UInt8.toNat_inj,
    UInt8.toNat_ofNat']
  show numberOf width % 256 = 0 ↔ _
  rw [Nat.mod_eq_of_lt (by omega)]

-- =============================================================== directives

/-- What the code sets the foreground to at a piece. -/
def Piece.codeFg (defColor : UInt8) : Piece → Option UInt8
  | plain _ _ => none
  | directive width letter hw hl =>
      match Directive.of letter with
      | .bg => if numberOf width = 0 then some (fgOf defColor) else none
      | _ => (directive width letter hw hl).fg defColor

/-- A piece acts on the halves of the colour apart. -/
theorem Piece.paint_halves {p : Piece} (h : p.Coloured)
    (defColor color : UInt8) :
    fgOf (p.paint defColor color)
        = (p.codeFg defColor).getD (fgOf color)
      ∧ bgOf (p.paint defColor color)
        = (p.paramBg defColor).getD (bgOf color) := by
  cases p with
  | plain c hc => exact ⟨rfl, rfl⟩
  | directive width letter hw hl =>
      unfold Piece.paint Piece.codeFg Piece.fg Piece.paramBg
      unfold Piece.Coloured at h
      have hzero := halves_fg (fgOf_fgOf defColor) color
      cases hd : Directive.of letter
      case fg =>
          have hlt := h (.inl hd)
          simp only [hd, Directive.paint, paramOf_ne_zero hw hlt]
          by_cases hn : numberOf width = 0
          · simp only [hn, ne_eq, not_true_eq_false, if_false, if_true]
            exact hzero
          · simp only [hn, ne_eq, not_false_eq_true, if_true, if_false,
              paramOf_eq hw]
            exact halves_fg (fgOf_ofNat hlt) color
      case bg =>
          have hlt := h (.inr hd)
          simp only [hd, Directive.paint, paramOf_ne_zero hw hlt]
          by_cases hn : numberOf width = 0
          · simp only [hn, ne_eq, not_true_eq_false, if_false, if_true]
            exact hzero
          · simp only [hn, ne_eq, not_false_eq_true, if_true, if_false,
              paramOf_eq hw]
            have hhalves := halves_bg color (.ofNat (numberOf width))
            rw [fgOf_ofNat hlt] at hhalves
            exact hhalves
      all_goals
        simp only [hd]
        exact ⟨rfl, rfl⟩

/-- The colour after some pieces, half by half. -/
theorem foldl_paint {ps : List Piece} (h : ∀ p ∈ ps, p.Coloured)
    (defColor color : UInt8) :
    fgOf (ps.foldl (fun c p => p.paint defColor c) color)
        = lastSet (Piece.codeFg defColor) (fgOf color) ps
      ∧ bgOf (ps.foldl (fun c p => p.paint defColor c) color)
        = lastSet (Piece.paramBg defColor) (bgOf color) ps := by
  induction ps using List.reverseRecOn with
  | nil => exact ⟨rfl, rfl⟩
  | append_singleton ps p ih =>
      obtain ⟨hfg, hbg⟩ := ih fun q hq => h q (by simp [hq])
      obtain ⟨hpfg, hpbg⟩ := Piece.paint_halves (h p (by simp)) defColor
        (ps.foldl (fun c p => p.paint defColor c) color)
      rw [List.foldl_append, lastSet_concat, lastSet_concat, ← hfg, ← hbg]
      exact ⟨hpfg, hpbg⟩

/-- A bare `%G` sets the foreground in the code, and nothing in what it is
asked for. -/
theorem codeFg_of_bare {p : Piece} (h : p.BareBg) (defColor : UInt8) :
    p.codeFg defColor = some (fgOf defColor) ∧ p.fg defColor = none := by
  cases p with
  | plain c hc => exact h.elim
  | directive width letter hw hl =>
      obtain ⟨hd, hn⟩ := h
      unfold Piece.codeFg Piece.fg
      simp only [hd, hn, if_true, and_self]

theorem codeFg_of_not_bare {p : Piece} (h : ¬p.BareBg) (defColor : UInt8) :
    p.codeFg defColor = p.fg defColor := by
  cases p with
  | plain c hc => rfl
  | directive width letter hw hl =>
      unfold Piece.codeFg
      cases hd : Directive.of letter
      case bg =>
          have hn : ¬numberOf width = 0 := fun hn => h ⟨hd, hn⟩
          unfold Piece.fg
          simp only [hd, hn, if_false]
      all_goals simp only [hd]

/-- A bare `%G` is asked for the background, and the code sets nothing. -/
theorem bg_of_bare {p : Piece} (h : p.BareBg) (defColor : UInt8) :
    p.bg defColor = some (bgOf defColor) ∧ p.paramBg defColor = none := by
  cases p with
  | plain c hc => exact h.elim
  | directive width letter hw hl =>
      obtain ⟨hd, hn⟩ := h
      unfold Piece.bg Piece.paramBg
      simp only [hd, hn, if_true, and_self]

theorem bg_of_not_bare {p : Piece} (h : ¬p.BareBg) (defColor : UInt8) :
    p.bg defColor = p.paramBg defColor := by
  cases p with
  | plain c hc => rfl
  | directive width letter hw hl =>
      unfold Piece.bg Piece.paramBg
      cases hd : Directive.of letter
      case bg =>
          have hn : ¬numberOf width = 0 := fun hn => h ⟨hd, hn⟩
          simp only [hd, hn, if_false]
      all_goals simp only [hd]

namespace Terminal

variable {memory : Nat → List UInt8} {t : Terminal} {params : List Arg}
  {ps : List Piece}

/-- A format of complete pieces is printed to its end, and leaves the
colour that its pieces make one after the other. -/
theorem vprintk_paint (ht : t.Inside) (hh : (Piece.spell ps).head? ≠ LOG_HDR)
    (hp : Accept memory ps params) (logLevel : UInt8) :
    ∃ (w : Nat) (t' : Terminal), Gives (fun fuel =>
        t.vprintk memory logLevel fuel (Piece.spell ps ++ [0]) params) (w, t')
      ∧ t'.defColor = t.defColor
      ∧ t'.color = ps.foldl (fun c p => p.paint t.defColor c) t.color := by
  obtain ⟨rest, -, t', -, -, hcol, -, hdef, hrest⟩ :=
    scan_prints ht (.refl t) hp 0
  obtain ⟨w, hend⟩ : ∃ w, Gives (fun fuel =>
      t.scanLoop memory fuel (Piece.spell ps ++ [0]) params 0) (w, t') :=
    ⟨_, hrest [0] _ (.of_succ (.of_eq fun _ => rfl))⟩
  refine ⟨w, t', .of_succ ?_, hdef, hcol⟩
  cases hs : Piece.spell ps with
  | nil =>
      rw [hs] at hend
      exact hend
  | cons c s =>
      rw [hs] at hh hend
      have hc : c ≠ LOG_HDR := fun h => hh (congrArg some h)
      simp only [List.cons_append, vprintk_unheaded hc]
      exact hend

/-- The halves of the colour end as the last directives for them ask,
exactly if no bare `%G` has a say in it: that one sets the foreground to
the default one, and leaves the background.

Both halves of the colour are painted by the directives from left to right.
What the code paints differs from what is asked for at the bare `%G` only,
and a difference there shows at the end if nothing paints over it
(`lastSet_eq_iff`). -/
theorem vprintk_colour_iff (ht : t.Inside)
    (hh : (Piece.spell ps).head? ≠ LOG_HDR)
    (hcol : ∀ p ∈ ps, p.Coloured) (hp : Accept memory ps params)
    (logLevel : UInt8) :
    ∃ (w : Nat) (t' : Terminal), Gives (fun fuel =>
        t.vprintk memory logLevel fuel (Piece.spell ps ++ [0]) params) (w, t')
      ∧ t'.defColor = t.defColor
      ∧ ((fgOf t'.color
            = lastSet (Piece.fg t.defColor) (fgOf t.color) ps
          ∧ bgOf t'.color
            = lastSet (Piece.bg t.defColor) (bgOf t.color) ps)
        ↔ BareHarmless t.defColor t.color ps) := by
  obtain ⟨w, t', hg, hdef, hpaint⟩ := vprintk_paint ht hh hp logLevel
  obtain ⟨hfg, hbg⟩ := foldl_paint hcol t.defColor t.color
  refine ⟨w, t', hg, hdef, ?_⟩
  rw [hpaint, hfg, hbg]
  have hiff : lastSet (Piece.codeFg t.defColor) (fgOf t.color) ps
      = lastSet (Piece.fg t.defColor) (fgOf t.color) ps ↔ _ :=
    lastSet_eq_iff Piece.BareBg
      (fun _ hk => (codeFg_of_bare hk t.defColor).1)
      (fun _ hk => (codeFg_of_bare hk t.defColor).2)
      (fun _ hk => codeFg_of_not_bare hk t.defColor)
  have hiff' : lastSet (Piece.bg t.defColor) (bgOf t.color) ps
      = lastSet (Piece.paramBg t.defColor) (bgOf t.color) ps ↔ _ :=
    lastSet_eq_iff Piece.BareBg
      (fun _ hk => (bg_of_bare hk t.defColor).1)
      (fun _ hk => (bg_of_bare hk t.defColor).2)
      (fun _ hk => bg_of_not_bare hk t.defColor)
  exact and_congr hiff (eq_comm.trans hiff')

/-- A console in the middle of a message in green on blue. -/
def messageInGreen : Terminal := { TermCall.console with color := 0x12 }

/-- `%2G%4g!%r` leaves the default colour. -/
theorem vprintk_colour_reset :
    ∃ (w : Nat) (t' : Terminal), Gives (fun fuel =>
        messageInGreen.vprintk (fun _ => []) 4 fuel
          (ascii "%2G%4g!%r" ++ [0]) []) (w, t')
      ∧ fgOf t'.color = 7 ∧ bgOf t'.color = 0 := by
  have h := @vprintk_colour_iff (fun _ => []) messageInGreen []
    [.directive [0x32] 0x47 (List.forall_mem_singleton.mpr rfl) (by decide),
      .directive [0x34] 0x67 (List.forall_mem_singleton.mpr rfl) (by decide),
      .plain 0x21 (by decide),
      .directive [] 0x72 (List.forall_mem_nil _) (by decide)]
    ⟨by decide, by decide⟩ (by decide)
    (by
      intro p hp
      simp only [List.mem_cons, List.not_mem_nil, or_false] at hp
      rcases hp with rfl | rfl | rfl | rfl
      · exact fun _ => by decide
      · exact fun _ => by decide
      · trivial
      · exact fun _ => by decide)
    ⟨[], rfl, [], rfl, [], rfl, trivial⟩ 4
  obtain ⟨w, t', hg, -, hiff⟩ := h
  obtain ⟨hfg, hbg⟩ := hiff.mpr ⟨.inr rfl, .inr rfl⟩
  exact ⟨w, t', hg, hfg, hbg⟩

/-- `%G`, in a message in green on blue. The foreground, of which nothing
is asked, becomes the default one; the background stays. -/
theorem vprintk_bareBg :
    let ps : List Piece :=
      [.directive [] 0x47 (List.forall_mem_nil _) (by decide)]
    let t := messageInGreen
    Gives (fun fuel => t.vprintk (fun _ => []) 4 fuel
        (Piece.spell ps ++ [0]) []) (0, { t with color := 0x17 })
      ∧ Accept (fun _ => []) ps [] ∧ (∀ p ∈ ps, p.Coloured)
      ∧ fgOf 0x17 ≠ lastSet (Piece.fg t.defColor) (fgOf t.color) ps
      ∧ bgOf 0x17 ≠ lastSet (Piece.bg t.defColor) (bgOf t.color) ps := by
  refine ⟨.of_succ (.of_succ (.of_succ (.of_eq fun _ => rfl))),
    ⟨[], rfl, trivial⟩, ?_, by decide, by decide⟩
  intro p hp
  obtain rfl := List.mem_singleton.mp hp
  exact fun _ => by decide

end Terminal

end Ntibux
