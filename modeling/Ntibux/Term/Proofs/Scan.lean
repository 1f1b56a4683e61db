/-
The scanner of `vprintk`, piece by piece of its format.

A piece that is complete is taken off whole, whatever follows it
(`piece_prints`): a directive emits its text and then paints
(`directive_prints`), any other character is its own text. So a scan comes
to what its pieces print, and then to what the ending comes to
(`scan_prints`). Nothing but the NUL there, and it returns
(`scan_complete`); a `%` and digits, and the step over the letter is a step
over the NUL (`scan_ending`).

The scanner changes the colour where a directive stands, and `stamp` where
a character does. The two agree but for the colour that no character has
been written in yet, and it is `SameBut` that is kept from piece to piece.
A log header is a scan of its own in front (`header_prints`).
-/
import Ntibux.Term.Render

namespace Ntibux

open Outcome (Ends Gives)

-- ================================================================ parsing

/-- A digit does not end the string. -/
theorem ne_zero_of_isDigit {c : UInt8} (h : isDigit c = true) : c ≠ 0 := by
  rintro rfl
  cases h

/-- The digits are read up to what is not one. -/
theorem widthLoop_digits {width : List UInt8} {c : UInt8}
    (hw : ∀ d ∈ width, isDigit d = true) (hc : isDigit c = false)
    (rest : List UInt8) (param : UInt8) :
    widthLoop (width ++ c :: rest) param
      = .ret (width.foldl (fun p c => p * 10 + c - 0x30) param,
        c :: rest) := by
  induction width generalizing param with
  | nil =>
      rw [List.nil_append, widthLoop, if_neg]
      · rfl
      · rw [hc]
        exact fun h => Bool.false_ne_true h.2
  | cons d width ih =>
      have hd := hw d (by simp)
      rw [List.cons_append, widthLoop,
        if_pos ⟨ne_zero_of_isDigit hd, hd⟩, List.foldl_cons]
      exact ih (fun d' hd' => hw d' (List.mem_cons_of_mem d hd')) _

/-- Digits of a width do not end a directive. -/
theorem completeFrom_digits {digits s : List UInt8}
    (hw : ∀ d ∈ digits, isDigit d = true) :
    completeFrom true (digits ++ s) = completeFrom true s := by
  induction digits with
  | nil => rfl
  | cons d digits ih =>
      rw [List.cons_append, completeFrom, hw d (by simp)]
      exact ih fun d' hd' => hw d' (List.mem_cons_of_mem d hd')

/-- Pieces leave nothing begun, so that the rest decides. -/
theorem complete_spell (ps : List Piece) (s : List UInt8) :
    complete (Piece.spell ps ++ s) = complete s := by
  induction ps with
  | nil => rfl
  | cons p ps ih =>
      unfold Piece.spell at ih ⊢
      rw [List.flatMap_cons, List.append_assoc]
      cases p with
      | plain c h =>
          show completeFrom (c == 0x25) _ = _
          rw [beq_eq_false_iff_ne.mpr h.2]
          exact ih
      | directive width letter hw hl =>
          show completeFrom true ((width ++ [letter]) ++ _) = _
          rw [List.append_assoc, completeFrom_digits hw]
          show completeFrom (isDigit letter) _ = _
          rw [hl.2]
          exact ih

/-- What a format may end with: nothing, or a directive without its
letter. -/
def Ending (s : List UInt8) : Prop :=
  s = [] ∨ ∃ digits, s = 0x25 :: digits ∧ ∀ d ∈ digits, isDigit d = true

/-- A format that ends inside a directive is not complete. -/
theorem complete_ending {s : List UInt8} (h : Ending s) :
    complete s = true ↔ s = [] := by
  rcases h with rfl | ⟨digits, rfl, hw⟩
  · exact iff_of_true rfl rfl
  · refine iff_of_false ?_ (List.cons_ne_nil _ _)
    show ¬ completeFrom true digits = true
    have h := completeFrom_digits (s := []) hw
    rw [List.append_nil] at h
    rw [h]
    exact Bool.false_ne_true

/-- A string is its pieces and its ending. -/
theorem cut_eq {s : List UInt8} (h0 : 0 ∉ s)
    (w : Option { w : List UInt8 // ∀ d ∈ w, isDigit d = true }) :
    Piece.spell (Piece.cut w s).1 ++ (Piece.cut w s).2
        = (w.elim [] fun w => 0x25 :: w.val) ++ s
      ∧ Ending (Piece.cut w s).2 := by
  induction s generalizing w with
  | nil =>
      cases w with
      | none => exact ⟨rfl, .inl rfl⟩
      | some w => exact ⟨by simp [Piece.cut, Piece.spell],
          .inr ⟨w.val, rfl, w.property⟩⟩
  | cons c s ih =>
      have hc : c ≠ 0 := fun h => h0 (h ▸ List.mem_cons_self)
      have hs : 0 ∉ s := fun h => h0 (List.mem_cons_of_mem c h)
      cases w with
      | none =>
          obtain ⟨heq, he⟩ := ih hs none
          unfold Piece.cut
          by_cases hp : c = 0x25
          · rw [dif_neg (fun h => h.2 hp), hp]
            exact ih hs (some ⟨[], fun _ h => absurd h List.not_mem_nil⟩)
          · rw [dif_pos ⟨hc, hp⟩]
            refine ⟨?_, he⟩
            show c :: (Piece.spell _ ++ _) = c :: s
            rw [heq]
            rfl
      | some w =>
          unfold Piece.cut
          by_cases hd : isDigit c = true
          · rw [dif_pos hd]
            obtain ⟨heq, he⟩ := ih hs (some ⟨w.val ++ [c], _⟩)
            refine ⟨heq.trans ?_, he⟩
            simp
          · obtain ⟨heq, he⟩ := ih hs none
            rw [dif_neg hd, dif_pos hc]
            refine ⟨?_, he⟩
            show 0x25 :: (w.val ++ [c]) ++ Piece.spell _ ++ _ = _
            rw [List.append_assoc, heq]
            simp

/-- The directive takes no argument. -/
def Directive.free : Directive → Bool
  | .percent | .fg | .bg | .reset | .other => true
  | _ => false

def Piece.free : Piece → Bool
  | .plain _ _ => true
  | .directive _ letter _ _ => (Directive.of letter).free

/-- A directive that takes no argument accepts what is there. -/
theorem accepts_of_free {memory : Nat → List UInt8} {d : Directive}
    (h : d.free = true) (param : UInt8) (params : List Arg) :
    d.Accepts memory param params params := by
  cases d <;> first | rfl | cases h

/-- So does a format of such directives, and with none left. -/
theorem accept_of_free (memory : Nat → List UInt8) {ps : List Piece}
    (h : ps.all Piece.free = true) : Accept memory ps [] := by
  induction ps with
  | nil => trivial
  | cons p ps ih =>
      rw [List.all_cons, Bool.and_eq_true] at h
      cases p with
      | plain c hc => exact ih h.2
      | directive width letter hw hl =>
          exact ⟨[], accepts_of_free h.1 _ [], ih h.2⟩

/-- The formats of the log levels are complete and take nothing. -/
theorem klogText_ok : ∀ i : Fin 8, klog.get i = klogText i ++ [0]
    ∧ 0 ∉ klogText i ∧ complete (klogText i) = true
    ∧ (klogText i).head? = some 0x25
    ∧ (pieces (klogText i)).all Piece.free = true := by
  decide +kernel

/-- The levels are the digits up to 7. -/
theorem levelOf_eq {d : UInt8} (h1 : 0x30 ≤ d) (h7 : d ≤ 0x37) :
    ∃ i : Fin 8, levelOf d = i.val := by
  have hlow : 48 ≤ d.toNat := h1
  have hhigh : d.toNat ≤ 55 := h7
  obtain ⟨i, rfl⟩ : ∃ i : Fin 8, d = UInt8.ofNat (48 + i.val) := by
    refine ⟨⟨d.toNat - 48, by omega⟩, ?_⟩
    apply UInt8.toNat_inj.mp
    rw [UInt8.toNat_ofNat']
    dsimp only
    omega
  refine ⟨i, ?_⟩
  clear h1 h7 hlow hhigh
  revert i
  decide

-- ==================================================================== ink

section

variable {memory : Nat → List UInt8} {d : Directive} {param : UInt8}
  {params rest : List Arg} {ps qs : List Piece} {defColor color : UInt8}

/-- The arguments behind a directive. -/
theorem text_rest (h : d.Accepts memory param params rest) :
    (d.text memory param params).2 = rest := by
  cases d with
  | string =>
      obtain ⟨p, rfl, -⟩ := h
      rfl
  | ulong | uint | int | pointer | hex | binary | char =>
      obtain ⟨n, -, rfl⟩ := h
      rfl
  | percent | fg | bg | reset | other =>
      obtain rfl : params = rest := h
      cases params with
      | nil => rfl
      | cons a params => cases a <;> rfl

/-- It takes none, and prints the same whatever there is. -/
theorem text_of_free (h : d.free = true) (param : UInt8)
    (params : List Arg) :
    d.text memory param params = ((d.text memory param []).1, params) := by
  cases d with
  | percent | fg | bg | reset | other =>
      cases params with
      | nil => rfl
      | cons a params => cases a <;> rfl
  | _ => cases h

/-- The same of a piece. -/
theorem free_text {p : Piece} (h : p.free = true) (params : List Arg) :
    p.text memory params = ((p.text memory []).1, params) := by
  cases p with
  | plain c hc => rfl
  | directive width letter hw hl => exact text_of_free h _ params

/-- Pieces that take no arguments, before others. -/
theorem ink_append (h : ps.all Piece.free = true) (qs : List Piece)
    (color : UInt8) (params : List Arg) :
    ink memory defColor (ps ++ qs) color params
      = ink memory defColor ps color []
        ++ ink memory defColor qs (colorAfter defColor ps color) params := by
  induction ps generalizing color with
  | nil => rfl
  | cons p ps ih =>
      rw [List.all_cons, Bool.and_eq_true] at h
      rw [List.cons_append, ink, ink, free_text h.1 params,
        free_text h.1 [], ih h.2, List.append_assoc]
      rfl

/-- How much is printed does not depend on the colours. -/
theorem ink_length (ps : List Piece) (color color' : UInt8)
    (params : List Arg) :
    (ink memory defColor ps color params).length
      = (ink memory defColor ps color' params).length := by
  induction ps generalizing color color' params with
  | nil => rfl
  | cons p ps ih =>
      rw [ink, ink, List.length_append, List.length_append, List.length_map,
        List.length_map, ih]

/-- Pieces colour in sequence. -/
theorem colorAfter_append (ps qs : List Piece) (color : UInt8) :
    colorAfter defColor (ps ++ qs) color
      = colorAfter defColor qs (colorAfter defColor ps color) :=
  List.foldl_append

end

namespace Terminal

variable {memory : Nat → List UInt8} {t t' t₁ u u₁ : Terminal}
  {params rest : List Arg} {param : UInt8} {s : List UInt8} {is js : List Ink}

-- ================================================================== stamps

/-- Ink is stamped in sequence. -/
theorem stamp_append (is js : List Ink) (t : Terminal) :
    stamp (is ++ js) t = stamp is t >>= stamp js := by
  induction is generalizing t with
  | nil => rfl
  | cons i is ih =>
      rw [List.cons_append, stamp, stamp]
      cases (t.setColor i.color).tputcNoup i.char with
      | ret t₁ => exact ih t₁
      | _ => rfl

/-- The two differ in the colour alone. -/
def SameBut (u t : Terminal) : Prop := u.setColor t.color = t

theorem SameBut.refl (t : Terminal) : SameBut t t := rfl

/-- Where the two get a colour, they become the same. -/
theorem SameBut.setColor (h : SameBut u t) (color : UInt8) :
    u.setColor color = t.setColor color := by
  unfold SameBut at h
  rw [← h]
  rfl

/-- A text in one colour, stamped. -/
theorem stamp_emit (h : SameBut u t) (hm : Inside t)
    (he : emit s t = .ret t') :
    ∃ u', stamp (s.map fun c => ⟨c, t.color⟩) u = .ret u'
      ∧ SameBut u' t' := by
  cases s with
  | nil =>
      obtain rfl : t = t' := Outcome.ret.inj he
      exact ⟨u, rfl, h⟩
  | cons c s =>
      -- from the first character on there is no difference at all
      have hrest : ∀ (s : List UInt8) (t t' : Terminal) (color : UInt8),
          t.Inside → t.color = color → emit s t = .ret t' →
            stamp (s.map fun c => ⟨c, color⟩) t = .ret t' := by
        intro s
        induction s with
        | nil => exact fun t t' color _ _ he => he
        | cons c s ih =>
            intro t t' color hin hcol he
            obtain ⟨t₁, h₁, hm₁⟩ := tputcNoup_moved hin c
            rw [emit, h₁, Outcome.ret_bind] at he
            have hset : t.setColor color = t := by
              rw [← hcol]
              rfl
            rw [List.map_cons, stamp, hset, h₁, Outcome.ret_bind]
            exact ih t₁ t' color hm₁.inside (hm₁.color.trans hcol) he
      obtain ⟨t₁, h₁, hm₁⟩ := tputcNoup_moved hm c
      rw [emit, h₁, Outcome.ret_bind] at he
      refine ⟨t', ?_, .refl t'⟩
      have hu : u.setColor t.color = t := h
      rw [List.map_cons, stamp, hu, h₁, Outcome.ret_bind]
      exact hrest s t₁ t' t.color hm₁.inside hm₁.color he

-- ============================================================== directives

/-- A number that is taken off the list is printed. -/
theorem putArg_prints {base n : Nat} (hb : 2 ≤ base) (hb16 : base ≤ 16)
    (hn : n < 2 ^ 32) (ht : t.Inside) (param : UInt8) (rest : List Arg) :
    ∃ t', emit (padded base param.toNat n) t = .ret t' ∧ Moved t t' ∧
      Gives (fun fuel => t.putArg fuel base param (.int n :: rest))
        ((padded base param.toNat n).length, rest, t') := by
  have hp : Prints (fun fuel => t.putuintB .u32 fuel n base param.toNat)
      (padded base param.toNat n) t := putuintB_prints hb hb16 hn _ t
  obtain ⟨t', he, hm, hg⟩ := hp.emits ht
  exact ⟨t', he, hm, hg.bind (.of_eq fun _ => rfl)⟩

/-- Every directive that has its argument prints its text, and paints. -/
theorem directive_prints {d : Directive} (ht : t.Inside)
    (h : d.Accepts memory param params rest) :
    ∃ t', emit (d.text memory param params).1 t = .ret t' ∧
      Gives (fun fuel => t.directive memory fuel d param params)
        ((d.text memory param params).1.length, rest,
          t'.setColor (d.paint param t.defColor t.color)) := by
  -- all but the colour directives leave the colour as it is
  have hkeep : ∀ {t'}, Moved t t' → t'.setColor t.color = t' := by
    intro t' hm
    rw [← hm.color]
    rfl
  cases d with
  | percent =>
      obtain rfl : params = rest := h
      obtain ⟨t', hc, hm⟩ := tputcNoup_moved ht 0x25
      refine ⟨t', ?_, .of_eq fun _ => ?_⟩
      · show emit [0x25] t = _
        rw [emit, hc, Outcome.ret_bind, emit]
      · show _ = Outcome.ret (1, params, t'.setColor t.color)
        rw [hkeep hm]
        simp only [directive, hc, Outcome.ret_bind]
  | string =>
      obtain ⟨p, rfl, hs⟩ := h
      -- without a width the string goes to its NUL, with one to the width
      by_cases hparam : param = 0
      · rw [if_pos hparam] at hs
        obtain ⟨t', he, hm⟩ := emit_moved ht ((memory p).takeWhile (· ≠ 0))
        have hw : t.tputsNoup (memory p)
            = .ret (((memory p).takeWhile (· ≠ 0)).length, t') := by
          unfold tputsNoup
          rw [putString_eq hs, he, Outcome.ret_bind, Outcome.pure_eq]
        refine ⟨t', ?_, .of_eq fun _ => ?_⟩
        · simp only [Directive.text, hparam, if_true]
          exact he
        · show _ = Outcome.ret (_, rest, t'.setColor t.color)
          rw [hkeep hm]
          simp only [directive, vaStr, Outcome.ret_bind, hparam, ne_eq,
            not_true_eq_false, if_false, hw, Directive.text, if_true]
      · rw [if_neg hparam] at hs
        obtain ⟨t', he, hm⟩ := emit_moved ht ((memory p).take param.toNat)
        have hlen : ((memory p).take param.toNat).length = param.toNat := by
          rw [List.length_take]
          omega
        have hw : t.tputsNoupN (memory p) param.toNat
            = .ret (((memory p).take param.toNat).length, t') := by
          unfold tputsNoupN
          rw [putChars_eq hs, he, Outcome.ret_bind, Outcome.pure_eq, hlen]
        refine ⟨t', ?_, .of_eq fun _ => ?_⟩
        · simp only [Directive.text, hparam, if_false]
          exact he
        · show _ = Outcome.ret (_, rest, t'.setColor t.color)
          rw [hkeep hm]
          simp only [directive, vaStr, Outcome.ret_bind, hparam, ne_eq,
            not_false_eq_true, if_true, hw, Directive.text, if_false]
  | ulong =>
      obtain ⟨n, hn, rfl⟩ := h
      have hp : Prints (fun fuel => t.putuintB .u64 fuel n 10 param.toNat)
          (padded 10 param.toNat n) t :=
        putuintB_prints (by decide) (by decide) hn _ t
      obtain ⟨t', he, hm, hg⟩ := hp.emits ht
      refine ⟨t', he, ?_⟩
      show Gives _ (_, rest, t'.setColor t.color)
      rw [hkeep hm]
      exact hg.bind (.of_eq fun _ => rfl)
  | int =>
      obtain ⟨n, hn, rfl⟩ := h
      obtain ⟨hlow, hhigh⟩ := int32_bounds hn
      have hp : Prints (fun fuel => t.putintB fuel (int32 n) 10 param.toNat)
          (Directive.int.text memory param (.int n :: rest)).1 t :=
        putintB_prints (by decide) (by decide) hlow hhigh _ t
      obtain ⟨t', he, hm, hg⟩ := hp.emits ht
      refine ⟨t', he, ?_⟩
      show Gives _ (_, rest, t'.setColor t.color)
      rw [hkeep hm]
      exact hg.bind (.of_eq fun _ => rfl)
  | pointer =>
      obtain ⟨n, hn, rfl⟩ := h
      -- `case 'p'` prints the prefix and falls through to `case 'x'`
      obtain ⟨t₁, he₁, hm₁⟩ := emit_moved ht (ascii "0x")
      have hstart : t.tputsNoup (ascii "0x" ++ [0]) = .ret (2, t₁) := by
        have hnul : (0 : UInt8) ∈ ascii "0x" ++ [0] := by decide
        have htext : (ascii "0x" ++ [0]).takeWhile (· ≠ 0) = ascii "0x" := by
          decide
        unfold tputsNoup
        rw [putString_eq hnul, htext, he₁]
        rfl
      obtain ⟨t', he, hm, hg⟩ := @putArg_prints t₁ 16 n (by decide)
        (by decide) hn hm₁.inside param rest
      refine ⟨t', ?_, ?_⟩
      · show emit (ascii "0x" ++ padded 16 param.toNat n) t = _
        rw [emit_append, he₁, Outcome.ret_bind, he]
      show Gives _ (_, rest, t'.setColor t.color)
      rw [hkeep (hm₁.trans hm)]
      simp only [directive, hstart, Outcome.ret_bind]
      refine hg.bind (.of_eq fun _ => ?_)
      simp only [Directive.text, List.length_append]
      rfl
  | uint =>
      obtain ⟨n, hn, rfl⟩ := h
      obtain ⟨t', he, hm, hg⟩ :=
        @putArg_prints t 10 n (by decide) (by decide) hn ht param rest
      exact ⟨t', he, hkeep hm ▸ hg⟩
  | hex =>
      obtain ⟨n, hn, rfl⟩ := h
      obtain ⟨t', he, hm, hg⟩ :=
        @putArg_prints t 16 n (by decide) (by decide) hn ht param rest
      exact ⟨t', he, hkeep hm ▸ hg⟩
  | binary =>
      obtain ⟨n, hn, rfl⟩ := h
      obtain ⟨t', he, hm, hg⟩ :=
        @putArg_prints t 2 n (by decide) (by decide) hn ht param rest
      exact ⟨t', he, hkeep hm ▸ hg⟩
  | char =>
      obtain ⟨n, hn, rfl⟩ := h
      obtain ⟨t', hc, hm⟩ := tputcNoup_moved ht (.ofNat n)
      refine ⟨t', ?_, .of_eq fun _ => ?_⟩
      · show emit [.ofNat n] t = _
        rw [emit, hc, Outcome.ret_bind, emit]
      · show _ = Outcome.ret (1, rest, t'.setColor t.color)
        rw [hkeep hm]
        simp only [directive, vaInt, hc, Outcome.ret_bind]
  | fg =>
      obtain rfl : params = rest := h
      rw [text_of_free rfl]
      refine ⟨t, rfl, .of_eq fun _ => ?_⟩
      show Outcome.ret (0, params, t.setParamFg param) = _
      unfold setParamFg Directive.paint
      split <;> rfl
  | bg =>
      obtain rfl : params = rest := h
      rw [text_of_free rfl]
      refine ⟨t, rfl, .of_eq fun _ => ?_⟩
      show Outcome.ret (0, params, t.setParamBg param) = _
      unfold setParamBg Directive.paint
      split <;> rfl
  | reset =>
      obtain rfl : params = rest := h
      rw [text_of_free rfl]
      exact ⟨t, rfl, .of_eq fun _ => rfl⟩
  | other =>
      obtain rfl : params = rest := h
      rw [text_of_free rfl]
      exact ⟨t, rfl, .of_eq fun _ => rfl⟩

-- ================================================================ the scan

/-- One piece is printed, and painted. -/
theorem piece_prints {p : Piece} {ps : List Piece} (ht : t.Inside)
    (hp : Accept memory (p :: ps) params) (w : Nat) :
    ∃ t', emit (p.text memory params).1 t = .ret t' ∧
      Accept memory ps (p.text memory params).2 ∧
      ∀ s o, Ends (fun fuel => (t'.setColor
          (p.paint t.defColor t.color)).scanLoop memory fuel s
            (p.text memory params).2
            (u32 (w + (p.text memory params).1.length))) o →
        Ends (fun fuel => t.scanLoop memory fuel (p.bytes ++ s) params w) o := by
  cases p with
  | plain c hc =>
      obtain ⟨t', h', hm⟩ := tputcNoup_moved ht c
      refine ⟨t', ?_, hp, fun s o h => .of_succ ?_⟩
      · show emit [c] t = _
        rw [emit, h', Outcome.ret_bind, emit]
      · have hcol : t'.setColor t.color = t' := by
          rw [← hm.color]
          rfl
        change Ends (fun fuel => (t'.setColor t.color).scanLoop memory fuel s
          params (u32 (w + 1))) o at h
        rw [hcol] at h
        show Ends (fun fuel => t.scanLoop memory (fuel + 1) (c :: s)
          params w) o
        simp only [scanLoop, hc.1, if_false, hc.2, h', Outcome.ret_bind]
        exact h
  | directive width letter hw hl =>
      obtain ⟨rest, hacc, hp⟩ := hp
      obtain ⟨t', he, hg⟩ := directive_prints ht hacc
      have hrest := text_rest hacc
      refine ⟨t', he, ?_, fun s o h => .of_succ ?_⟩
      · show Accept memory ps ((Directive.of letter).text memory
          (paramOf width) params).2
        rw [hrest]
        exact hp
      · have hwidth := widthLoop_digits hw hl.2 s 0
        have hbytes : (Piece.directive width letter hw hl).bytes ++ s
            = 0x25 :: (width ++ letter :: s) := by
          simp [Piece.bytes]
        rw [hbytes]
        simp only [scanLoop, show (0x25 : UInt8) ≠ 0 by decide, if_false,
          if_true, hwidth, Outcome.ret_bind]
        refine hg.ends ?_
        rw [← hrest]
        exact h

/-- The pieces at the front of a format are printed one by one. -/
theorem scan_prints {ps : List Piece} (ht : t.Inside) (hu : SameBut u t)
    (hp : Accept memory ps params) (w : Nat) :
    ∃ (rest : List Arg) (u' t' : Terminal),
      stamp (ink memory t.defColor ps t.color params) u = .ret u' ∧
      SameBut u' t' ∧ t'.color = colorAfter t.defColor ps t.color ∧
      t'.Inside ∧ t'.defColor = t.defColor ∧
      ∀ s o, Ends (fun fuel => t'.scanLoop memory fuel s rest
          (u32 (w + (ink memory t.defColor ps t.color params).length))) o →
        Ends (fun fuel =>
          t.scanLoop memory fuel (Piece.spell ps ++ s) params (u32 w)) o := by
  induction ps generalizing t u params w with
  | nil => exact ⟨params, u, t, rfl, hu, rfl, ht, rfl, fun _ _ h => h⟩
  | cons p ps ih =>
      obtain ⟨t₁, he, hp₁, hone⟩ := piece_prints ht hp (u32 w)
      obtain ⟨t₁', he', hm⟩ := emit_moved ht (p.text memory params).1
      obtain rfl : t₁ = t₁' := Outcome.ret.inj (he.symm.trans he')
      obtain ⟨u₁, hs₁, hu₁⟩ := stamp_emit hu ht he
      -- the terminal behind the piece, with the colour that it sets
      obtain ⟨t₂, ht₂⟩ : ∃ t₂, t₁.setColor (p.paint t.defColor t.color) = t₂ :=
        ⟨_, rfl⟩
      have hin : t₂.Inside := ht₂ ▸ ⟨hm.inside.x_lt, hm.inside.y_lt⟩
      have hdef : t₂.defColor = t.defColor := ht₂ ▸ hm.defColor
      have hcol : t₂.color = p.paint t.defColor t.color := ht₂ ▸ rfl
      have hu₂ : SameBut u₁ t₂ := by
        unfold SameBut
        rw [hcol, hu₁.setColor, ht₂]
      obtain ⟨rest, u', t', hs, hsame, hcolor, hin', hdef', hrest⟩ :=
        ih hin hu₂ hp₁ (w + (p.text memory params).1.length)
      rw [hdef, hcol] at hs hrest
      have hlen : (ink memory t.defColor (p :: ps) t.color params).length
          = (p.text memory params).1.length + (ink memory t.defColor ps
            (p.paint t.defColor t.color) (p.text memory params).2).length := by
        rw [ink, List.length_append, List.length_map]
      refine ⟨rest, u', t', ?_, hsame, ?_, hin', hdef'.trans hdef,
        fun s o h => ?_⟩
      · rw [ink, stamp_append, hs₁, Outcome.ret_bind, hs]
      · rw [hcolor, hdef, hcol]
        rfl
      · rw [hlen, ← Nat.add_assoc] at h
        have hnext := hrest s o h
        have hmod : u32 (u32 w + (p.text memory params).1.length)
            = u32 (w + (p.text memory params).1.length) :=
          Nat.mod_add_mod ..
        have hbytes : Piece.spell (p :: ps) ++ s
            = p.bytes ++ (Piece.spell ps ++ s) := by
          simp [Piece.spell]
        rw [hbytes]
        refine hone _ o ?_
        rw [hmod, ht₂]
        exact hnext

/-- At the end of the format: the NUL, or a directive without its letter
and the step over the NUL. -/
theorem scan_ending (h : Ending s) (w : Nat) (params : List Arg)
    (t : Terminal) :
    Ends (fun fuel => t.scanLoop memory fuel (s ++ [0]) params w)
      (if s = [] then .ret (w, t) else .fault) := by
  rcases h with rfl | ⟨digits, rfl, hw⟩
  · exact .of_succ (.of_eq fun _ => rfl)
  · have hwidth := widthLoop_digits hw
      (show isDigit 0 = false by decide) [] 0
    refine .of_succ (.of_succ (.of_eq fun _ => ?_))
    rw [if_neg (List.cons_ne_nil _ _), List.cons_append]
    simp only [scanLoop, show (0x25 : UInt8) ≠ 0 by decide,
      if_false, if_true, hwidth, Outcome.ret_bind]
    rfl

/-- A complete format is printed. -/
theorem scan_complete (ht : t.Inside) (hu : SameBut u t) (h0 : 0 ∉ s)
    (hc : complete s = true) (hp : RightTypes memory s params) :
    ∃ u' t', stamp (ink memory t.defColor (pieces s) t.color params) u
        = .ret u' ∧
      SameBut u' t' ∧ t'.color = colorAfter t.defColor (pieces s) t.color ∧
      t'.Inside ∧ t'.defColor = t.defColor ∧
      Gives (fun fuel => t.scanLoop memory fuel (s ++ [0]) params 0)
        (u32 (ink memory t.defColor (pieces s) t.color params).length,
          t') := by
  obtain ⟨heq, he⟩ := cut_eq h0 none
  have hs : Piece.spell (pieces s) ++ (Piece.cut none s).2 = s := heq
  have hnil : (Piece.cut none s).2 = [] := by
    rw [← complete_ending he, ← complete_spell (pieces s), hs]
    exact hc
  rw [hnil, List.append_nil] at hs
  obtain ⟨rest, u', t', hst, hsame, hcol, hin, hdef, hrest⟩ :=
    scan_prints ht hu hp 0
  refine ⟨u', t', hst, hsame, hcol, hin, hdef, ?_⟩
  have hend := hrest [0] _ (.of_succ (.of_eq fun _ => rfl))
  rw [hs, Nat.zero_add] at hend
  exact hend

-- ================================================================= header

/-- The text of a level, if it is to be printed. -/
theorem header_prints {d : UInt8} (ht : t.Inside) (hu : SameBut u t)
    (h1 : 0x30 ≤ d) (h7 : d ≤ 0x37) (logLevel : UInt8)
    (hlevel : levelOf d ≤ logLevel.toNat) (body : List UInt8) :
    ∃ u' t', stamp (ink memory t.defColor
        (levelPieces (LOG_HDR :: d :: body)) t.color []) u = .ret u' ∧
      SameBut u' t' ∧ t'.color = colorAfter t.defColor
        (levelPieces (LOG_HDR :: d :: body)) t.color ∧
      t'.Inside ∧ t'.defColor = t.defColor ∧
      (levelPieces (LOG_HDR :: d :: body)).all Piece.free = true ∧
      Gives (fun fuel => logHeader logLevel
        (fun format => t.vprintk memory logLevel fuel format [])
        (levelOf d) t) t' := by
  obtain ⟨i, hi⟩ := levelOf_eq h1 h7
  obtain ⟨heq, h0, hc, hhead, hfree⟩ := klogText_ok i
  have hpieces : levelPieces (LOG_HDR :: d :: body)
      = pieces (klogText i) := by
    unfold levelPieces levelIn
    simp only [if_true, hi, Int.toNat_natCast, i.isLt, dif_pos]
  have hat : klogAt (levelOf d) = .ret (klogText i ++ [0]) := by
    unfold klogAt
    rw [hi, if_neg (by omega), ← heq]
    exact Outcome.load_ret _ i.isLt
  -- a level's format starts with a directive, and so has no level itself
  obtain ⟨text, htext⟩ : ∃ text, klogText i = 0x25 :: text := by
    cases h : klogText i with
    | nil =>
        rw [h] at hhead
        cases hhead
    | cons c text =>
        rw [h] at hhead
        obtain rfl : c = 0x25 := Option.some.inj hhead
        exact ⟨text, rfl⟩
  have hquiet : hushed logLevel (klogText i ++ [0]) = .ret false := by
    rw [htext]
    rfl
  obtain ⟨u', t', hst, hsame, hcol, hin, hdef, hg⟩ :=
    scan_complete ht hu h0 hc (accept_of_free memory hfree)
  rw [hpieces]
  refine ⟨u', t', hst, hsame, hcol, hin, hdef, hfree, ?_⟩
  have hprint : Gives (fun fuel =>
      t.vprintk memory logLevel fuel (klogText i ++ [0]) [])
      (u32 (ink memory t.defColor (pieces (klogText i)) t.color []).length,
        t') := by
    refine .of_succ ?_
    rw [htext] at hg ⊢
    exact hg
  simp only [logHeader, hlevel, if_true, hat, Outcome.ret_bind, printkNoup,
    hquiet, Bool.false_eq_true, if_false]
  exact hprint.bind (.of_eq fun _ => rfl)

/-- Without a header there is only the scan. -/
theorem vprintk_unheaded {c : UInt8} (hc : c ≠ LOG_HDR) (logLevel : UInt8)
    (fuel : Nat) (params : List Arg) :
    t.vprintk memory logLevel (fuel + 1) (c :: s) params
      = t.scanLoop memory fuel (c :: s) params 0 :=
  if_neg hc

end Terminal

end Ntibux
