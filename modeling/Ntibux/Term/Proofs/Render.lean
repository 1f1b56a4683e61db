/-
A message is on the screen as its format and its arguments spell it.

What is behind the header is a scan, and what is in front of it another
one (`vprintk_prints`); `printk` is both, with the copy to the hardware at
the end (`printk_prints`). Ink on the screen is ink on a page, wherever
the rows have gone that are out of sight (`stamp_shows`).
-/
import Ntibux.Term.Proofs.Scan

namespace Ntibux

open Outcome (Ends Gives)

namespace Terminal

variable {memory : Nat → List UInt8} {t t' u : Terminal} {params : List Arg}
  {s : List UInt8} {is : List Ink}

-- ================================================================= printk

/-- The format behind the header, and the header if there is one. -/
theorem vprintk_prints (ht : t.Inside) (h0 : 0 ∉ s) (hh : Headed s)
    (hc : complete (unheaded s) = true)
    (hp : RightTypes memory (unheaded s) params) (logLevel : UInt8)
    (hloud : ¬Quiet logLevel s) :
    ∃ u t', stamp (ink memory t.defColor (messagePieces s) t.color params) t
        = .ret u ∧
      SameBut u t' ∧
      t'.color = colorAfter t.defColor (messagePieces s) t.color ∧
      Gives (fun fuel => t.vprintk memory logLevel fuel (s ++ [0]) params)
        (u32 (ink memory t.defColor (pieces (unheaded s)) t.color
          params).length, t') := by
  unfold messagePieces
  cases s with
  | nil =>
      obtain ⟨u, t', hst, hsame, hcol, -, -, hg⟩ :=
        scan_complete ht (.refl t) h0 hc hp
      exact ⟨u, t', hst, hsame, hcol, .of_succ hg⟩
  | cons c s =>
      by_cases hlog : c = LOG_HDR
      · -- the level is printed first, with no arguments of its own
        obtain ⟨d, rest, rfl, h1, h7⟩ := hh hlog
        have hun : unheaded (c :: d :: rest) = rest := if_pos hlog
        have hlevel : levelOf d ≤ logLevel.toNat := by
          by_contra hgt
          exact hloud ⟨levelOf d, if_pos hlog, by omega⟩
        rw [hun] at hp hc ⊢
        subst hlog
        obtain ⟨u₁, t₁, hst₁, hsame₁, hcol₁, hin₁, hdef₁, hfree, hheader⟩ :=
          @header_prints memory _ _ _ ht (.refl t) h1 h7 logLevel hlevel rest
        have h0' : 0 ∉ rest := fun h => h0
          (List.mem_cons_of_mem _ (List.mem_cons_of_mem d h))
        obtain ⟨u, t', hst, hsame, hcol, -, -, hg⟩ :=
          scan_complete hin₁ hsame₁ h0' hc hp
        rw [hdef₁, hcol₁] at hst hcol
        rw [hdef₁, ink_length _ _ t.color] at hg
        refine ⟨u, t', ?_, hsame, ?_, .of_succ ?_⟩
        · rw [ink_append hfree, stamp_append, hst₁, Outcome.ret_bind, hst]
        · rw [colorAfter_append, hcol]
        · simp only [List.cons_append, vprintk, if_true]
          exact hheader.bind hg
      · have hun : unheaded (c :: s) = c :: s := if_neg hlog
        rw [hun] at hp hc ⊢
        -- a message without a level
        have hnone : levelPieces (c :: s) = [] := by
          have hlevel : levelIn (c :: s) = none := by
            cases s with
            | nil => rfl
            | cons d s => exact if_neg hlog
          unfold levelPieces
          rw [hlevel]
        obtain ⟨u, t', hst, hsame, hcol, -, -, hg⟩ :=
          scan_complete ht (.refl t) h0 hc hp
        rw [hnone, List.nil_append]
        refine ⟨u, t', hst, hsame, hcol, .of_succ ?_⟩
        simp only [List.cons_append, vprintk_unheaded hlog]
        exact hg

/-- Whether `printk` keeps quiet. -/
theorem hushed_eq (hh : Headed s) (logLevel : UInt8) :
    hushed logLevel (s ++ [0]) = .ret (decide (Quiet logLevel s)) := by
  cases s with
  | nil => rfl
  | cons c s =>
      by_cases hlog : c = LOG_HDR
      · obtain ⟨d, rest, rfl, -, -⟩ := hh hlog
        have hlevel : levelIn (c :: d :: rest) = some (levelOf d) :=
          if_pos hlog
        have hquiet : Quiet logLevel (c :: d :: rest)
            ↔ (logLevel.toNat : Int) < levelOf d := by
          unfold Quiet
          rw [hlevel]
          simp
        simp only [List.cons_append, hushed, hlog, if_true]
        rw [← hlog]
        exact congrArg Outcome.ret (decide_eq_decide.mpr hquiet.symm)
      · have hlevel : levelIn (c :: s) = none := by
          cases s with
          | nil => rfl
          | cons d s => exact if_neg hlog
        have hquiet : ¬Quiet logLevel (c :: s) := by
          unfold Quiet
          rw [hlevel]
          simp
        rw [decide_eq_false hquiet, List.cons_append]
        unfold hushed
        exact if_neg hlog

/-- Ink on a page: every character is a cell in its colour, or a new
row. -/
theorem stamp_shows {dcol : UInt8} {p : Sheet dcol} (h : Shows t p)
    (hcr : ∀ i ∈ is, i.char ≠ 0x0d) (hst : stamp is t = .ret u) :
    Shows u (p.writes (is.map fun i => mark i.color i.char)) := by
  induction is generalizing t p with
  | nil =>
      obtain rfl : t = u := Outcome.ret.inj hst
      exact h
  | cons i is ih =>
      have hset : Shows (t.setColor i.color) p := ⟨h.default, h.col, h.window⟩
      obtain ⟨t₁, h₁, -, hshow⟩ := tputcNoup_shows hset (hcr i (by simp))
      rw [stamp, h₁, Outcome.ret_bind] at hst
      exact ih hshow (fun j hj => hcr j (List.mem_cons_of_mem i hj)) hst

/-- What `printk` prints of a message that is not above the log level. -/
theorem printk_stamps (ht : t.Inside) (h0 : 0 ∉ s) (hh : Headed s)
    (hc : complete (unheaded s) = true)
    (hp : RightTypes memory (unheaded s) params) {logLevel : UInt8}
    (hloud : ¬Quiet logLevel s) :
    ∃ u t' : Terminal,
      Gives (fun fuel => t.printk memory logLevel fuel (s ++ [0]) params)
        (u32 (ink memory t.defColor (pieces (unheaded s)) t.color
          params).length, t') ∧
      stamp (ink memory t.defColor (messagePieces s) t.color params) t
        = .ret u ∧
      t' = { u with
        color := colorAfter t.defColor (messagePieces s) t.color
        vgaBuffer := u.cacheBuffer } := by
  obtain ⟨u, t₁, hst, hsame, hcol, hg⟩ :=
    vprintk_prints ht h0 hh hc hp logLevel hloud
  have ht₁ : t₁ = { u with
      color := colorAfter t.defColor (messagePieces s) t.color } := by
    rw [← hcol]
    exact hsame.symm
  refine ⟨u, _, ?_, hst, rfl⟩
  unfold printk
  simp only [hushed_eq hh, decide_eq_false hloud, Outcome.ret_bind,
    Bool.false_eq_true, if_false]
  refine hg.bind (.of_eq fun _ => ?_)
  dsimp only
  rw [updateVgaBuffer_eq, Outcome.ret_bind, ht₁]

/-- `printk` of a complete format with arguments of the right types: a
message above the log level prints nothing. Any other prints the text of
its level and then the text that the format and the arguments spell, each
character in the colour that the directives before it have set, returns
the length of the latter, and copies the screen to the hardware; on a
page, the ink stands where the cursor was. -/
theorem printk_prints (ht : t.Inside) (h0 : 0 ∉ s) (hh : Headed s)
    (hc : complete (unheaded s) = true)
    (hp : RightTypes memory (unheaded s) params) (logLevel : UInt8) :
    (Quiet logLevel s → ∀ fuel,
      t.printk memory logLevel fuel (s ++ [0]) params = .ret (0, t)) ∧
    (¬Quiet logLevel s → ∃ u t' : Terminal,
      Gives (fun fuel => t.printk memory logLevel fuel (s ++ [0]) params)
        (u32 (ink memory t.defColor (pieces (unheaded s)) t.color
          params).length, t') ∧
      stamp (ink memory t.defColor (messagePieces s) t.color params) t
        = .ret u ∧
      t' = { u with
        color := colorAfter t.defColor (messagePieces s) t.color
        vgaBuffer := u.cacheBuffer } ∧
      ∀ {dcol : UInt8} {p : Sheet dcol}, Shows t p →
        (∀ i ∈ ink memory t.defColor (messagePieces s) t.color params,
          i.char ≠ 0x0d) →
        Shows t' (p.writes ((ink memory t.defColor (messagePieces s) t.color
          params).map fun i => mark i.color i.char))) := by
  refine ⟨fun hq fuel => ?_, fun hloud => ?_⟩
  · unfold printk
    rw [hushed_eq hh, decide_eq_true hq]
    rfl
  · obtain ⟨u, t', hg, hst, rfl⟩ := printk_stamps ht h0 hh hc hp hloud
    refine ⟨u, _, hg, hst, rfl, fun hshow hcr => ?_⟩
    obtain ⟨hdef, hpos, hwin⟩ := stamp_shows hshow hcr hst
    exact ⟨hdef, hpos, hwin⟩

theorem shows_inside {dcol : UInt8} {p : Sheet dcol} (h : Shows t p) :
    t.Inside :=
  ⟨h.col ▸ p.col_lt, h.window.y_lt⟩

/-- Without a header, a message is printed at any log level. -/
theorem proper_of_plain {logLevel : UInt8} (h0 : 0 ∉ s)
    (hlog : s.head? ≠ some LOG_HDR) (hc : complete s = true)
    (hp : RightTypes memory s params) :
    PrintkCall.Proper memory logLevel ⟨s ++ [0], params⟩ := by
  have htext : PrintkCall.text ⟨s ++ [0], params⟩ = s :=
    List.dropLast_concat
  have hun : unheaded s = s := by
    cases s with
    | nil => rfl
    | cons c s => exact if_neg fun hc => hlog (congrArg some hc)
  have hlevel : levelIn s = none := by
    cases s with
    | nil => rfl
    | cons c s =>
        cases s with
        | nil => rfl
        | cons d s => exact if_neg fun hc => hlog (congrArg some hc)
  refine ⟨by rw [htext], ?_, ?_, ?_, ?_, ?_⟩ <;> rw [htext]
  · exact h0
  · cases s with
    | nil => trivial
    | cons c s => exact fun hc => absurd (congrArg some hc) hlog
  · rw [hun]
    exact hc
  · rw [hun]
    exact hp
  · rintro ⟨level, hin, -⟩
    rw [hlevel] at hin
    cases hin

/-- The ink of a call, on a page. -/
theorem printk_shows {c : PrintkCall} {logLevel dcol : UInt8}
    {p : Sheet dcol} (h : Shows t p) (hc : c.Proper memory logLevel)
    (hcr : ∀ i ∈ c.ink memory t.defColor t.color, i.char ≠ 0x0d) :
    ∃ w t', Gives (fun fuel => t.printk memory logLevel fuel c.format
        c.params) (w, t') ∧
      Shows t' (p.writes ((c.ink memory t.defColor t.color).map
        fun i => mark i.color i.char)) ∧
      t'.color = colorAfter t.defColor (messagePieces c.text) t.color := by
  obtain ⟨u, t', hg, hst, rfl⟩ := @printk_stamps memory _ _ _
    (shows_inside h) hc.noNul hc.headed hc.complete hc.types _ hc.loud
  rw [← hc.ended] at hg
  obtain ⟨hdef, hcol, hwin⟩ := stamp_shows h hcr hst
  exact ⟨_, _, hg, ⟨hdef, hcol, hwin⟩, rfl⟩

/-- A message of level 4 with a number in it: at log level 4 it is
printed, at log level 3 it is not. -/
theorem printk_prints_fault :
    let s : List UInt8 := [0x01, 0x34] ++ ascii "fault at %8x"
    let t := TermCall.console
    (ink (fun _ => []) t.defColor (messagePieces s) t.color
        [.int 0xbeef]).map Ink.char = ascii "[WAR] fault at 0000beef" ∧
      (∃ t', Gives (fun fuel => t.printk (fun _ => []) 4 fuel (s ++ [0])
        [.int 0xbeef]) (17, t')) ∧
      t.printk (fun _ => []) 3 0 (s ++ [0]) [.int 0xbeef] = .ret (0, t) := by
  intro s t
  have hh : Headed s := by
    intro _
    exact ⟨0x34, ascii "fault at %8x", rfl, by decide, by decide⟩
  have hp : RightTypes (fun _ => []) (unheaded s) [.int 0xbeef] := by
    show ∃ rest, Directive.hex.Accepts (fun _ => []) 8 [.int 0xbeef] rest
      ∧ True
    exact ⟨[], ⟨0xbeef, by decide, rfl⟩, trivial⟩
  have hall := @printk_prints (fun _ => []) t [.int 0xbeef] s
    ⟨by decide, by decide⟩ (by decide) hh (by decide) hp
  have hlen : u32 (ink (fun _ => []) t.defColor (pieces (unheaded s)) t.color
      [.int 0xbeef]).length = 17 := by
    decide +kernel
  refine ⟨by decide +kernel, ?_, (hall 3).1 (by decide) 0⟩
  obtain ⟨u, t', hg, -⟩ := (hall 4).2 (by decide)
  rw [hlen] at hg
  exact ⟨t', hg⟩

end Terminal

end Ntibux
