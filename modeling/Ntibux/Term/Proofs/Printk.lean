/-
`vprintk` stays inside its format.

What the pieces of a format print is known (`scan_prints`), and the cursor
is on the screen behind each of them. So the scan gets as far as the ending
of the format, and the ending decides whether it comes to an end there or
behind the NUL (`scan_ends`).
-/
import Ntibux.Term.Proofs.Scan

namespace Ntibux

open Outcome (Ends Gives)

namespace Terminal

variable {memory : Nat → List UInt8} {t : Terminal} {params : List Arg}
  {s : List UInt8}

/-- The scan of a format returns, unless the format ends inside a
directive: then it steps over the NUL. -/
theorem scan_ends (ht : t.Inside) (h0 : 0 ∉ s)
    (hp : RightTypes memory s params) :
    ∃ (w : Nat) (t' : Terminal), t'.Inside
      ∧ Ends (fun fuel => t.scanLoop memory fuel (s ++ [0]) params 0)
        (if complete s then .ret (w, t') else .fault) := by
  obtain ⟨heq, he⟩ := cut_eq h0 none
  have hs : Piece.spell (pieces s) ++ (Piece.cut none s).2 = s := heq
  obtain ⟨rest, -, t', -, -, -, hin, -, hrest⟩ := scan_prints ht (.refl t) hp 0
  have hcomplete : complete s = true ↔ (Piece.cut none s).2 = [] := by
    rw [← complete_ending he]
    conv_lhs => rw [← hs, complete_spell]
  have hend := hrest _ _ (scan_ending he _ rest t')
  rw [← List.append_assoc, hs] at hend
  simp only [hcomplete]
  exact ⟨_, t', hin, hend⟩

/-- The header of a message is printed, or not, and leaves the cursor on
the screen. -/
theorem header_gives {d : UInt8} (ht : t.Inside) (h1 : 0x30 ≤ d)
    (h7 : d ≤ 0x37) (logLevel : UInt8) :
    ∃ t' : Terminal, t'.Inside ∧ Gives (fun fuel =>
      logHeader logLevel
        (fun format => t.vprintk memory logLevel fuel format [])
        (levelOf d) t) t' := by
  by_cases hle : levelOf d ≤ logLevel.toNat
  · obtain ⟨-, t', -, -, -, hin, -, -, hg⟩ :=
      @header_prints memory _ _ _ ht (.refl t) h1 h7 logLevel hle []
    exact ⟨t', hin, hg⟩
  · exact ⟨t, ht, .of_eq fun _ => if_neg hle⟩

/-- `vprintk` returns, unless its format ends inside a directive: a `%`
whose letter does not come is followed by a step over the NUL. -/
theorem vprintk_ends (ht : t.Inside) (h0 : 0 ∉ s) (hh : Headed s)
    (hp : RightTypes memory (unheaded s) params) (logLevel : UInt8) :
    ∃ (w : Nat) (t' : Terminal), Ends
      (fun fuel => t.vprintk memory logLevel fuel (s ++ [0]) params)
      (if complete (unheaded s) then .ret (w, t') else .fault) := by
  cases s with
  | nil =>
      obtain ⟨w, t', -, h⟩ := scan_ends ht h0 hp
      exact ⟨w, t', .of_succ h⟩
  | cons c s =>
      by_cases hc : c = LOG_HDR
      · obtain ⟨d, rest, rfl, h1, h7⟩ := hh hc
        have hun : unheaded (c :: d :: rest) = rest := if_pos hc
        rw [hun] at hp ⊢
        obtain ⟨t₁, hin, hheader⟩ :=
          @header_gives memory _ _ ht h1 h7 logLevel
        have h0' : 0 ∉ rest := fun h =>
          h0 (List.mem_cons_of_mem c (List.mem_cons_of_mem d h))
        obtain ⟨w, t', -, h⟩ := scan_ends hin h0' hp
        refine ⟨w, t', .of_succ ?_⟩
        have hall := hheader.ends (f := fun fuel t₁ =>
          t₁.scanLoop memory fuel (rest ++ [0]) params 0) h
        simp only [List.cons_append, vprintk, hc, if_true]
        exact hall
      · have hun : unheaded (c :: s) = c :: s := if_neg hc
        rw [hun] at hp ⊢
        obtain ⟨w, t', -, h⟩ := scan_ends ht h0 hp
        refine ⟨w, t', .of_succ ?_⟩
        simp only [List.cons_append, vprintk_unheaded hc]
        exact h

/-- `vprintk` comes to an end inside its format exactly if the format does
not end inside a directive.

A complete format is printed piece by piece up to its NUL. In any other the
scan is inside a directive when it comes to the NUL, takes it for the letter
and goes on behind it, which is outside the format: that is a fault here
(`vprintk_ends`). -/
theorem vprintk_inside_iff {logLevel : UInt8} (ht : t.Inside) (h0 : 0 ∉ s)
    (hh : Headed s) (hp : RightTypes memory (unheaded s) params) :
    (∃ r, Gives (fun fuel =>
        t.vprintk memory logLevel fuel (s ++ [0]) params) r)
      ↔ complete (unheaded s) = true := by
  obtain ⟨w, t', hend⟩ := vprintk_ends ht h0 hh hp logLevel
  constructor
  · intro h
    obtain ⟨r, hr⟩ := h
    by_contra hc
    rw [if_neg hc] at hend
    cases Ends.unique (Gives.ends_iff.mp hr) hend
  · intro hc
    rw [if_pos hc] at hend
    exact ⟨_, hend⟩

/-- A message of the log with a number in it. -/
theorem vprintk_inside_log :
    ∃ r, Gives (fun fuel => TermCall.console.vprintk (fun _ => []) 4 fuel
      ([0x01, 0x34] ++ ascii "fault at %8x" ++ [0]) [.int 0xbeef]) r := by
  have hh : Headed ([0x01, 0x34] ++ ascii "fault at %8x") := by
    intro _
    exact ⟨0x34, ascii "fault at %8x", rfl, by decide, by decide⟩
  have hp : RightTypes (fun _ => [])
      (unheaded ([0x01, 0x34] ++ ascii "fault at %8x")) [.int 0xbeef] := by
    show ∃ rest, Directive.hex.Accepts (fun _ => []) 8 [.int 0xbeef] rest
      ∧ True
    exact ⟨[], ⟨0xbeef, by decide, rfl⟩, trivial⟩
  have h := @vprintk_inside_iff (fun _ => []) TermCall.console [.int 0xbeef]
    ([0x01, 0x34] ++ ascii "fault at %8x") 4 ⟨by decide, by decide⟩
    (by decide) hh hp
  exact h.mpr (by decide)

set_option maxRecDepth 10000 in
/-- With `100%` for a format, what is printed is a `100` and what stands
in memory behind the NUL. -/
theorem vprintk_over_nul :
    0 ∉ ascii "100%" ∧ Headed (ascii "100%")
      ∧ RightTypes (fun _ => []) (unheaded (ascii "100%")) []
      ∧ (¬∃ r, Gives (fun fuel => TermCall.console.vprintk (fun _ => []) 4
          fuel (ascii "100%" ++ [0]) []) r)
      ∧ ∃ t, TermCall.console.vprintk (fun _ => []) 4 20
          (ascii "100%" ++ [0] ++ ascii "root" ++ [0]) [] = .ret (7, t) := by
  have hh : Headed (ascii "100%") := by
    intro h
    cases h
  have hp : RightTypes (fun _ => []) (unheaded (ascii "100%")) [] := trivial
  refine ⟨by decide, hh, hp, ?_, ⟨_, rfl⟩⟩
  intro h
  obtain ⟨r, hr⟩ := h
  obtain ⟨w, t', hend⟩ := vprintk_ends (t := TermCall.console)
    ⟨by decide, by decide⟩ (by decide) hh hp 4
  cases Ends.unique (Gives.ends_iff.mp hr) hend

end Terminal

end Ntibux
