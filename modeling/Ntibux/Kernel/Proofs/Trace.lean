/-
`trace` prints the return addresses of a chain of frames and ends, or the
chain has no end and neither has `trace`.
-/
import Ntibux.Kernel.Trace
import Ntibux.Term.Proofs.Render

namespace Ntibux

open Outcome (Gives)

variable {b : Bytes} {stack frame eip : Nat} {l : List Nat}
  {memory : Nat → List UInt8} {logLevel d color : UInt8}

-- ================================================================ one frame

theorem frameCall_proper (hframe : frame < 2 ^ 32) (heip : eip < 2 ^ 32) :
    (frameCall frame eip).Proper memory logLevel :=
  Terminal.proper_of_plain (by decide) (by decide) (by decide)
    ⟨_, ⟨frame, hframe, rfl⟩, _, ⟨eip, heip, rfl⟩, trivial⟩

theorem frameCall_ink : (frameCall frame eip).ink memory d color
    = (frameLine frame eip).map (⟨·, color⟩) := by
  unfold frameLine
  simp only [List.append_assoc, List.map_append]
  rfl

/-- A numeral has nothing but digits. -/
theorem cr_not_mem_padded {base n : Nat} (hb : 2 ≤ base) (hb16 : base ≤ 16)
    (padding : Nat) : 0x0d ∉ padded base padding n := by
  have hdigit : ∀ k : Fin 16, digitChar k.val ≠ 0x0d := by decide
  intro h
  rcases List.mem_append.mp h with h | h
  · cases List.eq_of_mem_replicate h
  · obtain ⟨k, hk, heq⟩ := List.mem_map.mp h
    have hlt := mem_numeral_lt hb hk
    exact hdigit ⟨k, by omega⟩ heq

theorem cr_not_mem_frameLine : 0x0d ∉ frameLine frame eip := by
  unfold frameLine
  simp only [List.mem_append, not_or]
  exact ⟨⟨⟨cr_not_mem_padded (by decide) (by decide) 0, by decide⟩,
    cr_not_mem_padded (by decide) (by decide) 8⟩, by decide⟩

namespace Terminal

variable {t : Terminal} {p : Sheet d}

/-- The line for a frame, on a page. -/
theorem frame_shows (h : Shows t p) (hframe : frame < 2 ^ 32)
    (heip : eip < 2 ^ 32) :
    ∃ w t', Gives (fun fuel => t.printk memory logLevel fuel
        (frameCall frame eip).format (frameCall frame eip).params) (w, t') ∧
      Shows t' (p.writes ((frameLine frame eip).map (mark t.color))) ∧
      t'.color = t.color := by
  have hcr : ∀ i ∈ (frameCall frame eip).ink memory t.defColor t.color,
      i.char ≠ 0x0d := by
    rw [frameCall_ink]
    intro i hi
    obtain ⟨c, hc, rfl⟩ := List.mem_map.mp hi
    intro heq
    change c = 0x0d at heq
    exact cr_not_mem_frameLine (heq ▸ hc)
  obtain ⟨w, t', hg, hshow, hcol⟩ := @printk_shows memory _ _ logLevel _ _ h
    (frameCall_proper hframe heip) hcr
  rw [frameCall_ink, List.map_map] at hshow
  exact ⟨w, t', hg, hshow, hcol⟩

-- =============================================================== the frames

/-- A chain of frames that ends: so does the loop, and the lines of the
frames stand on the page. -/
theorem traceLoop_shows (hl : StackFrames b stack l) (h : Shows t p)
    (hframe : frame < 2 ^ 32) :
    ∃ t', Gives (fun fuel => t.traceLoop logLevel b fuel stack frame) t' ∧
      Shows t' (p.writes ((frameLines frame l).map (mark t.color))) ∧
      t'.color = t.color := by
  induction l generalizing stack frame t p with
  | nil =>
      refine ⟨t, .of_succ (.of_eq fun _ => ?_), h, rfl⟩
      exact if_pos hl
  | cons eip l ih =>
      obtain ⟨hne, heq, hrest⟩ := hl
      obtain ⟨w, t₁, hg, hshow, hcol⟩ := @frame_shows frame eip b.upFrom
        logLevel _ _ _ h hframe (heq ▸ b.read32_lt _)
      obtain ⟨t', hgs, hshow', hcol'⟩ := ih hrest hshow (u32_lt _)
      rw [hcol] at hshow' hcol'
      refine ⟨t', .of_succ ?_, ?_, hcol'⟩
      · unfold traceLoop
        simp only [if_neg hne]
        rw [← heq]
        exact hg.bind hgs
      · rw [frameLines, List.map_append, Page.writes, List.foldl_append]
        exact hshow'

/-- The loop ends at a frame pointer of zero only. -/
theorem frames_of_traceLoop {fuel : Nat} {t' : Terminal}
    (h : t.traceLoop logLevel b fuel stack frame = .ret t') :
    ∃ l, StackFrames b stack l := by
  induction fuel generalizing stack frame t with
  | zero => cases h
  | succ fuel ih =>
      unfold traceLoop at h
      by_cases h0 : stack = 0
      · exact ⟨[], h0⟩
      · rw [if_neg h0] at h
        obtain ⟨⟨w, t₁⟩, -, hrest⟩ := Outcome.bind_eq_ret.mp h
        obtain ⟨l, hl⟩ := ih hrest
        exact ⟨_ :: l, h0, rfl, hl⟩

/-- `trace` ends exactly if the frame pointers do, at zero, and has then
printed for every frame its number, counted in 32 bits, and its return
address, from the last call back; otherwise it never ends.

The loop follows the saved frame pointers. Where the chain comes to zero it
has printed a line for each frame; where it does not, there is no fuel that
is enough. -/
theorem trace_exact (h : Shows t p) (ebp : Nat) (logLevel : UInt8) :
    (∀ l, StackFrames b ebp l → ∃ t',
      Gives (fun fuel => t.trace logLevel b fuel ebp) t' ∧
      Shows t' (p.writes ((frameLines 0 l).map (mark t.color)))) ∧
    ((∃ fuel t', t.trace logLevel b fuel ebp = .ret t') ↔
      ∃ l, StackFrames b ebp l) := by
  have hends : ∀ l, StackFrames b ebp l → ∃ t',
      Gives (fun fuel => t.trace logLevel b fuel ebp) t' ∧
      Shows t' (p.writes ((frameLines 0 l).map (mark t.color))) := by
    intro l hl
    obtain ⟨t', hg, hshow, -⟩ := @traceLoop_shows b _ 0 _ logLevel _ _ _ hl h
      (by decide)
    exact ⟨t', hg, hshow⟩
  refine ⟨hends, fun ⟨fuel, t', hr⟩ => frames_of_traceLoop hr, ?_⟩
  rintro ⟨l, hl⟩
  obtain ⟨t', hg, -⟩ := hends l hl
  obtain ⟨fuel, hr⟩ := hg.ret
  exact ⟨fuel, t', hr⟩

/-- Two frames, and one that is its own caller's. -/
def sampleFrames : Bytes :=
  Bytes.write32 (Bytes.write32 (Bytes.write32 (Bytes.write32 (fun _ => 0)
    0x100 0x200) 0x104 0x1234) 0x204 0x5678) 0x300 0x300

/-- The two are printed, and behind the one there is no end. -/
theorem trace_exact_nested : ∃ t t', TermCall.console.clear = .ret t ∧
    Gives (fun fuel => t.trace 7 sampleFrames fuel 0x100) t' ∧
    Shows t' ((Sheet.empty 7).writes
      ((ascii "0: 00001234 in ??? ()\n1: 00005678 in ??? ()\n").map
        (mark 7))) ∧
    ∀ fuel t', t.trace 7 sampleFrames fuel 0x300 ≠ .ret t' := by
  obtain ⟨t, hclear, hcol, hshow⟩ := clear_shows TermCall.console
  have hlines : frameLines 0 [0x1234, 0x5678]
      = ascii "0: 00001234 in ??? ()\n1: 00005678 in ??? ()\n" := by
    decide +kernel
  have hl : StackFrames sampleFrames 0x100 [0x1234, 0x5678] := by
    decide +kernel
  obtain ⟨t', hg, hshow'⟩ := (trace_exact hshow 0x100 7).1 _ hl
  rw [hlines, hcol] at hshow'
  refine ⟨t, t', hclear, hg, hshow', fun fuel u hu => ?_⟩
  have hself : sampleFrames.read32 0x300 = 0x300 := by decide +kernel
  have hnone : ∀ l, ¬StackFrames sampleFrames 0x300 l := by
    intro l
    induction l with
    | nil => exact fun h => absurd h (by decide)
    | cons eip l ih =>
        rintro ⟨-, -, hrest⟩
        rw [hself] at hrest
        exact ih hrest
  obtain ⟨l, hloop⟩ := (trace_exact hshow 0x300 7).2.mp ⟨fuel, u, hu⟩
  exact hnone l hloop

end Terminal

end Ntibux
