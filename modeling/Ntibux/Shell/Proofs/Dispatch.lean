/-
What `interpret` runs: the table holds the commands in the order they were
registered in (`Registered`), and the loop over it stops at the first one
that the first word spells.
-/
import Ntibux.Shell.Proofs.Split

namespace Ntibux

namespace Interpreter

variable {α : Type} {b b' : Bytes} {p : Nat} {line : List UInt8}

/-- A name that ends, and is shorter than the array for it. -/
structure Registration.Named (r : Registration α) : Prop where
  zero_mem : 0 ∈ r.name
  short : (cString r.name).length < MAX_COMMAND_NAME_LEN

/-- The entry of the table that a registration has made. -/
structure Entry (r : Registration α) (c : Command α) : Prop where
  zero_mem : 0 ∈ c.name.toList
  name : cString c.name.toList = cString r.name
  run : c.run = r.run

/-- The table after some registrations: there are at most
`MAX_COMMANDS_NUMBER` entries. -/
def Registered (regs : List (Registration α)) (s : Interpreter α) : Prop :=
  List.Forall₂ Entry (regs.take MAX_COMMANDS_NUMBER) s.commands

theorem registered_nil : Registered [] (new : Interpreter α) :=
  List.Forall₂.nil

theorem addCommand_registered {regs : List (Registration α)}
    {s : Interpreter α} (h : Registered regs s) {r : Registration α}
    (hr : r.Named) :
    ∃ n s', s.addCommand r.old r.name r.run = .ret (n, s')
      ∧ Registered (regs ++ [r]) s' := by
  have hlength : (regs.take MAX_COMMANDS_NUMBER).length
      = s.commands.length := List.Forall₂.length_eq h
  rw [List.length_take] at hlength
  unfold addCommand
  by_cases hfull : ¬s.commands.length < MAX_COMMANDS_NUMBER
  · rw [if_pos hfull]
    refine ⟨0, s, rfl, ?_⟩
    unfold Registered
    rwa [List.take_append_of_le_length (by omega)]
  · have hshort : 0 + (cString r.name).length < MAX_COMMAND_NAME_LEN := by
      rw [Nat.zero_add]
      exact hr.short
    obtain ⟨v, hv, rest, hrest⟩ := @strncpyFrom_exact _
      MAX_COMMAND_NAME_LEN 0 r.name r.old hr.zero_mem (le_of_lt hr.short)
      hshort
    rw [if_neg hfull, hv, Outcome.ret_bind]
    refine ⟨_, _, rfl, ?_⟩
    have htake : regs.take MAX_COMMANDS_NUMBER = regs :=
      List.take_of_length_le (by omega)
    unfold Registered at h ⊢
    rw [List.take_of_length_le
      (by rw [List.length_append, List.length_singleton]; omega)]
    rw [htake] at h
    rw [List.take_zero, List.nil_append] at hrest
    refine List.rel_append h (List.Forall₂.cons ⟨?_, ?_, rfl⟩ .nil)
    · rw [hrest]
      simp
    · rw [hrest, cString_append_zero (zero_not_mem_cString _)]

theorem addCommands_registered {regs more : List (Registration α)}
    {s : Interpreter α} (h : Registered regs s)
    (hmore : ∀ r ∈ more, r.Named) :
    ∃ s', addCommands more s = .ret s' ∧ Registered (regs ++ more) s' := by
  induction more generalizing regs s with
  | nil => exact ⟨s, rfl, by rwa [List.append_nil]⟩
  | cons r more ih =>
      obtain ⟨n, s₁, hadd, h₁⟩ := addCommand_registered h
        (hmore r List.mem_cons_self)
      obtain ⟨s', hs', h'⟩ := ih h₁ fun r' hr' =>
        hmore r' (List.mem_cons_of_mem r hr')
      refine ⟨s', ?_, by rwa [List.append_cons]⟩
      unfold addCommands
      rw [hadd, Outcome.ret_bind]
      exact hs'

/-- What runs for a word: the first command of that name. -/
def runFor (regs : List (Registration α)) (cmd : Nat) (text : List UInt8)
    (args : Splits) (bytes : Bytes) : Dispatch α :=
  match regs.find? fun r => cString r.name = text with
  | some r => .call r.run args bytes
  | none => .ret 1 [notFound cmd]

/-- A command of the name runs, or there is none. -/
theorem runFor_cases (regs : List (Registration α)) (cmd : Nat)
    (text : List UInt8) (args : Splits) (bytes : Bytes) :
    (∃ r ∈ regs, cString r.name = text
        ∧ runFor regs cmd text args bytes = .call r.run args bytes)
      ∨ (∀ r ∈ regs, cString r.name ≠ text)
        ∧ runFor regs cmd text args bytes = .ret 1 [notFound cmd] := by
  unfold runFor
  cases hfind : regs.find? fun r => cString r.name = text with
  | none =>
      refine .inr ⟨fun r hr heq => ?_, rfl⟩
      exact List.find?_eq_none.mp hfind r hr (decide_eq_true heq)
  | some r =>
      have hname := List.find?_some hfind
      exact .inl ⟨r, List.mem_of_find?_eq_some hfind,
        of_decide_eq_true hname, rfl⟩

theorem execFrom_eq {regs : List (Registration α)}
    {commands : List (Command α)} (h : List.Forall₂ Entry regs commands)
    {cmd : Nat} (hcmd : 0 ∈ b.upFrom cmd) (args : Splits) :
    execFrom cmd args b commands
      = .ret (runFor regs cmd (cString (b.upFrom cmd)) args b) := by
  induction h with
  | nil => rfl
  | @cons r c regs commands hentry _ ih =>
      obtain ⟨d, hd, hiff⟩ := strcmp_exact hcmd hentry.zero_mem
      rw [hentry.name] at hiff
      unfold execFrom runFor
      rw [hd, Outcome.ret_bind, List.find?_cons]
      by_cases hzero : d = 0
      · rw [if_pos hzero, decide_eq_true (hiff.mp hzero).symm, hentry.run]
      · rw [if_neg hzero,
          decide_eq_false fun heq => hzero (hiff.mpr heq.symm)]
        exact ih

/-- What `interpret` comes to, for the commands that are registered. -/
def runLine (regs : List (Registration α)) (p : Nat) (line : List UInt8)
    (args : Splits) (bytes : Bytes) : Dispatch α :=
  match words line with
  | [] => .ret 0 []
  | r :: _ => runFor regs (p + r.1) (wordText line r) args bytes

theorem runLine_nil (hw : words line = []) (regs : List (Registration α))
    (args : Splits) (bytes : Bytes) :
    runLine regs p line args bytes = .ret 0 [] := by
  unfold runLine
  rw [hw]

theorem runLine_cons {r : Nat × Nat} {rs : List (Nat × Nat)}
    (hw : words line = r :: rs) (regs : List (Registration α))
    (args : Splits) (bytes : Bytes) :
    runLine regs p line args bytes
      = runFor regs (p + r.1) (wordText line r) args bytes := by
  unfold runLine
  rw [hw]

/-- The array starts with the first word, or there is none. -/
theorem SplitInto.first {v₀ v : Splits} (h : SplitInto b p line v₀ v b') :
    v[0] = match words line with
      | [] => 0
      | r :: _ => p + r.1 := by
  rw [h.listed 0 (Nat.zero_lt_succ _)]
  unfold tokens
  cases words line with
  | nil => rfl
  | cons r rs => rfl

theorem interpret_eq {regs : List (Registration α)} {s : Interpreter α}
    {fuel : Nat} (hs : Registered regs s) (hb : b.HasLine p line)
    (hnul : 0 ∉ line) (hlen : line.length < MAX_LINE_LEN) (hp : p ≠ 0)
    (hend : p + line.length < 2 ^ 32) (hfuel : line.length < fuel) :
    ∃ v, SplitInto b p line (Vector.replicate _ 0) v
        (b.cutUp p line.length)
      ∧ s.interpret fuel p b
        = .ret (runLine (regs.take MAX_COMMANDS_NUMBER) p line v
          (b.cutUp p line.length)) := by
  obtain ⟨v, hsplit, hinto⟩ := split_into hb hnul hlen hfuel
    (Vector.replicate _ 0)
  refine ⟨v, hinto, ?_⟩
  have hfirst := hinto.first
  unfold interpret
  by_cases hempty : b p = 0
  · obtain rfl : line = [] := by
      cases line with
      | nil => rfl
      | cons c line =>
          have hchar := hb.char 0 (Nat.zero_lt_succ _)
          refine absurd (List.mem_cons.mpr (.inl ?_)) hnul
          rw [← hempty]
          exact hchar
    rw [if_pos hempty]
    rfl
  · rw [if_neg hempty, hsplit, Outcome.ret_bind]
    simp only
    rw [Outcome.load_ret v (Nat.zero_lt_succ _), Outcome.ret_bind, hfirst]
    unfold runLine
    cases hw : words line with
    | nil => rfl
    | cons r rs =>
        have hmem : r ∈ words line := hw ▸ List.mem_cons_self
        obtain ⟨rest, hrest⟩ := hinto.upFrom hmem hend
        have hne : p + r.1 ≠ 0 := by omega
        simp only [if_neg hne]
        unfold execCmd
        rw [execFrom_eq hs (by rw [hrest]; simp), hrest,
          cString_append_zero (zero_not_mem_wordText hnul r)]

-- ================================================================= exactness

/-- Tokenising and dispatch: `split` keeps to its array, whatever is in it,
and lists the words with a null pointer behind them; and `interpret` calls
the first command that the first word names, with just that array.

The loop of `split` keeps an account of the words that have begun and those
that have ended (`Splitting`), and the table of commands is filled in the
order of the calls, up to its 64 places. Neither rests on what was in the
array before. -/
theorem interpret_exact {regs : List (Registration α)}
    (hregs : ∀ r ∈ regs, r.Named) (hb : b.HasLine p line) (hnul : 0 ∉ line)
    (hlen : line.length ≤ MAX_LINE_LEN - 1) (hp : p ≠ 0)
    (hend : p + line.length < 2 ^ 32) :
    (∀ s e, (s, e) ∈ words line ↔ IsWord line s e)
      ∧ ((words line).Pairwise fun a b => a.2 ≤ b.1)
      ∧ ∃ s : Interpreter α, addCommands regs new = .ret s
        ∧ ∀ fuel > line.length,
          (∀ v₀, ∃ v b', split fuel p v₀ b = .ret (v, b')
            ∧ SplitInto b p line v₀ v b')
          ∧ ∃ v b', SplitInto b p line (Vector.replicate _ 0) v b'
            ∧ s.interpret fuel p b
              = .ret (runLine (regs.take MAX_COMMANDS_NUMBER) p line v b')
    := by
  have hlt : line.length < MAX_LINE_LEN := by
    unfold MAX_LINE_LEN at hlen ⊢
    omega
  obtain ⟨s, hs, hregistered⟩ := addCommands_registered registered_nil hregs
  refine ⟨mem_words line, words_sorted line, s, hs, fun fuel hfuel => ?_⟩
  constructor
  · intro v₀
    obtain ⟨v, hsplit, hinto⟩ := split_into hb hnul hlt hfuel v₀
    exact ⟨v, _, hsplit, hinto⟩
  · obtain ⟨v, hinto, hrun⟩ :=
      interpret_eq hregistered hb hnul hlt hp hend hfuel
    exact ⟨v, _, hinto, hrun⟩

/-- The line of the example. -/
def sampleLine : List UInt8 := ascii " mem  free\t1"

/-- The memory of the example, with the line at 4. -/
def sampleMemory : Bytes := fun x => (sampleLine ++ [0]).getD (x - 4) 0

/-- Its commands. -/
def sampleCommands : List (Registration Nat) :=
  [⟨Vector.replicate _ 0x2a, ascii "me" ++ [0], 1⟩,
    ⟨Vector.replicate _ 0x2a, ascii "mem" ++ [0], 2⟩,
    ⟨Vector.replicate _ 0x2a, ascii "mem" ++ [0], 3⟩]

/-- The line ` mem  free\t1` splits into three words and runs the first of
the two commands `mem`, not the command `me`, which the first word only
begins with. -/
theorem interpret_exact_mem : ∃ s v b',
    addCommands sampleCommands new = .ret s
      ∧ SplitInto sampleMemory 4 sampleLine (Vector.replicate _ 0) v b'
      ∧ s.interpret 13 4 sampleMemory = .ret (.call 2 v b')
      ∧ words sampleLine = [(1, 4), (6, 10), (11, 12)] := by
  have hnamed : ∀ r ∈ sampleCommands, r.Named := by
    intro r hr
    constructor
    · revert r
      decide
    · revert r
      decide
  have hline : sampleMemory.HasLine 4 sampleLine := by
    constructor
    · decide
    · decide
  obtain ⟨-, -, s, hs, hall⟩ := interpret_exact hnamed hline (by decide)
    (by decide) (by decide) (by decide)
  obtain ⟨-, v, b', hinto, hrun⟩ := hall 13 (by decide)
  exact ⟨s, v, b', hs, hinto, hrun, by decide⟩

end Interpreter

end Ntibux
