/-
What is typed is what is run, line after line.

# One turn

The keys up to the end of a line are put in the array, the array is the
line that `interpret` reads, up to the first NUL, and `interpret` runs its
words (`readCommand_or`). If the keys end before the line does, the loop
waits.

# A session

A command, and the message that there is none, leave the cursor on the
screen, so that the next turn is like the first (`answer_inside`).
-/
import Ntibux.Shell.Session
import Ntibux.Term.Proofs.Line
import Ntibux.Term.Proofs.Render

namespace Ntibux

open Outcome (Gives)

variable {α : Type} {b b' : Bytes} {p : Nat} {cs line : List UInt8}
  {ks : List Keypress}

-- ================================================================ one line

/-- A line is a line up to its first NUL. -/
theorem Bytes.HasLine.cString (h : b.HasLine p cs) :
    b.HasLine p (cString cs) := by
  induction cs generalizing p with
  | nil => exact h
  | cons c cs ih =>
      obtain ⟨hc, htail⟩ := h.tail
      by_cases h0 : c = 0
      · subst h0
        rw [cString_zero]
        exact hasLine_nil hc
      · rw [cString_cons_of_ne h0]
        exact .cons hc (ih htail)

/-- Without a NUL in it, a line is empty where there is one. -/
theorem Bytes.HasLine.eq_nil (h : b.HasLine p cs) (hnul : 0 ∉ cs)
    (h0 : b p = 0) : cs = [] := by
  cases cs with
  | nil => rfl
  | cons c cs =>
      refine absurd (List.mem_cons.mpr (.inl ?_)) hnul
      rw [← h0]
      exact h.char 0 (Nat.zero_lt_succ _)

/-- If the keys without a character have been erased, the line is what the
keys ask for. -/
theorem stringOf_of_settled (h : Settled ks) : stringOf ks = typed ks := by
  have hnul := zero_not_mem_typed ks
  rw [typed_eq_iff.mpr h] at hnul ⊢
  unfold stringOf cString
  rw [List.takeWhile_eq_self_iff]
  intro c hc
  exact decide_eq_true fun h0 => hnul (h0 ▸ hc)

namespace Interpreter

/-- The array that `split` leaves is no matter of how long it may take. -/
theorem SplitInto.splits_eq {v₀ v w : Splits} {c' : Bytes}
    (h : SplitInto b p line v₀ v b') (h' : SplitInto b p line v₀ w c') :
    v = w :=
  Vector.ext fun k hk => (h.listed k hk).trans (h'.listed k hk).symm

/-- `interpret` comes to an end, and so does what its caller reads of the
memory. -/
theorem interpret_gives {regs : List (Registration α)} {s : Interpreter α}
    (hs : Registered regs s) (hb : b.HasLine p line) (hnul : 0 ∉ line)
    (hlen : line.length < MAX_LINE_LEN) (hp : p ≠ 0)
    (hend : p + line.length < 2 ^ 32) :
    ∃ v, SplitInto b p line (Vector.replicate _ 0) v
        (b.cutUp p line.length) ∧
      Gives (fun fuel => s.interpret fuel p b)
        (runLine (regs.take MAX_COMMANDS_NUMBER) p line v
          (b.cutUp p line.length)) := by
  obtain ⟨v, hinto, -⟩ := interpret_eq hs hb hnul hlen hp hend
    (Nat.lt_succ_self _)
  refine ⟨v, hinto, line.length + 1, fun fuel hfuel => ?_⟩
  obtain ⟨w, hinto', hrun⟩ := interpret_eq hs hb hnul hlen hp hend
    (show line.length < fuel by omega)
  obtain rfl := hinto.splits_eq hinto'
  exact hrun

theorem memoryAfter_gives (hb : b.HasLine p line) (hnul : 0 ∉ line)
    (hlen : line.length < MAX_LINE_LEN) (hend : p + line.length < 2 ^ 32) :
    ∃ b', Gives (fun fuel => memoryAfter fuel p b) b' ∧
      ∀ r ∈ words line, 0 ∈ b'.upFrom (p + r.1) := by
  by_cases h0 : b p = 0
  · obtain rfl := hb.eq_nil hnul h0
    exact ⟨b, .of_eq fun _ => if_pos h0,
      fun r hr => absurd hr List.not_mem_nil⟩
  · obtain ⟨v, -, hinto⟩ := split_into hb hnul hlen (Nat.lt_succ_self _)
      (Vector.replicate _ 0)
    refine ⟨b.cutUp p line.length,
      ⟨line.length + 1, fun fuel hfuel => ?_⟩, fun r hr => ?_⟩
    · obtain ⟨w, hsplit, -⟩ := split_into hb hnul hlen
        (show line.length < fuel by omega) (Vector.replicate _ 0)
      unfold memoryAfter
      dsimp only
      rw [if_neg h0, hsplit, Outcome.ret_bind]
    · obtain ⟨rest, hrest⟩ := hinto.upFrom hr hend
      rw [hrest]
      simp

/-- What `interpret` comes to is the line run. -/
theorem ran_runLine {regs : List (Registration α)} {v : Splits}
    (h : SplitInto b p line (Vector.replicate _ 0) v b') (hnul : 0 ∉ line)
    (hp : p ≠ 0) (hend : p + line.length < 2 ^ 32) :
    Ran regs p line (runLine regs p line v b') := by
  have hargs := Shell.hasArgs_of_splitInto h hnul hp hend
  cases hw : words line with
  | nil =>
      rw [runLine_nil hw]
      refine .inl ⟨?_, rfl, rfl⟩
      unfold Shell.texts
      rw [hw]
      rfl
  | cons r rs =>
      have htexts : Shell.texts line
          = wordText line r :: rs.map (wordText line) := by
        unfold Shell.texts
        rw [hw]
        rfl
      rw [htexts] at hargs
      rw [runLine_cons hw]
      unfold runFor
      cases hfind : regs.find? fun g => cString g.name = wordText line r with
      | some g => exact ⟨_, _, g, htexts, hfind, rfl, hargs⟩
      | none =>
          refine .inr ⟨_, _, r, htexts, fun g hg heq => ?_, rfl, ?_, rfl⟩
          · exact List.find?_eq_none.mp hfind g hg (decide_eq_true heq)
          · rw [hw]
            rfl

end Interpreter

namespace Host

open Interpreter (Ran Registration Dispatch Registered)
open Terminal (Inside)

variable {h : Host α} {regs : List (Registration α)} {s s' s₀ : Session}
  {d : Dispatch α} {tr : List (Session × Dispatch α)}

/-- The memory that is read, in its place. -/
theorem hasLine_stored {l : Terminal.Line (MAX_LINE_LEN - 1)}
    (hl : Terminal.Holds ks l) (hi : l.i ≤ MAX_LINE_LEN - 1) (b : Bytes) :
    Bytes.HasLine (Function.update (h.store l.buf b) (h.buf + l.i) 0)
      h.buf (putAll ks) := by
  constructor
  · intro i hlt
    rw [← hl.i_eq] at hlt
    rw [Function.update_of_ne (by omega)]
    unfold store
    rw [if_pos ⟨by omega, by omega⟩, Nat.add_sub_cancel_left]
    have htext := hl.text
    unfold Terminal.Line.text at htext
    have hget : (putAll ks)[i]? = l.buf.toList[i]? := by
      rw [← htext, List.getElem?_take_of_lt hlt]
    rw [List.getD_eq_getElem?_getD, ← hget,
      List.getElem?_eq_getElem (by rw [← hl.i_eq]; exact hlt)]
    rfl
  · rw [← hl.i_eq, Function.update_self]

/-- Keys are those of a line if nothing before the last of them ends it. -/
theorem lineOf_of_take {n : Nat}
    (hopen : ∀ i < ks.length, Open n (ks.take i)) (hend : ¬Open n ks)
    (hne : ks ≠ []) : LineOf n ks := by
  refine ⟨ks.dropLast, ks.getLast hne,
    (List.dropLast_append_getLast hne).symm, fun pre hpre => ?_, hend⟩
  have hlen := hpre.length_le
  rw [List.length_dropLast] at hlen
  have hpos := List.length_pos_iff.mpr hne
  rw [List.prefix_iff_eq_take.mp (hpre.trans ks.dropLast_prefix)]
  exact hopen _ (by omega)

/-- Of all that begins a text one thing is a line. -/
theorem lineOf_unique {n : Nat} {ks' rest : List Keypress}
    (h : LineOf n ks) (h' : LineOf n ks') (hp : ks <+: rest)
    (hp' : ks' <+: rest) : ks = ks' := by
  have hle : ∀ {a b : List Keypress}, LineOf n a → LineOf n b →
      a <+: b → a = b := by
    intro a b ha hb hab
    obtain ⟨-, -, -, -, hstop⟩ := ha
    obtain ⟨b', k, rfl, hopen, -⟩ := hb
    rcases List.prefix_concat_iff.mp hab with heq | hin
    · exact heq
    · exact absurd (hopen a hin) hstop
  rcases List.prefix_or_prefix_of_prefix hp hp' with hpre | hpre
  · exact hle h h' hpre
  · exact (hle h' h hpre).symm

/-- A line has no more characters than there is room for. -/
theorem length_putAll_of_line {n : Nat} (hks : LineOf n ks) :
    (putAll ks).length ≤ n - 1 := by
  obtain ⟨ks', k, rfl, hopen, -⟩ := hks
  have hlt := (hopen ks' (List.prefix_refl _)).length_lt
  have hle := @length_put_le k (putAll ks')
  rw [putAll_concat]
  omega

/-- The prompt. -/
theorem prompt_ret {t : Terminal} (ht : t.Inside) :
    ∃ w t', t.resetColor.tputs (ascii "> " ++ [0]) = .ret (w, t') ∧
      t'.Inside := by
  have ht' : t.resetColor.Inside := ⟨ht.x_lt, ht.y_lt⟩
  obtain ⟨t', hputs, hm⟩ := Terminal.tputsNoup_moved ht'
    (s := ascii "> " ++ [0]) (by decide)
  unfold Terminal.tputs
  rw [hputs, Outcome.ret_bind]
  dsimp only
  rw [Terminal.updateVgaBuffer_eq, Outcome.ret_bind]
  exact ⟨_, _, rfl, hm.inside.x_lt, hm.inside.y_lt⟩

/-- A turn comes to what the keys of a line ask for, or waits for more
keys. -/
theorem readCommand_or (hok : h.Ok regs) (ht : s.term.Inside) :
    (∃ ks d s', Gives (fun fuel => h.readCommand fuel s) (d, s') ∧
      presses s.keys = ks ++ presses s'.keys ∧ LineOf MAX_LINE_LEN ks ∧
      Ran (regs.take MAX_COMMANDS_NUMBER) h.buf (stringOf ks) d ∧
      s'.term.Inside ∧ s'.bytes.HasLine h.buf (stringOf ks) ∧
      (stringOf ks).length < MAX_LINE_LEN) ∨
    (∀ fuel, h.readCommand fuel s = .timeout) ∧
      ∀ pre, pre <+: presses s.keys → Open MAX_LINE_LEN pre := by
  obtain ⟨w, t, hprompt, htin⟩ := prompt_ret ht
  have h0 : Terminal.Holds [] ({ keys := s.keys, i := 0, buf := h.line s.bytes
                                 term := t } :
      Terminal.Line (MAX_LINE_LEN - 1)) := ⟨rfl, rfl, htin⟩
  have hopen : Open MAX_LINE_LEN [] :=
    ⟨by decide, fun k hk => absurd hk List.not_mem_nil⟩
  -- `tread_line` returns a line or waits; what follows it always returns
  rcases @Terminal.treadLoop_or _ _ _ _ h.cursor rfl h0 hopen with
    ⟨ks', k, l, hread, hkeys, hpre, hstop, hl⟩ | ⟨hwait, hpre⟩
  · have hks : LineOf MAX_LINE_LEN (ks' ++ [k]) := ⟨ks', k, rfl, hpre, hstop⟩
    have hlen := length_putAll_of_line hks
    have hline := hasLine_stored (h := h) hl (by rw [hl.i_eq]; exact hlen)
      s.bytes
    have hshort : (stringOf (ks' ++ [k])).length
        ≤ (putAll (ks' ++ [k])).length := (List.takeWhile_prefix _).length_le
    have hmax : MAX_LINE_LEN = 1024 := rfl
    have hlt : (stringOf (ks' ++ [k])).length < MAX_LINE_LEN := by omega
    have hend := hok.buf_end
    have hin : h.buf + (stringOf (ks' ++ [k])).length < 2 ^ 32 := by omega
    obtain ⟨v, hinto, hinterp⟩ := Interpreter.interpret_gives hok.table
      hline.cString (zero_not_mem_cString _) hlt hok.buf_ne hin
    refine .inl ⟨ks' ++ [k], _, ⟨l.keys, l.term, _⟩, ?_, ?_, hks,
      Interpreter.ran_runLine hinto (zero_not_mem_cString _) hok.buf_ne hin,
      hl.inside, hline.cString, hlt⟩
    · unfold readCommand
      dsimp only
      rw [hprompt]
      exact hread.bind (hinterp.bind (.of_eq fun _ => rfl))
    · rw [hkeys]
      simp
  · refine .inr ⟨fun fuel => ?_, hpre⟩
    unfold readCommand
    dsimp only
    rw [hprompt, Outcome.ret_bind]
    dsimp only
    unfold Terminal.treadLine
    rw [hwait fuel]
    rfl

-- ============================================================== the answer

/-- The message that there is no such command comes to an end. -/
theorem notFound_gives {memory : Nat → List UInt8} {t : Terminal} {cmd : Nat}
    (ht : t.Inside) (h0 : 0 ∈ memory cmd) (logLevel : UInt8) :
    ∃ w t', Gives (fun fuel => t.printk memory logLevel fuel
        (Interpreter.notFound cmd).format (Interpreter.notFound cmd).params)
        (w, t') ∧ t'.Inside := by
  obtain ⟨-, t', -, -, -, hin, -, hscan⟩ :=
    @Terminal.scan_complete memory t t [.str cmd]
      (ascii "%12gcommand%14g %s%12g not found%r\n") ht (.refl t) (by decide)
      (by decide) ⟨_, rfl, _, rfl, _, ⟨cmd, rfl, h0⟩, _, rfl, _, rfl, trivial⟩
  have hprint : Gives (fun fuel => t.vprintk memory logLevel fuel
      (Interpreter.notFound cmd).format (Interpreter.notFound cmd).params) _ :=
    .of_succ hscan
  have hall : Gives (fun fuel => t.printk memory logLevel fuel
      (Interpreter.notFound cmd).format (Interpreter.notFound cmd).params) _ :=
    hprint.bind (.of_eq fun _ => by
      dsimp only
      rw [Terminal.updateVgaBuffer_eq, Outcome.ret_bind])
  exact ⟨_, _, hall, hin.x_lt, hin.y_lt⟩

/-- A turn in which nothing is called comes to its end. -/
theorem answer_ret {value : Nat} {printed : List PrintkCall}
    (hok : h.Ok regs) (ht : s.term.Inside)
    (hline : s.bytes.HasLine h.buf line) (hnul : 0 ∉ line)
    (hlen : line.length < MAX_LINE_LEN)
    (hran : Ran (regs.take MAX_COMMANDS_NUMBER) h.buf line
      (.ret value printed)) :
    ∃ s', Gives (fun fuel => h.answer fuel s (.ret value printed)) s' ∧
      s'.keys = s.keys ∧ s'.term.Inside := by
  have hend := hok.buf_end
  obtain ⟨b', hmem, hstr⟩ := Interpreter.memoryAfter_gives hline hnul hlen
    (show h.buf + line.length < 2 ^ 32 by omega)
  rcases hran with ⟨-, -, rfl⟩ | ⟨cmd, rest, r, -, -, -, hhead, rfl⟩
  · exact ⟨_, hmem.bind (.of_eq fun _ => rfl), rfl, ht⟩
  · obtain ⟨w, t', hprint, hin⟩ := @notFound_gives b'.upFrom _ _ ht
      (hstr r (List.mem_of_mem_head? hhead)) h.logLevel
    have hall : Gives (fun fuel => Terminal.printks b'.upFrom h.logLevel fuel
        [Interpreter.notFound (h.buf + r.1)] s.term) t' :=
      hprint.bind (.of_eq fun _ => rfl)
    exact ⟨_, hmem.bind (hall.bind (.of_eq fun _ => rfl)), rfl, hin⟩

/-- The rest of a turn takes no keys and leaves the cursor on the
screen. -/
theorem answer_inside (hok : h.Ok regs) (ht : s.term.Inside)
    (hline : s.bytes.HasLine h.buf line) (hnul : 0 ∉ line)
    (hlen : line.length < MAX_LINE_LEN)
    (hran : Ran (regs.take MAX_COMMANDS_NUMBER) h.buf line d)
    (hans : Gives (fun fuel => h.answer fuel s d) s') :
    s'.keys = s.keys ∧ s'.term.Inside := by
  cases d with
  | call run args bytes =>
      obtain ⟨_, hret⟩ := hans.ret
      obtain ⟨⟨term, b'⟩, hcall, hret⟩ := Outcome.bind_eq_ret.mp hret
      obtain rfl := Outcome.ret.inj hret
      exact ⟨rfl, hok.call run args _ _ _ _ hcall ht⟩
  | ret value printed =>
      obtain ⟨s'', hg, hkeys, hin⟩ :=
        answer_ret hok ht hline hnul hlen hran
      obtain rfl := hg.unique hans
      exact ⟨hkeys, hin⟩

-- ================================================================= one turn

/-- A turn takes the keys of a line off the keyboard and runs the line. -/
theorem step_ran (hok : h.Ok regs) (ht : s.term.Inside)
    (hs : h.Step s d s') :
    ∃ ks, presses s.keys = ks ++ presses s'.keys ∧
      LineOf MAX_LINE_LEN ks ∧
      Ran (regs.take MAX_COMMANDS_NUMBER) h.buf (stringOf ks) d ∧
      s'.term.Inside := by
  rcases readCommand_or hok ht with
    ⟨ks, d₁, s₁, hg, hkeys, hks, hran, hin, hline, hlt⟩ | ⟨hwait, -⟩
  · have hrest : Gives (fun fuel => h.answer fuel s₁ d₁ >>= fun s =>
        Outcome.ret (d₁, s)) (d, s') := hg.of_bind hs
    obtain ⟨n, hn⟩ := hrest
    have hans : ∀ fuel ≥ n, h.answer fuel s₁ d₁ = .ret s' ∧ d₁ = d := by
      intro fuel hfuel
      obtain ⟨s₂, hs₂, heq⟩ := Outcome.bind_eq_ret.mp (hn fuel hfuel)
      obtain ⟨rfl, rfl⟩ := Prod.mk.inj (Outcome.ret.inj heq)
      exact ⟨hs₂, rfl⟩
    obtain rfl := (hans n (le_refl _)).2
    obtain ⟨hkeys', hin'⟩ := answer_inside hok hin hline
      (zero_not_mem_cString _) hlt hran
      ⟨n, fun fuel hfuel => (hans fuel hfuel).1⟩
    rw [← hkeys'] at hkeys
    exact ⟨ks, hkeys, hks, hran, hin'⟩
  · obtain ⟨fuel, hret⟩ := hs.ret
    unfold turn at hret
    rw [hwait] at hret
    exact absurd hret (by simp)

/-- A turn comes to its end, or calls a command that does not come back, or
waits for keys. -/
theorem step_or (hok : h.Ok regs) (ht : s.term.Inside) :
    (∃ d s', h.Step s d s') ∨
    (∃ run args b s', Gives (fun fuel => h.readCommand fuel s)
        (.call run args b, s') ∧
      ∀ r, h.call run args (s'.term, b) ≠ .ret r) ∨
    (∀ fuel, h.turn fuel s = .timeout) ∧
      ∀ pre, pre <+: presses s.keys → Open MAX_LINE_LEN pre := by
  rcases readCommand_or hok ht with
    ⟨ks, d, s₁, hg, hkeys, hks, hran, hin, hline, hlt⟩ | ⟨hwait, hopen⟩
  · cases d with
    | call run args b =>
        by_cases hr : ∃ r, h.call run args (s₁.term, b) = .ret r
        · obtain ⟨⟨term, b'⟩, hcall⟩ := hr
          refine .inl ⟨.call run args b, { s₁ with term, bytes := b' },
            hg.bind ?_⟩
          refine .of_eq fun _ => ?_
          unfold answer
          dsimp only
          rw [hcall]
          rfl
        · exact .inr (.inl ⟨run, args, b, s₁, hg, fun r h => hr ⟨r, h⟩⟩)
    | ret value printed =>
        obtain ⟨s', hans, -, -⟩ := answer_ret hok hin hline
          (zero_not_mem_cString _) hlt hran
        exact .inl ⟨_, s', hg.bind (hans.bind (.of_eq fun _ => rfl))⟩
  · refine .inr (.inr ⟨fun fuel => ?_, hopen⟩)
    unfold turn
    rw [hwait]
    rfl

/-- If every command comes back, a turn for which a line is typed takes that
line and comes to its end. -/
theorem step_line (hok : h.Ok regs) (ht : s.term.Inside)
    (hback : ∀ run args p, ∃ r, h.call run args p = .ret r)
    (hks : LineOf MAX_LINE_LEN ks) {rest : List Keypress}
    (hkeys : presses s.keys = ks ++ rest) :
    ∃ d s', h.Step s d s' ∧ presses s'.keys = rest ∧ s'.term.Inside := by
  obtain ⟨d, s', hs⟩ : ∃ d s', h.Step s d s' := by
    rcases step_or hok ht with hs | ⟨run, args, b, s', -, hcall⟩ | ⟨-, hopen⟩
    · exact hs
    · obtain ⟨r, hr⟩ := hback run args (s'.term, b)
      exact absurd hr (hcall r)
    · obtain ⟨-, -, -, -, hstop⟩ := hks
      exact absurd (hopen _ ⟨rest, hkeys.symm⟩) hstop
  obtain ⟨ks', hkeys', hks', -, hin⟩ := step_ran hok ht hs
  obtain rfl := lineOf_unique hks hks' ⟨rest, hkeys.symm⟩
    ⟨presses s'.keys, hkeys'.symm⟩
  rw [hkeys] at hkeys'
  exact ⟨d, s', hs, (List.append_cancel_left hkeys').symm, hin⟩

-- ================================================================ a session

/-- The cursor is on the screen before every turn. -/
theorem inside_of_run (hok : h.Ok regs) (ht : s₀.term.Inside)
    (hr : h.Run s₀ tr s) : s.term.Inside := by
  refine hr.invariant (P := fun s => s.term.Inside) (fun _ _ => True)
    (fun _ _ => trivial) ht fun s d s' hs _ hstep => ?_
  obtain ⟨-, -, -, -, hin⟩ := step_ran hok hs hstep
  exact hin

/-- What is typed is what is run: in every run of the shell the keys split
into lines, one for each turn; each turn runs the words of its line, up to
the first NUL, and where the keys without a character have been erased, the
line is what the keys ask for. After the run the loop goes on: the next
turn comes to its end, or calls a command that does not come back, or waits
for the end of a line. -/
theorem run_ran (hok : h.Ok regs) (ht : s₀.term.Inside)
    (hr : h.Run s₀ tr s) :
    (∃ kss : List (List Keypress),
      presses s₀.keys = kss.flatten ++ presses s.keys ∧
      List.Forall₂ (fun ks p => LineOf MAX_LINE_LEN ks ∧
        Ran (regs.take MAX_COMMANDS_NUMBER) h.buf (stringOf ks) p.2 ∧
        (Settled ks → stringOf ks = typed ks)) kss tr) ∧
    ((∃ d s', h.Step s d s') ∨
      (∃ run args b s', Gives (fun fuel => h.readCommand fuel s)
          (.call run args b, s') ∧
        ∀ r, h.call run args (s'.term, b) ≠ .ret r) ∨
      (∀ fuel, h.turn fuel s = .timeout) ∧
        ∀ pre, pre <+: presses s.keys → Open MAX_LINE_LEN pre) := by
  refine ⟨?_, step_or hok (inside_of_run hok ht hr)⟩
  induction hr with
  | nil => exact ⟨[], rfl, .nil⟩
  | @snoc tr s s' d hr hs ih =>
      have hin : s.term.Inside := inside_of_run hok ht hr
      obtain ⟨kss, hkeys, hall⟩ := ih
      obtain ⟨ks, htaken, hks, hran, -⟩ := step_ran hok hin hs
      refine ⟨kss ++ [ks], ?_, List.rel_append hall
        (.cons ⟨hks, hran, stringOf_of_settled⟩ .nil)⟩
      rw [hkeys, htaken, List.flatten_append, List.flatten_singleton,
        List.append_assoc]

/-- The shell of the examples, with commands that leave everything as it
is. -/
def sampleHost : Host Handler where
  interp := Shell.sampleInterp
  buf := 4
  cursor := 0
  logLevel := 7
  call := fun _ _ p => .ret p

/-- `mem`, two spaces, `status`, and enter. -/
def keysOfStatus : Keys where
  codes := [0x32, 0x12, 0x32, 0x39, 0x39, 0x1f, 0x14, 0x1e, 0x14, 0x16, 0x1f,
    0x1c]
  shift := false
  ctrl := false
  alt := false

/-- Both lines are typed before the shell reads the first of them. -/
def sampleSession : Session where
  keys := { keysOfStatus with
    codes := Terminal.keysOfCommand.codes ++ keysOfStatus.codes }
  term := TermCall.console
  bytes := fun _ => 0

theorem sampleHost_ok :
    sampleHost.Ok (Shell.builtins (Vector.replicate _ 0)) where
  buf_ne := by decide
  buf_end := by decide
  table := @Shell.registered_builtins (Vector.replicate _ 0)
    Shell.sampleInterp rfl
  call := fun _ _ _ _ _ _ h hin => by
    obtain ⟨rfl, rfl⟩ := Prod.mk.inj (Outcome.ret.inj h)
    exact hin

/-- Nothing but the newline at its end ends one of the two lines, and no key
of them is without a character. -/
theorem lineOf_sample : ∀ keys ∈ [Terminal.keysOfCommand, keysOfStatus],
    LineOf MAX_LINE_LEN (presses keys) ∧ Settled (presses keys) := by
  intro keys hkeys
  have hopen : ∀ keys ∈ [Terminal.keysOfCommand, keysOfStatus],
      ∀ i < (presses keys).length,
        (putAll ((presses keys).take i)).length < MAX_LINE_LEN - 1 ∧
        ∀ k ∈ (presses keys).take i, ¬k.Newline := by
    decide +kernel
  have hend : ∀ keys ∈ [Terminal.keysOfCommand, keysOfStatus],
      (¬∀ k ∈ presses keys, ¬k.Newline) ∧ presses keys ≠ [] ∧
        ∀ k ∈ presses keys, ¬k.Silent := by
    decide +kernel
  obtain ⟨hnewline, hne, hsilent⟩ := hend keys hkeys
  refine ⟨lineOf_of_take (fun i hi => ?_) (fun h => hnewline h.noNewline) hne,
    ⟨[], _, rfl, putAll_eq_nil.mp rfl, hsilent⟩⟩
  obtain ⟨hroom, hnone⟩ := hopen keys hkeys i hi
  exact ⟨hroom, hnone⟩

/-- Two lines are typed, and both are run: the first names no command, the
second is one with an argument. -/
theorem run_ran_typed : ∃ d s d' s',
    sampleHost.Run sampleSession [(sampleSession, d), (s, d')] s' ∧
    presses s'.keys = [] ∧
    Ran (Shell.builtins (Vector.replicate _ 0)) 4 (ascii "lS\n") d ∧
    Ran (Shell.builtins (Vector.replicate _ 0)) 4 (ascii "mem  status\n")
      d' := by
  obtain ⟨hks, hset⟩ := lineOf_sample Terminal.keysOfCommand (by simp)
  obtain ⟨hks', hset'⟩ := lineOf_sample keysOfStatus (by simp)
  have hin : sampleSession.term.Inside := ⟨by decide, by decide⟩
  have hback : ∀ run args p, ∃ r, sampleHost.call run args p = .ret r :=
    fun _ _ p => ⟨p, rfl⟩
  have htyped : presses sampleSession.keys
      = presses Terminal.keysOfCommand ++ (presses keysOfStatus ++ []) := by
    decide +kernel
  obtain ⟨d, s, hs, hkeys, hin'⟩ :=
    step_line sampleHost_ok hin hback hks htyped
  obtain ⟨d', s', hs', hkeys', -⟩ :=
    step_line sampleHost_ok hin' hback hks' hkeys
  have hrun : sampleHost.Run sampleSession [(sampleSession, d), (s, d')] s' :=
    .snoc (.snoc .nil hs) hs'
  refine ⟨d, s, d', s', hrun, hkeys', ?_⟩
  obtain ⟨⟨kss, hsplit, hall⟩, -⟩ := run_ran sampleHost_ok hin hrun
  obtain ⟨ks, kss₁, ⟨hline, hran, hstr⟩, hrest, rfl⟩ :=
    List.forall₂_cons_right_iff.mp hall
  obtain ⟨ks', kss₂, ⟨-, hran', hstr'⟩, hnil, rfl⟩ :=
    List.forall₂_cons_right_iff.mp hrest
  obtain rfl := List.forall₂_nil_right_iff.mp hnil
  -- the lines of the run are the two that were typed
  rw [htyped, hkeys', List.flatten_cons, List.flatten_singleton,
    List.append_nil, List.append_nil] at hsplit
  obtain rfl := lineOf_unique hks hline (List.prefix_append _ _)
    ⟨ks', hsplit.symm⟩
  obtain rfl := List.append_cancel_left hsplit
  have htext : typed (presses Terminal.keysOfCommand) = ascii "lS\n" := by
    decide +kernel
  have htext' : typed (presses keysOfStatus) = ascii "mem  status\n" := by
    decide +kernel
  rw [hstr hset, htext] at hran
  rw [hstr' hset', htext'] at hran'
  exact ⟨hran, hran'⟩

end Host

end Ntibux
