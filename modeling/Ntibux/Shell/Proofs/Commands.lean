/-
Which pointers the handlers use.

A handler is called with the words of the line for arguments, and null
pointers behind them (`HasArgs`). Each handler looks at an argument before
it uses it, but for `mem free`, which converts both of its arguments
first.
-/
import Ntibux.Shell.Proofs.Atoi
import Ntibux.Shell.Proofs.Dispatch

namespace Ntibux

namespace Shell

open Traced (emit lift some_bind some_bind_of_ret not_some_bind)

variable {α : Type} {sh : Shell} {args : Splits}
  {argv : List (List UInt8)}

/-- Some action uses a null pointer. -/
def UsesNull (x : Traced Action α) : Prop :=
  x.Some fun e => e.usesNull = true

/-- The arguments are the texts, and null pointers behind them. -/
structure HasArgs (b : Bytes) (args : Splits)
    (argv : List (List UInt8)) : Prop where
  null : ∀ k, argv.length ≤ k.val → args.get k = 0
  text : ∀ k t, argv[k.val]? = some t → args.get k ≠ 0
    ∧ ∃ rest, b.upFrom (args.get k) = t ++ 0 :: rest
  not_mem : ∀ t ∈ argv, 0 ∉ t

/-- An argument that was given is a string in memory. -/
theorem HasArgs.text_of_lt {b : Bytes} (h : HasArgs b args argv)
    {k : Fin (MAX_LINE_LEN / 2 + 1)} (hk : k.val < argv.length) :
    args.get k ≠ 0
      ∧ ∃ t rest, b.upFrom (args.get k) = t ++ 0 :: rest := by
  obtain ⟨hne, rest, hrest⟩ := h.text k _ (List.getElem?_eq_getElem hk)
  exact ⟨hne, _, rest, hrest⟩

/-- A null pointer tells a handler that the argument was not given, and
nothing else does. -/
theorem HasArgs.null_iff {b : Bytes} (h : HasArgs b args argv)
    (k : Fin (MAX_LINE_LEN / 2 + 1)) :
    args.get k = 0 ↔ argv.length ≤ k.val := by
  refine ⟨fun h0 => ?_, h.null k⟩
  by_contra hlt
  exact (h.text_of_lt (Nat.not_le.mp hlt)).1 h0

-- =============================================================== the actions

theorem not_usesNull_pure (a : α) : ¬UsesNull (pure a) := Traced.some_pure a

theorem not_usesNull_lift (x : Outcome α) : ¬UsesNull (lift x) :=
  Traced.some_lift x

/-- An action alone uses a null pointer where the action does. -/
theorem usesNull_emit {e : Action} :
    UsesNull (emit e) ↔ e.usesNull = true := Traced.some_emit

/-- Where the first part returns, what counts is its own actions and those
of the part that is run on what it has returned. -/
theorem usesNull_bind_of_ret {β : Type} {x : Traced Action α} {a : α}
    (h : x.out = .ret a) (f : α → Traced Action β) :
    UsesNull (x >>= f) ↔ UsesNull x ∨ UsesNull (f a) :=
  Traced.some_bind_of_ret h f

/-- Parts that are safe, the second on whatever the first may return, make a
safe whole. -/
theorem bind_safe {β : Type} {x : Traced Action α} {f : α → Traced Action β}
    (hx : ¬UsesNull x) (hf : ∀ a, ¬UsesNull (f a)) : ¬UsesNull (x >>= f) :=
  Traced.not_some_bind hx hf

theorem emit_safe {e : Action} (he : e.usesNull = false)
    {f : Unit → Traced Action α} (hf : ¬UsesNull (f ())) :
    ¬UsesNull (emit e >>= f) := by
  refine bind_safe ?_ fun _ => hf
  rw [usesNull_emit, he]
  exact Bool.false_ne_true

/-- A part that is left out or safe is safe. -/
theorem ite_safe {c : Prop} [Decidable c] {x : Traced Action α} {a : α}
    (hx : c → ¬UsesNull x) : ¬UsesNull (if c then x else pure a) := by
  split
  case isTrue h => exact hx h
  case isFalse => exact not_usesNull_pure a

/-- `printk` follows the null pointers among its arguments that are strings.
-/
theorem usesNull_printk {format : String} {params : List Arg} :
    UsesNull (printk format params) ↔ .str 0 ∈ params := by
  unfold printk
  rw [usesNull_emit]
  exact List.contains_iff_mem

theorem printk_safe {format : String} {params : List Arg}
    (hp : .str 0 ∉ params) {f : Unit → Traced Action α}
    (hf : ¬UsesNull (f ())) : ¬UsesNull (printk format params >>= f) :=
  bind_safe (mt usesNull_printk.mp hp) fun _ => hf

/-- `atoi` reads behind the pointer it is given, so it uses a null one. The
same holds of a character of an argument, and of the comparison with one. -/
theorem usesNull_atoiArg {p i : Nat} :
    UsesNull (sh.atoiArg p i) ↔ p = 0 := by
  unfold atoiArg
  rw [usesNull_bind_of_ret (Traced.emit_out _), usesNull_emit,
    or_iff_left (not_usesNull_lift _)]
  exact beq_iff_eq

/-- What `atoi` makes of an argument is decided by its text. -/
theorem atoiArg_out {p n : Nat} {t rest : List UInt8}
    (hp : sh.bytes.upFrom p = t ++ 0 :: rest)
    (hn : ∀ rest, atoi (t ++ 0 :: rest) = .ret n) :
    (sh.atoiArg p 0).out = .ret n := by
  show atoi (sh.bytes.upFrom p) = .ret n
  rw [hp, hn]

theorem usesNull_indexArg {p i : Nat} :
    UsesNull (sh.indexArg p i) ↔ p = 0 := by
  unfold indexArg
  rw [usesNull_bind_of_ret (Traced.emit_out _), usesNull_emit,
    or_iff_left (not_usesNull_pure _)]
  exact beq_iff_eq

theorem usesNull_spells {s : String} {p : Nat} :
    UsesNull (sh.spells s p) ↔ p = 0 := by
  have hrest : ¬UsesNull (do
      let diff ← lift (strcmp (ascii s ++ [0]) (sh.bytes.upFrom p))
      pure (diff = 0) : Traced Action Bool) :=
    bind_safe (not_usesNull_lift _) fun _ => not_usesNull_pure _
  unfold spells
  rw [usesNull_bind_of_ret (Traced.emit_out _), usesNull_emit,
    or_iff_left hrest]
  exact beq_iff_eq

-- ============================================================== the handlers

/-- `help` prints names that lie in the interpreter, which is not at null.
-/
theorem helpLoop_safe {self : Nat} (hself : self ≠ 0) (i : Nat)
    (commands : List (Command Handler)) :
    ¬UsesNull (helpLoop self i commands) := by
  induction commands generalizing i with
  | nil => exact not_usesNull_pure ()
  | cons c commands ih =>
      refine printk_safe ?_ (ih (i + 1))
      rw [List.mem_singleton, Arg.str.injEq]
      omega

theorem commandHelp_safe (sh : Shell) : ¬UsesNull sh.commandHelp :=
  printk_safe List.not_mem_nil
    (bind_safe (helpLoop_safe sh.self_ne 0 _) fun _ => not_usesNull_pure 0)

/-- `exit` talks to ports and looks at no argument. -/
theorem exitLoop_safe (inputs : List UInt8) :
    ¬UsesNull (exitLoop inputs) := by
  induction inputs with
  | nil => exact not_usesNull_lift _
  | cons status inputs ih =>
      refine emit_safe rfl ?_
      split
      case isTrue => exact emit_safe rfl ih
      case isFalse => exact not_usesNull_pure ()

theorem commandExit_safe (sh : Shell) : ¬UsesNull sh.commandExit :=
  bind_safe (exitLoop_safe sh.inputs) fun _ =>
    emit_safe rfl (not_usesNull_pure 0)

/-- The loop stops at the first null pointer, before it is printed. -/
theorem echoLoop_safe (l : List Nat) : ¬UsesNull (echoLoop l) := by
  induction l with
  | nil => exact not_usesNull_lift _
  | cons p l ih =>
      unfold echoLoop
      split
      case isTrue hp =>
        have hused : (Action.tputs p).usesNull = false :=
          beq_eq_false_iff_ne.mpr hp
        exact emit_safe hused (emit_safe rfl ih)
      case isFalse => exact not_usesNull_pure ()

/-- `echo` stops at the first null pointer. -/
theorem commandEcho_safe (args : Splits) : ¬UsesNull (commandEcho args) :=
  bind_safe (echoLoop_safe _) fun _ =>
    emit_safe rfl (emit_safe rfl (not_usesNull_pure 0))

/-- `colortest` prints numbers. -/
theorem colortestLoop_safe (n c : Nat) : ¬UsesNull (colortestLoop n c) := by
  induction n generalizing c with
  | zero => exact not_usesNull_pure ()
  | succ n ih =>
      refine emit_safe rfl (printk_safe (by simp) ?_)
      refine emit_safe rfl (printk_safe (by simp) ?_)
      exact emit_safe rfl (ih (c + 1))

theorem commandColortest_safe : ¬UsesNull commandColortest :=
  bind_safe (colortestLoop_safe 16 0) fun _ => not_usesNull_pure 0

/-- `log_level` reads its argument only where it has seen one. -/
theorem commandLogLevel_safe (args : Splits) (sh : Shell) :
    ¬UsesNull (sh.commandLogLevel args) := by
  refine printk_safe (by simp) ?_
  split
  case isTrue h1 =>
    refine bind_safe (mt usesNull_indexArg.mp h1) fun c => ?_
    refine emit_safe rfl ?_
    split
    case isTrue => exact printk_safe (by simp) (not_usesNull_pure 0)
    case isFalse => exact not_usesNull_pure 0
  case isFalse => exact not_usesNull_pure 0

/-- The handlers with `dump` for their only subcommand compare the argument
that they have seen, and print the name they were called by. -/
theorem dumpOnly_safe (h0 : args.get 0 ≠ 0) {dump : Action}
    (hdump : dump.usesNull = false) : ¬UsesNull (sh.dumpOnly dump args) := by
  have husage : ¬UsesNull (dumpOnly.usage args) :=
    printk_safe (by simpa using h0.symm) (not_usesNull_pure 1)
  unfold dumpOnly
  split
  case isTrue => exact husage
  case isFalse h1 =>
    refine bind_safe (mt usesNull_spells.mp h1) fun found => ?_
    cases found with
    | true => exact emit_safe hdump (not_usesNull_pure 0)
    | false => exact printk_safe (by simpa using Ne.symm h1) husage

/-- `sched` looks at both arguments before it reads them. -/
theorem commandSched_safe (h0 : args.get 0 ≠ 0) (sh : Shell) :
    ¬UsesNull (sh.commandSched args) := by
  have husage : ¬UsesNull (schedUsage args) :=
    printk_safe (by simpa using h0.symm) (not_usesNull_pure 1)
  unfold commandSched
  split
  case isTrue => exact husage
  case isFalse h1 =>
    refine bind_safe (mt usesNull_spells.mp h1) fun found => ?_
    cases found with
    | true =>
        rw [if_pos rfl]
        split
        case isTrue h2 =>
          exact bind_safe (mt usesNull_atoiArg.mp h2) fun id =>
            emit_safe rfl (not_usesNull_pure 0)
        case isFalse => exact emit_safe rfl (not_usesNull_pure 0)
    | false => exact husage

-- ======================================================================== x

/-- A word of memory is printed as a number or as characters, never as a
string. -/
theorem printWord_safe (fmt : UInt8) (ptr : Nat) (sh : Shell) :
    ¬UsesNull (sh.printWord fmt ptr) := by
  have hprint : ∀ {format : String} {params : List Arg},
      .str 0 ∉ params →
      ¬UsesNull (do emit (.peek ptr); printk format params) :=
    fun hp => emit_safe rfl (mt usesNull_printk.mp hp)
  unfold printWord
  split
  case isTrue => exact hprint (by simp)
  case isFalse =>
    split
    case isTrue => exact hprint (by simp)
    case isFalse =>
      split
      case isTrue => exact hprint (by simp)
      case isFalse =>
        split
        case isTrue => exact hprint (by simp)
        case isFalse => exact not_usesNull_pure ()

/-- So is every word of a dump. -/
theorem xLoop_safe (address : Nat) (fmt : UInt8) (sh : Shell)
    (rep ptr : Nat) : ¬UsesNull (xLoop address fmt sh rep ptr) := by
  have hline : ∀ {c : Prop} [Decidable c] {format : String}
      {params : List Arg}, .str 0 ∉ params →
      ¬UsesNull (if c then printk format params else pure ()) :=
    fun hp => ite_safe fun _ => mt usesNull_printk.mp hp
  induction rep generalizing ptr with
  | zero => exact not_usesNull_pure ()
  | succ rep ih =>
      refine bind_safe (hline (by simp)) fun _ => ?_
      refine bind_safe (printWord_safe fmt ptr sh) fun _ => ?_
      exact bind_safe (hline (by simp)) fun _ => ih _

theorem xDump_safe (address rep : Nat) (fmt : UInt8) (sh : Shell) :
    ¬UsesNull (sh.xDump address rep fmt) :=
  bind_safe (xLoop_safe address fmt sh rep address) fun _ =>
    printk_safe (by simp) (not_usesNull_pure 0)

/-- Where the format comes before the address, the handler has seen that
both are there. -/
theorem xParam_safe (h1 : args.get 1 ≠ 0) (h2 : args.get 2 ≠ 0) (i : Nat)
    (fmt : UInt8) : ¬UsesNull (sh.xParam args i fmt) := by
  refine bind_safe (mt usesNull_indexArg.mp h1) fun c => ?_
  refine bind_safe ?_ fun rep => ?_
  · split
    case isTrue => exact not_usesNull_pure 1
    case isFalse => exact mt usesNull_atoiArg.mp h1
  · exact bind_safe (mt usesNull_atoiArg.mp h2) fun address =>
      xDump_safe address rep fmt sh

/-- `x` takes its first argument for a format only if there is a second one,
and for the address otherwise. -/
theorem commandX_safe (h0 : args.get 0 ≠ 0) (sh : Shell) :
    ¬UsesNull (sh.commandX args) := by
  have husage : ¬UsesNull (xUsage args) :=
    printk_safe (by simpa using h0.symm) (not_usesNull_pure 1)
  unfold commandX
  split
  case isTrue => exact husage
  case isFalse h1 =>
    by_cases h2 : args.get 2 = 0
    · rw [if_neg (not_not.mpr h2),
        usesNull_bind_of_ret (Traced.pure_out false), not_or]
      exact ⟨not_usesNull_pure _, bind_safe (mt usesNull_atoiArg.mp h1)
        fun address => xDump_safe address 1 0x78 sh⟩
    · refine bind_safe ?_ fun slash => ?_
      · rw [if_pos h2]
        exact bind_safe (mt usesNull_indexArg.mp h1) fun c =>
          not_usesNull_pure _
      · cases slash with
        | false => exact bind_safe (mt usesNull_atoiArg.mp h1) fun address =>
            xDump_safe address 1 0x78 sh
        | true =>
            refine bind_safe (mt usesNull_indexArg.mp h1) fun c => ?_
            split
            case isTrue => exact xParam_safe h1 h2 2 c
            case isFalse =>
              split
              case isTrue => exact xParam_safe h1 h2 1 0x78
              case isFalse => exact husage

-- ====================================================================== mem

/-- The literal is compared with the text of the argument. -/
theorem spells_out {s : String} {p : Nat} {t rest : List UInt8}
    (hs : 0 ∉ ascii s) (ht : 0 ∉ t)
    (hp : sh.bytes.upFrom p = t ++ 0 :: rest) :
    (sh.spells s p).out = .ret (decide (t = ascii s)) := by
  obtain ⟨d, hd, hiff⟩ := @strcmp_exact (ascii s ++ [0])
    (sh.bytes.upFrom p) (by simp) (by rw [hp]; simp)
  rw [cString_append_zero hs, hp, cString_append_zero ht] at hiff
  unfold spells
  rw [Traced.emit_bind]
  show (lift _ >>= _ : Traced Action Bool).out = _
  rw [Traced.bind_out, Traced.lift_out, hd, Outcome.ret_bind]
  have hsame : decide (d = 0) = decide (t = ascii s) :=
    decide_eq_decide.mpr (hiff.trans eq_comm)
  rw [← hsame]
  rfl

/-- A comparison logs the one pointer that it reads. -/
theorem spells_log (s : String) (p : Nat) (sh : Shell) :
    (sh.spells s p).log = [.strcmp (ascii s ++ [0]) p] := by
  unfold spells
  rw [Traced.emit_bind]
  cases strcmp (ascii s ++ [0]) (sh.bytes.upFrom p) <;> rfl

/-- How `mem` is used is printed with the name of the command, which every
call has. -/
theorem memUsage_safe (h0 : args.get 0 ≠ 0) : ¬UsesNull (memUsage args) :=
  printk_safe (by simpa using h0.symm) (not_usesNull_pure 1)

/-- The usages of the subcommands print the first two arguments. -/
theorem printk_both_safe (h0 : args.get 0 ≠ 0) (h1 : args.get 1 ≠ 0)
    (format : String) :
    ¬UsesNull (do
      printk format [.str (args.get 0), .str (args.get 1)]
      pure 0 : Traced Action Nat) :=
  printk_safe (by simpa using ⟨h0.symm, h1.symm⟩) (not_usesNull_pure 0)

/-- `mem dump` converts its argument only where there is one. -/
theorem memDumpCommand_safe (h0 : args.get 0 ≠ 0) (h1 : args.get 1 ≠ 0)
    (sh : Shell) : ¬UsesNull (sh.memDumpCommand args) := by
  unfold memDumpCommand
  split
  case isTrue h2 =>
    refine bind_safe (mt usesNull_atoiArg.mp h2) fun pd => ?_
    split
    case isTrue => exact emit_safe rfl (not_usesNull_pure 0)
    case isFalse => exact printk_both_safe h0 h1 _
  case isFalse => exact emit_safe rfl (not_usesNull_pure 0)

/-- So does `mem alloc`. -/
theorem memAllocCommand_safe (h0 : args.get 0 ≠ 0) (h1 : args.get 1 ≠ 0)
    (sh : Shell) : ¬UsesNull (sh.memAllocCommand args) := by
  refine bind_safe (ite_safe fun h2 => mt usesNull_atoiArg.mp h2)
    fun nbr => ?_
  split
  case isTrue => exact emit_safe rfl (not_usesNull_pure 0)
  case isFalse => exact printk_both_safe h0 h1 _

/-- `mem free` does not: both numbers are converted before it looks whether
they are there. -/
theorem memFreeCommand_usesNull_iff (h0 : args.get 0 ≠ 0)
    (h1 : args.get 1 ≠ 0)
    (h2 : args.get 2 ≠ 0 → ∃ t rest,
      sh.bytes.upFrom (args.get 2) = t ++ 0 :: rest) :
    UsesNull (sh.memFreeCommand args)
      ↔ args.get 2 = 0 ∨ args.get 3 = 0 := by
  unfold memFreeCommand
  by_cases hn2 : args.get 2 = 0
  · exact iff_of_true (some_bind.mpr (.inl (usesNull_atoiArg.mpr hn2)))
      (.inl hn2)
  · obtain ⟨t, rest, ht⟩ := h2 hn2
    rw [usesNull_bind_of_ret (atoiArg_out ht (atoi_string t)),
      usesNull_atoiArg]
    refine or_congr_right ?_
    by_cases hn3 : args.get 3 = 0
    · exact iff_of_true (some_bind.mpr (.inl (usesNull_atoiArg.mpr hn3))) hn3
    · refine iff_of_false ?_ hn3
      refine bind_safe (mt usesNull_atoiArg.mp hn3) fun _ => ?_
      refine bind_safe (ite_safe fun _ => mt usesNull_atoiArg.mp hn2)
        fun addr => ?_
      refine bind_safe (ite_safe fun _ => mt usesNull_atoiArg.mp hn3)
        fun nbr => ?_
      split
      case isTrue => exact emit_safe rfl (not_usesNull_pure 0)
      case isFalse => exact printk_both_safe h0 h1 _

/-- Of the subcommands of `mem`, only `free` uses a null pointer, and
exactly if it lacks one of its arguments. -/
theorem commandMem_usesNull_iff (h : HasArgs sh.bytes args argv)
    (hne : argv ≠ []) :
    UsesNull (sh.commandMem args)
      ↔ argv[1]? = some (ascii "free") ∧ argv.length < 4 := by
  have h0 : args.get 0 ≠ 0 :=
    (h.text_of_lt (List.length_pos_of_ne_nil hne)).1
  have hlisted : args.get 2 ≠ 0 →
      ∃ t rest, sh.bytes.upFrom (args.get 2) = t ++ 0 :: rest :=
    fun h2 => (h.text_of_lt (Nat.not_le.mp (mt (h.null_iff 2).mpr h2))).2
  unfold commandMem
  cases h1 : argv[1]? with
  | none =>
      rw [if_pos (h.null 1 (List.getElem?_eq_none_iff.mp h1))]
      exact iff_of_false (memUsage_safe h0) (by simp)
  | some t =>
      obtain ⟨hn1, rest, ht⟩ := h.text 1 t h1
      have hnul : 0 ∉ t := h.not_mem t (List.mem_of_getElem? h1)
      -- a comparison with the subcommand uses no null pointer, as it is there
      have hsub : ∀ (s : String), 0 ∉ ascii s →
          ∀ f : Bool → Traced Action Nat,
          UsesNull (sh.spells s (args.get 1) >>= f)
            ↔ UsesNull (f (decide (t = ascii s))) := by
        intro s hs f
        rw [usesNull_bind_of_ret (spells_out hs hnul ht), usesNull_spells,
          or_iff_right hn1]
      rw [if_neg hn1, hsub "status" (by decide)]
      by_cases hstatus : t = ascii "status"
      · subst hstatus
        exact iff_of_false (emit_safe rfl (not_usesNull_pure 0))
          (fun hc => absurd hc.1 (by decide))
      rw [decide_eq_false hstatus, if_neg Bool.false_ne_true,
        hsub "dump" (by decide)]
      by_cases hdump : t = ascii "dump"
      · subst hdump
        exact iff_of_false (memDumpCommand_safe h0 hn1 sh)
          (fun hc => absurd hc.1 (by decide))
      rw [decide_eq_false hdump, if_neg Bool.false_ne_true,
        hsub "alloc" (by decide)]
      by_cases halloc : t = ascii "alloc"
      · subst halloc
        exact iff_of_false (memAllocCommand_safe h0 hn1 sh)
          (fun hc => absurd hc.1 (by decide))
      rw [decide_eq_false halloc, if_neg Bool.false_ne_true,
        hsub "free" (by decide)]
      by_cases hfree : t = ascii "free"
      · subst hfree
        rw [decide_eq_true rfl, if_pos rfl,
          memFreeCommand_usesNull_iff h0 hn1 hlisted, h.null_iff, h.null_iff,
          eq_self, true_and]
        -- the address or the size is missing
        show argv.length ≤ 2 ∨ argv.length ≤ 3 ↔ argv.length < 4
        omega
      · rw [decide_eq_false hfree, if_neg Bool.false_ne_true]
        refine iff_of_false (printk_safe (by simpa using Ne.symm hn1)
          (memUsage_safe h0)) fun hc => hfree (Option.some.inj hc.1)

-- ================================================================ every line

/-- The words of a line. -/
def texts (line : List UInt8) : List (List UInt8) :=
  (words line).map (wordText line)

/-- What `split` leaves is what a handler is called with. -/
theorem hasArgs_of_splitInto {b b' : Bytes} {p : Nat} {line : List UInt8}
    (h : Interpreter.SplitInto b p line (Vector.replicate _ 0) args b')
    (hnul : 0 ∉ line) (hp : p ≠ 0) (hend : p + line.length < 2 ^ 32) :
    HasArgs b' args (texts line) := by
  have hget : ∀ k : Fin (MAX_LINE_LEN / 2 + 1), args.get k
      = ((words line)[k.val]?.map fun r => p + r.1).getD 0 := by
    intro k
    have hlisted := h.listed k.val k.isLt
    rw [Vector.getElem_replicate] at hlisted
    refine hlisted.trans ?_
    unfold Interpreter.tokens
    rcases Nat.lt_trichotomy k.val (words line).length with
      hlt | heq | hgt
    · rw [List.getElem?_append_left (by rwa [List.length_map]),
        List.getElem?_map]
    · rw [List.getElem?_append_right (by rw [List.length_map]; omega),
        List.length_map, heq, Nat.sub_self,
        List.getElem?_eq_none (le_refl _)]
      rfl
    · rw [List.getElem?_eq_none (by simp; omega),
        List.getElem?_eq_none (by omega)]
      rfl
  refine ⟨fun k hk => ?_, fun k t ht => ?_, fun t ht => ?_⟩
  · unfold texts at hk
    rw [List.length_map] at hk
    rw [hget, List.getElem?_eq_none hk]
    rfl
  · unfold texts at ht
    rw [List.getElem?_map] at ht
    obtain ⟨r, hr, rfl⟩ := Option.map_eq_some_iff.mp ht
    rw [hget, hr]
    refine ⟨?_, h.upFrom (List.mem_of_getElem? hr) hend⟩
    show p + r.1 ≠ 0
    omega
  · obtain ⟨r, hr, rfl⟩ := List.mem_map.mp ht
    exact Interpreter.zero_not_mem_wordText hnul r

/-- Of all handlers on all arguments, what uses a null pointer is a `mem
free` that is short of a number. -/
theorem runHandler_usesNull_iff (h : HasArgs sh.bytes args argv)
    (hne : argv ≠ []) (handler : Handler) :
    UsesNull (runHandler handler args sh) ↔ handler = .mem
      ∧ argv[1]? = some (ascii "free") ∧ argv.length < 4 := by
  have h0 : args.get 0 ≠ 0 :=
    (h.text_of_lt (List.length_pos_of_ne_nil hne)).1
  have hsafe : ∀ {x : Traced Action Nat} {other : Handler}, ¬UsesNull x →
      other ≠ .mem → (UsesNull x ↔ other = .mem
        ∧ argv[1]? = some (ascii "free") ∧ argv.length < 4) :=
    fun hx hother => iff_of_false hx fun hc => hother hc.1
  cases handler with
  | mem => exact (commandMem_usesNull_iff h hne).trans (by simp)
  | help => exact hsafe (commandHelp_safe sh) nofun
  | clear => exact hsafe (emit_safe rfl (not_usesNull_pure 0)) nofun
  | exit => exact hsafe (commandExit_safe sh) nofun
  | echo => exact hsafe (commandEcho_safe args) nofun
  | motd => exact hsafe (emit_safe rfl (not_usesNull_pure 0)) nofun
  | colortest => exact hsafe commandColortest_safe nofun
  | logLevel => exact hsafe (commandLogLevel_safe args sh) nofun
  | trace => exact hsafe (emit_safe rfl (not_usesNull_pure 0)) nofun
  | x => exact hsafe (commandX_safe h0 sh) nofun
  | int => exact hsafe (dumpOnly_safe h0 rfl) nofun
  | time => exact hsafe (dumpOnly_safe h0 rfl) nofun
  | sched => exact hsafe (commandSched_safe h0 sh) nofun
  | cpus => exact hsafe (dumpOnly_safe h0 rfl) nofun

section

variable {old : Vector UInt8 MAX_COMMAND_NAME_LEN}

/-- The names of the built-in commands have room in their fields. -/
theorem builtinNames_short : ∀ c ∈ builtinNames,
    0 ∉ ascii c.1 ∧ (ascii c.1).length < MAX_COMMAND_NAME_LEN := by
  decide

/-- The handler of `mem` is that of the command `mem`, and of no other. -/
theorem builtinNames_mem : ∀ c ∈ builtinNames,
    c.2 = .mem ↔ ascii c.1 = ascii "mem" := by
  decide

/-- All built-in commands have their names in their records. -/
theorem builtins_named : ∀ r ∈ builtins old, r.Named := by
  intro r hr
  obtain ⟨c, hc, rfl⟩ := List.mem_map.mp hr
  obtain ⟨hnul, hshort⟩ := builtinNames_short c hc
  constructor
  · exact List.mem_append_right _ List.mem_cons_self
  · show (cString (ascii c.1 ++ 0 :: [])).length < _
    rwa [cString_append_zero hnul]

/-- The handler of `mem` goes by that name, and no other. -/
theorem run_eq_mem_iff {r : Interpreter.Registration Handler}
    (hr : r ∈ builtins old) : r.run = .mem ↔ cString r.name = ascii "mem" := by
  obtain ⟨c, hc, rfl⟩ := List.mem_map.mp hr
  show c.2 = .mem ↔ cString (ascii c.1 ++ 0 :: []) = ascii "mem"
  rw [cString_append_zero (builtinNames_short c hc).1]
  exact builtinNames_mem c hc

/-- There is a command that runs the handler of `mem`. -/
theorem exists_mem (old : Vector UInt8 MAX_COMMAND_NAME_LEN) :
    ∃ r ∈ builtins old, r.run = .mem :=
  ⟨_, List.mem_map_of_mem (show ("mem", Handler.mem) ∈ builtinNames by
    decide), rfl⟩

/-- The condition on the arguments, as one on the words of the line. -/
theorem free_short_iff (t : List UInt8) (ts : List (List UInt8)) :
    (t = ascii "mem" ∧ (t :: ts)[1]? = some (ascii "free")
      ∧ (t :: ts).length < 4) ↔ ∃ rest,
        t :: ts = ascii "mem" :: ascii "free" :: rest ∧ rest.length < 2 := by
  constructor
  · rintro ⟨rfl, hfree, hlen⟩
    cases ts with
    | nil => cases hfree
    | cons t' rest =>
        obtain rfl := Option.some.inj hfree
        refine ⟨rest, rfl, ?_⟩
        rw [List.length_cons, List.length_cons] at hlen
        omega
  · rintro ⟨rest, heq, hlen⟩
    obtain ⟨rfl, rfl⟩ := List.cons.inj heq
    refine ⟨rfl, rfl, ?_⟩
    rw [List.length_cons, List.length_cons]
    omega

/-- What a line comes to: nothing, the handler of its first word on all of
them, or the message that there is none. -/
inductive LineRun (old : Vector UInt8 MAX_COMMAND_NAME_LEN) (sh : Shell)
    (line : List UInt8) : Traced Action Nat → Prop
  | empty (h : texts line = []) : LineRun old sh line ⟨[], .ret 0⟩
  | run (args : Splits) (b : Bytes)
      (r : Interpreter.Registration Handler) (rest : List (List UInt8))
      (hargs : HasArgs b args (texts line)) (hr : r ∈ builtins old)
      (h : texts line = cString r.name :: rest) :
      LineRun old sh line (runHandler r.run args { sh with bytes := b })
  | missing (p : Nat) (hp : p ≠ 0)
      (h : ∀ r ∈ builtins old, ∀ rest, texts line ≠ cString r.name :: rest) :
      LineRun old sh line
        ⟨[.printk (Interpreter.notFound p)], .ret 1⟩

theorem runLine_lineRun {p fuel : Nat} {line : List UInt8}
    (hs : Interpreter.Registered (builtins old) sh.interp)
    (hb : sh.bytes.HasLine p line) (hnul : 0 ∉ line)
    (hlen : line.length < MAX_LINE_LEN) (hp : p ≠ 0)
    (hend : p + line.length < 2 ^ 32) (hfuel : line.length < fuel) :
    LineRun old sh line (sh.runLine fuel p) := by
  obtain ⟨v, hinto, hrun⟩ :=
    Interpreter.interpret_eq hs hb hnul hlen hp hend hfuel
  have hargs := hasArgs_of_splitInto hinto hnul hp hend
  have hfew : (builtins old).take MAX_COMMANDS_NUMBER = builtins old := rfl
  rw [hfew] at hrun
  unfold runLine
  rw [hrun, Traced.lift_ret_bind]
  cases hw : words line with
  | nil =>
      rw [Interpreter.runLine_nil hw]
      refine .empty ?_
      unfold texts
      rw [hw]
      rfl
  | cons r rs =>
      have htexts : texts line
          = wordText line r :: rs.map (wordText line) := by
        unfold texts
        rw [hw]
        rfl
      rw [Interpreter.runLine_cons hw]
      rcases Interpreter.runFor_cases (builtins old) (p + r.1)
        (wordText line r) v (sh.bytes.cutUp p line.length) with
        ⟨c, hc, hname, heq⟩ | ⟨hnone, heq⟩
      · rw [heq]
        exact .run v _ c _ hargs hc (by rw [htexts, hname])
      · rw [heq]
        refine .missing _ (by omega) fun c hc rest hrest => hnone c hc ?_
        rw [htexts] at hrest
        exact (List.cons.inj hrest).1.symm

/-- For every line: some handler's use of a null pointer is one by `mem
free` without its two arguments. -/
theorem LineRun.usesNull_iff {line : List UInt8} {x : Traced Action Nat}
    (h : LineRun old sh line x) :
    UsesNull x ↔ ∃ rest, texts line = ascii "mem" :: ascii "free" :: rest
      ∧ rest.length < 2 := by
  cases h with
  | empty htexts =>
      rw [htexts]
      exact iff_of_false (not_usesNull_pure 0) (by rintro ⟨rest, ⟨⟩, -⟩)
  | run args b r rest hargs hr htexts =>
      rw [htexts] at hargs ⊢
      refine (runHandler_usesNull_iff hargs (List.cons_ne_nil _ _)
        r.run).trans ?_
      rw [run_eq_mem_iff hr]
      exact free_short_iff _ _
  | missing p hp hnone =>
      refine iff_of_false ?_ ?_
      · rintro ⟨e, he, hnull⟩
        obtain rfl := List.mem_singleton.mp he
        have hin : Arg.str 0 ∈ (Interpreter.notFound p).params :=
          List.contains_iff_mem.mp hnull
        exact hp (Arg.str.inj (List.mem_singleton.mp hin)).symm
      · rintro ⟨rest, htexts, -⟩
        obtain ⟨r, hr, hmem⟩ := exists_mem old
        refine hnone r hr (ascii "free" :: rest) ?_
        rw [(run_eq_mem_iff hr).mp hmem, htexts]

/-- The interpreter that was given the built-in commands has them. -/
theorem registered_builtins {s : Interpreter Handler}
    (hs : Interpreter.addCommands (builtins old) Interpreter.new = .ret s) :
    Interpreter.Registered (builtins old) s := by
  obtain ⟨s', hs', h⟩ := Interpreter.addCommands_registered
    Interpreter.registered_nil (@builtins_named old)
  obtain rfl := Outcome.ret.inj (hs.symm.trans hs')
  exact h

/-- No command dereferences a missing argument, exactly if the line is not
`mem free` with less than two words behind it.

Each handler's own lemma says when it uses a null pointer, and all but the
one of `mem free` look at an argument before they read it. What is left is
to see which handler a line comes to (`runLine_lineRun`). -/
theorem runLine_keeps_iff {p fuel : Nat} {line : List UInt8}
    (hs : Interpreter.addCommands (builtins old) Interpreter.new
      = .ret sh.interp)
    (hb : sh.bytes.HasLine p line) (hnul : 0 ∉ line)
    (hlen : line.length ≤ MAX_LINE_LEN - 1) (hp : p ≠ 0)
    (hend : p + line.length < 2 ^ 32) (hfuel : line.length < fuel) :
    (∀ e ∈ (sh.runLine fuel p).log, e.usesNull = false)
      ↔ ∀ rest, texts line = ascii "mem" :: ascii "free" :: rest →
        2 ≤ rest.length := by
  have hlt : line.length < MAX_LINE_LEN := by
    unfold MAX_LINE_LEN at hlen ⊢
    omega
  have hiff := (runLine_lineRun (registered_builtins hs) hb hnul hlt hp
    hend hfuel).usesNull_iff
  constructor
  · intro hkeeps rest htexts
    by_contra hshort
    obtain ⟨e, he, hnull⟩ := hiff.mpr ⟨rest, htexts, Nat.not_le.mp hshort⟩
    rw [hkeeps e he] at hnull
    cases hnull
  · intro hlong e he
    by_contra hnull
    obtain ⟨rest, htexts, hshort⟩ := hiff.mp
      ⟨e, he, (Bool.not_eq_false _).mp hnull⟩
    exact absurd (hlong rest htexts) (Nat.not_le.mpr hshort)

/-- The interpreter of the examples, made over blank names. -/
def sampleInterp : Interpreter Handler :=
  match Interpreter.addCommands (builtins (Vector.replicate _ 0))
    Interpreter.new with
  | .ret s => s
  | _ => Interpreter.new

/-- The shell of the examples, with the line at 4. -/
def sampleShell (line : List UInt8) : Shell where
  interp := sampleInterp
  self := 0x1000
  self_ne := by decide
  bytes := fun x => (line ++ [0]).getD (x - 4) 0
  logLevel := 7
  inputs := []

/-- The line is in the memory of the sample shell. -/
theorem sampleShell_hasLine (line : List UInt8) :
    (sampleShell line).bytes.HasLine 4 line := by
  refine ⟨fun i hi => ?_, ?_⟩
  · show (line ++ [0]).getD (4 + i - 4) 0 = _
    rw [Nat.add_sub_cancel_left, List.getD_eq_getElem?_getD,
      List.getElem?_append_left hi, List.getElem?_eq_getElem hi]
    rfl
  · show (line ++ [0]).getD (4 + line.length - 4) 0 = 0
    rw [Nat.add_sub_cancel_left, List.getD_eq_getElem?_getD,
      List.getElem?_concat_length]
    rfl

/-- With both numbers on the line, `mem free` uses no null pointer. -/
theorem runLine_keeps_free :
    texts (ascii "mem free 1 2")
        = ascii "mem" :: ascii "free" :: [ascii "1", ascii "2"]
      ∧ ∀ e ∈ ((sampleShell (ascii "mem free 1 2")).runLine 13 4).log,
        e.usesNull = false := by
  have htexts : texts (ascii "mem free 1 2")
      = ascii "mem" :: ascii "free" :: [ascii "1", ascii "2"] := by decide
  refine ⟨htexts, (@runLine_keeps_iff _ (Vector.replicate _ 0) 4 13
    (ascii "mem free 1 2") rfl (sampleShell_hasLine _) (by decide)
    (by decide) (by decide) (by decide) (by decide)).mpr ?_⟩
  intro rest hrest
  obtain ⟨-, hrest⟩ := List.cons.inj (htexts.symm.trans hrest)
  obtain ⟨-, rfl⟩ := List.cons.inj hrest
  decide

/-- `mem free` alone calls `atoi` with a null pointer. -/
theorem mem_free_usesNull :
    Interpreter.addCommands (builtins (Vector.replicate _ 0))
        Interpreter.new = .ret (sampleShell (ascii "mem free")).interp
      ∧ (sampleShell (ascii "mem free")).bytes.HasLine 4 (ascii "mem free")
      ∧ ∃ e ∈ ((sampleShell (ascii "mem free")).runLine 9 4).log,
        e.usesNull = true :=
  ⟨rfl, sampleShell_hasLine _, .atoi 0 0, by decide +kernel, rfl⟩

end

end Shell

end Ntibux
