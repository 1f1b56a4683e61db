/-
Names in their fields: what `strncpy` leaves in memory, and when a copy of
a name keeps to the field that it is for.

A source that is shorter than the field is copied with its NUL. Any other
fills the field, and its NUL is the first byte of the field behind it.
`add_command` then writes its pointer there, so what is left of the name
runs on into the pointer. For the names that fit, the table in memory is
the table of Shell/Basic (`HasTable.addCommand`).
-/
import Ntibux.Kernel.Proofs.Links
import Ntibux.Shell.Proofs.Strings
import Ntibux.Shell.Table

namespace Ntibux

namespace Mem

variable {m copied done : Mem} {src : List UInt8} {a n this : Nat}

-- ============================================================== statements

/-- Not among the `n` bytes from `a` on. -/
def Outside (a n x : Nat) : Prop := x < a ∨ a + n ≤ x

/-- A copy of `src` to the field of `n` bytes at `a` writes only there: not
the fields behind it; and a call that has made it is done with a prefix of
`src` in the field, and with its NUL. -/
structure StaysIn (src : List UInt8) (a n : Nat) (m copied done : Mem) :
    Prop where
  writes : Wrote (Outside a n) m copied
  follows : ∀ p, a + n ≤ p → copied.load p = m.load p
  name : ∃ s, s <+: src ∧ s.length < n ∧ done.bytes.HasLine a s

-- ================================================================= strncpy

/-- The copy is a line: at most `n` characters, and a NUL. -/
theorem strncpy_hasLine (hs : 0 ∉ src) (m : Mem) (a n : Nat) :
    (m.strncpy a src n).bytes.HasLine a (src.take n) := by
  induction src generalizing m a n with
  | nil =>
      rw [List.take_nil]
      unfold strncpy
      exact Bytes.hasLine_nil (storeByte_self m a 0)
  | cons c src ih =>
      rw [List.mem_cons, not_or] at hs
      cases n with
      | zero =>
          rw [List.take_zero]
          exact Bytes.hasLine_nil (storeByte_self m a 0)
      | succ n =>
          have hfirst : Wrote (· = a) (m.storeByte a c)
              ((m.storeByte a c).strncpy (a + 1) src n) := by
            refine .strncpy fun x hx => .inl ?_
            omega
          unfold strncpy
          rw [if_neg (Ne.symm hs.1), List.take_succ_cons]
          refine .cons ?_ (ih hs.2 (m.storeByte a c) (a + 1) n)
          rw [hfirst.spares a rfl, storeByte_self]

/-- A short source keeps to the field. -/
theorem wrote_strncpy_of_short (h : src.length < n) :
    Wrote (Outside a n) m (m.strncpy a src n) := by
  refine .strncpy fun x hx => ?_
  unfold Outside at hx
  omega

/-- Any other fills it. -/
theorem strncpy_last (hs : 0 ∉ src) (h : n ≤ src.length) :
    (m.strncpy a src n).bytes (a + n) = 0 := by
  have hnul := (strncpy_hasLine hs m a n).nul
  rwa [List.length_take_of_le h] at hnul

theorem strncpy_char (hs : 0 ∉ src) {i : Nat} (hi : i < n)
    (h : n ≤ src.length) : (m.strncpy a src n).bytes (a + i) ≠ 0 := by
  have hlen : i < (src.take n).length := by
    rw [List.length_take_of_le h]
    exact hi
  rw [(strncpy_hasLine hs m a n).char i hlen, List.getElem_take]
  intro hzero
  exact hs (hzero ▸ List.getElem_mem _)

theorem wrote_strncpy_iff (hs : 0 ∉ src) :
    (∀ (m : Mem) (a : Nat), Wrote (Outside a n) m (m.strncpy a src n))
      ↔ src.length < n := by
  constructor
  · intro h
    by_contra hlong
    have hw := (h (Mem.new fun _ => 1) 0).spares (0 + n) (.inr le_rfl)
    rw [strncpy_last hs (by omega)] at hw
    exact absurd hw (show (0 : UInt8) ≠ 1 by decide)
  · intro h m a
    exact wrote_strncpy_of_short h

/-- The name stays in its field if it is shorter than that, whatever the
call does after the copy. -/
theorem staysIn_strncpy_iff (hs : 0 ∉ src)
    (hdone : ∀ x, a ≤ x → x < a + n →
      done.bytes x = (m.strncpy a src n).bytes x) :
    StaysIn src a n m (m.strncpy a src n) done ↔ src.length < n := by
  constructor
  · intro h
    obtain ⟨s, -, hlen, hline⟩ := h.name
    by_contra hlong
    refine strncpy_char (m := m) (a := a) hs hlen (by omega) ?_
    rw [← hdone _ (by omega) (by omega)]
    exact hline.nul
  · intro h
    have hw : Wrote (Outside a n) m (m.strncpy a src n) :=
      wrote_strncpy_of_short h
    refine ⟨hw, fun p hp => ?_, src, List.prefix_rfl, h, ?_⟩
    · exact hw.spares.load fun x hx _ => .inr (Nat.le_trans hp hx)
    · have hline := strncpy_hasLine hs m a n
      rw [List.take_of_length_le (by omega)] at hline
      exact hline.congr fun x hx hx' => hdone x hx (by omega)

-- ============================================================= add_command

/-- The entry that is filled is in the table, which `commands_nbr` is
behind. -/
theorem nextCommand_fits (h : m.load (commandsNbr this) < MAX_COMMANDS_NUMBER) :
    m.nextCommand this + MAX_COMMAND_NAME_LEN + 8 ≤ commandsNbr this := by
  unfold nextCommand commandsNbr commandAt Shell.COMMAND_SIZE
    MAX_COMMAND_NAME_LEN at *
  omega

/-- The entry behind `i` starts where that one ends. -/
theorem commandAt_add_size_le (this : Nat) {i j : Nat} (h : i < j) :
    commandAt this i + Shell.COMMAND_SIZE ≤ commandAt this j := by
  unfold commandAt Shell.COMMAND_SIZE MAX_COMMAND_NAME_LEN
  omega

/-- The copy of the name, as long as it may be, leaves `commands_nbr`
alone, and so does the store of the pointer. -/
theorem addCommand_eq (h : m.load (commandsNbr this) < MAX_COMMANDS_NUMBER)
    (name : List UInt8) (run : Nat) :
    m.addCommand this name run
      = (1, ((m.strncpy (m.nextCommand this) name
          MAX_COMMAND_NAME_LEN).store64
          (m.nextCommand this + MAX_COMMAND_NAME_LEN) run).store
          (commandsNbr this) (u32 (m.load (commandsNbr this) + 1))) := by
  have hfits := nextCommand_fits h
  have hcopy : Wrote (fun x => commandsNbr this ≤ x) m
      (m.strncpy (m.nextCommand this) name MAX_COMMAND_NAME_LEN) := by
    refine .strncpy fun x hx => .inr ?_
    omega
  have hnbr : ∀ {m' : Mem}, Wrote (fun x => commandsNbr this ≤ x) m m' →
      m'.load (commandsNbr this) = m.load (commandsNbr this) :=
    fun hw => hw.spares.load fun x hx _ => hx
  have hnext : (m.strncpy (m.nextCommand this) name
      MAX_COMMAND_NAME_LEN).nextCommand this = m.nextCommand this := by
    unfold nextCommand
    exact congrArg _ (hnbr hcopy)
  have hpointer := hcopy.trans (.store64
    (a := m.nextCommand this + MAX_COMMAND_NAME_LEN)
    (fun x hx => .inr (by omega)) run)
  unfold addCommand
  rw [if_neg (not_not.mpr h)]
  simp only [hnext, hnbr hpointer]

/-- Nothing that follows the copy writes over the name. -/
theorem addCommand_name (h : m.load (commandsNbr this) < MAX_COMMANDS_NUMBER)
    (name : List UInt8) (run : Nat) :
    Wrote (fun x => x < m.nextCommand this + MAX_COMMAND_NAME_LEN)
      (m.strncpy (m.nextCommand this) name MAX_COMMAND_NAME_LEN)
      (m.addCommand this name run).2 := by
  have hfits := nextCommand_fits h
  rw [addCommand_eq h]
  refine (Wrote.store64 (fun x hx => .inl hx) run).trans
    (.store (fun x hx => .inl ?_) _)
  omega

-- ============================================================== the fields

/-- Where the copies of names stay: `strncpy` writes past its `n` bytes
unless the source is shorter than that, into the links of a task for
`set_name` and into the pointer of a command for `add_command`, which then
leaves the name without a NUL; and a full table is not written to.

The terminating zero goes to `dest[n]` where the source fills the field, one
byte past its end. All three are one lemma about what `strncpy` writes, at
three fields. -/
theorem strncpy_stays_iff (hs : 0 ∉ src) :
    (∀ n, (∀ (m : Mem) (a : Nat),
        Wrote (Outside a n) m (m.strncpy a src n)) ↔ src.length < n)
      ∧ (∀ (m : Mem) (t : Nat),
        StaysIn src (field t .name) TASK_NAME_LEN m (m.setName t src)
          (m.setName t src) ↔ src.length < TASK_NAME_LEN)
      ∧ ∀ (m : Mem) (this run : Nat),
        if m.load (commandsNbr this) < MAX_COMMANDS_NUMBER then
          StaysIn src (m.nextCommand this) MAX_COMMAND_NAME_LEN m
            (m.strncpy (m.nextCommand this) src MAX_COMMAND_NAME_LEN)
            (m.addCommand this src run).2
              ↔ src.length < MAX_COMMAND_NAME_LEN
        else m.addCommand this src run = (0, m) := by
  refine ⟨fun n => wrote_strncpy_iff hs, fun m t => ?_,
    fun m this run => ?_⟩
  · exact staysIn_strncpy_iff hs fun _ _ _ => rfl
  · split_ifs with h
    · exact staysIn_strncpy_iff hs fun x _ hx =>
        (addCommand_name h src run).spares x hx
    · unfold addCommand
      rw [if_pos h]

/-- A name of 31 characters. -/
theorem strncpy_stays_short :
    StaysIn (List.replicate 31 0x61) (field 0 .name) TASK_NAME_LEN
      (Mem.new fun _ => 1)
      ((Mem.new fun _ => 1).setName 0 (List.replicate 31 0x61))
      ((Mem.new fun _ => 1).setName 0 (List.replicate 31 0x61)) :=
  ((strncpy_stays_iff (by decide)).2.1 (Mem.new fun _ => 1) 0).mpr
    (by decide)

/-- One of 32 characters: the task's link is not what it was. -/
theorem setName_overruns :
    ¬∀ (src : List UInt8), 0 ∉ src → ∀ (m : Mem) (t : Nat),
      StaysIn src (field t .name) TASK_NAME_LEN m (m.setName t src)
        (m.setName t src) := by
  intro h
  have hlink := (h (List.replicate 32 0x61) (by decide)
    (Mem.new fun _ => 1) 0).follows 88 (by decide)
  exact absurd hlink (by decide)

-- =============================================================== the table

theorem HasArray.storeByte {k i : Nat} {c : UInt8} {v v' : Vector UInt8 k}
    (h : m.HasArray a v) (hv : Outcome.store v i c = .ret v') :
    (m.storeByte (a + i) c).HasArray a v' := by
  unfold Outcome.store at hv
  split at hv
  · cases hv
    intro j hj
    by_cases hij : i = j
    · subst hij
      rw [storeByte_self, Vector.getElem_set_self]
    · have hne : a + j ≠ a + i := by omega
      rw [Vector.getElem_set_ne _ _ hij, ← h j hj]
      exact Function.update_of_ne hne c m.bytes
  · cases hv

/-- The copy in memory is the copy in the array, as far as that goes. -/
theorem HasArray.strncpy {k i : Nat} {v v' : Vector UInt8 k}
    (h : m.HasArray a v) (hv : strncpyFrom i src n v = .ret v') :
    (m.strncpy (a + i) src n).HasArray a v' := by
  induction src generalizing i m n v with
  | nil =>
      cases n with
      | zero => exact h.storeByte hv
      | succ n => cases hv
  | cons c src ih =>
      cases n with
      | zero => exact h.storeByte hv
      | succ n =>
          unfold strncpyFrom at hv
          unfold Mem.strncpy
          by_cases hc : c = 0
          · rw [if_neg (not_not.mpr hc)] at hv
            rw [if_pos hc]
            exact h.storeByte hv
          · rw [if_pos hc] at hv
            rw [if_neg hc]
            obtain ⟨u, hu, hv⟩ := Outcome.bind_eq_ret.mp hv
            exact ih (h.storeByte hu) hv

section

variable (h : m.load (commandsNbr this) < MAX_COMMANDS_NUMBER)
  (name : List UInt8)

include h

/-- The entries before the one that is filled are as they were. -/
theorem addCommand_before (run : Nat) :
    Wrote (fun x => x < m.nextCommand this) m
      (m.addCommand this name run).2 := by
  refine .trans (.strncpy fun x hx => .inl hx)
    ((addCommand_name h name run).mono fun x hx => ?_)
  exact Nat.lt_add_right MAX_COMMAND_NAME_LEN hx

theorem addCommand_run {run : Nat} (hrun : run < 2 ^ 64) :
    (m.addCommand this name run).2.load64
      (m.nextCommand this + MAX_COMMAND_NAME_LEN) = run := by
  have hfits := nextCommand_fits h
  rw [addCommand_eq h, Wrote.load64 (.store (P := (· < commandsNbr this))
    (fun x hx => .inl hx) _) fun x _ hx => by omega]
  exact load64_store64_self hrun

theorem addCommand_nbr (run : Nat) :
    (m.addCommand this name run).2.load (commandsNbr this)
      = m.load (commandsNbr this) + 1 := by
  have hu32 : u32 (m.load (commandsNbr this) + 1)
      = m.load (commandsNbr this) + 1 := by
    unfold MAX_COMMANDS_NUMBER at h
    unfold u32
    omega
  rw [addCommand_eq h, hu32]
  refine Bytes.read32_write32_self ?_
  unfold MAX_COMMANDS_NUMBER at h
  omega

end

theorem HasCommand.frame {c : Command Nat} (h : m.HasCommand a c)
    (hw : Wrote (· < n) m copied) (hn : a + Shell.COMMAND_SIZE ≤ n) :
    copied.HasCommand a c := by
  unfold Shell.COMMAND_SIZE at hn
  constructor
  · intro i hi
    rw [hw.spares _ (by omega)]
    exact h.name i hi
  · rw [hw.load64 fun x _ hx => by omega]
    exact h.run

/-- `add_command` in memory is `add_command` of the table, where the name
is short enough for that. -/
theorem HasTable.addCommand {s s' : Interpreter Nat} {run r : Nat}
    {old : Vector UInt8 MAX_COMMAND_NAME_LEN} (h : m.HasTable this s)
    (hold : m.HasArray (m.nextCommand this) old) (hrun : run < 2 ^ 64)
    (hadd : s.addCommand old src run = .ret (r, s')) :
    (m.addCommand this src run).1 = r
      ∧ (m.addCommand this src run).2.HasTable this s' := by
  have hnext : m.nextCommand this = commandAt this s.commands.length := by
    unfold nextCommand
    rw [h.nbr]
  unfold Interpreter.addCommand at hadd
  rw [← h.nbr] at hadd
  by_cases hroom : m.load (commandsNbr this) < MAX_COMMANDS_NUMBER
  · rw [if_neg (not_not.mpr hroom)] at hadd
    obtain ⟨v, hv, hadd⟩ := Outcome.bind_eq_ret.mp hadd
    cases hadd
    refine ⟨by rw [addCommand_eq hroom], ?_, fun i hi => ?_⟩
    · rw [addCommand_nbr hroom, h.nbr, List.length_append,
        List.length_singleton]
    · by_cases hlt : i < s.commands.length
      · simp only [List.getElem_append_left hlt]
        refine (h.command i hlt).frame (addCommand_before hroom src run) ?_
        rw [hnext]
        exact commandAt_add_size_le this hlt
      · obtain rfl : i = s.commands.length := by
          rw [List.length_append, List.length_singleton] at hi
          omega
        have hcopied := hold.strncpy hv
        rw [Nat.add_zero] at hcopied
        simp only [List.getElem_concat_length]
        rw [← hnext]
        refine ⟨fun j hj => ?_, addCommand_run hroom src hrun⟩
        rw [(addCommand_name hroom src run).spares _
          (Nat.add_lt_add_left hj _), hcopied j hj]
  · rw [if_pos hroom] at hadd
    cases hadd
    unfold Mem.addCommand
    rw [if_pos hroom]
    exact ⟨rfl, h⟩

end Mem

end Ntibux
