/-
The spinlock excludes, and somebody always gets it.

# One owner

Only a `bts` that finds the bit clear makes an owner (`HeldBy.take`), and
while there is one the bit is set: the instructions between, which see
the word as it was, change nothing (`HeldBy.stays`). So what the lock goes
through is an alternation of takes and gives (`run_hands`).

# Progress

A contender that waits is at most four of its own steps from a `bts`
whose `test` has seen the word clear (`need`). Each of its steps brings it
nearer as long as nobody has the lock, and a step of another contender
does not touch it (`run_progress`).

# The lock as one step

Of the seven instructions, the other model sees the call, the `bts` and
the `mov`; the rest keeps a task where that model has it
(`Spinning.own_step`). So its runs are all there is (`Spinning.run_shared`).
-/
import Ntibux.Sched.Spinlock

namespace Ntibux.Spinlock

variable {ι : Type} [DecidableEq ι] {s s' s₀ : Spinlock ι} {i j : ι}
  {h : Option ι} {tr tr' : List (Spinlock ι × ι)}

-- =============================================================== one owner

theorem goto_pc_self {pc : SpinPc} : (s.goto i pc).pc i = pc :=
  Function.update_self ..

/-- A step moves nobody else. -/
theorem next_pc_of_ne (hne : j ≠ i) : (s.next i).pc j = s.pc j := by
  unfold next
  cases s.pc i <;> exact Function.update_of_ne hne _ _

/-- Who takes no lock and gives none back owns what it owned. -/
theorem owner_goto {pc : SpinPc} (hpc : pc.Owns ↔ (s.pc i).Owns) (j : ι) :
    ((s.goto i pc).pc j).Owns ↔ (s.pc j).Owns := by
  by_cases hj : j = i
  · subst hj
    show (Function.update s.pc j pc j).Owns ↔ _
    rw [Function.update_self]
    exact hpc
  · show (Function.update s.pc i pc j).Owns ↔ _
    rw [Function.update_of_ne hj]

theorem HeldBy.goto {pc : SpinPc} (hs : s.HeldBy h)
    (hpc : pc.Owns ↔ (s.pc i).Owns) : (s.goto i pc).HeldBy h where
  word := hs.word
  owner := fun j => (owner_goto hpc j).trans (hs.owner j)

omit [DecidableEq ι] in
/-- The bit that `bts` finds. -/
theorem HeldBy.testBit (hs : s.HeldBy h) :
    s.locked.testBit 0 = h.isSome := by
  rw [hs.word]
  cases h <;> simp

omit [DecidableEq ι] in
/-- The flag that `test` sets. -/
theorem HeldBy.zf (hs : s.HeldBy h) :
    (s.locked &&& 1 == 0) = h.isNone := by
  rw [hs.word]
  cases h <;> simp

/-- A `bts` while nobody has the lock takes it. -/
theorem HeldBy.take (hs : s.HeldBy none) (hi : s.pc i = .bts) :
    (s.next i).HeldBy (some i) := by
  have hcf : s.locked.testBit 0 = false := hs.testBit
  have hlock : s.locked = 0 := hs.word
  unfold next
  rw [hi, hcf, hlock]
  refine ⟨rfl, fun j => ?_⟩
  show (Function.update s.pc i (.jc false) j).Owns ↔ some i = some j
  by_cases hj : j = i
  · subst hj
    rw [Function.update_self]
    exact ⟨fun _ => rfl, fun _ => rfl⟩
  · rw [Function.update_of_ne hj]
    have hno : ¬(s.pc j).Owns := by
      rw [hs.owner]
      simp
    exact ⟨fun h => absurd h hno,
      fun h => absurd (Option.some.inj h).symm hj⟩

/-- A `bts` while somebody has it changes nothing. -/
theorem HeldBy.miss (hs : s.HeldBy (some j)) (hi : s.pc i = .bts) :
    (s.next i).HeldBy (some j) := by
  have hcf : s.locked.testBit 0 = true := hs.testBit
  have hlock : s.locked = 1 := hs.word
  have hgoto : (s.goto i (.jc true)).HeldBy (some j) :=
    hs.goto (by rw [hi]; simp [SpinPc.Owns])
  unfold next
  rw [hi, hcf, hlock]
  exact ⟨rfl, hgoto.owner⟩

/-- The `mov` is the owner's, and gives the lock back. -/
theorem HeldBy.give (hs : s.HeldBy h) (hi : s.pc i = .mov) :
    h = some i ∧ (s.next i).HeldBy none := by
  have hh : h = some i := (hs.owner i).mp (by rw [hi]; trivial)
  subst hh
  refine ⟨rfl, ?_⟩
  unfold next
  rw [hi]
  refine ⟨rfl, fun j => ?_⟩
  show (Function.update s.pc i .out j).Owns ↔ none = some j
  by_cases hj : j = i
  · subst hj
    rw [Function.update_self]
    simp [SpinPc.Owns]
  · rw [Function.update_of_ne hj, hs.owner j]
    simp [Ne.symm hj]

/-- Any other instruction leaves the lock with whom it is. -/
theorem HeldBy.stays (hs : s.HeldBy h) (hbts : s.pc i ≠ .bts)
    (hmov : s.pc i ≠ .mov) : (s.next i).HeldBy h := by
  unfold next
  cases hi : s.pc i with
  | bts => exact absurd hi hbts
  | mov => exact absurd hi hmov
  | jnz zf =>
      apply hs.goto
      rw [hi]
      cases zf <;> simp [SpinPc.Owns]
  | jc cf =>
      apply hs.goto
      rw [hi]
      cases cf <;> simp [SpinPc.Owns]
  | out | test | held =>
      apply hs.goto
      rw [hi]
      simp [SpinPc.Owns]

/-- One step, and what it does to who has the lock. -/
theorem HeldBy.step (hs : s.HeldBy h) (i : ι) :
    (∃ h', (s.next i).HeldBy h' ∧ change (s, i) = some (.take i) ∧
      h = none ∧ h' = some i) ∨
    (∃ h', (s.next i).HeldBy h' ∧ change (s, i) = some (.give i) ∧
      h = some i ∧ h' = none) ∨
    ((s.next i).HeldBy h ∧ change (s, i) = none) := by
  by_cases hbts : s.pc i = .bts
  · have hchange : change (s, i)
        = if h.isSome then none else some (.take i) := by
      unfold change
      rw [hbts]
      show (if s.locked.testBit 0 then none else some (Change.take i)) = _
      rw [hs.testBit]
    cases h with
    | none => exact .inl ⟨some i, hs.take hbts, hchange, rfl, rfl⟩
    | some j => exact .inr (.inr ⟨hs.miss hbts, hchange⟩)
  · by_cases hmov : s.pc i = .mov
    · obtain ⟨hh, hnext⟩ := hs.give hmov
      refine .inr (.inl ⟨none, hnext, ?_, hh, rfl⟩)
      unfold change
      rw [hmov]
    · refine .inr (.inr ⟨hs.stays hbts hmov, ?_⟩)
      unfold change
      cases hi : s.pc i with
      | bts => exact absurd hi hbts
      | mov => exact absurd hi hmov
      | out | test | jnz | jc | held => rfl

omit [DecidableEq ι] in
theorem Free.heldBy (h0 : s.Free) : s.HeldBy none where
  word := h0.locked
  owner := fun i => by
    rw [h0.pc]
    simp [SpinPc.Owns]

/-- The lock goes from hand to hand, and is that of the last. -/
theorem run_heldBy (h0 : s₀.Free) (hr : Run s₀ tr s) :
    ∃ h, Hands (tr.filterMap change) h ∧ s.HeldBy h := by
  induction hr with
  | nil => exact ⟨none, .nil, h0.heldBy⟩
  | @snoc tr s s' i hr hs ih =>
      obtain ⟨h, hhands, hheld⟩ := ih
      have hs : s' = s.next i := hs
      subst hs
      rw [List.filterMap_append]
      obtain ⟨h', hnext, hc, rfl, rfl⟩ | ⟨h', hnext, hc, rfl, rfl⟩ |
        ⟨hnext, hc⟩ := hheld.step i
      · refine ⟨_, ?_, hnext⟩
        rw [List.filterMap_cons_some hc]
        exact hhands.take i
      · refine ⟨_, ?_, hnext⟩
        rw [List.filterMap_cons_some hc]
        exact hhands.give
      · refine ⟨_, ?_, hnext⟩
        rw [List.filterMap_cons_none hc, List.filterMap_nil, List.append_nil]
        exact hhands

/-- From a free lock, whatever the contenders do and in whatever order:
the lock is taken and given back in turns, by who took it; at the end it
is that one's who took it last, and of nobody else, and the word is 1 if
there is such a one and 0 if not.

Two contenders may both see the bit clear with `test`, but only one of them
sets it: `bts` reads and writes in one step, and who finds it set goes back.
-/
theorem run_hands (h0 : s₀.Free) (hr : Run s₀ tr s) :
    ∃ h, Hands (tr.filterMap change) h ∧ s.HeldBy h ∧
      ∀ i j, (s.pc i).Owns → (s.pc j).Owns → i = j := by
  obtain ⟨h, hhands, hheld⟩ := run_heldBy h0 hr
  refine ⟨h, hhands, hheld, fun i j hi hj => ?_⟩
  have hi := (hheld.owner i).mp hi
  have hj := (hheld.owner j).mp hj
  exact Option.some.inj (hi.symm.trans hj)

-- ========================================================= chosen orders

/-- The contenders `is` step one after another. -/
def steps : List ι → Spinlock ι → Spinlock ι
  | [], s => s
  | i :: is, s => steps is (s.next i)

/-- The record of these steps. -/
def record : List ι → Spinlock ι → List (Spinlock ι × ι)
  | [], _ => []
  | i :: is, s => (s, i) :: record is (s.next i)

theorem run_steps (is : List ι) (s : Spinlock ι) :
    Run s (record is s) (steps is s) := by
  induction is generalizing s with
  | nil => exact .nil
  | cons i is ih =>
      have hone : Run s ([] ++ [(s, i)]) (s.next i) := .snoc .nil rfl
      exact hone.append (ih (s.next i))

/-- The lock as the constructor leaves it. -/
def unlocked : Spinlock Nat := ⟨0, fun _ => .out⟩

theorem unlocked_free : unlocked.Free := ⟨rfl, fun _ => rfl⟩

/-- Two contenders see the word clear, and one is let in. -/
def race : List Nat := [0, 1, 0, 1, 0, 1, 1, 0, 1, 0]

/-- One of the two takes the lock; the other's `bts` comes too late, and it
is back at the loop. -/
theorem run_hands_race : ∃ h,
    Hands ((record race unlocked).filterMap change) h ∧
    (steps race unlocked).HeldBy h ∧
    ∀ i j, ((steps race unlocked).pc i).Owns →
      ((steps race unlocked).pc j).Owns → i = j :=
  run_hands unlocked_free (run_steps race unlocked)

-- ================================================================ progress

/-- The own steps that a contender that waits is at most away from a `bts`
that takes the lock, if nobody has it. -/
def need : SpinPc → Nat
  | .jc _ => 4
  | .jnz zf => if zf then 2 else 4
  | .test => 3
  | .bts => 1
  | _ => 0

theorem need_le (pc : SpinPc) : need pc ≤ 4 := by
  cases pc with
  | jnz zf => cases zf <;> simp [need]
  | out | test | bts | jc | held | mov => simp [need]

/-- An own step while nobody has the lock: the contender is nearer to it,
or has it. -/
theorem HeldBy.nearer (hs : s.HeldBy none) (hi : (s.pc i).Waits) :
    (s.next i).HeldBy (some i) ∨
    (s.next i).HeldBy none ∧ ((s.next i).pc i).Waits ∧
      need ((s.next i).pc i) + 1 ≤ need (s.pc i) := by
  by_cases hbts : s.pc i = .bts
  · exact .inl (hs.take hbts)
  have hmov : s.pc i ≠ .mov := by
    intro h
    rw [h] at hi
    exact hi
  refine .inr ⟨hs.stays hbts hmov, ?_⟩
  have hzf : (s.locked &&& 1 == 0) = true := hs.zf
  unfold next
  cases hpc : s.pc i with
  | bts => exact absurd hpc hbts
  | mov => exact absurd hpc hmov
  | out | held =>
      rw [hpc] at hi
      exact hi.elim
  | test =>
      rw [hzf]
      simp [goto_pc_self, SpinPc.Waits, need]
  | jnz zf => cases zf <;> simp [goto_pc_self, SpinPc.Waits, need]
  | jc cf =>
      rw [hpc] at hi
      have hi : cf = true := hi
      simp [goto_pc_self, SpinPc.Waits, need, hi]

/-- A step that is no `mov`: who has the lock keeps it. -/
theorem HeldBy.keeps (hs : s.HeldBy (some j)) (hi : s.pc i ≠ .mov) :
    (s.next i).HeldBy (some j) := by
  by_cases hbts : s.pc i = .bts
  · exact hs.miss hbts
  · exact hs.stays hbts hi

/-- A step while nobody has the lock makes its contender the owner, or
nobody. -/
theorem HeldBy.none_step (hs : s.HeldBy none) (i : ι) :
    (s.next i).HeldBy (some i) ∨ (s.next i).HeldBy none := by
  obtain ⟨h', hnext, -, -, rfl⟩ | ⟨h', hnext, -, hh, rfl⟩ | ⟨hnext, -⟩ :=
    hs.step i
  · exact .inl hnext
  · exact .inr hnext
  · exact .inr hnext

/-- Somebody has the lock, or nobody has it and the steps that the
contender has left and those it has made come to what it needed. -/
def Nearing (s : Spinlock ι) (i : ι) (n made : Nat) : Prop :=
  (∃ j, s.HeldBy (some j)) ∨
    s.HeldBy none ∧ (s.pc i).Waits ∧ need (s.pc i) + made ≤ n

theorem Nearing.step {n made : Nat} (hn : s.Nearing i n made)
    (hj : s.pc j ≠ .mov) :
    (s.next j).Nearing i n (made + if j = i then 1 else 0) := by
  obtain ⟨k, hk⟩ | ⟨hs, hw, hle⟩ := hn
  · exact .inl ⟨k, hk.keeps hj⟩
  · by_cases hji : j = i
    · subst hji
      rw [if_pos rfl]
      obtain hk | ⟨hs', hw', hle'⟩ := hs.nearer hw
      · exact .inl ⟨j, hk⟩
      · exact .inr ⟨hs', hw', by omega⟩
    · rw [if_neg hji]
      obtain hk | hs' := hs.none_step j
      · exact .inl ⟨j, hk⟩
      · refine .inr ⟨hs', ?_⟩
        rw [next_pc_of_ne (Ne.symm hji)]
        exact ⟨hw, hle⟩

/-- From any point of any run at which a contender waits: once it has made
four steps of its own, somebody has the lock, as long as nobody who has
it gives it back. The steps of the others may come in between as they
like.

The measure is the number of steps that a waiter is away from setting the
bit, four at most. Its own step lowers it, or finds the bit set by somebody
else; the steps of others do not raise it. -/
theorem run_progress (h0 : s₀.Free) (hr : Run s₀ tr s)
    (hi : (s.pc i).Waits) (hr' : Run s tr' s')
    (hkeep : ∀ p ∈ tr', p.1.pc p.2 ≠ .mov)
    (hfour : 4 ≤ tr'.countP fun p => p.2 = i) :
    ∃ j, s'.HeldBy (some j) := by
  obtain ⟨h, -, hheld⟩ := run_heldBy h0 hr
  have hstart : s.Nearing i 4 0 := by
    cases h with
    | some j => exact .inl ⟨j, hheld⟩
    | none => exact .inr ⟨hheld, hi, need_le _⟩
  have hrun : s'.Nearing i 4 (tr'.countP fun p => p.2 = i) := by
    clear hfour
    induction hr' with
    | nil => exact hstart
    | @snoc tr' s₁ s₂ j hr' hs ih =>
        have hs : s₂ = s₁.next j := hs
        subst hs
        have hj : s₁.pc j ≠ .mov := hkeep (s₁, j) (by simp)
        have hlast := (ih fun p hp => hkeep p (by simp [hp])).step hj
        rw [List.countP_append]
        simpa [List.countP_cons] using hlast
  obtain hk | ⟨-, hw, hle⟩ := hrun
  · exact hk
  · -- a contender that waits needs a step
    have hpos : 1 ≤ need (s'.pc i) := by
      generalize s'.pc i = pc at hw ⊢
      cases pc with
      | out | held | mov => exact hw.elim
      | jnz zf => cases zf <;> simp [need]
      | test | bts | jc => simp [need]
    omega

/-- Both have called `lock`. -/
def called : List Nat := [0, 1]

/-- Four steps of the second, with three of the first in between. -/
def contended : List Nat := [1, 0, 1, 0, 0, 1, 1]

/-- By then the first has taken the lock that the second waits for. -/
theorem run_progress_contended :
    ∃ j, (steps contended (steps called unlocked)).HeldBy (some j) :=
  run_progress unlocked_free (run_steps called unlocked) (i := 1)
    (by decide) (run_steps contended _) (by decide) (by decide)

end Ntibux.Spinlock

-- ====================================================== the lock as one step

namespace Ntibux.Sched.Spinning

variable {f f' f₀ : Spinning} {tr : List (Spinning × Event)}

/-- The point that the other model has the runner's own code at. -/
theorem shared_at {pc : HeapPc} (ho : f.Own)
    (hpc : (f.lock.pc f.sched.runner).heapPc = pc) : f.shared.At pc :=
  ⟨ho.1, ho.2.1, ho.2.2, hpc⟩

/-- One task goes on to another instruction, as the other model sees
it. -/
theorem heapPc_update (g : Nat → SpinPc) (r : Nat) (pc : SpinPc) :
    (fun t => (Function.update g r pc t).heapPc)
      = Function.update (fun t => (g t).heapPc) r pc.heapPc :=
  Function.comp_update SpinPc.heapPc g r pc

/-- The task on the CPU goes on to another instruction, and stays where
the other model has it. -/
theorem shared_goto {pc : SpinPc}
    (hpc : pc.heapPc = (f.lock.pc f.sched.runner).heapPc) :
    ({ f with lock := f.lock.goto f.sched.runner pc } : Spinning).shared
      = f.shared := by
  unfold shared Spinlock.goto
  dsimp only
  rw [heapPc_update, hpc, Function.update_eq_self]

/-- It goes on, and the word is another one. -/
theorem shared_set (pc : SpinPc) (locked : Nat) :
    shared ⟨f.sched, locked, (f.lock.goto f.sched.runner pc).pc⟩
      = ⟨f.sched, locked.testBit 0,
          Function.update f.shared.own f.sched.runner pc.heapPc⟩ := by
  unfold shared Spinlock.goto
  dsimp only
  rw [heapPc_update]

/-- An instruction of the lock is a step of the other model, or none. -/
theorem own_step (h : Step f .own f') :
    seen (f, .own) = none ∧ f'.shared = f.shared ∨
    ∃ e, seen (f, .own) = some e ∧ Shared.Step f.shared e f'.shared := by
  unfold Step apply at h
  dsimp only at h
  split at h
  case isFalse => cases h
  case isTrue hok =>
  obtain ⟨ho, hintf⟩ := hok
  have h := (Option.some.inj h).symm
  subst h
  unfold seen Shared.Step Shared.apply Spinlock.next
  dsimp only
  cases hpc : f.lock.pc f.sched.runner with
  | out =>
      refine .inr ⟨_, rfl, ?_⟩
      dsimp only
      rw [if_pos ⟨shared_at ho (by rw [hpc]; rfl), hintf hpc⟩]
      exact congrArg some (shared_set .test f.lock.locked).symm
  | bts =>
      refine .inr ⟨_, rfl, ?_⟩
      dsimp only
      rw [if_pos (shared_at ho (by rw [hpc]; rfl))]
      have hset : (f.lock.locked ||| 1).testBit 0 = true := by simp
      have hafter := shared_set (f := f) (.jc (f.lock.locked.testBit 0))
        (f.lock.locked ||| 1)
      rw [hset] at hafter
      refine Eq.trans ?_ (congrArg some hafter.symm)
      have hflag : f.shared.locked = f.lock.locked.testBit 0 := rfl
      rw [hflag]
      cases hbit : f.lock.locked.testBit 0 with
      | true =>
          -- the bit stays set, and the task in the loop
          have hown : f.shared.own f.sched.runner
              = (SpinPc.jc true).heapPc := by
            show (f.lock.pc f.sched.runner).heapPc = _
            rw [hpc]
            rfl
          rw [if_pos rfl, ← hown, Function.update_eq_self, ← hbit]
          rfl
      | false => exact if_neg Bool.false_ne_true
  | mov =>
      refine .inr ⟨_, rfl, ?_⟩
      dsimp only
      rw [if_pos (shared_at ho (by rw [hpc]; rfl))]
      exact congrArg some (shared_set .out 0).symm
  | jnz zf =>
      refine .inl ⟨rfl, shared_goto ?_⟩
      rw [hpc]
      cases zf <;> rfl
  | jc cf =>
      refine .inl ⟨rfl, shared_goto ?_⟩
      rw [hpc]
      cases cf <;> rfl
  | test | held => exact .inl ⟨rfl, shared_goto (by rw [hpc]; rfl)⟩

/-- A new task's own code, as the other model sees it. -/
theorem shared_begin (e : Sched.Event) (s : State) :
    shared ⟨s, f.lock.locked, f.begin e⟩
      = ⟨s, f.shared.locked, f.shared.begin e⟩ := by
  unfold shared
  cases e with
  | alloc t zeroed =>
      dsimp only [begin, Shared.begin]
      rw [heapPc_update]
      rfl
  | call | exec | irq | fault | killTo => rfl

/-- An event of the scheduler's machine is the same event there. -/
theorem sched_step {e : Sched.Event} (h : Step f (.sched e) f') :
    Shared.Step f.shared (.sched e) f'.shared := by
  unfold Step apply at h
  unfold Shared.Step Shared.apply
  cases e with
  | call c =>
      dsimp only at h ⊢
      split at h
      case isFalse => cases h
      case isTrue hat =>
      obtain ⟨s, hs, rfl⟩ := Option.map_eq_some_iff.mp h
      have hs : Sched.apply (.call c) f.shared.sched = some s := hs
      rw [if_pos hat, hs]
      rfl
  | alloc | exec | irq | fault | killTo =>
      dsimp only at h ⊢
      split at h
      case isTrue hspin =>
        cases h
        exact if_pos hspin
      case isFalse hspin =>
      obtain ⟨s, hs, rfl⟩ := Option.map_eq_some_iff.mp h
      have hs : Sched.apply _ f.shared.sched = some s := hs
      rw [if_neg hspin, hs, shared_begin]
      rfl

/-- What the scheduler's machine does with the lock's loop run instruction
by instruction, with the timer between any two of them, is what it does
with the lock taken in one step: the events of that run are those of this
one, with the instructions between left out.

A step inside the loop that does not set the bit changes nothing that the
other machine knows of. The `bts` that sets it is the whole acquisition. -/
theorem run_shared (hr : Run f₀ tr f) :
    ∃ tr', Shared.Run f₀.shared tr' f.shared ∧
      tr'.map Prod.snd = tr.filterMap seen := by
  induction hr with
  | nil => exact ⟨[], .nil, rfl⟩
  | @snoc tr f f' e hr hs ih =>
      obtain ⟨tr', hr', hev⟩ := ih
      have hstep : seen (f, e) = none ∧ f'.shared = f.shared ∨
          ∃ e', seen (f, e) = some e' ∧
            Shared.Step f.shared e' f'.shared := by
        cases e with
        | own => exact own_step hs
        | sched e => exact .inr ⟨_, rfl, sched_step hs⟩
      rw [List.filterMap_append]
      obtain ⟨hseen, hsame⟩ | ⟨e', hseen, hs'⟩ := hstep
      · refine ⟨tr', hsame ▸ hr', ?_⟩
        rw [List.filterMap_cons_none hseen, List.filterMap_nil,
          List.append_nil, hev]
      · refine ⟨tr' ++ [(f.shared, e')], hr'.snoc hs', ?_⟩
        rw [List.filterMap_cons_some hseen, List.filterMap_nil,
          List.map_append, hev]
        rfl

/-- The kernel task at 1, idle at 2, the heap's lock free. -/
def booted : Spinning := ⟨Sched.booted, Spinlock.unlocked⟩

/-- The kernel starts a task at 3 and is preempted with the lock taken;
the task turns the loop. -/
def looped : List Event :=
  [.sched (.call .newTask), .sched .exec, .sched (.alloc 3 false)] ++
    List.replicate 4 (.sched .exec) ++ List.replicate 5 .own ++
    (List.replicate 9 (.sched .irq ::
      List.replicate 4 (.sched .exec))).flatten ++
    .sched .irq :: List.replicate 10 (.sched .exec) ++
    List.replicate 6 .own

/-- That is a run of the other model too, and ends with one in the body and
the other at the lock. -/
theorem run_shared_looped : ∃ tr f tr', Run booted tr f ∧
    f.shared.own 1 = .body ∧ f.shared.own 3 = .lock ∧
    Shared.Run booted.shared tr' f.shared ∧
    tr'.map Prod.snd = tr.filterMap seen := by
  have hcheck : (Run.follow apply (fun _ _ => true) looped booted).map
        (fun f => (f.shared.own 1, f.shared.own 3))
      = some (.body, .lock) := by
    decide +kernel
  obtain ⟨tr, f, hr, -, hv⟩ :=
    Ntibux.Run.of_follow_map (fun _ _ _ hs => hs) hcheck
  injection hv with h1 h3
  obtain ⟨tr', hr', hev⟩ := run_shared hr
  exact ⟨tr, f, tr', hr, h1, h3, hr', hev⟩

end Ntibux.Sched.Spinning
