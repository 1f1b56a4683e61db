/-
The scheduler's lock over runs in which tasks yield, sleep and start
others.

In such a run no call under way is a kill (`Quiet.step`), and as long as
`yield` stays clear of its idle branch every state is `Sound`, which says
who holds the lock. The acquisitions and releases are counted along the
run (`locked_step`).
-/
import Ntibux.Sched.Proofs.Flow

namespace Ntibux.Sched

variable {s s₀ s' : State} {e : Event} {f : Frame} {rest : List Frame}
  {tr : List (State × Event)}

-- ========================================================== quiet runs

/-- A state of a run without kills. -/
structure Quiet (s : State) : Prop where
  sound : Sound s
  calls : Everywhere (fun _ fs => ∀ f ∈ fs, f.kills = false) s

theorem inherited_quiet :
    Inherited fun _ fs => ∀ f ∈ fs, f.kills = false := by
  apply Inherited.of_frame (P := fun _ f => f.kills = false)
  · intro _ f gs hfg hf g hg
    cases hfg with
    | returns => cases hg
    | isr kind flag pc pc' =>
        rw [List.mem_singleton.mp hg]
        cases kind <;> exact hf
    | slice kind flag pc pc' =>
        rcases List.mem_cons.mp hg with rfl | hg
        · rfl
        · rw [List.mem_singleton.mp hg]
          cases kind <;> exact hf
    | nap pc old next pc' =>
        rcases List.mem_cons.mp hg with rfl | hg
        · rfl
        · rw [List.mem_singleton.mp hg]
          rfl
    | dies => cases hf
    | kill => cases hf
    | killTask => cases hf
    | _ =>
        rw [List.mem_singleton.mp hg]
        rfl
  · intro _ _ _
    rfl

theorem Initial.quiet (hi : Initial s) : Quiet s :=
  ⟨hi.sound.1, hi.everywhere inherited_quiet⟩

namespace Quiet

variable (hq : Quiet s)
include hq

/-- No kill is under way. -/
theorem not_ends : ¬s.Ends := by
  intro hends
  have hno : ∀ f ∈ s.stack.head?, f.Stays → f.kills = false := by
    intro f hf hstays
    cases hst : s.stack with
    | nil =>
        rw [hst] at hf
        cases hf
    | cons g rest =>
        rw [hst] at hf
        cases hf
        apply hq.calls.stack (hq.sound.plain hst hstays).2
        rw [hst]
        exact List.mem_cons_self
  rcases hends with h | h
  · cases hno _ h nofun
  · cases hno _ h nofun

theorem handsOver (hquiet : e.quiet = true) : s.HandsOver e := by
  cases e with
  | exec => exact hq.not_ends
  | killTo t => cases hquiet
  | _ => trivial

theorem step (hquiet : e.quiet = true) (hidle : ¬s.IdleBranch e)
    (h : Step s e s') :
    Quiet s' ∧ s'.total + s.dropped e = s.total := by
  have hand := hq.handsOver hquiet
  have hrun : (∃ t, e = .killTo t) → s.runner ≠ s.idle := by
    intro ⟨t, he⟩
    rw [he] at hquiet
    cases hquiet
  obtain ⟨hs', htotal⟩ := hq.sound.step hidle hand hrun h
  refine ⟨⟨hs', ?_⟩, htotal⟩
  apply hq.calls.step hq.sound hs' hand inherited_quiet _ h
  intro he hold f hf
  rcases he with rfl | rfl | ⟨c, rfl⟩
  · rw [(irq_inv h).2] at hf
    rcases List.mem_cons.mp hf with rfl | hf
    · rfl
    · exact hold f hf
  · cases hquiet
  · obtain ⟨-, -, s₁, -, heq⟩ := call_inv h
    rw [heq] at hf
    rw [List.mem_singleton.mp hf]
    cases c <;> first | rfl | cases hquiet

end Quiet

-- ======================================================= counting locks

theorem Frame.of_locks (hf : f.locks = true) :
    f.holds = false ∧ f.masked = true := by
  cases f with
  | yield pc => cases pc <;> first | exact ⟨rfl, rfl⟩ | cases hf
  | newTask t pc => cases pc <;> first | exact ⟨rfl, rfl⟩ | cases hf
  | kill pc => cases pc <;> first | exact ⟨rfl, rfl⟩ | cases hf
  | killTask id pc => cases pc <;> first | exact ⟨rfl, rfl⟩ | cases hf
  | _ => cases hf

theorem Frame.of_releases (hf : f.releases = true) :
    f.holds = true ∧ f.locks = false := by
  cases f with
  | yield pc => cases pc <;> first | exact ⟨rfl, rfl⟩ | cases hf
  | switch old n pc => cases pc <;> first | exact ⟨rfl, rfl⟩ | cases hf
  | newTask t pc => cases pc <;> first | exact ⟨rfl, rfl⟩ | cases hf
  | killTask id pc => cases pc <;> first | exact ⟨rfl, rfl⟩ | cases hf
  | _ => cases hf

theorem Frame.masked_of_holds (hf : f.holds = true) : f.masked = true := by
  cases hm : f.masked with
  | true => rfl
  | false =>
      rw [Frame.not_holds_of_open hm] at hf
      cases hf

/-- What a step of the innermost call does to the lock. -/
theorem exec_locked (hst : s.stack = f :: rest) (hends : ¬s.Ends)
    (h : s.execFrame rest f = some s') :
    s'.locked = (f.locks || !f.releases && s.locked) := by
  by_cases hload : ∃ old n, f = .switch old n .load
  · obtain ⟨old, n, rfl⟩ := hload
    cases h
    show ((s.saveContext old rest).loadContext n).locked = s.locked
    have hsave : (s.saveContext old rest).locked = s.locked := by
      cases old <;> rfl
    rw [← hsave]
    unfold State.loadContext
    split <;> rfl
  · rcases exec_goes hst hends (fun old n hf => hload ⟨old, n, hf⟩) h with
      ⟨hf, rfl, hl⟩ | ⟨gs, hg⟩
    · rw [hf]
      exact hl
    · exact hg.locked

/-- Along the run, every acquisition is a release or a lock still
held. -/
theorem locked_step (hs : Sound s) (hand : s.HandsOver e)
    (hkill : ∀ t, e ≠ .killTo t)
    (h : Step s e s') :
    (acquires (s, e)).toNat + s.locked.toNat
      = (releases (s, e)).toNat + s'.locked.toNat := by
  have hstay : e ≠ .exec → s'.locked = s.locked →
      (acquires (s, e)).toNat + s.locked.toNat
        = (releases (s, e)).toNat + s'.locked.toNat := by
    intro he hl
    rw [hl]
    simp [acquires, releases, he]
  cases e with
  | exec =>
      obtain ⟨f, rest, hst, h⟩ := exec_inv h
      have hl := exec_locked hst hand h
      have hheld : s.locked = f.holds := locked_eq hs hst
      have hacq : acquires (s, .exec) = (f.locks && !s.locked) := by
        simp [acquires, hst]
      have hrels : releases (s, .exec) = f.releases := by
        simp [releases, hst]
      rw [hacq, hrels, hl, hheld]
      -- a frame that locks does not release, and the reverse
      cases hf : f.locks with
      | true =>
          rw [(Frame.of_locks hf).1]
          cases hr : f.releases with
          | true =>
              rw [(Frame.of_releases hr).2] at hf
              cases hf
          | false => rfl
      | false =>
          cases hr : f.releases with
          | true =>
              rw [(Frame.of_releases hr).1]
              rfl
          | false => cases f.holds <;> rfl
  | irq => exact hstay nofun (by rw [(irq_inv h).2]; rfl)
  | call c =>
      apply hstay nofun
      obtain ⟨-, -, s₁, hl, heq⟩ := call_inv h
      rw [heq]
      exact hl.locked
  | fault => exact hstay nofun (by rw [(fault_inv h).2.2]; rfl)
  | alloc t flag =>
      obtain ⟨u, rest, -, -, heq⟩ := alloc_inv h
      exact hstay nofun (by rw [heq]; rfl)
  | killTo t => exact absurd rfl (hkill t)

-- ============================================================ every run

theorem run_quiet (hi : Initial s₀) (hr : Run s₀ tr s)
    (hquiet : ∀ p ∈ tr, p.2.quiet = true)
    (hidle : ∀ p ∈ tr, ¬p.1.IdleBranch p.2) : Quiet s := by
  apply Run.invariant (fun s e => e.quiet = true ∧ ¬s.IdleBranch e) hr _
    hi.quiet
  · intro s e s' hq hok h
    exact (hq.step hok.1 hok.2 h).1
  · intro p hp
    exact ⟨hquiet p hp, hidle p hp⟩

/-- The lock is taken once for each release, and once more where it is
held. -/
theorem run_matched (hi : Initial s₀) (hr : Run s₀ tr s)
    (hquiet : ∀ p ∈ tr, p.2.quiet = true)
    (hidle : ∀ p ∈ tr, ¬p.1.IdleBranch p.2) :
    tr.countP acquires = tr.countP releases + s.locked.toNat := by
  induction hr with
  | nil =>
      rw [hi.locked]
      rfl
  | @snoc tr s s' e hr h ih =>
      have hquiet' : ∀ p ∈ tr, p.2.quiet = true :=
        fun p hp => hquiet p (by simp [hp])
      have hidle' : ∀ p ∈ tr, ¬p.1.IdleBranch p.2 :=
        fun p hp => hidle p (by simp [hp])
      have he : e.quiet = true := hquiet (s, e) (by simp)
      have hq := run_quiet hi hr hquiet' hidle'
      have hkill : ∀ t, e ≠ .killTo t := by
        intro t het
        rw [het] at he
        cases he
      have hone := locked_step hq.sound (hq.handsOver he) hkill h
      have hcount : ∀ q : State × Event → Bool,
          (tr ++ [(s, e)]).countP q = tr.countP q + (q (s, e)).toNat := by
        intro q
        rw [List.countP_append, List.countP_singleton]
        cases q (s, e) <;> rfl
      have hacq := hcount acquires
      have hrel := hcount releases
      have ih := ih hquiet' hidle'
      omega

/-- In a run in which tasks yield, sleep and start others, and whose
yields stay clear of the idle branch, the lock is never taken twice,
never held with interrupts on and never released by who does not hold
it.

`Sound` has the lock held exactly by the innermost call, at the points
between its `lock()` and its `release()`; these are points at which
interrupts are off. That each `lock()` has its `release()` is counted along
the run (`run_matched`). -/
theorem run_disciplined (hi : Initial s₀) (hr : Run s₀ tr s)
    (hquiet : ∀ p ∈ tr, p.2.quiet = true)
    (hidle : ∀ p ∈ tr, ¬p.1.IdleBranch p.2) : Disciplined tr s := by
  have hs := (run_quiet hi hr hquiet hidle).sound
  constructor
  · intro f hf hlocks
    rw [hs.locked, Option.mem_def.mp hf]
    exact (Frame.of_locks hlocks).1
  · intro hl
    rw [hs.locked] at hl
    cases hf : s.stack.head? with
    | none =>
        rw [hf] at hl
        cases hl
    | some f =>
        rw [hf] at hl
        exact hs.intf_off f hf (Frame.masked_of_holds hl)
  · intro f hf hrel
    rw [hs.locked, Option.mem_def.mp hf]
    exact (Frame.of_releases hrel).1
  · exact run_matched hi hr hquiet hidle

/-- The lock over two preemptions: both switches go through it, with the
timer's interrupt under way. -/
theorem run_disciplined_booted :
    ∃ tr s, Run booted tr s ∧ s.runner = 3 ∧ s.ticks = 20 ∧
      s.stack = [] ∧ Disciplined tr s := by
  obtain ⟨tr, s, hr, hok, hrun, hticks, hnil⟩ := booted_preempted
  refine ⟨tr, s, hr, hrun, hticks, hnil, ?_⟩
  apply run_disciplined booted_initial hr
  · exact fun p hp => (hok p hp).1
  · exact fun p hp => (hok p hp).2.1

/-- The kernel, back from its sleep, releases a lock that nobody holds. -/
theorem booted_undisciplined :
    ∃ tr s, Initial booted ∧ Run booted tr s ∧
      (∀ p ∈ tr, p.2.quiet = true) ∧ ¬Disciplined tr s := by
  obtain ⟨tr, s, hr, hok, hv⟩ := booted_run
    (fun _ e => e.quiet) nap (fun s => (s.stack, s.locked))
    ([.yield .release], false) (by decide +kernel)
  injection hv with hst hfree
  refine ⟨tr, s, booted_initial, hr, hok, ?_⟩
  intro hd
  have hheld := hd.held (.yield .release) (by rw [hst]; rfl) rfl
  rw [hfree] at hheld
  cases hheld

end Ntibux.Sched
