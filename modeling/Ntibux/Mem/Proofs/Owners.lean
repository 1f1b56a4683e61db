/-
Frames over whole runs of the mapping calls.

`Orderly` is the invariant: tables are not shared, and the ledger of
pages and frames is sound. Every call keeps it and loses a frame exactly
where it writes over an entry (`Orderly.call`), a range call does so turn
by turn (`Orderly.comes`), and so does a run (`run_orderly`).

The one way to lose a frame is real: `map` on a page that has an entry
puts another frame there and leaves the old one marked.
-/
import Ntibux.Mem.Proofs.Tables
import Ntibux.Mem.Proofs.Turns

namespace Ntibux

namespace Mem

variable {kalloc : Kalloc} {m m' m₀ m₁ : Mem} {c : PageCall}
  {r : RangeCall} {e : PageEvent} {tr : List (Mem × PageEvent)}
  {n pt : Nat}

-- ========================================================== the invariant

/-- The directory's tables are its own, and no frame has two pages. -/
structure Orderly (m : Mem) : Prop where
  apart : m.TablesApart
  frames_le : m.frames.nframes ≤ 2 ^ 20
  sound : m.ledger.Sound

/-- A machine without pages is in order. -/
theorem Blank.orderly (hb : Blank m) : Orderly m := by
  have hnone : ∀ q n, m.ledger.hold q ≠ some n := by
    intro q n hq
    exact hb.entry q (hold_iff.mp hq).1
  refine ⟨hb.apart, hb.frames_le, ?_, ?_⟩
  · intro q n hq
    exact absurd hq (hnone q n)
  · intro q q' n hq
    exact absurd hq (hnone q n)

/-- And nothing is lost. -/
theorem Blank.full (hb : Blank m) : m.ledger.Full := by
  intro n hn
  exact absurd hn (hb.unmarked n)

-- ============================================================ single calls

/-- A call keeps the order, and loses a frame if and only if it overwrites
an entry. -/
theorem Orderly.call (ho : Orderly m) (hf : m.FlagsFit c)
    (hs : m.Supplied kalloc c) (h : c.Does kalloc m m') :
    Orderly m' ∧ (m'.ledger.Full ↔ m.ledger.Full ∧ ¬m.Overwrites c) := by
  have ha := call_account ho.apart ho.frames_le hf hs h
  have hle : m'.frames.nframes ≤ 2 ^ 20 := by
    rw [ha.nframes]
    exact ho.frames_le
  rcases ha.ledger with ⟨heq, hno⟩ | ⟨e, hstep, hover⟩
  · refine ⟨⟨ha.apart, hle, ?_⟩, ?_⟩
    · rw [heq]
      exact ho.sound
    · rw [heq]
      exact (and_iff_left hno).symm
  · refine ⟨⟨ha.apart, hle, ho.sound.step hstep⟩, ?_⟩
    rw [ho.sound.full_iff hstep, hover]

-- ============================================================= range calls

/-- The turns up to the next offset are those before it and the one at
it. -/
theorem each_turn_succ {P : Mem → PageCall → Prop}
    (hu : ∀ m₂, r.Comes kalloc m n m₂ → (P m₂ (r.turn n) ↔ P m₁ (r.turn n)))
    (hc : r.Comes kalloc m n m₁) :
    (∀ k m₂, r.Comes kalloc m k m₂ → k < n + PAGESIZE → P m₂ (r.turn k))
      ↔ (∀ k m₂, r.Comes kalloc m k m₂ → k < n → P m₂ (r.turn k))
        ∧ P m₁ (r.turn n) := by
  unfold PAGESIZE
  constructor
  · intro h
    refine ⟨fun k m₂ hk hlt => h k m₂ hk (by omega), ?_⟩
    exact h n m₁ hc (by omega)
  · intro h k m₂ hk hlt
    rcases Nat.lt_or_ge k n with hkn | hkn
    · exact h.1 k m₂ hk hkn
    · have hdk := hk.dvd
      have hdn := hc.dvd
      obtain rfl : k = n := by omega
      exact (hu m₂ hk).mpr h.2

/-- Along the turns of a range. -/
theorem Orderly.comes (ho : Orderly m)
    (hf : (PageEvent.range r).Each kalloc FlagsFit m)
    (hs : (PageEvent.range r).Each kalloc (Supplied kalloc) m)
    (hc : r.Comes kalloc m n m₁) :
    Orderly m₁ ∧ (m₁.ledger.Full ↔ m.ledger.Full
      ∧ ∀ k m₂, r.Comes kalloc m k m₂ → k < n →
        ¬m₂.Overwrites (r.turn k)) := by
  induction hc with
  | start =>
      refine ⟨ho, (and_iff_left ?_).symm⟩
      intro k m₂ _ hk
      exact absurd hk (Nat.not_lt_zero k)
  | @next n m₁ m₂ hn hc hd ih =>
      obtain ⟨ho₁, hfull₁⟩ := ih
      obtain ⟨ho₂, hfull₂⟩ :=
        ho₁.call (hf n m₁ hc hn) (hs n m₁ hc hn) hd
      refine ⟨ho₂, ?_⟩
      have hturn := each_turn_succ (P := fun m c => ¬m.Overwrites c)
        (fun m₃ hc₃ => by rw [hc.unique hc₃]) hc
      rw [hturn, hfull₂, hfull₁, and_assoc]

/-- So does each turn of a call on a range. -/
theorem Orderly.range (ho : Orderly m)
    (hf : (PageEvent.range r).Each kalloc FlagsFit m)
    (hs : (PageEvent.range r).Each kalloc (Supplied kalloc) m)
    (h : r.Does kalloc m m') :
    Orderly m' ∧ (m'.ledger.Full ↔ m.ledger.Full
      ∧ (PageEvent.range r).Each kalloc (fun m c => ¬m.Overwrites c) m) := by
  obtain ⟨n, hc, hle⟩ := h.comes
  obtain ⟨ho', hfull⟩ := ho.comes hf hs hc
  refine ⟨ho', hfull.trans (and_congr_right fun _ => ?_)⟩
  refine forall_congr' fun k => forall_congr' fun m₂ =>
    forall_congr' fun hk => ?_
  constructor
  · intro h hlt
    exact h (by omega)
  · intro h hlt
    exact h (hc.lt_range hlt hk.dvd)

-- =============================================================== the runs

/-- Work elsewhere leaves the ledger as it is. -/
theorem Orderly.same (ho : Orderly m) (hs : SameTables m m') :
    Orderly m' ∧ (m'.ledger.Full ↔ m.ledger.Full) := by
  refine ⟨⟨?_, ?_, ?_⟩, ?_⟩
  · unfold TablesApart
    rw [hs.currentPd]
    exact ho.apart
  · rw [hs.frames]
    exact ho.frames_le
  · rw [hs.ledger]
    exact ho.sound
  · rw [hs.ledger]

/-- So does turning paging on. -/
theorem enablePaging_orderly (ho : Orderly m) :
    Orderly m.enablePaging
      ∧ (m.enablePaging.ledger.Full ↔ m.ledger.Full) := by
  have heq : m.enablePaging.ledger = m.ledger :=
    ledger_congr rfl fun _ _ _ => rfl
  refine ⟨⟨ho.apart, ho.frames_le, ?_⟩, ?_⟩
  · rw [heq]
    exact ho.sound
  · rw [heq]

/-- One step of a run. -/
theorem Orderly.step (ho : Orderly m) (hf : e.Each kalloc FlagsFit m)
    (hs : e.Each kalloc (Supplied kalloc) m)
    (h : TableStep kalloc m e m') :
    Orderly m' ∧ (m'.ledger.Full ↔ m.ledger.Full
      ∧ e.Each kalloc (fun m c => ¬m.Overwrites c) m) := by
  cases h with
  | call h => exact ho.call hf hs h
  | range h => exact ho.range hf hs h
  | enablePaging =>
      obtain ⟨ho', hfull⟩ := enablePaging_orderly ho
      exact ⟨ho', hfull.trans (and_iff_left trivial).symm⟩
  | outside hf hpd hp he =>
      obtain ⟨ho', hfull⟩ := ho.same ⟨hf, hpd, hp, he⟩
      exact ⟨ho', hfull.trans (and_iff_left trivial).symm⟩

/-- A whole run keeps frames apart, and loses one exactly where it writes
over an entry. -/
theorem run_orderly (hb : Blank m₀) (hr : Run (TableStep kalloc) m₀ tr m)
    (hf : ∀ p ∈ tr, p.2.Each kalloc FlagsFit p.1)
    (hs : ∀ p ∈ tr, p.2.Each kalloc (Supplied kalloc) p.1) :
    Orderly m ∧ (m.ledger.Full
      ↔ ∀ p ∈ tr, p.2.Each kalloc (fun m c => ¬m.Overwrites c) p.1) := by
  induction hr with
  | nil => exact ⟨hb.orderly, fun _ p hp => absurd hp List.not_mem_nil,
      fun _ => hb.full⟩
  | @snoc tr s s' e hr hstep ih =>
      simp only [List.mem_append, List.mem_singleton, or_imp,
        forall_and, forall_eq] at hf hs ⊢
      obtain ⟨ho, hfull⟩ := ih hf.1 hs.1
      obtain ⟨ho', hfull'⟩ := ho.step hf.2 hs.2 hstep
      exact ⟨ho', by rw [hfull', hfull]⟩

-- =============================================== a machine before paging

/-- What was computed is what the call does. -/
theorem next_does {fuel : Nat} (h : c.next kalloc fuel m = .ret m') :
    c.Does kalloc m m' := by
  cases c with
  | unmap v =>
      obtain ⟨⟨res, m₁⟩, h, hret⟩ := Outcome.bind_eq_ret.mp h
      cases hret
      exact ⟨fuel, res, h⟩
  | _ =>
      obtain ⟨⟨res, m₁⟩, h, hret⟩ := Outcome.bind_eq_ret.mp h
      cases hret
      exact ⟨res, h⟩

/-- Before paging, a table's memory is fresh if no entry has it yet. -/
theorem unpagedAlloc_fresh {size flags : Nat}
    (h : m.unpagedAlloc size flags = .ret (pt, m')) (h0 : pt ≠ 0)
    (hd : ∀ d < 0x400, m.currentPd.tables d ≠ pt) :
    FreshTable m pt m' := by
  simp only [unpagedAlloc] at h
  split at h
  · cases h
  · obtain ⟨rfl, rfl⟩ := Prod.mk.inj (Outcome.ret.inj h)
    refine ⟨h0, hd, ?_, ?_, ?_, ?_⟩ <;> split <;> rfl

instance (m : Mem) (c : PageCall) : Decidable (m.FlagsFit c) :=
  match c with
  | .getPage _ => inferInstanceAs (Decidable True)
  | .map _ flags => inferInstanceAs (Decidable (flags < 0x1000))
  | .mapAt _ _ flags => inferInstanceAs (Decidable (flags < 0x1000))
  | .unmap _ => inferInstanceAs (Decidable True)

instance (m : Mem) (p : Page) : Decidable (m.Present p) :=
  decidable_of_iff (p.1 < 0x400 ∧ p.2 < 0x400 ∧ m.entry p ≠ 0)
    ⟨fun h => ⟨h.1, h.2.1, h.2.2⟩,
      fun h => ⟨h.dir_lt, h.table_lt, h.ne_zero⟩⟩

instance (m : Mem) (n : Nat) : Decidable (m.Marked n) :=
  decidable_of_iff (Frames.index n < Frames.index m.frames.nframes
      ∧ ¬m.frames.Unused n)
    ⟨fun h => ⟨h.1, h.2⟩, fun h => ⟨h.tracked, h.used⟩⟩

instance (m : Mem) (c : PageCall) : Decidable (m.Overwrites c) :=
  match c with
  | .getPage _ => inferInstanceAs (Decidable False)
  | .map vaddr _ => inferInstanceAs (Decidable (m.Present (pageOf vaddr)))
  | .mapAt vaddr paddr _ => inferInstanceAs
      (Decidable (m.Present (pageOf vaddr) ∧ ¬m.Marked (frameOf paddr)))
  | .unmap _ => inferInstanceAs (Decidable False)

/-- Paging is off, and a table that is missing goes to memory that no entry
has. -/
def comesHere (m : Mem) (c : PageCall) : Bool :=
  decide (m.pagingEnabled = false)
    && (decide (m.currentPd.tables (directoryIndex c.vaddr) ≠ 0)
      || (m.unpagedAlloc sizeofPageTable
        (ALLOC_ALIGNED ||| ALLOC_ZEROED)).holds fun r => decide (r.1 ≠ 0)
          && (List.range 0x400).all fun d =>
            decide (m.currentPd.tables d ≠ r.1))

/-- The test on a state gives the table that the call puts up. -/
theorem of_comesHere (h : m.comesHere c = true)
    (h0 : m.currentPd.tables (directoryIndex c.vaddr) = 0) :
    ∃ pt m', m.tableAlloc kalloc = .ret (pt, m') ∧ FreshTable m pt m' := by
  unfold comesHere at h
  rw [Bool.and_eq_true, decide_eq_true_eq, Bool.or_eq_true,
    decide_eq_true_eq] at h
  obtain ⟨hoff, h⟩ := h
  unfold tableAlloc
  rw [if_neg (by simp [hoff])]
  rcases h with hne | h
  · exact absurd h0 hne
  · obtain ⟨⟨pt, m'⟩, halloc, h⟩ := Outcome.holds_iff.mp h
    rw [Bool.and_eq_true, decide_eq_true_eq, List.all_eq_true] at h
    refine ⟨pt, m', halloc, unpagedAlloc_fresh halloc h.1 ?_⟩
    intro d hd
    exact of_decide_eq_true (h.2 d (List.mem_range.mpr hd))

/-- The flags fit besides. -/
def tidy (m : Mem) (c : PageCall) : Bool :=
  decide (m.FlagsFit c) && m.comesHere c

/-- And all that a call is asked for. -/
theorem of_tidy (h : m.tidy c = true) :
    m.FlagsFit c ∧ m.Supplied kalloc c := by
  unfold tidy at h
  rw [Bool.and_eq_true, decide_eq_true_eq] at h
  refine ⟨h.1, ?_⟩
  intro h0 pt m' halloc
  obtain ⟨pt', m₁, halloc', hf⟩ : ∃ pt' m₁,
      m.tableAlloc kalloc = .ret (pt', m₁) ∧ FreshTable m pt' m₁ :=
    of_comesHere h.2 h0
  rw [halloc] at halloc'
  obtain ⟨rfl, rfl⟩ := Prod.mk.inj (Outcome.ret.inj halloc')
  exact hf

/-- The calls one after another, as events of a run. -/
def callNext (kalloc : Kalloc) (e : PageEvent) (m : Mem) : Option Mem :=
  match e with
  | .call c => (c.next kalloc 0 m).value
  | _ => none

def callTidy (P : Mem → PageCall → Bool) (m : Mem) : PageEvent → Bool
  | .call c => m.tidy c && P m c
  | _ => false

/-- A run of calls before paging, with what is seen at its end. -/
theorem callRun {es : List PageEvent} {P : Mem → PageCall → Bool}
    {α : Type} {view : Mem → α} {v : α}
    (h : (Run.follow (callNext kalloc) (callTidy P) es m₀).map view
      = some v) :
    ∃ tr m, Run (TableStep kalloc) m₀ tr m
      ∧ (∀ p ∈ tr, p.2.Each kalloc FlagsFit p.1)
      ∧ (∀ p ∈ tr, p.2.Each kalloc (Supplied kalloc) p.1)
      ∧ (∀ p ∈ tr, ∃ c, p.2 = .call c ∧ P p.1 c = true)
      ∧ view m = v := by
  have hnext : ∀ s e s', callNext kalloc e s = some s' →
      TableStep kalloc s e s' := by
    intro s e s' h
    cases e with
    | call c => exact .call (next_does (Outcome.value_eq_some.mp h))
    | _ => cases h
  obtain ⟨tr, m, hr, hok, hv⟩ := Run.of_follow_map hnext h
  have htidy : ∀ p ∈ tr, p.2.Each kalloc FlagsFit p.1
      ∧ p.2.Each kalloc (Supplied kalloc) p.1
      ∧ ∃ c, p.2 = .call c ∧ P p.1 c = true := by
    intro p hp
    have hp := hok p hp
    obtain ⟨s, e⟩ := p
    cases e with
    | call c =>
        obtain ⟨ht, hP⟩ := Bool.and_eq_true_iff.mp hp
        obtain ⟨hf, hs⟩ := of_tidy ht
        exact ⟨hf, hs, c, rfl, hP⟩
    | _ => cases hp
  exact ⟨tr, m, hr, fun p hp => (htidy p hp).1,
    fun p hp => (htidy p hp).2.1, fun p hp => (htidy p hp).2.2, hv⟩

/-- A machine of 64 frames with a zeroed directory, page tables going to
0x200000 and up. -/
def barred : Mem :=
  { Mem.new fun _ => 0 with
    frames := { frames := 0, words := fun _ => 0, nframes := 64 }
    kheap := { (Mem.new fun _ => 0).kheap with freeZone := 0x200000 } }

/-- The machine of the examples starts without pages. -/
theorem barred_blank : Blank barred := by
  refine ⟨?_, ?_, ?_, by decide⟩
  · intro p hp
    exact hp.ne_zero rfl
  · intro n hn
    exact hn.used (Nat.zero_testBit _)
  · intro d _ d' _ hne
    exact absurd rfl hne

/-- Three pages are mapped, one where the caller wants it, and the second of
them is unmapped again. No call finds an entry where it puts one. -/
theorem barred_run : ∃ tr m,
    Run (TableStep (kheapAlloc 0)) barred tr m
      ∧ (∀ p ∈ tr, p.2.Each (kheapAlloc 0) FlagsFit p.1)
      ∧ (∀ p ∈ tr, p.2.Each (kheapAlloc 0) (Supplied (kheapAlloc 0)) p.1)
      ∧ (∀ p ∈ tr, ∃ c, p.2 = .call c ∧ decide (¬p.1.Overwrites c) = true)
      ∧ (m.entry (0, 0), m.entry (0, 1), m.entry (0, 2))
        = (3, 0, 0x2003) := by
  have hrun : (Run.follow (callNext (kheapAlloc 0))
      (callTidy fun m c => decide (¬m.Overwrites c))
      [.call (.mapAt 0 0 3), .call (.map 0x1000 3), .call (.map 0x2000 3),
        .call (.unmap 0x1000)] barred).map
      (fun m => (m.entry (0, 0), m.entry (0, 1), m.entry (0, 2)))
        = some (3, 0, 0x2003) := by
    decide +kernel
  exact callRun hrun

-- ============================================================= the results

/-- No frame is behind two pages, and every frame behind a page is
marked, along every run whose page-table memory is fresh.

The pages hold frames as the entries of a ledger do. `run_orderly` takes
each call for a move of the ledger, and a ledger that is only moved holds no
frame twice. -/
theorem run_unshared (hb : Blank m₀) (hr : Run (TableStep kalloc) m₀ tr m)
    (hf : ∀ p ∈ tr, p.2.Each kalloc FlagsFit p.1)
    (hs : ∀ p ∈ tr, p.2.Each kalloc (Supplied kalloc) p.1) :
    m.Unshared :=
  unshared_iff.mpr (run_orderly hb hr hf hs).1.sound

/-- Three pages are mapped and one is unmapped. -/
theorem run_unshared_barred : ∃ tr m,
    Run (TableStep (kheapAlloc 0)) barred tr m
      ∧ (m.entry (0, 0), m.entry (0, 1), m.entry (0, 2)) = (3, 0, 0x2003)
      ∧ m.Unshared := by
  obtain ⟨tr, m, hr, hf, hs, -, hv⟩ := barred_run
  exact ⟨tr, m, hr, hv, run_unshared barred_blank hr hf hs⟩

/-- Every marked frame is behind a page exactly if no call of the run
put an entry where there was one.

The same run of the ledger: a claim onto a page that already holds a frame
is the one move that leaves a frame to nobody, and there is none that brings
it back. -/
theorem run_unleaked_iff (hb : Blank m₀)
    (hr : Run (TableStep kalloc) m₀ tr m)
    (hf : ∀ p ∈ tr, p.2.Each kalloc FlagsFit p.1)
    (hs : ∀ p ∈ tr, p.2.Each kalloc (Supplied kalloc) p.1) :
    m.Unleaked
      ↔ ∀ p ∈ tr, p.2.Each kalloc (fun m c => ¬m.Overwrites c) p.1 :=
  unleaked_iff.trans (run_orderly hb hr hf hs).2

/-- On another page `map` leaks nothing. -/
theorem run_unleaked_iff_barred : ∃ tr m,
    Run (TableStep (kheapAlloc 0)) barred tr m
      ∧ (m.entry (0, 0), m.entry (0, 1), m.entry (0, 2)) = (3, 0, 0x2003)
      ∧ m.Unleaked := by
  obtain ⟨tr, m, hr, hf, hs, hP, hv⟩ := barred_run
  refine ⟨tr, m, hr, hv, (run_unleaked_iff barred_blank hr hf hs).mpr ?_⟩
  intro p hp
  obtain ⟨c, hc, hno⟩ := hP p hp
  rw [hc]
  exact of_decide_eq_true (p := ¬p.1.Overwrites c) hno

/-- A marked frame that no table of a directory with one table holds. -/
def leaks (m : Mem) (n : Nat) : Bool :=
  decide (m.Marked n)
  && ((List.range 0x400).all fun d =>
    decide (d = 0 ∨ m.currentPd.tables d = 0))
  && (List.range 0x400).all fun t => decide (frameOf (m.entry (0, t)) ≠ n)

/-- The test finds a frame that is marked and has no page. -/
theorem not_unleaked_of_leaks (h : m.leaks n = true) : ¬m.Unleaked := by
  unfold leaks at h
  rw [Bool.and_eq_true, Bool.and_eq_true, decide_eq_true_eq,
    List.all_eq_true, List.all_eq_true] at h
  obtain ⟨⟨hn, hd⟩, ht⟩ := h
  intro hun
  obtain ⟨⟨d, t⟩, hp, hfr⟩ := hun n hn
  have hd0 := of_decide_eq_true (hd d (List.mem_range.mpr hp.dir_lt))
  rcases hd0 with hd0 | hd0
  · have hne := of_decide_eq_true (ht t (List.mem_range.mpr hp.table_lt))
    rw [← hd0] at hne
    exact hne hfr
  · exact hp.ne_zero (if_pos hd0)

/-- A page that is mapped twice keeps its second frame; the first stays
marked with no page to release it through. -/
theorem barred_leaks : ∃ kalloc m₀ tr m, Blank m₀
    ∧ Run (TableStep kalloc) m₀ tr m
    ∧ (∀ p ∈ tr, p.2.Each kalloc FlagsFit p.1)
    ∧ (∀ p ∈ tr, p.2.Each kalloc (Supplied kalloc) p.1)
    ∧ ¬m.Unleaked := by
  have hrun : (Run.follow (callNext (kheapAlloc 0))
      (callTidy fun _ _ => true)
      [.call (.mapAt 0 0 3), .call (.map 0x1000 3), .call (.map 0x1000 3)]
      barred).map (fun m => m.leaks 1) = some true := by
    decide +kernel
  obtain ⟨tr, m, hr, hf, hs, -, hv⟩ := callRun hrun
  exact ⟨_, _, tr, m, barred_blank, hr, hf, hs, not_unleaked_of_leaks hv⟩

end Mem

end Ntibux
