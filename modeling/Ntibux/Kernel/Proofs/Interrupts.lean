/-
Every interrupt is answered, once, by the handler on record, and counted.

# The lines

An interrupt of a line takes its line into service, on both controllers
where it is one of the second's, and `pic_interrupt_handler` ends it there
before it looks for a handler: behind each step nothing is in service
(`request_served`), so the next interrupt of any line is let through. The
vectors that `remap` gives lead each line to its own stub, clear of the
exceptions.

# The tables

What is on record for a vector is the last handler that was put there, in
the events of the run or before them in the boot. `Serviced` says so of
both tables at once, and of the counters; one event keeps it
(`Serviced.step`) and `boot` starts it (`boot_serviced`).
-/
import Ntibux.Kernel.Interrupts
import Ntibux.Kernel.Proofs.Descriptors

namespace Ntibux.Ints

variable {s s' : Ints} {e : Event} {es : List Event} {k n : Nat}
  {tr : List (Ints × Event)} {pics : Pics}

-- ========================================================= the controllers

/-- Whatever they were at before. -/
theorem outbs_remap (p : Pics) : p.outbs remap = remapped := rfl

/-- The bytes that `pic_interrupt_handler` sends for the line `k`. -/
def served (k : Nat) (p : Pics) : Pics :=
  (if 8 ≤ k then p.outb PIC2_CMD PIC_EOI else p).outb PIC1_CMD PIC_EOI

/-- A line is let through, with its own vector, and is out of service when
its handler runs. -/
theorem request_served (hk : k < 16) (h2 : k ≠ 2) :
    ∃ p, remapped.request k = some (32 + k, p) ∧ served k p = remapped := by
  have hmaster : ∀ i, remapped.master.Takes i := fun i =>
    Pic.takes_of_idle rfl rfl rfl
  have hslave : ∀ i, remapped.slave.Takes i := fun i =>
    Pic.takes_of_idle rfl rfl rfl
  unfold Pics.request served
  by_cases h8 : k < 8
  · refine ⟨{ remapped with master := remapped.master.enter k }, ?_, ?_⟩
    · rw [if_pos h8, if_pos ⟨h2, hmaster k⟩]
      rfl
    · rw [if_neg (by omega)]
      show ({ remapped with
        master := (remapped.master.enter k).endOfInterrupt } : Pics) = _
      rw [Pic.endOfInterrupt_enter rfl]
  · refine ⟨{ master := remapped.master.enter 2
              slave := remapped.slave.enter (k - 8) }, ?_, ?_⟩
    · rw [if_neg h8, if_pos ⟨hk, hslave _, hmaster 2, rfl, rfl⟩]
      have hv : remapped.slave.offset + (k - 8) = 32 + k := by
        show 0x28 + (k - 8) = 32 + k
        omega
      rw [hv]
    · rw [if_pos (by omega)]
      show (⟨(remapped.master.enter 2).endOfInterrupt,
        (remapped.slave.enter (k - 8)).endOfInterrupt⟩ : Pics) = _
      rw [Pic.endOfInterrupt_enter rfl, Pic.endOfInterrupt_enter rfl]

-- ============================================================= the counters

/-- The counter that goes up. -/
theorem bump_self (c : Nat → Nat) (n : Nat) :
    bump c n n = u32 (c n + 1) := Function.update_self ..

/-- No other does. -/
theorem bump_of_ne (c : Nat → Nat) (h : k ≠ n) : bump c n k = c k :=
  Function.update_of_ne h ..

/-- A counter that is at a number of events, after one more. -/
theorem counted (c : Nat → Nat) (n : Nat) {p : Nat → Event → Bool}
    (hc : ∀ k, c k = u32 (es.countP (p k)))
    (he : ∀ k, p k e = true ↔ n = k) (k : Nat) :
    bump c n k = u32 ((es ++ [e]).countP (p k)) := by
  rw [List.countP_append]
  by_cases h : k = n
  · subst h
    have hp : p k e = true := (he k).mpr rfl
    rw [bump_self, hc, List.countP_cons_of_pos hp, List.countP_nil]
    unfold u32
    omega
  · have hp : ¬p k e = true := fun hp => h ((he k).mp hp).symm
    rw [bump_of_ne c h, hc, List.countP_cons_of_neg hp, List.countP_nil]
    rfl

/-- One that the event does not count for. -/
theorem uncounted (c : Nat → Nat) {p : Nat → Event → Bool}
    (hc : ∀ k, c k = u32 (es.countP (p k))) (he : ∀ k, p k e = false)
    (k : Nat) : c k = u32 ((es ++ [e]).countP (p k)) := by
  rw [List.countP_append, List.countP_cons_of_neg (by rw [he k]; decide),
    List.countP_nil]
  exact hc k

-- ================================================================ the steps

/-- The last event decides, if it is about this vector. -/
theorem handlerAfter_concat (n : Nat) (es : List Event) (e : Event) :
    handlerAfter n (es ++ [e]) = match e with
      | .add nbr h => if nbr = n then some h else handlerAfter n es
      | _ => handlerAfter n es := by
  unfold handlerAfter
  rw [List.foldl_append]
  cases e <;> rfl

/-- The same for a line. -/
theorem picHandlerAfter_concat (k : Nat) (es : List Event) (e : Event) :
    picHandlerAfter k (es ++ [e]) = match e with
      | .addPic nbr h => if nbr = k then some h else picHandlerAfter k es
      | _ => picHandlerAfter k es := by
  unfold picHandlerAfter
  rw [List.foldl_append]
  cases e <;> rfl

/-- An exception is answered by the handler on record. -/
theorem apply_int (hn : n < 32) (code : Option Nat) (c : Core)
    (cr2 : Nat) :
    s.apply (.int n code c cr2) =
      .ret (some (answer (s.intHandler n) cr2 (c.registers n code) n
          "unhandled interrupt\n"),
        { s with interruptsCounter := bump s.interruptsCounter n }) := by
  have hnbr : (c.registers n code).intNbr = n := rfl
  unfold apply dispatch interruptHandler answer
  dsimp only
  rw [if_pos hn, hnbr]
  cases s.intHandler n <;> rfl

/-- An interrupt of a line too, and the controllers are as before. -/
theorem apply_irq (hp : s.pics = remapped) (hk : k < 16) (h2 : k ≠ 2)
    (c : Core) (cr2 : Nat) :
    s.apply (.irq k c cr2) =
      .ret (some (answer (s.picIntHandler k) cr2
          (c.registers (32 + k) none) k "unhandled PIC interrupt\n"),
        { s with
          picInterruptsCounter := bump s.picInterruptsCounter k }) := by
  obtain ⟨p, hreq, hserved⟩ := request_served hk h2
  have hreq : s.pics.request k = some (32 + k, p) := by
    rw [hp]
    exact hreq
  have hnbr : (c.registers (32 + k) none).errCode = k := by
    show codeOf (32 + k) none = k
    unfold codeOf
    rw [if_neg (by omega)]
    omega
  -- the line is out of service before its handler is looked for
  have heoi : (if 8 ≤ k then p.outb PIC2_CMD PIC_EOI else p).outb PIC1_CMD
      PIC_EOI = s.pics := by
    rw [hp]
    exact hserved
  unfold apply
  dsimp only
  rw [hreq]
  unfold dispatch picInterruptHandler answer
  dsimp only
  rw [if_neg (by omega), if_pos (by omega), hnbr, heoi]
  cases s.picIntHandler k <;> rfl

/-- What one event does. -/
theorem Serviced.step (hs : Serviced es s) (h : Step s e s') :
    Serviced (es ++ [e]) s' := by
  obtain ⟨hok, r, h, -⟩ := h
  cases e with
  | int n code c cr2 =>
      -- what was done last is behind what the list says was done
      rw [apply_int hok] at h
      cases h
      refine ⟨hs.pics, counted _ n hs.ints fun k => beq_iff_eq,
        uncounted _ hs.irqs fun k => rfl, fun k => ?_, fun k => ?_⟩
      · rw [handlerAfter_concat]
        exact hs.handlers k
      · rw [picHandlerAfter_concat]
        exact hs.picHandlers k
  | irq k c cr2 =>
      rw [apply_irq hs.pics hok.1 hok.2] at h
      cases h
      refine ⟨hs.pics, uncounted _ hs.ints fun n => rfl,
        counted _ k hs.irqs fun k => beq_iff_eq, fun n => ?_, fun n => ?_⟩
      · rw [handlerAfter_concat]
        exact hs.handlers n
      · rw [picHandlerAfter_concat]
        exact hs.picHandlers n
  | add nbr h' =>
      cases h
      refine ⟨hs.pics, uncounted _ hs.ints fun n => rfl,
        uncounted _ hs.irqs fun n => rfl, fun n => ?_, fun n => ?_⟩
      · rw [handlerAfter_concat]
        show Function.update s.intHandler nbr (some h') n = _
        by_cases hn : nbr = n
        · subst hn
          rw [Function.update_self]
          exact (if_pos rfl).symm
        · rw [Function.update_of_ne (Ne.symm hn), hs.handlers n]
          exact (if_neg hn).symm
      · rw [picHandlerAfter_concat]
        exact hs.picHandlers n
  | addPic nbr h' =>
      cases h
      refine ⟨hs.pics, uncounted _ hs.ints fun n => rfl,
        uncounted _ hs.irqs fun n => rfl, fun n => ?_, fun n => ?_⟩
      · rw [handlerAfter_concat]
        exact hs.handlers n
      · rw [picHandlerAfter_concat]
        show Function.update s.picIntHandler nbr (some h') n = _
        by_cases hn : nbr = n
        · subst hn
          rw [Function.update_self]
          exact (if_pos rfl).symm
        · rw [Function.update_of_ne (Ne.symm hn), hs.picHandlers n]
          exact (if_neg hn).symm

-- ================================================================= the boot

/-- Handlers put on record one after another, each vector once. -/
theorem foldl_addInterruptHandler (n : Nat) (l : List (Nat × IntHandler))
    (hnd : (l.map Prod.fst).Nodup) (s : Ints) :
    (l.foldl (fun s h => s.addInterruptHandler h.1 h.2) s).intHandler n
      = (l.lookup n).or (s.intHandler n) := by
  induction l generalizing s with
  | nil => rfl
  | cons h l ih =>
      obtain ⟨nbr, h⟩ := h
      rw [List.map_cons, List.nodup_cons] at hnd
      rw [List.foldl_cons, ih hnd.2, List.lookup_cons]
      show (l.lookup n).or (Function.update s.intHandler nbr (some h) n) = _
      by_cases hn : n = nbr
      · subst hn
        have hnone : l.lookup n = none := by
          rw [List.lookup_eq_none_iff]
          intro p hp
          exact bne_iff_ne.mpr fun heq =>
            hnd.1 (List.mem_map.mpr ⟨p, hp, heq.symm⟩)
        rw [hnone, Function.update_self, BEq.rfl]
        rfl
      · rw [Function.update_of_ne hn, beq_false_of_ne hn]

/-- They change nothing else. -/
theorem foldl_addInterruptHandler_keeps (l : List (Nat × IntHandler))
    (s : Ints) :
    l.foldl (fun s h => s.addInterruptHandler h.1 h.2) s = { s with
      intHandler := (l.foldl (fun s h =>
        s.addInterruptHandler h.1 h.2) s).intHandler } := by
  induction l generalizing s with
  | nil => rfl
  | cons h l ih =>
      rw [List.foldl_cons]
      exact ih _

/-- The handlers that `kernel_main` puts on record. -/
theorem boot_serviced (pics : Pics) : Serviced [] (boot pics) := by
  unfold boot
  dsimp only
  rw [foldl_addInterruptHandler_keeps]
  refine ⟨outbs_remap pics, fun _ => rfl, fun _ => rfl, fun n => ?_,
    fun k => ?_⟩
  · dsimp only
    rw [foldl_addInterruptHandler n _ (by decide)]
    show (interruptsHandlers.lookup n).or (Function.update (fun _ => none)
      INT_PAGE_FAULT (some IntHandler.pageFault) n) = List.lookup n _
    rw [List.lookup_cons]
    -- `set_interrupts_handlers` leaves the page fault's alone
    by_cases hn : n = INT_PAGE_FAULT
    · subst hn
      rfl
    · rw [Function.update_of_ne hn, beq_false_of_ne hn]
      exact Option.or_none
  · show Function.update (Function.update (fun _ => none) PIC_KBD
      (some IntHandler.keyboard)) PIC_TIMER (some IntHandler.timer) k = _
    by_cases h0 : k = PIC_TIMER
    · subst h0
      rfl
    · rw [Function.update_of_ne h0]
      by_cases h1 : k = PIC_KBD
      · subst h1
        rfl
      · rw [Function.update_of_ne h1]
        show none = List.lookup k [(PIC_TIMER, _), (PIC_KBD, _)]
        rw [List.lookup_cons, beq_false_of_ne h0, List.lookup_cons,
          beq_false_of_ne h1]
        rfl

/-- In every run the tables, the counters and the controllers are what the
events come to. -/
theorem run_sound (hr : Run (boot pics) tr s) :
    Serviced (tr.map Prod.snd) s := by
  induction hr with
  | nil => exact boot_serviced pics
  | @snoc tr s s' e hr h ih =>
      rw [List.map_append]
      exact ih.step h

/-- A loop of `dump_int_summary` prints the counters that are not 0. -/
theorem counterLine_lines (format : String) (counter : Nat → Nat)
    (l : List Nat) : l.filterMap (counterLine format counter)
      = (l.filter fun i => counter i ≠ 0).map fun i =>
        ⟨ascii format, [.int i, .int (counter i)]⟩ := by
  induction l with
  | nil => rfl
  | cons i l ih =>
      by_cases h : counter i = 0
      · have hnone : counterLine format counter i = none :=
          if_neg (not_not.mpr h)
        rw [List.filterMap_cons_none hnone, ih,
          List.filter_cons_of_neg (by simp [h])]
      · have hsome : counterLine format counter i
            = some ⟨ascii format, [.int i, .int (counter i)]⟩ := if_pos h
        rw [List.filterMap_cons_some hsome, ih,
          List.filter_cons_of_pos (by simp [h]), List.map_cons]

/-- The lines of `dump_int_summary`. -/
theorem dumpIntSummary_eq (s : Ints) : s.dumpIntSummary
    = summary s.picInterruptsCounter s.interruptsCounter := by
  unfold dumpIntSummary summary
  rw [counterLine_lines, counterLine_lines]

/-- Whatever the controllers were programmed to before, in every run of
exceptions, interrupts of the lines and handlers put on record: an
exception is answered by the handler that is on record for its vector, and
an interrupt of any line is let through, comes with the vector 32 places
behind its line and is answered by the handler for that line; where there
is none, the kernel says so and panics. Behind it no line is masked or in
service. The counters are the numbers of the interrupts in 32 bits, and
`dump_int_summary` lists those that are not 0. -/
theorem run_serviced (hr : Run (boot pics) tr s) :
    s.pics = remapped ∧
    (∀ n < 32, ∀ code c cr2, s.apply (.int n code c cr2) =
      .ret (some (answer (handlerAfter n (tr.map Prod.snd)) cr2
          (c.registers n code) n "unhandled interrupt\n"),
        { s with interruptsCounter := bump s.interruptsCounter n })) ∧
    (∀ k < 16, k ≠ 2 → ∀ c cr2, s.apply (.irq k c cr2) =
      .ret (some (answer (picHandlerAfter k (tr.map Prod.snd)) cr2
          (c.registers (32 + k) none) k "unhandled PIC interrupt\n"),
        { s with
          picInterruptsCounter := bump s.picInterruptsCounter k })) ∧
    s.dumpIntSummary = summary
      (fun k => u32 ((tr.map Prod.snd).countP (Event.isIrq k)))
      (fun n => u32 ((tr.map Prod.snd).countP (Event.isInt n))) := by
  have hs := run_sound hr
  refine ⟨hs.pics, fun n hn code c cr2 => ?_, fun k hk h2 c cr2 => ?_, ?_⟩
  · rw [apply_int hn, hs.handlers]
  · rw [apply_irq hs.pics hk h2, hs.picHandlers]
  · rw [dumpIntSummary_eq, funext hs.ints, funext hs.irqs]

/-- Controllers that are waiting for some other word. -/
def stalePics : Pics where
  master := ⟨.icw3, true, false, 0x8, 0, 0, 0xff, 0x4⟩
  slave := ⟨.ready, false, true, 0x70, 7, 0, 0x3, 0x81⟩

/-- The timer twice, a breakpoint, a page fault, and a line for which a
handler is put on record first. -/
def sampleEvents : List Event :=
  [.irq 0 sampleCore 0, .int 3 none sampleCore 0, .addPic 12 .keyboard,
    .irq 12 sampleCore 0, .int 14 (some 2) sampleCore 0xdead,
    .irq 0 sampleCore 0xdead]

/-- After them the next page fault is the kernel's own, with its address,
and the fifth line's interrupt has no handler. -/
theorem run_serviced_sample : ∃ tr s, Run (boot stalePics) tr s ∧
    s.pics = remapped ∧
    (∃ s', s.apply (.int 14 (some 6) sampleCore 0xbeef) =
      .ret (some ([⟨kern 0 "page fault @0x%x  %c%c%c%c%c\n",
        [.int 0xbeef, .int 0x70, .int 0x77, .int 0x75, .int 0x2d,
          .int 0x2d]⟩], .killMe), s')) ∧
    (∃ s', s.apply (.irq 5 sampleCore 0) =
      .ret (some ([⟨ascii "unknown interrupt (%d)\n", [.int 5]⟩],
        .panic "unhandled PIC interrupt\n"), s')) ∧
    s.dumpIntSummary
      = [⟨ascii "PIC int %x: %d\n", [.int 0, .int 2]⟩,
          ⟨ascii "PIC int %x: %d\n", [.int 12, .int 1]⟩,
          ⟨ascii "int %x: %d\n", [.int 3, .int 1]⟩,
          ⟨ascii "int %x: %d\n", [.int 14, .int 1]⟩] := by
  obtain ⟨tr, s, hr, hev⟩ : ∃ tr s, Run (boot stalePics) tr s ∧
      tr.map Prod.snd = sampleEvents := by
    refine ⟨_, _, (((((Run.nil.snoc ⟨?_, _, rfl, ?_⟩).snoc
      ⟨?_, _, rfl, ?_⟩).snoc ⟨?_, _, rfl, ?_⟩).snoc ⟨?_, _, rfl, ?_⟩).snoc
      ⟨?_, _, rfl, ?_⟩).snoc ⟨?_, _, rfl, ?_⟩, rfl⟩ <;> decide
  obtain ⟨hpics, hint, hirq, hsummary⟩ := run_serviced hr
  rw [hev] at hint hirq hsummary
  exact ⟨tr, s, hr, hpics, ⟨_, hint 14 (by decide) (some 6) sampleCore _⟩,
    ⟨_, hirq 5 (by decide) (by decide) sampleCore 0⟩,
    hsummary.trans (by decide +kernel)⟩

end Ntibux.Ints
