/-
When the keyboard buffer loses nothing silently: exactly while no code is
put into it with 255 unread ones. The put after that makes the write
index meet the read index, which is how an empty buffer looks, and every
code is gone at once (`put_full_loses`).

Until then the codes returned are the first ones put and the readable
ones are the rest (`Kept`), which a put and a get both keep.
-/
import Ntibux.Term.Keyboard

namespace Ntibux

namespace Keyboard

variable {s s' : Keyboard} {e : KbdEvent} {c : UInt8}
  {tr : List (Keyboard × KbdEvent)}

/-- One more code and the indices meet. -/
def Full (s : Keyboard) : Prop :=
  (s.kb.windex + 1) % KEYBOARD_BUFFER_SIZE = s.kb.rindex

theorem put_step (s : Keyboard) (c : UInt8) : Step s (.put c) (s.put c) :=
  rfl

theorem of_next_get (hs : s.next .get = some s') :
    s.kb.available = true ∧ s' = s.get := by
  have h : (if s.kb.available then some s.get else none) = some s' := hs
  by_cases hav : s.kb.available = true
  · rw [if_pos hav] at h
    exact ⟨hav, (Option.some.inj h).symm⟩
  · rw [if_neg hav] at h
    cases h

-- ============================================================ invariant

/-- Nothing has been lost: the codes put are those returned and then
those in the buffer. -/
structure Kept (s : Keyboard) : Prop where
  reads : s.reads = List.range s.gets.length
  gets : s.gets = s.puts.take s.gets.length
  le : s.gets.length ≤ s.puts.length
  room : s.puts.length < s.gets.length + KEYBOARD_BUFFER_SIZE
  rindex : s.kb.rindex = s.gets.length % KEYBOARD_BUFFER_SIZE
  windex : s.kb.windex = s.puts.length % KEYBOARD_BUFFER_SIZE
  cell : ∀ n < s.puts.length, s.puts.length ≤ n + KEYBOARD_BUFFER_SIZE →
    s.holds (n % KEYBOARD_BUFFER_SIZE) = some n
    ∧ s.kb.buffer[n % KEYBOARD_BUFFER_SIZE]? = s.puts[n]?
  held : ∀ k n, s.holds k = some n → n < s.puts.length

namespace Kept

theorem new (buffer : Vector UInt8 KEYBOARD_BUFFER_SIZE) :
    Kept (Keyboard.new buffer) where
  reads := rfl
  gets := rfl
  le := Nat.le_refl 0
  room := show 0 < 0 + KEYBOARD_BUFFER_SIZE by decide
  rindex := rfl
  windex := rfl
  cell n hn := absurd hn (Nat.not_lt_zero n)
  held _ _ h := nomatch h

theorem available_iff (h : Kept s) :
    s.kb.available = true ↔ s.gets.length < s.puts.length := by
  have hle := h.le
  have hroom := h.room
  unfold KbdBuf.available
  rw [bne_iff_ne, h.rindex, h.windex]
  unfold KEYBOARD_BUFFER_SIZE at *
  omega

/-- The first code that has not been returned is where `get` reads. -/
theorem first (h : Kept s) (hlt : s.gets.length < s.puts.length) :
    s.holds s.kb.rindex = some s.gets.length
    ∧ s.puts[s.gets.length]? = some s.kb.get.1 := by
  have hroom := h.room
  obtain ⟨hhold, hcell⟩ := h.cell s.gets.length hlt (by omega)
  rw [← h.rindex] at hhold hcell
  refine ⟨hhold, ?_⟩
  rw [← hcell]
  exact Vector.getElem?_eq_getElem s.kb.rindex_lt

theorem count (h : Kept s) :
    s.kb.count = s.puts.length - s.gets.length := by
  have hle := h.le
  have hroom := h.room
  unfold KbdBuf.count
  rw [h.rindex, h.windex]
  unfold KEYBOARD_BUFFER_SIZE at *
  omega

/-- The readable codes are those from the first unread one on. -/
theorem readable_iff (h : Kept s) {n : Nat} :
    some n ∈ s.readable ↔ s.gets.length ≤ n ∧ n < s.puts.length := by
  have hroom := h.room
  have hhold : ∀ i < s.puts.length - s.gets.length,
      s.holds ((s.kb.rindex + i) % KEYBOARD_BUFFER_SIZE)
        = some (s.gets.length + i) := by
    intro i hi
    have hn := (h.cell (s.gets.length + i) (by omega) (by omega)).1
    rwa [h.rindex, Nat.mod_add_mod]
  unfold readable
  rw [List.mem_map, h.count]
  constructor
  · intro hin
    obtain ⟨i, hi, heq⟩ := hin
    rw [List.mem_range] at hi
    rw [hhold i hi] at heq
    have hn : s.gets.length + i = n := Option.some.inj heq
    omega
  · intro hn
    obtain ⟨h1, h2⟩ := hn
    refine ⟨n - s.gets.length, List.mem_range.mpr (by omega), ?_⟩
    rw [hhold _ (by omega)]
    congr 1
    omega

/-- A put with room adds a code at the end. -/
theorem put (h : Kept s) (hfull : ¬ Full s) (c : UInt8) :
    Kept (s.put c) where
  reads := h.reads
  gets := by
    show s.gets = (s.puts ++ [c]).take s.gets.length
    rw [List.take_append_of_le_length h.le]
    exact h.gets
  le := by
    show s.gets.length ≤ (s.puts ++ [c]).length
    have hle := h.le
    rw [List.length_append]
    omega
  room := by
    show (s.puts ++ [c]).length < s.gets.length + KEYBOARD_BUFFER_SIZE
    have hroom := h.room
    have hle := h.le
    unfold Full at hfull
    rw [h.rindex, h.windex] at hfull
    rw [List.length_append, List.length_singleton]
    unfold KEYBOARD_BUFFER_SIZE at *
    omega
  rindex := h.rindex
  windex := by
    show (s.kb.windex + 1) % KEYBOARD_BUFFER_SIZE
      = (s.puts ++ [c]).length % KEYBOARD_BUFFER_SIZE
    rw [h.windex, List.length_append, List.length_singleton,
      Nat.mod_add_mod]
  cell := by
    intro n hn hlast
    have hlen : (s.put c).puts.length = s.puts.length + 1 :=
      List.length_append
    show Function.update s.holds s.kb.windex (some s.puts.length) _ = _
      ∧ (s.kb.buffer.set s.kb.windex c s.kb.windex_lt)[_]?
        = (s.puts ++ [c])[n]?
    rw [Vector.getElem?_set, h.windex]
    by_cases hnew : n = s.puts.length
    · rw [hnew, Function.update_self, if_pos rfl,
        List.getElem?_concat_length]
      exact ⟨rfl, rfl⟩
    · -- an older cell that is still in the buffer is another one
      have hne : s.puts.length % KEYBOARD_BUFFER_SIZE
          ≠ n % KEYBOARD_BUFFER_SIZE := by
        unfold KEYBOARD_BUFFER_SIZE at *
        omega
      obtain ⟨h1, h2⟩ := h.cell n (by omega) (by omega)
      rw [Function.update_of_ne hne.symm, if_neg hne,
        List.getElem?_append_left (by omega)]
      exact ⟨h1, h2⟩
  held := by
    intro k n hk
    have hlen : (s.put c).puts.length = s.puts.length + 1 :=
      List.length_append
    have hold : Function.update s.holds s.kb.windex (some s.puts.length) k
        = some n := hk
    rw [Function.update_apply] at hold
    split at hold
    · cases hold
      omega
    · have hn := h.held k n hold
      omega

/-- A get returns the first code that has not been returned. -/
theorem get (h : Kept s) (hav : s.kb.available = true) :
    Kept s.get := by
  have hlt := h.available_iff.mp hav
  obtain ⟨hhold, hcode⟩ := h.first hlt
  have hlen : s.get.gets.length = s.gets.length + 1 := List.length_append
  have hroom := h.room
  refine ⟨?_, ?_, ?_, ?_, ?_, h.windex, h.cell, h.held⟩
  · show s.reads ++ (s.holds s.kb.rindex).toList = _
    rw [hlen, hhold, h.reads, List.range_succ]
    rfl
  · show s.gets ++ [s.kb.get.1] = s.puts.take s.get.gets.length
    rw [hlen, List.take_add_one, hcode, ← h.gets]
    rfl
  · rw [hlen]
    exact hlt
  · rw [hlen]
    show s.puts.length < _
    omega
  · show (s.kb.rindex + 1) % KEYBOARD_BUFFER_SIZE = _
    rw [hlen, h.rindex, Nat.mod_add_mod]

-- =========================================================== the claims

theorem heard (h : Kept s) : s.Heard := by
  intro hin
  obtain ⟨k, -, n, hk, hn⟩ := hin
  have hlt := h.held k n hk
  rw [h.reads, List.mem_range] at hn
  exact h.available_iff.mpr (by omega)

theorem inOrder (h : Kept s) : s.InOrder := by
  refine ⟨?_, ?_, ?_⟩
  · rw [h.gets]
    exact List.take_sublist _ _
  · rw [h.reads]
    exact List.pairwise_lt_range
  · have hle := h.le
    rw [h.reads]
    apply List.ext_getElem
    · simp
    · intro i hi _
      rw [List.length_map] at hi
      have hcode : s.gets[i]? = s.puts[i]? :=
        (congrArg (·[i]?) h.gets).trans (List.getElem?_take_of_lt hi)
      rw [List.getElem?_eq_getElem hi] at hcode
      rw [List.getElem_map, List.getElem_map, List.getElem_range]
      exact hcode

/-- A step that is not a put into a full buffer loses no pending code. -/
theorem losesFew (h : Kept s) (hs : s.next e = some s')
    (hfull : ∀ c, e = .put c → ¬ Full s) : s.LosesFew e s' := by
  intro hlost
  obtain ⟨n, hpend, hgone, hread⟩ := hlost
  refine absurd hpend ?_
  cases e with
  | put c =>
      obtain rfl : s.put c = s' := Option.some.inj hs
      have hlen : (s.put c).puts.length = s.puts.length + 1 :=
        List.length_append
      have hle := h.le
      rw [(h.put (hfull c rfl) c).readable_iff, hlen] at hgone
      unfold pending
      rw [List.mem_append, h.readable_iff, List.mem_singleton,
        Option.some.injEq]
      have hsame : (s.put c).gets.length = s.gets.length := rfl
      omega
  | get =>
      obtain ⟨hav, rfl⟩ := of_next_get hs
      have hk := h.get hav
      have hsame : s.get.puts.length = s.puts.length := rfl
      rw [hk.reads, List.mem_range] at hread
      rw [hk.readable_iff] at hgone
      unfold pending
      rw [h.readable_iff]
      omega

end Kept

-- ================================================================= runs

/-- A code is written and read after it is put. -/
structure Dated (s : Keyboard) : Prop where
  held : ∀ k n, s.holds k = some n → n < s.puts.length
  read : ∀ n ∈ s.reads, n < s.puts.length

theorem Dated.step (h : Dated s) (hs : Step s e s') : Dated s' := by
  cases e with
  | put c =>
      obtain rfl : s.put c = s' := Option.some.inj hs
      have hlen : (s.put c).puts.length = s.puts.length + 1 :=
        List.length_append
      refine ⟨fun k n hk => ?_, fun n hn => ?_⟩
      · have hold : Function.update s.holds s.kb.windex
            (some s.puts.length) k = some n := hk
        rw [Function.update_apply] at hold
        split at hold
        · cases hold
          omega
        · have hlt := h.held k n hold
          omega
      · have hlt := h.read n hn
        omega
  | get =>
      obtain ⟨-, rfl⟩ := of_next_get hs
      refine ⟨h.held, fun n hn => ?_⟩
      have hin : n ∈ s.reads ++ (s.holds s.kb.rindex).toList := hn
      rcases List.mem_append.mp hin with hin | hin
      · exact h.read n hin
      · exact h.held _ n (Option.mem_toList.mp hin)

/-- The put that lets the indices meet loses all that was pending. -/
theorem Dated.put_full_loses (h : Dated s) (hfull : Full s) (c : UInt8) :
    ¬ s.LosesFew (.put c) (s.put c) := by
  have hcount : (s.put c).kb.count = 0 := by
    have hmeet : (s.put c).kb.windex = (s.put c).kb.rindex := hfull
    unfold KbdBuf.count
    rw [hmeet, Nat.add_sub_cancel_left]
    exact Nat.mod_self _
  have hnone : (s.put c).readable = [] := by
    unfold readable
    rw [hcount]
    rfl
  intro hfew
  have hnew : s.puts.length ∉ (s.put c).reads :=
    fun hin => Nat.lt_irrefl _ (h.read _ hin)
  obtain ⟨-, hleft⟩ := hfew ⟨s.puts.length, by simp [pending],
    by simp [hnone], hnew⟩
  have hempty : (s.pending (.put c)).filter (· ∈ (s.put c).readable) = [] :=
    List.filter_eq_nil_iff.mpr (by simp [hnone])
  rw [hempty] at hleft
  exact absurd hleft (by decide)

/-- The keyboard buffer loses nothing silently exactly as long as it is
never full when a code is put into it.

While no code is put into a full buffer, the codes put are those read and
then those in the ring (`Kept`). A put that fills the ring all the way lets
the indices meet, and the buffer says that it is empty. -/
theorem run_losesNothing_iff {buffer : Vector UInt8 KEYBOARD_BUFFER_SIZE}
    (hr : Run Step (Keyboard.new buffer) tr s) :
    LosesNothing tr s ↔ ∀ p ∈ tr, ∀ c, p.2 = .put c → ¬ p.1.Full := by
  constructor
  · intro hl p hp c he hfull
    have hdated : Dated p.1 := hr.invariant_before (fun _ _ => True)
      (fun _ _ => trivial) ⟨nofun, nofun⟩
      (fun _ _ _ h _ hs => h.step hs) p hp
    apply hdated.put_full_loses hfull c
    have hfew := (hl.1 p hp).2.2 (p.1.put c)
    rw [he] at hfew
    exact hfew rfl
  · intro hroom
    have hstep : ∀ s e s', Kept s →
        (∀ c, e = KbdEvent.put c → ¬ s.Full) → Step s e s' → Kept s' := by
      intro s e s' hk hok hs
      cases e with
      | put c =>
          obtain rfl : s.put c = s' := Option.some.inj hs
          exact hk.put (hok c rfl) c
      | get =>
          obtain ⟨hav, rfl⟩ := of_next_get hs
          exact hk.get hav
    have hend : Kept s := hr.invariant _ hroom (Kept.new buffer) hstep
    refine ⟨fun p hp => ?_, hend.heard, hend.inOrder⟩
    have hk : Kept p.1 :=
      hr.invariant_before _ hroom (Kept.new buffer) hstep p hp
    exact ⟨hk.heard, hk.inOrder,
      fun s' hs => hk.losesFew hs (hroom p hp)⟩

-- =========================================================== both kinds

/-- A keyboard with nothing in its buffer. -/
def quiet : Keyboard := Keyboard.new (Vector.replicate _ 0)

/-- Two keys, of which one is read before the other comes. -/
theorem run_losesNothing_typed : ∃ tr s, Run Step quiet tr s ∧
    s.gets = [0x1e] ∧ s.puts = [0x1e, 0x30] ∧ LosesNothing tr s := by
  have hfollow : (Run.follow next
      (fun s _ => (s.kb.windex + 1) % KEYBOARD_BUFFER_SIZE != s.kb.rindex)
      [.put 0x1e, .get, .put 0x30] quiet).map (fun s => (s.gets, s.puts))
      = some ([0x1e], [0x1e, 0x30]) := rfl
  obtain ⟨tr, s, hr, hok, hv⟩ :=
    Run.of_follow_map (fun _ _ _ hs => hs) hfollow
  rw [Prod.mk.injEq] at hv
  refine ⟨tr, s, hr, hv.1, hv.2, ?_⟩
  refine (run_losesNothing_iff hr).mpr fun p hp c _ => ?_
  exact bne_iff_ne.mp (hok p hp)

/-- Puts with no get between them. -/
theorem exists_run_puts (n : Nat) : ∃ tr s, Run Step quiet tr s ∧
    s.kb.rindex = 0 ∧ s.kb.windex = n % KEYBOARD_BUFFER_SIZE ∧
    s.puts.length = n ∧ s.gets = [] := by
  induction n with
  | zero => exact ⟨[], quiet, .nil, rfl, rfl, rfl, rfl⟩
  | succ n ih =>
      obtain ⟨tr, s, hr, hrindex, hwindex, hputs, hgets⟩ := ih
      refine ⟨_, s.put 0x1e, hr.snoc (put_step s 0x1e), hrindex, ?_, ?_,
        hgets⟩
      · show (s.kb.windex + 1) % KEYBOARD_BUFFER_SIZE = _
        rw [hwindex, Nat.mod_add_mod]
      · show (s.puts ++ [0x1e]).length = n + 1
        rw [List.length_append, hputs]
        rfl

/-- After 256 keys with no read among them the buffer says that there is
nothing to read. -/
theorem run_losesNothing_fails : ∃ tr s, Run Step quiet tr s ∧
    s.puts.length = 256 ∧ s.gets = [] ∧ s.kb.available = false ∧
    ¬ LosesNothing tr s := by
  obtain ⟨tr, s, hr, hrindex, hwindex, hputs, hgets⟩ := exists_run_puts 255
  have hfull : s.Full := by
    unfold Full
    rw [hwindex, hrindex]
    rfl
  have hdated : Dated s := hr.invariant (fun _ _ => True)
    (fun _ _ => trivial) ⟨nofun, nofun⟩ (fun _ _ _ h _ hs => h.step hs)
  refine ⟨_, s.put 0x1e, hr.snoc (put_step s 0x1e), ?_, hgets, ?_, ?_⟩
  · show (s.puts ++ [0x1e]).length = 256
    rw [List.length_append, hputs]
    rfl
  · have hmeet : (s.put 0x1e).kb.windex = (s.put 0x1e).kb.rindex := hfull
    unfold KbdBuf.available
    rw [hmeet]
    exact bne_self_eq_false _
  · intro hl
    exact hdated.put_full_loses hfull 0x1e
      ((hl.1 (s, .put 0x1e) (by simp)).2.2 _ rfl)

end Keyboard

end Ntibux
