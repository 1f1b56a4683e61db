/-
Every thread goes on from where it left off.

# What is saved

`Sound` says of every thread that what is saved for it is on its stack:
the words that the stub or `context_switch` pushed, and above them the
stack as it was (`Frame.Holds`), one frame below the other
(`Thread.Laid`). No step writes where another thread has something saved,
so a frame stays good until the thread comes back to it.

# What the steps do

Each of the sequences is one equation: the registers it leaves, and the
bytes it may have changed. These lie below the stack pointer it starts
from, but for the semaphore and, in `context_switch`, the word for the
stack pointer itself.
-/
import Ntibux.Kernel.Switch
import Ntibux.Kernel.Proofs.Context

namespace Ntibux

variable {i : Image} {c c' : Core} {b b' : Bytes} {ws : List Nat}
  {hi : Nat} {m m' m₀ : Machine} {t u : Thread} {f : Frame}
  {rest : List Frame} {l : Left}

-- ========================================================== the processor

namespace Cpu

variable {p : Cpu} {n : Nat}

/-- A push moves the stack pointer down by a word and writes there, as long
as the pointer does not wrap. -/
theorem push_eq {w : Nat} (h4 : 4 ≤ p.esp) (hlt : p.esp < 2 ^ 32) :
    p.push w = { p with
      esp := p.esp - 4, bytes := p.bytes.write32 (p.esp - 4) w } := by
  have h : u32 (p.esp + (2 ^ 32 - 4)) = p.esp - 4 := by
    unfold u32
    omega
  unfold push
  rw [h]

/-- A pop reads the word and moves the pointer up; the word stays in memory.
-/
theorem pop_eq (hlt : p.esp + 4 < 2 ^ 32) :
    p.pop = (p.top, { p with esp := p.esp + 4 }) := by
  unfold pop
  rw [u32_of_lt hlt]

/-- The words pushed make a row below the stack pointer. -/
theorem pushes_eq (hlen : 4 * ws.length ≤ p.esp) (hlt : p.esp < 2 ^ 32) :
    p.pushes ws = { p with
      esp := p.esp - 4 * ws.length, bytes := p.bytes.below p.esp ws } := by
  induction ws generalizing p with
  | nil => rfl
  | cons w ws ih =>
      rw [List.length_cons] at hlen
      have hstep : p.pushes (w :: ws) = (p.push w).pushes ws :=
        List.foldl_cons ..
      have hat : p.esp - 4 - 4 * ws.length
          = p.esp - 4 * (w :: ws).length := by
        rw [List.length_cons]
        omega
      have hlt' : p.esp - 4 < 2 ^ 32 := Nat.lt_of_le_of_lt (Nat.sub_le _ _) hlt
      rw [hstep, push_eq (by omega) hlt,
        ih (show 4 * ws.length ≤ p.esp - 4 by omega) hlt']
      simp only [hat]
      rfl

/-- `pushad` is eight pushes, and the stack pointer that it pushes is that
from before the first. -/
theorem pushad_eq (h : 32 ≤ p.esp) (hlt : p.esp < 2 ^ 32) :
    p.pushad = { p with
      esp := p.esp - 32
      bytes := p.bytes.below p.esp [p.eax, p.ecx, p.edx, p.ebx, p.esp, p.ebp,
        p.esi, p.edi] } :=
  pushes_eq h hlt

/-- The words at the stack pointer, one for each register. -/
theorem popad_eq (hn : p.esp = n) (h : n + 32 < 2 ^ 32) :
    p.popad = { p with
      edi := p.bytes.read32 n
      esi := p.bytes.read32 (n + 4)
      ebp := p.bytes.read32 (n + 8)
      ebx := p.bytes.read32 (n + 16)
      edx := p.bytes.read32 (n + 20)
      ecx := p.bytes.read32 (n + 24)
      eax := p.bytes.read32 (n + 28)
      esp := n + 32 } := by
  rw [← hn] at h ⊢
  have hstep : ∀ n ≤ 28, u32 (p.esp + n + 4) = p.esp + (n + 4) := by
    intro n hn
    rw [u32_of_lt (by omega), Nat.add_assoc]
  have h1 : u32 (p.esp + 4) = p.esp + 4 := u32_of_lt (by omega)
  have h2 := hstep 4 (by omega)
  have h3 := hstep 8 (by omega)
  have h4 := hstep 12 (by omega)
  have h5 := hstep 16 (by omega)
  have h6 := hstep 20 (by omega)
  have h7 := hstep 24 (by omega)
  have h8 := hstep 28 (by omega)
  simp only [Nat.reduceAdd] at h2 h3 h4 h5 h6 h7 h8
  cases p with
  | mk eax ebx ecx edx esi edi ebp esp eflags b =>
      simp only at h1 h2 h3 h4 h5 h6 h7 h8
      simp only [popad, pop_mk, h1, h2, h3, h4, h5, h6, h7, h8]

/-- The status flags of a comparison are a word. -/
theorem cmpStatus_lt (a b : Nat) : cmpStatus a b < 2 ^ 32 := by
  unfold cmpStatus
  simp only
  repeat' apply Nat.or_lt_two_pow
  all_goals
    split <;> decide

/-- So are the flags that `push_ints` leaves. -/
theorem pushIntsFlags_lt (count : Nat) {flags : Nat}
    (hf : flags < 2 ^ 32) : pushIntsFlags count flags < 2 ^ 32 := by
  have hcmp : (flags &&& not32 EFLAGS_IF) &&& not32 EFLAGS_STATUS
      ||| cmpStatus count 1 < 2 ^ 32 :=
    Nat.or_lt_two_pow (Nat.lt_of_le_of_lt (Nat.le_trans Nat.and_le_left
      Nat.and_le_left) hf) (cmpStatus_lt _ _)
  unfold pushIntsFlags
  dsimp only
  split
  · exact hcmp
  · exact Nat.or_lt_two_pow hcmp (by decide)

/-- A call of `push_ints` or `pop_ints` gives the registers back, and sets
the flags by what it has counted to. It writes the two words below the
stack pointer, and the semaphore. -/
theorem callInts_eq (hn : p.esp = n) (h8 : 8 ≤ n) (hlt : n < 2 ^ 32)
    (ha : p.eax < 2 ^ 32) (hf : p.eflags < 2 ^ 32)
    (hsem : i.semaphore + 4 ≤ n - 8 ∨ n ≤ i.semaphore) (delta : Nat) :
    ∃ b e, p.callInts i delta = { p with eflags := e, bytes := b }
      ∧ e = pushIntsFlags (b.read32 i.semaphore) p.eflags ∧ e < 2 ^ 32
      ∧ ∀ x, (x < n - 8 ∨ n ≤ x) →
        (x < i.semaphore ∨ i.semaphore + 4 ≤ x) → b x = p.bytes x := by
  rw [← hn] at h8 hlt hsem ⊢
  cases p with
  | mk eax ebx ecx edx esi edi ebp esp eflags b =>
      simp only at h8 hlt ha hf hsem ⊢
      have h1 : u32 (esp + (2 ^ 32 - 4)) = esp - 4 := by
        unfold u32
        omega
      have h2 : u32 (esp - 4 + (2 ^ 32 - 4)) = esp - 8 := by
        unfold u32
        omega
      have h3 : u32 (esp - 8 + 4) = esp - 4 := by
        unfold u32
        omega
      have h4 : u32 (esp - 4 + 4) = esp := by
        unfold u32
        omega
      obtain ⟨count, hcount⟩ : ∃ n, u32 (((b.write32 (esp - 4)
          i.back).write32 (esp - 8) eax).read32 i.semaphore + delta) = n :=
        ⟨_, rfl⟩
      have hback : (((b.write32 (esp - 4) i.back).write32 (esp - 8)
          eax).write32 i.semaphore count).read32 (esp - 8) = eax := by
        rw [Bytes.read32_write32_of_apart (by omega),
          Bytes.read32_write32_self ha]
      have hlt32 : count < 2 ^ 32 := by
        rw [← hcount]
        exact Nat.mod_lt _ (by decide)
      refine ⟨((b.write32 (esp - 4) i.back).write32 (esp - 8)
          eax).write32 i.semaphore count, pushIntsFlags count eflags, ?_, ?_,
        pushIntsFlags_lt count hf, ?_⟩
      · simp only [callInts, push_mk, cli, cmp, h1, h2, hcount, pop_mk, h3,
          hback]
        unfold pushIntsFlags
        dsimp only
        split
        · simp only [pop_mk, h4]
        · simp only [sti, pop_mk, h4]
      · rw [Bytes.read32_write32_self hlt32]
      · intro x hx hs
        rw [Bytes.write32_of_out hs, Bytes.write32_of_out (by omega),
          Bytes.write32_of_out (by omega)]

end Cpu

-- ====================================================== what is on a stack

/-- The stack of a handler: `int_registers`, from its first field on. -/
def Stub.row (s : Stub) (code : Option Nat) (c : Core) : List Nat :=
  [c.cpu.eax / 2 ^ 16 * 2 ^ 16 + c.ds, c.cpu.edi, c.cpu.esi, c.cpu.ebp,
    c.cpu.esp - 20, c.cpu.ebx, c.cpu.edx, c.cpu.ecx, c.cpu.eax]
      ++ s.words.reverse ++ code.toList ++ [c.eip, c.cs, c.cpu.eflags]

/-- The dummy code is there exactly when there is none. -/
theorem Stub.length_words {s : Stub} {code : Option Nat}
    (hcode : code.isSome = s.hasCode) :
    s.words.length + code.toList.length = 2 := by
  cases s <;> cases code <;> simp_all [Stub.words, Stub.hasCode]

/-- `eax` is a word still when the data segment was moved to its lower half.
-/
theorem Core.Ok.data_lt (hok : c.Ok) :
    c.cpu.eax / 2 ^ 16 * 2 ^ 16 + c.ds < 2 ^ 32 := by
  have ha := hok.eax
  have hd := hok.ds
  omega

/-- What the processor pushes at an interrupt, in this order. -/
def Core.given (c : Core) (code : Option Nat) : List Nat :=
  [c.cpu.eflags, c.cs, c.eip] ++ code.toList

/-- What the stub and the common handler push behind it. -/
def Stub.saved (s : Stub) (c : Core) : List Nat :=
  s.words ++ [c.cpu.eax, c.cpu.ecx, c.cpu.edx, c.cpu.ebx, c.cpu.esp - 20,
    c.cpu.ebp, c.cpu.esi, c.cpu.edi] ++ [c.cpu.eax / 2 ^ 16 * 2 ^ 16 + c.ds]

/-- What the CPU pushes: three words, and the error code of the exceptions
that have one. -/
theorem Core.length_given (c : Core) (code : Option Nat) :
    (c.given code).length = 3 + code.toList.length := by
  unfold Core.given
  rw [List.length_append]
  rfl

/-- What the stub pushes on top of it: its own words, those of `pushad`, and
the data segment. -/
theorem Stub.length_saved (s : Stub) (c : Core) :
    (s.saved c).length = s.words.length + 9 := by
  simp [Stub.saved]

/-- In memory, the words of the stub lie below those of the CPU, each in the
order they were pushed in. -/
theorem Stub.row_split (s : Stub) (code : Option Nat) (c : Core) :
    s.row code c = (s.saved c).reverse ++ (c.given code).reverse := by
  unfold Stub.row Stub.saved Core.given
  cases code <;> simp

/-- All of them are words, since the registers are. -/
theorem Core.Ok.given_lt {code : Option Nat} (hok : c.Ok)
    (hword : ∀ w ∈ code, w < 2 ^ 32) : ∀ w ∈ c.given code, w < 2 ^ 32 := by
  intro w hw
  rcases List.mem_append.mp hw with hw | hw
  · simp only [List.mem_cons, List.not_mem_nil, or_false] at hw
    rcases hw with rfl | rfl | rfl
    · exact hok.eflags
    · exact Nat.lt_trans hok.cs (by decide)
    · exact hok.eip
  · exact hword w (Option.mem_toList.mp hw)

theorem Core.Ok.saved_lt {s : Stub} (hok : c.Ok)
    (hs : ∀ w ∈ s.words, w < 2 ^ 32) : ∀ w ∈ s.saved c, w < 2 ^ 32 := by
  intro w hw
  unfold Stub.saved at hw
  rw [List.append_assoc] at hw
  rcases List.mem_append.mp hw with hw | hw
  · exact hs w hw
  · simp only [List.cons_append, List.nil_append, List.mem_cons,
      List.not_mem_nil, or_false] at hw
    have hesp := hok.esp
    have hdata := hok.data_lt
    rcases hw with rfl | rfl | rfl | rfl | rfl | rfl | rfl | rfl | rfl
    · exact hok.eax
    · exact hok.ecx
    · exact hok.edx
    · exact hok.ebx
    · omega
    · exact hok.ebp
    · exact hok.esi
    · exact hok.edi
    · exact hdata

/-- The CPU's part of an interrupt: the words below the stack pointer, the
gate's flags masked, and the kernel's code segment. -/
theorem Core.Ok.deliver_eq (hok : c.Ok) (code : Option Nat)
    (hroom : 4 * (c.given code).length ≤ c.cpu.esp) :
    c.deliver code = { c with
      cpu := { c.cpu with
        esp := c.cpu.esp - 4 * (c.given code).length
        bytes := c.cpu.bytes.below c.cpu.esp (c.given code)
        eflags := c.cpu.eflags &&& not32 EFLAGS_GATE }
      cs := SS_KCODE } := by
  unfold Core.deliver
  rw [show [c.cpu.eflags, c.cs, c.eip] ++ code.toList = c.given code from rfl,
    Cpu.pushes_eq hroom hok.esp]

/-- The words are written below one another, those of the stub, the
registers, and the selector. -/
theorem Stub.below_saved {s : Stub} {sp : Nat} (b : Bytes)
    (h20 : sp - 4 * s.words.length = c.cpu.esp - 20) :
    b.below sp (s.saved c)
      = ((b.below sp s.words).below (c.cpu.esp - 20) [c.cpu.eax,
        c.cpu.ecx, c.cpu.edx, c.cpu.ebx, c.cpu.esp - 20, c.cpu.ebp,
        c.cpu.esi, c.cpu.edi]).write32 (c.cpu.esp - 56)
          (c.cpu.eax / 2 ^ 16 * 2 ^ 16 + c.ds) := by
  unfold Stub.saved
  rw [Bytes.below_append, Bytes.below_append, h20, List.length_append]
  have hat : sp - 4 * (s.words.length + [c.cpu.eax, c.cpu.ecx, c.cpu.edx,
      c.cpu.ebx, c.cpu.esp - 20, c.cpu.ebp, c.cpu.esi,
      c.cpu.edi].length) = c.cpu.esp - 52 := by
    rw [show [c.cpu.eax, c.cpu.ecx, c.cpu.edx, c.cpu.ebx,
      c.cpu.esp - 20, c.cpu.ebp, c.cpu.esi, c.cpu.edi].length = 8
        from rfl]
    omega
  rw [hat]
  rfl

/-- An interrupt up to the C handler: where the selectors and the stack
pointer are, and what is on the stack. -/
theorem Core.stub_eq {s : Stub} {code : Option Nat} (hok : c.Ok)
    (hcode : code.isSome = s.hasCode)
    (hword : ∀ w ∈ code, w < 2 ^ 32) (hs : ∀ w ∈ s.words, w < 2 ^ 32)
    (hroom : 128 ≤ c.cpu.esp)
    (hsem : i.semaphore + 4 ≤ c.cpu.esp - 128 ∨ c.cpu.esp ≤ i.semaphore) :
    ∃ eax e b, (c.deliver code).stub i s
        = { cpu := { c.cpu with
              eax := eax, esp := c.cpu.esp - 60, eflags := e, bytes := b }
            eip := s.handler i, cs := SS_KCODE, ds := SS_KDATA
            es := SS_KDATA, fs := SS_KDATA, gs := SS_KDATA }
      ∧ eax < 2 ^ 32 ∧ e < 2 ^ 32
      ∧ b.Words (c.cpu.esp - 56) (s.row code c)
      ∧ ∀ x, (x < c.cpu.esp - 128 ∨ c.cpu.esp ≤ x) →
        (x < i.semaphore ∨ i.semaphore + 4 ≤ x) → b x = c.cpu.bytes x := by
  have hlen := Stub.length_words hcode
  have hflen := c.length_given code
  have hslen := s.length_saved c
  have hlt := hok.esp
  have hdeliver := hok.deliver_eq code (by omega)
  obtain ⟨sp, hsp⟩ : ∃ sp, c.cpu.esp - 4 * (c.given code).length = sp :=
    ⟨_, rfl⟩
  rw [hsp] at hdeliver
  have hgate : c.cpu.eflags &&& not32 EFLAGS_GATE < 2 ^ 32 :=
    Nat.lt_of_le_of_lt Nat.and_le_left hok.eflags
  have hcpu : (c.deliver code).cpu.esp = sp
      ∧ (c.deliver code).cpu.eax < 2 ^ 32
      ∧ (c.deliver code).cpu.eflags < 2 ^ 32 := by
    rw [hdeliver]
    exact ⟨rfl, hok.eax, hgate⟩
  have hoff : i.semaphore + 4 ≤ sp - 8 ∨ sp ≤ i.semaphore := by omega
  -- `pop_ints` comes first, below what the processor has pushed
  obtain ⟨b₁, e, hcall, -, he, hb₁⟩ := Cpu.callInts_eq hcpu.1 (by omega)
    (by omega) hcpu.2.1 hcpu.2.2 hoff POP_INTS
  rw [hdeliver] at hcall hb₁
  simp only at hcall hb₁
  have h56 : sp - 4 * (s.saved c).length = c.cpu.esp - 56 := by omega
  have h20 : sp - 4 * s.words.length = c.cpu.esp - 20 := by omega
  have h52 : c.cpu.esp - 20 - 32 = c.cpu.esp - 52 := by omega
  have h56' : u32 (c.cpu.esp - 52 + (2 ^ 32 - 4)) = c.cpu.esp - 56 := by
    unfold u32
    omega
  have h60 : u32 (c.cpu.esp - 56 + (2 ^ 32 - 4)) = c.cpu.esp - 60 := by
    unfold u32
    omega
  refine ⟨(c.cpu.eax / 2 ^ 16 * 2 ^ 16 + c.ds) / 2 ^ 16 * 2 ^ 16 + SS_KDATA,
    e, (b₁.below sp (s.saved c)).write32 (c.cpu.esp - 60) i.handlerBack, ?_,
    ?_, he, ?_, ?_⟩
  · rw [Stub.below_saved b₁ h20, hdeliver]
    unfold Core.stub
    simp only [hcall]
    rw [Cpu.pushes_eq (show 4 * s.words.length ≤ sp by omega)
      (show sp < 2 ^ 32 by omega)]
    rw [Cpu.pushad_eq]
    · simp only [h20, h52, Cpu.push_mk, h56', h60]
    · show 32 ≤ sp - 4 * s.words.length
      omega
    · show sp - 4 * s.words.length < 2 ^ 32
      omega
  · have ha := hok.eax
    have hd := hok.ds
    unfold SS_KDATA
    omega
  · -- the processor's words are above those of the stub
    have hhigh : (c.cpu.bytes.below c.cpu.esp (c.given code)).Words sp
        (c.given code).reverse := by
      rw [← hsp]
      exact Bytes.words_below (by omega) (hok.given_lt hword)
    have hlow : (b₁.below sp (s.saved c)).Words (c.cpu.esp - 56)
        (s.saved c).reverse := by
      rw [← h56]
      exact Bytes.words_below (by omega) (hok.saved_lt hs)
    rw [s.row_split, Bytes.words_append]
    refine ⟨hlow.congr fun x h1 h2 => Bytes.write32_of_out (by omega) _, ?_⟩
    have hat : c.cpu.esp - 56 + 4 * (s.saved c).reverse.length = sp := by
      rw [List.length_reverse]
      omega
    rw [hat]
    refine hhigh.congr fun x h1 h2 => ?_
    rw [List.length_reverse] at h2
    rw [Bytes.write32_of_out (by omega), Bytes.below_of_out (by omega)
      (.inr h1)]
    exact hb₁ x (.inr h1) (by omega)
  · intro x hx hsem'
    rw [Bytes.write32_of_out (by omega), Bytes.below_of_out (by omega)
      (by omega), hb₁ x (by omega) hsem', Bytes.below_of_out (by omega)
      (by omega)]

/-- The registers are read back from the row, and the stack pointer is at
the words for `iret`. -/
theorem Core.leave_eq {s : Stub} {code : Option Nat} (hok : c.Ok)
    (hroom : 128 ≤ c.cpu.esp)
    (hsem : i.semaphore + 4 ≤ c.cpu.esp - 128 ∨ c.cpu.esp ≤ i.semaphore)
    (hesp : c'.cpu.esp = c.cpu.esp - 56) (hflags : c'.cpu.eflags < 2 ^ 32)
    (hrow : c'.cpu.bytes.Words (c.cpu.esp - 56) (s.row code c)) :
    ∃ e b, c'.leave i = { c' with
        cpu := { c.cpu with esp := c.cpu.esp - 12, eflags := e, bytes := b }
        eip := i.iretAt, ds := c.ds, es := c.ds, fs := c.ds, gs := c.ds }
      ∧ e < 2 ^ 32
      ∧ ∀ x, (x < c.cpu.esp - 128 ∨ c.cpu.esp - 12 ≤ x) →
        (x < i.semaphore ∨ i.semaphore + 4 ≤ x) →
          b x = c'.cpu.bytes x := by
  have hlt := hok.esp
  have hds : (c.cpu.eax / 2 ^ 16 * 2 ^ 16 + c.ds) % 2 ^ 16 = c.ds := by
    have hd := hok.ds
    omega
  unfold Stub.row at hrow
  rw [Bytes.words_append, Bytes.words_append, Bytes.words_append] at hrow
  obtain ⟨⟨⟨hregs, -⟩, -⟩, -⟩ := hrow
  simp only [Bytes.words_cons, Nat.add_assoc, Nat.reduceAdd] at hregs
  obtain ⟨hdata, hedi, hesi, hebp, -, hebx, hedx, hecx, heax, -⟩ := hregs
  obtain ⟨sp, hsp⟩ : ∃ sp, c.cpu.esp - 56 = sp := ⟨_, rfl⟩
  have h12 : c.cpu.esp - 12 = sp + 44 := by omega
  rw [hsp] at hesp hdata hedi hesi hebp hebx hedx hecx heax
  rw [h12]
  have hoff : i.semaphore + 4 ≤ sp + 44 - 8 ∨ sp + 44 ≤ i.semaphore := by
    omega
  obtain ⟨b, e, hcall, -, he, hb⟩ := Cpu.callInts_eq (n := sp + 44)
    (p := { c.cpu with
      esp := sp + 44, eflags := c'.cpu.eflags, bytes := c'.cpu.bytes })
    rfl (by omega) (by omega) hok.eax hflags hoff PUSH_INTS
  refine ⟨e, b, ?_, he, fun x hx hs => hb x (by omega) hs⟩
  have hpop : c'.cpu.pop = (c.cpu.eax / 2 ^ 16 * 2 ^ 16 + c.ds,
      { c'.cpu with esp := sp + 4 }) := by
    rw [Cpu.pop_eq (by omega), hesp]
    unfold Cpu.top
    rw [hesp, hdata]
  have h8 : u32 (sp + 4 + 32 + 8) = sp + 44 := u32_of_lt (by omega)
  unfold Core.leave
  simp only [hpop, hds]
  rw [Cpu.popad_eq (n := sp + 4) rfl]
  · simp only [Nat.add_assoc, Nat.reduceAdd, hedi, hesi, hebp, hebx, hedx,
      hecx, heax, h8]
    simp only at hcall
    rw [hcall]
  · omega

/-- `iret` takes three words off the stack: the code address, the segment
and the flags. -/
theorem Core.iret_eq {n eip cs eflags : Nat} (hn : c.cpu.esp = n)
    (hlt : n + 12 < 2 ^ 32) (hrow : c.cpu.bytes.Words n [eip, cs, eflags]) :
    c.iret = { c with
      cpu := { c.cpu with esp := n + 12, eflags := eflags }
      eip := eip, cs := cs % 2 ^ 16 } := by
  obtain ⟨heip, hcs, hflags, -⟩ := hrow
  have h4 : u32 (n + 4) = n + 4 := u32_of_lt (by omega)
  have h8 : u32 (n + 4 + 4) = n + 8 := u32_of_lt (by omega)
  have h12 : u32 (n + 8 + 4) = n + 12 := u32_of_lt (by omega)
  obtain ⟨⟨eax, ebx, ecx, edx, esi, edi, ebp, esp, flags, b⟩, eip', cs', ds,
    es, fs, gs⟩ := c
  simp only at hn heip hcs hflags
  subst hn
  rw [Nat.add_assoc] at hflags
  simp only [Core.iret, Cpu.popf, Cpu.pop_mk, heip, hcs, h4, h8, hflags, h12]

/-- The words that `context_switch` pushes. -/
def Core.pushed (i : Image) (c : Core) : List Nat :=
  [i.label, c.cpu.eflags &&& 0xfcffff, i.label, c.cpu.ecx, c.cpu.edx,
    c.cpu.ebx, c.cpu.esp - 8, c.cpu.ebp, c.cpu.esi, c.cpu.edi]

/-- The memory when the stack pointer is about to be changed. -/
def Core.parked (i : Image) (c : Core) : Bytes :=
  (c.cpu.bytes.below c.cpu.esp (c.pushed i)).write32 c.cpu.ecx
    (c.cpu.esp - 40)

/-- A switch: it pushes on the one stack, puts the stack pointer away, and
takes its registers off the other stack. -/
theorem Core.contextSwitch_eq {n : Nat} (hok : c.Ok) (hroom : 40 ≤ c.cpu.esp)
    (hn : c.cpu.edx = n) (hn44 : n + 44 ≤ 2 ^ 32)
    (hsem : i.semaphore + 4 ≤ n + 28 ∨ n + 36 ≤ i.semaphore) :
    ∃ e b, c.contextSwitch i = { c with
        cpu := {
          edi := (c.parked i).read32 n
          esi := (c.parked i).read32 (n + 4)
          ebp := (c.parked i).read32 (n + 8)
          ebx := (c.parked i).read32 (n + 16)
          edx := (c.parked i).read32 (n + 20)
          ecx := (c.parked i).read32 (n + 24)
          eax := (c.parked i).read32 (n + 28)
          esp := n + 36, eflags := e, bytes := b }
        eip := i.firstRet }
      ∧ e = pushIntsFlags (b.read32 i.semaphore)
        ((c.parked i).read32 (n + 32))
      ∧ e < 2 ^ 32
      ∧ ∀ x, (x < n + 28 ∨ n + 36 ≤ x) →
        (x < i.semaphore ∨ i.semaphore + 4 ≤ x) → b x = c.parked i x := by
  subst hn
  have hlt := hok.esp
  have hword := fun a => Bytes.read32_lt (c.parked i) a
  have hoff : i.semaphore + 4 ≤ c.cpu.edx + 36 - 8
      ∨ c.cpu.edx + 36 ≤ i.semaphore := by omega
  obtain ⟨b, e, hcall, hflags, he, hb⟩ := Cpu.callInts_eq (n := c.cpu.edx + 36)
    (p := {
      edi := (c.parked i).read32 c.cpu.edx
      esi := (c.parked i).read32 (c.cpu.edx + 4)
      ebp := (c.parked i).read32 (c.cpu.edx + 8)
      ebx := (c.parked i).read32 (c.cpu.edx + 16)
      edx := (c.parked i).read32 (c.cpu.edx + 20)
      ecx := (c.parked i).read32 (c.cpu.edx + 24)
      eax := (c.parked i).read32 (c.cpu.edx + 28)
      eflags := (c.parked i).read32 (c.cpu.edx + 32)
      esp := c.cpu.edx + 36
      bytes := c.parked i })
    rfl (by omega) (by omega) (hword _) (hword _) hoff PUSH_INTS
  refine ⟨e, b, ?_, hflags, he, fun x hx hs => hb x (by omega) hs⟩
  have h4 : u32 (c.cpu.esp + (2 ^ 32 - 4)) = c.cpu.esp - 4 := by
    unfold u32
    omega
  have h8 : u32 (c.cpu.esp - 4 + (2 ^ 32 - 4)) = c.cpu.esp - 8 := by
    unfold u32
    omega
  have h40 : c.cpu.esp - 8 - 32 = c.cpu.esp - 40 := by omega
  -- the two pushes and `pushad` are ten words in a row
  have hparked : ((((c.cpu.bytes.write32 (c.cpu.esp - 4) i.label).write32
      (c.cpu.esp - 8) (c.cpu.eflags &&& 0xfcffff)).below (c.cpu.esp - 8)
        [i.label, c.cpu.ecx, c.cpu.edx, c.cpu.ebx, c.cpu.esp - 8,
          c.cpu.ebp, c.cpu.esi, c.cpu.edi]).write32 c.cpu.ecx
            (c.cpu.esp - 40)) = c.parked i := by
    unfold Core.parked Core.pushed
    have happ := @Bytes.below_append c.cpu.bytes c.cpu.esp
      [i.label, c.cpu.eflags &&& 0xfcffff] [i.label, c.cpu.ecx, c.cpu.edx,
        c.cpu.ebx, c.cpu.esp - 8, c.cpu.ebp, c.cpu.esi, c.cpu.edi]
    have h44 : c.cpu.esp - 4 - 4 = c.cpu.esp - 8 := by omega
    simp only [List.cons_append, List.nil_append, List.length_cons,
      List.length_nil, Nat.reduceAdd, Nat.reduceMul] at happ
    rw [happ]
    simp only [Bytes.below, h44]
  unfold Core.contextSwitch Cpu.pushf
  simp only [Cpu.push, h4, h8]
  rw [Cpu.pushad_eq]
  · simp only [h40, hparked]
    rw [Cpu.load_eq _ hn44]
    simp only
    rw [hcall]
  · show 32 ≤ c.cpu.esp - 8
    omega
  · show c.cpu.esp - 8 < 2 ^ 32
    omega

-- ========================================================== what is saved

/-- The stack from where the thread left off. -/
def Above (hi : Nat) (c : Core) (b : Bytes) : Prop :=
  ∀ x, c.cpu.esp ≤ x → x < hi → b x = c.cpu.bytes x

/-- What is on the stack for a thread to come back to. -/
def Frame.Holds (i : Image) (hi : Nat) (b : Bytes) : Frame → Prop
  | ⟨.fresh entry killMe, _⟩ =>
      b.read32 (hi - 8) = entry ∧ b.read32 (hi - 4) = killMe
  | ⟨.switched c, none⟩ =>
      b.Words (c.cpu.esp - 40) (c.pushed i).reverse ∧ Above hi c b
  | ⟨.switched c, some _⟩ =>
      b.read32 (c.cpu.esp - 4) = i.label ∧ Above hi c b
  | ⟨.interrupted s c, none⟩ =>
      (∃ code : Option Nat, code.isSome = s.hasCode
        ∧ b.Words (c.cpu.esp - 56) (s.row code c)) ∧ Above hi c b
  | ⟨.interrupted _ c, some _⟩ =>
      b.Words (c.cpu.esp - 12) [c.eip, c.cs, c.cpu.eflags] ∧ Above hi c b

/-- The processor is at the instruction that takes the thread back. -/
def Left.Ready (hi count : Nat) (c' : Core) : Left → Prop
  | .fresh _ _ => c'.cpu.esp = hi - 8
  | .switched c => SameRegisters c.cpu c'.cpu
      ∧ c'.cpu.eflags = pushIntsFlags count (c.cpu.eflags &&& 0xfcffff)
      ∧ c'.cpu.esp = c.cpu.esp - 4
  | .interrupted _ c => SameRegisters c.cpu c'.cpu ∧ c'.cpu.eax = c.cpu.eax
      ∧ c'.cpu.esp = c.cpu.esp - 12 ∧ c'.ds = c.ds ∧ c'.es = c.ds
      ∧ c'.fs = c.ds ∧ c'.gs = c.ds

/-- The same, if the innermost of the frames has been loaded. -/
def Met (hi : Nat) (c : Core) : List Frame → Prop
  | ⟨l, some n⟩ :: _ => l.Ready hi n c
  | _ => True

/-- The thread was in order when it left off, with `rest` saved before. -/
structure LeftFrom (lo hi : Nat) (rest : List Frame) (c : Core) : Prop where
  ok : c.Ok
  room : lo + 128 ≤ c.cpu.esp
  below : c.cpu.esp ≤ baseOf hi rest
  met : Met hi c rest

def Left.From (lo hi : Nat) (rest : List Frame) : Left → Prop
  | .fresh _ _ => rest = [] ∧ lo + 128 ≤ hi
  | .switched c => LeftFrom lo hi rest c ∧ c.cpu.esp + 4 ≤ baseOf hi rest
      ∧ ∀ l n r, rest ≠ ⟨l, some n⟩ :: r
  | .interrupted _ c => LeftFrom lo hi rest c

/-- All that is saved for a thread. -/
def Laid (i : Image) (lo hi : Nat) (b : Bytes) : List Frame → Prop
  | [] => True
  | f :: rest =>
      f.Holds i hi b ∧ f.left.From lo hi rest ∧ Laid i lo hi b rest

/-- A frame lies above the end of its stack, and below the frames that were
there before it. -/
theorem Left.From.addr_le {lo : Nat} {o : Option Nat} (h : l.From lo hi rest) :
    lo ≤ Frame.addr hi ⟨l, o⟩ ∧ Frame.addr hi ⟨l, o⟩ ≤ baseOf hi rest := by
  cases l with
  | fresh entry killMe =>
      obtain ⟨rfl, hroom⟩ := h
      cases o
      all_goals
        simp only [Frame.addr, baseOf]
        omega
  | switched c =>
      obtain ⟨h, -⟩ := h
      have hroom := h.room
      have hbelow := h.below
      cases o
      all_goals
        simp only [Frame.addr]
        omega
  | interrupted s c =>
      have hroom := h.room
      have hbelow := h.below
      cases o
      all_goals
        simp only [Frame.addr]
        omega

/-- The base is on the stack. -/
theorem Laid.base_le {lo : Nat} {fs : List Frame} (hle : lo ≤ hi)
    (h : Laid i lo hi b fs) : lo ≤ baseOf hi fs ∧ baseOf hi fs ≤ hi := by
  induction fs with
  | nil => exact ⟨hle, Nat.le_refl _⟩
  | cons f rest ih =>
      obtain ⟨-, hfrom, hrest⟩ := h
      have haddr := hfrom.addr_le (o := f.loaded)
      exact ⟨haddr.1, Nat.le_trans haddr.2 (ih hrest).2⟩

/-- A frame is in its own bytes. -/
theorem Frame.Holds.congr {lo : Nat} (h : f.Holds i hi b)
    (hfrom : f.left.From lo hi rest) (hbase : baseOf hi rest ≤ hi)
    (heq : ∀ x, f.addr hi ≤ x → x < hi → b' x = b x) :
    f.Holds i hi b' := by
  obtain ⟨l, o⟩ := f
  cases l with
  | fresh entry killMe =>
      obtain ⟨-, hroom⟩ := hfrom
      -- a thread that has not begun is two words of its stack
      have hword : ∀ n ≤ 8, 4 ≤ n → b'.read32 (hi - n) = b.read32 (hi - n) := by
        intro n hn hn4
        refine Bytes.read32_congr fun x h1 h2 => heq x ?_ (by omega)
        cases o
        all_goals
          simp only [Frame.addr]
          omega
      exact ⟨(hword 8 (by omega) (by omega)).trans h.1,
        (hword 4 (by omega) (by omega)).trans h.2⟩
  | switched c =>
      obtain ⟨⟨-, hroom, hbelow, -⟩, -⟩ := hfrom
      cases o with
      | none =>
          obtain ⟨hrow, habove⟩ := h
          simp only [Frame.addr] at heq
          refine ⟨hrow.congr fun x h1 h2 => heq x h1 ?_, fun x h1 h2 =>
            (heq x (by omega) h2).trans (habove x h1 h2)⟩
          have hlen : (c.pushed i).reverse.length = 10 := rfl
          omega
      | some n =>
          obtain ⟨hrow, habove⟩ := h
          simp only [Frame.addr] at heq
          refine ⟨?_, fun x h1 h2 =>
            (heq x (by omega) h2).trans (habove x h1 h2)⟩
          rw [← hrow]
          exact Bytes.read32_congr fun x h1 h2 => heq x h1 (by omega)
  | interrupted s c =>
      obtain ⟨-, hroom, hbelow, -⟩ := hfrom
      cases o with
      | none =>
          obtain ⟨⟨code, hcode, hrow⟩, habove⟩ := h
          simp only [Frame.addr] at heq
          refine ⟨⟨code, hcode, hrow.congr fun x h1 h2 => heq x h1 ?_⟩,
            fun x h1 h2 => (heq x (by omega) h2).trans (habove x h1 h2)⟩
          have hlen : (s.row code c).length
              = 12 + (s.words.length + code.toList.length) := by
            simp only [Stub.row, List.length_append, List.length_cons,
              List.length_nil, List.length_reverse]
            omega
          rw [Stub.length_words hcode] at hlen
          omega
      | some n =>
          obtain ⟨hrow, habove⟩ := h
          simp only [Frame.addr] at heq
          refine ⟨hrow.congr fun x h1 h2 => heq x h1 ?_, fun x h1 h2 =>
            (heq x (by omega) h2).trans (habove x h1 h2)⟩
          simp only [List.length_cons, List.length_nil] at h2
          omega

/-- What is saved stays, as long as nothing is written there. -/
theorem Laid.congr {lo : Nat} {fs : List Frame} (hle : lo ≤ hi)
    (h : Laid i lo hi b fs)
    (heq : ∀ x, baseOf hi fs ≤ x → x < hi → b' x = b x) :
    Laid i lo hi b' fs := by
  induction fs with
  | nil => trivial
  | cons f rest ih =>
      obtain ⟨hf, hfrom, hrest⟩ := h
      have hbase := hrest.base_le hle
      have haddr := hfrom.addr_le (o := f.loaded)
      refine ⟨hf.congr hfrom hbase.2 heq, hfrom, ih hrest fun x h1 h2 =>
        heq x (Nat.le_trans haddr.2 h1) h2⟩

-- ============================================================== the return

/-- `ret` takes the code address off the stack. -/
theorem Core.ret_eq {n : Nat} (hn : c.cpu.esp = n) (hlt : n + 4 < 2 ^ 32) :
    c.ret = { c with
      cpu := { c.cpu with esp := n + 4 }, eip := c.cpu.bytes.read32 n } := by
  subst hn
  unfold Core.ret
  rw [Cpu.pop_eq hlt]
  rfl

/-- From the instruction that takes it back, the thread goes on where it
left off. -/
theorem Left.Ready.back {lo n : Nat} (hr : l.Ready hi n c)
    (hh : Frame.Holds i hi c.cpu.bytes ⟨l, some n⟩)
    (hfrom : l.From lo hi rest) (hbase : baseOf hi rest ≤ hi)
    (hlt : hi < 2 ^ 32) : l.Back i hi n (Machine.finish l c) := by
  cases l with
  | fresh entry killMe =>
      obtain ⟨-, hroom⟩ := hfrom
      obtain ⟨hentry, hkill⟩ := hh
      have h4 : hi - 8 + 4 = hi - 4 := by omega
      show Began hi entry killMe c.ret
      rw [Core.ret_eq hr (by omega), h4]
      exact ⟨rfl, hentry, hkill⟩
  | switched c₀ =>
      obtain ⟨⟨hok, hroom, hbelow, -⟩, hcall, -⟩ := hfrom
      obtain ⟨hlabel, habove⟩ := hh
      obtain ⟨hregs, hflags, hesp⟩ := hr
      have h4 : c₀.cpu.esp - 4 + 4 = c₀.cpu.esp := by omega
      show Switched i hi n c₀ c.ret
      rw [Core.ret_eq hesp (by omega), h4, hlabel]
      refine ⟨⟨hregs.ebx, hregs.ecx, hregs.edx, hregs.esi, hregs.edi,
        hregs.ebp⟩, hflags, rfl, rfl, ?_, habove⟩
      show c.cpu.bytes.read32 c₀.cpu.esp = c₀.cpu.bytes.read32 c₀.cpu.esp
      exact Bytes.read32_congr fun x h1 h2 => habove x h1 (by omega)
  | interrupted s c₀ =>
      obtain ⟨hok, hroom, hbelow, -⟩ := hfrom
      obtain ⟨hrow, habove⟩ := hh
      obtain ⟨hregs, heax, hesp, hsel⟩ := hr
      have h12 : c₀.cpu.esp - 12 + 12 = c₀.cpu.esp := by omega
      show Returned hi c₀ c.iret
      rw [Core.iret_eq hesp (by omega) hrow, h12]
      exact ⟨⟨hregs.ebx, hregs.ecx, hregs.edx, hregs.esi, hregs.edi,
        hregs.ebp⟩, heax, rfl, rfl, rfl, Nat.mod_eq_of_lt hok.cs, hsel,
        habove⟩

/-- For a thread that was switched out, to be back is what `Switched` says.
-/
theorem Left.Back.switched {n k : Nat}
    (h : (Left.switched c).Back i hi n c') (hn : n = k) :
    Switched i hi k c c' := hn ▸ h

/-- The processor is then where it was before, for what was saved
earlier. -/
theorem Left.Back.met {lo n : Nat} (hback : l.Back i hi n c)
    (hfrom : l.From lo hi rest) : Met hi c rest := by
  cases rest with
  | nil => trivial
  | cons f rest =>
      obtain ⟨l', o⟩ := f
      cases o with
      | none => trivial
      | some k =>
          cases l with
          | fresh entry killMe => exact absurd hfrom.1 (List.cons_ne_nil _ _)
          | switched c₀ => exact absurd rfl (hfrom.2.2 l' k rest)
          | interrupted s c₀ =>
              have hmet : l'.Ready hi k c₀ := hfrom.met
              obtain ⟨hregs, heax, hesp, -, hflags, -, ⟨hd, he, hf, hg⟩, -⟩ :=
                hback
              have hsame : ∀ {p : Cpu}, SameRegisters p c₀.cpu →
                  SameRegisters p c.cpu := fun h =>
                ⟨hregs.ebx.trans h.ebx, hregs.ecx.trans h.ecx,
                  hregs.edx.trans h.edx, hregs.esi.trans h.esi,
                  hregs.edi.trans h.edi, hregs.ebp.trans h.ebp⟩
              show l'.Ready hi k c
              cases l' with
              | fresh entry killMe => exact hesp.trans hmet
              | switched c₁ =>
                  exact ⟨hsame hmet.1, hflags.trans hmet.2.1,
                    hesp.trans hmet.2.2⟩
              | interrupted s' c₁ =>
                  obtain ⟨hr, ha, hs, hd', -⟩ := hmet
                  exact ⟨hsame hr, heax.trans ha, hesp.trans hs,
                    hd.trans hd', he.trans hd', hf.trans hd',
                    hg.trans hd'⟩

-- ========================================================= the invariant

/-- A piece of a stack is clear of the semaphore. -/
theorem Thread.Placed.semaphore_apart (hp : t.Placed i) {a n : Nat}
    (hlo : t.lo ≤ a) (hlt : a < n) (hhi : n ≤ t.hi) :
    i.semaphore + 4 ≤ a ∨ n ≤ i.semaphore := by
  by_contra hno
  refine hp.semaphore_off (max i.semaphore a) ?_ ?_ (.inl ⟨?_, ?_⟩)
  all_goals omega

/-- The word of the interrupts semaphore is in no thread's memory. -/
theorem Thread.Placed.off_semaphore (hp : t.Placed i) {x : Nat}
    (hx : t.Owns x) : x < i.semaphore ∨ i.semaphore + 4 ≤ x := by
  by_contra hno
  exact hp.semaphore_off x (by omega) (by omega) hx

theorem Thread.Apart.symm (h : t.Apart u) : u.Apart t :=
  fun x hu ht => h x ht hu

namespace Machine

/-- Everything that a thread needs to go on is there. -/
structure Sound (i : Image) (m : Machine) : Prop where
  image : i.Ok
  ok : m.core.Ok
  placed : ∀ t ∈ m.threads, t.Placed i
  apart : m.threads.Pairwise Thread.Apart
  laid : ∀ t ∈ m.threads, Laid i t.lo t.hi m.bytes t.frames
  above : m.current.lo ≤ m.core.cpu.esp
  below : m.core.cpu.esp ≤ m.current.base
  met : Met m.current.hi m.core m.current.frames
  parked : ∀ t ∈ m.others, (∃ l rest, t.frames = ⟨l, none⟩ :: rest
      ∧ ∀ s c, l ≠ .interrupted s c)
    ∧ m.bytes.read32 t.cell = t.base

/-- At the start there is one thread, with nothing of it on its stack. -/
theorem Initial.sound (hi : Initial i m) : Sound i m := by
  obtain ⟨hok, himage, hplaced, habove, hbelow, hframes, hothers⟩ := hi
  refine ⟨himage, hok, ?_, ?_, ?_, habove, ?_, ?_, ?_⟩
  · intro t ht
    unfold threads at ht
    rw [hothers, List.mem_singleton] at ht
    rw [ht]
    exact hplaced
  · unfold threads
    rw [hothers]
    exact List.pairwise_singleton _ _
  · intro t ht
    unfold threads at ht
    rw [hothers, List.mem_singleton] at ht
    rw [ht, hframes]
    trivial
  · unfold Thread.base
    rw [hframes]
    exact hbelow
  · rw [hframes]
    trivial
  · intro t ht
    rw [hothers] at ht
    cases ht

namespace Sound

variable (hs : Sound i m)
include hs

/-- What all threads have, the running one has. -/
theorem current_placed : m.current.Placed i :=
  hs.placed _ List.mem_cons_self

theorem current_laid :
    Laid i m.current.lo m.current.hi m.bytes m.current.frames :=
  hs.laid _ List.mem_cons_self

/-- The stack pointer that the running thread had before its topmost frame
is inside its stack. -/
theorem current_base : m.current.lo ≤ m.current.base
    ∧ m.current.base ≤ m.current.hi := by
  have hroom := hs.current_placed.room
  exact hs.current_laid.base_le (by omega)

/-- What happens on the running thread's stack is nobody else's. -/
theorem not_owns {x : Nat} (ht : t ∈ m.others) (hx : m.current.Owns x) :
    ¬t.Owns x :=
  (List.pairwise_cons.mp hs.apart).1 t ht x hx

/-- A thread that is not running keeps what is saved for it, while no byte
of its own changes. -/
theorem other (ht : t ∈ m.others) (heq : ∀ x, t.Owns x → b x = m.bytes x) :
    Laid i t.lo t.hi b t.frames
      ∧ ((∃ l rest, t.frames = ⟨l, none⟩ :: rest
          ∧ ∀ s c, l ≠ .interrupted s c)
        ∧ b.read32 t.cell = t.base) := by
  have hmem : t ∈ m.threads := List.mem_cons_of_mem _ ht
  have hroom := (hs.placed t hmem).room
  have hlaid := hs.laid t hmem
  have hbase := hlaid.base_le (by omega)
  obtain ⟨hframes, hcell⟩ := hs.parked t ht
  refine ⟨hlaid.congr (by omega) fun x h1 h2 =>
    heq x (.inl ⟨by omega, h2⟩), hframes, ?_⟩
  rw [← hcell]
  exact Bytes.read32_congr fun x h1 h2 => heq x (.inr ⟨h1, h2⟩)

/-- The running thread has moved on, and nobody else's bytes have
changed. -/
theorem moved {fs : List Frame} (hok : c.Ok)
    (hothers : ∀ t ∈ m.others, ∀ x, t.Owns x → c.cpu.bytes x = m.bytes x)
    (hlaid : Laid i m.current.lo m.current.hi c.cpu.bytes fs)
    (habove : m.current.lo ≤ c.cpu.esp)
    (hbelow : c.cpu.esp ≤ baseOf m.current.hi fs)
    (hmet : Met m.current.hi c fs) :
    Sound i ⟨c, { m.current with frames := fs }, m.others⟩ := by
  have hcons := List.pairwise_cons.mp hs.apart
  refine ⟨hs.image, hok, ?_, List.pairwise_cons.mpr ⟨hcons.1, hcons.2⟩, ?_,
    habove, hbelow, hmet, fun t ht => (hs.other ht (hothers t ht)).2⟩
  · intro t ht
    rcases List.mem_cons.mp ht with rfl | ht
    · have hp := hs.current_placed
      exact ⟨hp.room, hp.hi_lt, hp.cell_off, hp.semaphore_off⟩
    · exact hs.placed t (List.mem_cons_of_mem _ ht)
  · intro t ht
    rcases List.mem_cons.mp ht with rfl | ht
    · exact hlaid
    · exact (hs.other ht (hothers t ht)).1

end Sound

namespace Sound

/-- An interrupt puts one frame on the running stack, and writes nowhere
else: the pushes go below the stack pointer, and the other stacks lie apart.
-/
theorem interrupt {s : Stub} {code : Option Nat} (hs : Sound i m)
    (hroom : m.Room) (hcode : code.isSome = s.hasCode)
    (hword : ∀ w ∈ code, w < 2 ^ 32) (hwords : ∀ w ∈ s.words, w < 2 ^ 32) :
    Sound i ⟨(m.core.deliver code).stub i s,
      { m.current with
        frames := ⟨.interrupted s m.core, none⟩ :: m.current.frames },
      m.others⟩ := by
  have hok := hs.ok
  have hbase := hs.current_base
  have hbelow := hs.below
  have hplaced := hs.current_placed
  unfold Room at hroom
  have hsem : i.semaphore + 4 ≤ m.core.cpu.esp - 128
      ∨ m.core.cpu.esp ≤ i.semaphore :=
    hplaced.semaphore_apart (by omega) (by omega) (by omega)
  obtain ⟨eax, e, b, heq, heax, he, hrow, hb⟩ := Core.stub_eq (i := i) hok
    hcode hword hwords (by omega) hsem
  have hstack : ∀ x, m.core.cpu.esp ≤ x → x < m.current.hi →
      b x = m.core.cpu.bytes x := by
    intro x h1 h2
    exact hb x (.inr h1) (hplaced.off_semaphore (.inl ⟨by omega, h2⟩))
  rw [heq]
  refine hs.moved ?_ ?_ ?_ ?_ ?_ trivial
  · refine ⟨heax, hok.ebx, hok.ecx, hok.edx, hok.esi, hok.edi, hok.ebp, ?_,
      he, ?_, show SS_KCODE < 2 ^ 16 by decide,
      show SS_KDATA < 2 ^ 16 by decide⟩
    · have hlt := hok.esp
      show m.core.cpu.esp - 60 < 2 ^ 32
      omega
    · cases s with
      | pic nbr => exact hs.image.picHandler
      | _ => exact hs.image.handler
  · intro u hu x hx
    refine hb x ?_
      ((hs.placed u (List.mem_cons_of_mem _ hu)).off_semaphore hx)
    -- the other threads' stacks are not below this one's pointer
    by_contra hno
    exact hs.not_owns hu (.inl ⟨by omega, by omega⟩) hx
  · refine ⟨⟨⟨code, hcode, hrow⟩, hstack⟩, ⟨hok, hroom, hbelow, hs.met⟩,
      hs.current_laid.congr (by omega) fun x h1 h2 => hstack x ?_ h2⟩
    change m.current.base ≤ x at h1
    omega
  · show m.current.lo ≤ m.core.cpu.esp - 60
    omega
  · show m.core.cpu.esp - 60 ≤ m.core.cpu.esp - 56
    omega

/-- The handler has returned: the registers are taken back, and what is left
of the frame is for `iret`. The count of the semaphore at that point is
noted in the frame. -/
theorem leave {s : Stub} (hs : Sound i m)
    (hframes : m.current.frames = ⟨.interrupted s c, none⟩ :: rest)
    (hesp : m.core.cpu.esp = m.current.base) :
    Sound i ⟨m.core.leave i,
      { m.current with
        frames := ⟨.interrupted s c,
          some ((m.core.leave i).semaphore i)⟩ :: rest },
      m.others⟩ := by
  have hok := hs.ok
  have hplaced := hs.current_placed
  have hlaid := hs.current_laid
  have hbase := hs.current_base
  unfold Thread.base at hesp hbase
  rw [hframes] at hesp hlaid hbase
  obtain ⟨⟨⟨code, hcode, hrow⟩, habove⟩, hfrom, hrest⟩ := hlaid
  have hrbase := hrest.base_le (by omega)
  obtain ⟨hok₀, hroom₀, hbelow₀, -⟩ := id hfrom
  change m.core.cpu.esp = c.cpu.esp - 56 at hesp
  have hsem : i.semaphore + 4 ≤ c.cpu.esp - 128
      ∨ c.cpu.esp ≤ i.semaphore :=
    hplaced.semaphore_apart (by omega) (by omega) (by omega)
  obtain ⟨e, b, heq, he, hb⟩ := Core.leave_eq hok₀ (by omega) hsem hesp
    hok.eflags hrow
  have hstack : ∀ x, c.cpu.esp - 12 ≤ x → x < m.current.hi →
      b x = m.core.cpu.bytes x := by
    intro x h1 h2
    exact hb x (.inr h1) (hplaced.off_semaphore (.inl ⟨by omega, h2⟩))
  have habove' : Above m.current.hi c b := fun x h1 h2 =>
    (hstack x (by omega) h2).trans (habove x h1 h2)
  rw [heq]
  refine hs.moved ?_ ?_ ?_ ?_ ?_ ?_
  · refine ⟨hok₀.eax, hok₀.ebx, hok₀.ecx, hok₀.edx, hok₀.esi, hok₀.edi,
      hok₀.ebp, ?_, he, hs.image.iretAt, hok.cs, hok₀.ds⟩
    have hlt := hok₀.esp
    show c.cpu.esp - 12 < 2 ^ 32
    omega
  · intro u hu x hx
    refine hb x ?_
      ((hs.placed u (List.mem_cons_of_mem _ hu)).off_semaphore hx)
    by_contra hno
    exact hs.not_owns hu (.inl ⟨by omega, by omega⟩) hx
  · refine ⟨⟨?_, habove'⟩, hfrom, hrest.congr (by omega) fun x h1 h2 =>
      hstack x (by omega) h2⟩
    -- the last three words of the row
    unfold Stub.row at hrow
    rw [Bytes.words_append] at hrow
    obtain ⟨-, hlast⟩ := hrow
    have hlen := Stub.length_words hcode
    have hat : c.cpu.esp - 56 + 4 * ([c.cpu.eax / 2 ^ 16 * 2 ^ 16 + c.ds,
        c.cpu.edi, c.cpu.esi, c.cpu.ebp, c.cpu.esp - 20, c.cpu.ebx,
        c.cpu.edx, c.cpu.ecx, c.cpu.eax] ++ s.words.reverse
          ++ code.toList).length = c.cpu.esp - 12 := by
      simp only [List.length_append, List.length_cons, List.length_nil,
        List.length_reverse]
      omega
    rw [hat] at hlast
    refine hlast.congr fun x h1 h2 => hstack x h1 ?_
    simp only [List.length_cons, List.length_nil] at h2
    omega
  · show m.current.lo ≤ c.cpu.esp - 12
    omega
  · exact Nat.le_refl _
  · exact ⟨⟨rfl, rfl, rfl, rfl, rfl, rfl⟩, rfl, rfl, rfl, rfl, rfl, rfl⟩

/-- A thread that comes back from its topmost frame has the registers that
it left with, and the frame is gone. -/
theorem resume {n : Nat} (hs : Sound i m)
    (hframes : m.current.frames = ⟨l, some n⟩ :: rest) :
    l.Back i m.current.hi n (finish l m.core)
      ∧ Sound i ⟨finish l m.core, { m.current with frames := rest },
        m.others⟩ := by
  have hok := hs.ok
  have hplaced := hs.current_placed
  have hroom := hplaced.room
  have hlaid := hs.current_laid
  have hmet := hs.met
  rw [hframes] at hlaid hmet
  obtain ⟨hholds, hfrom, hrest⟩ := hlaid
  change l.From m.current.lo m.current.hi rest at hfrom
  have hbase := hrest.base_le (by omega)
  have hback := Left.Ready.back hmet hholds hfrom hbase.2 hplaced.hi_lt
  have hbytes : (finish l m.core).cpu.bytes = m.bytes := by
    cases l <;> rfl
  -- the stack pointer is back above what was put on the stack
  have hesp : m.current.lo ≤ (finish l m.core).cpu.esp
      ∧ (finish l m.core).cpu.esp ≤ baseOf m.current.hi rest := by
    cases l with
    | fresh entry killMe =>
        obtain ⟨rfl, hfit⟩ := hfrom
        have h := hback.esp
        show _ ∧ _ ≤ m.current.hi
        omega
    | switched c =>
        obtain ⟨⟨-, hroom₀, hbelow₀, -⟩, -⟩ := hfrom
        have h := hback.esp
        omega
    | interrupted s c =>
        obtain ⟨-, hroom₀, hbelow₀, -⟩ := hfrom
        have h := hback.esp
        omega
  refine ⟨hback, hs.moved ?_ ?_ ?_ hesp.1 hesp.2 (hback.met hfrom)⟩
  · have hlt : (finish l m.core).cpu.esp < 2 ^ 32 := by
      have hhi := hplaced.hi_lt
      omega
    cases l with
    | interrupted s c =>
        exact ⟨hok.eax, hok.ebx, hok.ecx, hok.edx, hok.esi, hok.edi, hok.ebp,
          hlt, Bytes.read32_lt _ _, Bytes.read32_lt _ _,
          Nat.mod_lt _ (by decide), hok.ds⟩
    | _ =>
        exact ⟨hok.eax, hok.ebx, hok.ecx, hok.edx, hok.esi, hok.edi, hok.ebp,
          hlt, hok.eflags, Bytes.read32_lt _ _, hok.cs, hok.ds⟩
  · intro u hu x hx
    rw [hbytes]
  · rw [hbytes]
    exact hrest

/-- What a switch does to the memory: to the stack that it leaves, to the
word for its pointer, and to the stack that it goes to. -/
theorem parked_eq (hs : Sound i m) (hroom : m.Room)
    (hecx : m.core.cpu.ecx = m.current.cell) :
    (m.core.parked i).Words (m.core.cpu.esp - 40) (m.core.pushed i).reverse
      ∧ (m.core.parked i).read32 m.current.cell = m.core.cpu.esp - 40
      ∧ ∀ x, (x < m.core.cpu.esp - 40 ∨ m.core.cpu.esp ≤ x) →
        ¬m.current.InCell x → m.core.parked i x = m.bytes x := by
  have hok := hs.ok
  have hlt := hok.esp
  have hplaced := hs.current_placed
  have hbase := hs.current_base
  have hbelow := hs.below
  unfold Room at hroom
  have hpushed : ∀ w ∈ m.core.pushed i, w < 2 ^ 32 := by
    intro w hw
    simp only [Core.pushed, List.mem_cons, List.not_mem_nil, or_false] at hw
    rcases hw with rfl | rfl | rfl | rfl | rfl | rfl | rfl | rfl | rfl | rfl
    · exact hs.image.label
    · exact Nat.lt_of_le_of_lt Nat.and_le_left hok.eflags
    · exact hs.image.label
    · exact hok.ecx
    · exact hok.edx
    · exact hok.ebx
    · omega
    · exact hok.ebp
    · exact hok.esi
    · exact hok.edi
  have hlen : (m.core.pushed i).length = 10 := rfl
  have hrow : (m.core.cpu.bytes.below m.core.cpu.esp
      (m.core.pushed i)).Words (m.core.cpu.esp - 40)
        (m.core.pushed i).reverse :=
    Bytes.words_below (by omega) hpushed
  unfold Core.parked
  rw [hecx]
  refine ⟨hrow.congr fun x h1 h2 => ?_, Bytes.read32_write32_self (by omega),
    fun x hx hcell => ?_⟩
  · rw [List.length_reverse, hlen] at h2
    refine Bytes.write32_of_out ?_ _
    by_contra hno
    exact hplaced.cell_off x ⟨by omega, by omega⟩ ⟨by omega, by omega⟩
  · unfold Thread.InCell at hcell
    rw [Bytes.write32_of_out (by omega), Bytes.below_of_out (by omega)
      (by omega)]
    rfl

/-- The words for the other thread are as they were left, and its
registers are taken from them. -/
theorem ready_of_load {b : Bytes} {n lo count : Nat} {core : Core}
    (hh : Frame.Holds i hi b ⟨l, none⟩) (hfrom : l.From lo hi rest)
    (hno : ∀ s c, l ≠ .interrupted s c) (hn : Frame.addr hi ⟨l, none⟩ = n)
    (hesp : core.cpu.esp = n + 36) (hedi : core.cpu.edi = b.read32 n)
    (hesi : core.cpu.esi = b.read32 (n + 4))
    (hebp : core.cpu.ebp = b.read32 (n + 8))
    (hebx : core.cpu.ebx = b.read32 (n + 16))
    (hedx : core.cpu.edx = b.read32 (n + 20))
    (hecx : core.cpu.ecx = b.read32 (n + 24))
    (hflags : core.cpu.eflags
      = pushIntsFlags count (b.read32 (n + 32))) :
    l.Ready hi count core := by
  cases l with
  | fresh entry killMe =>
      obtain ⟨-, hroom⟩ := hfrom
      change hi - 44 = n at hn
      show core.cpu.esp = hi - 8
      omega
  | switched c =>
      obtain ⟨⟨-, hroom, -, -⟩, -⟩ := hfrom
      change c.cpu.esp - 40 = n at hn
      obtain ⟨hrow, -⟩ := hh
      rw [hn] at hrow
      simp only [Core.pushed, List.reverse_cons, List.reverse_nil,
        List.nil_append, List.cons_append, Bytes.words_cons, Nat.add_assoc,
        Nat.reduceAdd] at hrow
      obtain ⟨h0, h4, h8, -, h16, h20, h24, -, h32, -⟩ := hrow
      refine ⟨⟨?_, ?_, ?_, ?_, ?_, ?_⟩, ?_, ?_⟩
      · rw [hebx, h16]
      · rw [hecx, h24]
      · rw [hedx, h20]
      · rw [hesi, h4]
      · rw [hedi, h0]
      · rw [hebp, h8]
      · rw [hflags, h32]
      · omega
  | interrupted s c => exact absurd rfl (hno s c)

/-- The word that is left for the `ret` is one of those saved. -/
theorem loaded_of_saved {b : Bytes} {lo : Nat} (count : Nat)
    (hh : Frame.Holds i hi b ⟨l, none⟩) (hfrom : l.From lo hi rest)
    (hbase : baseOf hi rest ≤ hi) (hno : ∀ s c, l ≠ .interrupted s c) :
    Frame.Holds i hi b ⟨l, some count⟩
      ∧ Frame.addr hi ⟨l, some count⟩ = Frame.addr hi ⟨l, none⟩ + 36
      ∧ Frame.addr hi ⟨l, none⟩ + 44 ≤ hi := by
  cases l with
  | fresh entry killMe =>
      obtain ⟨-, hroom⟩ := hfrom
      refine ⟨hh, ?_, ?_⟩
      all_goals
        simp only [Frame.addr]
        omega
  | switched c =>
      obtain ⟨⟨-, hroom, -, -⟩, hcall, -⟩ := hfrom
      obtain ⟨hrow, habove⟩ := hh
      simp only [Frame.addr]
      refine ⟨⟨?_, habove⟩, by omega, by omega⟩
      simp only [Core.pushed, List.reverse_cons, List.reverse_nil,
        List.nil_append, List.cons_append, Bytes.words_cons, Nat.add_assoc,
        Nat.reduceAdd] at hrow
      obtain ⟨-, -, -, -, -, -, -, -, -, hlabel, -⟩ := hrow
      have hat : c.cpu.esp - 40 + 36 = c.cpu.esp - 4 := by omega
      rw [hat] at hlabel
      exact hlabel
  | interrupted s c => exact absurd rfl (hno s c)

/-- The switch writes nothing of another thread's before it is there. -/
theorem parked_other (hs : Sound i m) (hroom : m.Room)
    (hecx : m.core.cpu.ecx = m.current.cell) (hu : u ∈ m.others) {x : Nat}
    (hx : u.Owns x) : m.core.parked i x = m.bytes x := by
  have hbase := hs.current_base
  have hbelow := hs.below
  obtain ⟨-, -, hparked⟩ := hs.parked_eq hroom hecx
  unfold Room at hroom
  refine hparked x ?_ fun hc => hs.not_owns hu (.inr hc) hx
  by_contra hout
  exact hs.not_owns hu (.inl ⟨by omega, by omega⟩) hx

/-- The thread that has called the switch, as it is left behind. -/
theorem left_laid (hs : Sound i m) (hroom : m.Room)
    (hrun : ¬m.current.Entering)
    (hcall : m.core.cpu.esp + 4 ≤ m.current.base)
    (hecx : m.core.cpu.ecx = m.current.cell)
    (hb : ∀ {x}, m.current.Owns x → b x = m.core.parked i x) :
    Laid i m.current.lo m.current.hi b
      (⟨.switched m.core, none⟩ :: m.current.frames) := by
  have hok := hs.ok
  have hplaced := hs.current_placed
  have hbase := hs.current_base
  have hbelow := hs.below
  obtain ⟨hwords, -, hparked⟩ := hs.parked_eq hroom hecx
  unfold Room at hroom
  have hstack : ∀ x, m.core.cpu.esp ≤ x → x < m.current.hi →
      b x = m.bytes x := by
    intro x h1 h2
    have hon : m.current.OnStack x := ⟨by omega, h2⟩
    exact (hb (.inl hon)).trans (hparked x (.inr h1)
      fun hc => hplaced.cell_off x hc hon)
  refine ⟨⟨hwords.congr fun x h1 h2 => ?_, hstack⟩,
    ⟨⟨hok, hroom, hbelow, hs.met⟩, hcall, fun l n r heq =>
      hrun ⟨l, n, r, heq⟩⟩,
    hs.current_laid.congr (by omega) fun x h1 h2 => hstack x ?_ h2⟩
  · have hlen : (m.core.pushed i).reverse.length = 10 := rfl
    exact hb (.inl ⟨by omega, by omega⟩)
  · change m.current.base ≤ x at h1
    omega

/-- `context_switch` puts a frame on the running stack and takes up the
other thread at its topmost one. The pointer that it stores goes to the cell
of the thread that it leaves, and the pushes go to that thread's stack. -/
theorem switch {pre post : List Thread} (hs : Sound i m) (hroom : m.Room)
    (hrun : ¬m.current.Entering) (ht : m.others = pre ++ t :: post)
    (hframes : t.frames = ⟨l, none⟩ :: rest)
    (hcall : m.core.cpu.esp + 4 ≤ m.current.base)
    (hecx : m.core.cpu.ecx = m.current.cell)
    (hedx : m.core.cpu.edx = m.bytes.read32 t.cell) :
    Sound i ⟨m.core.contextSwitch i,
      { t with
        frames := ⟨l, some ((m.core.contextSwitch i).semaphore i)⟩ :: rest },
      { m.current with
        frames := ⟨.switched m.core, none⟩ :: m.current.frames }
        :: (pre ++ post)⟩ := by
  have hok := hs.ok
  have hplaced := hs.current_placed
  have hmem : t ∈ m.others := by
    rw [ht]
    simp
  have hmem' : t ∈ m.threads := List.mem_cons_of_mem _ hmem
  have htplaced := hs.placed t hmem'
  have htroom := htplaced.room
  obtain ⟨⟨l', rest', hf, hno⟩, hcell⟩ := hs.parked t hmem
  rw [hframes] at hf
  obtain ⟨rfl, rfl⟩ : l = l' ∧ rest = rest' := by
    injection hf with h1 h2
    injection h1 with h3
    exact ⟨h3, h2⟩
  have htlaid := hs.laid t hmem'
  unfold Thread.base at hcell
  rw [hframes] at htlaid hcell
  obtain ⟨hholds, hfrom, hrest⟩ := htlaid
  change l.From t.lo t.hi rest at hfrom
  have hrbase := hrest.base_le (by omega)
  have haddr := hfrom.addr_le (o := none)
  obtain ⟨n, hn⟩ : ∃ n, Frame.addr t.hi ⟨l, none⟩ = n := ⟨_, rfl⟩
  obtain ⟨-, hpointer, -⟩ := hs.parked_eq hroom hecx
  have hesp : m.current.lo + 128 ≤ m.core.cpu.esp := hroom
  have hother : ∀ u ∈ m.others, ∀ x, u.Owns x →
      m.core.parked i x = m.bytes x :=
    fun u hu x hx => hs.parked_other hroom hecx hu hx
  have hholds' : Frame.Holds i t.hi (m.core.parked i) ⟨l, none⟩ :=
    hholds.congr hfrom hrbase.2 fun x h1 h2 =>
      hother t hmem x (.inl ⟨by omega, h2⟩)
  obtain ⟨count, hcount⟩ : ∃ count,
      (m.core.contextSwitch i).semaphore i = count := ⟨_, rfl⟩
  obtain ⟨hloaded, haddr', hfit⟩ := loaded_of_saved count hholds' hfrom
    hrbase.2 hno
  change m.bytes.read32 t.cell = Frame.addr t.hi ⟨l, none⟩ at hcell
  rw [hn] at haddr haddr' hfit hcell
  have hhi := htplaced.hi_lt
  have hsem : i.semaphore + 4 ≤ n + 28 ∨ n + 36 ≤ i.semaphore :=
    htplaced.semaphore_apart (by omega) (by omega) (by omega)
  obtain ⟨e, b, heq, hflags, he, hb⟩ := Core.contextSwitch_eq (i := i) hok
    (by omega) (hedx.trans hcell) (by omega) hsem
  have hword := fun a => Bytes.read32_lt (m.core.parked i) a
  have hlow : ∀ x, n + 36 ≤ x → x < t.hi → b x = m.core.parked i x :=
    fun x h1 h2 => hb x (.inr h1) (htplaced.off_semaphore
      (.inl ⟨by omega, h2⟩))
  -- what is not the other thread's stays from here on
  have hfar : ∀ {u : Thread} {x : Nat}, u.Placed i → ¬t.Owns x → u.Owns x →
      b x = m.core.parked i x := by
    intro u x hu hx hux
    refine hb x ?_ (hu.off_semaphore hux)
    by_contra hout
    exact hx (.inl ⟨by omega, by omega⟩)
  have hcurrent : ∀ {x : Nat}, m.current.Owns x →
      b x = m.core.parked i x := fun hx =>
    hfar hplaced (hs.not_owns hmem hx) hx
  have hcons := List.pairwise_cons.mp hs.apart
  have hperm : m.others.Perm (t :: (pre ++ post)) := by
    rw [ht]
    exact List.perm_middle
  have hcons' := List.pairwise_cons.mp (hperm.pairwise hcons.2
    (fun h => Thread.Apart.symm h))
  have hsub : ∀ u ∈ pre ++ post, u ∈ m.others := fun u hu =>
    hperm.mem_iff.mpr (List.mem_cons_of_mem _ hu)
  have hkeep : ∀ u ∈ pre ++ post, ∀ x, u.Owns x → b x = m.bytes x := by
    intro u hu x hx
    have hup := hs.placed u (List.mem_cons_of_mem _ (hsub u hu))
    rw [hfar hup (fun htx => hcons'.1 u hu x htx hx) hx]
    exact hother u (hsub u hu) x hx
  have htarget : Laid i t.lo t.hi b (⟨l, some count⟩ :: rest) := by
    have hafter := hfrom.addr_le (o := some count)
    rw [haddr'] at hafter
    refine ⟨hloaded.congr hfrom hrbase.2 fun x h1 h2 => hlow x ?_ h2,
      hfrom, hrest.congr (by omega) fun x h1 h2 => ?_⟩
    · rw [haddr'] at h1
      exact h1
    · exact (hlow x (by omega) h2).trans
        (hother t hmem x (.inl ⟨by omega, h2⟩))
  have hleft := hs.left_laid hroom hrun hcall hecx hcurrent
  have hsemaphore : b.read32 i.semaphore = count := by
    rw [← hcount, heq]
    rfl
  rw [hsemaphore] at hflags
  rw [hcount, heq]
  refine ⟨hs.image, ?_, ?_, ?_, ?_, ?_, ?_, ?_, ?_⟩
  · refine ⟨hword _, hword _, hword _, hword _, hword _, hword _, hword _, ?_,
      he, hs.image.firstRet, hok.cs, hok.ds⟩
    show n + 36 < 2 ^ 32
    omega
  · intro u hu
    rcases List.mem_cons.mp hu with rfl | hu
    · exact ⟨htplaced.room, htplaced.hi_lt, htplaced.cell_off,
        htplaced.semaphore_off⟩
    · rcases List.mem_cons.mp hu with rfl | hu
      · exact ⟨hplaced.room, hplaced.hi_lt, hplaced.cell_off,
          hplaced.semaphore_off⟩
      · exact hs.placed u (List.mem_cons_of_mem _ (hsub u hu))
  · refine List.pairwise_cons.mpr ⟨?_, List.pairwise_cons.mpr ⟨?_,
      hcons'.2⟩⟩
    · intro u hu
      rcases List.mem_cons.mp hu with rfl | hu
      · exact (hcons.1 t hmem).symm
      · exact hcons'.1 u hu
    · exact fun u hu => hcons.1 u (hsub u hu)
  · intro u hu
    rcases List.mem_cons.mp hu with rfl | hu
    · exact htarget
    · rcases List.mem_cons.mp hu with rfl | hu
      · exact hleft
      · exact (hs.other (hsub u hu) (hkeep u hu)).1
  · show t.lo ≤ n + 36
    omega
  · show n + 36 ≤ Frame.addr t.hi ⟨l, some count⟩
    omega
  · exact ready_of_load hholds' hfrom hno hn rfl rfl rfl rfl rfl rfl rfl
      hflags
  · intro u hu
    rcases List.mem_cons.mp hu with rfl | hu
    · refine ⟨⟨_, _, rfl, fun s c h => Left.noConfusion h⟩,
        Eq.trans ?_ hpointer⟩
      exact Bytes.read32_congr fun x h1 h2 => hcurrent (.inr ⟨h1, h2⟩)
    · exact (hs.other (hsub u hu) (hkeep u hu)).2

/-- What a thread does between two calls is above its stack pointer or in
memory that is nobody's, so all frames stay. -/
theorem compute (hs : Sound i m) (hrun : ¬m.current.Entering)
    (hk : m.Keeps c) : Sound i ⟨c, m.current, m.others⟩ := by
  have hroom := hs.current_placed.room
  refine hs.moved hk.ok hk.others ?_ hk.above hk.below ?_
  · exact hs.current_laid.congr (by omega) fun x h1 h2 => hk.saved x ⟨h1, h2⟩
  · cases hf : m.current.frames with
    | nil => trivial
    | cons f rest =>
        obtain ⟨l, o⟩ := f
        cases o with
        | none => trivial
        | some n => exact absurd ⟨l, n, rest, hf⟩ hrun

/-- A new thread comes with the frame that `task::init` has written. -/
theorem create {entry killMe : Nat} (hs : Sound i m)
    (hrun : ¬m.current.Entering) (hc : m.Creates i t entry killMe c) :
    Sound i ⟨c, m.current, t :: m.others⟩ := by
  have hs' := hs.compute hrun hc.keeps
  have htroom := hc.placed.room
  refine ⟨hs'.image, hs'.ok, ?_, ?_, ?_, hs'.above, hs'.below, hs'.met, ?_⟩
  · intro u hu
    rcases List.mem_cons.mp hu with rfl | hu
    · exact hs'.current_placed
    · rcases List.mem_cons.mp hu with rfl | hu
      · exact hc.placed
      · exact hs'.placed u (List.mem_cons_of_mem _ hu)
  · have hcons := List.pairwise_cons.mp hs.apart
    refine List.pairwise_cons.mpr ⟨?_, List.pairwise_cons.mpr ⟨?_, hcons.2⟩⟩
    · intro u hu
      rcases List.mem_cons.mp hu with rfl | hu
      · exact (hc.apart _ List.mem_cons_self).symm
      · exact hcons.1 u hu
    · exact fun u hu => hc.apart u (List.mem_cons_of_mem _ hu)
  · intro u hu
    rcases List.mem_cons.mp hu with rfl | hu
    · exact hs'.current_laid
    · rcases List.mem_cons.mp hu with rfl | hu
      · rw [hc.frames]
        exact ⟨⟨hc.entry, hc.killMe⟩, ⟨rfl, htroom⟩, trivial⟩
      · exact hs'.laid u (List.mem_cons_of_mem _ hu)
  · intro u hu
    rcases List.mem_cons.mp hu with rfl | hu
    · refine ⟨⟨_, _, hc.frames, fun s c h => Left.noConfusion h⟩, ?_⟩
      unfold Thread.base
      rw [hc.frames]
      exact hc.pointer
    · exact hs'.parked u hu

/-- A thread that is killed takes nothing from the others. -/
theorem kill {pre post : List Thread} (hs : Sound i m)
    (ht : m.others = pre ++ t :: post) :
    Sound i ⟨m.core, m.current, pre ++ post⟩ := by
  have hsub : (pre ++ post).Sublist m.others := by
    rw [ht]
    exact List.Sublist.append_left (List.sublist_cons_self _ _) _
  have hmem : ∀ u ∈ m.current :: (pre ++ post), u ∈ m.threads :=
    fun u hu => (hsub.cons_cons _).subset hu
  exact ⟨hs.image, hs.ok, fun u hu => hs.placed u (hmem u hu),
    hs.apart.sublist (hsub.cons_cons _), fun u hu => hs.laid u (hmem u hu),
    hs.above, hs.below, hs.met, fun u hu => hs.parked u (hsub.subset hu)⟩

/-- Every step keeps what the threads have saved. -/
theorem step {e : Event} (hs : Sound i m) (h : Step i m e m') :
    Sound i m' := by
  cases h with
  | compute hrun hk => exact hs.compute hrun hk
  | interrupt hroom hcode hword hwords =>
      exact hs.interrupt hroom hcode hword hwords
  | leave hframes hesp _ => exact hs.leave hframes hesp
  | switch hrun hroom ht hframes hcall hecx hedx =>
      exact hs.switch hroom hrun ht hframes hcall hecx hedx
  | resume hframes => exact (hs.resume hframes).2
  | create hrun hc => exact hs.create hrun hc
  | kill _ ht => exact hs.kill ht

end Sound

/-- So in every state of a run the stack of each thread is laid out as its
frames say. -/
theorem run_sound {tr : List (Machine × Event)} (hi : Initial i m₀)
    (hr : Run i m₀ tr m) : Sound i m :=
  Ntibux.Run.invariant (P := Sound i) (fun _ _ => True) hr
    (fun _ _ => trivial) hi.sound fun _ _ _ hs _ h => hs.step h

/-- A thread that has not run, with its entry and `kill_me` in place. -/
def newcomer : Thread :=
  ⟨0x2000, 0x3000, 0x4004, [⟨.fresh 0x100 0x200, none⟩]⟩

def newcomerBytes : Bytes :=
  Bytes.write32 (Bytes.write32 (Bytes.write32 (fun _ => 0) 0x2ff8 0x100)
    0x2ffc 0x200) 0x4004 (0x3000 - 44)

/-- The boot thread, about to call `context_switch` for it. -/
def booting : Machine where
  core := {
    cpu := {
      eax := 0, ebx := 0, ecx := 0x4000, edx := 0x3000 - 44, esi := 0
      edi := 0, ebp := 0, esp := 0x1ff0, eflags := 0x646
      bytes := newcomerBytes }
    eip := 0, cs := SS_KCODE, ds := SS_KDATA, es := SS_KDATA
    fs := SS_KDATA, gs := SS_KDATA }
  current := ⟨0x1000, 0x2000, 0x4000, []⟩
  others := []

def bootImage : Image where
  semaphore := 0x4008
  firstRet := 0x300
  label := 0x301
  back := 0x302
  handler := 0x400
  picHandler := 0x500
  handlerBack := 0x401
  iretAt := 0x402

/-- The machine of the examples is one to start from. -/
theorem booting_initial : Initial bootImage booting := by
  refine ⟨by constructor <;> decide, by constructor <;> decide,
    ⟨by decide, by decide, ?_, ?_⟩, by decide, by decide, rfl, rfl⟩
  all_goals
    simp only [booting, bootImage, Thread.InCell, Thread.OnStack,
      Thread.Owns]
    omega

/-- The words for it are in place. -/
theorem booting_creates : booting.Creates bootImage newcomer 0x100 0x200
    booting.core := by
  have hkeeps : booting.Keeps booting.core :=
    ⟨booting_initial.ok, by decide, by decide, fun _ _ => rfl,
      fun _ _ _ _ => rfl⟩
  have hplaced : newcomer.Placed bootImage := by
    refine ⟨by decide, by decide, ?_, ?_⟩
    all_goals
      simp only [newcomer, bootImage, Thread.InCell, Thread.OnStack,
        Thread.Owns]
      omega
  refine ⟨hkeeps, hplaced, ?_, rfl, by decide +kernel, by decide +kernel,
    by decide +kernel⟩
  intro u hu
  simp only [threads, booting, List.mem_singleton] at hu
  rw [hu]
  simp only [newcomer, Thread.Apart, Thread.InCell, Thread.OnStack,
    Thread.Owns]
  omega

/-- A thread is in the middle of a call only if its topmost frame says where
it goes on. -/
theorem not_entering (h : t.frames = [] ∨ ∃ l r, t.frames = ⟨l, none⟩ :: r) :
    ¬t.Entering := by
  rintro ⟨l, n, r, hf⟩
  rcases h with h | ⟨l', r', h⟩
  · rw [h] at hf
    cases hf
  · rw [h] at hf
    cases hf

/-- A handler comes to its end and writes nothing. -/
theorem Sound.returns (hs : Sound i m) (hi : i.Ok)
    (hrun : ¬m.current.Entering) : Step i m .compute
      ⟨{ m.core with
          cpu := { m.core.cpu with esp := m.current.base }
          eip := i.handlerBack }, m.current, m.others⟩ := by
  have hbase := hs.current_base
  have hhi := hs.current_placed.hi_lt
  have hok : Core.Ok { m.core with
      cpu := { m.core.cpu with esp := m.current.base }
      eip := i.handlerBack } :=
    { hs.ok with
      esp := Nat.lt_of_le_of_lt hbase.2 hhi
      eip := hi.handlerBack }
  exact .compute hrun ⟨hok, hbase.1, le_rfl, fun _ _ => rfl,
    fun _ _ _ _ => rfl⟩

/-- A thread comes to its call of `context_switch` for `t`. -/
theorem Sound.calls (hs : Sound i m) (hrun : ¬m.current.Entering)
    (hcell : m.current.cell < 2 ^ 32) (t : Thread) : Step i m .compute
      ⟨{ m.core with
          cpu := { m.core.cpu with
            ecx := m.current.cell, edx := m.bytes.read32 t.cell } },
        m.current, m.others⟩ := by
  have hok : Core.Ok { m.core with
      cpu := { m.core.cpu with
        ecx := m.current.cell, edx := m.bytes.read32 t.cell } } :=
    { hs.ok with
      ecx := hcell
      edx := Bytes.read32_lt _ _ }
  exact .compute hrun ⟨hok, hs.above, hs.below, fun _ _ => rfl,
    fun _ _ _ _ => rfl⟩

end Machine

end Ntibux
