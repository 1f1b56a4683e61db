/-
What `dump` shows is what was created.

# The names

A name is copied into its object when the object is made (`Created`), and
lies behind every field that is written later (`Turned`). So every call
leaves it as it is, as the heap does, and the names in memory are those
that the run has given (`labelled_of_run`).

# The lines

The walk over the list prints the object of every task in the order of the
list, and of each its name, its id and its account (`dumpLoop_shows`).
-/
import Ntibux.Kernel.Dump
import Ntibux.Kernel.Proofs.Reads
import Ntibux.Kernel.Proofs.Trace

namespace Ntibux

open Outcome (Gives)
open Sched (member listEntry RunList)

namespace Running

open Mem (field Wrote Spares)
open Kernel (Sane)

variable {h : HeapState} {m m' : Mem} {s s₀ s' : Running}
  {c c' : Scheduler} {e : Event} {name : List UInt8}
  {tr : List (Running × Event × List UInt8)}
  {head t u v fuel ticks esp next a : Nat} {os os' l l₁ l₂ : List Nat}
  {al : List (Nat × Nat)} {f : Nat → List UInt8}

-- ================================================================ the names

/-- The objects have the names `f` in them. -/
def Labelled (m : Mem) (os : List Nat) (f : Nat → List UInt8) : Prop :=
  ∀ t ∈ os, Named (f t) ∧ m.bytes.HasLine (field t .name) (f t)

namespace Labelled

/-- Fewer objects have their names all the more. -/
theorem sub (hl : Labelled m os f) (ho : ∀ t ∈ os', t ∈ os) :
    Labelled m os' f := fun t ht => hl t (ho t ht)

/-- What leaves an object's name alone, leaves the object named. -/
theorem congr (hl : Labelled m os f)
    (heq : ∀ t ∈ os, ∀ i < Sched.TASKS_OFFSET, 56 ≤ i →
      m'.bytes (t + i) = m.bytes (t + i)) : Labelled m' os f := by
  intro t ht
  obtain ⟨hn, hline⟩ := hl t ht
  refine ⟨hn, hline.congr fun x h1 h2 => ?_⟩
  have hshort : (f t).length < 32 := hn.short
  have hplace : field t .name = t + 56 := rfl
  have hsize : Sched.TASKS_OFFSET = 88 := rfl
  obtain ⟨i, rfl⟩ : ∃ i, x = t + i := ⟨x - t, by omega⟩
  exact heq t ht i (by omega) (by omega)

/-- Writes clear of the names leave them. -/
theorem spares (hl : Labelled m os f) (hsp : Spares (NameFields os) m m') :
    Labelled m' os f :=
  hl.congr fun t ht i hi h56 => hsp (t + i)
    ⟨t, ht, Nat.add_le_add_left h56 t, Nat.add_lt_add_left hi t⟩

end Labelled

/-- The tasks that are alive are the ones that the list and the idle task
are. -/
theorem mem_alive (hs : Sound s al l) :
    t ∈ s.sched.idle :: al.map Prod.fst ↔ t ∈ s.sched.idle :: l := by
  rw [List.mem_cons, List.mem_cons, hs.perm.mem_iff]

/-- What a kill leaves, it does not give back. -/
theorem Sound.not_freed (hs : Sound s al l) (id : Nat) :
    ∀ t ∈ s.sched.idle :: (al.filter fun p => p.2 ≠ id).map Prod.fst,
      t ∈ s.sched.idle :: l ∧
        t ∉ (al.filter fun p => p.2 = id).map Prod.fst := by
  intro t ht
  rcases List.mem_cons.mp ht with rfl | ht
  · refine ⟨List.mem_cons_self, fun hin => ?_⟩
    obtain ⟨p, hp, heq⟩ := List.mem_map.mp hin
    exact hs.idle (heq ▸ hs.mem_of_alive (List.mem_filter.mp hp).1)
  · obtain ⟨p, hp, rfl⟩ := List.mem_map.mp ht
    obtain ⟨hpa, hpid⟩ := List.mem_filter.mp hp
    refine ⟨List.mem_cons_of_mem _ (hs.mem_of_alive hpa), fun hin => ?_⟩
    obtain ⟨q, hq, heq⟩ := List.mem_map.mp hin
    obtain ⟨hqa, hqid⟩ := List.mem_filter.mp hq
    have hqp : q.2 = p.2 := by
      rw [← hs.ids q hqa, heq, hs.ids p hpa]
    exact of_decide_eq_true hpid (hqp ▸ of_decide_eq_true hqid)

/-- A call but `new_task` leaves the names of the tasks that are left. -/
theorem Step.labelled (hs : Sound s al l)
    (hl : Labelled s.mem (s.sched.idle :: al.map Prod.fst) f)
    (he : e.creates = false) (hstep : Step s e s') :
    Labelled s'.mem (s'.sched.idle :: (after al (s, e)).map Prod.fst) f := by
  have hall : Labelled s.mem (s.sched.idle :: l) f :=
    hl.sub fun t ht => (mem_alive hs).mpr ht
  have hback : ∀ {m' : Mem}, Labelled m' (s.sched.idle :: l) f →
      Labelled m' (s.sched.idle :: al.map Prod.fst) f :=
    fun h => h.sub fun t ht => (mem_alive hs).mp ht
  cases hstep with
  | newTask hr => cases he
  | @yield fuel esp c m hr =>
      have hturned := yield_turned hs.held List.mem_cons_self hs.current hr
      show Labelled m (c.idle :: al.map Prod.fst) f
      rw [hturned.idle]
      exact hback (hall.spares hturned.names)
  | tick =>
      have hw : Wrote (OffFields (s.sched.idle :: l)) s.mem
          (s.mem.taskTick s.sched.current) :=
        store64_wrote hs.current (by decide) (by decide) _
      exact hback (hall.spares (hs.held.turned hw hs.current).names)
  | @killTask fuel id freed c m h0 hcur hr =>
      obtain ⟨rfl, rfl, -, hk, -⟩ := hs.killed h0 hcur hr
      have hleft := hs.not_freed id
      exact (hall.sub fun t ht => (hleft t ht).1).congr
        fun t ht i hi _ => hk.others t (hleft t ht).1 (hleft t ht).2 i hi
  | heap hh hleaves =>
      have hobj := hleaves.objects l hs.held.list
      exact hback (hall.congr fun t ht i hi _ =>
        (hobj t ht).2 i (Nat.lt_trans hi (by decide)))

/-- A step with its name. -/
theorem NamedStep.labelled (hs : Sound s al l)
    (hl : Labelled s.mem (s.sched.idle :: al.map Prod.fst) f)
    (hid : e.creates = true → s.sched.nextId + 1 < 2 ^ 32)
    (hname : e.creates = true → Named name)
    (hstep : NamedStep s (e, name) s') :
    Labelled s'.mem (s'.sched.idle :: (after al (s, e)).map Prod.fst)
      (rename f (s, e, name)) := by
  cases hstep with
  | @newTask fuel killMe entry t _ c m hr =>
      have hlt := Nat.lt_trans (Nat.lt_succ_self _) (hid rfl)
      have hc := newTask_created hs.held hlt hr
      have hn : Named name := hname rfl
      have hkept : Labelled m (s.sched.idle :: al.map Prod.fst) f :=
        (hl.sub fun t ht => (mem_alive hs).mpr ht).spares
          (hc.fields.mono fun _ hx => hx.fields) |>.sub
            fun t ht => (mem_alive hs).mp ht
      have hsched := hc.sched
      subst hsched
      intro u hu
      show Named (Function.update f t name u) ∧ m.bytes.HasLine _
        (Function.update f t name u)
      by_cases hut : u = t
      · rw [hut, Function.update_self]
        exact ⟨hn, hc.line hn.noNul hn.short⟩
      · rw [Function.update_of_ne hut]
        refine hkept u ?_
        change u ∈ s.sched.idle :: (al ++ [(t, s.sched.nextId)]).map Prod.fst
          at hu
        rw [List.map_append, ← List.cons_append] at hu
        exact (List.mem_append.mp hu).resolve_right
          fun h => hut (List.mem_singleton.mp h)
  | other he hs' =>
      have hsame : rename f (s, e, []) = f := by
        cases e with
        | newTask t => cases he
        | _ => rfl
      rw [hsame]
      exact hs'.labelled hs hl he

/-- Without its name it is a step. -/
theorem NamedStep.step (hs : NamedStep s (e, name) s') : Step s e s' := by
  cases hs with
  | newTask hr => exact .newTask hr
  | other _ hs => exact hs

/-- And a run without its names is a run. -/
theorem run_calls (hr : NamedRun s₀ tr s) : Run s₀ (calls tr) s := by
  induction hr with
  | nil => exact .nil
  | @snoc tr s s' e hr hs ih =>
      unfold Running.calls at ih ⊢
      rw [List.map_append]
      exact .snoc ih hs.step

/-- The kernel's task and idle have theirs from the start. -/
theorem Initial.labelled (hi : Initial s) :
    Labelled s.mem (s.sched.idle :: (alive s.sched.current []).map Prod.fst)
      (names s.sched.idle []) := by
  have hne := hi.sound.1.idle
  cases hi with
  | @init h₀ h tr fuel tasks _ _ _ ticks c m h0 hmin hr hnode hi =>
      have hinit := init_inited (run_housed h0 hmin hr hnode) hi
      intro t ht
      show Named (Function.update (fun _ => ascii "kernel") c.idle
          (ascii "idle") t) ∧ m.bytes.HasLine (field t .name)
        (Function.update (fun _ => ascii "kernel") c.idle (ascii "idle") t)
      rcases List.mem_cons.mp ht with ht | ht
      · obtain rfl : t = c.idle := ht
        rw [Function.update_self]
        exact ⟨⟨by decide, by decide, by decide⟩, hinit.idleName⟩
      · obtain rfl : t = c.current := List.mem_singleton.mp ht
        have hcur : c.current ≠ c.idle := fun heq =>
          hne (List.mem_singleton.mpr heq.symm)
        rw [Function.update_of_ne hcur]
        exact ⟨⟨by decide, by decide, by decide⟩, hinit.currentName⟩

/-- The names in memory are those that the run has given. -/
theorem labelled_of_run (hi : Initial s₀) (hr : NamedRun s₀ tr s)
    (hfew : (calls tr).countP (·.2.creates) < 2 ^ 32 - Sched.AVAILABLE_IDS)
    (hnames : ∀ p ∈ tr, p.2.1.creates = true → Named p.2.2) :
    Labelled s.mem
      (s.sched.idle :: (alive s₀.sched.current (calls tr)).map Prod.fst)
      (names s₀.sched.idle tr) := by
  induction hr with
  | nil => exact hi.labelled
  | @snoc tr s s' e hr hstep ih =>
      have hcalls : calls (tr ++ [(s, e)]) = calls tr ++ [(s, e.1)] :=
        List.map_append
      rw [hcalls, List.countP_append, List.countP_singleton] at hfew
      obtain ⟨⟨l, hs⟩, hnext, -⟩ := run_sound hi (run_calls hr) (by omega)
      have hl := ih (by omega) fun p hp => hnames p (List.mem_append_left _ hp)
      rw [hcalls, alive_snoc]
      unfold names
      rw [List.foldl_append]
      refine hstep.labelled hs hl (fun hc => ?_)
        (hnames (s, e) (List.mem_append_right _ List.mem_cons_self))
      have hone : (s, e.1).2.creates = true := hc
      rw [if_pos hone] at hfew
      unfold Sched.AVAILABLE_IDS at hfew hnext
      omega

end Running

-- ================================================================ the lines

/-- The formats of the two lines, by the foreground of the name. -/
inductive TaskFormat : UInt8 → List UInt8 → Prop
  | idle : TaskFormat 9 (ascii "%9g%s%g(%u) (%U ms)\n")
  | task : TaskFormat 8 (ascii "%8g%s%g(%u) (%U ms)\n")

section

variable {fg d color logLevel : UInt8} {format name : List UInt8} {m : Mem}
  {memory : Nat → List UInt8} {it : Nat}

/-- A line of the dump is a proper message: its format is complete, and the
arguments are what the format asks for, the name being a string in memory.
-/
theorem taskCall_proper (hf : TaskFormat fg format)
    (h0 : 0 ∈ memory (Mem.field it .name)) :
    (Scheduler.taskCall format m it).Proper memory logLevel := by
  have hid : m.load (Mem.field it .id) < 2 ^ 32 := Bytes.read32_lt ..
  have hms : msecs (m.load64 (Mem.field it .cpuTime)) < 2 ^ 64 :=
    Nat.lt_of_le_of_lt (Nat.div_le_self ..) (Nat.mod_lt _ (by decide))
  cases hf with
  | idle =>
      exact Terminal.proper_of_plain (by decide) (by decide) (by decide)
        ⟨_, rfl, _, ⟨_, rfl, h0⟩, _, rfl, _, ⟨_, hid, rfl⟩, _,
          ⟨_, hms, rfl⟩, trivial⟩
  | task =>
      exact Terminal.proper_of_plain (by decide) (by decide) (by decide)
        ⟨_, rfl, _, ⟨_, rfl, h0⟩, _, rfl, _, ⟨_, hid, rfl⟩, _,
          ⟨_, hms, rfl⟩, trivial⟩

/-- A line's ink. -/
theorem taskCall_ink (hf : TaskFormat fg format)
    (hname : (memory (Mem.field it .name)).takeWhile (· ≠ 0) = name) :
    (Scheduler.taskCall format m it).ink memory d color
      = taskInk d fg color name (m.load (Mem.field it .id))
        (msecs (m.load64 (Mem.field it .cpuTime))) := by
  rw [← hname]
  unfold taskInk
  simp only [List.append_assoc, List.map_append]
  cases hf <;> rfl

/-- Behind a line the foreground is the default one, with the background of
before. -/
theorem taskCall_color (hf : TaskFormat fg format) :
    colorAfter d (messagePieces (Scheduler.taskCall format m it).text) color
      = plainColor d fg color := by
  cases hf <;> rfl

/-- With no carriage return in the name there is none in the line. The
screen takes one for a move of the cursor. -/
theorem cr_not_mem_taskInk {id ms : Nat} (hn : 0x0d ∉ name) :
    ∀ i ∈ taskInk d fg color name id ms, i.char ≠ 0x0d := by
  have htext : 0x0d ∉ ascii "(" ++ padded 10 0 id ++ ascii ") ("
      ++ padded 10 0 ms ++ ascii " ms)\n" := by
    simp only [List.mem_append, not_or]
    exact ⟨⟨⟨⟨by decide, cr_not_mem_padded (by decide) (by decide) 0⟩,
      by decide⟩, cr_not_mem_padded (by decide) (by decide) 0⟩, by decide⟩
  intro i hi heq
  rcases List.mem_append.mp hi with hi | hi
  · obtain ⟨c, hc, rfl⟩ := List.mem_map.mp hi
    change c = 0x0d at heq
    exact hn (heq ▸ hc)
  · obtain ⟨c, hc, rfl⟩ := List.mem_map.mp hi
    change c = 0x0d at heq
    exact htext (heq ▸ hc)

end

namespace Scheduler

open Mem (field)
open Running (Housed Held Labelled start listEntry_first listEntry_next
  member_start_nil member_ne_head)

variable {h : HeapState} {t : Terminal} {d fg logLevel : UInt8} {p : Sheet d}
  {format : List UInt8} {head it : Nat} {os l l₁ l₂ : List Nat}
  {f : Nat → List UInt8}

/-- A line of one task, on a page. -/
theorem task_shows (hf : TaskFormat fg format) (hd : Housed h head os)
    (hl : Labelled h.mem os f) (hit : it ∈ os) (hshow : Shows t p) :
    ∃ w t', Gives (fun fuel => t.printk h.mem.bytes.upFrom logLevel fuel
        (Scheduler.taskCall format h.mem it).format
        (Scheduler.taskCall format h.mem it).params) (w, t') ∧
      Shows t' (p.writes ((taskInk t.defColor fg t.color (f it)
        (h.mem.load (field it .id))
        (msecs (h.mem.load64 (field it .cpuTime)))).map
          fun i => mark i.color i.char)) ∧
      t'.color = plainColor t.defColor fg t.color ∧
      t'.defColor = t.defColor := by
  obtain ⟨hn, hline⟩ := hl it hit
  have hpage := hd.page hit
  have hshort : (f it).length < 32 := hn.short
  have hend : field it .name + (f it).length < 2 ^ 32 := by
    show it + 56 + (f it).length < 2 ^ 32
    omega
  obtain ⟨rest, hrest⟩ := upFrom_of_hasLine hline hend
  have h0 : 0 ∈ h.mem.bytes.upFrom (field it .name) := by
    rw [hrest]
    simp
  have hname : (h.mem.bytes.upFrom (field it .name)).takeWhile (· ≠ 0)
      = f it := by
    rw [hrest]
    exact cString_append_zero hn.noNul rest
  have hink : (Scheduler.taskCall format h.mem it).ink h.mem.bytes.upFrom
      t.defColor t.color = _ := taskCall_ink hf hname
  obtain ⟨w, t', hg, hshow', hcol⟩ := @Terminal.printk_shows _ _ _ logLevel _ _
    hshow (taskCall_proper hf h0) (by
      rw [hink]
      exact cr_not_mem_taskInk hn.noReturn)
  rw [hink] at hshow'
  exact ⟨w, t', hg, hshow', hcol.trans (taskCall_color hf),
    hshow'.default.trans hshow.default.symm⟩

/-- The walk over the rest of the list. -/
theorem dumpLoop_shows (hd : Held h head os (l₁ ++ l₂))
    (hl : Labelled h.mem os f) (hshow : Shows t p) :
    ∃ t', Gives (fun fuel => Scheduler.dumpLoop logLevel h.mem head fuel
        (start head l₂) t) t' ∧
      Shows t' (p.writes ((listInk t.defColor f
        (fun u => h.mem.load (field u .id))
        (fun u => h.mem.load64 (field u .cpuTime)) l₂ t.color).map
          fun i => mark i.color i.char)) := by
  induction l₂ generalizing l₁ t p with
  | nil =>
      refine ⟨t, .of_succ (.of_eq fun _ => ?_), hshow⟩
      exact if_pos (member_start_nil hd.list)
  | cons it l₂ ih =>
      have hit : it ∈ l₁ ++ it :: l₂ := by simp
      have hne : member (start head (it :: l₂)) ≠ head :=
        member_ne_head hd.list hit
      obtain ⟨w, t₁, hg, hshow₁, hcol, hdef⟩ := @task_shows _ _ _ _ logLevel _
        _ _ _ _ _ TaskFormat.task hd.toHoused hl (hd.sub it hit) hshow
      have hnext := listEntry_next hd.list
      have hassoc : l₁ ++ it :: l₂ = (l₁ ++ [it]) ++ l₂ := by simp
      rw [hassoc] at hd
      obtain ⟨t', hgs, hshow'⟩ := ih hd hshow₁
      rw [hcol, hdef] at hshow'
      refine ⟨t', .of_succ ?_, ?_⟩
      · unfold Scheduler.dumpLoop
        simp only [if_neg hne]
        dsimp only [start]
        rw [hnext]
        exact hg.bind hgs
      · rw [listInk, List.map_append, Page.writes, List.foldl_append]
        exact hshow'

/-- The whole call. -/
theorem dump_shows {c : Scheduler} (hd : Held h c.tasks (c.idle :: l) l)
    (hl : Labelled h.mem (c.idle :: l) f) (hshow : Shows t p) :
    ∃ t', Gives (fun fuel => dump logLevel h.mem c fuel t) t' ∧
      Shows t' (p.writes ((dumpInk t.defColor t.color f
        (fun u => h.mem.load (field u .id))
        (fun u => h.mem.load64 (field u .cpuTime)) c.idle l).map
          fun i => mark i.color i.char)) := by
  obtain ⟨w, t₁, hg, hshow₁, hcol, hdef⟩ := @task_shows _ _ _ _ logLevel _ _
    _ _ _ _ TaskFormat.idle hd.toHoused hl List.mem_cons_self hshow
  have hall : Held h c.tasks (c.idle :: l) ([] ++ l) := hd
  obtain ⟨t', hgs, hshow'⟩ := @dumpLoop_shows _ _ _ logLevel _ _ _ _ _ _ hall
    hl hshow₁
  rw [hcol, hdef] at hshow'
  refine ⟨t', ?_, ?_⟩
  · unfold dump
    rw [listEntry_first hd.list]
    exact hg.bind hgs
  · unfold dumpInk
    rw [List.map_append, Page.writes, List.foldl_append]
    exact hshow'

/-- The lines say of a task what is said of the tasks on the list. -/
theorem listInk_congr {names : Nat → List UInt8} {id ticks ticks' : Nat → Nat}
    (heq : ∀ u ∈ l, ticks u = ticks' u) (color : UInt8) :
    listInk d names id ticks l color = listInk d names id ticks' l color := by
  induction l generalizing color with
  | nil => rfl
  | cons u l ih =>
      rw [listInk, listInk, heq u List.mem_cons_self,
        ih fun v hv => heq v (List.mem_cons_of_mem u hv)]

/-- The lines depend on the ticks of the tasks that they are about, and on
no others. -/
theorem dumpInk_congr {color : UInt8} {names : Nat → List UInt8}
    {id ticks ticks' : Nat → Nat} {idle : Nat}
    (heq : ∀ u ∈ idle :: l, ticks u = ticks' u) :
    dumpInk d color names id ticks idle l
      = dumpInk d color names id ticks' idle l := by
  unfold dumpInk
  rw [heq idle List.mem_cons_self,
    listInk_congr fun u hu => heq u (List.mem_cons_of_mem idle hu)]

end Scheduler

namespace Running

variable {s₀ s : Running} {tr : List (Running × Event × List UInt8)}
  {t : Terminal} {d : UInt8} {p : Sheet d}

end Running

end Ntibux
