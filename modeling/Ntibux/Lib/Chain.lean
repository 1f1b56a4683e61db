/-
Null-terminated chains: the list a link function `next` spells out from
a head, each address of it non-null, the last one's link null. The link
function is a parameter (here it will be a word of memory), so every
frame fact is about links that agree: a chain survives whatever leaves
the links of its own nodes alone (`Chain.congr`), and taking a node out
is one changed link (`Chain.unlink`).
-/
import Mathlib.Data.List.Basic

namespace Ntibux

/-- Following `next` from `h` visits exactly `l` and then meets null. -/
def Chain (next : Nat → Nat) : Nat → List Nat → Prop
  | h, [] => h = 0
  | h, a :: l => h = a ∧ a ≠ 0 ∧ Chain next (next a) l

namespace Chain

variable {next next' : Nat → Nat} {h a : Nat} {l pre post : List Nat}

@[simp] theorem nil_iff : Chain next h [] ↔ h = 0 := Iff.rfl

@[simp] theorem cons_iff :
    Chain next h (a :: l) ↔ h = a ∧ a ≠ 0 ∧ Chain next (next a) l :=
  Iff.rfl

/-- The null head spells the empty list, and only it does. -/
theorem eq_nil_iff (hc : Chain next h l) : h = 0 ↔ l = [] := by
  cases l with
  | nil => simpa using hc
  | cons a l =>
      obtain ⟨rfl, hne, -⟩ := hc
      simp [hne]

/-- A head and a link function spell at most one list. -/
theorem unique {l' : List Nat} (hc : Chain next h l)
    (hc' : Chain next h l') : l = l' := by
  induction l generalizing h l' with
  | nil => exact (hc'.eq_nil_iff.mp hc).symm
  | cons a l ih =>
      cases l' with
      | nil => exact absurd (hc.1.symm.trans hc') hc.2.1
      | cons a' l' =>
          obtain ⟨rfl, -, hl⟩ := hc
          obtain ⟨rfl, -, hl'⟩ := hc'
          rw [ih hl hl']

/-- A chain survives any change that keeps the links of its nodes. -/
theorem congr (hc : Chain next h l) (heq : ∀ a ∈ l, next' a = next a) :
    Chain next' h l := by
  induction l generalizing h with
  | nil => exact hc
  | cons a l ih =>
      obtain ⟨h1, h2, h3⟩ := hc
      refine ⟨h1, h2, ?_⟩
      rw [heq a (by simp)]
      exact ih h3 fun c hc => heq c (List.mem_cons_of_mem a hc)

/-- The part of a chain from a node of it on. -/
theorem drop (hc : Chain next h (pre ++ a :: post)) :
    Chain next a (a :: post) := by
  induction pre generalizing h with
  | nil => exact ⟨rfl, hc.2⟩
  | cons c pre ih => exact ih hc.2.2

/-- Taking a node out of a chain: the link before it takes its link,
every other link stays. A node at the front has no link before it, so
there the head takes the link. -/
theorem unlink (hc : Chain next h (pre ++ a :: post))
    (hnd : (pre ++ a :: post).Nodup)
    (hlast : ∀ c, pre.getLast? = some c → next' c = next a)
    (hother : ∀ c ∈ pre ++ post, pre.getLast? ≠ some c →
      next' c = next c) :
    Chain next' (if pre = [] then next a else h) (pre ++ post) := by
  induction pre generalizing h with
  | nil =>
      rw [if_pos rfl]
      exact hc.2.2.congr fun c hcm => hother c (by simpa using hcm) (by simp)
  | cons c pre ih =>
      rw [if_neg (by simp)]
      obtain ⟨rfl, hne, hc⟩ := hc
      refine ⟨rfl, hne, ?_⟩
      have hnd' := (List.nodup_cons.mp hnd).2
      cases pre with
      | nil =>
          rw [hlast h rfl]
          refine hc.2.2.congr fun d hd => hother d (by simp_all) ?_
          intro heq
          obtain rfl : h = d := by simpa using heq
          simp_all
      | cons d pre =>
          have hnl : (h :: d :: pre).getLast? ≠ some h := by
            rw [List.getLast?_cons_cons]
            intro heq
            have hm := List.mem_of_getLast? heq
            exact (List.nodup_cons.mp hnd).1
              (List.mem_append_left _ hm)
          have hrec := ih hc hnd'
            (fun e he => hlast e (by rwa [List.getLast?_cons_cons]))
            (fun e hm he => hother e (List.mem_cons_of_mem _ hm)
              (by rwa [List.getLast?_cons_cons]))
          rw [if_neg (by simp)] at hrec
          rwa [hother h (by simp) hnl]

end Chain

end Ntibux
