/-
`class list` on memory.

The calls of `class list` do to a ring what they should (`Ring.push`,
`Ring.pushBack`, `Ring.del`). On memory they do the same, one store for
one link, as long as the nodes lie eight bytes apart (`Edit`): a store
to one link is then seen by no other.
-/
import Ntibux.Kernel.RunList
import Ntibux.Mem.Proofs.Spares
import Ntibux.Sched.Proofs.Fair

namespace Ntibux

-- ================================================================= rings

namespace Ring

variable {m m' : Links Nat} {head t : Nat} {l l₁ l₂ : List Nat}

/-- A ring survives what keeps the links of its nodes. -/
theorem congr (hr : Ring m head l)
    (hnext : ∀ p ∈ head :: l, m'.next p = m.next p)
    (hprev : ∀ p ∈ head :: l, m'.prev p = m.prev p) : Ring m' head l := by
  refine ⟨hr.nodup, hr.seg.congr hnext fun p hp => hprev p ?_⟩
  rcases List.mem_append.mp hp with hp | hp
  · exact List.mem_cons_of_mem head hp
  · rw [List.mem_singleton.mp hp]
    exact List.mem_cons_self

/-- The links of a ring stay in it. -/
theorem next_mem (hr : Ring m head l) {p : Nat} (hp : p ∈ head :: l) :
    m.next p ∈ head :: l := by
  have hseg : ∀ a l, Seg m a l head → p ∈ a :: l →
      m.next p ∈ l ∨ m.next p = head := by
    intro a l
    induction l generalizing a with
    | nil =>
        intro hs hp
        rw [List.mem_singleton.mp hp]
        exact .inr hs.1
    | cons b l ih =>
        intro hs hp
        rcases List.mem_cons.mp hp with rfl | hp
        · rw [hs.1.1]
          exact .inl List.mem_cons_self
        · exact (ih b hs.2 hp).imp_left (List.mem_cons_of_mem b)
  rcases hseg head l hr.seg hp with h | h
  · exact List.mem_cons_of_mem head h
  · rw [h]
    exact List.mem_cons_self

/-- `push` puts the element first. -/
theorem push (hr : Ring m head l) (ht : t ∉ head :: l) :
    Ring (m.push head t) head (t :: l) := by
  have hne : t ≠ head := fun h => ht (h ▸ List.mem_cons_self)
  have hfirst : t ≠ m.next head := fun h =>
    ht (h ▸ hr.next_mem List.mem_cons_self)
  -- the stores to the element leave `head->next` as it was
  have heq : m.push head t = (((m.setNext t (m.next head)).setPrev t
      head).setPrev (m.next head) t).setNext head t := by
    unfold Links.push
    simp only [Links.setNext_next, Links.setPrev_next, if_neg hne.symm]
  have hnext : ∀ c, (m.push head t).next c = if c = head then t
      else if c = t then m.next head else m.next c := by
    intro c
    rw [heq]
    simp only [Links.setNext_next, Links.setPrev_next]
  have hprev : ∀ c, (m.push head t).prev c = if c = m.next head then t
      else if c = t then head else m.prev c := by
    intro c
    rw [heq]
    simp only [Links.setNext_prev, Links.setPrev_prev]
  refine ⟨?_, ⟨?_, ?_⟩, ?_⟩
  · have hnd := List.nodup_cons.mpr ⟨ht, hr.nodup⟩
    exact (List.Perm.swap head t l).nodup_iff.mp hnd
  · rw [hnext, if_pos rfl]
  · rw [hprev, if_neg hfirst, if_pos rfl]
  · -- an empty list has `head` on both sides of the element
    cases l with
    | nil =>
        have hhead : m.next head = head := hr.seg.1
        refine ⟨?_, ?_⟩
        · rw [hnext, if_neg hne, if_pos rfl, hhead]
        · rw [hprev, if_pos hhead.symm]
    | cons a l =>
        obtain ⟨⟨ha, -⟩, hs⟩ := hr.seg
        have hnd := hr.nodup
        simp only [List.nodup_cons, List.mem_cons, not_or] at hnd
        obtain ⟨⟨hha, hhl⟩, hal, -⟩ := hnd
        rw [ha] at hprev
        refine ⟨⟨?_, ?_⟩, hs.congr ?_ ?_⟩
        · rw [hnext, if_neg hne, if_pos rfl, ha]
        · rw [hprev, if_pos rfl]
        · intro x hx
          have hxh : x ≠ head := fun h => hr.head_notMem (h ▸ hx)
          have hxt : x ≠ t := fun h =>
            ht (h ▸ List.mem_cons_of_mem head hx)
          rw [hnext, if_neg hxh, if_neg hxt]
        · intro x hx
          have hxa : x ≠ a := by
            rcases List.mem_append.mp hx with hx | hx
            · exact fun h => hal (h ▸ hx)
            · rw [List.mem_singleton.mp hx]
              exact hha
          have hxt : x ≠ t := by
            rcases List.mem_append.mp hx with hx | hx
            · exact fun h => ht (h ▸ by simp [hx])
            · rw [List.mem_singleton.mp hx]
              exact hne.symm
          rw [hprev, if_neg hxa, if_neg hxt]

/-- `push_back` puts the element last. -/
theorem pushBack (hr : Ring m head l) (ht : t ∉ head :: l) :
    Ring (m.pushBack head t) head (l ++ [t]) := by
  have hne : t ≠ head := fun h => ht (h ▸ List.mem_cons_self)
  have hlast : m.prev head ∈ head :: l := hr.seg.prev_mem
  have hlt : m.prev head ≠ t := fun h => ht (h ▸ hlast)
  -- the stores to the element leave `head->prev` as it was
  have heq : m.pushBack head t = (((m.setNext t head).setPrev t
      (m.prev head)).setNext (m.prev head) t).setPrev head t := by
    unfold Links.pushBack
    simp only [Links.setNext_prev, Links.setPrev_prev, if_neg hne.symm]
  have hnext : ∀ c, (m.pushBack head t).next c = if c = m.prev head then t
      else if c = t then head else m.next c := by
    intro c
    rw [heq]
    simp only [Links.setNext_next, Links.setPrev_next]
  have hprev : ∀ c, (m.pushBack head t).prev c = if c = head then t
      else if c = t then m.prev head else m.prev c := by
    intro c
    rw [heq]
    simp only [Links.setNext_prev, Links.setPrev_prev]
  constructor
  · have hperm : (t :: head :: l).Perm (head :: (l ++ [t])) := by
      refine (List.Perm.swap head t l).trans (List.Perm.cons head ?_)
      exact (List.perm_append_singleton t l).symm
    exact hperm.nodup_iff.mp (List.nodup_cons.mpr ⟨ht, hr.nodup⟩)
  · refine Seg.append_iff.mpr ⟨hr.seg.redirect hr.nodup ?_ ?_ ?_, ?_⟩
    · intro x hx hxl
      have hxt : x ≠ t := fun h => ht (h ▸ hx)
      rw [hnext, if_neg hxl, if_neg hxt]
    · intro x hx
      have hxh : x ≠ head := fun h => hr.head_notMem (h ▸ hx)
      have hxt : x ≠ t := fun h => ht (h ▸ List.mem_cons_of_mem head hx)
      rw [hprev, if_neg hxh, if_neg hxt]
    · refine ⟨?_, ?_⟩
      · rw [hnext, if_pos rfl]
      · rw [hprev, if_neg hne, if_pos rfl]
    · refine ⟨?_, ?_⟩
      · rw [hnext, if_neg hlt.symm, if_pos rfl]
      · rw [hprev, if_pos rfl]

/-- An element is not its own neighbour. -/
theorem ne_prev (hr : Ring m head (l₁ ++ t :: l₂)) : t ≠ m.prev t := by
  obtain ⟨hs₁, -⟩ := Seg.append_iff.mp hr.seg
  have hmid : (t :: (head :: (l₁ ++ l₂))).Nodup :=
    ((List.Perm.cons head List.perm_middle).trans
      (List.Perm.swap t head _)).nodup_iff.mp hr.nodup
  intro h
  refine (List.nodup_cons.mp hmid).1 (h ▸ ?_)
  rcases List.mem_cons.mp hs₁.prev_mem with h' | h'
  · rw [h']
    exact List.mem_cons_self
  · exact List.mem_cons_of_mem head (List.mem_append_left l₂ h')

/-- The links of an element still lead back when it is out. -/
theorem del_next (hr : Ring m head (l₁ ++ t :: l₂)) :
    (m.del t).next t = m.next t := by
  unfold Links.del
  simp only [Links.setPrev_next, Links.setNext_next, if_neg hr.ne_prev]

/-- `del` takes the element out. -/
theorem del (hr : Ring m head (l₁ ++ t :: l₂)) :
    Ring (m.del t) head (l₁ ++ l₂) := by
  obtain ⟨hs₁, hs₂⟩ := Seg.append_iff.mp hr.seg
  have hmid : (t :: (head :: (l₁ ++ l₂))).Nodup :=
    ((List.Perm.cons head List.perm_middle).trans
      (List.Perm.swap t head _)).nodup_iff.mp hr.nodup
  have hnd' := (List.nodup_cons.mp hmid).2
  have hprevmem : m.prev t ∈ head :: l₁ := hs₁.prev_mem
  have hpt := hr.ne_prev
  have heq : m.del t
      = (m.setNext (m.prev t) (m.next t)).setPrev (m.next t) (m.prev t) := by
    unfold Links.del
    simp only [Links.setNext_next, Links.setNext_prev, if_neg hpt]
  have hnext : ∀ c, (m.del t).next c =
      if c = m.prev t then m.next t else m.next c := by
    intro c
    rw [heq, Links.setPrev_next, Links.setNext_next]
  have hprev : ∀ c, (m.del t).prev c =
      if c = m.next t then m.prev t else m.prev c := by
    intro c
    rw [heq, Links.setPrev_prev, Links.setNext_prev]
  obtain ⟨hd₁, hd₂, hdisj⟩ := List.nodup_append.mp
    (show ((head :: l₁) ++ l₂).Nodup from hnd')
  -- the way to `t` goes on to what comes after it
  have hto : ∀ c, m.next t = c → c ∉ l₁ → Seg (m.del t) head l₁ c := by
    intro c hc hnot
    refine hs₁.redirect hd₁ (fun x _ hx => ?_) (fun x hx => ?_) ⟨?_, ?_⟩
    · rw [hnext, if_neg hx]
    · have hxc : x ≠ c := fun h => hnot (h ▸ hx)
      rw [hprev, hc, if_neg hxc]
    · rw [hnext, if_pos rfl, hc]
    · rw [hprev, if_pos hc.symm]
  refine ⟨hnd', ?_⟩
  cases l₂ with
  | nil =>
      rw [List.append_nil]
      exact hto head hs₂.1 (List.nodup_cons.mp hd₁).1
  | cons b l₂ =>
      obtain ⟨⟨hb, -⟩, hs₂⟩ := hs₂
      have hnot : b ∉ l₁ := fun h =>
        hdisj b (List.mem_cons_of_mem head h) b List.mem_cons_self rfl
      refine Seg.append_iff.mpr ⟨hto b hb hnot, hs₂.congr ?_ ?_⟩
      · intro x hx
        have hxp : x ≠ m.prev t := fun h =>
          hdisj _ hprevmem x hx h.symm
        rw [hnext, if_neg hxp]
      · intro x hx
        have hxb : x ≠ b := by
          rcases List.mem_append.mp hx with hx | hx
          · exact fun h => (List.nodup_cons.mp hd₂).1 (h ▸ hx)
          · rw [List.mem_singleton.mp hx]
            exact fun h => hdisj head List.mem_cons_self b
              List.mem_cons_self h
        rw [hprev, hb, if_neg hxb]

end Ring

-- ================================================================ stores

namespace Mem

variable {m m' m₀ : Mem} {P Q : Nat → Prop} {a v n p q head : Nat}
  {N l l₁ l₂ : List Nat} {L : Links Nat}

@[simp] theorem storeByte_self (m : Mem) (a : Nat) (c : UInt8) :
    (m.storeByte a c).bytes a = c := Function.update_self ..

/-- A `u64` is read back from its two words. -/
theorem load64_store64_self {v : Nat} (hv : v < 2 ^ 64) :
    (m.store64 a v).load64 a = v := by
  have hlow : u32 v < 2 ^ 32 := Nat.mod_lt _ (by decide)
  have hhigh : v / 2 ^ 32 < 2 ^ 32 := by omega
  have hfirst : (m.store64 a v).load a = u32 v :=
    (Bytes.read32_write32_of_apart (.inr le_rfl) _).trans
      (Bytes.read32_write32_self hlow)
  have hsecond : (m.store64 a v).load (a + 4) = v / 2 ^ 32 :=
    Bytes.read32_write32_self hhigh
  unfold load64
  rw [hfirst, hsecond]
  exact Nat.mod_add_div v (2 ^ 32)

/-- `m'` is `m` with other bytes, and none of them at `P`. -/
structure Wrote (P : Nat → Prop) (m m' : Mem) : Prop where
  rest : m' = { m with bytes := m'.bytes }
  spares : Spares P m m'

namespace Wrote

/-- No write at all keeps every byte. -/
theorem refl (P : Nat → Prop) (m : Mem) : Wrote P m m := ⟨rfl, .refl P m⟩

/-- One write after the other keeps what both keep. -/
theorem trans (h : Wrote P m₀ m) (h' : Wrote P m m') : Wrote P m₀ m' := by
  refine ⟨?_, h.spares.trans h'.spares⟩
  rw [h'.rest, h.rest]

/-- Fewer addresses are kept all the more. -/
theorem mono (h : Wrote P m m') (hPQ : ∀ x, Q x → P x) : Wrote Q m m' :=
  ⟨h.rest, h.spares.mono hPQ⟩

/-- The heap's own variables are not among the bytes. -/
theorem kheap (h : Wrote P m m') : m'.kheap = m.kheap := by rw [h.rest]

/-- Neither is the bitmap of the frames. -/
theorem frames (h : Wrote P m m') : m'.frames = m.frames := by rw [h.rest]

/-- A word is written clear of every address at least a word away. -/
theorem store (h : ∀ x, P x → x < a ∨ a + 4 ≤ x) (v : Nat) :
    Wrote P m (m.store a v) := ⟨rfl, .store h v⟩

/-- So is a `u64`, which is two words. -/
theorem store64 (h : ∀ x, P x → x < a ∨ a + 8 ≤ x) (v : Nat) :
    Wrote P m (m.store64 a v) := by
  refine (store (fun x hx => ?_) _).trans (store (fun x hx => ?_) _)
  · have hx' := h x hx
    omega
  · have hx' := h x hx
    omega

/-- A `u64` all of whose bytes are kept reads as before. -/
theorem load64 (h : Wrote P m m') (ha : ∀ x, a ≤ x → x < a + 8 → P x) :
    m'.load64 a = m.load64 a := by
  unfold Mem.load64
  rw [h.spares.load fun x h1 h2 => ha x h1 (by omega),
    h.spares.load fun x h1 h2 => ha x (by omega) (by omega)]

/-- A cleared range keeps the addresses outside. -/
theorem zero (h : ∀ x, P x → x < a ∨ a + n ≤ x) :
    Wrote P m (m.zero a n) := by
  refine ⟨rfl, fun x hx => Bytes.fill_of_not ?_ 0⟩
  have hx' := h x hx
  omega

/-- A byte that is written keeps all the others. -/
theorem storeByte {c : UInt8} (h : ∀ x, P x → x ≠ a) :
    Wrote P m (m.storeByte a c) := by
  refine ⟨rfl, fun x hx => ?_⟩
  unfold Mem.storeByte
  exact Function.update_of_ne (h x hx) c m.bytes

/-- A copy of at most `n` characters, and the zero after it. -/
theorem strncpy {src : List UInt8}
    (h : ∀ x, P x → x < a ∨ a + min src.length n < x) :
    Wrote P m (m.strncpy a src n) := by
  induction src generalizing a n m with
  | nil =>
      unfold Mem.strncpy
      refine storeByte fun x hx => ?_
      have hx' := h x hx
      omega
  | cons c src ih =>
      have hne : ∀ x, P x → x ≠ a := by
        intro x hx
        have hx' := h x hx
        omega
      cases n with
      | zero => exact storeByte hne
      | succ n =>
          unfold Mem.strncpy
          split
          · exact storeByte hne
          · refine (storeByte hne).trans (ih fun x hx => ?_)
            have hx' := h x hx
            rw [List.length_cons] at hx'
            omega

end Wrote

-- ================================================================= nodes

/-- The addresses have room for a node each. -/
structure Nodes (N : List Nat) : Prop where
  lt : ∀ p ∈ N, p < 2 ^ 32
  apart : ∀ p ∈ N, ∀ q ∈ N, p ≠ q → p + 8 ≤ q ∨ q + 8 ≤ p

/-- Off the nodes. -/
def OffNodes (N : List Nat) (x : Nat) : Prop :=
  ∀ p ∈ N, x < p ∨ p + 8 ≤ x

/-- Memory was written at the nodes only, and has the links `L` there. -/
structure Edit (N : List Nat) (m₀ m : Mem) (L : Links Nat) : Prop where
  next : ∀ p ∈ N, m.links.next p = L.next p
  prev : ∀ p ∈ N, m.links.prev p = L.prev p
  wrote : Wrote (OffNodes N) m₀ m

namespace Edit

/-- Before the first store the links in memory are those of the machine. -/
theorem start (N : List Nat) (m : Mem) : Edit N m m m.links :=
  ⟨fun _ _ => rfl, fun _ _ => rfl, .refl _ m⟩

/-- One link written. -/
theorem setNext (he : Edit N m₀ m L) (hN : Nodes N) (hp : p ∈ N)
    (hv : v < 2 ^ 32) : Edit N m₀ (m.setNext p v) (L.setNext p v) := by
  refine ⟨fun q hq => ?_, fun q hq => ?_,
    he.wrote.trans (.store (fun x hx => ?_) v)⟩
  · rw [Links.setNext_next]
    split
    · rename_i h
      rw [h]
      exact Bytes.read32_write32_self hv
    · rename_i h
      rw [← he.next q hq]
      refine Bytes.read32_write32_of_apart ?_ v
      have hap := hN.apart p hp q hq (Ne.symm h)
      omega
  · rw [Links.setNext_prev, ← he.prev q hq]
    refine Bytes.read32_write32_of_apart ?_ v
    by_cases h : q = p
    · exact .inl (by omega)
    · have hap := hN.apart p hp q hq (Ne.symm h)
      omega
  · have hx' := hx p hp
    omega

/-- A store to a node's `prev` does in memory what it does to the links,
since nodes do not overlap. -/
theorem setPrev (he : Edit N m₀ m L) (hN : Nodes N) (hp : p ∈ N)
    (hv : v < 2 ^ 32) : Edit N m₀ (m.setPrev p v) (L.setPrev p v) := by
  refine ⟨fun q hq => ?_, fun q hq => ?_,
    he.wrote.trans (.store (fun x hx => ?_) v)⟩
  · rw [Links.setPrev_next, ← he.next q hq]
    refine Bytes.read32_write32_of_apart ?_ v
    by_cases h : q = p
    · exact .inr (by omega)
    · have hap := hN.apart p hp q hq (Ne.symm h)
      omega
  · rw [Links.setPrev_prev]
    split
    · rename_i h
      rw [h]
      exact Bytes.read32_write32_self hv
    · rename_i h
      rw [← he.prev q hq]
      refine Bytes.read32_write32_of_apart ?_ v
      have hap := hN.apart p hp q hq (Ne.symm h)
      omega
  · have hx' := hx p hp
    omega

/-- A ring of nodes is in memory as it is in the links. -/
theorem ring (he : Edit N m₀ m L) (hr : Ring L head l)
    (hsub : ∀ p ∈ head :: l, p ∈ N) : Ring m.links head l :=
  hr.congr (fun p hp => he.next p (hsub p hp))
    fun p hp => he.prev p (hsub p hp)

end Edit

-- ============================================================ class list

/-- `list::init_head`. -/
theorem listInitHead_edit (hN : Nodes N) (hp : p ∈ N) :
    Edit N m (m.listInitHead p) ((m.links.setNext p p).setPrev p p) :=
  ((Edit.start N m).setNext hN hp (hN.lt p hp)).setPrev hN hp (hN.lt p hp)

/-- `list::push` and `list::push_back` read the list's own links, `del`
those of the element and of its neighbours: what is read is a node, so
it is what the links say. -/
theorem listPush_edit (hN : Nodes N) (hh : head ∈ N) (ht : p ∈ N)
    (hne : p ≠ head) (hf : m.links.next head ∈ N) :
    Edit N m (m.listPush head p) (m.links.push head p) := by
  have h1 := (Edit.start N m).setNext hN ht (hN.lt _ hf)
  have h2 := h1.setPrev hN ht (hN.lt head hh)
  have hfirst : ((m.links.setNext p (m.links.next head)).setPrev p
      head).next head = m.links.next head := by
    rw [Links.setPrev_next, Links.setNext_next, if_neg hne.symm]
  have h3 := h2.setPrev hN hf (hN.lt p ht)
  have h4 := h3.setNext hN hh (hN.lt p ht)
  unfold listPush Links.push
  dsimp only
  rw [h2.next head hh, hfirst]
  exact h4

/-- `list_push_back` is four such stores, one behind the other; each reads a
link that the ones before have left. -/
theorem listPushBack_edit (hN : Nodes N) (hh : head ∈ N) (ht : p ∈ N)
    (hne : p ≠ head) (hl : m.links.prev head ∈ N) :
    Edit N m (m.listPushBack head p) (m.links.pushBack head p) := by
  have h1 := (Edit.start N m).setNext hN ht (hN.lt head hh)
  have hlast : (m.links.setNext p head).prev head = m.links.prev head := rfl
  have h2 := h1.setPrev hN ht (hN.lt _ hl)
  have hlast' : ((m.links.setNext p head).setPrev p
      (m.links.prev head)).prev head = m.links.prev head := by
    rw [Links.setPrev_prev, if_neg hne.symm]
    rfl
  have h3 := h2.setNext hN hl (hN.lt p ht)
  have h4 := h3.setPrev hN hh (hN.lt p ht)
  unfold listPushBack Links.pushBack
  dsimp only
  rw [h1.prev head hh, hlast, h2.prev head hh, hlast']
  exact h4

/-- `list_del` is two, the second of which still finds the node's own links.
-/
theorem listDel_edit (hN : Nodes N) (hp : p ∈ N)
    (hn : m.links.next p ∈ N) (hl : m.links.prev p ∈ N)
    (hne : p ≠ m.links.prev p) :
    Edit N m (m.listDel p) (m.links.del p) := by
  have h1 := (Edit.start N m).setNext hN hl (hN.lt _ hn)
  have hnext : (m.links.setNext (m.links.prev p) (m.links.next p)).next p
      = m.links.next p := by
    rw [Links.setNext_next, if_neg hne]
  have h2 := h1.setPrev hN hn (hN.lt _ hl)
  unfold listDel Links.del
  dsimp only
  rw [h1.next p hp, h1.prev p hp, hnext]
  exact h2

/-- `list::rotate`. -/
theorem listRotate_edit (hN : Nodes N) (hr : Ring m.links head l)
    (hsub : ∀ p ∈ head :: l, p ∈ N) :
    Edit N m (m.listRotate head) (m.links.rotate head) := by
  by_cases hshort : m.links.empty head ∨ m.links.singular head
  · unfold listRotate Links.rotate
    rw [if_pos hshort, if_pos hshort]
    exact .start N m
  · obtain ⟨a, b, l, rfl⟩ : ∃ a b l', l = a :: b :: l' := by
      match l with
      | [] => exact absurd (.inl hr.seg.1.symm) hshort
      | [a] =>
          refine absurd (.inr ⟨?_, hr.first.trans hr.seg.2.2.symm⟩) hshort
          intro h
          exact List.cons_ne_nil a [] (hr.next_head_iff.mp h.symm)
      | a :: b :: l => exact ⟨a, b, l, rfl⟩
    have he := Links.ends hr
    have hh : head ∈ N := hsub head (by simp)
    have ha : a ∈ N := hsub a (by simp)
    have hb : b ∈ N := hsub b (by simp)
    have hl : m.links.prev head ∈ N := hsub _ hr.seg.prev_mem
    -- the six stores, with what the code reads for each
    have h1 := (Edit.start N m).setPrev hN hb (hN.lt head hh)
    have h2 := h1.setNext hN hl (hN.lt a ha)
    have h3 := h2.setNext hN hh (hN.lt b hb)
    have h4 := h3.setNext hN ha (hN.lt head hh)
    have h5 := h4.setPrev hN ha (hN.lt _ hl)
    have h6 := h5.setPrev hN hh (hN.lt a ha)
    have r1 := h1.prev head hh
    have r2 := h2.next a ha
    have r4 := h4.prev head hh
    simp only [Links.setPrev_prev, Links.setNext_prev, Links.setNext_next,
      Links.setPrev_next, if_neg he.b_ne.symm, if_neg he.last_ne'.symm,
      he.second] at r1 r2 r4
    have heq : m.listRotate head =
        (((((m.setPrev b head).setNext (m.links.prev head) a).setNext head
          b).setNext a head).setPrev a (m.links.prev head)).setPrev
            head a := by
      unfold listRotate
      rw [if_neg hshort]
      simp only [he.first, he.second, r1, r2, r4]
    rw [heq, he.rotate_eq]
    exact h6

end Mem

end Ntibux
