import ShompOS.Chain
import ShompOS.Heap.Allocator
import ShompOS.Heap.Pool

/-! How a pool lies in memory, and what list surgery does to it.

`Laid L m P`: the headers in `m` are those of the blocks of `P`, and each free
list is threaded through them as a chain from its head. It says nothing about
bytes that are not a header of a block, so stale headers inside blocks do not
matter. `link` and `unlink` are the two surgeries of `heap.c`; each is proved
once, together with which bytes it leaves alone (`Avoids`). -/
namespace ShompOS
open Layout Memory Heap

/-- What the surgery needs of a pool: its blocks can be told apart. -/
structure Pool.Separate (P : Pool) : Prop where
  site : ∀ {a s}, P.Block a s → Site a
  range : ∀ {a s}, P.Block a s → minBlockScale ≤ s ∧ s ≤ maxBlockScale
  unique : ∀ {a s t}, P.Block a s → P.Block a t → s = t
  exclusive : ∀ {a s t}, P.used a = some s → a ∉ P.free t

theorem Pool.Valid.separate {P : Pool} (h : P.Valid) : P.Separate :=
  ⟨h.site, fun hb => ⟨h.minScale hb, h.scale_le hb⟩, h.scale_unique, h.exclusive⟩

/-- The block at `b`, in no list yet, becomes the first free block of scale `s`. -/
def Pool.link (P : Pool) (b s : Nat) : Pool :=
  {P with free := Function.update P.free s (b :: P.free s)}

/-- What is used at `a` is no longer a block. -/
def Pool.forget (P : Pool) (a : Nat) : Pool := {P with used := Function.update P.used a none}

/-- The used block at `a` has scale `s`. -/
def Pool.rescale (P : Pool) (a s : Nat) : Pool :=
  {P with used := Function.update P.used a (some s)}

structure Laid (L : Layout) (m : Memory) (P : Pool) : Prop where
  chain : ∀ s, minBlockScale ≤ s → s ≤ maxBlockScale → Chain m.next m.prev (L.list s) (P.free s)
  free : ∀ {a s}, a ∈ P.free s → m.isFree a = 1 ∧ m.scale a = s
  used : ∀ {a s}, P.used a = some s → m.isFree a = 0 ∧ m.scale a = s ∧ m.next a = a ∧ m.prev a = a

/-- `R` contains no byte of the list heads and of the blocks' headers. -/
def Avoids (L : Layout) (R : Nat → Prop) (P : Pool) : Prop :=
  ∀ x, R x → ¬ L.ListByte x ∧ ∀ a s, P.Block a s → x < a ∨ a + 9 ≤ x

variable {L : Layout} {m : Memory} {P : Pool}

/-! ### Nodes -/

theorem Pool.Separate.node (hP : P.Separate) {q s : Nat} (hq : q ∈ L.list s :: P.free s)
    (hs : s ≤ maxBlockScale) : L.Node q := by
  rcases List.mem_cons.mp hq with rfl | hq
  · exact node_list hs
  · exact (hP.site (Or.inr hq)).node

/-- Nodes of different lists are different. -/
theorem Pool.Separate.node_ne (hP : P.Separate) {q r s t : Nat} (hst : s ≠ t)
    (hq : q ∈ L.list s :: P.free s) (hr : r ∈ L.list t :: P.free t) (hs : s ≤ maxBlockScale)
    (ht : t ≤ maxBlockScale) : q ≠ r := by
  rcases List.mem_cons.mp hq with rfl | hq <;> rcases List.mem_cons.mp hr with rfl | hr
  · exact fun he => hst (list_injective he)
  · exact list_ne_site hs (hP.site (Or.inr hr))
  · exact fun he => list_ne_site ht (hP.site (Or.inr hq)) he.symm
  · exact fun he => hst (hP.unique (Or.inr hq) (he ▸ Or.inr hr))

/-- A block outside a list is none of its nodes. -/
theorem site_ne_node {a q s : Nat} (ha : Site a) (hf : a ∉ P.free s)
    (hq : q ∈ L.list s :: P.free s) (hs : s ≤ maxBlockScale) : a ≠ q := by
  rcases List.mem_cons.mp hq with rfl | hq
  · exact fun he => list_ne_site hs ha he.symm
  · exact fun he => hf (he ▸ hq)

theorem Avoids.node {R : Nat → Prop} (hA : Avoids L R P) {q s : Nat} (hq : q ∈ L.list s :: P.free s)
    (hs : s ≤ maxBlockScale) : ∀ x, q ≤ x → x < q + 8 → ¬ R x := by
  intro x h1 h2 hR
  obtain ⟨hlist, hav⟩ := hA x hR
  rcases List.mem_cons.mp hq with rfl | hq
  · unfold Layout.list at h1 h2
    exact hlist ⟨by omega, by omega⟩
  · have := hav q s (Or.inr hq)
    omega

theorem Avoids.header {R : Nat → Prop} (hA : Avoids L R P) {a s : Nat} (ha : P.Block a s) :
    ∀ x, a ≤ x → x < a + 9 → ¬ R x := by
  intro x h1 h2 hR
  have := (hA x hR).2 a s ha
  omega

/-! ### Adding to a free list -/

section AddToFreeList
variable {b s : Nat} (hb : Site b) (hs : s ≤ maxBlockScale) (hbs : m.scale b = s)
  (hfirst : L.Node (m.next (L.list s)))
include hb hs hbs hfirst

theorem next_addToFreeList {q : Nat} (hq : L.Node q) :
    (addToFreeList L m b).next q =
      if q = L.list s then b
      else if q = b then (if m.next (L.list s) = L.list s then b else m.next (L.list s))
      else m.next q := by
  have hbn : L.Node b := hb.node
  have hln : L.Node (L.list s) := node_list hs
  have hlt : b < addressSpace := by have := hb.upper; omega
  have hne : L.list s ≠ b := list_ne_site hs hb
  unfold addToFreeList
  rw [hbs]
  by_cases he : m.next (L.list s) = L.list s
  · simp only [if_pos he, next_setIsFree _ _ hb hq, next_setPrev _ _ hbn hq,
      next_setNext _ _ hln hq hlt, next_setNext _ _ hbn hq hlt]
  · simp only [if_neg he, next_setIsFree _ _ hb hq, next_setPrev _ _ hbn hq,
      next_setNext _ _ hln hq hlt, next_setNext _ _ hbn hln (m.next_lt _), if_neg hne,
      next_setPrev _ _ hfirst hq, next_setNext _ _ hbn hq (m.next_lt _)]

theorem prev_addToFreeList {q : Nat} (hq : L.Node q) :
    (addToFreeList L m b).prev q =
      if q = b then L.list s
      else if m.next (L.list s) ≠ L.list s ∧ q = m.next (L.list s) then b
      else m.prev q := by
  have hbn : L.Node b := hb.node
  have hln : L.Node (L.list s) := node_list hs
  have hlt : b < addressSpace := by have := hb.upper; omega
  have hllt : L.list s < addressSpace := by have := hln.upper; omega
  have hne : L.list s ≠ b := list_ne_site hs hb
  unfold addToFreeList
  rw [hbs]
  by_cases he : m.next (L.list s) = L.list s
  · simp [he, prev_setIsFree _ _ hb hq, prev_setPrev _ _ hbn hq hllt, prev_setNext _ _ hln hq,
      prev_setNext _ _ hbn hq]
  · simp [he, prev_setIsFree _ _ hb hq, prev_setPrev _ _ hbn hq hllt, prev_setNext _ _ hln hq,
      next_setNext _ _ hbn hln (m.next_lt _), hne, prev_setPrev _ _ hfirst hq hlt,
      prev_setNext _ _ hbn hq]

theorem isFree_addToFreeList {q : Nat} (hq : Site q) :
    (addToFreeList L m b).isFree q = if q = b then 1 else m.isFree q := by
  have hbn : L.Node b := hb.node
  have hln : L.Node (L.list s) := node_list hs
  have hne : L.list s ≠ b := list_ne_site hs hb
  unfold addToFreeList
  rw [hbs]
  by_cases he : m.next (L.list s) = L.list s
  · simp only [if_pos he, isFree_setIsFree _ _ hb hq, isFree_setPrev _ _ hbn hq,
      isFree_setNext _ _ hln hq, isFree_setNext _ _ hbn hq, Nat.one_mod]
  · simp only [if_neg he, isFree_setIsFree _ _ hb hq, isFree_setPrev _ _ hbn hq,
      isFree_setNext _ _ hln hq, next_setNext _ _ hbn hln (m.next_lt _), if_neg hne,
      isFree_setPrev _ _ hfirst hq, isFree_setNext _ _ hbn hq, Nat.one_mod]

theorem scale_addToFreeList {q : Nat} (hq : Site q) :
    (addToFreeList L m b).scale q = m.scale q := by
  have hbn : L.Node b := hb.node
  have hln : L.Node (L.list s) := node_list hs
  have hne : L.list s ≠ b := list_ne_site hs hb
  unfold addToFreeList
  rw [hbs]
  by_cases he : m.next (L.list s) = L.list s
  · simp only [if_pos he, scale_setIsFree _ _ hb hq, scale_setPrev _ _ hbn hq,
      scale_setNext _ _ hln hq, scale_setNext _ _ hbn hq]
  · simp only [if_neg he, scale_setIsFree _ _ hb hq, scale_setPrev _ _ hbn hq,
      scale_setNext _ _ hln hq, next_setNext _ _ hbn hln (m.next_lt _), if_neg hne,
      scale_setPrev _ _ hfirst hq, scale_setNext _ _ hbn hq]

theorem spares_addToFreeList {R : Nat → Prop} (hRb : ∀ x, b ≤ x → x < b + 9 → ¬ R x)
    (hRl : ∀ x, L.list s ≤ x → x < L.list s + 8 → ¬ R x)
    (hRf : ∀ x, m.next (L.list s) ≤ x → x < m.next (L.list s) + 8 → ¬ R x) :
    Spares R m (addToFreeList L m b) := by
  have hbn : L.Node b := hb.node
  have hln : L.Node (L.list s) := node_list hs
  have hne : L.list s ≠ b := list_ne_site hs hb
  have hRb' : ∀ x, b ≤ x → x < b + 8 → ¬ R x := fun x h1 h2 => hRb x h1 (by omega)
  unfold addToFreeList
  rw [hbs]
  -- the last three stores are the same in both branches
  have htail : ∀ m' : Memory,
      Spares R m' (((m'.setNext (L.list s) b).setPrev b (L.list s)).setIsFree b 1) := fun m' =>
    ((spares_setNext m' _ hln hRl).trans (spares_setPrev _ _ hbn hRb')).trans
      (spares_setIsFree _ _ hb hRb)
  by_cases he : m.next (L.list s) = L.list s
  · simp only [if_pos he]
    exact (spares_setNext m _ hbn hRb').trans (htail _)
  · simp only [if_neg he, next_setNext _ _ hbn hln (m.next_lt _), if_neg hne]
    exact ((spares_setNext m _ hbn hRb').trans (spares_setPrev _ _ hfirst hRf)).trans (htail _)

end AddToFreeList

/-! ### Removing from a free list -/

section RemoveFromFreeList
variable {b : Nat} (hb : Site b) (hprev : L.Node (m.prev b)) (hnext : L.Node (m.next b))
  (hne : m.prev b ≠ b)
include hb hprev hnext hne

theorem next_removeFromFreeList {q : Nat} (hq : L.Node q) :
    (removeFromFreeList m b).next q =
      if q = b then b
      else if q = m.prev b then (if m.next b = b then m.prev b else m.next b)
      else m.next q := by
  have hbn : L.Node b := hb.node
  have hlt : b < addressSpace := by have := hb.upper; omega
  unfold removeFromFreeList
  by_cases he : m.next b = b
  · simp [he, next_setIsFree _ _ hb hq, next_setNext _ _ hbn hq hlt, next_setPrev _ _ hbn hq,
      next_setNext _ _ hprev hq (m.prev_lt b)]
  · simp [he, next_setIsFree _ _ hb hq, next_setNext _ _ hbn hq hlt, next_setPrev _ _ hbn hq,
      next_setNext _ _ hprev hbn (m.next_lt b), Ne.symm hne, next_setPrev _ _ hnext hq,
      next_setNext _ _ hprev hq (m.next_lt b)]

theorem prev_removeFromFreeList {q : Nat} (hq : L.Node q) :
    (removeFromFreeList m b).prev q =
      if q = b then b
      else if m.next b ≠ b ∧ q = m.next b then m.prev b
      else m.prev q := by
  have hbn : L.Node b := hb.node
  have hlt : b < addressSpace := by have := hb.upper; omega
  unfold removeFromFreeList
  by_cases he : m.next b = b
  · simp [he, prev_setIsFree _ _ hb hq, prev_setNext _ _ hbn hq, prev_setPrev _ _ hbn hq hlt,
      prev_setNext _ _ hprev hq]
  · simp [he, prev_setIsFree _ _ hb hq, prev_setNext _ _ hbn hq, prev_setPrev _ _ hbn hq hlt,
      next_setNext _ _ hprev hbn (m.next_lt b), Ne.symm hne, prev_setNext _ _ hprev hbn,
      prev_setPrev _ _ hnext hq (m.prev_lt b), prev_setNext _ _ hprev hq]

theorem isFree_removeFromFreeList {q : Nat} (hq : Site q) :
    (removeFromFreeList m b).isFree q = if q = b then 0 else m.isFree q := by
  have hbn : L.Node b := hb.node
  unfold removeFromFreeList
  by_cases he : m.next b = b
  · simp [he, isFree_setIsFree _ _ hb hq, isFree_setNext _ _ hbn hq, isFree_setPrev _ _ hbn hq,
      isFree_setNext _ _ hprev hq]
  · simp [he, isFree_setIsFree _ _ hb hq, isFree_setNext _ _ hbn hq, isFree_setPrev _ _ hbn hq,
      next_setNext _ _ hprev hbn (m.next_lt b), Ne.symm hne, isFree_setPrev _ _ hnext hq,
      isFree_setNext _ _ hprev hq]

theorem scale_removeFromFreeList {q : Nat} (hq : Site q) :
    (removeFromFreeList m b).scale q = m.scale q := by
  have hbn : L.Node b := hb.node
  unfold removeFromFreeList
  by_cases he : m.next b = b
  · simp [he, scale_setIsFree _ _ hb hq, scale_setNext _ _ hbn hq, scale_setPrev _ _ hbn hq,
      scale_setNext _ _ hprev hq]
  · simp [he, scale_setIsFree _ _ hb hq, scale_setNext _ _ hbn hq, scale_setPrev _ _ hbn hq,
      next_setNext _ _ hprev hbn (m.next_lt b), Ne.symm hne, scale_setPrev _ _ hnext hq,
      scale_setNext _ _ hprev hq]

theorem spares_removeFromFreeList {R : Nat → Prop} (hRb : ∀ x, b ≤ x → x < b + 9 → ¬ R x)
    (hRp : ∀ x, m.prev b ≤ x → x < m.prev b + 8 → ¬ R x)
    (hRn : ∀ x, m.next b ≤ x → x < m.next b + 8 → ¬ R x) :
    Spares R m (removeFromFreeList m b) := by
  have hbn : L.Node b := hb.node
  have hRb' : ∀ x, b ≤ x → x < b + 8 → ¬ R x := fun x h1 h2 => hRb x h1 (by omega)
  unfold removeFromFreeList
  have htail : ∀ m' : Memory,
      Spares R m' (((m'.setPrev b b).setNext b b).setIsFree b 0) := fun m' =>
    ((spares_setPrev m' _ hbn hRb').trans (spares_setNext _ _ hbn hRb')).trans
      (spares_setIsFree _ _ hb hRb)
  by_cases he : m.next b = b
  · simp only [if_pos he]
    exact (spares_setNext m _ hprev hRp).trans (htail _)
  · simp only [if_neg he, next_setNext _ _ hprev hbn (m.next_lt b), if_neg (Ne.symm hne)]
    exact ((spares_setNext m _ hprev hRp).trans (spares_setPrev _ _ hnext hRn)).trans (htail _)

end RemoveFromFreeList

/-! ### The two surgeries on a laid pool -/

theorem Laid.first_node (hm : Laid L m P) {s : Nat} (hmin : minBlockScale ≤ s)
    (hs : s ≤ maxBlockScale) : m.next (L.list s) ∈ L.list s :: P.free s := by
  have hc := hm.chain s hmin hs
  cases hf : P.free s with
  | nil =>
    rw [hf] at hc
    exact List.mem_cons.mpr (Or.inl (hc.end_iff.mpr rfl))
  | cons a rest =>
    rw [hf] at hc
    exact List.mem_cons_of_mem _ (by rw [hc.first]; exact List.mem_cons_self ..)

/-- Adding to a free list a block that is in none. -/
theorem Laid.link (hm : Laid L m P) (hP : P.Separate) {b s : Nat} (hb : Site b)
    (hnew : ∀ t, ¬ P.Block b t) (hmin : minBlockScale ≤ s) (hs : s ≤ maxBlockScale)
    (hbs : m.scale b = s) : Laid L (addToFreeList L m b) (P.link b s) := by
  have hfirst := hm.first_node hmin hs
  have hfn := hP.node hfirst hs
  have hbf : ∀ t, b ∉ P.free t := fun t ht => hnew t (Or.inr ht)
  have hbl : ∀ t, t ≤ maxBlockScale → L.list t ≠ b := fun t ht => list_ne_site ht hb
  constructor
  case chain =>
    intro t htmin ht
    have hc := hm.chain t htmin ht
    by_cases hts : t = s
    · subst hts
      simp only [Pool.link, Function.update_self]
      have hln : L.Node (L.list t) := node_list ht
      have hnext : ∀ q ∈ L.list t :: P.free t, q ≠ L.list t →
          (addToFreeList L m b).next q = m.next q := by
        intro q hq hql
        rw [next_addToFreeList hb ht hbs hfn (hP.node hq ht), if_neg hql,
          if_neg (Ne.symm (site_ne_node hb (hbf t) hq ht))]
      have hb' : (addToFreeList L m b).next b =
          if m.next (L.list t) = L.list t then b else m.next (L.list t) := by
        rw [next_addToFreeList hb ht hbs hfn hb.node, if_neg (Ne.symm (hbl t ht)), if_pos rfl]
      refine hc.push (b := b) ?_ ?_ ?_ ?_ (fun he => by rw [hb', if_pos he])
        (fun he => by rw [hb', if_neg he]) ?_ ?_ ?_
      · exact fun hmem => site_ne_node hb (hbf t) hmem ht rfl
      · rw [next_addToFreeList hb ht hbs hfn hln, if_pos rfl]
      · rw [prev_addToFreeList hb ht hbs hfn hb.node, if_pos rfl]
      · rw [prev_addToFreeList hb ht hbs hfn hln, if_neg (hbl t ht), if_neg]
        exact fun h => h.1 h.2.symm
      · intro he
        rw [prev_addToFreeList hb ht hbs hfn hfn, if_neg, if_pos ⟨he, rfl⟩]
        exact Ne.symm (site_ne_node hb (hbf t) hfirst ht)
      · intro q hq
        exact hnext q (List.mem_cons_of_mem _ hq) fun he => hc.head_not_mem (he ▸ hq)
      · intro q hq hqn
        have hq' := List.mem_cons_of_mem (L.list t) hq
        rw [prev_addToFreeList hb ht hbs hfn (hP.node hq' ht),
          if_neg (Ne.symm (site_ne_node hb (hbf t) hq' ht)), if_neg fun h => hqn h.2]
    · simp only [Pool.link, Function.update_of_ne hts]
      have hother : ∀ q ∈ L.list t :: P.free t, L.Node q ∧ q ≠ b ∧ q ≠ L.list s ∧
          q ≠ m.next (L.list s) := fun q hq =>
        ⟨hP.node hq ht, Ne.symm (site_ne_node hb (hbf t) hq ht),
          hP.node_ne hts hq (List.mem_cons_self ..) ht hs, hP.node_ne hts hq hfirst ht hs⟩
      refine hc.congr (fun q hq => ?_) fun q hq => ?_
      · obtain ⟨hqn, hqb, hql, _⟩ := hother q hq
        rw [next_addToFreeList hb hs hbs hfn hqn, if_neg hql, if_neg hqb]
      · obtain ⟨hqn, hqb, _, hqf⟩ := hother q hq
        rw [prev_addToFreeList hb hs hbs hfn hqn, if_neg hqb, if_neg fun h => hqf h.2]
  case free =>
    intro a t ha
    by_cases hab : a = b
    · subst hab
      rw [isFree_addToFreeList hb hs hbs hfn hb, if_pos rfl,
        scale_addToFreeList hb hs hbs hfn hb, hbs]
      refine ⟨rfl, ?_⟩
      by_contra hne
      simp only [Pool.link, Function.update_of_ne (Ne.symm hne)] at ha
      exact hbf t ha
    · have hat : a ∈ P.free t := by
        by_cases hts : t = s
        · subst hts
          simpa [Pool.link, hab] using ha
        · simpa [Pool.link, Function.update_of_ne hts] using ha
      have hsite := hP.site (Or.inr hat)
      rw [isFree_addToFreeList hb hs hbs hfn hsite, if_neg hab,
        scale_addToFreeList hb hs hbs hfn hsite]
      exact hm.free hat
  case used =>
    intro a t ha
    have ha' : P.used a = some t := ha
    have hsite := hP.site (Or.inl ha')
    have hab : a ≠ b := fun he => hnew t (Or.inl (he ▸ ha'))
    have hal : a ≠ L.list s := Ne.symm (list_ne_site hs hsite)
    have haf : a ≠ m.next (L.list s) := site_ne_node hsite (hP.exclusive ha') hfirst hs
    rw [isFree_addToFreeList hb hs hbs hfn hsite, if_neg hab,
      scale_addToFreeList hb hs hbs hfn hsite, next_addToFreeList hb hs hbs hfn hsite.node,
      if_neg hal, if_neg hab, prev_addToFreeList hb hs hbs hfn hsite.node, if_neg hab,
      if_neg fun h => haf h.2]
    exact hm.used ha'

theorem Laid.link_spares (hm : Laid L m P) (hP : P.Separate) {R : Nat → Prop} {b s : Nat}
    (hb : Site b) (hmin : minBlockScale ≤ s) (hs : s ≤ maxBlockScale) (hbs : m.scale b = s)
    (hA : Avoids L R (P.link b s)) (hA' : Avoids L R P) : Spares R m (addToFreeList L m b) := by
  have hfirst := hm.first_node hmin hs
  refine spares_addToFreeList hb hs hbs (hP.node hfirst hs) (hA.header (s := s) ?_)
    (hA'.node (List.mem_cons_self ..) hs) (hA'.node hfirst hs)
  simp [Pool.Block, Pool.link]

/-- What a removal reads: the neighbours of a free block are nodes of its list. -/
theorem Laid.neighbours (hm : Laid L m P) (hP : P.Separate) {b s : Nat} (hb : b ∈ P.free s) :
    m.prev b ∈ L.list s :: P.free s ∧ m.next b ∈ P.free s ∧ m.prev b ≠ b := by
  have hr := hP.range (Or.inr hb)
  have hc := hm.chain s hr.1 hr.2
  obtain ⟨pre, post, he⟩ := List.append_of_mem hb
  have hl := hc.linked
  rw [he] at hl
  obtain ⟨hprev, hnext⟩ := hl.around
  have hn := hc.nodup
  rw [he] at hn ⊢
  refine ⟨?_, List.mem_append_right pre hnext, fun hself => ?_⟩
  · rcases List.mem_cons.mp hprev with h | h
    · exact List.mem_cons.mpr (Or.inl h)
    · exact List.mem_cons_of_mem _ (List.mem_append_left _ h)
  · rw [hself] at hprev
    rw [← List.cons_append, List.nodup_middle, List.nodup_cons] at hn
    exact hn.1 (List.mem_append_left post hprev)

/-- Removing a block from its free list. -/
theorem Laid.take (hm : Laid L m P) (hP : P.Separate) {b s : Nat} (hb : b ∈ P.free s)
    (hnodup : (P.free s).Nodup) : Laid L (removeFromFreeList m b) (P.take b s) := by
  have hr := hP.range (Or.inr hb)
  have hsite := hP.site (Or.inr hb)
  obtain ⟨hprev, hnext, hne⟩ := hm.neighbours hP hb
  have hnext' := List.mem_cons_of_mem (L.list s) hnext
  have hpn := hP.node hprev hr.2
  have hnn := hP.node hnext' hr.2
  constructor
  case chain =>
    intro t htmin ht
    have hc := hm.chain t htmin ht
    by_cases hts : t = s
    · subst hts
      simp only [Pool.take, Function.update_self]
      have hprev' : (removeFromFreeList m b).next (m.prev b) =
          if m.next b = b then m.prev b else m.next b := by
        rw [next_removeFromFreeList hsite hpn hnn hne hpn, if_neg hne, if_pos rfl]
      refine hc.unlink hb (fun he => by rw [hprev', if_pos he])
        (fun he => by rw [hprev', if_neg he]) ?_ ?_ ?_
      · intro he
        rw [prev_removeFromFreeList hsite hpn hnn hne hnn, if_neg he, if_pos ⟨he, rfl⟩]
      · intro q hq hqb hqp
        rw [next_removeFromFreeList hsite hpn hnn hne (hP.node hq ht), if_neg hqb, if_neg hqp]
      · intro q hq hqb hqn
        rw [prev_removeFromFreeList hsite hpn hnn hne (hP.node hq ht), if_neg hqb,
          if_neg fun h => hqn h.2]
    · simp only [Pool.take, Function.update_of_ne hts]
      have hb' := List.mem_cons_of_mem (L.list s) hb
      refine hc.congr (fun q hq => ?_) fun q hq => ?_
      · rw [next_removeFromFreeList hsite hpn hnn hne (hP.node hq ht),
          if_neg (hP.node_ne hts hq hb' ht hr.2), if_neg (hP.node_ne hts hq hprev ht hr.2)]
      · rw [prev_removeFromFreeList hsite hpn hnn hne (hP.node hq ht),
          if_neg (hP.node_ne hts hq hb' ht hr.2),
          if_neg fun h => hP.node_ne hts hq hnext' ht hr.2 h.2]
  case free =>
    intro a t ha
    have hat : a ∈ P.free t ∧ a ≠ b := by
      by_cases hts : t = s
      · subst hts
        simp only [Pool.take, Function.update_self] at ha
        exact ⟨List.mem_of_mem_erase ha, fun he => hnodup.not_mem_erase (he ▸ ha)⟩
      · simp only [Pool.take, Function.update_of_ne hts] at ha
        exact ⟨ha, fun he => hts (hP.unique (Or.inr (he ▸ ha)) (Or.inr hb))⟩
    have hasite := hP.site (Or.inr hat.1)
    rw [isFree_removeFromFreeList hsite hpn hnn hne hasite, if_neg hat.2,
      scale_removeFromFreeList hsite hpn hnn hne hasite]
    exact hm.free hat.1
  case used =>
    intro a t ha
    by_cases hab : a = b
    · subst hab
      simp only [Pool.take, Function.update_self, Option.some.injEq] at ha
      subst ha
      rw [isFree_removeFromFreeList hsite hpn hnn hne hsite, if_pos rfl,
        scale_removeFromFreeList hsite hpn hnn hne hsite,
        next_removeFromFreeList hsite hpn hnn hne hsite.node, if_pos rfl,
        prev_removeFromFreeList hsite hpn hnn hne hsite.node, if_pos rfl]
      exact ⟨rfl, (hm.free hb).2, rfl, rfl⟩
    · simp only [Pool.take, Function.update_of_ne hab] at ha
      have hasite := hP.site (Or.inl ha)
      have hout := hP.exclusive (t := s) ha
      rw [isFree_removeFromFreeList hsite hpn hnn hne hasite, if_neg hab,
        scale_removeFromFreeList hsite hpn hnn hne hasite,
        next_removeFromFreeList hsite hpn hnn hne hasite.node, if_neg hab,
        if_neg (site_ne_node hasite hout hprev hr.2),
        prev_removeFromFreeList hsite hpn hnn hne hasite.node, if_neg hab,
        if_neg fun h => site_ne_node hasite hout hnext' hr.2 h.2]
      exact hm.used ha

theorem Laid.take_spares (hm : Laid L m P) (hP : P.Separate) {R : Nat → Prop} {b s : Nat}
    (hb : b ∈ P.free s) (hA : Avoids L R P) : Spares R m (removeFromFreeList m b) := by
  have hr := hP.range (Or.inr hb)
  obtain ⟨hprev, hnext, hne⟩ := hm.neighbours hP hb
  have hnext' := List.mem_cons_of_mem (L.list s) hnext
  exact spares_removeFromFreeList (hP.site (Or.inr hb)) (hP.node hprev hr.2) (hP.node hnext' hr.2)
    hne (hA.header (Or.inr hb)) (hA.node hprev hr.2) (hA.node hnext' hr.2)

/-! ### Scales and forgotten blocks -/

theorem Laid.forget (hm : Laid L m P) (a : Nat) : Laid L m (P.forget a) where
  chain := hm.chain
  free := hm.free
  used := by
    intro x t hx
    by_cases hxa : x = a
    · simp [Pool.forget, hxa] at hx
    · simp only [Pool.forget, Function.update_of_ne hxa] at hx
      exact hm.used hx

/-- Writing a used block's scale, or the scale of what is no block. -/
theorem Laid.setScale (hm : Laid L m P) (hP : P.Separate) {a s : Nat} (ha : Site a)
    (hf : ∀ t, a ∉ P.free t) (hs : s ≤ maxBlockScale) :
    Laid L (m.setScale a s) (if P.used a = none then P else P.rescale a s) := by
  have hs7 : s < 2 ^ 7 := by
    have : maxBlockScale < 2 ^ 7 := by decide
    omega
  have hfree : ∀ P' : Pool, P'.free = P.free →
      (∀ t, minBlockScale ≤ t → t ≤ maxBlockScale →
        Chain (m.setScale a s).next (m.setScale a s).prev (L.list t) (P'.free t)) ∧
      ∀ {x t}, x ∈ P'.free t → (m.setScale a s).isFree x = 1 ∧ (m.setScale a s).scale x = t := by
    intro P' he
    rw [he]
    refine ⟨fun t htmin ht => ?_, fun {x t} hx => ?_⟩
    · exact (hm.chain t htmin ht).congr (fun q hq => next_setScale _ _ ha (hP.node hq ht))
        fun q hq => prev_setScale _ _ ha (hP.node hq ht)
    · have hsite := hP.site (Or.inr hx)
      have hxa : x ≠ a := fun he => hf t (he ▸ hx)
      rw [isFree_setScale _ _ ha hsite, scale_setScale _ _ ha hsite hs7, if_neg hxa]
      exact hm.free hx
  have hused : ∀ {x t}, x ≠ a → P.used x = some t →
      (m.setScale a s).isFree x = 0 ∧ (m.setScale a s).scale x = t ∧
        (m.setScale a s).next x = x ∧ (m.setScale a s).prev x = x := by
    intro x t hxa hx
    have hsite := hP.site (Or.inl hx)
    rw [isFree_setScale _ _ ha hsite, scale_setScale _ _ ha hsite hs7, if_neg hxa,
      next_setScale _ _ ha hsite.node (L := L), prev_setScale _ _ ha hsite.node (L := L)]
    exact hm.used hx
  by_cases hu : P.used a = none
  · rw [if_pos hu]
    exact ⟨(hfree P rfl).1, (hfree P rfl).2, fun {x t} hx =>
      hused (fun he => by rw [he, hu] at hx; cases hx) hx⟩
  · rw [if_neg hu]
    refine ⟨(hfree _ rfl).1, (hfree _ rfl).2, fun {x t} hx => ?_⟩
    by_cases hxa : x = a
    · subst hxa
      simp only [Pool.rescale, Function.update_self, Option.some.injEq] at hx
      subst hx
      obtain ⟨u, hu'⟩ := Option.ne_none_iff_exists'.mp hu
      rw [isFree_setScale _ _ ha ha, scale_setScale _ _ ha ha hs7, if_pos rfl,
        next_setScale _ _ ha ha.node (L := L), prev_setScale _ _ ha ha.node (L := L)]
      have := hm.used hu'
      exact ⟨this.1, rfl, this.2.2⟩
    · simp only [Pool.rescale, Function.update_of_ne hxa] at hx
      exact hused hxa hx

theorem Laid.rescale (hm : Laid L m P) (hP : P.Separate) {a s t : Nat} (ha : P.used a = some t)
    (hs : s ≤ maxBlockScale) : Laid L (m.setScale a s) (P.rescale a s) := by
  have := hm.setScale hP (s := s) (hP.site (Or.inl ha)) (fun _ => hP.exclusive ha) hs
  rwa [if_neg (by simp [ha])] at this

theorem Laid.setScale_fresh (hm : Laid L m P) (hP : P.Separate) {a s : Nat} (ha : Site a)
    (hnew : ∀ t, ¬ P.Block a t) (hs : s ≤ maxBlockScale) : Laid L (m.setScale a s) P := by
  have := hm.setScale hP (s := s) ha (fun t ht => hnew t (Or.inr ht)) hs
  rwa [if_pos (Option.eq_none_iff_forall_ne_some.mpr fun t ht => hnew t (Or.inl ht))] at this

end ShompOS
