import ShompOS.Heap.Order

/-! Which headers `free` reads or writes.

Each routine has its list of headers, made by the same steps as the routine. Every
one is the head of a free list or starts a block of the heap, with one exception:
the loop that merges reads `is_free` of the next buddy before it looks at the scale,
so a block that has become one of the largest is asked for a buddy too. If it is the
last of the heap and its buddy would be above it, that header is read behind the end
of the heap. -/
namespace ShompOS
open Layout Memory

namespace Heap
variable (L : Layout)

/-- The headers of `__blkmngr_add_to_free_list`. -/
def addHeaders (m : Memory) (block : Nat) : List Nat :=
  [block, L.list (m.scale block), m.next (L.list (m.scale block))]

/-- The headers of `__blkmngr_remove_from_free_list`. -/
def removeHeaders (m : Memory) (block : Nat) : List Nat := [block, m.prev block, m.next block]

/-- The headers of the `while` loop of `__blkmngr_coalesce_block`. The guard starts with
`buddy->is_free`, also when it fails for the scale that the loop may not pass. -/
def coalesceHeaders : (rounds : Nat) → Memory → (currBlock : Nat) → List Nat
  | 0, m, currBlock => [currBlock, addOffset currBlock (buddyOffset currBlock (m.scale currBlock))]
  | rounds + 1, m, currBlock =>
    let offset := buddyOffset currBlock (m.scale currBlock)
    let buddy := addOffset currBlock offset
    currBlock :: buddy ::
      if m.isFree buddy ≠ 0 ∧ m.scale buddy = m.scale currBlock ∧ m.scale currBlock < maxBlockScale then
        let currBlock := if offset < 0 then buddy else currBlock
        let m' := removeFromFreeList m buddy
        removeHeaders m buddy ++ coalesceHeaders rounds (m'.setScale currBlock (m'.scale currBlock + 1)) currBlock
      else []

/-- The headers of the growing loop of `brk`. -/
def growHeaders (addr : Nat) : (rounds : Nat) → Heap → List Nat
  | 0, _ => []
  | rounds + 1, h =>
    if addr > h.currentBrk then
      let m := h.mem.setScale h.currentBrk maxBlockScale
      addHeaders L m h.currentBrk ++
        growHeaders addr rounds ⟨addToFreeList L m h.currentBrk, wrap (h.currentBrk + 2 ^ maxBlockScale)⟩
    else []

/-- The headers of the shrinking loop of `brk`. -/
def shrinkHeaders (addr : Nat) : (rounds : Nat) → Heap → List Nat
  | 0, _ => []
  | rounds + 1, h =>
    if addr < h.currentBrk then
      let block := wrap (h.currentBrk + (addressSpace - 2 ^ maxBlockScale))
      block :: if h.mem.scale block ≠ maxBlockScale ∨ h.mem.isFree block = 0 then []
        else removeHeaders h.mem block ++ shrinkHeaders addr rounds ⟨removeFromFreeList h.mem block, block⟩
    else []

/-- The headers of `brk`. -/
def brkHeaders (h : Heap) (addr : Nat) : List Nat :=
  if addr > h.currentBrk then growHeaders L addr brkRounds h else shrinkHeaders addr brkRounds h

/-- The headers of `sbrk`. -/
def sbrkHeaders (h : Heap) (inc : Int) : List Nat :=
  if inc = 0 then [] else brkHeaders L h (addOffset h.currentBrk (inc * 2 ^ maxBlockScale))

/-- The headers of `free`. -/
def freeHeaders (h : Heap) (data : Nat) : List Nat :=
  if data = 0 then []
  else
    let block := wrap (data + (addressSpace - headerSize))
    block :: if h.mem.next block ≠ block ∨ h.mem.prev block ≠ block then []
      else
        let (m, merged) := coalesceBlock h.mem block
        let m' := addToFreeList L m merged
        coalesceHeaders (maxBlockScale - h.mem.scale block) h.mem block ++ addHeaders L m merged ++
          if m'.scale merged = maxBlockScale ∧ h.currentBrk = wrap (merged + 2 ^ maxBlockScale) then
            sbrkHeaders L ⟨m', h.currentBrk⟩ (-1)
          else []

end Heap

variable {L : Layout} {P P' : Pool} {m : Memory} {a s a' s' : Nat}

/-! ### Heads and blocks -/

/-- The head of a free list, or where a block starts. -/
def Pool.Known (L : Layout) (P : Pool) (x : Nat) : Prop :=
  (∃ t, minBlockScale ≤ t ∧ t ≤ maxBlockScale ∧ x = L.list t) ∨ ∃ t, P.Block x t

theorem Pool.known_node (h : P.Valid) {t q : Nat} (hb : P.Block a t) (hq : q ∈ L.list t :: P.free t) : P.Known L q := by
  cases List.mem_cons.mp hq with
  | inl hq => exact Or.inl ⟨t, h.minScale hb, h.scale_le hb, hq⟩
  | inr hq => exact Or.inr ⟨t, Or.inr hq⟩

/-- Nothing starts at the end of the heap. -/
theorem Pool.Valid.brk_not_known (h : P.Valid) : ¬ P.Known L P.brk := by
  intro hk
  cases hk with
  | inl hlist =>
    obtain ⟨t, -, ht, he⟩ := hlist
    have := list_lt (L := L) ht
    have := h.tiling.ordered
    omega
  | inr hblock =>
    obtain ⟨t, ht⟩ := hblock
    exact h.brk_fresh ht

/-- A merge starts no block. -/
theorem Pool.Known.of_merge (h : P.Valid) (ha : P.used a = some s) (hb : buddyOf heapLowerBound a s ∈ P.free s)
    (hs : s < maxBlockScale) {x : Nat}
    (hx : ((P.take (buddyOf heapLowerBound a s) s).merge
      (min a (buddyOf heapLowerBound a s)) s).Known L x) : P.Known L x := by
  obtain ⟨hlo, hhi, -, -⟩ := Pool.merge_buddy h ha hb hs
  have hv := Pool.take_valid h hb
  cases hx with
  | inl hlist => exact Or.inl hlist
  | inr hblock =>
    obtain ⟨t, ht⟩ := hblock
    cases (Pool.merge_block hv hlo hhi x t).mp ht with
    | inl hlow => exact Or.inr ⟨s, (Pool.take_block h hb x s).mp (hlow.1 ▸ Or.inl hlo)⟩
    | inr hold => exact Or.inr ⟨t, (Pool.take_block h hb x t).mp hold.1⟩

/-- A removal stays in the list. -/
theorem Stands.removeHeaders_known (h : Stands L m P) (ha : a ∈ P.free s) : ∀ x ∈ Heap.removeHeaders m a,
    P.Known L x := by
  have hv := h.valid
  obtain ⟨hprev, hnext, -⟩ := h.laid.neighbours hv.separate ha
  intro x hx
  simp only [Heap.removeHeaders, List.mem_cons, List.not_mem_nil, or_false] at hx
  rcases hx with rfl | rfl | rfl
  · exact Or.inr ⟨s, Or.inr ha⟩
  · exact Pool.known_node hv (Or.inr ha) hprev
  · exact Or.inr ⟨s, Or.inr hnext⟩

/-- The place of a largest block's buddy is a place of the heap, unless it is the end of the heap. -/
theorem Pool.Valid.last_buddy (h : P.Valid) (ha : P.Block a maxBlockScale) :
    (∃ t, P.Block (buddyOf heapLowerBound a maxBlockScale) t) ∨
      buddyOf heapLowerBound a maxBlockScale = P.brk ∧ P.brk = a + 2 ^ maxBlockScale ∧
        2 ^ (maxBlockScale + 1) ∣ a - heapLowerBound := by
  have hlow := h.tiling.lower ha
  have hup := h.tiling.upper ha
  have hal := h.tiling.aligned ha
  have hpM := two_pow_pos' maxBlockScale
  rcases Tiling.buddyOf_pair hlow hal with ⟨hd, hb⟩ | ⟨hle, hd, hb⟩
  · rw [hb]
    by_cases hend : P.brk = a + 2 ^ maxBlockScale
    · exact Or.inr ⟨hend.symm, hend, hd⟩
    · apply Or.inl
      apply h.tiling.block_at_multiple (by omega) (by omega)
      rw [Nat.sub_add_comm hlow]
      exact Nat.dvd_add hal (Nat.dvd_refl _)
  · rw [hb]
    apply Or.inl
    apply h.tiling.block_at_multiple (by omega) (by omega)
    exact (pow_dvd_pow 2 (Nat.le_succ _)).trans hd

/-! ### Merging -/

/-- Every block that merging ends with was a block before. -/
theorem Pool.coalesce_known {k : Nat} (h : P.Valid) (ha : P.used a = some s) (hk : s + k = maxBlockScale)
    (he : P.coalesce k a s = (P', a', s')) {x : Nat} (hx : P'.Known L x) : P.Known L x := by
  induction k generalizing P a s with
  | zero =>
    simp only [Pool.coalesce, Prod.mk.injEq] at he
    obtain ⟨rfl, rfl, rfl⟩ := he
    exact hx
  | succ k ih =>
    have hs : s < maxBlockScale := by omega
    unfold Pool.coalesce at he
    by_cases hb : buddyOf heapLowerBound a s ∈ P.free s
    · simp only [if_pos hb] at he
      obtain ⟨-, -, hv, hused⟩ := Pool.merge_buddy h ha hb hs
      have hnext := ih hv (by rw [hused]; simp) (by omega) he
      exact hnext.of_merge h ha hb hs
    · simp only [if_neg hb, Prod.mk.injEq] at he
      obtain ⟨rfl, rfl, rfl⟩ := he
      exact hx

/-- The block merged to is the heap's last and of the largest scale, and the place of its buddy is above it. -/
def Pool.Overlooks (P : Pool) (a s : Nat) : Prop :=
  s = maxBlockScale ∧ P.brk = a + 2 ^ maxBlockScale ∧ 2 ^ (maxBlockScale + 1) ∣ a - heapLowerBound

/-- One round of the loop. -/
theorem Stands.coalesceHeaders_succ (h : Stands L m P) (ha : P.used a = some s) (hs : s < maxBlockScale) (k : Nat) :
    Heap.coalesceHeaders (k + 1) m a = a :: buddyOf heapLowerBound a s ::
      if buddyOf heapLowerBound a s ∈ P.free s then
        Heap.removeHeaders m (buddyOf heapLowerBound a s) ++
          Heap.coalesceHeaders k ((Heap.removeFromFreeList m (buddyOf heapLowerBound a s)).setScale
            (min a (buddyOf heapLowerBound a s)) (s + 1)) (min a (buddyOf heapLowerBound a s))
      else [] := by
  have hscale := (h.laid.used ha).2.1
  obtain ⟨haddr, -⟩ := buddy_address h.valid (Or.inl ha)
  rw [Heap.coalesceHeaders]
  simp only [hscale, haddr]
  by_cases hb : buddyOf heapLowerBound a s ∈ P.free s
  · have hguard := (h.buddy_free_iff ha hs).mpr hb
    obtain ⟨hlo, -, -, -⟩ := Pool.merge_buddy h.valid ha hb hs
    rw [if_pos ⟨hguard.1, hguard.2, hs⟩, if_pos hb, lower_of_offset h.valid (Or.inl ha),
      ((h.take hb).laid.used hlo).2.1]
  · rw [if_neg fun hg => hb ((h.buddy_free_iff ha hs).mp ⟨hg.1, hg.2.1⟩), if_neg hb]

/-- What the loop inspects once it is at the largest scale. -/
theorem Stands.coalesceHeaders_zero (h : Stands L m P) (ha : P.used a = some maxBlockScale) :
    Heap.coalesceHeaders 0 m a = [a, buddyOf heapLowerBound a maxBlockScale] := by
  obtain ⟨haddr, -⟩ := buddy_address h.valid (Or.inl ha)
  rw [Heap.coalesceHeaders, (h.laid.used ha).2.1, haddr]

/-- The loop inspects heads and blocks, and at most the end of the heap besides. -/
theorem Stands.coalesceHeaders_known {k : Nat} (h : Stands L m P) (ha : P.used a = some s) (hk : s + k = maxBlockScale)
    (he : P.coalesce k a s = (P', a', s')) :
    ∀ x ∈ Heap.coalesceHeaders k m a, P.Known L x ∨ x = P.brk ∧ P.Overlooks a' s' := by
  have hself : P.Known L a := Or.inr ⟨s, Or.inl ha⟩
  induction k generalizing m P a s with
  | zero =>
    simp only [Pool.coalesce, Prod.mk.injEq] at he
    obtain ⟨rfl, rfl, rfl⟩ := he
    obtain rfl : s = maxBlockScale := hk
    rw [h.coalesceHeaders_zero ha]
    intro x hx
    cases List.mem_pair.mp hx with
    | inl hx => exact Or.inl (hx ▸ hself)
    | inr hx =>
      rw [hx]
      cases h.valid.last_buddy (Or.inl ha) with
      | inl hblock => exact Or.inl (Or.inr hblock)
      | inr hend => exact Or.inr ⟨hend.1, rfl, hend.2⟩
  | succ k ih =>
    have hs : s < maxBlockScale := by omega
    rw [h.coalesceHeaders_succ ha hs k]
    obtain ⟨t, -, hbuddy⟩ := h.valid.tiling.buddy_block (Or.inl ha) hs
    intro x hx
    unfold Pool.coalesce at he
    rcases List.mem_cons.mp hx with hx | hx
    · exact Or.inl (hx ▸ hself)
    rcases List.mem_cons.mp hx with hx | hx
    · exact Or.inl (Or.inr ⟨t, hx ▸ hbuddy⟩)
    by_cases hb : buddyOf heapLowerBound a s ∈ P.free s
    · simp only [if_pos hb] at he
      rw [if_pos hb] at hx
      obtain ⟨-, hmerge⟩ := h.coalesceUp_merge ha hs hb k
      obtain ⟨-, -, -, hused⟩ := Pool.merge_buddy h.valid ha hb hs
      have hlo : ((P.take (buddyOf heapLowerBound a s) s).merge (min a (buddyOf heapLowerBound a s)) s).used
          (min a (buddyOf heapLowerBound a s)) = some (s + 1) := by rw [hused, Function.update_self]
      cases List.mem_append.mp hx with
      | inl hremove => exact Or.inl (h.removeHeaders_known hb x hremove)
      | inr hrest =>
        cases ih hmerge hlo (by omega) he (Or.inr ⟨s + 1, Or.inl hlo⟩) x hrest with
        | inl hknown => exact Or.inl (hknown.of_merge h.valid ha hb hs)
        | inr hend => exact Or.inr hend
    · rw [if_neg hb] at hx
      cases hx

/-- And the end of the heap where the block it ends with says so. -/
theorem Stands.brk_mem_coalesceHeaders {k : Nat} (h : Stands L m P) (ha : P.used a = some s)
    (hk : s + k = maxBlockScale)
    (he : P.coalesce k a s = (P', a', s')) (hend : P.Overlooks a' s') : P.brk ∈ Heap.coalesceHeaders k m a := by
  induction k generalizing m P a s with
  | zero =>
    simp only [Pool.coalesce, Prod.mk.injEq] at he
    obtain ⟨rfl, rfl, rfl⟩ := he
    obtain ⟨rfl, hbrk, hd⟩ := hend
    have hbuddy : buddyOf heapLowerBound a maxBlockScale = P.brk := by
      unfold buddyOf
      rw [if_pos hd, hbrk]
    rw [h.coalesceHeaders_zero ha, hbuddy]
    exact List.mem_cons_of_mem _ (List.mem_singleton_self _)
  | succ k ih =>
    have hs : s < maxBlockScale := by omega
    unfold Pool.coalesce at he
    by_cases hb : buddyOf heapLowerBound a s ∈ P.free s
    · simp only [if_pos hb] at he
      obtain ⟨-, hmerge⟩ := h.coalesceUp_merge ha hs hb k
      obtain ⟨-, -, -, hused⟩ := Pool.merge_buddy h.valid ha hb hs
      have hrest := ih hmerge (by rw [hused]; simp) (by omega) he hend
      rw [h.coalesceHeaders_succ ha hs k, if_pos hb]
      exact List.mem_cons_of_mem _ (List.mem_cons_of_mem _ (List.mem_append_right _ hrest))
    · simp only [if_neg hb, Prod.mk.injEq] at he
      have := he.2.2
      have := hend.1
      omega

/-! ### Freeing -/

/-- What `free` inspects from where it has merged to. -/
theorem Represents.freeHeaders_eq {h : Heap} (hr : Represents L h P) (ha : P.used a = some s)
    (hc : P.coalesce (maxBlockScale - s) a s = (P', a', s')) :
    ∃ m', Heap.coalesceUp (maxBlockScale - s) h.mem a = (m', a') ∧ Stands L m' P' ∧
      Stands L (Heap.addToFreeList L m' a') (P'.give a' s') ∧
      Heap.freeHeaders L h (a + headerSize) = a ::
        (Heap.coalesceHeaders (maxBlockScale - s) h.mem a ++ Heap.addHeaders L m' a' ++
        if s' = maxBlockScale ∧ P.brk = a' + 2 ^ maxBlockScale then
          a' :: Heap.removeHeaders (Heap.addToFreeList L m' a') a'
        else []) := by
  have hv := hr.stands.valid
  have hle := hv.scale_le (Or.inl ha)
  have hu := hr.stands.laid.used ha
  have hblock := hr.stands.block_of_data ha
  obtain ⟨-, hused', -, hbrk', -, -⟩ := Pool.coalesce_spec hv ha (by omega) hc
  obtain ⟨m', hm, hst, -⟩ := hr.stands.coalesceUp (R := fun _ => False) ha (by omega) hc
  have ha' : P'.used a' = some s' := by rw [hused', Function.update_self]
  have hgive := hst.give ha'
  have hfree : a' ∈ (P'.give a' s').free s' := by simp [Pool.give]
  have hbrk : h.currentBrk = P'.brk := hr.brk.trans hbrk'.symm
  have hend := hst.last_test ha'
  rw [← hbrk] at hend
  rw [← hr.brk]
  refine ⟨m', hm, hst, hgive, ?_⟩
  unfold Heap.freeHeaders
  rw [if_neg (by have := (hv.site (Or.inl ha)).ne_zero; omega)]
  simp only [hblock]
  rw [if_neg (by simp [hu.2.2])]
  simp only [Heap.coalesceBlock, hu.2.1, hm]
  by_cases hlast : s' = maxBlockScale ∧ h.currentBrk = a' + 2 ^ maxBlockScale
  · rw [if_pos (hend.mpr hlast), if_pos hlast]
    obtain ⟨rfl, hlast⟩ := hlast
    have hpM := two_pow_pos' maxBlockScale
    obtain ⟨haddr, hbelow⟩ := hgive.valid.below_end (hbrk.symm.trans hlast : (P'.give a' maxBlockScale).brk = _)
    have hsame : (P'.give a' maxBlockScale).brk = h.currentBrk := hbrk.symm
    rw [hsame] at haddr hbelow
    have hrounds : Heap.brkRounds = 2 ^ 17 - 1 + 1 + 1 := by decide
    unfold Heap.sbrkHeaders Heap.brkHeaders
    rw [if_neg (by decide), haddr, if_neg (by dsimp only; omega), hrounds, Heap.shrinkHeaders,
      if_pos (by dsimp only; omega)]
    simp only [hbelow]
    rw [if_neg ((hgive.last_free_iff (Or.inr hfree)).mpr hfree), Heap.shrinkHeaders, if_neg (Nat.lt_irrefl a'),
      List.append_nil]
  · rw [if_neg fun hn => hlast (hend.mp hn), if_neg hlast]

/-- `free` inspects heads and blocks only, unless the block merged to overlooks the end. -/
theorem Represents.freeHeaders_iff {h : Heap} (hr : Represents L h P) (ha : P.used a = some s)
    (hc : P.coalesce (maxBlockScale - s) a s = (P', a', s')) :
    (∀ x ∈ Heap.freeHeaders L h (a + headerSize), P.Known L x) ↔ ¬ P.Overlooks a' s' := by
  have hv := hr.stands.valid
  have hle := hv.scale_le (Or.inl ha)
  have hk : s + (maxBlockScale - s) = maxBlockScale := by omega
  obtain ⟨m', -, hst, hgive, heq⟩ := hr.freeHeaders_eq ha hc
  rw [heq]
  constructor
  · intro hall hend
    have hin := hr.stands.brk_mem_coalesceHeaders ha hk hc hend
    exact hv.brk_not_known (hall _ (List.mem_cons_of_mem _ (List.mem_append_left _ (List.mem_append_left _ hin))))
  · intro hend x hx
    have ha' : P'.used a' = some s' := by rw [(Pool.coalesce_spec hv ha hk hc).2.1, Function.update_self]
    have hb' : P'.Block a' s' := Or.inl ha'
    have hold : P'.Known L x → P.Known L x := Pool.coalesce_known hv ha hk hc
    rcases List.mem_cons.mp hx with hx | hx
    · exact hx ▸ Or.inr ⟨s, Or.inl ha⟩
    rcases List.mem_append.mp hx with hx | hx
    · cases List.mem_append.mp hx with
      | inl hmerge => exact (hr.stands.coalesceHeaders_known ha hk hc x hmerge).resolve_right fun hbrk => hend hbrk.2
      | inr hadd =>
        apply hold
        have hmin := hst.valid.minScale hb'
        have hmax := hst.valid.scale_le hb'
        simp only [Heap.addHeaders, (hst.laid.used ha').2.1, List.mem_cons, List.not_mem_nil, or_false] at hadd
        rcases hadd with hx | hx | hx
        · exact hx ▸ Or.inr ⟨s', hb'⟩
        · exact Or.inl ⟨s', hmin, hmax, hx⟩
        · exact Pool.known_node hst.valid hb' (hx ▸ hst.laid.first_node hmin hmax)
    · split at hx
      · next hlast =>
        apply hold
        -- the block is on its list and leaves it again
        have hfree : a' ∈ (P'.give a' s').free s' := by simp [Pool.give]
        have hback : (P'.give a' s').Known L x → P'.Known L x := by
          intro hknown
          cases hknown with
          | inl hlist => exact Or.inl hlist
          | inr hblock =>
            obtain ⟨t, ht⟩ := hblock
            exact Or.inr ⟨t, (Pool.give_block hst.valid ha' x t).mp ht⟩
        apply hback
        cases List.mem_cons.mp hx with
        | inl hx => exact Or.inr ⟨s', Or.inr (hx ▸ hfree)⟩
        | inr hx => exact hgive.removeHeaders_known hfree x hx
      · cases hx

/-! ### What is written -/

/-- `R` has no byte of the headers. -/
def ClearOf (R : Nat → Prop) (headers : List Nat) : Prop := ∀ b ∈ headers, ∀ x, b ≤ x → x < b + headerSize → ¬ R x

theorem ClearOf.node {R : Nat → Prop} {headers : List Nat} (hR : ClearOf R headers) {b : Nat} (hb : b ∈ headers) :
    ∀ x, b ≤ x → x < b + 8 → ¬ R x := by
  have h9 : headerSize = 9 := rfl
  exact fun x h1 h2 => hR b hb x h1 (by omega)

theorem Stands.removeHeaders_spares (h : Stands L m P) (ha : a ∈ P.free s) {R : Nat → Prop}
    (hR : ClearOf R (Heap.removeHeaders m a)) : Spares R m (Heap.removeFromFreeList m a) := by
  have hv := h.valid
  have hs := hv.scale_le (Or.inr ha)
  obtain ⟨hprev, hnext, hne⟩ := h.laid.neighbours hv.separate ha
  apply spares_removeFromFreeList (L := L) (hv.site (Or.inr ha)) (hv.separate.node hprev hs)
    (hv.site (Or.inr hnext)).node hne
  · exact hR a (by simp [Heap.removeHeaders])
  · exact hR.node (by simp [Heap.removeHeaders])
  · exact hR.node (by simp [Heap.removeHeaders])

theorem Stands.addHeaders_spares (h : Stands L m P) (ha : P.used a = some s) {R : Nat → Prop}
    (hR : ClearOf R (Heap.addHeaders L m a)) : Spares R m (Heap.addToFreeList L m a) := by
  have hv := h.valid
  have hb : P.Block a s := Or.inl ha
  have hs := hv.scale_le hb
  have hscale := (h.laid.used ha).2.1
  have hfirst := h.laid.first_node (hv.minScale hb) hs
  unfold Heap.addHeaders at hR
  rw [hscale] at hR
  apply spares_addToFreeList (hv.site hb) hs hscale (hv.separate.node hfirst hs)
  · exact hR a (by simp)
  · exact hR.node (by simp)
  · exact hR.node (by simp)

/-- The loop that merges writes only to headers on its list. -/
theorem Stands.coalesceHeaders_spares {k : Nat} (h : Stands L m P) (ha : P.used a = some s) (hk : s + k = maxBlockScale)
    {R : Nat → Prop} (hR : ClearOf R (Heap.coalesceHeaders k m a)) : Spares R m (Heap.coalesceUp k m a).1 := by
  induction k generalizing m P a s with
  | zero => exact Spares.refl _ _
  | succ k ih =>
    have hs : s < maxBlockScale := by omega
    rw [h.coalesceHeaders_succ ha hs k] at hR
    by_cases hb : buddyOf heapLowerBound a s ∈ P.free s
    · obtain ⟨hround, hmerge⟩ := h.coalesceUp_merge ha hs hb k
      obtain ⟨hlo, -, -, hused⟩ := Pool.merge_buddy h.valid ha hb hs
      rw [if_pos hb] at hR
      have hremove := h.removeHeaders_spares hb fun b hb => hR b
        (List.mem_cons_of_mem _ (List.mem_cons_of_mem _ (List.mem_append_left _ hb)))
      have hlower : min a (buddyOf heapLowerBound a s) ∈ [a, buddyOf heapLowerBound a s] := by
        cases min_choice a (buddyOf heapLowerBound a s) with
        | inl he => rw [he]; exact List.mem_cons_self ..
        | inr he => rw [he]; exact List.mem_cons_of_mem _ (List.mem_singleton_self _)
      have hscale := spares_setScale (Heap.removeFromFreeList m (buddyOf heapLowerBound a s)) (s + 1)
        ((h.take hb).valid.site (Or.inl hlo)) (hR _ (List.mem_append_left _ hlower))
      have hlo' : ((P.take (buddyOf heapLowerBound a s) s).merge (min a (buddyOf heapLowerBound a s)) s).used
          (min a (buddyOf heapLowerBound a s)) = some (s + 1) := by rw [hused, Function.update_self]
      have hrest := ih hmerge hlo' (by omega) fun b hb => hR b
        (List.mem_cons_of_mem _ (List.mem_cons_of_mem _ (List.mem_append_right _ hb)))
      rw [hround]
      exact (hremove.trans hscale).trans hrest
    · rw [h.coalesceUp_stop ha hs hb k]
      exact Spares.refl _ _

/-- `free` comes back, and writes only to headers on its list. -/
theorem Represents.freeHeaders_spares {h : Heap} (hr : Represents L h P) (ha : P.used a = some s) :
    ∃ h', h.free L (a + headerSize) = some (h', 0) ∧
      ∀ R, ClearOf R (Heap.freeHeaders L h (a + headerSize)) → Spares R h.mem h'.mem := by
  have hle := hr.stands.valid.scale_le (Or.inl ha)
  have hk : s + (maxBlockScale - s) = maxBlockScale := by omega
  rcases hc : P.coalesce (maxBlockScale - s) a s with ⟨P', a', s'⟩
  have ha' : P'.used a' = some s' := by rw [(Pool.coalesce_spec hr.stands.valid ha hk hc).2.1, Function.update_self]
  obtain ⟨m', hm, hst, hfree⟩ := hr.free_eq ha hc
  obtain ⟨m'', hm', -, hgive, heq⟩ := hr.freeHeaders_eq ha hc
  obtain ⟨rfl, -⟩ := Prod.mk.inj (hm.symm.trans hm')
  have hadded : ∀ {R : Nat → Prop} {rest : List Nat},
      ClearOf R (a :: (Heap.coalesceHeaders (maxBlockScale - s) h.mem a ++ Heap.addHeaders L m' a' ++ rest)) →
        Spares R h.mem (Heap.addToFreeList L m' a') := by
    intro R rest hR
    have hmerge := hr.stands.coalesceHeaders_spares ha hk fun b hb => hR b
      (List.mem_cons_of_mem _ (List.mem_append_left _ (List.mem_append_left _ hb)))
    have hadd := hst.addHeaders_spares ha' fun b hb => hR b
      (List.mem_cons_of_mem _ (List.mem_append_left _ (List.mem_append_right _ hb)))
    rw [hm] at hmerge
    exact hmerge.trans hadd
  rw [heq]
  by_cases hlast : s' = maxBlockScale ∧ P.brk = a' + 2 ^ maxBlockScale
  · rw [if_pos hlast] at hfree ⊢
    refine ⟨_, hfree, fun R hR => ?_⟩
    have hin : a' ∈ (P'.give a' s').free s' := by simp [Pool.give]
    have hremove := hgive.removeHeaders_spares hin fun b hb => hR b
      (List.mem_cons_of_mem _ (List.mem_append_right _ (List.mem_cons_of_mem _ hb)))
    exact (hadded hR).trans hremove
  · rw [if_neg hlast] at hfree ⊢
    exact ⟨_, hfree, fun R => hadded⟩

/-! ### Heaps -/

/-- A block of the heap starts at `x`. -/
def Heap.StartsBlock (h : Heap) (x : Nat) : Prop :=
  heapLowerBound ≤ x ∧ x < h.currentBrk ∧ ∃ blocks, Blocks h.mem heapLowerBound blocks h.currentBrk ∧ x ∈ blocks

/-- The block behind `p` is the only used one in the last place for a largest block. -/
def Heap.LastOnly (h : Heap) (p : Nat) : Prop :=
  h.currentBrk ≤ p - headerSize + 2 ^ maxBlockScale ∧
    ∀ x t, h.UsedBlock x t → h.currentBrk ≤ x + 2 ^ maxBlockScale → x = p - headerSize

theorem Represents.startsBlock_iff {h : Heap} (hr : Represents L h P) (x : Nat) : h.StartsBlock x ↔
    ∃ t, P.Block x t := by
  obtain ⟨bs, hbs, hmem⟩ := hr.blocks
  constructor
  · intro hx
    obtain ⟨-, -, blocks, hblocks, hin⟩ := hx
    rw [hblocks.unique hbs] at hin
    exact ⟨_, (hmem x).mp hin⟩
  · intro hx
    obtain ⟨t, ht⟩ := hx
    have hup := hr.stands.valid.tiling.upper ht
    have hpt := two_pow_pos' t
    refine ⟨hr.stands.valid.tiling.lower ht, by rw [hr.brk]; omega, bs, hbs, (hmem x).mpr ?_⟩
    rw [hr.stands.scale_eq ht]
    exact ht

theorem Represents.lastOnly_iff {h : Heap} (hr : Represents L h P) : h.LastOnly (a + headerSize) ↔ P.LastOnly a := by
  unfold Heap.LastOnly Pool.LastOnly
  simp only [hr.usedBlock_iff, hr.brk, Nat.add_sub_cancel]

namespace Session
variable {session : Session}

theorem Good.freeHeaders_iff (hg : session.Good L P) (ha : P.used a = some s) :
    (∀ x ∈ Heap.freeHeaders L session.heap (a + headerSize),
      (∃ t, minBlockScale ≤ t ∧ t ≤ maxBlockScale ∧ x = L.list t) ∨ session.heap.StartsBlock x) ↔
      ¬ (P.LastOnly a ∧ 2 ^ (maxBlockScale + 1) ∣ P.brk - 2 ^ maxBlockScale - heapLowerBound) := by
  have hr := hg.represents
  rcases hc : P.coalesce (maxBlockScale - s) a s with ⟨P', a', s'⟩
  have hlast := Pool.lastOnly_iff hr.stands.valid hg.merged ha hc
  have hends : P.Overlooks a' s' ↔ P.LastOnly a ∧
    2 ^ (maxBlockScale + 1) ∣ P.brk - 2 ^ maxBlockScale - heapLowerBound := by
    rw [hlast]
    unfold Pool.Overlooks
    rw [and_assoc]
    refine and_congr_right fun _ => and_congr_right fun hbrk => ?_
    rw [hbrk, Nat.add_sub_cancel]
  rw [← hends, ← hr.freeHeaders_iff ha hc]
  unfold Pool.Known
  simp only [hr.startsBlock_iff]

/-- Every header that `free` reads or writes is the head of a free list or a block's, if and only if the block
is not the only used one in the last place for a largest block, or that place's buddy is below it. To nothing
but these headers it writes. -/
theorem reached_free_inspects_iff (h : Reached L session) {p n : Nat} (hp : (p, n) ∈ session.live) :
    ((∀ x ∈ Heap.freeHeaders L session.heap p,
      (∃ t, minBlockScale ≤ t ∧ t ≤ maxBlockScale ∧ x = L.list t) ∨ session.heap.StartsBlock x) ↔
      ¬ (session.heap.LastOnly p ∧
        2 ^ (maxBlockScale + 1) ∣ session.heap.currentBrk - 2 ^ maxBlockScale - heapLowerBound)) ∧
    ∃ h', session.heap.free L p = some (h', 0) ∧
      ∀ R, ClearOf R (Heap.freeHeaders L session.heap p) → Spares R session.heap.mem h'.mem := by
  obtain ⟨P, hg⟩ := good_of_reached h
  obtain ⟨a, t, rfl, ha, -⟩ := hg.held hp
  rw [hg.represents.lastOnly_iff, hg.represents.brk]
  exact ⟨hg.freeHeaders_iff ha, hg.represents.freeHeaders_spares ha⟩

theorem reached_free_inspects_iff_two : ∃ session : Session, ∃ p n, (p, n) ∈ session.live ∧
    ∀ x ∈ Heap.freeHeaders kernelImage session.heap p,
      (∃ t, minBlockScale ≤ t ∧ t ≤ maxBlockScale ∧ x = kernelImage.list t) ∨ session.heap.StartsBlock x := by
  obtain ⟨session, hs, hg, -⟩ := exists_reached kernelImage [.allocate 1, .allocate 1] rfl
  have ha : ((Pool.initial.allocate 1).1.allocate 1).1.used heapLowerBound = some minBlockScale := by decide +kernel
  have hb : ((Pool.initial.allocate 1).1.allocate 1).1.used (heapLowerBound + 16) =
    some minBlockScale := by decide +kernel
  obtain ⟨n, hlive⟩ := hg.used ha
  refine ⟨session, _, n, hlive, (reached_free_inspects_iff hs hlive).1.mpr fun hlast => ?_⟩
  have hboth := (hg.represents.lastOnly_iff.mp hlast.1).2 _ _ hb (by decide +kernel)
  omega

/-- The only block there is has its buddy at the end of the heap. -/
theorem free_inspects_end : ¬ ∀ (session : Session) (p n : Nat), Reached kernelImage session → (p, n) ∈ session.live →
    ∀ x ∈ Heap.freeHeaders kernelImage session.heap p,
      (∃ t, minBlockScale ≤ t ∧ t ≤ maxBlockScale ∧ x = kernelImage.list t) ∨ session.heap.StartsBlock x := by
  intro hall
  obtain ⟨session, hs, hg, -⟩ := exists_reached kernelImage [.allocate 1] rfl
  have ha : (Pool.initial.allocate 1).1.used heapLowerBound = some minBlockScale := by decide +kernel
  obtain ⟨n, hlive⟩ := hg.used ha
  have hnot := (hg.freeHeaders_iff ha).mp (hall session _ n hs hlive)
  rcases hc : (Pool.initial.allocate 1).1.coalesce
    (maxBlockScale - minBlockScale) heapLowerBound minBlockScale with ⟨P', a', s'⟩
  rw [Pool.lastOnly_iff hg.represents.stands.valid hg.merged ha hc] at hnot
  have hto : ((Pool.initial.allocate 1).1.coalesce (maxBlockScale - minBlockScale) heapLowerBound minBlockScale).2 =
      (heapLowerBound, maxBlockScale) := by decide +kernel
  rw [hc, Prod.mk.injEq] at hto
  rw [hto.1, hto.2] at hnot
  revert hnot
  decide +kernel

end Session
end ShompOS
