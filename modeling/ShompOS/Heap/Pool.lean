import ShompOS.Tiling
import ShompOS.Heap.Block
import Mathlib.Data.List.Nodup
import Mathlib.Logic.Function.Basic

/-! What the allocator is for: a pool of blocks, some used and some free.

A `Pool` has no headers and no pointers. It says which blocks are in use (by
address, with their scale), which are free (by scale, in the order they would be
handed out) and where the heap ends. Six steps change it: a free block is taken,
a used one is given back, a used block is split or merged with its used buddy,
and the heap grows or drops its last block. Every step keeps `Valid`; `allocate`,
`release` and `moveBrk` are sequences of steps, which is how the routines of
`heap.c` are followed. -/
namespace ShompOS

structure Pool where
  brk : Nat
  /-- The free blocks of each scale, the next to be handed out first. -/
  free : Nat → List Nat
  /-- The scale of the used block at an address. -/
  used : Nat → Option Nat

namespace Pool

/-- A block of scale `s` starts at `a`. -/
def Block (P : Pool) (a s : Nat) : Prop := P.used a = some s ∨ a ∈ P.free s

structure Valid (P : Pool) : Prop where
  tiling : Tiling maxBlockScale heapLowerBound P.brk P.Block
  minScale : ∀ {a s}, P.Block a s → minBlockScale ≤ s
  nodup : ∀ s, (P.free s).Nodup
  exclusive : ∀ {a s t}, P.used a = some s → a ∉ P.free t
  top : P.brk + 2 ^ maxBlockScale ≤ addressSpace

/-! ### Steps -/

def take (P : Pool) (a s : Nat) : Pool :=
  {P with
    free := Function.update P.free s ((P.free s).erase a)
    used := Function.update P.used a (some s)}

def give (P : Pool) (a s : Nat) : Pool :=
  {P with
    free := Function.update P.free s (a :: P.free s)
    used := Function.update P.used a none}

/-- The used block at `a` becomes its lower half, of scale `s`; the other half is free. -/
def split (P : Pool) (a s : Nat) : Pool :=
  {P with
    free := Function.update P.free s ((a + 2 ^ s) :: P.free s)
    used := Function.update P.used a (some s)}

/-- The used blocks of scale `s` at `a` and `a + 2 ^ s` become one. -/
def merge (P : Pool) (a s : Nat) : Pool :=
  {P with used := Function.update (Function.update P.used (a + 2 ^ s) none) a (some (s + 1))}

/-- A new free block of the largest scale at the end. -/
def grow (P : Pool) : Pool :=
  {P with
    brk := P.brk + 2 ^ maxBlockScale
    free := Function.update P.free maxBlockScale (P.brk :: P.free maxBlockScale)}

/-- Without the last block, at `a`, which is used and of the largest scale. -/
def drop (P : Pool) (a : Nat) : Pool :=
  {P with brk := a, used := Function.update P.used a none}

/-! ### Blocks of a valid pool -/

variable {P : Pool}

theorem Valid.scale_unique (h : P.Valid) {a s t : Nat} (hs : P.Block a s) (ht : P.Block a t) : s = t :=
  h.tiling.scale_unique hs ht

theorem Valid.not_used (h : P.Valid) {a s : Nat} (ha : a ∈ P.free s) : P.used a = none := by
  cases hu : P.used a with
  | none => rfl
  | some t => exact absurd ha (h.exclusive hu)

theorem Valid.scale_le (h : P.Valid) {a s : Nat} (hb : P.Block a s) : s ≤ maxBlockScale :=
  h.tiling.scale hb

/-- Where nothing starts nothing is used. -/
theorem used_eq_none {a : Nat} (h : ∀ t, ¬ P.Block a t) : P.used a = none :=
  Option.eq_none_iff_forall_ne_some.mpr fun t ht => h t (Or.inl ht)

/-- A block can hold a header where it starts. -/
theorem Valid.site (h : P.Valid) {a s : Nat} (hb : P.Block a s) : Layout.Site a := by
  have hmin := h.minScale hb
  have h16 : 2 ^ 4 ∣ 2 ^ s := pow_dvd_pow 2 hmin
  have hle := Nat.le_of_dvd (two_pow_pos' s) h16
  have hup := h.tiling.upper hb
  have htop := h.top
  have hpM := two_pow_pos' maxBlockScale
  exact ⟨h.tiling.lower hb, h16.trans (h.tiling.aligned hb), by omega⟩

/-! ### Every step keeps the pool valid -/

theorem take_block (h : P.Valid) {a s : Nat} (ha : a ∈ P.free s) (x t : Nat) :
    (P.take a s).Block x t ↔ P.Block x t := by
  unfold Block take
  by_cases hx : x = a
  · subst hx
    have hnot : x ∉ (P.free s).erase x := (h.nodup s).not_mem_erase
    by_cases ht : t = s
    · subst ht
      simp [ha]
    · have hne : x ∉ P.free t := fun hm => ht (h.scale_unique (Or.inr hm) (Or.inr ha))
      simp [Function.update_of_ne ht, hne, h.not_used ha, Ne.symm ht]
  · by_cases ht : t = s
    · subst ht
      simp [Function.update_of_ne hx, List.mem_erase_of_ne hx]
    · simp [Function.update_of_ne hx, Function.update_of_ne ht]

theorem take_valid (h : P.Valid) {a s : Nat} (ha : a ∈ P.free s) : (P.take a s).Valid where
  tiling := h.tiling.congr (take_block h ha)
  minScale hb := h.minScale ((take_block h ha _ _).mp hb)
  nodup t := by
    by_cases ht : t = s
    · subst ht
      simpa [take] using (h.nodup t).erase a
    · simpa [take, Function.update_of_ne ht] using h.nodup t
  exclusive := by
    intro x t u hx
    by_cases hxa : x = a
    · subst hxa
      by_cases hu : u = s
      · subst hu
        simpa [take] using (h.nodup u).not_mem_erase
      · have hne : x ∉ P.free u := fun hm => hu (h.scale_unique (Or.inr hm) (Or.inr ha))
        simpa [take, Function.update_of_ne hu] using hne
    · simp only [take, Function.update_of_ne hxa] at hx
      by_cases hu : u = s
      · subst hu
        simpa [take, List.mem_erase_of_ne hxa] using h.exclusive hx
      · simpa [take, Function.update_of_ne hu] using h.exclusive hx
  top := h.top

theorem give_block (h : P.Valid) {a s : Nat} (ha : P.used a = some s) (x t : Nat) :
    (P.give a s).Block x t ↔ P.Block x t := by
  unfold Block give
  by_cases hx : x = a
  · subst hx
    by_cases ht : t = s
    · subst ht
      simp [ha]
    · simp [Function.update_of_ne ht, ha, h.exclusive ha, Ne.symm ht]
  · by_cases ht : t = s
    · subst ht
      simp [hx]
    · simp [Function.update_of_ne hx, Function.update_of_ne ht]

theorem give_valid (h : P.Valid) {a s : Nat} (ha : P.used a = some s) : (P.give a s).Valid where
  tiling := h.tiling.congr (give_block h ha)
  minScale hb := h.minScale ((give_block h ha _ _).mp hb)
  nodup t := by
    by_cases ht : t = s
    · subst ht
      simpa [give] using ⟨h.exclusive ha, h.nodup t⟩
    · simpa [give, Function.update_of_ne ht] using h.nodup t
  exclusive := by
    intro x t u hx
    by_cases hxa : x = a
    · simp [give, hxa] at hx
    · simp only [give, Function.update_of_ne hxa] at hx
      by_cases hu : u = s
      · subst hu
        simpa [give, hxa] using h.exclusive hx
      · simpa [give, Function.update_of_ne hu] using h.exclusive hx
  top := h.top

/-- The half split off starts inside the block, so nothing started there before. -/
theorem split_fresh (h : P.Valid) {a s t : Nat} (ha : P.used a = some (s + 1)) :
    ¬ P.Block (a + 2 ^ s) t := by
  intro hb
  have hps := two_pow_pos' s
  have hpt := two_pow_pos' t
  have hpow : 2 ^ (s + 1) = 2 ^ s + 2 ^ s := by ring
  have := h.tiling.separate (Or.inl ha) hb (by omega)
  omega

theorem split_block (h : P.Valid) {a s : Nat} (ha : P.used a = some (s + 1)) (x t : Nat) :
    (P.split a s).Block x t ↔ ((x = a ∨ x = a + 2 ^ s) ∧ t = s) ∨ (P.Block x t ∧ x ≠ a) := by
  have hps := two_pow_pos' s
  have hfree : ∀ t, a ∉ P.free t := fun t => h.exclusive ha
  unfold Block split
  by_cases hx : x = a
  · subst hx
    by_cases ht : t = s
    · subst ht
      simp
    · simp [hfree t, Ne.symm ht, ht]
  · by_cases ht : t = s
    · subst ht
      simp [hx, or_left_comm]
    · simp [hx, ht]

theorem split_valid (h : P.Valid) {a s : Nat} (ha : P.used a = some (s + 1))
    (hs : minBlockScale ≤ s) : (P.split a s).Valid where
  tiling := (h.tiling.split (Or.inl ha)).congr (split_block h ha)
  minScale hb := by
    rcases (split_block h ha _ _).mp hb with ⟨_, rfl⟩ | ⟨hb, _⟩
    · exact hs
    · exact h.minScale hb
  nodup t := by
    by_cases ht : t = s
    · subst ht
      simpa [split] using ⟨fun hm => split_fresh h ha (Or.inr hm), h.nodup t⟩
    · simpa [split, Function.update_of_ne ht] using h.nodup t
  exclusive := by
    intro x t u hx
    have hps := two_pow_pos' s
    have hsome : ∃ t', P.used x = some t' := by
      by_cases hxa : x = a
      · exact ⟨_, hxa ▸ ha⟩
      · simp only [split, Function.update_of_ne hxa] at hx
        exact ⟨_, hx⟩
    obtain ⟨t', ht'⟩ := hsome
    have hne : x ≠ a + 2 ^ s := fun he => split_fresh h ha (Or.inl (he ▸ ht'))
    by_cases hu : u = s
    · subst hu
      simpa [split, hne] using h.exclusive ht'
    · simpa [split, Function.update_of_ne hu] using h.exclusive ht'
  top := h.top

theorem merge_block (h : P.Valid) {a s : Nat} (ha : P.used a = some s)
    (hb : P.used (a + 2 ^ s) = some s) (x t : Nat) :
    (P.merge a s).Block x t ↔ (x = a ∧ t = s + 1) ∨ (P.Block x t ∧ x ≠ a ∧ x ≠ a + 2 ^ s) := by
  have hps := two_pow_pos' s
  unfold Block merge
  by_cases hx : x = a
  · subst hx
    simp [h.exclusive ha, eq_comm]
  · by_cases hx' : x = a + 2 ^ s
    · subst hx'
      simp [h.exclusive hb]
    · simp [hx, hx']

theorem merge_valid (h : P.Valid) {a s : Nat} (ha : P.used a = some s)
    (hb : P.used (a + 2 ^ s) = some s) (hd : 2 ^ (s + 1) ∣ a - heapLowerBound)
    (hs : s < maxBlockScale) : (P.merge a s).Valid where
  tiling := (h.tiling.merge (Or.inl ha) (Or.inl hb) hd hs).congr (merge_block h ha hb)
  minScale hx := by
    rcases (merge_block h ha hb _ _).mp hx with ⟨_, rfl⟩ | ⟨hx, _⟩
    · have := h.minScale (Or.inl ha)
      omega
    · exact h.minScale hx
  nodup := h.nodup
  exclusive := by
    intro x t u hx
    by_cases hxa : x = a
    · exact h.exclusive (hxa ▸ ha)
    · by_cases hxb : x = a + 2 ^ s
      · simp [merge, hxb] at hx
      · simp only [merge, Function.update_of_ne hxa, Function.update_of_ne hxb] at hx
        exact h.exclusive hx
  top := h.top

theorem grow_block (P : Pool) (x t : Nat) :
    P.grow.Block x t ↔ (x = P.brk ∧ t = maxBlockScale) ∨ P.Block x t := by
  unfold Block grow
  by_cases ht : t = maxBlockScale
  · subst ht
    simp [or_left_comm]
  · simp [ht]

/-- Nothing starts at the end of the heap. -/
theorem Valid.brk_fresh (h : P.Valid) {t : Nat} : ¬ P.Block P.brk t := by
  intro hb
  have := h.tiling.upper hb
  have := two_pow_pos' t
  omega

theorem grow_valid (h : P.Valid) (hroom : P.brk + 2 ^ maxBlockScale + 2 ^ maxBlockScale ≤ addressSpace) :
    P.grow.Valid where
  tiling := h.tiling.grow.congr (grow_block P)
  minScale hb := by
    rcases (grow_block P _ _).mp hb with ⟨_, rfl⟩ | hb
    · decide
    · exact h.minScale hb
  nodup t := by
    by_cases ht : t = maxBlockScale
    · subst ht
      simpa [grow] using ⟨fun hm => h.brk_fresh (Or.inr hm), h.nodup maxBlockScale⟩
    · simpa [grow, Function.update_of_ne ht] using h.nodup t
  exclusive := by
    intro x t u hx
    have hne : x ≠ P.brk := fun he => h.brk_fresh (Or.inl (he ▸ hx : P.used P.brk = some t))
    by_cases hu : u = maxBlockScale
    · subst hu
      simpa [grow, hne] using h.exclusive (t := maxBlockScale) hx
    · simpa [grow, Function.update_of_ne hu] using h.exclusive (t := u) hx
  top := hroom

theorem drop_block (h : P.Valid) {a : Nat} (hu : P.used a = some maxBlockScale) (x t : Nat) :
    (P.drop a).Block x t ↔ P.Block x t ∧ x ≠ a := by
  unfold Block drop
  by_cases hx : x = a
  · subst hx
    simp [h.exclusive hu]
  · simp [hx]

theorem drop_valid (h : P.Valid) {a : Nat} (hu : P.used a = some maxBlockScale)
    (hbrk : P.brk = a + 2 ^ maxBlockScale) : (P.drop a).Valid where
  tiling := by
    have ht := h.tiling
    rw [hbrk] at ht
    exact (ht.shrink (Or.inl hu)).congr (drop_block h hu)
  minScale hb := h.minScale ((drop_block h hu _ _).mp hb).1
  nodup := h.nodup
  exclusive := by
    intro x t u hx
    by_cases hxe : x = a
    · simp [drop, hxe] at hx
    · simp only [drop, Function.update_of_ne hxe] at hx
      exact h.exclusive hx
  top := by
    have := h.top
    have := two_pow_pos' maxBlockScale
    show a + 2 ^ maxBlockScale ≤ addressSpace
    omega

end Pool
end ShompOS
