import ShompOS.Heap.Laid
import ShompOS.Heap.Requests

/-! Each step of a pool, done in memory by the allocator's code.

`Stands L m P`: the pool `P` is valid and lies in the memory `m`. Each step of
the pool is what one piece of `heap.c` does to a memory the pool stands in, and
that piece of code spares whatever avoids the list heads and the headers.
`Payload K` is the bytes after the headers of the blocks `K`, and `Keeps K P`
says that they are used blocks of `P`. -/
namespace ShompOS
open Layout Memory Heap

structure Stands (L : Layout) (m : Memory) (P : Pool) : Prop where
  valid : P.Valid
  laid : Laid L m P

/-- The bytes of the blocks `K` after their headers. -/
def Payload (K : Nat → Nat → Prop) (x : Nat) : Prop :=
  ∃ a s, K a s ∧ a + headerSize ≤ x ∧ x < a + 2 ^ s

/-- The blocks `K` are used blocks of `P`. -/
def Keeps (K : Nat → Nat → Prop) (P : Pool) : Prop := ∀ {a s}, K a s → P.used a = some s

variable {L : Layout} {m : Memory} {P : Pool} {K : Nat → Nat → Prop}

theorem Pool.Valid.sixteen_le (h : P.Valid) {a s : Nat} (hb : P.Block a s) : 16 ≤ 2 ^ s :=
  Nat.pow_le_pow_right (n := 2) (by decide) (h.minScale hb)

/-- Headers and payloads of a valid pool are apart. -/
theorem Pool.Valid.avoids (h : P.Valid) {R : Nat → Prop}
    (hR : ∀ x, R x → ∃ a s, P.Block a s ∧ a + headerSize ≤ x ∧ x < a + 2 ^ s) : Avoids L R P := by
  intro x hx
  obtain ⟨a, s, hb, hlo, hhi⟩ := hR x hx
  have hlower := h.tiling.lower hb
  refine ⟨ListByte.not_of_le (by omega), fun b t hbt => ?_⟩
  by_cases hab : a = b
  · subst hab
    exact Or.inr hlo
  · have := h.sixteen_le hbt
    rcases h.tiling.separate hb hbt hab with hsep | hsep
    · exact Or.inl (by omega)
    · exact Or.inr (by omega)

theorem Keeps.avoids (hK : Keeps K P) (h : P.Valid) : Avoids L (Payload K) P :=
  h.avoids fun _ ⟨a, s, ha, hx⟩ => ⟨a, s, Or.inl (hK ha), hx⟩

/-! ### Where blocks start

What `R` has to avoid is where blocks start, and each step only adds such places
or only takes some away. -/

section Starts
variable {R : Nat → Prop}

theorem Avoids.mono {P' : Pool} (hA : Avoids L R P) (hP : ∀ a s, P'.Block a s → ∃ t, P.Block a t) :
    Avoids L R P' := fun x hx =>
  ⟨(hA x hx).1, fun a s ha => by
    obtain ⟨t, ht⟩ := hP a s ha
    exact (hA x hx).2 a t ht⟩

theorem Avoids.take (hA : Avoids L R P) (h : P.Valid) {a s : Nat} (ha : a ∈ P.free s) :
    Avoids L R (P.take a s) :=
  hA.mono fun x t hx => ⟨t, (Pool.take_block h ha x t).mp hx⟩

theorem Avoids.of_take (h : P.Valid) {a s : Nat} (ha : a ∈ P.free s) (hA : Avoids L R (P.take a s)) :
    Avoids L R P :=
  hA.mono fun x t hx => ⟨t, (Pool.take_block h ha x t).mpr hx⟩

theorem Avoids.give (hA : Avoids L R P) (h : P.Valid) {a s : Nat} (ha : P.used a = some s) :
    Avoids L R (P.give a s) :=
  hA.mono fun x t hx => ⟨t, (Pool.give_block h ha x t).mp hx⟩

theorem Avoids.of_split (h : P.Valid) {a s : Nat} (ha : P.used a = some (s + 1))
    (hA : Avoids L R (P.split a s)) : Avoids L R P := by
  refine hA.mono fun x t hx => ?_
  by_cases hxa : x = a
  · exact ⟨s, (Pool.split_block h ha x s).mpr (Or.inl ⟨Or.inl hxa, rfl⟩)⟩
  · exact ⟨t, (Pool.split_block h ha x t).mpr (Or.inr ⟨hx, hxa⟩)⟩

theorem Avoids.merge (hA : Avoids L R P) (h : P.Valid) {a s : Nat} (ha : P.used a = some s)
    (hb : P.used (a + 2 ^ s) = some s) : Avoids L R (P.merge a s) := by
  refine hA.mono fun x t hx => ?_
  rcases (Pool.merge_block h ha hb x t).mp hx with ⟨rfl, -⟩ | ⟨hx, -⟩
  · exact ⟨s, Or.inl ha⟩
  · exact ⟨t, hx⟩

theorem Avoids.of_grow (hA : Avoids L R P.grow) : Avoids L R P :=
  hA.mono fun x t hx => ⟨t, (Pool.grow_block P x t).mpr (Or.inr hx)⟩

theorem Avoids.drop (hA : Avoids L R P) (h : P.Valid) {a : Nat} (ha : P.used a = some maxBlockScale) :
    Avoids L R (P.drop a) :=
  hA.mono fun x t hx => ⟨t, ((Pool.drop_block h ha x t).mp hx).1⟩

end Starts

/-! ### Pools part way through a step -/

theorem Pool.Separate.forget (h : P.Separate) (a : Nat) : (P.forget a).Separate := by
  have hsub : ∀ {x t}, (P.forget a).Block x t → P.Block x t := by
    rintro x t (hx | hx)
    · by_cases hxa : x = a
      · simp [Pool.forget, hxa] at hx
      · simp only [Pool.forget, Function.update_of_ne hxa] at hx
        exact Or.inl hx
    · exact Or.inr hx
  refine ⟨fun hx => h.site (hsub hx), fun hx => h.range (hsub hx),
    fun hx hx' => h.unique (hsub hx) (hsub hx'), fun {x s t} hx => ?_⟩
  by_cases hxa : x = a
  · simp [Pool.forget, hxa] at hx
  · simp only [Pool.forget, Function.update_of_ne hxa] at hx
    exact h.exclusive hx

theorem Pool.Separate.rescale (h : P.Separate) {a s u : Nat} (ha : P.used a = some u)
    (hmin : minBlockScale ≤ s) (hs : s ≤ maxBlockScale) : (P.rescale a s).Separate := by
  have hsub : ∀ {x t}, (P.rescale a s).Block x t → (x = a ∧ t = s) ∨ (x ≠ a ∧ P.Block x t) := by
    rintro x t (hx | hx)
    · by_cases hxa : x = a
      · simp only [Pool.rescale, hxa, Function.update_self, Option.some.injEq] at hx
        exact Or.inl ⟨hxa, hx.symm⟩
      · simp only [Pool.rescale, Function.update_of_ne hxa] at hx
        exact Or.inr ⟨hxa, Or.inl hx⟩
    · have hx' : x ∈ P.free t := hx
      exact Or.inr ⟨fun he => h.exclusive ha (he ▸ hx'), Or.inr hx'⟩
  constructor
  case site =>
    intro x t hx
    rcases hsub hx with ⟨rfl, -⟩ | ⟨-, hx⟩
    · exact h.site (Or.inl ha)
    · exact h.site hx
  case range =>
    intro x t hx
    rcases hsub hx with ⟨-, rfl⟩ | ⟨-, hx⟩
    · exact ⟨hmin, hs⟩
    · exact h.range hx
  case unique =>
    intro x t t' hx hx'
    rcases hsub hx with ⟨rfl, rfl⟩ | ⟨hne, hx⟩ <;> rcases hsub hx' with ⟨he, rfl⟩ | ⟨hne', hx'⟩
    · rfl
    · exact absurd rfl hne'
    · exact absurd he hne
    · exact h.unique hx hx'
  case exclusive =>
    intro x t t' hx
    by_cases hxa : x = a
    · exact h.exclusive (hxa ▸ ha)
    · simp only [Pool.rescale, Function.update_of_ne hxa] at hx
      exact h.exclusive hx

/-! ### The steps in memory -/

theorem scale_lt_of_le {s : Nat} (hs : s ≤ maxBlockScale) : s < 2 ^ 7 := by
  have : maxBlockScale < 2 ^ 7 := by decide
  omega

/-- With the block at `a` cut to its lower half, nothing starts at the upper one. -/
theorem Pool.Valid.half_fresh (h : P.Valid) {a s : Nat} (ha : P.used a = some (s + 1)) (t : Nat) :
    ¬ (P.rescale a s).Block (a + 2 ^ s) t := by
  have hps := two_pow_pos' s
  rintro (ht | ht)
  · simp only [Pool.rescale, Function.update_of_ne (show a + 2 ^ s ≠ a by omega)] at ht
    exact Pool.split_fresh h ha (Or.inl ht)
  · exact Pool.split_fresh h ha (t := t) (Or.inr ht)

namespace Stands
variable {R : Nat → Prop}

theorem take (h : Stands L m P) {a s : Nat} (ha : a ∈ P.free s) :
    Stands L (removeFromFreeList m a) (P.take a s) :=
  ⟨Pool.take_valid h.valid ha, h.laid.take h.valid.separate ha (h.valid.nodup s)⟩

theorem take_spares (h : Stands L m P) {a s : Nat} (ha : a ∈ P.free s) (hA : Avoids L R P) :
    Spares R m (removeFromFreeList m a) :=
  h.laid.take_spares h.valid.separate ha hA

theorem give (h : Stands L m P) {a s : Nat} (ha : P.used a = some s) :
    Stands L (addToFreeList L m a) (P.give a s) := by
  have hb : P.Block a s := Or.inl ha
  refine ⟨Pool.give_valid h.valid ha, (h.laid.forget a).link (h.valid.separate.forget a)
    (h.valid.site hb) ?_ (h.valid.minScale hb) (h.valid.scale_le hb) (h.laid.used ha).2.1⟩
  rintro t (ht | ht)
  · simp [Pool.forget] at ht
  · exact h.valid.exclusive ha ht

theorem give_spares (h : Stands L m P) {a s : Nat} (ha : P.used a = some s) (hA : Avoids L R P) :
    Spares R m (addToFreeList L m a) := by
  have hb : P.Block a s := Or.inl ha
  refine (h.laid.forget a).link_spares (h.valid.separate.forget a) (h.valid.site hb)
    (h.valid.minScale hb) (h.valid.scale_le hb) (h.laid.used ha).2.1 ?_ ?_
  · exact hA.give h.valid ha
  · refine hA.mono fun x t hx => ⟨t, ?_⟩
    rcases hx with hx | hx
    · by_cases hxa : x = a
      · simp [Pool.forget, hxa] at hx
      · simp only [Pool.forget, Function.update_of_ne hxa] at hx
        exact Or.inl hx
    · exact Or.inr hx

/-- The memory of `__blkmngr_split_block` before the new half is linked in. -/
theorem splitBlock_eq (h : Stands L m P) {a s : Nat} (ha : P.used a = some (s + 1))
    (hs : minBlockScale ≤ s) :
    splitBlock L m a =
      addToFreeList L ((m.setScale a s).setScale (a + 2 ^ s) s) (a + 2 ^ s) := by
  have hb : P.Block a (s + 1) := Or.inl ha
  have hsite := h.valid.site hb
  have hscale := (h.laid.used ha).2.1
  have hle := h.valid.scale_le hb
  have hup := h.valid.tiling.upper hb
  have htop := h.valid.top
  have hpM := two_pow_pos' maxBlockScale
  have hps := two_pow_pos' s
  have hpow : 2 ^ (s + 1) = 2 ^ s + 2 ^ s := by ring
  have hnot : ¬ (a = 0 ∨ m.scale a ≤ minBlockScale) := by
    rw [hscale]
    have := hsite.ne_zero
    omega
  have hs7 : s < 2 ^ 7 := scale_lt_of_le (by omega)
  unfold splitBlock
  rw [if_neg hnot, hscale]
  simp only [Nat.add_sub_cancel, scale_setScale m s hsite hsite hs7, if_true]
  rw [wrap_eq (by omega)]

theorem split_site (h : Stands L m P) {a s : Nat} (ha : P.used a = some (s + 1))
    (hs : minBlockScale ≤ s) : Site (a + 2 ^ s) :=
  (Pool.split_valid h.valid ha hs).site ((Pool.split_block h.valid ha _ _).mpr
    (Or.inl ⟨Or.inr rfl, rfl⟩))

theorem split (h : Stands L m P) {a s : Nat} (ha : P.used a = some (s + 1))
    (hs : minBlockScale ≤ s) : Stands L (splitBlock L m a) (P.split a s) := by
  have hle : s ≤ maxBlockScale := by have := h.valid.scale_le (Or.inl ha); omega
  have hsite' := h.split_site ha hs
  have hsep := h.valid.separate.rescale ha hs hle
  have hs7 := scale_lt_of_le hle
  have hfresh := h.valid.half_fresh ha
  refine ⟨Pool.split_valid h.valid ha hs, ?_⟩
  rw [splitBlock_eq h ha hs]
  refine ((h.laid.rescale h.valid.separate ha hle).setScale_fresh hsep hsite' hfresh hle).link hsep
    hsite' hfresh hs hle ?_
  rw [scale_setScale _ s hsite' hsite' hs7, if_pos rfl]

theorem split_spares (h : Stands L m P) {a s : Nat} (ha : P.used a = some (s + 1))
    (hs : minBlockScale ≤ s) (hA : Avoids L R (P.split a s)) : Spares R m (splitBlock L m a) := by
  have hle : s ≤ maxBlockScale := by have := h.valid.scale_le (Or.inl ha); omega
  have hsite := h.valid.site (Or.inl ha)
  have hsite' := h.split_site ha hs
  have hsep := h.valid.separate.rescale ha hs hle
  have hs7 := scale_lt_of_le hle
  have hb : (P.split a s).Block a s := (Pool.split_block h.valid ha _ _).mpr (Or.inl ⟨Or.inl rfl, rfl⟩)
  have hb' : (P.split a s).Block (a + 2 ^ s) s :=
    (Pool.split_block h.valid ha _ _).mpr (Or.inl ⟨Or.inr rfl, rfl⟩)
  have hfresh := h.valid.half_fresh ha
  rw [splitBlock_eq h ha hs]
  refine ((spares_setScale m s hsite (hA.header hb)).trans
    (spares_setScale _ s hsite' (hA.header hb'))).trans ?_
  refine ((h.laid.rescale h.valid.separate ha hle).setScale_fresh hsep hsite' hfresh hle).link_spares
    hsep hsite' hs hle ?_ hA (hA.mono fun x t hx => ?_)
  · rw [scale_setScale _ s hsite' hsite' hs7, if_pos rfl]
  · rcases hx with hx | hx
    · exact ⟨t, Or.inl hx⟩
    · exact ⟨t, (Pool.split_block h.valid ha x t).mpr (Or.inr ⟨Or.inr hx,
        fun he => h.valid.exclusive ha (t := t) (he ▸ hx)⟩)⟩

theorem merge (h : Stands L m P) {a s : Nat} (ha : P.used a = some s) (hv : (P.merge a s).Valid)
    (hs : s < maxBlockScale) :
    Stands L (m.setScale a (s + 1)) (P.merge a s) := by
  have hps := two_pow_pos' s
  refine ⟨hv, (h.laid.forget (a + 2 ^ s)).rescale (h.valid.separate.forget _) (t := s) ?_ hs⟩
  simpa [Pool.forget, Function.update_of_ne (show a ≠ a + 2 ^ s by omega)] using ha

theorem merge_spares (h : Stands L m P) {a s : Nat} (ha : P.used a = some s) (hA : Avoids L R P) :
    Spares R m (m.setScale a (s + 1)) :=
  spares_setScale m _ (h.valid.site (Or.inl ha)) (hA.header (Or.inl ha))

theorem brk_site (h : P.Valid) : Site P.brk := by
  have h16 : 16 ∣ 2 ^ maxBlockScale := by decide
  have := h.top
  have := Nat.le_of_dvd (two_pow_pos' maxBlockScale) h16
  exact ⟨h.tiling.ordered, h16.trans h.tiling.whole, by omega⟩

theorem grow (h : Stands L m P)
    (hroom : P.brk + 2 ^ maxBlockScale + 2 ^ maxBlockScale ≤ addressSpace) :
    Stands L (addToFreeList L (m.setScale P.brk maxBlockScale) P.brk) P.grow := by
  have hsite := brk_site h.valid
  have hfresh : ∀ t, ¬ P.Block P.brk t := fun t => h.valid.brk_fresh
  have hl := (h.laid.setScale_fresh h.valid.separate hsite hfresh (Nat.le_refl maxBlockScale)).link
    h.valid.separate hsite hfresh (by decide) (Nat.le_refl _)
    (by rw [scale_setScale _ _ hsite hsite (by decide), if_pos rfl])
  exact ⟨Pool.grow_valid h.valid hroom, hl.chain, hl.free, hl.used⟩

theorem grow_spares (h : Stands L m P)
    (hA : Avoids L R P.grow) :
    Spares R m (addToFreeList L (m.setScale P.brk maxBlockScale) P.brk) := by
  have hsite := brk_site h.valid
  have hfresh : ∀ t, ¬ P.Block P.brk t := fun t => h.valid.brk_fresh
  have hb : P.grow.Block P.brk maxBlockScale := (Pool.grow_block P _ _).mpr (Or.inl ⟨rfl, rfl⟩)
  refine (spares_setScale m maxBlockScale hsite (hA.header hb)).trans ?_
  exact (h.laid.setScale_fresh h.valid.separate hsite hfresh (Nat.le_refl maxBlockScale)).link_spares
    h.valid.separate hsite (by decide) (Nat.le_refl _)
    (by rw [scale_setScale _ _ hsite hsite (by decide), if_pos rfl]) hA hA.of_grow

theorem drop (h : Stands L m P) {a : Nat} (ha : P.used a = some maxBlockScale)
    (hbrk : P.brk = a + 2 ^ maxBlockScale) : Stands L m (P.drop a) := by
  have hl := h.laid.forget a
  exact ⟨Pool.drop_valid h.valid ha hbrk, hl.chain, hl.free, hl.used⟩

end Stands
end ShompOS
