import ShompOS.Heap.Views

/-! Two frees in either order.

The free blocks are determined by the used ones and the end of the heap: where no
two of one scale are buddies they are the largest aligned stretches in between
(`Merged.free_unique`). So two frees in either order leave the same free blocks if
they leave the same end. Each gives back at most one block, the one that it has just
freed; the end differs when the last two places for largest blocks hold one used
block each. Then only the order that starts with the last one gives both back. -/
namespace ShompOS
open Layout
namespace Pool

variable {P Q : Pool}

/-! ### The free blocks are determined -/

/-- A block of one pool that meets a free block of the other is free. -/
theorem Valid.free_of_meets (hP : P.Valid) (hused : P.used = Q.used) {a s c t : Nat} (ha : a ∈ P.free s)
    (hc : Q.Block c t)
    (h1 : a < c + 2 ^ t) (h2 : c < a + 2 ^ s) : c ∈ Q.free t := by
  cases hc with
  | inl hu =>
    rw [← hused] at hu
    obtain ⟨rfl, rfl⟩ := hP.tiling.apart (Or.inr ha) (Or.inl hu) h1 h2
    exact absurd ha (hP.exclusive hu)
  | inr hf => exact hf

/-- A block inside a free block of the other pool is no smaller. -/
theorem Merged.scale_le_of_inside (hm : P.Merged) (hP : P.Valid) (hQ : Q.Valid) (hused : Q.used = P.used)
    {a s c t : Nat}
    (hc : c ∈ Q.free t) (ha : P.Block a s) (hca : c ≤ a) (hac : a < c + 2 ^ t) : t ≤ s := by
  have hb : Q.Block c t := Or.inr hc
  refine hP.tiling.not_smaller (F := fun a s => a ∈ P.free s) (fun x u => hm x u) (hQ.tiling.lower hb)
    (hQ.tiling.aligned hb) (hQ.scale_le hb) (fun x u hx hcx hxc => ?_) ha hca hac
  have hpu := two_pow_pos' u
  exact hQ.free_of_meets hused hc hx (by omega) hxc

theorem Merged.free_subset (hm : P.Merged) (hP : P.Valid) (hQ : Q.Valid) (hm' : Q.Merged) (hused : P.used = Q.used)
    (hbrk : P.brk = Q.brk) {a s : Nat} (ha : a ∈ P.free s) : a ∈ Q.free s := by
  have hb : P.Block a s := Or.inr ha
  have hps := two_pow_pos' s
  have hlow := hP.tiling.lower hb
  have hup := hP.tiling.upper hb
  obtain ⟨c, t, hc, hca, hac⟩ := hQ.tiling.covers a hlow (by omega)
  have hclow := hQ.tiling.lower hc
  have hcf : c ∈ Q.free t := hP.free_of_meets hused ha hc hac (by omega)
  have hts : t ≤ s := hm.scale_le_of_inside hP hQ hused.symm hcf hb hca hac
  -- the smaller of two aligned stretches that meet starts where the larger does, if it starts no later
  have hd := (pow_dvd_pow 2 hts).trans (hP.tiling.aligned hb)
  have hsame := eq_of_dvd_of_lt (hQ.tiling.aligned hc) hd (by omega) (by omega)
  obtain rfl : c = a := by omega
  have hst : s ≤ t := hm'.scale_le_of_inside hQ hP hused ha hc (Nat.le_refl c) (by omega)
  rwa [Nat.le_antisymm hst hts]

/-- Merged pools with the same used blocks and the same end have the same free blocks. -/
theorem Merged.free_unique (hm : P.Merged) (hP : P.Valid) (hQ : Q.Valid) (hm' : Q.Merged) (hused : P.used = Q.used)
    (hbrk : P.brk = Q.brk) (a s : Nat) : a ∈ P.free s ↔ a ∈ Q.free s :=
  ⟨hm.free_subset hP hQ hm' hused hbrk, hm'.free_subset hQ hP hm hused.symm hbrk.symm⟩

/-! ### The end of the heap -/

/-- The block at `a` is the only used one in the last place for a largest block. -/
def LastOnly (P : Pool) (a : Nat) : Prop :=
  P.brk ≤ a + 2 ^ maxBlockScale ∧ ∀ x t, P.used x = some t → P.brk ≤ x + 2 ^ maxBlockScale → x = a

/-- What the last block's place is merged to when the block at `a` is freed. -/
theorem lastOnly_iff (h : P.Valid) (hm : P.Merged) {a s : Nat} (ha : P.used a = some s) {P' : Pool} {a' s' : Nat}
    (hc : P.coalesce (maxBlockScale - s) a s = (P', a', s')) :
    P.LastOnly a ↔ s' = maxBlockScale ∧ P.brk = a' + 2 ^ maxBlockScale := by
  have hle := h.scale_le (Or.inl ha)
  have hps := two_pow_pos' s
  have hup := h.tiling.upper (Or.inl ha)
  have hlow := h.tiling.lower (Or.inl ha)
  obtain ⟨hv, hmerged⟩ := hm.give_coalesced h ha hc
  have hused := give_coalesced_used h ha hc
  obtain ⟨haa, hin⟩ := coalesce_covers h ha (by omega) hc
  have hbrk : (P'.give a' s').brk = P.brk := (coalesce_spec h ha (by omega) hc).2.2.2.1
  have hfree : a' ∈ (P'.give a' s').free s' := by simp [give]
  have hother : ∀ x t, x ≠ a → ((P'.give a' s').used x = some t ↔ P.used x = some t) := fun x t hx => by
    rw [hused, Function.update_of_ne hx]
  constructor
  · intro hlast
    obtain ⟨hroom, u, hb⟩ := hv.last (by omega)
    have hal := hv.last_aligned
    rw [hbrk] at hroom hb hal
    have hall : ∀ x t, (P'.give a' s').Block x t → P.brk - 2 ^ maxBlockScale ≤ x →
        x < P.brk - 2 ^ maxBlockScale + 2 ^ maxBlockScale → x ∈ (P'.give a' s').free t := by
      intro x t hx hlo _
      cases hx with
      | inr hf => exact hf
      | inl hu =>
        have hne : x ≠ a := fun he => by rw [he, hused, Function.update_self] at hu; cases hu
        exact absurd (hlast.2 x t ((hother x t hne).mp hu) (by omega)) hne
    have hbig := hv.tiling.not_smaller (F := fun x t => x ∈ (P'.give a' s').free t) (fun x t => hmerged x t)
      (c := P.brk - 2 ^ maxBlockScale) (by omega) hal (Nat.le_refl _) hall hb (Nat.le_refl _) (by omega)
    obtain rfl : u = maxBlockScale := Nat.le_antisymm (hv.scale_le hb) hbig
    -- both contain the block that was freed
    obtain ⟨hsame, hscale⟩ := hv.tiling.apart (Or.inr hfree) hb (by have := hlast.1; omega) (by have := hlast.1; omega)
    exact ⟨hscale, by omega⟩
  · intro hlast
    obtain ⟨rfl, hend⟩ := hlast
    refine ⟨by omega, fun x t hx hxe => ?_⟩
    by_contra hne
    have hx' := (hother x t hne).mpr hx
    have hxup := h.tiling.upper (Or.inl hx)
    have hpt := two_pow_pos' t
    obtain ⟨rfl, -⟩ := hv.tiling.apart (Or.inr hfree) (Or.inl hx') (by omega) (by omega)
    exact hv.exclusive hx' hfree

theorem release_brk (h : P.Valid) (hm : P.Merged) {a s : Nat} (ha : P.used a = some s) :
    (P.LastOnly a → (P.release a s).brk + 2 ^ maxBlockScale = P.brk) ∧
      (¬ P.LastOnly a → (P.release a s).brk = P.brk) := by
  have hle := h.scale_le (Or.inl ha)
  unfold release
  rcases hc : P.coalesce (maxBlockScale - s) a s with ⟨P', a', s'⟩
  have hbrk : (P'.give a' s').brk = P.brk := (coalesce_spec h ha (by omega) hc).2.2.2.1
  rw [lastOnly_iff h hm ha hc]
  simp only [hbrk]
  constructor
  · intro hlast
    rw [if_pos hlast]
    exact hlast.2.symm
  · intro hlast
    rw [if_neg hlast]
    exact hbrk

/-- The last place has the block at `a` alone in use, and the place below it the block at `b`. -/
def LastTwo (P : Pool) (a b : Nat) : Prop :=
  P.brk ≤ a + 2 ^ maxBlockScale ∧ b + 2 ^ maxBlockScale < P.brk ∧ P.brk ≤ b + 2 * 2 ^ maxBlockScale ∧
    ∀ x t, P.used x = some t → P.brk ≤ x + 2 * 2 ^ maxBlockScale → x = a ∨ x = b

theorem LastTwo.lastOnly {a b : Nat} (h : P.LastTwo a b) : P.LastOnly a := by
  obtain ⟨ha, hb, -, hall⟩ := h
  refine ⟨ha, fun x t hx hxe => ?_⟩
  cases hall x t hx (by omega) with
  | inl he => exact he
  | inr he => omega

variable {a b s t : Nat}

theorem used_release_iff (h : P.Valid) (ha : P.used a = some s) (x u : Nat) :
    (P.release a s).used x = some u ↔ x ≠ a ∧ P.used x = some u := by
  rw [(release_spec h ha).2]
  by_cases hx : x = a
  · simp [hx]
  · simp [hx]

/-- Which block is alone in the last place after another that was is gone. -/
theorem LastOnly.release_iff (hl : P.LastOnly a) (h : P.Valid) (hm : P.Merged) (ha : P.used a = some s)
    (hb : P.used b = some t) (hne : a ≠ b) : (P.release a s).LastOnly b ↔ P.LastTwo a b := by
  have hbrk := (release_brk h hm ha).1 hl
  unfold LastOnly LastTwo
  simp only [used_release_iff h ha]
  constructor
  · intro hlast
    refine ⟨hl.1, ?_, by omega, fun x u hx hxe => ?_⟩
    · by_contra hge
      exact hne (hl.2 b t hb (by omega)).symm
    · by_cases hxa : x = a
      · exact Or.inl hxa
      · exact Or.inr (hlast.2 x u ⟨hxa, hx⟩ (by omega))
  · intro htwo
    refine ⟨by omega, fun x u hx hxe => ?_⟩
    cases htwo.2.2.2 x u hx.2 (by omega) with
    | inl he => exact absurd he hx.1
    | inr he => exact he

/-- And after one that was not. -/
theorem lastOnly_release_iff (hl : ¬ P.LastOnly a) (h : P.Valid) (hm : P.Merged) (ha : P.used a = some s) :
    (P.release a s).LastOnly b ↔
      P.brk ≤ b + 2 ^ maxBlockScale ∧ ∀ x u, P.used x = some u → P.brk ≤ x + 2 ^ maxBlockScale → x = a ∨ x = b := by
  have hbrk := (release_brk h hm ha).2 hl
  unfold LastOnly
  simp only [used_release_iff h ha, hbrk]
  refine and_congr_right fun _ => ⟨fun hall x u hx hxe => ?_, fun hall x u hx hxe => ?_⟩
  · by_cases hxa : x = a
    · exact Or.inl hxa
    · exact Or.inr (hall x u ⟨hxa, hx⟩ hxe)
  · cases hall x u hx.2 hxe with
    | inl he => exact absurd he hx.1
    | inr he => exact he

/-- The end of the heap after two frees, by which of the two came first. -/
theorem release_release_brk (h : P.Valid) (hm : P.Merged) (ha : P.used a = some s) (hb : P.used b = some t)
    (hne : a ≠ b) :
    (P.LastTwo a b → ((P.release a s).release b t).brk + 2 ^ maxBlockScale = ((P.release b t).release a s).brk) ∧
      (¬ P.LastTwo a b → ¬ P.LastTwo b a → ((P.release a s).release b t).brk = ((P.release b t).release a s).brk) := by
  have hb' := (used_release_iff h ha b t).mpr ⟨Ne.symm hne, hb⟩
  have ha' := (used_release_iff h hb a s).mpr ⟨hne, ha⟩
  obtain ⟨hfirst, hkeep⟩ := release_brk h hm ha
  obtain ⟨hfirst', hkeep'⟩ := release_brk h hm hb
  obtain ⟨hsecond, hstay⟩ := release_brk (release_spec h ha).1 (hm.release h ha) hb'
  obtain ⟨hsecond', hstay'⟩ := release_brk (release_spec h hb).1 (hm.release h hb) ha'
  by_cases hla : P.LastOnly a
  · have hlb : ¬ P.LastOnly b := fun hlb => hne (hlb.2 a s ha hla.1)
    have hlast : (P.release b t).LastOnly a := (lastOnly_release_iff hlb h hm hb).mpr
      ⟨hla.1, fun x u hx hxe => Or.inr (hla.2 x u hx hxe)⟩
    have htwo := hla.release_iff h hm ha hb hne
    have := hfirst hla
    have := hkeep' hlb
    have := hsecond' hlast
    constructor
    · intro hab
      have := hsecond (htwo.mpr hab)
      omega
    · intro hab _
      have := hstay fun hl => hab (htwo.mp hl)
      omega
  · by_cases hlb : P.LastOnly b
    · have hlast : (P.release a s).LastOnly b := (lastOnly_release_iff hla h hm ha).mpr
        ⟨hlb.1, fun x u hx hxe => Or.inr (hlb.2 x u hx hxe)⟩
      have htwo := hlb.release_iff h hm hb ha (Ne.symm hne)
      have := hfirst' hlb
      have := hkeep hla
      have := hsecond hlast
      refine ⟨fun hab => absurd hab.lastOnly hla, fun _ hba => ?_⟩
      have := hstay' fun hl => hba (htwo.mp hl)
      omega
    · -- only both together can be all that is used in the last place
      have hboth : (P.release a s).LastOnly b ↔ (P.release b t).LastOnly a := by
        rw [lastOnly_release_iff hla h hm ha, lastOnly_release_iff hlb h hm hb]
        constructor
        · intro hl
          refine ⟨?_, fun x u hx hxe => (hl.2 x u hx hxe).symm⟩
          by_contra hlt
          refine hlb ⟨hl.1, fun x u hx hxe => (hl.2 x u hx hxe).resolve_left fun he => hlt (he ▸ hxe)⟩
        · intro hl
          refine ⟨?_, fun x u hx hxe => (hl.2 x u hx hxe).symm⟩
          by_contra hlt
          refine hla ⟨hl.1, fun x u hx hxe => (hl.2 x u hx hxe).resolve_left fun he => hlt (he ▸ hxe)⟩
      have := hkeep hla
      have := hkeep' hlb
      refine ⟨fun hab => absurd hab.lastOnly hla, fun _ _ => ?_⟩
      by_cases hl : (P.release a s).LastOnly b
      · have := hsecond hl
        have := hsecond' (hboth.mp hl)
        omega
      · have := hstay hl
        have := hstay' fun hl' => hl (hboth.mpr hl')
        omega

theorem release_release_used (h : P.Valid) (ha : P.used a = some s) (hb : P.used b = some t) (hne : a ≠ b) :
    ((P.release a s).release b t).used = ((P.release b t).release a s).used := by
  have hb' := (used_release_iff h ha b t).mpr ⟨Ne.symm hne, hb⟩
  have ha' := (used_release_iff h hb a s).mpr ⟨hne, ha⟩
  rw [(release_spec (release_spec h ha).1 hb').2, (release_spec h ha).2, (release_spec (release_spec h hb).1 ha').2,
    (release_spec h hb).2, Function.update_comm (Ne.symm hne)]

end Pool

/-! ### Heaps -/

variable {L : Layout}

/-- The last `2 ^ 15` bytes have only the block of `p` in use, and those below only that of `q`. -/
def Heap.LastTwo (h : Heap) (p q : Nat) : Prop :=
  h.currentBrk ≤ p - headerSize + 2 ^ maxBlockScale ∧ q - headerSize + 2 ^ maxBlockScale < h.currentBrk ∧
    h.currentBrk ≤ q - headerSize + 2 * 2 ^ maxBlockScale ∧
    ∀ x t, h.UsedBlock x t → h.currentBrk ≤ x + 2 * 2 ^ maxBlockScale → x = p - headerSize ∨ x = q - headerSize

/-- Two heaps show the same free blocks and the same end. -/
def Heap.SameFree (h h' : Heap) : Prop := (∀ a t, h.FreeBlock a t ↔ h'.FreeBlock a t) ∧ h.currentBrk = h'.currentBrk

theorem Represents.lastTwo_iff {h : Heap} {P : Pool} (hr : Represents L h P) (a b : Nat) :
    h.LastTwo (a + headerSize) (b + headerSize) ↔ P.LastTwo a b := by
  unfold Heap.LastTwo Pool.LastTwo
  simp only [hr.usedBlock_iff, hr.brk, Nat.add_sub_cancel]

namespace Session
variable {s : Session} {P : Pool}

/-- Two frees in both orders, with the pools they lead to. -/
theorem Good.free_free (hg : s.Good L P) {a b t u : Nat} (ha : P.used a = some t) (hb : P.used b = some u)
    (hne : a ≠ b) :
    ∃ h₁ h₂, s.heap.free L (a + headerSize) = some (h₁, 0) ∧ h₁.free L (b + headerSize) = some (h₂, 0) ∧
      Represents L h₂ ((P.release a t).release b u) ∧ ((P.release a t).release b u).Merged := by
  have hv := hg.represents.stands.valid
  have hb' := (Pool.used_release_iff hv ha b u).mpr ⟨Ne.symm hne, hb⟩
  obtain ⟨h₁, hfirst, hrep, -⟩ := hg.represents.free (R := fun _ => False) ha
  obtain ⟨h₂, hsecond, hrep', -⟩ := hrep.free (R := fun _ => False) hb'
  exact ⟨h₁, h₂, hfirst, hsecond, hrep', (hg.merged.release hv ha).release (Pool.release_spec hv ha).1 hb'⟩

/-- Both orders of two frees leave the same used blocks. They leave the same free blocks and the
same end too, unless the two blocks are alone in the last two places for largest blocks: then
the order that starts below leaves one of these places free that the other has given back. -/
theorem reached_free_order (h : Reached L s) {p n q k : Nat} (hp : (p, n) ∈ s.live) (hq : (q, k) ∈ s.live)
    (hne : p ≠ q) :
    ∃ h₁ h₂ h₁' h₂', s.heap.free L p = some (h₁, 0) ∧ h₁.free L q = some (h₂, 0) ∧
      s.heap.free L q = some (h₁', 0) ∧ h₁'.free L p = some (h₂', 0) ∧
      (∀ a t, h₂.UsedBlock a t ↔ h₂'.UsedBlock a t) ∧
      (¬ s.heap.LastTwo p q → ¬ s.heap.LastTwo q p → h₂.SameFree h₂') ∧
      (s.heap.LastTwo p q → h₂.currentBrk + 2 ^ maxBlockScale = h₂'.currentBrk ∧
        ∀ a t, h₂'.FreeBlock a t ↔ h₂.FreeBlock a t ∨ a = h₂.currentBrk ∧ t = maxBlockScale) := by
  obtain ⟨P, hg⟩ := good_of_reached h
  obtain ⟨a, t, rfl, ha, -⟩ := hg.held hp
  obtain ⟨b, u, rfl, hb, -⟩ := hg.held hq
  have hab : a ≠ b := fun he => hne (he ▸ rfl)
  have hv := hg.represents.stands.valid
  obtain ⟨h₁, h₂, hfirst, hsecond, hrep, hm⟩ := hg.free_free ha hb hab
  obtain ⟨h₁', h₂', hfirst', hsecond', hrep', hm'⟩ := hg.free_free hb ha (Ne.symm hab)
  have hused := Pool.release_release_used hv ha hb hab
  obtain ⟨htwo, hsame⟩ := Pool.release_release_brk hv hg.merged ha hb hab
  rw [hg.represents.lastTwo_iff, hg.represents.lastTwo_iff]
  refine ⟨h₁, h₂, h₁', h₂', hfirst, hsecond, hfirst', hsecond', fun x y => ?_, fun hn hn' => ?_, fun hl => ?_⟩
  · rw [hrep.usedBlock_iff, hrep'.usedBlock_iff, hused]
  · have hbrk := hsame hn hn'
    refine ⟨fun x y => ?_, by rw [hrep.brk, hrep'.brk, hbrk]⟩
    rw [hrep.freeBlock_iff, hrep'.freeBlock_iff]
    exact hm.free_unique hrep.stands.valid hrep'.stands.valid hm' hused hbrk x y
  · have hbrk := htwo hl
    have hroom := hrep'.stands.valid.top
    have hgrow := Pool.grow_valid hrep.stands.valid (by rw [hbrk]; exact hroom)
    refine ⟨by rw [hrep.brk, hrep'.brk, hbrk], fun x y => ?_⟩
    rw [hrep.freeBlock_iff, hrep'.freeBlock_iff, hrep.brk,
      ← hm.grow.free_unique hgrow hrep'.stands.valid hm' hused hbrk x y]
    by_cases hy : y = maxBlockScale
    · simp [Pool.grow, hy, or_comm]
    · simp [Pool.grow, hy]

theorem reached_free_order_buddies : ∃ (s : Session) (p q : Nat) (h₁ h₂ h₁' h₂' : Heap), p ≠ q ∧
    s.heap.free kernelImage p = some (h₁, 0) ∧ h₁.free kernelImage q = some (h₂, 0) ∧
    s.heap.free kernelImage q = some (h₁', 0) ∧ h₁'.free kernelImage p = some (h₂', 0) ∧ h₂.SameFree h₂' := by
  obtain ⟨s, hs, hg, -⟩ := exists_reached kernelImage [.allocate 1, .allocate 1] rfl
  have ha : ((Pool.initial.allocate 1).1.allocate 1).1.used heapLowerBound = some minBlockScale := by decide +kernel
  have hb : ((Pool.initial.allocate 1).1.allocate 1).1.used (heapLowerBound + 16) =
    some minBlockScale := by decide +kernel
  have hbrk : ((Pool.initial.allocate 1).1.allocate 1).1.brk = heapLowerBound + 2 ^ maxBlockScale := by decide +kernel
  obtain ⟨n, hp⟩ := hg.used ha
  obtain ⟨k, hq⟩ := hg.used hb
  have hne : heapLowerBound + headerSize ≠ heapLowerBound + 16 + headerSize := by decide
  obtain ⟨h₁, h₂, h₁', h₂', hpq, hpq', hqp, hqp', -, hsame, -⟩ := reached_free_order hs hp hq hne
  refine ⟨s, _, _, h₁, h₂, h₁', h₂', hne, hpq, hpq', hqp, hqp', hsame ?_ ?_⟩
  · rw [hg.represents.lastTwo_iff]
    exact fun hl => absurd hl.2.1 (by omega)
  · rw [hg.represents.lastTwo_iff]
    exact fun hl => absurd hl.2.1 (by omega)

/-- The whole heap is one block again in either order. -/
example : ∀ order ∈ [[heapLowerBound + 9, heapLowerBound + 25], [heapLowerBound + 25, heapLowerBound + 9]],
    ((Heap.initHeap kernelImage Memory.zero heapLowerBound).bind fun h => (h.allocate kernelImage 1).bind fun x =>
      (x.1.allocate kernelImage 1).bind fun y =>
        (order.foldlM (fun (g : Heap) p => (g.free kernelImage p).map Prod.fst) y.1).map Heap.currentBrk) =
      some heapLowerBound := by decide +kernel

/-- Two largest blocks, one behind the other: only the order from the end gives both back. -/
theorem free_order_shows : ¬ ∀ s p n q k, Reached kernelImage s → (p, n) ∈ s.live → (q, k) ∈ s.live → p ≠ q →
    ∃ h₁ h₂ h₁' h₂', s.heap.free kernelImage p = some (h₁, 0) ∧ h₁.free kernelImage q = some (h₂, 0) ∧
      s.heap.free kernelImage q = some (h₁', 0) ∧ h₁'.free kernelImage p = some (h₂', 0) ∧
      (∀ a t, h₂.UsedBlock a t ↔ h₂'.UsedBlock a t) ∧ h₂.SameFree h₂' := by
  intro hall
  obtain ⟨s, hs, hg, -⟩ := exists_reached kernelImage [.allocate 32759, .allocate 32759] rfl
  have ha : ((Pool.initial.allocate 32759).1.allocate 32759).1.used heapLowerBound =
    some maxBlockScale := by decide +kernel
  have hb : ((Pool.initial.allocate 32759).1.allocate 32759).1.used (heapLowerBound + 2 ^ maxBlockScale) =
    some maxBlockScale := by
    decide +kernel
  obtain ⟨n, hp⟩ := hg.used ha
  obtain ⟨k, hq⟩ := hg.used hb
  obtain ⟨g₁, g₂, hfirst, hsecond, hrep, -⟩ := hg.free_free ha hb (by decide)
  obtain ⟨g₁', g₂', hfirst', hsecond', hrep', -⟩ := hg.free_free hb ha (by decide)
  obtain ⟨h₁, h₂, h₁', h₂', hpq, hpq', hqp, hqp', -, -, hbrk⟩ := hall s _ n _ k hs hp hq (by decide)
  obtain ⟨rfl, -⟩ := Prod.mk.inj (Option.some.inj (hfirst.symm.trans hpq))
  obtain ⟨rfl, -⟩ := Prod.mk.inj (Option.some.inj (hsecond.symm.trans hpq'))
  obtain ⟨rfl, -⟩ := Prod.mk.inj (Option.some.inj (hfirst'.symm.trans hqp))
  obtain ⟨rfl, -⟩ := Prod.mk.inj (Option.some.inj (hsecond'.symm.trans hqp'))
  rw [hrep.brk, hrep'.brk] at hbrk
  revert hbrk
  decide +kernel

end Session
end ShompOS
