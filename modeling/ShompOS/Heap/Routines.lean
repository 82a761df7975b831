import ShompOS.Heap.Refinement

/-! The routines a client calls, against the pool's requests.

`allocate`, `free` and `brk` each return from a represented pool, return what
the request returns and leave the request's pool represented; `init_heap` turns
any memory into a heap that represents one free block. `allocate` spares what
avoids the headers there are after it, `free` what avoids those before it. -/
namespace ShompOS
open Layout Memory

variable {L : Layout} {m : Memory} {P : Pool} {R : Nat → Prop}

/-! ### The buddy's address -/

theorem blockOffset_dvd {a d : Nat} (hlo : heapLowerBound ≤ a) (hd : d ∣ addressSpace) :
    (d : Int) ∣ Heap.blockOffset a ↔ d ∣ a - heapLowerBound := by
  have hcast : (a : Int) - heapLowerBound = ((a - heapLowerBound : Nat) : Int) := by omega
  have hmul : (d : Int) ∣ ((a : Int) - heapLowerBound) - Heap.blockOffset a :=
    (Int.natCast_dvd_natCast.mpr hd).trans (Int.dvd_self_sub_bmod ..)
  rw [← Int.natCast_dvd_natCast, ← hcast]
  exact ⟨fun h => by simpa using Int.dvd_add hmul h, fun h => by simpa using Int.dvd_sub h hmul⟩

theorem buddyOffset_eq {a s : Nat} (hlo : heapLowerBound ≤ a) (hs : s ≤ maxBlockScale) :
    Heap.buddyOffset a s = if 2 ^ (s + 1) ∣ a - heapLowerBound then 2 ^ s else -2 ^ s := by
  have h32 : maxBlockScale + 1 ≤ 32 := by decide
  have hd : 2 ^ (s + 1) ∣ addressSpace := pow_dvd_pow 2 (by omega)
  have hiff := blockOffset_dvd hlo hd
  push_cast at hiff
  unfold Heap.buddyOffset
  rw [Int.dvd_iff_tmod_eq_zero] at hiff
  by_cases h : 2 ^ (s + 1) ∣ a - heapLowerBound
  · rw [if_pos h, if_neg (by rw [not_not]; exact hiff.mpr h)]
  · rw [if_neg h, if_pos fun h0 => h (hiff.mp h0)]

/-- The signed arithmetic of `heap.c` finds the buddy, and the offset's sign says
on which side it is. -/
theorem buddy_address (h : P.Valid) {a s : Nat} (ha : P.Block a s) :
    Heap.addOffset a (Heap.buddyOffset a s) = buddyOf heapLowerBound a s ∧
      (Heap.buddyOffset a s < 0 ↔ buddyOf heapLowerBound a s < a) := by
  have hlo := h.tiling.lower ha
  have hup := h.tiling.upper ha
  have htop := h.top
  have hpM := two_pow_pos' maxBlockScale
  have hps := two_pow_pos' s
  have hpsI : (2 : Int) ^ s = ((2 ^ s : Nat) : Int) := by push_cast; rfl
  rw [buddyOffset_eq hlo (h.scale_le ha)]
  rcases Tiling.buddyOf_pair hlo (h.tiling.aligned ha) with ⟨hd, hb⟩ | ⟨hle, hd, hb⟩
  · rw [if_pos hd, hb, hpsI]
    refine ⟨?_, by omega⟩
    unfold Heap.addOffset
    rw [Int.emod_eq_of_lt (by omega) (by omega)]
    omega
  · have hodd : ¬ 2 ^ (s + 1) ∣ a - heapLowerBound := by
      intro he
      have := not_dvd_add hd
      rw [show a - 2 ^ s - heapLowerBound + 2 ^ s = a - heapLowerBound by omega] at this
      exact this he
    rw [if_neg hodd, hb, hpsI]
    refine ⟨?_, by omega⟩
    unfold Heap.addOffset
    rw [Int.emod_eq_of_lt (by omega) (by omega)]
    omega

/-- The lower of the two buddies, by that sign. -/
theorem lower_of_offset (h : P.Valid) {a s : Nat} (ha : P.Block a s) :
    (if Heap.buddyOffset a s < 0 then buddyOf heapLowerBound a s else a) = min a (buddyOf heapLowerBound a s) := by
  obtain ⟨-, hsign⟩ := buddy_address h ha
  by_cases hneg : Heap.buddyOffset a s < 0
  · rw [if_pos hneg]
    have := hsign.mp hneg
    omega
  · rw [if_neg hneg]
    have : ¬ buddyOf heapLowerBound a s < a := fun hlt => hneg (hsign.mpr hlt)
    omega

/-! ### Coalescing -/

/-- What the loop tests in the buddy's header is whether the buddy is a free
block of the same scale: where it would be, some block starts. -/
theorem Stands.buddy_free_iff (h : Stands L m P) {a s : Nat} (ha : P.used a = some s)
    (hs : s < maxBlockScale) :
    (m.isFree (buddyOf heapLowerBound a s) ≠ 0 ∧ m.scale (buddyOf heapLowerBound a s) = s) ↔
      buddyOf heapLowerBound a s ∈ P.free s := by
  constructor
  · rintro ⟨hfree, hscale⟩
    obtain ⟨t, -, hu | hf⟩ := h.valid.tiling.buddy_block (Or.inl ha) hs
    · exact absurd (h.laid.used hu).1 hfree
    · obtain rfl : t = s := (h.laid.free hf).2.symm.trans hscale
      exact hf
  · intro hf
    have hh := h.laid.free hf
    have hone : 1 ≠ 0 := Nat.one_ne_zero
    rw [hh.1]
    exact ⟨hone, hh.2⟩

/-- One round of the loop: the buddy leaves its list and the lower of the two takes both in. -/
theorem Stands.coalesceUp_merge (h : Stands L m P) {a s : Nat} (ha : P.used a = some s) (hs : s < maxBlockScale)
    (hb : buddyOf heapLowerBound a s ∈ P.free s) (k : Nat) :
    Heap.coalesceUp (k + 1) m a =
        Heap.coalesceUp k ((Heap.removeFromFreeList m (buddyOf heapLowerBound a s)).setScale
          (min a (buddyOf heapLowerBound a s)) (s + 1)) (min a (buddyOf heapLowerBound a s)) ∧
      Stands L ((Heap.removeFromFreeList m (buddyOf heapLowerBound a s)).setScale
        (min a (buddyOf heapLowerBound a s)) (s + 1))
        ((P.take (buddyOf heapLowerBound a s) s).merge (min a (buddyOf heapLowerBound a s)) s) := by
  have hscale := (h.laid.used ha).2.1
  obtain ⟨haddr, -⟩ := buddy_address h.valid (Or.inl ha)
  have hguard := (h.buddy_free_iff ha hs).mpr hb
  obtain ⟨hlo, -, hv, -⟩ := Pool.merge_buddy h.valid ha hb hs
  have htake := h.take hb
  refine ⟨?_, htake.merge hlo hv hs⟩
  rw [Heap.coalesceUp]
  simp only [hscale, haddr]
  rw [if_pos ⟨hguard.1, hguard.2, hs⟩, lower_of_offset h.valid (Or.inl ha), (htake.laid.used hlo).2.1]

theorem Stands.coalesceUp_stop (h : Stands L m P) {a s : Nat} (ha : P.used a = some s) (hs : s < maxBlockScale)
    (hb : buddyOf heapLowerBound a s ∉ P.free s) (k : Nat) : Heap.coalesceUp (k + 1) m a = (m, a) := by
  have hscale := (h.laid.used ha).2.1
  obtain ⟨haddr, -⟩ := buddy_address h.valid (Or.inl ha)
  rw [Heap.coalesceUp]
  simp only [hscale, haddr]
  exact if_neg fun hg => hb ((h.buddy_free_iff ha hs).mp ⟨hg.1, hg.2.1⟩)

theorem Stands.coalesceUp (h : Stands L m P) {k a s : Nat} (ha : P.used a = some s)
    (hk : s + k = maxBlockScale) {P' : Pool} {a' s' : Nat} (he : P.coalesce k a s = (P', a', s')) :
    ∃ m', Heap.coalesceUp k m a = (m', a') ∧ Stands L m' P' ∧
      (Avoids L R P → Avoids L R P' ∧ Spares R m m') := by
  induction k generalizing m P a s with
  | zero =>
    simp only [Pool.coalesce, Prod.mk.injEq] at he
    obtain ⟨rfl, rfl, rfl⟩ := he
    exact ⟨m, rfl, h, fun hA => ⟨hA, Spares.refl _ _⟩⟩
  | succ k ih =>
    have hs : s < maxBlockScale := by omega
    unfold Pool.coalesce at he
    by_cases hb : buddyOf heapLowerBound a s ∈ P.free s
    · simp only [if_pos hb] at he
      obtain ⟨hround, hmerge⟩ := h.coalesceUp_merge ha hs hb k
      obtain ⟨hlo, hhi, -, hused⟩ := Pool.merge_buddy h.valid ha hb hs
      obtain ⟨m', h1, h2, h3⟩ := ih hmerge (by rw [hused]; simp) (by omega) he
      have htake := h.take hb
      refine ⟨m', hround.trans h1, h2, fun hA => ?_⟩
      have hA' := hA.take h.valid hb
      obtain ⟨hA'', hsp⟩ := h3 (hA'.merge htake.valid hlo hhi)
      exact ⟨hA'', ((h.take_spares hb hA).trans (htake.merge_spares hlo hA')).trans hsp⟩
    · simp only [if_neg hb, Prod.mk.injEq] at he
      obtain ⟨rfl, rfl, rfl⟩ := he
      exact ⟨m, h.coalesceUp_stop ha hs hb k, h, fun hA => ⟨hA, Spares.refl _ _⟩⟩

/-! ### Moving the end of the heap -/

/-- Enough rounds to cross the whole address space. -/
theorem brkRounds_enough {addr brk : Nat} (h : addr ≤ addressSpace) :
    addr ≤ brk + 2 ^ 17 * 2 ^ maxBlockScale := by
  have : addressSpace = 2 ^ 17 * 2 ^ maxBlockScale := by decide
  omega

theorem Represents.moveBrk {h : Heap} {addr : Nat} (hr : Represents L h P)
    (hlo : heapLowerBound ≤ addr) (haddr : addr + 2 ^ maxBlockScale ≤ addressSpace) :
    ∃ h', Heap.brk L h addr = some (h', if (P.moveBrk addr Heap.brkRounds).2 then 0 else -1) ∧
      Represents L h' (P.moveBrk addr Heap.brkRounds).1 ∧
      (P.moveBrk addr Heap.brkRounds).1.used = P.used ∧
      (Avoids L R P → Avoids L R (P.moveBrk addr Heap.brkRounds).1 → Spares R h.mem h'.mem) := by
  have hpM := two_pow_pos' maxBlockScale
  unfold Heap.brk Pool.moveBrk
  rw [hr.brk]
  by_cases hgt : addr > P.brk
  · rw [if_pos hgt, if_pos hgt]
    obtain ⟨h', h1, h2, -, h4, h5⟩ :=
      hr.brkGrow (R := R) (k := 2 ^ 17) (brkRounds_enough (by omega)) haddr
    refine ⟨h', ?_, h2, h4, fun _ hA => (h5 hA).2⟩
    rw [show Heap.brkRounds = 2 ^ 17 + 1 from rfl, h1]
    rfl
  · rw [if_neg hgt, if_neg hgt]
    have := hr.stands.valid.top
    obtain ⟨h', h1, h2, h3, h4⟩ := hr.brkShrink (R := R) (k := 2 ^ 17) (brkRounds_enough (by omega)) hlo
    exact ⟨h', h1, h2, h3, fun hA _ => h4 hA⟩

/-- Growing to the end of one more block adds one block. -/
theorem Pool.growTo_next (n : Nat) : P.growTo (P.brk + 2 ^ maxBlockScale) (n + 2) = P.grow := by
  have hpM := two_pow_pos' maxBlockScale
  unfold Pool.growTo
  rw [if_pos (by omega)]
  unfold Pool.growTo
  exact if_neg (Nat.lt_irrefl (P.brk + 2 ^ maxBlockScale))

/-- One largest block down from the end. -/
theorem Pool.Valid.below_end (h : P.Valid) {a : Nat} (hbrk : P.brk = a + 2 ^ maxBlockScale) :
    Heap.addOffset P.brk (-1 * 2 ^ maxBlockScale) = a ∧ wrap (P.brk + (addressSpace - 2 ^ maxBlockScale)) = a := by
  have hpM := two_pow_pos' maxBlockScale
  have htop := h.top
  constructor
  · have hsub : (P.brk : Int) + -1 * 2 ^ maxBlockScale = (a : Int) := by
      rw [hbrk]
      push_cast
      ring
    unfold Heap.addOffset
    rw [hsub, ← Int.natCast_mod, Int.toNat_natCast]
    exact Nat.mod_eq_of_lt (by omega)
  · rw [wrap_sub (by omega) (by omega)]
    omega

/-- `sbrk(-1)` when the last block is free and of the largest scale: the block leaves its
list and the heap ends where it started. -/
theorem Represents.sbrk_last {h : Heap} {a : Nat} (hr : Represents L h P)
    (hbrk : P.brk = a + 2 ^ maxBlockScale) (ha : a ∈ P.free maxBlockScale) :
    Heap.sbrk L h (-1) = some (⟨Heap.removeFromFreeList h.mem a, a⟩, 0) := by
  have hpM := two_pow_pos' maxBlockScale
  obtain ⟨haddr, hblock⟩ := hr.stands.valid.below_end hbrk
  have hrounds : Heap.brkRounds = 2 ^ 17 - 1 + 1 + 1 := by decide
  unfold Heap.sbrk Heap.brk
  rw [if_neg (by decide), hr.brk, haddr, if_neg (by omega), hrounds, Heap.brkShrink, hr.brk, if_pos (by omega)]
  simp only [hblock]
  rw [if_neg ((hr.stands.last_free_iff (Or.inr ha)).mpr ha), Heap.brkShrink]
  exact if_neg (Nat.lt_irrefl a)

theorem Represents.dropLast {h : Heap} {a : Nat} (hr : Represents L h P)
    (hbrk : P.brk = a + 2 ^ maxBlockScale) (ha : a ∈ P.free maxBlockScale) :
    Represents L ⟨Heap.removeFromFreeList h.mem a, a⟩ ((P.take a maxBlockScale).drop a) :=
  ⟨(hr.stands.take ha).drop (by simp [Pool.take]) hbrk, rfl⟩

/-- `sbrk(1)` when there is room. -/
theorem Represents.sbrk_next {h : Heap} (hr : Represents L h P)
    (hroom : P.brk + 2 ^ maxBlockScale + 2 ^ maxBlockScale ≤ addressSpace) :
    ∃ h', Heap.sbrk L h 1 = some (h', 0) ∧ Represents L h' P.grow ∧
      (Avoids L R P.grow → Spares R h.mem h'.mem) := by
  have hpM := two_pow_pos' maxBlockScale
  have hlo := hr.stands.valid.tiling.ordered
  have hlo' : heapLowerBound ≤ P.brk + 2 ^ maxBlockScale := by omega
  obtain ⟨h', h1, h2, -, h4⟩ := hr.moveBrk (R := R) hlo' hroom
  have hmove : P.moveBrk (P.brk + 2 ^ maxBlockScale) Heap.brkRounds = (P.grow, true) := by
    unfold Pool.moveBrk
    rw [if_pos (by omega)]
    have hrounds : Heap.brkRounds = 2 ^ 17 - 1 + 2 := by decide
    rw [hrounds, Pool.growTo_next]
  rw [hmove] at h1 h2 h4
  refine ⟨h', ?_, h2, fun hA => h4 hA.of_grow hA⟩
  unfold Heap.sbrk
  rw [if_neg (by decide), hr.brk, addOffset_brk, wrap_eq (by omega)]
  exact h1

/-- Without room for another block the heap ends one block before the addresses do. -/
theorem Pool.Valid.end_of_full (h : P.Valid)
    (hfull : ¬ P.brk + 2 ^ maxBlockScale + 2 ^ maxBlockScale ≤ addressSpace) :
    P.brk + 2 ^ maxBlockScale = addressSpace := by
  have htop := h.top
  have hlo := h.tiling.ordered
  -- both are multiples of a block away from the lower bound
  have hA : 2 ^ maxBlockScale ∣ addressSpace - heapLowerBound := by decide
  have hB := Nat.dvd_add h.tiling.whole (Nat.dvd_refl (2 ^ maxBlockScale))
  have := eq_of_dvd_of_lt hA hB (by omega) (by omega)
  omega

/-- `sbrk(1)` at the end of the address space: the new end wraps to 0, so `brk`
shrinks instead, and fails at once when no block of the largest scale is free. -/
theorem Represents.sbrk_full {h : Heap} (hr : Represents L h P)
    (hfull : ¬ P.brk + 2 ^ maxBlockScale + 2 ^ maxBlockScale ≤ addressSpace)
    (hnone : P.free maxBlockScale = []) : Heap.sbrk L h 1 = some (h, -1) := by
  have hpM := two_pow_pos' maxBlockScale
  have htop := hr.stands.valid.top
  have hwrap := hr.stands.valid.end_of_full hfull
  have hne : heapLowerBound < P.brk := by
    have : heapLowerBound + 2 ^ maxBlockScale < addressSpace := by decide
    omega
  obtain ⟨hroom, s, hb⟩ := hr.stands.valid.last hne
  have hblock : wrap (P.brk + (addressSpace - 2 ^ maxBlockScale)) = P.brk - 2 ^ maxBlockScale :=
    wrap_sub (by omega) (by omega)
  have hnot : ¬ P.brk - 2 ^ maxBlockScale ∈ P.free maxBlockScale := by rw [hnone]; simp
  unfold Heap.sbrk Heap.brk
  rw [if_neg (by decide), hr.brk, addOffset_brk, hwrap,
    show wrap addressSpace = 0 from Nat.mod_self _, if_neg (by omega)]
  rw [show Heap.brkRounds = 2 ^ 17 + 1 from rfl, Heap.brkShrink, hr.brk, if_pos (by omega)]
  simp only [hblock]
  rw [if_pos]
  by_contra hn
  exact hnot ((hr.stands.last_free_iff hb).mp hn)

/-! ### free -/

/-- The header is found behind the pointer handed out. -/
theorem Stands.block_of_data {m : Memory} (h : Stands L m P) {a s : Nat} (ha : P.used a = some s) :
    wrap (a + headerSize + (addressSpace - headerSize)) = a := by
  have h9 : headerSize < 16 := by decide
  have h16 := h.valid.sixteen_le (Or.inl ha)
  have hup := h.valid.tiling.upper (Or.inl ha)
  have htop := h.valid.top
  have hpM := two_pow_pos' maxBlockScale
  rw [wrap_sub (by omega) (by omega), Nat.add_sub_cancel]

/-- `free` recognises the heap's last block when it is one of the largest. -/
theorem Stands.last_test (h : Stands L m P) {a s : Nat} (ha : P.used a = some s) :
    ((Heap.addToFreeList L m a).scale a = maxBlockScale ∧ P.brk = wrap (a + 2 ^ maxBlockScale)) ↔
      s = maxBlockScale ∧ P.brk = a + 2 ^ maxBlockScale := by
  have hin : a ∈ (P.give a s).free s := by simp [Pool.give]
  have htop := h.valid.top
  have hpM := two_pow_pos' maxBlockScale
  have hupper := h.valid.tiling.upper (Or.inl ha)
  rw [((h.give ha).laid.free hin).2]
  refine and_congr_right fun hs => ?_
  rw [hs] at hupper
  rw [wrap_eq (by omega)]

/-- What `free` does with the block that coalescing ends with. -/
theorem Represents.free_eq {h : Heap} (hr : Represents L h P) {a s : Nat} (ha : P.used a = some s) {P' : Pool}
    {a' s' : Nat} (hc : P.coalesce (maxBlockScale - s) a s = (P', a', s')) :
    ∃ m', Heap.coalesceUp (maxBlockScale - s) h.mem a = (m', a') ∧ Stands L m' P' ∧
      Heap.free L h (a + headerSize) =
        if s' = maxBlockScale ∧ P.brk = a' + 2 ^ maxBlockScale then
          some (⟨Heap.removeFromFreeList (Heap.addToFreeList L m' a') a', a'⟩, 0)
        else some (⟨Heap.addToFreeList L m' a', h.currentBrk⟩, 0) := by
  have hv := hr.stands.valid
  have hsite := hv.site (Or.inl ha)
  have hle := hv.scale_le (Or.inl ha)
  have hu := hr.stands.laid.used ha
  have hblock : wrap (a + headerSize + (addressSpace - headerSize)) = a := hr.stands.block_of_data ha
  obtain ⟨hv', hused', -, hbrk', -, -⟩ := Pool.coalesce_spec hv ha (by omega) hc
  obtain ⟨m', h1, h2, -⟩ := hr.stands.coalesceUp (R := fun _ => False) ha (by omega) hc
  have ha' : P'.used a' = some s' := by rw [hused', Function.update_self]
  have hgive := h2.give ha'
  have hfree : a' ∈ (P'.give a' s').free s' := by simp [Pool.give]
  have hend := h2.last_test ha'
  have hbrk : h.currentBrk = P'.brk := hr.brk.trans hbrk'.symm
  have hstep : Represents L ⟨Heap.addToFreeList L m' a', h.currentBrk⟩ (P'.give a' s') :=
    ⟨hgive, hbrk⟩
  rw [← hbrk] at hend
  rw [← hr.brk]
  refine ⟨m', h1, h2, ?_⟩
  unfold Heap.free
  rw [if_neg (by have := hsite.ne_zero; omega)]
  simp only [hblock]
  rw [if_neg (by simp [hu.2.2])]
  simp only [Heap.coalesceBlock, hu.2.1, h1]
  by_cases hlast : s' = maxBlockScale ∧ h.currentBrk = a' + 2 ^ maxBlockScale
  · rw [if_pos (hend.mpr hlast), if_pos hlast]
    obtain ⟨rfl, hlast⟩ := hlast
    rw [hstep.sbrk_last (hbrk.symm.trans hlast) hfree]
    rfl
  · rw [if_neg fun hn => hlast (hend.mp hn), if_neg hlast]

theorem Represents.free {h : Heap} (hr : Represents L h P) {a s : Nat} (ha : P.used a = some s) :
    ∃ h', Heap.free L h (a + headerSize) = some (h', 0) ∧ Represents L h' (P.release a s) ∧
      (Avoids L R P → Spares R h.mem h'.mem) := by
  have hv := hr.stands.valid
  have hle := hv.scale_le (Or.inl ha)
  rcases hc : P.coalesce (maxBlockScale - s) a s with ⟨P', a', s'⟩
  obtain ⟨hv', hused', -, hbrk', -, -⟩ := Pool.coalesce_spec hv ha (by omega) hc
  obtain ⟨m', h1, h2, hcall⟩ := hr.free_eq ha hc
  obtain ⟨m'', h1', -, h3⟩ := hr.stands.coalesceUp (R := R) ha (by omega) hc
  obtain ⟨rfl, -⟩ := Prod.mk.inj (h1.symm.trans h1')
  have ha' : P'.used a' = some s' := by rw [hused', Function.update_self]
  have hfree : a' ∈ (P'.give a' s').free s' := by simp [Pool.give]
  have hstep : Represents L ⟨Heap.addToFreeList L m' a', h.currentBrk⟩ (P'.give a' s') :=
    ⟨h2.give ha', hr.brk.trans hbrk'.symm⟩
  have hkeep : Avoids L R P → Avoids L R (P'.give a' s') ∧ Spares R h.mem (Heap.addToFreeList L m' a') := by
    intro hA
    obtain ⟨hA', hsp⟩ := h3 hA
    exact ⟨hA'.give hv' ha', hsp.trans (h2.give_spares ha' hA')⟩
  unfold Pool.release
  simp only [hc]
  have hbrk : (P'.give a' s').brk = P.brk := hbrk'
  rw [hcall, hbrk]
  by_cases hlast : s' = maxBlockScale ∧ P.brk = a' + 2 ^ maxBlockScale
  · rw [if_pos hlast, if_pos hlast]
    obtain ⟨rfl, hlast⟩ := hlast
    exact ⟨_, rfl, hstep.dropLast (hbrk'.trans hlast) hfree, fun hA =>
      (hkeep hA).2.trans (hstep.stands.take_spares hfree (hkeep hA).1)⟩
  · rw [if_neg hlast, if_neg hlast]
    exact ⟨_, rfl, hstep, fun hA => (hkeep hA).2⟩

/-! ### allocate -/

/-- A request in range is served from its scale on. -/
theorem Heap.allocate_eq (L : Layout) (h : Heap) {n : Nat} (hn : n ≤ 2 ^ maxBlockScale - headerSize) (hpos : n ≠ 0) :
    Heap.allocate L h n =
      if (Heap.findFit L h.mem (Pool.requestScale n)).2 ≠ 0 then
        some (⟨Heap.splitDown L (Heap.findFit L h.mem (Pool.requestScale n)).2 (Pool.requestScale n)
            ((Heap.findFit L h.mem (Pool.requestScale n)).1.scale (Heap.findFit L h.mem (Pool.requestScale n)).2)
            (Heap.findFit L h.mem (Pool.requestScale n)).1, h.currentBrk⟩,
          wrap ((Heap.findFit L h.mem (Pool.requestScale n)).2 + headerSize))
      else
        (Heap.sbrk L ⟨(Heap.findFit L h.mem (Pool.requestScale n)).1, h.currentBrk⟩ 1).map fun x =>
          if x.2 = -1 then (x.1, 0)
          else (⟨(Heap.findFit L x.1.mem (Pool.requestScale n)).1, x.1.currentBrk⟩,
            wrap ((Heap.findFit L x.1.mem (Pool.requestScale n)).2 + headerSize)) := by
  unfold Heap.allocate
  rw [if_neg (by omega), sizeToScale_eq hn]
  rfl

/-- The first free block of the smallest sufficient scale that has one. -/
theorem Represents.allocate_found {h : Heap} (hr : Represents L h P) {n a t : Nat} {rest : List Nat}
    (hn : n ≤ 2 ^ maxBlockScale - headerSize) (hpos : n ≠ 0) (hrt : Pool.requestScale n ≤ t) (ht : t ≤ maxBlockScale)
    (hf : P.free t = a :: rest) (hskip : ∀ u, Pool.requestScale n ≤ u → u < t → P.free u = []) :
    ∃ h', Heap.allocate L h n = some (h', a + headerSize) ∧
      Represents L h' ((P.take a t).splitDown a (Pool.requestScale n) (t - Pool.requestScale n)) ∧
      (Avoids L R ((P.take a t).splitDown a (Pool.requestScale n) (t - Pool.requestScale n)) →
        Avoids L R P ∧ Spares R h.mem h'.mem) := by
  have hscale := requestScale_range hn
  have ha : a ∈ P.free t := hf ▸ List.mem_cons_self ..
  have hup := (hr.stands.valid.site (Or.inr ha)).upper
  have hne := (hr.stands.valid.site (Or.inr ha)).ne_zero
  have h9 : headerSize < 16 := by decide
  obtain ⟨m', h1, h2, h3⟩ := hr.stands.findFit_some (R := R) hscale.1 hrt ht hskip hf
  have hused : (P.take a t).used a = some (Pool.requestScale n + (t - Pool.requestScale n)) := by
    rw [show Pool.requestScale n + (t - Pool.requestScale n) = t by omega]
    simp [Pool.take]
  have hrounds : t - Pool.requestScale n ≤ m'.scale a := by
    rw [(h2.laid.used hused).2.1]
    omega
  obtain ⟨h4, h5⟩ := h2.splitDown (R := R) hused hscale.1 hrounds
  rw [Heap.allocate_eq L h hn hpos, h1]
  dsimp only
  rw [if_pos hne, wrap_eq (by omega)]
  refine ⟨_, rfl, ⟨h4, ?_⟩, fun hA => ?_⟩
  · exact hr.brk.trans (Pool.splitDown_spec h2.valid hused hscale.1).2.2.symm
  · obtain ⟨hA', hsp⟩ := h5 hA
    have hA'' := Avoids.of_take hr.stands.valid ha hA'
    exact ⟨hA'', (h3 hA'').trans hsp⟩

/-- After growing, the new block is the only one that fits. -/
theorem Stands.findFit_grown {r : Nat} (hg : Stands L m P.grow) (hmin : minBlockScale ≤ r)
    (hr : r ≤ maxBlockScale) (hnone : ∀ u, r ≤ u → u ≤ maxBlockScale → P.free u = []) :
    ∃ m', Heap.findFit L m r = (m', P.brk) ∧ Stands L m' (P.grow.take P.brk maxBlockScale) ∧
      (Avoids L R P.grow → Spares R m m') := by
  have hfree : P.grow.free maxBlockScale = [P.brk] := by simp [Pool.grow, hnone _ hr (Nat.le_refl _)]
  refine hg.findFit_some hmin hr (Nat.le_refl _) (fun u h1 h2 => ?_) hfree
  have hsame : P.grow.free u = P.free u := Function.update_of_ne (Nat.ne_of_lt h2) _ _
  rw [hsame, hnone u h1 (by omega)]

/-- Nothing fits and the heap grows by a block. -/
theorem Represents.allocate_grown {h : Heap} (hr : Represents L h P) {n : Nat}
    (hn : n ≤ 2 ^ maxBlockScale - headerSize) (hpos : n ≠ 0)
    (hnone : ∀ u, Pool.requestScale n ≤ u → u ≤ maxBlockScale → P.free u = [])
    (hroom : P.brk + 2 ^ maxBlockScale + 2 ^ maxBlockScale ≤ addressSpace) :
    ∃ h', Heap.allocate L h n = some (h', P.brk + headerSize) ∧ Represents L h' (P.grow.take P.brk maxBlockScale) ∧
      (Avoids L R (P.grow.take P.brk maxBlockScale) → Avoids L R P ∧ Spares R h.mem h'.mem) := by
  have hscale := requestScale_range hn
  have hup := (Stands.brk_site hr.stands.valid).upper
  have h9 : headerSize < 16 := by decide
  obtain ⟨h', h1, h2, h3⟩ := hr.sbrk_next (R := R) hroom
  obtain ⟨m', h4, h5, h6⟩ := h2.stands.findFit_grown (R := R) hscale.1 hscale.2 hnone
  have hzero : ¬ (0 : Int) = -1 := by decide
  rw [Heap.allocate_eq L h hn hpos, hr.stands.findFit_none hscale.1 hscale.2 hnone]
  dsimp only
  rw [if_neg (not_not.mpr rfl), h1]
  simp only [Option.map_some, if_neg hzero, h4]
  rw [wrap_eq (by omega)]
  refine ⟨_, rfl, ⟨h5, h2.brk⟩, fun hA => ?_⟩
  have hin : P.brk ∈ P.grow.free maxBlockScale := by simp [Pool.grow]
  have hA' := Avoids.of_take h2.stands.valid hin hA
  exact ⟨hA'.of_grow, (h3 hA').trans (h6 hA')⟩

/-- Nothing fits and the heap ends where the addresses do. -/
theorem Represents.allocate_full {h : Heap} (hr : Represents L h P) {n : Nat}
    (hn : n ≤ 2 ^ maxBlockScale - headerSize) (hpos : n ≠ 0)
    (hnone : ∀ u, Pool.requestScale n ≤ u → u ≤ maxBlockScale → P.free u = [])
    (hroom : ¬ P.brk + 2 ^ maxBlockScale + 2 ^ maxBlockScale ≤ addressSpace) : Heap.allocate L h n = some (h, 0) := by
  have hscale := requestScale_range hn
  rw [Heap.allocate_eq L h hn hpos, hr.stands.findFit_none hscale.1 hscale.2 hnone]
  dsimp only
  rw [if_neg (not_not.mpr rfl), hr.sbrk_full hroom (hnone _ hscale.2 (Nat.le_refl _))]
  rfl

theorem Heap.allocate_refused (h : Heap) {n : Nat} (hn : n > 2 ^ maxBlockScale - headerSize ∨ n = 0) :
    Heap.allocate L h n = some (h, 0) := if_pos hn

theorem Represents.allocate {h : Heap} (hr : Represents L h P) (n : Nat) :
    ∃ h', Heap.allocate L h n = some (h', (P.allocate n).2) ∧
      Represents L h' (P.allocate n).1 ∧
      (Avoids L R (P.allocate n).1 → Avoids L R P ∧ Spares R h.mem h'.mem) := by
  have hways := P.allocates n
  generalize P.allocate n = r at hways
  cases hways with
  | refused hn => exact ⟨h, Heap.allocate_refused h hn, hr, fun hA => ⟨hA, Spares.refl _ _⟩⟩
  | found hn hpos hrt ht hf hskip => exact hr.allocate_found hn hpos hrt ht hf hskip
  | grown hn hpos hnone hroom => exact hr.allocate_grown hn hpos hnone hroom
  | full hn hpos hnone hroom => exact ⟨h, hr.allocate_full hn hpos hnone hroom, hr, fun hA => ⟨hA, Spares.refl _ _⟩⟩

/-! ### init_heap -/

/-- No blocks yet. -/
def Pool.bare : Pool := ⟨heapLowerBound, fun _ => [], fun _ => none⟩

/-- One free block of the largest scale. -/
def Pool.initial : Pool := Pool.bare.grow

theorem Pool.bare_valid : Pool.bare.Valid where
  tiling := (Tiling.empty maxBlockScale heapLowerBound).congr fun a s => by simp [Block, bare]
  minScale hb := by simp [Block, bare] at hb
  nodup _ := List.nodup_nil
  exclusive := by simp [bare]
  top := by decide

/-- The loop sets up the heads from `i` on and leaves those below alone. -/
theorem initLists_links (count i : Nat) (hi : i + count ≤ maxBlockScale + 1) (m : Memory) :
    ∀ s, s ≤ maxBlockScale →
      (Heap.initLists L count i m).next (L.list s) =
          (if i ≤ s ∧ s < i + count then L.list s else m.next (L.list s)) ∧
        (Heap.initLists L count i m).prev (L.list s) =
          (if i ≤ s ∧ s < i + count then L.list s else m.prev (L.list s)) := by
  induction count generalizing i m with
  | zero =>
    intro s _
    rw [if_neg (by omega), if_neg (by omega)]
    exact ⟨rfl, rfl⟩
  | succ count ih =>
    intro s hs
    have hn : L.Node (L.list i) := node_list (by omega)
    have hq : L.Node (L.list s) := node_list hs
    have hlt : L.list i < addressSpace := by have := hn.upper; omega
    have hiff : L.list s = L.list i ↔ s = i := ⟨list_injective, fun h => h ▸ rfl⟩
    obtain ⟨h1, h2⟩ := ih (i + 1) (by omega)
      ((m.setPrev (L.list i) (L.list i)).setNext (L.list i) (L.list i)) s hs
    rw [next_setNext _ _ hn hq hlt, next_setPrev _ _ hn hq] at h1
    rw [prev_setNext _ _ hn hq, prev_setPrev _ _ hn hq hlt] at h2
    simp only [hiff] at h1 h2
    unfold Heap.initLists
    rw [h1, h2]
    by_cases hsi : s = i
    · subst hsi
      simp
    · have : (i + 1 ≤ s ∧ s < i + 1 + count) ↔ (i ≤ s ∧ s < i + (count + 1)) := by omega
      simp only [this, if_neg hsi, and_self]

theorem represents_initHeap (L : Layout) (m : Memory) :
    ∃ h, Heap.initHeap L m heapLowerBound = some h ∧ Represents L h Pool.initial := by
  have hlinks := initLists_links (L := L) (maxBlockScale + 1 - minBlockScale) minBlockScale
    (by decide) m
  have hbare : Represents L
      ⟨Heap.initLists L (maxBlockScale + 1 - minBlockScale) minBlockScale m, heapLowerBound⟩
      Pool.bare := by
    refine ⟨⟨Pool.bare_valid, fun s hmin hs => ?_, ?_, ?_⟩, rfl⟩
    · obtain ⟨h1, h2⟩ := hlinks s hs
      have hin : minBlockScale ≤ s ∧ s < minBlockScale + (maxBlockScale + 1 - minBlockScale) :=
        ⟨hmin, by omega⟩
      rw [if_pos hin] at h1 h2
      exact ⟨List.nodup_singleton _, h2, h1⟩
    · simp [Pool.bare]
    · simp [Pool.bare]
  obtain ⟨h, h1, h2, -⟩ := hbare.sbrk_next (R := fun _ => False) (by decide)
  refine ⟨h, ?_, h2⟩
  unfold Heap.initHeap
  simp only [h1]
  rfl

/-! ### Requests one after the other -/

/-- Which of the requests are served. -/
def Pool.served (P : Pool) : List Nat → List Bool
  | [] => []
  | n :: ns => decide ((P.allocate n).2 ≠ 0) :: (P.allocate n).1.served ns

def Heap.served (L : Layout) (h : Heap) : List Nat → Option (List Bool)
  | [] => some []
  | n :: ns => (h.allocate L n).bind fun (h', p) => (h'.served L ns).map (decide (p ≠ 0) :: ·)

theorem Represents.served {L : Layout} {P : Pool} {h : Heap} (hr : Represents L h P) (ns : List Nat) :
    h.served L ns = some (P.served ns) := by
  induction ns generalizing h P with
  | nil => rfl
  | cons n ns ih =>
    obtain ⟨h', hcall, hr', -⟩ := hr.allocate (R := fun _ => False) n
    unfold Heap.served Pool.served
    rw [hcall, Option.bind_some]
    dsimp only
    rw [ih hr']
    rfl

end ShompOS
