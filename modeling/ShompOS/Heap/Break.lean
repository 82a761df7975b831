import ShompOS.Heap.Views

/-! Moving the end of the heap with `brk`.

Shrinking releases one last block after the other and stops at the first that is in
use or cut; what it has released by then stays released, so a failed `brk` is no
attempt without effect but a move as far down as possible. Growing adds blocks until
the heap contains the address. Past the last place where `current_brk` can stand
there is no such heap: the end wraps to 0 and the loop never stops. -/
namespace ShompOS
open Layout Memory

namespace Pool
variable {P : Pool}

/-! ### Shrinking as far as possible -/

/-- The free blocks in front of the last one, in the order they are in. -/
theorem free_dropLast (h : P.Valid) {a : Nat} (ha : a ∈ P.free maxBlockScale)
    (hbrk : P.brk = a + 2 ^ maxBlockScale) (t : Nat) :
    ((P.take a maxBlockScale).drop a).free t = (P.free t).filter (· < a) := by
  have hbelow : ∀ x ∈ P.free t, x ≠ a → x < a := fun x hx hne => by
    have hup := h.tiling.upper (Or.inr hx)
    have hps := two_pow_pos' t
    rcases h.tiling.separate (Or.inr hx) (Or.inr ha) hne with hsep | hsep
    · omega
    · omega
  have hfree : ((P.take a maxBlockScale).drop a).free t = (P.free t).erase a := by
    by_cases ht : t = maxBlockScale
    · simp [drop, take, ht]
    · have hnot : a ∉ P.free t := fun hat => ht (h.scale_unique (Or.inr hat) (Or.inr ha))
      rw [List.erase_of_not_mem hnot]
      exact Function.update_of_ne ht _ _
  rw [hfree, (h.nodup t).erase_eq_filter]
  refine List.filter_congr fun x hx => ?_
  by_cases hxa : x = a
  · simp [hxa]
  · simp [hxa, hbelow x hx hxa]

/-- Shrinking takes the free blocks of the largest scale off the end, and nothing else. -/
structure Shrunk (P Q : Pool) : Prop where
  used : Q.used = P.used
  le : Q.brk ≤ P.brk
  free : ∀ t, Q.free t = (P.free t).filter (· < Q.brk)
  gone : ∀ a, Q.brk ≤ a → a < P.brk → 2 ^ maxBlockScale ∣ a - heapLowerBound → a ∈ P.free maxBlockScale

theorem Shrunk.refl (h : P.Valid) : Shrunk P P := by
  refine ⟨rfl, Nat.le_refl _, fun t => ?_, fun a h1 h2 => absurd h1 (by omega)⟩
  refine (List.filter_eq_self.mpr fun x hx => decide_eq_true ?_).symm
  have hup := h.tiling.upper (Or.inr hx)
  have hps := two_pow_pos' t
  omega

theorem Shrunk.step {a : Nat} {Q : Pool} (h : P.Valid) (ha : a ∈ P.free maxBlockScale)
    (hbrk : P.brk = a + 2 ^ maxBlockScale)
    (hs : Shrunk ((P.take a maxBlockScale).drop a) Q) : Shrunk P Q := by
  have hle : Q.brk ≤ a := hs.le
  have hpM := two_pow_pos' maxBlockScale
  refine ⟨hs.used.trans (drop_take_used h ha), by omega, fun t => ?_, fun x h1 h2 hd => ?_⟩
  · rw [hs.free t, free_dropLast h ha hbrk, List.filter_filter]
    refine List.filter_congr fun x _ => ?_
    by_cases hx : x < Q.brk
    · simp [hx, Nat.lt_of_lt_of_le hx hle]
    · simp [hx]
  · by_cases hxa : x < a
    · have hin := hs.gone x h1 hxa hd
      rw [free_dropLast h ha hbrk] at hin
      exact (List.mem_filter.mp hin).1
    · -- the only aligned place from `a` on is `a`
      have hlow := h.tiling.lower (Or.inr ha)
      have := eq_of_dvd_of_lt hd (h.tiling.aligned (Or.inr ha)) (by omega) (by omega)
      obtain rfl : x = a := by omega
      exact ha

/-- The loop that shrinks stops at `addr`, or at a last block that is not free and of the largest scale. -/
theorem shrinkTo_spec (h : P.Valid) {addr : Nat} (hlo : heapLowerBound ≤ addr) (rounds : Nat)
    (hrounds : P.brk ≤ heapLowerBound + rounds * 2 ^ maxBlockScale) :
    Shrunk P (P.shrinkTo addr (rounds + 1)).1 ∧
      ((P.shrinkTo addr (rounds + 1)).2 = false →
        addr < (P.shrinkTo addr (rounds + 1)).1.brk ∧
          (P.shrinkTo addr (rounds + 1)).1.brk - 2 ^ maxBlockScale ∉
            (P.shrinkTo addr (rounds + 1)).1.free maxBlockScale) := by
  induction rounds generalizing P with
  | zero =>
    rw [shrinkTo, if_neg (by omega)]
    exact ⟨Shrunk.refl h, Bool.noConfusion⟩
  | succ rounds ih =>
    rw [shrinkTo]
    by_cases hlt : addr < P.brk
    · rw [if_pos hlt]
      dsimp only
      by_cases hin : P.brk - 2 ^ maxBlockScale ∈ P.free maxBlockScale
      · have hroom := (h.last (by omega)).1
        have hend : P.brk = P.brk - 2 ^ maxBlockScale + 2 ^ maxBlockScale := by omega
        have hv := drop_valid (take_valid h hin) (by simp [take]) hend
        rw [if_pos hin]
        obtain ⟨h1, h2⟩ := ih hv (by
          show P.brk - 2 ^ maxBlockScale ≤ heapLowerBound + rounds * 2 ^ maxBlockScale
          rw [Nat.succ_mul] at hrounds
          omega)
        exact ⟨h1.step h hin hend, h2⟩
      · rw [if_neg hin]
        exact ⟨Shrunk.refl h, fun _ => ⟨hlt, hin⟩⟩
    · rw [if_neg hlt]
      exact ⟨Shrunk.refl h, Bool.noConfusion⟩

end Pool

/-! ### A brk that fails -/

variable {L : Layout} {P : Pool}

/-- A failed shrink that releases nothing leaves the heap as it was. -/
theorem Represents.brk_blocked {h : Heap} {addr : Nat} (hr : Represents L h P) (hlo : heapLowerBound ≤ addr)
    (hlt : addr < P.brk) (hnot : P.brk - 2 ^ maxBlockScale ∉ P.free maxBlockScale) : h.brk L addr = some (h, -1) := by
  have htop := hr.stands.valid.top
  have hpM := two_pow_pos' maxBlockScale
  obtain ⟨hroom, s, hb⟩ := hr.stands.valid.last (by omega)
  have hblock : wrap (P.brk + (addressSpace - 2 ^ maxBlockScale)) = P.brk - 2 ^ maxBlockScale :=
    wrap_sub (by omega) (by omega)
  have hrounds : Heap.brkRounds = 2 ^ 17 + 1 := rfl
  unfold Heap.brk
  rw [hr.brk, if_neg (by omega), hrounds, Heap.brkShrink, hr.brk, if_pos hlt]
  simp only [hblock]
  rw [if_pos]
  by_contra hn
  exact hnot ((hr.stands.last_free_iff hb).mp hn)

/-- The blocks in front of the new end are the blocks there were, and the largest blocks behind it were free. -/
structure Heap.Released (L : Layout) (h h' : Heap) : Prop where
  used : ∀ a t, h'.UsedBlock a t ↔ h.UsedBlock a t
  le : h'.currentBrk ≤ h.currentBrk
  free : ∀ t, minBlockScale ≤ t → t ≤ maxBlockScale → ∀ list, h.FreeList L t list →
    h'.FreeList L t (list.filter (· < h'.currentBrk))
  gone : ∀ a, h'.currentBrk ≤ a → a < h.currentBrk → 2 ^ maxBlockScale ∣ a - heapLowerBound →
    h.FreeBlock a maxBlockScale

theorem Represents.released {h h' : Heap} {Q : Pool} (hr : Represents L h P) (hr' : Represents L h' Q)
    (hs : P.Shrunk Q) :
    h.Released L h' := by
  refine ⟨fun a t => ?_, ?_, fun t hmin ht list hlist => ?_, fun a h1 h2 hd => ?_⟩
  · rw [hr'.usedBlock_iff, hr.usedBlock_iff, hs.used]
  · rw [hr'.brk, hr.brk]
    exact hs.le
  · rw [hr.freeList_iff hmin ht] at hlist
    rw [hr'.freeList_iff hmin ht, hs.free t, hlist, hr'.brk]
  · rw [hr'.brk] at h1
    rw [hr.brk] at h2
    exact (hr.freeBlock_iff a _).mpr (hs.gone a h1 h2 hd)

namespace Session
variable {s : Session}

/-- What a failed `brk` leaves. -/
theorem Good.brk_fails (hg : s.Good L P) {addr : Nat} (hlo : heapLowerBound ≤ addr) {h' : Heap}
    (hcall : s.heap.brk L addr = some (h', -1)) :
    ∃ Q, Represents L h' Q ∧ P.Shrunk Q ∧ addr < Q.brk ∧ Q.brk - 2 ^ maxBlockScale ∉ Q.free maxBlockScale := by
  have hr := hg.represents
  have htop := hr.stands.valid.top
  have hpM := two_pow_pos' maxBlockScale
  have hle : ¬ addr > P.brk := by
    intro hgt
    unfold Heap.brk at hcall
    rw [hr.brk, if_pos hgt] at hcall
    obtain ⟨x, -, hx⟩ := Option.map_eq_some_iff.mp hcall
    exact absurd (Prod.mk.inj hx).2 (by decide)
  obtain ⟨h'', hmove, hrep, -⟩ := hr.moveBrk (R := fun _ => False) hlo (by omega)
  have hshrink : P.moveBrk addr Heap.brkRounds = P.shrinkTo addr (2 ^ 17 + 1) := by
    unfold Pool.moveBrk
    rw [if_neg hle]
    rfl
  rw [hshrink] at hmove hrep
  rw [hcall, Option.some.injEq, Prod.mk.injEq] at hmove
  obtain ⟨rfl, hret⟩ := hmove
  have hfalse : (P.shrinkTo addr (2 ^ 17 + 1)).2 = false := by
    by_contra hne
    rw [if_pos (by simpa using hne)] at hret
    cases hret
  obtain ⟨hs, hstop⟩ := Pool.shrinkTo_spec hr.stands.valid hlo (2 ^ 17) (brkRounds_enough (by omega))
  exact ⟨_, hrep, hs, hstop hfalse⟩

/-- A failed `brk` has released the free blocks of the largest scale at the end of the heap,
down to a last block that is not one, and changed nothing else; it has changed nothing at all
if and only if the last block was not one before. -/
theorem reached_brk_fails (h : Reached L s) {addr : Nat} (hlo : heapLowerBound ≤ addr) {h' : Heap}
    (hcall : s.heap.brk L addr = some (h', -1)) :
    s.heap.Released L h' ∧ addr < h'.currentBrk ∧ ¬ h'.FreeBlock (h'.currentBrk - 2 ^ maxBlockScale) maxBlockScale ∧
      (h' = s.heap ↔ ¬ s.heap.FreeBlock (s.heap.currentBrk - 2 ^ maxBlockScale) maxBlockScale) := by
  obtain ⟨P, hg⟩ := good_of_reached h
  have hr := hg.represents
  obtain ⟨Q, hrep, hs, haddr, hstop⟩ := hg.brk_fails hlo hcall
  have hlast : ¬ h'.FreeBlock (h'.currentBrk - 2 ^ maxBlockScale) maxBlockScale := by
    rw [hrep.freeBlock_iff, hrep.brk]
    exact hstop
  refine ⟨hr.released hrep hs, by rw [hrep.brk]; exact haddr, hlast, fun he => he ▸ hlast, fun hnot => ?_⟩
  rw [hr.freeBlock_iff, hr.brk] at hnot
  have hblocked := hr.brk_blocked hlo (Nat.lt_of_lt_of_le haddr hs.le) hnot
  rw [hcall] at hblocked
  exact (Prod.mk.inj (Option.some.inj hblocked)).1

theorem reached_brk_fails_used : ∃ s : Session, ∃ h', s.heap.brk kernelImage heapLowerBound = some (h', -1) ∧
    heapLowerBound < h'.currentBrk := by
  obtain ⟨s, hs, hg, -⟩ := exists_reached kernelImage [.allocate 1] rfl
  have hnot : (Pool.initial.allocate 1).1.brk - 2 ^ maxBlockScale ∉ (Pool.initial.allocate 1).1.free maxBlockScale := by
    decide +kernel
  have hlt : heapLowerBound < (Pool.initial.allocate 1).1.brk := by decide +kernel
  have hcall := hg.represents.brk_blocked (Nat.le_refl _) hlt hnot
  exact ⟨s, s.heap, hcall, (reached_brk_fails hs (Nat.le_refl _) hcall).2.1⟩

/-- Behind a block in use the heap has grown by one that is free; moving the end in front of both fails
after the free one is released. -/
theorem failed_brk_releases : ¬ ∀ s addr h', Reached kernelImage s → heapLowerBound ≤ addr →
    s.heap.brk kernelImage addr = some (h', -1) →
    h'.currentBrk = s.heap.currentBrk ∧ (∀ a t, h'.FreeBlock a t ↔ s.heap.FreeBlock a t) ∧
      ∀ a t, h'.UsedBlock a t ↔ s.heap.UsedBlock a t := by
  intro hall
  obtain ⟨s, hs, hg, -⟩ := exists_reached kernelImage [.allocate 1, .brk (heapLowerBound + 2 ^ 16)] rfl
  obtain ⟨h', hcall, hrep, -⟩ := hg.represents.moveBrk (R := fun _ => False) (Nat.le_refl heapLowerBound) (by decide)
  have hret : ((((Pool.initial.allocate 1).1.moveBrk (heapLowerBound + 2 ^ 16) Heap.brkRounds).1.moveBrk
      heapLowerBound Heap.brkRounds).2) = false := by decide +kernel
  rw [hret] at hcall
  have hsame := (hall s heapLowerBound h' hs (Nat.le_refl _) hcall).1
  rw [hrep.brk, hg.represents.brk] at hsame
  revert hsame
  decide +kernel

end Session

/-! ### The rounds of the loops -/

namespace Heap
variable {h h' : Heap} {addr : Nat}

/-- One round of the growing loop. -/
def growRound (L : Layout) (h : Heap) : Heap :=
  ⟨addToFreeList L (h.mem.setScale h.currentBrk maxBlockScale) h.currentBrk, wrap (h.currentBrk + 2 ^ maxBlockScale)⟩

/-- `current_brk - (1 << MAX_BLOCK_SCALE)` -/
def lastBlock (h : Heap) : Nat := wrap (h.currentBrk + (addressSpace - 2 ^ maxBlockScale))

/-- One round of the shrinking loop. -/
def shrinkRound (h : Heap) : Heap := ⟨removeFromFreeList h.mem h.lastBlock, h.lastBlock⟩

/-- The heaps at the test of the loop that `brk` enters, which its argument and the first of them choose. -/
inductive Passes (L : Layout) (addr : Nat) (h : Heap) : Heap → Prop
  | start : Passes L addr h h
  | grow {h' : Heap} : Passes L addr h h' → addr > h.currentBrk → addr > h'.currentBrk →
      Passes L addr h (h'.growRound L)
  | shrink {h' : Heap} : Passes L addr h h' → ¬ addr > h.currentBrk → addr < h'.currentBrk →
      h'.mem.scale h'.lastBlock = maxBlockScale → h'.mem.isFree h'.lastBlock ≠ 0 → Passes L addr h h'.shrinkRound

/-- The loop comes to an end, after however many rounds. -/
def Returns (L : Layout) (h : Heap) (addr : Nat) : Prop :=
  if addr > h.currentBrk then ∃ rounds, (brkGrow L addr rounds h).isSome else ∃ rounds, (brkShrink addr rounds h).isSome

/-- No round moves `current_brk` over an end of the address space. -/
def NeverWraps (L : Layout) (h : Heap) (addr : Nat) : Prop :=
  ∀ h', Passes L addr h h' →
    (addr > h.currentBrk → addr > h'.currentBrk → h'.currentBrk + 2 ^ maxBlockScale < addressSpace) ∧
      (¬ addr > h.currentBrk → addr < h'.currentBrk → 2 ^ maxBlockScale ≤ h'.currentBrk)

/-- Where `current_brk` can be: at multiples of a largest block. -/
structure Placed (h : Heap) : Prop where
  dvd : 2 ^ maxBlockScale ∣ h.currentBrk
  lt : h.currentBrk < addressSpace

theorem dvd_wrap {x : Nat} (hx : 2 ^ maxBlockScale ∣ x) : 2 ^ maxBlockScale ∣ wrap x :=
  (Nat.dvd_mod_iff (by decide : 2 ^ maxBlockScale ∣ addressSpace)).mpr hx

theorem Placed.growRound (hp : h.Placed) (L : Layout) : (h.growRound L).Placed :=
  ⟨dvd_wrap (Nat.dvd_add hp.dvd (Nat.dvd_refl _)), Nat.mod_lt _ (by decide)⟩

theorem Placed.shrinkRound (hp : h.Placed) : h.shrinkRound.Placed :=
  ⟨dvd_wrap (Nat.dvd_add hp.dvd (by decide)), Nat.mod_lt _ (by decide)⟩

theorem Placed.le (hp : h.Placed) : h.currentBrk ≤ 0xFFFF8000 := by
  have hroom := Tiling.add_le_of_dvd_of_lt hp.dvd (by decide : 2 ^ maxBlockScale ∣ addressSpace) hp.lt
  have hlimit : 0xFFFF8000 + 2 ^ maxBlockScale = addressSpace := by decide
  omega

/-- Above 0 there is room for a whole block. -/
theorem Placed.room (hp : h.Placed) (hlt : addr < h.currentBrk) :
    2 ^ maxBlockScale ≤ h.currentBrk ∧ h.lastBlock = h.currentBrk - 2 ^ maxBlockScale := by
  have hle := Nat.le_of_dvd (by omega) hp.dvd
  have hlt' := hp.lt
  have hpM := two_pow_pos' maxBlockScale
  exact ⟨hle, wrap_sub hle (by omega)⟩

theorem Passes.placed (hp : h.Placed) (hh : Passes L addr h h') : h'.Placed := by
  induction hh with
  | start => exact hp
  | grow _ _ _ ih => exact ih.growRound L
  | shrink _ _ _ _ _ ih => exact ih.shrinkRound

/-- Below the last place the end can have, the growing loop reaches its target. -/
theorem brkGrow_reaches {k : Nat} (hk : addr ≤ h.currentBrk + k * 2 ^ maxBlockScale) (hlimit : addr ≤ 0xFFFF8000) :
    (brkGrow L addr (k + 1) h).isSome := by
  induction k generalizing h with
  | zero =>
    rw [brkGrow, if_neg (by omega)]
    rfl
  | succ k ih =>
    rw [brkGrow]
    by_cases hgt : addr > h.currentBrk
    · rw [if_pos hgt]
      have hspace : 0xFFFF8000 + 2 ^ maxBlockScale = addressSpace := by decide
      apply ih
      dsimp only
      rw [wrap_eq (by omega)]
      rw [Nat.succ_mul] at hk
      omega
    · rw [if_neg hgt]
      rfl

/-- Above it the end is below the target after every round. -/
theorem brkGrow_never (hp : h.Placed) (hlimit : 0xFFFF8000 < addr) (rounds : Nat) : brkGrow L addr rounds h = none := by
  induction rounds generalizing h with
  | zero => rfl
  | succ rounds ih =>
    have hle := hp.le
    rw [brkGrow, if_pos (by omega)]
    exact ih (hp.growRound L)

/-- The shrinking loop ends at the latest where the addresses do, whatever is in memory. -/
theorem brkShrink_returns (hp : h.Placed) {k : Nat} (hk : h.currentBrk ≤ k * 2 ^ maxBlockScale) :
    (brkShrink addr (k + 1) h).isSome := by
  induction k generalizing h with
  | zero =>
    rw [brkShrink, if_neg (by omega)]
    rfl
  | succ k ih =>
    rw [brkShrink]
    by_cases hlt : addr < h.currentBrk
    · rw [if_pos hlt]
      dsimp only
      split
      · rfl
      · apply ih hp.shrinkRound
        show h.lastBlock ≤ k * 2 ^ maxBlockScale
        rw [(hp.room hlt).2]
        rw [Nat.succ_mul] at hk
        omega
    · rw [if_neg hlt]
      rfl

/-- `brk` returns without its end crossing an end of the address space exactly for the
addresses up to the last place its end can have. -/
theorem returns_iff (L : Layout) (hp : h.Placed) (addr : Nat) :
    h.Returns L addr ∧ h.NeverWraps L addr ↔ addr ≤ 0xFFFF8000 := by
  have hspace : 0xFFFF8000 + 2 ^ maxBlockScale = addressSpace := by decide
  have hpM := two_pow_pos' maxBlockScale
  have hle := hp.le
  constructor
  · intro hreturns
    by_contra hlimit
    have hret := hreturns.1
    unfold Returns at hret
    rw [if_pos (by omega)] at hret
    obtain ⟨rounds, hsome⟩ := hret
    rw [brkGrow_never hp (by omega) rounds] at hsome
    cases hsome
  · intro hlimit
    refine ⟨?_, fun h' hh => ⟨fun _ hgt => by omega, fun _ hlt => ((hh.placed hp).room hlt).1⟩⟩
    unfold Returns
    split
    · exact ⟨_, brkGrow_reaches (k := 2 ^ 17) (brkRounds_enough (by omega)) hlimit⟩
    · have hrounds : h.currentBrk ≤ 0 + 2 ^ 17 * 2 ^ maxBlockScale := brkRounds_enough (Nat.le_of_lt hp.lt)
      exact ⟨_, brkShrink_returns hp (k := 2 ^ 17) (by omega)⟩

/-- Going once round the address space is enough to know whether the loop ends. -/
theorem isSome_brk_iff (L : Layout) (hp : h.Placed) (addr : Nat) : (h.brk L addr).isSome ↔ h.Returns L addr := by
  have hspace : 0xFFFF8000 + 2 ^ maxBlockScale = addressSpace := by decide
  have hpM := two_pow_pos' maxBlockScale
  have hrounds : brkRounds = 2 ^ 17 + 1 := rfl
  unfold brk Returns
  split
  · rw [Option.isSome_map]
    refine ⟨fun hsome => ⟨_, hsome⟩, fun hret => ?_⟩
    obtain ⟨rounds, hsome⟩ := hret
    by_cases hlimit : addr ≤ 0xFFFF8000
    · rw [hrounds]
      exact brkGrow_reaches (brkRounds_enough (by omega)) hlimit
    · rw [brkGrow_never hp (by omega)] at hsome
      cases hsome
  · have henough : h.currentBrk ≤ 0 + 2 ^ 17 * 2 ^ maxBlockScale := brkRounds_enough (Nat.le_of_lt hp.lt)
    have hsome : (brkShrink addr (2 ^ 17 + 1) h).isSome := brkShrink_returns hp (by omega)
    rw [hrounds]
    exact ⟨fun _ => ⟨_, hsome⟩, fun _ => hsome⟩

theorem placed_of_multiple {k : Nat} (hbrk : h.currentBrk = heapLowerBound + k * 2 ^ maxBlockScale)
    (hlt : h.currentBrk < addressSpace) : h.Placed :=
  ⟨hbrk ▸ Nat.dvd_add (by decide) (Nat.dvd_mul_left _ _), hlt⟩

theorem brk_returns_iff (L : Layout) {k : Nat} (hbrk : h.currentBrk = heapLowerBound + k * 2 ^ maxBlockScale)
    (hlt : h.currentBrk < addressSpace) (addr : Nat) :
    (h.Returns L addr ∧ h.NeverWraps L addr ↔ addr ≤ 0xFFFF8000) ∧ ((h.brk L addr).isSome ↔ h.Returns L addr) :=
  have hp := placed_of_multiple hbrk hlt
  ⟨returns_iff L hp addr, isSome_brk_iff L hp addr⟩

theorem brk_returns_iff_grown : Returns kernelImage ⟨Memory.zero, heapLowerBound + 1 * 2 ^ maxBlockScale⟩ 0x5000000 :=
  ((brk_returns_iff kernelImage rfl (by decide) 0x5000000).1.mpr (by decide)).1

end Heap

theorem Represents.placed {h : Heap} (hr : Represents L h P) : h.Placed := by
  have hv := hr.stands.valid
  have hle := hv.tiling.ordered
  have htop := hv.top
  have hpM := two_pow_pos' maxBlockScale
  refine ⟨?_, by rw [hr.brk]; omega⟩
  rw [hr.brk, ← Nat.sub_add_cancel hle]
  exact Nat.dvd_add hv.tiling.whole (by decide)

/-- The last addresses are behind every place the end of the heap can have. -/
theorem brk_past_end : ¬ ∀ s addr, Session.Reached kernelImage s → addr < addressSpace →
    s.heap.Returns kernelImage addr ∧ s.heap.NeverWraps kernelImage addr := by
  intro hall
  obtain ⟨s, hs, hg, -⟩ := Session.exists_reached kernelImage [] rfl
  have hle := (Heap.returns_iff kernelImage hg.represents.placed 0xFFFF8001).mp (hall s 0xFFFF8001 hs (by decide))
  revert hle
  decide

end ShompOS
