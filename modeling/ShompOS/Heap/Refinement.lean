import ShompOS.Heap.Steps

/-! The allocator's routines do what the pool's requests say.

`Represents L h P`: the pool `P` stands in the heap's memory and ends where
`current_brk` points. From a represented pool every routine returns, returns
what the request returns, leaves a heap that represents the request's pool, and
spares what avoids the headers: those of the pool it leaves where blocks are cut,
those of the pool it finds where blocks are joined. -/
namespace ShompOS
open Layout Memory

structure Represents (L : Layout) (h : Heap) (P : Pool) : Prop where
  stands : Stands L h.mem P
  brk : h.currentBrk = P.brk

variable {L : Layout} {m : Memory} {P : Pool} {R : Nat → Prop}

/-! ### Finding a block -/

theorem sizeToScale_eq {n : Nat} (hn : n ≤ 2 ^ maxBlockScale - headerSize) :
    Heap.sizeToScale n = Nat.clog 2 (n + headerSize) := by
  have hlt : n + headerSize < addressSpace := by
    have : 2 ^ maxBlockScale - headerSize + headerSize < addressSpace := by decide
    omega
  unfold Heap.sizeToScale
  rw [wrap_eq hlt]
  show Nat.log2 (n + 9 - 1) + 1 = Nat.clog 2 (n + 9)
  rw [Nat.log2_eq_log_two]
  have hlow : 2 ^ Nat.log 2 (n + 9 - 1) ≤ n + 9 - 1 := Nat.pow_log_le_self 2 (by omega)
  have hhigh : n + 9 - 1 < 2 ^ (Nat.log 2 (n + 9 - 1) + 1) := Nat.lt_pow_succ_log_self (by decide) _
  refine le_antisymm ?_ (Nat.clog_le_of_le_pow (by omega))
  have : ¬ Nat.clog 2 (n + 9) ≤ Nat.log 2 (n + 9 - 1) := fun hle => by
    have := (Nat.le_pow_clog (b := 2) (by decide) (n + 9)).trans
      (Nat.pow_le_pow_right (by decide) hle)
    omega
  omega

theorem requestScale_range {n : Nat} (hn : n ≤ 2 ^ maxBlockScale - headerSize) :
    minBlockScale ≤ Pool.requestScale n ∧ Pool.requestScale n ≤ maxBlockScale := by
  refine ⟨Pool.minBlockScale_le_requestScale n, Pool.requestScale_le (by decide) ?_⟩
  have : headerSize ≤ 2 ^ maxBlockScale := by decide
  omega

theorem Laid.list_end_iff (hm : Laid L m P) {s : Nat} (hmin : minBlockScale ≤ s)
    (hs : s ≤ maxBlockScale) : m.next (L.list s) = L.list s ↔ P.free s = [] :=
  (hm.chain s hmin hs).end_iff

theorem Laid.searchFit_eq (hm : Laid L m P) {k s : Nat} (hmin : minBlockScale ≤ s)
    (hs : s + k ≤ maxBlockScale) : Heap.searchFit L m k s = P.searchFit k s := by
  induction k generalizing s with
  | zero => rfl
  | succ k ih =>
    unfold Heap.searchFit Pool.searchFit
    by_cases he : P.free s = []
    · rw [if_pos he, if_pos ((hm.list_end_iff hmin (by omega)).mpr he), ih (by omega) (by omega)]
    · rw [if_neg he, if_neg fun h => he ((hm.list_end_iff hmin (by omega)).mp h)]

/-- Writing `is_free` of a used block, which is clear already. -/
theorem Stands.setIsFree (h : Stands L m P) {a s : Nat} (ha : P.used a = some s) :
    Stands L (m.setIsFree a 0) P := by
  have hP := h.valid.separate
  have hsite := h.valid.site (Or.inl ha)
  refine ⟨h.valid, fun t htmin ht => ?_, fun {x t} hx => ?_, fun {x t} hx => ?_⟩
  · exact (h.laid.chain t htmin ht).congr (fun q hq => next_setIsFree _ _ hsite (hP.node hq ht))
      fun q hq => prev_setIsFree _ _ hsite (hP.node hq ht)
  · have hxs := hP.site (Or.inr hx)
    have hxa : x ≠ a := fun he => h.valid.exclusive ha (he ▸ hx)
    rw [isFree_setIsFree _ _ hsite hxs, if_neg hxa, scale_setIsFree _ _ hsite hxs]
    exact h.laid.free hx
  · have hxs := hP.site (Or.inl hx)
    have hold := h.laid.used hx
    rw [isFree_setIsFree _ _ hsite hxs, scale_setIsFree _ _ hsite hxs,
      next_setIsFree _ _ hsite hxs.node (L := L), prev_setIsFree _ _ hsite hxs.node (L := L)]
    refine ⟨?_, hold.2⟩
    split
    · rfl
    · exact hold.1

/-- A free block is found: the first one of the first sufficient scale that has one. -/
theorem Stands.findFit_some (h : Stands L m P) {r t : Nat} (hmin : minBlockScale ≤ r) (hrt : r ≤ t)
    (ht : t ≤ maxBlockScale) (hskip : ∀ u, r ≤ u → u < t → P.free u = []) {a : Nat} {rest : List Nat}
    (hf : P.free t = a :: rest) :
    ∃ m', Heap.findFit L m r = (m', a) ∧ Stands L m' (P.take a t) ∧ (Avoids L R P → Spares R m m') := by
  have hc := h.laid.chain t (by omega) ht
  rw [hf] at hc
  have ha : a ∈ P.free t := by rw [hf]; simp
  have hsite := h.valid.site (Or.inr ha)
  have hne : a ≠ L.list t := Ne.symm (list_ne_site ht hsite)
  have htake := h.take ha
  have hused : (P.take a t).used a = some t := by simp [Pool.take]
  refine ⟨(Heap.removeFromFreeList m a).setIsFree a 0, ?_, htake.setIsFree hused, fun hA => ?_⟩
  · have hsearch := P.searchFit_eq (k := maxBlockScale - r) hrt (by omega) hskip fun _ => hf ▸ List.cons_ne_nil _ _
    unfold Heap.findFit
    rw [h.laid.searchFit_eq hmin (by omega), hsearch]
    simp only [hc.first]
    rw [if_pos ⟨hne, hsite.ne_zero⟩]
  · exact (h.take_spares ha hA).trans (spares_setIsFree _ _ hsite (hA.header (Or.inr ha)))

/-- No free block of a sufficient scale: nothing is found and nothing changes. -/
theorem Stands.findFit_none (h : Stands L m P) {r : Nat} (hmin : minBlockScale ≤ r)
    (hr : r ≤ maxBlockScale) (hnone : ∀ u, r ≤ u → u ≤ maxBlockScale → P.free u = []) :
    Heap.findFit L m r = (m, 0) := by
  have he := (h.laid.list_end_iff (s := maxBlockScale) (by decide) (Nat.le_refl _)).mpr (hnone _ hr (Nat.le_refl _))
  have hsearch := P.searchFit_eq (k := maxBlockScale - r) hr (by omega)
    (fun u h1 h2 => hnone u h1 (by omega)) (by omega)
  unfold Heap.findFit
  rw [h.laid.searchFit_eq hmin (by omega), hsearch]
  rw [if_neg fun hn => hn.1 he]

/-! ### Splitting down -/

theorem Stands.splitDown (h : Stands L m P) {a r k rounds : Nat} (ha : P.used a = some (r + k))
    (hr : minBlockScale ≤ r) (hk : k ≤ rounds) :
    Stands L (Heap.splitDown L a r rounds m) (P.splitDown a r k) ∧
      (Avoids L R (P.splitDown a r k) → Avoids L R P ∧ Spares R m (Heap.splitDown L a r rounds m)) := by
  induction k generalizing m P rounds with
  | zero =>
    have hscale := (h.laid.used ha).2.1
    have hstop : Heap.splitDown L a r rounds m = m := by
      cases rounds with
      | zero => rfl
      | succ rounds => rw [Heap.splitDown, if_neg (by omega)]
    rw [hstop]
    exact ⟨h, fun hA => ⟨hA, Spares.refl _ _⟩⟩
  | succ k ih =>
    have hscale := (h.laid.used ha).2.1
    obtain ⟨rounds, rfl⟩ := Nat.exists_eq_add_of_le' (show 1 ≤ rounds by omega)
    have ha' : P.used a = some (r + k + 1) := ha
    have hsplit := h.split ha' (by omega)
    obtain ⟨h1, h2⟩ := ih hsplit (by simp [Pool.split]) (Nat.le_of_succ_le_succ hk)
    rw [Heap.splitDown, if_pos (by omega)]
    refine ⟨h1, fun hA => ?_⟩
    obtain ⟨hA', hsp⟩ := h2 hA
    exact ⟨hA'.of_split h.valid ha', (h.split_spares ha' (by omega) hA').trans hsp⟩

/-! ### The end of the heap -/

/-- Where a largest block could start, a block starts. -/
theorem Tiling.block_at_multiple {M lo hi : Nat} {B : Nat → Nat → Prop} (h : Tiling M lo hi B)
    {x : Nat} (hlo : lo ≤ x) (hhi : x < hi) (hd : 2 ^ M ∣ x - lo) : ∃ s, B x s := by
  obtain ⟨a, s, ha, hax, hxa⟩ := h.covers x hlo hhi
  have := eq_of_dvd_of_lt (h.aligned ha) ((pow_dvd_pow 2 (h.scale ha)).trans hd)
    (by have := h.lower ha; have := two_pow_pos' s; omega) (by have := h.lower ha; omega)
  have : a = x := by have := h.lower ha; omega
  exact ⟨s, this ▸ ha⟩

/-- The last place for a block of the largest scale is aligned. -/
theorem Pool.Valid.last_aligned (h : P.Valid) : 2 ^ maxBlockScale ∣ P.brk - 2 ^ maxBlockScale - heapLowerBound := by
  have hd := Nat.dvd_sub h.tiling.whole (Nat.dvd_refl (2 ^ maxBlockScale))
  rwa [Nat.sub_right_comm] at hd

/-- A heap that is not empty has room for a last block of the largest scale. -/
theorem Pool.Valid.last (h : P.Valid) (hne : heapLowerBound < P.brk) :
    heapLowerBound + 2 ^ maxBlockScale ≤ P.brk ∧
      ∃ s, P.Block (P.brk - 2 ^ maxBlockScale) s := by
  have hle := Nat.le_of_dvd (by omega) h.tiling.whole
  have hpM := two_pow_pos' maxBlockScale
  exact ⟨by omega, h.tiling.block_at_multiple (by omega) (by omega) h.last_aligned⟩

/-- The shrinking loop's test reads the header of a block, and says whether that
block is free and of the largest scale. -/
theorem Stands.last_free_iff (h : Stands L m P) {a s : Nat} (hb : P.Block a s) :
    ¬ (m.scale a ≠ maxBlockScale ∨ m.isFree a = 0) ↔ a ∈ P.free maxBlockScale := by
  rcases hb with hu | hf
  · have := h.laid.used hu
    simp [this.1, h.valid.exclusive hu]
  · have hh := h.laid.free hf
    rw [hh.1, hh.2]
    constructor
    · intro hn
      have : s = maxBlockScale := by omega
      exact this ▸ hf
    · intro hm
      have := h.valid.scale_unique (Or.inr hf) (Or.inr hm)
      simp [this]

theorem addOffset_brk (brk : Nat) :
    Heap.addOffset brk (1 * 2 ^ maxBlockScale) = wrap (brk + 2 ^ maxBlockScale) := by
  unfold Heap.addOffset wrap
  rw [one_mul, show ((brk : Int) + 2 ^ maxBlockScale) = ((brk + 2 ^ maxBlockScale : Nat) : Int) by
    push_cast; rfl, ← Int.natCast_mod, Int.toNat_natCast]

/-- One round of the growing loop. -/
theorem Represents.grow {h : Heap} (hr : Represents L h P)
    (hroom : P.brk + 2 ^ maxBlockScale + 2 ^ maxBlockScale ≤ addressSpace) :
    Represents L ⟨Heap.addToFreeList L (h.mem.setScale h.currentBrk maxBlockScale) h.currentBrk,
      wrap (h.currentBrk + 2 ^ maxBlockScale)⟩ P.grow := by
  have hpM := two_pow_pos' maxBlockScale
  refine ⟨?_, ?_⟩
  · rw [hr.brk]
    exact hr.stands.grow hroom
  · show wrap (h.currentBrk + 2 ^ maxBlockScale) = P.brk + 2 ^ maxBlockScale
    rw [hr.brk, wrap_eq (by omega)]

/-- The growing loop, with enough rounds to reach `addr`. -/
theorem Represents.brkGrow {h : Heap} {addr k : Nat} (hr : Represents L h P)
    (hk : addr ≤ P.brk + k * 2 ^ maxBlockScale) (haddr : addr + 2 ^ maxBlockScale ≤ addressSpace) :
    ∃ h', Heap.brkGrow L addr (k + 1) h = some h' ∧ Represents L h' (P.growTo addr (k + 1)) ∧
      addr ≤ (P.growTo addr (k + 1)).brk ∧ (P.growTo addr (k + 1)).used = P.used ∧
      (Avoids L R (P.growTo addr (k + 1)) → Avoids L R P ∧ Spares R h.mem h'.mem) := by
  induction k generalizing h P with
  | zero =>
    have hstop : ¬ addr > P.brk := by omega
    refine ⟨h, ?_, ?_⟩
    · rw [Heap.brkGrow, hr.brk, if_neg hstop]
    · rw [Pool.growTo, if_neg hstop]
      exact ⟨hr, by omega, rfl, fun hA => ⟨hA, Spares.refl _ _⟩⟩
  | succ k ih =>
    rw [Heap.brkGrow, Pool.growTo]
    by_cases hgt : addr > P.brk
    · have hroom : P.brk + 2 ^ maxBlockScale + 2 ^ maxBlockScale ≤ addressSpace := by
        -- `brk` and the size of the address space are both multiples of a block
        by_contra hlt
        have htop := hr.stands.valid.top
        have hlo := hr.stands.valid.tiling.ordered
        have hA : 2 ^ maxBlockScale ∣ addressSpace - heapLowerBound := by decide
        have hB := Nat.dvd_add hr.stands.valid.tiling.whole (Nat.dvd_refl (2 ^ maxBlockScale))
        have := eq_of_dvd_of_lt hA hB (by omega) (by omega)
        omega
      rw [if_pos (by rw [hr.brk]; exact hgt), if_pos hgt]
      obtain ⟨h', h1, h2, h3, h4, h5⟩ := ih (hr.grow hroom) (by
        show addr ≤ P.brk + 2 ^ maxBlockScale + k * 2 ^ maxBlockScale
        rw [Nat.succ_mul] at hk
        omega)
      refine ⟨h', h1, h2, h3, h4, fun hA => ?_⟩
      obtain ⟨hA', hsp⟩ := h5 hA
      have hgrow := hr.stands.grow_spares hA'
      rw [← hr.brk] at hgrow
      exact ⟨hA'.of_grow, hgrow.trans hsp⟩
    · rw [if_neg (by rw [hr.brk]; exact hgt), if_neg hgt]
      exact ⟨h, rfl, hr, by omega, rfl, fun hA => ⟨hA, Spares.refl _ _⟩⟩

/-- The shrinking loop, with enough rounds to empty the heap. -/
theorem Represents.brkShrink {h : Heap} {addr k : Nat} (hr : Represents L h P)
    (hk : P.brk ≤ heapLowerBound + k * 2 ^ maxBlockScale) (haddr : heapLowerBound ≤ addr) :
    ∃ h', Heap.brkShrink addr (k + 1) h =
        some (h', if (P.shrinkTo addr (k + 1)).2 then 0 else -1) ∧
      Represents L h' (P.shrinkTo addr (k + 1)).1 ∧ (P.shrinkTo addr (k + 1)).1.used = P.used ∧
      (Avoids L R P → Spares R h.mem h'.mem) := by
  induction k generalizing h P with
  | zero =>
    have hstop : ¬ addr < P.brk := by omega
    refine ⟨h, ?_, ?_⟩
    · rw [Heap.brkShrink, Pool.shrinkTo, hr.brk, if_neg hstop, if_neg hstop]
      rfl
    · rw [Pool.shrinkTo, if_neg hstop]
      exact ⟨hr, rfl, fun _ => Spares.refl _ _⟩
  | succ k ih =>
    rw [Heap.brkShrink, Pool.shrinkTo, hr.brk]
    by_cases hlt : addr < P.brk
    · obtain ⟨hroom, s, hb⟩ := hr.stands.valid.last (by omega)
      have htop := hr.stands.valid.top
      have hpM := two_pow_pos' maxBlockScale
      have hblock : wrap (P.brk + (addressSpace - 2 ^ maxBlockScale)) = P.brk - 2 ^ maxBlockScale :=
        wrap_sub (by omega) (by omega)
      rw [if_pos hlt, if_pos hlt]
      simp only [hblock]
      by_cases hf : P.brk - 2 ^ maxBlockScale ∈ P.free maxBlockScale
      · rw [if_neg ((hr.stands.last_free_iff hb).mpr hf), if_pos hf]
        have hused : (P.take (P.brk - 2 ^ maxBlockScale) maxBlockScale).used
            (P.brk - 2 ^ maxBlockScale) = some maxBlockScale := by simp [Pool.take]
        have hstep : Represents L
            ⟨Heap.removeFromFreeList h.mem (P.brk - 2 ^ maxBlockScale), P.brk - 2 ^ maxBlockScale⟩
            ((P.take (P.brk - 2 ^ maxBlockScale) maxBlockScale).drop (P.brk - 2 ^ maxBlockScale)) :=
          ⟨(hr.stands.take hf).drop hused (by show P.brk = _; omega), rfl⟩
        have husame := Pool.drop_take_used hr.stands.valid hf
        obtain ⟨h', h1, h2, h3, h4⟩ := ih hstep (by
          show P.brk - 2 ^ maxBlockScale ≤ heapLowerBound + k * 2 ^ maxBlockScale
          rw [Nat.succ_mul] at hk
          omega)
        have htake := hr.stands.take hf
        exact ⟨h', h1, h2, h3.trans husame, fun hA => (hr.stands.take_spares hf hA).trans
          (h4 ((hA.take hr.stands.valid hf).drop htake.valid hused))⟩
      · rw [if_pos (by by_contra hn; exact hf ((hr.stands.last_free_iff hb).mp hn)), if_neg hf]
        exact ⟨h, rfl, hr, rfl, fun _ => Spares.refl _ _⟩
    · rw [if_neg hlt, if_neg hlt]
      exact ⟨h, rfl, hr, rfl, fun _ => Spares.refl _ _⟩

end ShompOS
