import ShompOS.Heap.Requests

/-! What a request changes, and that free buddies are always merged.

`allocate` adds one used block, large enough for the request and a header;
`release` removes the one it is given; neither changes any other. `Merged` says
that no two free blocks of one scale below the largest are buddies. Taking a
block and splitting it keep that because the other half of every split is in
use; giving a block back keeps it because coalescing stops only where the buddy
is not free. -/
namespace ShompOS
namespace Pool

variable {P : Pool}

/-! ### The used blocks after a request -/

theorem take_splitDown_used (h : P.Valid) {a r t : Nat} (ha : a ∈ P.free t) (hr : r ≤ t)
    (hmin : minBlockScale ≤ r) :
    ((P.take a t).splitDown a r (t - r)).Valid ∧
      ((P.take a t).splitDown a r (t - r)).used = Function.update P.used a (some r) ∧
      ((P.take a t).splitDown a r (t - r)).brk = P.brk := by
  have hused : (P.take a t).used a = some (r + (t - r)) := by
    rw [show r + (t - r) = t by omega]
    simp [take]
  obtain ⟨h1, h2, h3⟩ := splitDown_spec (take_valid h ha) hused hmin
  exact ⟨h1, by rw [h2]; simp [take], h3⟩

theorem allocate_spec (h : P.Valid) (n : Nat) :
    (P.allocate n).1.Valid ∧ P.brk ≤ (P.allocate n).1.brk ∧
      ((P.allocate n).2 = 0 ∧ (P.allocate n).1 = P ∨
        ∃ a t, (P.allocate n).2 = a + headerSize ∧ P.used a = none ∧ n + headerSize ≤ 2 ^ t ∧
          (P.allocate n).1.used = Function.update P.used a (some t)) := by
  have hfit := le_two_pow_requestScale n
  have hmin := minBlockScale_le_requestScale n
  have hways := P.allocates n
  generalize P.allocate n = r at hways
  cases hways with
  | refused hn => exact ⟨h, Nat.le_refl _, Or.inl ⟨rfl, rfl⟩⟩
  | full hn hpos hnone hroom => exact ⟨h, Nat.le_refl _, Or.inl ⟨rfl, rfl⟩⟩
  | @found a t rest hn hpos hr ht hf hskip =>
    have ha : a ∈ P.free t := hf ▸ List.mem_cons_self ..
    obtain ⟨h1, h2, h3⟩ := take_splitDown_used h ha hr hmin
    exact ⟨h1, h3.ge, Or.inr ⟨a, _, rfl, h.not_used ha, hfit, h2⟩⟩
  | grown hn hpos hnone hroom =>
    have hfree : P.brk ∈ P.grow.free maxBlockScale := by simp [grow]
    have hnew : P.used P.brk = none := used_eq_none fun _ => h.brk_fresh
    have h9 : headerSize ≤ 2 ^ maxBlockScale := by decide
    have hwide : n + headerSize ≤ 2 ^ maxBlockScale := by omega
    refine ⟨take_valid (grow_valid h hroom) hfree, ?_, Or.inr ⟨P.brk, maxBlockScale, rfl, hnew, hwide, rfl⟩⟩
    show P.brk ≤ P.brk + 2 ^ maxBlockScale
    omega

/-- What is used stays used. -/
theorem used_allocate (h : P.Valid) (n : Nat) {a s : Nat} (ha : P.used a = some s) :
    (P.allocate n).1.used a = some s := by
  obtain ⟨-, -, ⟨-, hsame⟩ | ⟨b, t, -, hnone, -, hused⟩⟩ := allocate_spec h n
  · rw [hsame]
    exact ha
  · have hab : a ≠ b := fun he => by rw [he, hnone] at ha; cases ha
    rw [hused, Function.update_of_ne hab, ha]

/-- Coalescing and giving the block back takes one block out of use. -/
theorem give_coalesced_used (h : P.Valid) {a s : Nat} (ha : P.used a = some s) {P' : Pool} {a' s' : Nat}
    (hc : P.coalesce (maxBlockScale - s) a s = (P', a', s')) : (P'.give a' s').used =
      Function.update P.used a none := by
  have hle := h.scale_le (Or.inl ha)
  obtain ⟨-, hused, hnone, -, -, -⟩ := coalesce_spec h ha (by omega) hc
  show Function.update P'.used a' none = _
  rw [hused, Function.update_idem, Function.update_eq_self_iff, hnone]

theorem release_spec (h : P.Valid) {a s : Nat} (ha : P.used a = some s) :
    (P.release a s).Valid ∧ (P.release a s).used = Function.update P.used a none := by
  have hle := h.scale_le (Or.inl ha)
  unfold release
  rcases hc : P.coalesce (maxBlockScale - s) a s with ⟨P', a', s'⟩
  obtain ⟨hv, hused, -, -, -, -⟩ := coalesce_spec h ha (by omega) hc
  have ha' : P'.used a' = some s' := by rw [hused, Function.update_self]
  have hgive := give_valid hv ha'
  have hback := give_coalesced_used h ha hc
  simp only
  split
  · next hlast =>
    have hfree : a' ∈ (P'.give a' s').free s' := by simp [give]
    have hu : ((P'.give a' s').take a' s').used a' = some maxBlockScale := by
      rw [← hlast.1]
      simp [take]
    exact ⟨drop_valid (take_valid hgive hfree) hu hlast.2, (drop_take_used hgive hfree).trans hback⟩
  · exact ⟨hgive, hback⟩

/-! ### Buddies are merged -/

/-- No two free blocks are buddies, except of the largest scale. -/
def Merged (P : Pool) : Prop :=
  ∀ a s, s < maxBlockScale → a ∈ P.free s → buddyOf heapLowerBound a s ∉ P.free s

theorem Merged.of_subset {P' : Pool} (h : P.Merged) (hs : ∀ s, s < maxBlockScale → P'.free s ⊆ P.free s) :
    P'.Merged := fun _ _ hlt ha hb => h _ _ hlt (hs _ hlt ha) (hs _ hlt hb)

theorem Merged.take (h : P.Merged) (a s : Nat) : (P.take a s).Merged := by
  refine h.of_subset fun t _ x hx => ?_
  by_cases hts : t = s
  · subst hts
    simp only [Pool.take, Function.update_self] at hx
    exact List.erase_subset hx
  · simpa [Pool.take, Function.update_of_ne hts] using hx

theorem Merged.merge (h : P.Merged) (a s : Nat) : (P.merge a s).Merged := h

theorem Merged.drop (h : P.Merged) (a : Nat) : (P.drop a).Merged := h

theorem Merged.grow (h : P.Merged) : P.grow.Merged :=
  h.of_subset fun t ht x hx => by
    simpa [Pool.grow, Function.update_of_ne (Nat.ne_of_lt ht)] using hx

/-- A block becomes free next to a buddy that is not. -/
theorem Merged.cons (h : P.Merged) {P' : Pool} (hv : P'.Valid) {a s : Nat} (ha : P'.Block a s)
    (hfree : P'.free = Function.update P.free s (a :: P.free s))
    (hb : s < maxBlockScale → buddyOf heapLowerBound a s ∉ P'.free s) : P'.Merged := by
  intro x t ht hx hxb
  by_cases hts : t = s
  · subst hts
    by_cases hxa : x = a
    · exact hb ht (hxa ▸ hxb)
    · by_cases hbx : buddyOf heapLowerBound x t = a
      · have hxt : P'.Block x t := Or.inr hx
        have := Tiling.eq_buddyOf (hv.tiling.lower hxt) (hv.tiling.aligned hxt) (hv.tiling.lower ha)
          (hv.tiling.aligned ha) hbx.symm
        exact hb ht (this ▸ hx)
      · simp only [hfree, Function.update_self, List.mem_cons, hxa, hbx, false_or] at hx hxb
        exact h x t ht hx hxb
  · simp only [hfree, Function.update_of_ne hts] at hx hxb
    exact h x t ht hx hxb

/-- The other half of a split is the buddy of a block in use. -/
theorem Merged.split (h : P.Merged) (hv : P.Valid) {a s : Nat} (ha : P.used a = some (s + 1))
    (hmin : minBlockScale ≤ s) : (P.split a s).Merged := by
  have hv' := split_valid hv ha hmin
  have hb : (P.split a s).Block (a + 2 ^ s) s := (split_block hv ha _ _).mpr (Or.inl ⟨Or.inr rfl, rfl⟩)
  have hlow : (P.split a s).Block a s := (split_block hv ha _ _).mpr (Or.inl ⟨Or.inl rfl, rfl⟩)
  have hbuddy : a + 2 ^ s = buddyOf heapLowerBound a s := by
    unfold buddyOf
    rw [if_pos (hv.tiling.aligned (Or.inl ha))]
  have hback := Tiling.eq_buddyOf (hv'.tiling.lower hlow) (hv'.tiling.aligned hlow)
    (hv'.tiling.lower hb) (hv'.tiling.aligned hb) hbuddy
  refine h.cons hv' hb rfl fun _ hm => ?_
  rw [← hback] at hm
  exact hv'.exclusive (a := a) (s := s) (by simp [Pool.split]) hm

theorem Merged.splitDown (h : P.Merged) (hv : P.Valid) {a r k : Nat} (ha : P.used a = some (r + k))
    (hr : minBlockScale ≤ r) : (P.splitDown a r k).Merged := by
  induction k generalizing P with
  | zero => exact h
  | succ k ih =>
    exact ih (h.split (s := r + k) hv ha (by omega)) (split_valid hv (s := r + k) ha (by omega))
      (by simp [Pool.split])

theorem Merged.allocate (h : P.Merged) (hv : P.Valid) (n : Nat) : (P.allocate n).1.Merged := by
  have hmin := minBlockScale_le_requestScale n
  have hways := P.allocates n
  generalize P.allocate n = r at hways
  cases hways with
  | refused hn => exact h
  | full hn hpos hnone hroom => exact h
  | grown hn hpos hnone hroom => exact h.grow.take _ _
  | @found a t rest hn hpos hr ht hf hskip =>
    have ha : a ∈ P.free t := hf ▸ List.mem_cons_self ..
    apply (h.take a _).splitDown (take_valid hv ha) _ hmin
    rw [Nat.add_sub_cancel' hr]
    simp [Pool.take]

theorem Merged.coalesce (h : P.Merged) (k a s : Nat) : (P.coalesce k a s).1.Merged := by
  induction k generalizing P a s with
  | zero => exact h
  | succ k ih =>
    unfold Pool.coalesce
    simp only
    split
    · exact ih ((h.take _ _).merge _ _) _ _
    · exact h

/-- Coalescing stops where giving the block back makes no pair of free buddies. -/
theorem Merged.give_coalesced (h : P.Merged) (hv : P.Valid) {a s : Nat} (ha : P.used a = some s)
    {P' : Pool} {a' s' : Nat}
    (hc : P.coalesce (maxBlockScale - s) a s = (P', a', s')) : (P'.give a' s').Valid ∧ (P'.give a' s').Merged := by
  have hle := hv.scale_le (Or.inl ha)
  have hco := h.coalesce (maxBlockScale - s) a s
  rw [hc] at hco
  obtain ⟨hv', hused, -, -, -, hstop⟩ := coalesce_spec hv ha (by omega) hc
  have ha' : P'.used a' = some s' := by rw [hused, Function.update_self]
  refine ⟨give_valid hv' ha', hco.cons (give_valid hv' ha') ((give_block hv' ha' _ _).mpr (Or.inl ha')) rfl
    fun hlt hm => hstop hlt ?_⟩
  have hps := two_pow_pos' s'
  have hne : buddyOf heapLowerBound a' s' ≠ a' := by
    rcases buddy_cases hv' (Or.inl ha') with ⟨-, hb, -⟩ | ⟨-, hb, -⟩ <;> omega
  simpa [Pool.give, hne] using hm

theorem Merged.release (h : P.Merged) (hv : P.Valid) {a s : Nat} (ha : P.used a = some s) :
    (P.release a s).Merged := by
  unfold Pool.release
  rcases hc : P.coalesce (maxBlockScale - s) a s with ⟨P', a', s'⟩
  have hgive := (h.give_coalesced hv ha hc).2
  simp only
  split
  · exact (hgive.take _ _).drop _
  · exact hgive

theorem Merged.growTo (h : P.Merged) (addr rounds : Nat) : (P.growTo addr rounds).Merged := by
  induction rounds generalizing P with
  | zero => exact h
  | succ rounds ih =>
    unfold Pool.growTo
    split
    · exact ih h.grow
    · exact h

theorem Merged.shrinkTo (h : P.Merged) (addr rounds : Nat) : (P.shrinkTo addr rounds).1.Merged := by
  induction rounds generalizing P with
  | zero => exact h
  | succ rounds ih =>
    unfold Pool.shrinkTo
    simp only
    split
    · split
      · exact ih ((h.take _ _).drop _)
      · exact h
    · exact h

theorem Merged.moveBrk (h : P.Merged) (addr rounds : Nat) : (P.moveBrk addr rounds).1.Merged := by
  unfold Pool.moveBrk
  split
  · exact h.growTo addr rounds
  · exact h.shrinkTo addr rounds

/-- With nothing in use there are only blocks of the largest scale. -/
theorem Merged.scale_eq (h : P.Merged) (hv : P.Valid) (hnone : ∀ a, P.used a = none) {a s : Nat}
    (ha : P.Block a s) : s = maxBlockScale := by
  have hfree : ∀ {x t}, P.Block x t → x ∈ P.free t := fun {x t} hx => by
    rcases hx with hx | hx
    · rw [hnone] at hx
      cases hx
    · exact hx
  exact hv.tiling.scale_eq_of_no_buddies (fun x t ht hx hb => h x t ht (hfree hx) (hfree hb)) ha

end Pool
end ShompOS
