import ShompOS.Heap.Views

/-! Freeing what was just allocated.

One merge takes back one split, so merging up from the block that was cut retraces
the cuts. It goes no further than they did because the block that was cut had no
free buddy, and the lists get their heads back in the same order. Only the end of
the heap can be different: a last block of the largest scale, free before, is given
back to the end of the heap and not to its list. -/
namespace ShompOS
open Layout
namespace Pool

variable {P : Pool}

theorem ext {Q : Pool} (hbrk : P.brk = Q.brk) (hfree : P.free = Q.free) (hused : P.used = Q.used) : P = Q := by
  cases P
  cases Q
  cases hbrk
  cases hfree
  cases hused
  rfl

/-! ### Steps taken back -/

/-- Merging the halves of a split. -/
theorem merge_split (h : P.Valid) {a s : Nat} (ha : P.used a = some (s + 1)) :
    ((P.split a s).take (a + 2 ^ s) s).merge a s = P := by
  have hnone : P.used (a + 2 ^ s) = none := used_eq_none fun _ => split_fresh h ha
  apply ext
  · rfl
  · simp [merge, take, split]
  · funext x
    by_cases hxa : x = a
    · simp [merge, hxa, ha]
    · by_cases hxb : x = a + 2 ^ s
      · simp [merge, hxb, hnone]
      · simp [merge, take, split, hxa, hxb]

/-- Giving back the first block of a list that was taken from it. -/
theorem give_take (h : P.Valid) {a t : Nat} {rest : List Nat} (hf : P.free t = a :: rest) :
    (P.take a t).give a t = P := by
  have ha : a ∈ P.free t := hf ▸ List.mem_cons_self ..
  apply ext
  · rfl
  · have hback : a :: (P.free t).erase a = P.free t := by rw [hf, List.erase_cons_head]
    simp [give, take, hback]
  · simp [give, take, h.not_used ha]

/-- Dropping the block the heap has grown by. -/
theorem drop_grow (h : P.Valid) : (P.grow.take P.brk maxBlockScale).drop P.brk = P := by
  have hnone : P.used P.brk = none := used_eq_none fun _ => h.brk_fresh
  apply ext
  · rfl
  · simp [drop, take, grow]
  · simp [drop, take, grow, hnone]

/-! ### Requests taken back -/

/-- Merging starts with the cuts, the last one first. -/
theorem coalesce_splitDown (h : P.Valid) {a r k j : Nat} (ha : P.used a = some (r + k)) (hr : minBlockScale ≤ r) :
    (P.splitDown a r k).coalesce (k + j) a r = P.coalesce j a (r + k) := by
  induction k generalizing P j with
  | zero => rw [Nat.zero_add]; rfl
  | succ k ih =>
    have ha' : P.used a = some (r + k + 1) := ha
    have hv := split_valid h ha' (by omega)
    have hhalf : (P.split a (r + k)).used a = some (r + k) := by simp [split]
    have hstep := ih hv (j := j + 1) hhalf
    rw [show k + 1 + j = k + (j + 1) by omega]
    refine hstep.trans ?_
    have hbuddy : buddyOf heapLowerBound a (r + k) = a + 2 ^ (r + k) := by
      unfold buddyOf
      rw [if_pos (h.tiling.aligned (Or.inl ha'))]
    have hin : a + 2 ^ (r + k) ∈ (P.split a (r + k)).free (r + k) := by simp [split]
    have hlow : min a (a + 2 ^ (r + k)) = a := Nat.min_eq_left (Nat.le_add_right _ _)
    rw [coalesce]
    simp only [hbuddy, if_pos hin, hlow, merge_split h ha']
    rfl

/-- A block that was free has no free buddy to be merged with. -/
theorem Merged.coalesce_take (hm : P.Merged) {a t j : Nat} (ha : a ∈ P.free t) (hj : t + j = maxBlockScale) :
    (P.take a t).coalesce j a t = (P.take a t, a, t) := by
  cases j with
  | zero => rfl
  | succ j =>
    have hnot : buddyOf heapLowerBound a t ∉ (P.take a t).free t := by
      intro hb
      apply hm a t (by omega) ha
      simp only [Pool.take, Function.update_self] at hb
      exact List.mem_of_mem_erase hb
    rw [Pool.coalesce]
    exact if_neg hnot

/-- The block cut from the first of a list is released. -/
theorem release_found (h : P.Valid) (hm : P.Merged) {a r t : Nat} {rest : List Nat}
    (hr : minBlockScale ≤ r) (hrt : r ≤ t)
    (ht : t ≤ maxBlockScale) (hf : P.free t = a :: rest) :
    ((P.take a t).splitDown a r (t - r)).release a r =
      if t = maxBlockScale ∧ P.brk = a + 2 ^ maxBlockScale then (P.take a t).drop a else P := by
  have ha : a ∈ P.free t := hf ▸ List.mem_cons_self ..
  have hused : (P.take a t).used a = some (r + (t - r)) := by
    rw [Nat.add_sub_cancel' hrt]
    simp [take]
  have hco := coalesce_splitDown (take_valid h ha) (j := maxBlockScale - t) hused hr
  rw [Nat.add_sub_cancel' hrt, hm.coalesce_take ha (Nat.add_sub_cancel' ht),
    show t - r + (maxBlockScale - t) = maxBlockScale - r by omega] at hco
  unfold release
  simp only [hco, give_take h hf]

/-- The block the heap has grown by is released. -/
theorem release_grown (h : P.Valid) : (P.grow.take P.brk maxBlockScale).release P.brk maxBlockScale = P := by
  have hgive : ((P.grow.take P.brk maxBlockScale).give P.brk maxBlockScale) = P.grow := by
    apply ext
    · rfl
    · simp [give, take, grow]
    · have hnone : P.used P.brk = none := used_eq_none fun _ => h.brk_fresh
      simp [give, take, grow, hnone]
  have hlast : P.grow.brk = P.brk + 2 ^ maxBlockScale := rfl
  unfold release
  simp only [Nat.sub_self, coalesce, hgive, hlast, and_self, if_true]
  exact drop_grow h

/-- What is left after an allocation and the release of what it returned: the pool there was,
or that pool without its last block. -/
theorem release_allocate (h : P.Valid) (hm : P.Merged) (n : Nat) (hp : (P.allocate n).2 ≠ 0) :
    ∃ a r, (P.allocate n).2 = a + headerSize ∧ (P.allocate n).1.used a = some r ∧
      ((a ∈ P.free maxBlockScale ∧ P.brk = a + 2 ^ maxBlockScale ∧ (∃ rest, P.free maxBlockScale = a :: rest) ∧
          (P.allocate n).1.release a r = (P.take a maxBlockScale).drop a) ∨
        (¬ (a ∈ P.free maxBlockScale ∧ P.brk = a + 2 ^ maxBlockScale) ∧ (P.allocate n).1.release a r = P)) := by
  have hmin := minBlockScale_le_requestScale n
  have hways := P.allocates n
  generalize P.allocate n = o at hways hp ⊢
  cases hways with
  | refused hn => exact absurd rfl hp
  | full hn hpos hnone hroom => exact absurd rfl hp
  | @found a t rest hn hpos hr ht hf hskip =>
    have ha : a ∈ P.free t := hf ▸ List.mem_cons_self ..
    have hused := (take_splitDown_used h ha hr hmin).2.1
    have hback := release_found h hm hmin hr ht hf
    refine ⟨a, requestScale n, rfl, by rw [hused, Function.update_self], ?_⟩
    by_cases hlast : t = maxBlockScale ∧ P.brk = a + 2 ^ maxBlockScale
    · rw [if_pos hlast] at hback
      obtain ⟨rfl, hbrk⟩ := hlast
      exact Or.inl ⟨ha, hbrk, ⟨rest, hf⟩, hback⟩
    · rw [if_neg hlast] at hback
      exact Or.inr ⟨fun hl => hlast ⟨h.scale_unique (Or.inr ha) (Or.inr hl.1), hl.2⟩, hback⟩
  | grown hn hpos hnone hroom =>
    refine ⟨P.brk, maxBlockScale, rfl, by simp [take], Or.inr ⟨fun hl => ?_, release_grown h⟩⟩
    exact h.brk_fresh (Or.inr hl.1)

end Pool

/-! ### Heaps -/

variable {L : Layout}

/-- `p` is behind the header of a free block of the largest scale, the last of the heap. -/
def Heap.LastFree (h : Heap) (p : Nat) : Prop :=
  h.FreeBlock (p - headerSize) maxBlockScale ∧ h.currentBrk = p - headerSize + 2 ^ maxBlockScale

/-- Two heaps show the same free list. -/
def Heap.SameList (L : Layout) (h h' : Heap) (t : Nat) : Prop := ∀ list, h'.FreeList L t list ↔ h.FreeList L t list

theorem Represents.usedBlock_congr {P Q : Pool} {h h' : Heap} (hr : Represents L h P) (hr' : Represents L h' Q)
    (hused : Q.used = P.used) (a t : Nat) : h'.UsedBlock a t ↔ h.UsedBlock a t := by
  rw [hr'.usedBlock_iff, hr.usedBlock_iff, hused]

theorem Represents.sameList {P Q : Pool} {h h' : Heap} (hr : Represents L h P) (hr' : Represents L h' Q) {t : Nat}
    (hmin : minBlockScale ≤ t) (ht : t ≤ maxBlockScale) (hfree : Q.free t = P.free t) : Heap.SameList L h h' t := by
  intro list
  rw [hr'.freeList_iff hmin ht, hr.freeList_iff hmin ht, hfree]

namespace Session
variable {s : Session}

/-- An allocation and the release of its result change nothing, except that a last block of the
largest scale is given back to the end of the heap if the allocation cut it. -/
theorem reached_allocate_free (h : Reached L s) {n : Nat} {h₁ : Heap} {p : Nat}
    (hcall : s.heap.allocate L n = some (h₁, p)) (hp : p ≠ 0) :
    ∃ h₂, h₁.free L p = some (h₂, 0) ∧ (∀ a t, h₂.UsedBlock a t ↔ s.heap.UsedBlock a t) ∧
      (¬ s.heap.LastFree p → h₂.currentBrk = s.heap.currentBrk ∧
        ∀ t, minBlockScale ≤ t → t ≤ maxBlockScale → Heap.SameList L s.heap h₂ t) ∧
      (s.heap.LastFree p → h₂.currentBrk + 2 ^ maxBlockScale = s.heap.currentBrk ∧
        (∀ list, h₂.FreeList L maxBlockScale list ↔ s.heap.FreeList L maxBlockScale ((p - headerSize) :: list)) ∧
        ∀ t, minBlockScale ≤ t → t < maxBlockScale → Heap.SameList L s.heap h₂ t) := by
  obtain ⟨P, hg⟩ := good_of_reached h
  have hr := hg.represents
  have hv := hr.stands.valid
  obtain ⟨h', hcall', hrep, -⟩ := hr.allocate (R := fun _ => False) n
  rw [hcall, Option.some.injEq, Prod.mk.injEq] at hcall'
  obtain ⟨rfl, rfl⟩ := hcall'
  obtain ⟨a, r, hpa, hused, hways⟩ := Pool.release_allocate hv hg.merged n hp
  obtain ⟨h₂, hfree, hrep₂, -⟩ := hrep.free (R := fun _ => False) hused
  have hlast : s.heap.LastFree (P.allocate n).2 ↔ a ∈ P.free maxBlockScale ∧ P.brk = a + 2 ^ maxBlockScale := by
    unfold Heap.LastFree
    rw [hpa, Nat.add_sub_cancel, hr.freeBlock_iff, hr.brk]
  rw [hlast, hpa, Nat.add_sub_cancel]
  refine ⟨h₂, hfree, ?_⟩
  rcases hways with ⟨ha, hbrk, ⟨rest, hf⟩, hback⟩ | ⟨hnot, hback⟩
  · rw [hback] at hrep₂
    have hsame : ((P.take a maxBlockScale).drop a).used = P.used := Pool.drop_take_used hv ha
    refine ⟨hr.usedBlock_congr hrep₂ hsame, fun hn => absurd ⟨ha, hbrk⟩ hn,
      fun _ => ⟨?_, fun list => ?_, fun t hmin ht => ?_⟩⟩
    · rw [hrep₂.brk, hr.brk, hbrk]
      rfl
    · have hrest : ((P.take a maxBlockScale).drop a).free maxBlockScale = rest := by simp [Pool.drop, Pool.take, hf]
      rw [hrep₂.freeList_iff (by decide) (Nat.le_refl _), hr.freeList_iff (by decide) (Nat.le_refl _),
        hrest, hf, List.cons.injEq]
      exact ⟨fun he => ⟨rfl, he⟩, fun he => he.2⟩
    · exact hr.sameList hrep₂ hmin (Nat.le_of_lt ht) (Function.update_of_ne (Nat.ne_of_lt ht) _ _)
  · rw [hback] at hrep₂
    refine ⟨hr.usedBlock_congr hrep₂ rfl, fun _ => ⟨?_, fun t hmin ht => hr.sameList hrep₂ hmin ht rfl⟩,
      fun hl => absurd hl hnot⟩
    rw [hrep₂.brk, hr.brk]

theorem reached_allocate_free_grown : ∃ s : Session, ∃ h₁ p h₂, s.heap.allocate kernelImage 32759 = some (h₁, p) ∧
    h₁.free kernelImage p = some (h₂, 0) ∧ h₂.currentBrk = s.heap.currentBrk := by
  obtain ⟨s, hs, hg, -⟩ := exists_reached kernelImage [.allocate 32759] rfl
  obtain ⟨h₁, hcall, -⟩ := hg.represents.allocate (R := fun _ => False) 32759
  obtain ⟨h₂, hfree, -, hsame, -⟩ := reached_allocate_free hs hcall (by decide +kernel)
  refine ⟨s, h₁, _, h₂, hcall, hfree, (hsame fun hlast => ?_).1⟩
  obtain ⟨hblock, -⟩ := hlast
  rw [hg.represents.freeBlock_iff] at hblock
  revert hblock
  decide +kernel

end Session
end ShompOS
