import ShompOS.Heap.Views
import Mathlib.Order.Bounds.Basic

/-! Which block a request gets, and when it gets none.

From the free lists a request gets a block cut down to the smallest scale that
holds it. When the lists have none the heap grows, and the new block is handed
out whole: the loop that cuts is on the other path. A request fails when it is
out of range, or when no block fits and the heap has reached the last place where
`current_brk` can stand; then nothing has changed. -/
namespace ShompOS
open Layout Memory

variable {L : Layout} {P : Pool}

/-- The scales of blocks with room for a header and `n` bytes. -/
def Holding (n : Nat) : Set Nat := {t | minBlockScale ≤ t ∧ n + headerSize ≤ 2 ^ t}

theorem isLeast_requestScale (n : Nat) : IsLeast (Holding n) (Pool.requestScale n) :=
  ⟨⟨Pool.minBlockScale_le_requestScale n, Pool.le_two_pow_requestScale n⟩, fun _ ht => Pool.requestScale_le ht.1 ht.2⟩

/-- The largest blocks are the smallest that hold more than half of one. -/
theorem isLeast_holding_max {n : Nat} (hn : n ≤ 2 ^ maxBlockScale - headerSize) :
    IsLeast (Holding n) maxBlockScale ↔ 2 ^ (maxBlockScale - 1) < n + headerSize := by
  have h9 : headerSize ≤ 2 ^ maxBlockScale := by decide
  have hmin : minBlockScale ≤ maxBlockScale - 1 := by decide
  constructor
  · intro hleast
    by_contra hle
    exact absurd (hleast.2 (show maxBlockScale - 1 ∈ Holding n from ⟨hmin, Nat.le_of_not_lt hle⟩)) (by decide)
  · intro hlt
    refine ⟨⟨by decide, by omega⟩, fun t ht => ?_⟩
    by_contra hts
    have hpow : 2 ^ t ≤ 2 ^ (maxBlockScale - 1) := Nat.pow_le_pow_right (by decide) (by omega)
    have := ht.2
    omega

/-- There is no room for another block where the end of one more wraps to 0. -/
theorem Pool.Valid.full_iff (h : P.Valid) :
    wrap (P.brk + 2 ^ maxBlockScale) = 0 ↔ ¬ P.brk + 2 ^ maxBlockScale + 2 ^ maxBlockScale ≤ addressSpace := by
  have hpM := two_pow_pos' maxBlockScale
  have htop := h.top
  constructor
  · intro hwrap hroom
    rw [wrap_eq (by omega)] at hwrap
    omega
  · intro hfull
    rw [h.end_of_full hfull]
    exact Nat.mod_self _

/-- No free block is large enough. -/
def Heap.Unfit (h : Heap) (n : Nat) : Prop := ∀ a t, h.FreeBlock a t → 2 ^ t < n + headerSize

theorem Represents.unfit_iff {h : Heap} (hr : Represents L h P) (n : Nat) :
    h.Unfit n ↔ ∀ u, Pool.requestScale n ≤ u → u ≤ maxBlockScale → P.free u = [] := by
  rw [hr.stands.valid.no_fit_iff]
  unfold Heap.Unfit
  simp only [hr.freeBlock_iff]

/-- `NULL` is returned from the heap as it was, where the request says so or there is no more room. -/
theorem Represents.null_iff {h : Heap} (hr : Represents L h P) (n : Nat) :
    ∃ h' p, h.allocate L n = some (h', p) ∧
      (p = 0 ↔ n = 0 ∨ n > 32759 ∨ h.Unfit n ∧ wrap (h.currentBrk + 2 ^ maxBlockScale) = 0) ∧
      (p = 0 → h' = h) ∧ (p ≠ 0 → heapLowerBound + headerSize ≤ p) := by
  have hv := hr.stands.valid
  have h9 : headerSize = 9 := rfl
  have hmax : 2 ^ maxBlockScale - headerSize = 32759 := rfl
  rw [hr.unfit_iff, hr.brk, hv.full_iff]
  have hways := P.allocates n
  generalize P.allocate n = r at hways
  cases hways with
  | refused hbad => exact ⟨_, 0, Heap.allocate_refused h hbad, by omega, fun _ => rfl, fun h => absurd rfl h⟩
  | @found a t rest hn hpos hrt ht hf hskip =>
    obtain ⟨h', hcall, -⟩ := hr.allocate_found (R := fun _ => False) hn hpos hrt ht hf hskip
    have hlow := hv.tiling.lower (Or.inr (hf ▸ List.mem_cons_self .. : a ∈ P.free t))
    refine ⟨h', _, hcall, ⟨fun h0 => by omega, fun hbad => ?_⟩, fun h0 => by omega, fun _ => by omega⟩
    rcases hbad with h0 | hbig | hfull
    · exact absurd h0 hpos
    · omega
    · rw [hfull.1 t hrt ht] at hf
      cases hf
  | grown hn hpos hnone hroom =>
    obtain ⟨h', hcall, -⟩ := hr.allocate_grown (R := fun _ => False) hn hpos hnone hroom
    have hlow := hv.tiling.ordered
    refine ⟨h', _, hcall, ⟨fun h0 => by omega, fun hbad => ?_⟩, fun h0 => by omega, fun _ => by omega⟩
    rcases hbad with h0 | hbig | hfull
    · exact absurd h0 hpos
    · omega
    · exact absurd hroom hfull.2
  | full hn hpos hnone hroom =>
    exact ⟨_, 0, hr.allocate_full hn hpos hnone hroom,
      ⟨fun _ => Or.inr (Or.inr ⟨hnone, hroom⟩), fun _ => rfl⟩, fun _ => rfl,
      fun h => absurd rfl h⟩

namespace Session
variable {s : Session}

/-- What `allocate` does to the heap of a good session, whichever way it goes. -/
theorem Good.allocates (hg : s.Good L P) (n : Nat) :
    ∃ h', s.heap.allocate L n = some (h', (P.allocate n).2) ∧ Represents L h' (P.allocate n).1 := by
  obtain ⟨h', hcall, hrep, -⟩ := hg.represents.allocate (R := fun _ => False) n
  exact ⟨h', hcall, hrep⟩

/-- The block handed out is of the least scale that holds the request, unless it was made by
growing the heap. -/
theorem Good.tight_iff (hg : s.Good L P) {n : Nat} (hn : 1 ≤ n) (hmax : n ≤ 32759) {h' : Heap} {p : Nat}
    (hcall : s.heap.allocate L n = some (h', p)) :
    (p ≠ 0 → IsLeast (Holding n) (h'.mem.scale (p - headerSize))) ↔
      ¬ s.heap.Unfit n ∨ 2 ^ (maxBlockScale - 1) < n + headerSize ∨
        wrap (s.heap.currentBrk + 2 ^ maxBlockScale) = 0 := by
  have hr := hg.represents
  have hv := hr.stands.valid
  have hmax' : n ≤ 2 ^ maxBlockScale - headerSize := hmax
  have hmin := Pool.minBlockScale_le_requestScale n
  rw [hr.unfit_iff, hr.brk, hv.full_iff]
  obtain ⟨h'', hcall', hrep⟩ := hg.allocates n
  rw [hcall, Option.some.injEq, Prod.mk.injEq] at hcall'
  obtain ⟨rfl, rfl⟩ := hcall'
  have hways := P.allocates n
  generalize P.allocate n = r at hways hrep
  cases hways with
  | refused hbad => omega
  | @found a t rest hn' hpos hr' ht hf hskip =>
    have ha : a ∈ P.free t := hf ▸ List.mem_cons_self ..
    have hused := (Pool.take_splitDown_used hv ha hr' hmin).2.1
    have hscale : h'.mem.scale (a + headerSize - headerSize) = Pool.requestScale n := by
      rw [Nat.add_sub_cancel]
      exact hrep.stands.scale_eq (Or.inl (by rw [hused, Function.update_self]))
    refine ⟨fun _ => Or.inl fun hnone => ?_, fun _ _ => hscale ▸ isLeast_requestScale n⟩
    rw [hnone t hr' ht] at hf
    cases hf
  | grown hn' hpos hnone hroom =>
    have hscale : h'.mem.scale (P.brk + headerSize - headerSize) = maxBlockScale := by
      rw [Nat.add_sub_cancel]
      exact hrep.stands.scale_eq (Or.inl (by simp [Pool.take]))
    rw [hscale, isLeast_holding_max hmax']
    have h9 : 0 < headerSize := by decide
    constructor
    · exact fun hleast => Or.inr (Or.inl (hleast (by dsimp only; omega)))
    · intro hway _
      rcases hway with hfit | hbig | hfull
      · exact absurd hnone hfit
      · exact hbig
      · exact absurd hroom hfull
  | full hn' hpos hnone hroom => exact ⟨fun _ => Or.inr (Or.inr hroom), fun _ h0 => absurd rfl h0⟩

theorem reached_tight_iff (h : Reached L s) {n : Nat} (hn : 1 ≤ n) (hmax : n ≤ 32759) {h' : Heap} {p : Nat}
    (hcall : s.heap.allocate L n = some (h', p)) :
    (p ≠ 0 → IsLeast (Holding n) (h'.mem.scale (p - headerSize))) ↔
      ¬ s.heap.Unfit n ∨ 2 ^ (maxBlockScale - 1) < n + headerSize ∨
        wrap (s.heap.currentBrk + 2 ^ maxBlockScale) = 0 := by
  obtain ⟨P, hP⟩ := good_of_reached h
  exact hP.tight_iff hn hmax hcall

theorem reached_tight_iff_small : ∃ s : Session, ∃ h' p, s.heap.allocate kernelImage 24 = some (h', p) ∧ p ≠ 0 ∧
    IsLeast (Holding 24) (h'.mem.scale (p - headerSize)) := by
  obtain ⟨s, hs, hg, -⟩ := exists_reached kernelImage [] rfl
  obtain ⟨h', hcall, -⟩ := hg.allocates 24
  have hp : (Pool.initial.allocate 24).2 ≠ 0 := by decide +kernel
  have hfit : ¬ s.heap.Unfit 24 := by
    rw [hg.represents.unfit_iff]
    decide +kernel
  exact ⟨s, h', _, hcall, hp, (reached_tight_iff hs (by decide) (by decide) hcall).mpr (Or.inl hfit) hp⟩

/-- The whole heap is handed out; one more byte gets all of a new block. -/
theorem grown_block_whole : ¬ ∀ s n h' p, Reached kernelImage s → 1 ≤ n → n ≤ 32759 →
    s.heap.allocate kernelImage n = some (h', p) → p ≠ 0 → IsLeast (Holding n) (h'.mem.scale (p - headerSize)) := by
  intro hall
  obtain ⟨s, hs, hg, -⟩ := exists_reached kernelImage [.allocate 32759] rfl
  obtain ⟨h', hcall, -⟩ := hg.allocates 1
  have hways := (hg.tight_iff (by decide) (by decide) hcall).mp (hall s 1 h' _ hs (by decide) (by decide) hcall)
  rw [hg.represents.unfit_iff, hg.represents.brk] at hways
  revert hways
  decide +kernel

/-! ### Requests that fail -/

/-- When nothing was found and the heap has grown, the search finds the new block. -/
theorem Good.retry_finds (hg : s.Good L P) {n : Nat} (hn : 1 ≤ n) (hmax : n ≤ 32759) {m : Memory}
    {h₁ : Heap} {ret : Int}
    (hfind : Heap.findFit L s.heap.mem (Pool.requestScale n) = (m, 0))
    (hsbrk : Heap.sbrk L ⟨m, s.heap.currentBrk⟩ 1 = some (h₁, ret)) (hret : ret ≠ -1) :
    (Heap.findFit L h₁.mem (Pool.requestScale n)).2 ≠ 0 := by
  have hr := hg.represents
  have hscale := requestScale_range (n := n) hmax
  have hways := P.allocates n
  generalize P.allocate n = r at hways
  cases hways with
  | refused hbad =>
    have : 2 ^ maxBlockScale - headerSize = 32759 := rfl
    omega
  | @found a t rest hn' hpos hrt ht hf hskip =>
    obtain ⟨m', hfound, -⟩ := hr.stands.findFit_some (R := fun _ => False) hscale.1 hrt ht hskip hf
    rw [hfound, Prod.mk.injEq] at hfind
    have hsite := hr.stands.valid.site (Or.inr (hf ▸ List.mem_cons_self .. : a ∈ P.free t))
    exact absurd hfind.2 hsite.ne_zero
  | grown hn' hpos hnone hroom =>
    rw [hr.stands.findFit_none hscale.1 hscale.2 hnone, Prod.mk.injEq] at hfind
    obtain ⟨h', hgrow, hrep, -⟩ := hr.sbrk_next (R := fun _ => False) hroom
    obtain ⟨m', hfound, -⟩ := hrep.stands.findFit_grown (R := fun _ => False) hscale.1 hscale.2 hnone
    rw [← hfind.1] at hsbrk
    obtain ⟨rfl, -⟩ := Prod.mk.inj (Option.some.inj (hgrow.symm.trans hsbrk))
    rw [hfound]
    exact (Stands.brk_site hr.stands.valid).ne_zero
  | full hn' hpos hnone hroom =>
    rw [hr.stands.findFit_none hscale.1 hscale.2 hnone, Prod.mk.injEq] at hfind
    rw [← hfind.1, hr.sbrk_full hroom (hnone _ hscale.2 (Nat.le_refl _))] at hsbrk
    exact absurd (Prod.mk.inj (Option.some.inj hsbrk)).2.symm hret

/-- A request fails when it must and leaves the heap alone, and what it finds after the heap
has grown is a block, so that the pointer is never the one behind `NULL`. -/
theorem reached_allocate_fails (h : Reached L s) (n : Nat) :
    ∃ h' p, s.heap.allocate L n = some (h', p) ∧
      (p = 0 ↔ n = 0 ∨ n > 32759 ∨ s.heap.Unfit n ∧ wrap (s.heap.currentBrk + 2 ^ maxBlockScale) = 0) ∧
      (p = 0 → h' = s.heap) ∧ p ≠ headerSize ∧
      (1 ≤ n → n ≤ 32759 → ∀ m h₁ ret, Heap.findFit L s.heap.mem (max (Heap.sizeToScale n) minBlockScale) = (m, 0) →
        Heap.sbrk L ⟨m, s.heap.currentBrk⟩ 1 = some (h₁, ret) → ret ≠ -1 →
          (Heap.findFit L h₁.mem (max (Heap.sizeToScale n) minBlockScale)).2 ≠ 0) := by
  obtain ⟨P, hP⟩ := good_of_reached h
  obtain ⟨h', p, hcall, hnull, hsame, hlow⟩ := hP.represents.null_iff n
  have hbound : 0 < heapLowerBound := by decide
  have h9 : headerSize = 9 := rfl
  refine ⟨h', p, hcall, hnull, hsame, by omega, fun hn hmax m h₁ ret hfind hsbrk hret => ?_⟩
  have hscale : max (Heap.sizeToScale n) minBlockScale = Pool.requestScale n := by
    rw [sizeToScale_eq hmax]
    rfl
  rw [hscale] at hfind ⊢
  exact hP.retry_finds hn hmax hfind hsbrk hret

theorem reached_allocate_fails_grown : ∃ s : Session,
    s.heap.allocate kernelImage 32760 = some (s.heap, 0) ∧
    (∃ h' p, s.heap.allocate kernelImage 24 = some (h', p) ∧ p ≠ 0) ∧
    ∃ m h₁ ret, Heap.findFit kernelImage s.heap.mem (max (Heap.sizeToScale 24) minBlockScale) = (m, 0) ∧
      Heap.sbrk kernelImage ⟨m, s.heap.currentBrk⟩ 1 = some (h₁, ret) ∧ ret ≠ -1 ∧
      (Heap.findFit kernelImage h₁.mem (max (Heap.sizeToScale 24) minBlockScale)).2 ≠ 0 := by
  obtain ⟨s, hs, hg, -⟩ := exists_reached kernelImage [.allocate 32759] rfl
  have hr := hg.represents
  have hfull : ¬ wrap (s.heap.currentBrk + 2 ^ maxBlockScale) = 0 := by
    rw [hr.brk]
    decide +kernel
  -- nothing is free, and there is room behind the only block
  have hnone : Heap.findFit kernelImage s.heap.mem (max (Heap.sizeToScale 24) minBlockScale) = (s.heap.mem, 0) :=
    hr.stands.findFit_none (by decide) (by decide) (by decide +kernel)
  obtain ⟨h₁, hgrow, -⟩ := hr.sbrk_next (R := fun _ => False) (by decide +kernel)
  obtain ⟨h', p, hbig, hbig0, hsame, -⟩ := reached_allocate_fails hs 32760
  obtain ⟨h'', q, hsmall, hsmall0, -, -, hretry⟩ := reached_allocate_fails hs 24
  have hp : p = 0 := hbig0.mpr (Or.inr (Or.inl (by decide)))
  have hq : q ≠ 0 := fun h0 => by
    rcases hsmall0.mp h0 with h0 | h0 | h0
    · cases h0
    · exact absurd h0 (by decide)
    · exact hfull h0.2
  exact ⟨s, by rw [hbig, hp, hsame hp], ⟨h'', q, hsmall, hq⟩, _, h₁, _, hnone, hgrow, by decide,
    hretry (by decide) (by decide) _ _ _ hnone hgrow (by decide)⟩

end Session
end ShompOS
