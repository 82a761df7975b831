import Mathlib.Data.Finset.Card

/-! Serving the one that has waited longest.

Some of finitely many customers are waiting, each for a number of rounds. In a
round one who has waited longest is served and waits from 0 again, and all
others have waited one round more. `Staggered n S w` says that of the waiting
customers `S` at most `n - j` have waited `j` rounds or more, for every `j` from
1 on; with at most `n` waiting it survives a round, newcomers and leavers, and
nobody ever waits `n` rounds. -/
namespace ShompOS

variable {ι : Type} {n : Nat} {S T : Finset ι} {w w' : ι → Nat}

def Staggered (n : Nat) (S : Finset ι) (w : ι → Nat) : Prop :=
  ∀ j, 1 ≤ j → (S.filter fun i => j ≤ w i).card ≤ n - j

/-- Customers leave, or come and have not waited yet. -/
theorem Staggered.of_subset (h : Staggered n S w) (hw : ∀ i ∈ T, w' i ≠ 0 → i ∈ S ∧ w' i ≤ w i) :
    Staggered n T w' := by
  intro j hj
  refine (Finset.card_le_card fun i hi => ?_).trans (h j hj)
  obtain ⟨hiT, hji⟩ := Finset.mem_filter.mp hi
  have hi0 : w' i ≠ 0 := by omega
  obtain ⟨hiS, hle⟩ := hw i hiT hi0
  exact Finset.mem_filter.mpr ⟨hiS, hji.trans hle⟩

theorem Staggered.of_forall_zero (hw : ∀ i ∈ T, w i = 0) : Staggered n T w := by
  intro j hj
  have hempty : (T.filter fun i => j ≤ w i) = ∅ := by
    apply Finset.filter_eq_empty_iff.mpr
    intro i hi
    have := hw i hi
    omega
  rw [hempty, Finset.card_empty]
  exact Nat.zero_le _

/-- One round: `i` has waited longest and is served. -/
theorem Staggered.serve [DecidableEq ι] (h : Staggered n S w) (hn : S.card ≤ n) {i : ι} (hi : i ∈ S)
    (hmax : ∀ k ∈ S, w k ≤ w i) (hserved : w' i = 0) (hrest : ∀ k ∈ S, k ≠ i → w' k = w k + 1) :
    Staggered n S w' := by
  intro j hj
  -- who has waited `j` rounds now had waited `j - 1` before, and was not `i`
  have hsub : (S.filter fun k => j ≤ w' k) ⊆ (S.filter fun k => j - 1 ≤ w k).erase i := by
    intro k hk
    obtain ⟨hkS, hjk⟩ := Finset.mem_filter.mp hk
    have hki : k ≠ i := by
      rintro rfl
      omega
    have := hrest k hkS hki
    exact Finset.mem_erase.mpr ⟨hki, Finset.mem_filter.mpr ⟨hkS, by omega⟩⟩
  have hcard := Finset.card_le_card hsub
  by_cases hij : j - 1 ≤ w i
  · have hmem : i ∈ S.filter fun k => j - 1 ≤ w k := Finset.mem_filter.mpr ⟨hi, hij⟩
    have herase := Finset.card_erase_add_one hmem
    cases j with
    | zero => omega
    | succ j =>
      have hle : (S.filter fun k => j + 1 - 1 ≤ w k).card ≤ n - j := by
        cases j with
        | zero => exact (Finset.card_filter_le _ _).trans hn
        | succ j => exact h (j + 1) (by omega)
      omega
  · have hempty : (S.filter fun k => j - 1 ≤ w k) = ∅ := by
      apply Finset.filter_eq_empty_iff.mpr
      intro k hk
      have := hmax k hk
      omega
    rw [hempty, Finset.erase_empty, Finset.card_empty] at hcard
    omega

theorem Staggered.lt (h : Staggered n S w) {i : ι} (hi : i ∈ S) (hw : w i ≠ 0) : w i < n := by
  have hmem : i ∈ S.filter fun k => w i ≤ w k := Finset.mem_filter.mpr ⟨hi, Nat.le_refl _⟩
  have hpos := Finset.card_pos.mpr ⟨i, hmem⟩
  have := h (w i) (Nat.pos_of_ne_zero hw)
  omega

end ShompOS
