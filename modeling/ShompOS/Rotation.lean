import Mathlib.Data.Finset.Card
import Mathlib.Logic.Function.Iterate

/-! Identifiers handed out in rotation.

A counter goes round a cycle of identifiers; whoever asks gets the next one that is
not in use. How soon can an identifier come again? Since it was handed out the counter
has passed over others, but only over those in use, and these were in use already
then: what has been handed out since lies behind the counter. So a whole turn hands
out all identifiers of the cycle but at most as many as were in use (`Turn.full`).
The identifiers are of any type, `next` is the step of the counter, and `M` is a
number of steps in which it comes to no identifier twice. -/
namespace ShompOS.Rotation

variable {α : Type} [DecidableEq α]

/-- How many of the `w` identifiers after `p` are among the old ones. -/
def passedOld (next : α → α) (p : α) (old : Finset α) (w : Nat) : Nat :=
  ((Finset.range w).filter fun i => next^[i + 1] p ∈ old).card

/-- `w` steps after `p`, of which `taken` handed out an identifier and the others passed over an old one. -/
structure Turn (next : α → α) (p : α) (old : Finset α) (inUse : α → Prop) (taken w : Nat) : Prop where
  count : w ≤ taken + passedOld next p old w
  inUse : ∀ x, inUse x → x ∈ old ∨ ∃ i, i ≤ w ∧ x = next^[i] p

variable {next : α → α} {p : α} {old : Finset α} {inUse inUse' : α → Prop} {M taken w : Nat}

/-- The first `M` identifiers from `p` on are different. -/
def Distinct (next : α → α) (p : α) (M : Nat) : Prop :=
  ∀ i j, i < M → j < M → next^[i] p = next^[j] p → i = j

theorem passedOld_succ (next : α → α) (p : α) (old : Finset α) (w : Nat) :
    passedOld next p old (w + 1) = passedOld next p old w + if next^[w + 1] p ∈ old then 1 else 0 := by
  unfold passedOld
  rw [Finset.range_add_one, Finset.filter_insert]
  split
  · rw [Finset.card_insert_of_notMem fun h => Finset.notMem_range_self (Finset.mem_filter.mp h).1]
  · rfl

theorem passedOld_le (h : Distinct next p M) (hw : w < M) : passedOld next p old w ≤ old.card := by
  apply Finset.card_le_card_of_injOn fun i => next^[i + 1] p
  · intro i hi
    exact (Finset.mem_filter.mp hi).2
  · intro i hi j hj he
    have hi' := Finset.mem_range.mp (Finset.mem_filter.mp hi).1
    have hj' := Finset.mem_range.mp (Finset.mem_filter.mp hj).1
    have := h (i + 1) (j + 1) (by omega) (by omega) he
    omega

theorem Turn.start (h : ∀ x, inUse x → x = p ∨ x ∈ old) : Turn next p old inUse 0 0 := by
  refine ⟨Nat.zero_le _, fun x hx => ?_⟩
  rcases h x hx with rfl | hx
  · exact Or.inr ⟨0, Nat.le_refl _, rfl⟩
  · exact Or.inl hx

/-- Identifiers may go out of use. -/
theorem Turn.release (h : Turn next p old inUse taken w) (hsub : ∀ x, inUse' x → inUse x) :
    Turn next p old inUse' taken w :=
  ⟨h.count, fun x hx => h.inUse x (hsub x hx)⟩

/-- What is passed over is in use, and as it lies ahead it is an old one. -/
theorem Turn.skip (h : Turn next p old inUse taken w) (hM : Distinct next p M) (hw : w + 1 < M)
    (huse : inUse (next^[w + 1] p)) : Turn next p old inUse taken (w + 1) := by
  have hold : next^[w + 1] p ∈ old := by
    rcases h.inUse _ huse with hold | ⟨i, hi, he⟩
    · exact hold
    · have := hM (w + 1) i hw (by omega) he
      omega
  refine ⟨?_, fun x hx => ?_⟩
  · have hcount := h.count
    rw [passedOld_succ, if_pos hold]
    omega
  · rcases h.inUse x hx with hx | ⟨i, hi, he⟩
    · exact Or.inl hx
    · exact Or.inr ⟨i, Nat.le_succ_of_le hi, he⟩

/-- As many as are passed over in one request. -/
theorem Turn.skips (h : Turn next p old inUse taken w) (hM : Distinct next p M) {n : Nat} (hw : w + n < M)
    (huse : ∀ i, i < n → inUse (next^[w + i + 1] p)) : Turn next p old inUse taken (w + n) := by
  induction n with
  | zero => exact h
  | succ n ih =>
    have hn := ih (by omega) fun i hi => huse i (Nat.lt_succ_of_lt hi)
    exact hn.skip hM hw (huse n (Nat.lt_succ_self n))

/-- The next one is handed out. -/
theorem Turn.take (h : Turn next p old inUse taken w) (huse : ∀ x, inUse' x → inUse x ∨ x = next^[w + 1] p) :
    Turn next p old inUse' (taken + 1) (w + 1) := by
  refine ⟨?_, fun x hx => ?_⟩
  · have hcount := h.count
    rw [passedOld_succ]
    omega
  · rcases huse x hx with hx | rfl
    · rcases h.inUse x hx with hx | ⟨i, hi, he⟩
      · exact Or.inl hx
      · exact Or.inr ⟨i, Nat.le_succ_of_le hi, he⟩
    · exact Or.inr ⟨w + 1, Nat.le_refl _, rfl⟩

/-- Before the counter is back at `p`, almost all others have been handed out. -/
theorem Turn.full (h : Turn next p old inUse taken w) (hM : Distinct next p M) (hw : w + 1 = M) :
    w ≤ taken + old.card := by
  have hcount := h.count
  have hpassed : passedOld next p old w ≤ old.card := passedOld_le hM (show w < M by omega)
  omega

end ShompOS.Rotation
