import ShompOS.Process.Steps

/-! The next PID, in any table.

Nothing is asked of the PIDs in the table: they may be of any size, and a live one
may be there twice. The counter takes the values `pidAfter` goes through, and the
call ends at the first one that no live process has. -/
namespace ShompOS
namespace Kernel
open Memory

variable {k k' : Kernel}

/-- The candidates before the one returned are taken, and no more rounds are needed than there are candidates. -/
theorem getNextPid_visits {rounds pid : Nat} (h : getNextPid rounds k = some (k', pid)) :
    ∃ n, n < rounds ∧ pid = pidAfter^[n + 1] k.nextPid ∧
      (∀ i, i < n → k.getProcess (pidAfter^[i + 1] k.nextPid) ≠ none) ∧
      ∀ r, n < r → getNextPid r k = some (k', pid) := by
  induction rounds generalizing k with
  | zero => cases h
  | succ rounds ih =>
    have hround : ∀ r, getNextPid (r + 1) k =
        if k.getProcess (pidAfter k.nextPid) ≠ none then getNextPid r {k with nextPid := pidAfter k.nextPid}
        else some ({k with nextPid := pidAfter k.nextPid}, pidAfter k.nextPid) := fun _ => rfl
    rw [hround] at h
    by_cases htaken : k.getProcess (pidAfter k.nextPid) ≠ none
    · rw [if_pos htaken] at h
      obtain ⟨n, hn, hpid, hbefore, hmore⟩ := ih h
      refine ⟨n + 1, Nat.succ_lt_succ hn, hpid, fun i hi => ?_, fun r hr => ?_⟩
      · cases i with
        | zero => exact htaken
        | succ i => exact hbefore i (Nat.lt_of_succ_lt_succ hi)
      · cases r with
        | zero => exact absurd hr (Nat.not_lt_zero _)
        | succ r =>
          rw [hround, if_pos htaken]
          exact hmore r (Nat.lt_of_succ_lt_succ hr)
    · rw [if_neg htaken] at h
      obtain ⟨rfl, rfl⟩ := Prod.mk.inj (Option.some.inj h)
      refine ⟨0, Nat.succ_pos _, rfl, fun i hi => absurd hi (Nat.not_lt_zero i), fun r hr => ?_⟩
      cases r with
      | zero => exact absurd hr (Nat.lt_irrefl 0)
      | succ r => rw [hround, if_neg htaken]

/-- The PID after the last one the counter can hold is 0, and 0 comes after no other. -/
theorem pidAfter_eq_zero_iff {n : Nat} (hn : n = addressSpace - 1 ∨ n ≤ maxPid) :
    pidAfter n = 0 ↔ n = addressSpace - 1 := by
  constructor
  · intro h
    cases hn with
    | inl hn => exact hn
    | inr hn => exact absurd (pidAfter_pos hn) (by omega)
  · rintro rfl
    rfl

/-- The call ends after at most one candidate more than there are slots, with a PID that no
live process has, and that is 0 only if the counter was at its end. -/
theorem getNextPid_fresh (hnext : k.nextPid = addressSpace - 1 ∨ k.nextPid ≤ maxPid) :
    ∃ n pid, n + 1 ≤ maxProcess + 1 ∧ pid = pidAfter^[n + 1] k.nextPid ∧
      (∀ i, i < n → k.getProcess (pidAfter^[i + 1] k.nextPid) ≠ none) ∧
      (∀ rounds, n < rounds → getNextPid rounds k = some ({k with nextPid := pid}, pid)) ∧
      (∀ i, (k.procTable i).status ≠ .stopped → (k.procTable i).pid ≠ pid) ∧
      pid ≤ maxPid ∧ (pid = 0 → k.nextPid = addressSpace - 1) := by
  obtain ⟨k', pid, h⟩ := k.getNextPid_returns
  obtain ⟨n, hn, hpid, hbefore, hmore⟩ := getNextPid_visits h
  obtain ⟨rfl, hfree, -⟩ := getNextPid_spec h
  refine ⟨n, pid, Nat.succ_le_of_lt hn, hpid, hbefore, hmore, fun i hi => getProcess_eq_none hfree hi,
    ?_, fun hzero => ?_⟩
  · rw [hpid, Function.iterate_succ_apply']
    exact pidAfter_le _
  · cases n with
    | zero => exact (pidAfter_eq_zero_iff hnext).mp (hpid.symm.trans hzero)
    | succ n =>
      have hpos : 0 < pidAfter (pidAfter^[n + 1] k.nextPid) := by
        apply pidAfter_pos
        rw [Function.iterate_succ_apply']
        exact pidAfter_le _
      rw [hpid, Function.iterate_succ_apply'] at hzero
      omega

/-- Eight live processes have the PIDs that come next. -/
def crowded : Kernel where
  heap := ⟨Memory.zero, 0⟩
  procTable i := ⟨⟨0, 0, 0⟩, i, .waiting, 0, 0⟩
  nullProcess := zeroProcess
  activePid := 0
  nextPid := addressSpace - 1

/-- The ninth candidate is the first that is free. -/
theorem getNextPid_fresh_crowded : ∃ pid, getNextPid pidRounds crowded = some ({crowded with nextPid := pid}, pid) ∧
    pid ≤ maxPid ∧ ∀ i, (crowded.procTable i).pid ≠ pid := by
  obtain ⟨n, pid, hn, -, -, hreturn, hfresh, hle, -⟩ := getNextPid_fresh (k := crowded) (Or.inl rfl)
  exact ⟨pid, hreturn pidRounds (Nat.lt_of_succ_le hn), hle, fun i =>
    hfresh i (show ProcessStatus.waiting ≠ .stopped by decide)⟩

end Kernel
end ShompOS
