import ShompOS.Fs.Runs

/-! How exact a seek is.

`ramfs_seek` adds a signed offset to an unsigned position or size and takes the
32-bit sum for a signed number. As long as neither is 2^31 or more, a sum that does
not fit turns up negative, and is refused as one that is negative. -/
namespace ShompOS
open Memory

theorem Memory.word_setWord (m : Memory) (p i : Nat) {v : Nat} (hv : v < addressSpace) :
    (m.setWord p i v).word p i = v := by
  unfold word setWord
  generalize wrap (p + 4 * i) = a
  have h0 : ∀ k, 0 < k → k < 4 → wrap a ≠ wrap (a + k) := fun k h1 h2 => by
    unfold wrap addressSpace
    omega
  have hne : ∀ j k, j < k → k < 4 → wrap (a + j) ≠ wrap (a + k) := fun j k h1 h2 => by
    unfold wrap addressSpace
    omega
  simp only [load32, store32, load8_store8, if_neg (h0 1 (by decide) (by decide)),
    if_neg (h0 2 (by decide) (by decide)),
    if_neg (h0 3 (by decide) (by decide)), if_neg (hne 1 2 (by decide) (by decide)),
      if_neg (hne 1 3 (by decide) (by decide)),
    if_neg (hne 2 3 (by decide) (by decide)), if_true]
  unfold addressSpace at hv
  omega

/-- A sum that fits is what it is; one that does not is negative. -/
theorem toSigned_toUnsigned {t : Int} (hlo : -2 ^ 31 ≤ t) (hhi : t < 2 ^ 32) :
    (0 ≤ t ∧ t < 2 ^ 31 → toSigned (toUnsigned t) = t) ∧ (¬ (0 ≤ t ∧ t < 2 ^ 31) → toSigned (toUnsigned t) < 0) := by
  unfold toSigned toUnsigned addressSpace
  omega

namespace Ramfs
variable {s : Ramfs} {fd offset origin t : Int} {fdEntry : Nat}

/-- Where a seek is to go to, if its origin is one of the three. -/
def seekTarget (s : Ramfs) (fdEntry : Nat) (offset origin : Int) : Option Int :=
  if origin = seekSet then some offset
  else if origin = seekCur then some (s.heap.word fdEntry RamfsFd.position + offset)
  else if origin = seekEnd then some (s.heap.word (s.heap.word fdEntry RamfsFd.file) RamfsFile.size + offset)
  else none

/-- What a seek is to do: go there, or nothing. -/
structure SeeksTo (s : Ramfs) (fdEntry : Nat) (target : Option Int) (s' : Ramfs) (ret : Int) : Prop where
  found : ∀ t, target = some t → 0 ≤ t → t < 2 ^ 31 → ret = t ∧ s'.heap.word fdEntry RamfsFd.position = t ∧
    s' = {s with heap := s.heap.setWord fdEntry RamfsFd.position t.toNat}
  refused : (∀ t, target = some t → ¬ (0 ≤ t ∧ t < 2 ^ 31)) → ret = -1 ∧ s' = s

/-- From a sum: where it leads to when it is taken for a signed number. -/
theorem seeksTo_sum {target : Int} (hlo : -2 ^ 31 ≤ target) (hhi : target < 2 ^ 32) {r : Ramfs × Int}
    (hneg : toSigned (toUnsigned target) < 0 → r = (s, -1))
    (hpos : ¬ toSigned (toUnsigned target) < 0 → r =
      ({s with heap := s.heap.setWord fdEntry RamfsFd.position (toUnsigned (toSigned (toUnsigned target)))},
        toSigned (toUnsigned target))) : s.SeeksTo fdEntry (some target) r.1 r.2 := by
  obtain ⟨hfits, hnot⟩ := toSigned_toUnsigned hlo hhi
  constructor
  · rintro t ht h0 h31
    obtain rfl := Option.some.inj ht
    have hsame := hfits ⟨h0, h31⟩
    have hnat : toUnsigned target = target.toNat := by
      unfold toUnsigned addressSpace
      omega
    rw [hpos (by omega), hsame, hnat]
    refine ⟨rfl, ?_, rfl⟩
    have hread := word_setWord s.heap.mem fdEntry RamfsFd.position (v := target.toNat) (by
      unfold addressSpace
      omega)
    exact (congrArg Nat.cast hread).trans (Int.toNat_of_nonneg h0)
  · intro h
    rw [hneg (hnot (h target rfl))]
    exact ⟨rfl, rfl⟩

/-- A seek goes where it is to go, or fails and does nothing. -/
theorem ramfsSeek_seeksTo (hfd : s.fdEntry fd = some fdEntry)
    (hposition : s.heap.word fdEntry RamfsFd.position < 2 ^ 31)
    (hsize : s.heap.word (s.heap.word fdEntry RamfsFd.file) RamfsFile.size < 2 ^ 31) (hlo : -2 ^ 31 ≤ offset)
    (hhi : offset < 2 ^ 31) :
    s.SeeksTo fdEntry (s.seekTarget fdEntry offset origin) (s.ramfsSeek fd offset origin).1
      (s.ramfsSeek fd offset origin).2 := by
  unfold ramfsSeek seekTarget
  rw [hfd]
  dsimp only
  by_cases hset : origin = seekSet
  · rw [if_pos hset, if_pos hset]
    have hself : toSigned (toUnsigned offset) = offset := by
      unfold toSigned toUnsigned addressSpace
      omega
    refine seeksTo_sum hlo (by omega) (fun hneg => ?_) fun hpos => ?_
    · rw [hself] at hneg
      rw [if_pos hneg]
    · rw [hself] at hpos ⊢
      rw [if_neg hpos]
  rw [if_neg hset, if_neg hset]
  by_cases hcur : origin = seekCur
  · rw [if_pos hcur, if_pos hcur]
    exact seeksTo_sum (by omega) (by omega) (fun hneg => if_pos hneg) fun hpos => if_neg hpos
  rw [if_neg hcur, if_neg hcur]
  by_cases hend : origin = seekEnd
  · rw [if_pos hend, if_pos hend]
    exact seeksTo_sum (by omega) (by omega) (fun hneg => if_pos hneg) fun hpos => if_neg hpos
  rw [if_neg hend, if_neg hend]
  exact ⟨fun t ht => (nomatch ht), fun _ => ⟨rfl, rfl⟩⟩

/-- Past the end of a file of one byte. -/
theorem ramfsSeek_seeksTo_end : ∃ s fdEntry, fdEntry ≠ 0 ∧
    SeeksTo s fdEntry (s.seekTarget fdEntry 5 seekEnd) (s.ramfsSeek 0 5 seekEnd).1 (s.ramfsSeek 0 5 seekEnd).2 := by
  have hdec : Mount.rehearses (fun root => [.createFile root 0x1050 0x1060 1,
    .openFile root 0x1050 oRdonly]) fun _ s =>
      (s.ramfs.fdEntry 0).any fun fdEntry => fdEntry ≠ 0 ∧ s.ramfs.heap.word fdEntry RamfsFd.position < 2 ^ 31 ∧
        s.ramfs.heap.word (s.ramfs.heap.word fdEntry RamfsFd.file) RamfsFile.size < 2 ^ 31 := by decide +kernel
  obtain ⟨tr, s, -, hdec⟩ := Mount.run_rehearses hdec
  obtain ⟨fdEntry, hfd, hdec⟩ := (Option.any_eq_true _ _).mp hdec
  obtain ⟨hne, hposition, hsize⟩ := of_decide_eq_true hdec
  exact ⟨s.ramfs, fdEntry, hne, ramfsSeek_seeksTo hfd hposition hsize (by decide) (by decide)⟩

end Ramfs
end ShompOS
