import ShompOS.Elf.Segments
import Mathlib.Order.Bounds.Basic

/-! What the first loop of the ELF loader makes of the headers.

It is meant to find the least address and the span of what is to be loaded, but it
takes the other headers that have no size, too. These are points: one widens the span
like a segment does, unless there have only been points before it, each at most as
high as the one before; of those the loop remembers just the last. -/
namespace ShompOS
open Memory Elf

/-- The base and the size that the headers to be loaded ask for. -/
structure SpansLoads (hs : List Elf32Phdr) (size minVaddr : Nat) : Prop where
  least : IsLeast {a | ∃ h ∈ hs, h.Load ∧ h.pVaddr = a} minVaddr
  span : ∃ top, IsGreatest {b | ∃ h ∈ hs, h.Load ∧ h.pVaddr + h.pMemsz = b} top ∧ size = top - minVaddr

/-- So far only points, none above the one before. -/
def Falling (hs : List Elf32Phdr) : Prop :=
  (∀ h ∈ hs, ¬ h.Load) ∧ (hs.filter fun h => ¬ h.Skipped).Pairwise fun g h => h.pVaddr ≤ g.pVaddr

/-- No point is below what is to be loaded, and none above that the loop remembers. -/
def Undisturbed (hs : List Elf32Phdr) : Prop :=
  ∀ pre h post, hs = pre ++ h :: post → ¬ h.Load → h.pMemsz = 0 →
    (∃ g ∈ hs, g.Load ∧ g.pVaddr ≤ h.pVaddr) ∧
      ((∃ g ∈ hs, g.Load ∧ h.pVaddr ≤ g.pVaddr + g.pMemsz) ∨ Falling (pre ++ [h]))

section Rounds
variable {hs pre post : List Elf32Phdr} {size minVaddr : Nat} {h : Elf32Phdr}

theorem Elf32Phdr.taken_cases (ht : ¬ h.Skipped) : h.Load ∨ (¬ h.Load ∧ h.pMemsz = 0) := by
  by_cases hl : h.Load
  · exact Or.inl hl
  · refine Or.inr ⟨hl, ?_⟩
    by_contra hne
    exact ht ⟨hl, Nat.pos_of_ne_zero hne⟩

/-- What a round makes of the base and of the end. -/
theorem spanRound_eq (ht : ¬ h.Skipped) (hend : h.pVaddr + h.pMemsz < addressSpace)
    (htop : minVaddr + size < addressSpace) :
    (spanRound (size, minVaddr) h).2 = min minVaddr h.pVaddr ∧
      (spanRound (size, minVaddr) h).2 + (spanRound (size, minVaddr) h).1 =
        if size = 0 ∧ h.pVaddr < minVaddr then h.pVaddr + h.pMemsz else max (minVaddr + size)
          (h.pVaddr + h.pMemsz) := by
  unfold spanRound
  dsimp only
  rw [if_neg ht]
  by_cases hlt : h.pVaddr < minVaddr
  · rw [if_pos hlt]
    by_cases hpos : size > 0
    · have hspan : ¬ (size = 0 ∧ h.pVaddr < minVaddr) := fun hz => Nat.ne_of_gt hpos hz.1
      rw [if_pos hpos, if_neg hspan]
      dsimp only
      rw [wrap_eq (by omega : size + (minVaddr - h.pVaddr) < addressSpace), wrap_eq hend, wrap_eq (by omega)]
      by_cases hgt : h.pVaddr + h.pMemsz > h.pVaddr + (size + (minVaddr - h.pVaddr))
      · rw [if_pos hgt, wrap_sub (by omega) hend]
        omega
      · rw [if_neg hgt]
        omega
    · have hspan : size = 0 ∧ h.pVaddr < minVaddr := ⟨by omega, hlt⟩
      rw [if_neg hpos, if_pos hspan]
      dsimp only
      rw [wrap_eq hend, if_neg (Nat.lt_irrefl _)]
      omega
  · have hspan : ¬ (size = 0 ∧ h.pVaddr < minVaddr) := fun hz => hlt hz.2
    rw [if_neg hlt, if_neg hspan]
    dsimp only
    rw [wrap_eq hend, wrap_eq htop]
    by_cases hgt : h.pVaddr + h.pMemsz > minVaddr + size
    · rw [if_pos hgt, wrap_sub (by omega) hend]
      omega
    · rw [if_neg hgt]
      omega

theorem span_append_singleton (hs : List Elf32Phdr) (h : Elf32Phdr) : span (hs ++ [h]) = spanRound (span hs) h := by
  unfold span
  rw [List.foldl_append]
  rfl

theorem span_skipped (hs : List Elf32Phdr) (hskip : h.Skipped) : span (hs ++ [h]) = span hs := by
  rw [span_append_singleton]
  exact if_pos hskip

/-- The same of the loop. -/
theorem span_taken (hsized : ∀ g ∈ hs ++ [h], Sized g) (ht : ¬ h.Skipped) :
    (span (hs ++ [h])).2 = min (span hs).2 h.pVaddr ∧
      (span (hs ++ [h])).2 + (span (hs ++ [h])).1 =
        if (span hs).1 = 0 ∧ h.pVaddr < (span hs).2 then h.pVaddr + h.pMemsz
        else max ((span hs).2 + (span hs).1) (h.pVaddr + h.pMemsz) := by
  rw [span_append_singleton]
  exact spanRound_eq ht ((hsized h (List.mem_append_right _ (List.mem_singleton_self h))).2 ht)
    (spanned_span hs fun g hg => hsized g (List.mem_append_left _ hg)).top

theorem falling_skipped (hskip : h.Skipped) : Falling (hs ++ [h]) ↔ Falling hs := by
  unfold Falling
  rw [List.filter_append, List.filter_cons_of_neg (by simpa using hskip), List.filter_nil, List.append_nil,
    List.forall_mem_append]
  exact and_congr_left fun _ => and_iff_left fun g hg => List.mem_singleton.mp hg ▸ hskip.1

theorem falling_taken (ht : ¬ h.Skipped) :
    Falling (hs ++ [h]) ↔ Falling hs ∧ ¬ h.Load ∧ ∀ g ∈ hs, ¬ g.Skipped → h.pVaddr ≤ g.pVaddr := by
  unfold Falling
  rw [List.filter_append, List.filter_cons_of_pos (by simpa using ht), List.filter_nil, List.forall_mem_append,
    List.pairwise_append]
  constructor
  · rintro ⟨⟨h1, h2⟩, h3, -, h4⟩
    exact ⟨⟨h1, h3⟩, h2 h (List.mem_singleton_self h), fun g hg hgt =>
      h4 g (List.mem_filter.mpr ⟨hg, by simpa using hgt⟩) h (List.mem_singleton_self h)⟩
  · rintro ⟨⟨h1, h3⟩, h2, h4⟩
    refine ⟨⟨h1, fun g hg => List.mem_singleton.mp hg ▸ h2⟩, h3, List.pairwise_singleton _ _, fun g hg x hx => ?_⟩
    rw [List.mem_singleton.mp hx]
    exact h4 g (List.mem_filter.mp hg).1 (by simpa using (List.mem_filter.mp hg).2)

/-- As long as there are only falling points nothing is spanned. -/
theorem span_zero_iff (hsized : ∀ h ∈ hs, Sized h) : (span hs).1 = 0 ↔ Falling hs := by
  induction hs using List.reverseRecOn with
  | nil => exact iff_of_true rfl ⟨nofun, .nil⟩
  | append_singleton hs h ih =>
    have hpre : ∀ g ∈ hs, Sized g := fun g hg => hsized g (List.mem_append_left _ hg)
    have ih := ih hpre
    by_cases hskip : h.Skipped
    · rw [span_skipped hs hskip, falling_skipped hskip]
      exact ih
    · obtain ⟨hmin, hend⟩ := span_taken hsized hskip
      have hst := spanned_span hs hpre
      have hsize := (hsized h (List.mem_append_right _ (List.mem_singleton_self h)))
      rw [falling_taken hskip, ← ih]
      have hlow : (∀ g ∈ hs, ¬ g.Skipped → h.pVaddr ≤ g.pVaddr) ↔ h.pVaddr ≤ (span hs).2 := by
        constructor
        · intro hall
          cases hst.attained with
          | inl htop =>
            have := hsize.2 hskip
            omega
          | inr hat =>
            obtain ⟨g, hg, hgt, he⟩ := hat
            exact he ▸ hall g hg hgt
        · exact fun hle g hg hgt => Nat.le_trans hle (hst.low g hg hgt)
      rw [hlow]
      cases h.taken_cases hskip with
      | inl hl =>
        have hpos := hsize.1 hl
        refine iff_of_false ?_ fun hall => hall.2.1 hl
        split at hend <;> omega
      | inr hpoint =>
        split at hend
        · next hc => exact iff_of_true (by omega) ⟨hc.1, hpoint.1, Nat.le_of_lt hc.2⟩
        · next hc =>
          constructor
          · intro hz
            exact ⟨by omega, hpoint.1, by omega⟩
          · rintro ⟨hz, -, hle⟩
            omega

/-! ### Both directions -/

/-- Nothing undoes what a header has done to the base, nor to the end once there is a span. -/
theorem span_grows (hsized : ∀ h ∈ pre ++ post, Sized h) : (span (pre ++ post)).2 ≤ (span pre).2 ∧
    (0 < (span pre).1 → 0 < (span (pre ++ post)).1 ∧
      (span pre).2 + (span pre).1 ≤ (span (pre ++ post)).2 + (span (pre ++ post)).1) := by
  induction post using List.reverseRecOn with
  | nil =>
    rw [List.append_nil]
    exact ⟨Nat.le_refl _, fun hpos => ⟨hpos, Nat.le_refl _⟩⟩
  | append_singleton post h ih =>
    rw [← List.append_assoc] at hsized ⊢
    obtain ⟨hlow, hgrow⟩ := ih fun g hg => hsized g (List.mem_append_left _ hg)
    by_cases hskip : h.Skipped
    · rw [span_skipped _ hskip]
      exact ⟨hlow, hgrow⟩
    · obtain ⟨hmin, hend⟩ := span_taken hsized hskip
      refine ⟨by omega, fun hpos => ?_⟩
      obtain ⟨hpos', htop⟩ := hgrow hpos
      rw [if_neg (by omega)] at hend
      omega

/-- Without disturbance base and end are within what is to be loaded. -/
theorem span_within (hsized : ∀ h ∈ hs, Sized h) (hload : ∃ h ∈ hs, h.Load) (hu : Undisturbed hs) (hpre : pre <+: hs) :
    (∃ g ∈ hs, g.Load ∧ g.pVaddr ≤ (span pre).2) ∧
      (¬ Falling pre → ∃ g ∈ hs, g.Load ∧ (span pre).2 + (span pre).1 ≤ g.pVaddr + g.pMemsz) := by
  induction pre using List.reverseRecOn with
  | nil =>
    obtain ⟨g, hg, hgl⟩ := hload
    have hbound := (hsized g hg).2 hgl.taken
    have hpos := (hsized g hg).1 hgl
    exact ⟨⟨g, hg, hgl, show g.pVaddr ≤ addressSpace - 1 by omega⟩, fun hnot => absurd ⟨nofun, .nil⟩ hnot⟩
  | append_singleton pre h ih =>
    obtain ⟨⟨g, hg, hgl, hlow⟩, htop⟩ := ih ((List.prefix_append pre [h]).trans hpre)
    obtain ⟨post, hhs⟩ := hpre
    have hin : h ∈ hs := hhs ▸ List.mem_append_left _ (List.mem_append_right _ (List.mem_singleton_self h))
    have hsub : ∀ x ∈ pre ++ [h], Sized x := fun x hx => hsized x (hhs ▸ List.mem_append_left _ hx)
    by_cases hskip : h.Skipped
    · rw [span_skipped pre hskip, falling_skipped hskip]
      exact ⟨⟨g, hg, hgl, hlow⟩, htop⟩
    · obtain ⟨hmin, hend⟩ := span_taken hsub hskip
      have hzero := span_zero_iff hsub
      have hzero' := span_zero_iff fun x hx => hsub x (List.mem_append_left _ hx)
      cases h.taken_cases hskip with
      | inl hl =>
        constructor
        · by_cases hle : (span pre).2 ≤ h.pVaddr
          · exact ⟨g, hg, hgl, by omega⟩
          · exact ⟨h, hin, hl, by omega⟩
        · intro _
          by_cases hf : Falling pre
          · refine ⟨h, hin, hl, ?_⟩
            rw [hzero'.mpr hf] at hend
            split at hend <;> omega
          · obtain ⟨x, hx, hxl, hxtop⟩ := htop hf
            rw [if_neg (fun hc => hf (hzero'.mp hc.1))] at hend
            by_cases hle : (span pre).2 + (span pre).1 ≤ h.pVaddr + h.pMemsz
            · exact ⟨h, hin, hl, by omega⟩
            · exact ⟨x, hx, hxl, by omega⟩
      | inr hpoint =>
        obtain ⟨⟨y, hy, hyl, hylow⟩, habove⟩ := hu pre h post (by rw [← hhs, List.append_assoc]; rfl) hpoint.1 hpoint.2
        constructor
        · by_cases hle : (span pre).2 ≤ h.pVaddr
          · exact ⟨g, hg, hgl, by omega⟩
          · exact ⟨y, hy, hyl, by omega⟩
        · intro hnot
          obtain ⟨z, hz, hzl, hzhigh⟩ := habove.resolve_right hnot
          by_cases hf : Falling pre
          · refine ⟨z, hz, hzl, ?_⟩
            have hne := fun h0 => hnot (hzero.mp h0)
            rw [hzero'.mpr hf] at hend
            split at hend <;> omega
          · obtain ⟨x, hx, hxl, hxtop⟩ := htop hf
            rw [if_neg (fun hc => hf (hzero'.mp hc.1))] at hend
            by_cases hle : (span pre).2 + (span pre).1 ≤ h.pVaddr + h.pMemsz
            · exact ⟨z, hz, hzl, by omega⟩
            · exact ⟨x, hx, hxl, by omega⟩

/-- The loop finds what is to be loaded if and only if no point disturbs it. -/
theorem span_spansLoads_iff (hsized : ∀ h ∈ hs, Sized h) (hload : ∃ h ∈ hs, h.Load) :
    SpansLoads hs (span hs).1 (span hs).2 ↔ Undisturbed hs := by
  have hst := spanned_span hs hsized
  constructor
  · rintro ⟨hleast, top, hgreatest, hsize⟩ pre h post hhs hnot hzero
    obtain ⟨g, hg, hgl, hglow⟩ := hleast.1
    obtain ⟨x, hx, hxl, hxtop⟩ := hgreatest.1
    have hskip : ¬ h.Skipped := fun hs => by
      have := hs.2
      omega
    have hhs' : hs = pre ++ [h] ++ post := by
      rw [hhs, List.append_assoc]
      rfl
    have hsub : ∀ y ∈ pre ++ [h], Sized y := fun y hy => hsized y (hhs' ▸ List.mem_append_left _ hy)
    obtain ⟨hmin, hend⟩ := span_taken hsub hskip
    obtain ⟨hlow, hgrow⟩ := span_grows (hhs' ▸ hsized)
    rw [← hhs'] at hlow hgrow
    refine ⟨⟨g, hg, hgl, by omega⟩, ?_⟩
    by_cases hf : Falling (pre ++ [h])
    · exact Or.inr hf
    · refine Or.inl ⟨x, hx, hxl, ?_⟩
      have hpos := Nat.pos_of_ne_zero fun h0 => hf ((span_zero_iff hsub).mp h0)
      have htop := (hgrow hpos).2
      have hxmem := hleast.2 ⟨x, hx, hxl, rfl⟩
      split at hend <;> omega
  · intro hu
    obtain ⟨⟨g, hg, hgl, hlow⟩, htop⟩ := span_within hsized hload hu (List.prefix_refl hs)
    have hnot : ¬ Falling hs := fun hf => by
      obtain ⟨x, hx, hxl⟩ := hload
      exact hf.1 x hx hxl
    obtain ⟨x, hx, hxl, hxtop⟩ := htop hnot
    have hglow := hst.low g hg hgl.taken
    have hxcover := hst.cover x hx hxl
    refine ⟨⟨⟨g, hg, hgl, by omega⟩, ?_⟩, (span hs).2 + (span hs).1, ⟨⟨x, hx, hxl, by omega⟩, ?_⟩, by omega⟩
    · rintro a ⟨y, hy, hyl, rfl⟩
      exact hst.low y hy hyl.taken
    · rintro b ⟨y, hy, hyl, rfl⟩
      exact hst.cover y hy hyl

end Rounds

/-- A segment of 16 bytes at 0x1000. -/
def bootSegment : Elf32Phdr := ⟨programTypeLoad, 0x1000, 0x1000, 16, 16⟩

/-- What linkers put behind it to say that the stack is not to be executed. -/
def gnuStack : Elf32Phdr := ⟨0x6474E551, 0, 0, 0, 0⟩

/-- Two segments, the upper one first, with a note before them and an entry without a size
between their addresses. -/
def fallingTable : List Elf32Phdr :=
  [⟨4, 0x500, 0x500, 32, 32⟩, ⟨programTypeLoad, 0x3000, 0x3000, 8, 32⟩, bootSegment, ⟨0x6474E551, 0x2000, 0x2000, 0, 0⟩]

theorem span_spansLoads_iff_falling : SpansLoads fallingTable 0x2020 0x1000 := by
  have hsized : ∀ h ∈ fallingTable, Sized h := by decide
  refine (span_spansLoads_iff hsized (by decide)).mpr fun pre h post hhs hnot hzero => ?_
  have hin : h ∈ fallingTable := hhs ▸ List.mem_append_right _ (List.mem_cons_self ..)
  have hpoint : ∀ h ∈ fallingTable, ¬ h.Load → h.pMemsz = 0 → (∃ g ∈ fallingTable, g.Load ∧ g.pVaddr ≤ h.pVaddr) ∧
      ∃ g ∈ fallingTable, g.Load ∧ h.pVaddr ≤ g.pVaddr + g.pMemsz := by decide
  obtain ⟨hlow, hhigh⟩ := hpoint h hin hnot hzero
  exact ⟨hlow, Or.inl hhigh⟩

/-- With that header the span begins at 0. -/
theorem gnuStack_disturbs : ¬ ∀ hs : List Elf32Phdr, (∀ h ∈ hs, h.Load → 0 < h.pMemsz) →
    (∀ h ∈ hs, h.pVaddr + h.pMemsz ≤ 2 ^ 32 - 1) → (∃ h ∈ hs, h.Load) → SpansLoads hs (span hs).1 (span hs).2 := by
  intro hall
  have hspan := hall [bootSegment, gnuStack] (by decide) (by decide) (by decide)
  obtain ⟨h, hh, hl, he⟩ := hspan.least.1
  have hbase : (span [bootSegment, gnuStack]).2 = 0 := by decide
  rw [hbase] at he
  cases List.mem_cons.mp hh with
  | inl hh =>
    rw [hh] at he
    cases he
  | inr hh =>
    rw [List.mem_singleton.mp hh] at hl
    cases hl

end ShompOS
