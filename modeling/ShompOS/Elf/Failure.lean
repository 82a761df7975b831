import ShompOS.Elf.Lifetime

/-! What `init_elf` returns when it fails, and when it does not.

`ELF_ERROR` is 1, and so is the PID of the second process: the first program that is
loaded looks as if it had not been. A call that fails leaves nothing behind. -/
namespace ShompOS
open Layout Memory Elf

/-! ### The next PID -/

namespace Kernel
variable {k k' : Kernel} {pid : Nat}

/-- The PIDs before the one returned are taken. -/
theorem getNextPid_first {rounds : Nat} (h : getNextPid rounds k = some (k', pid)) :
    ∃ n, pid = pidAfter^[n + 1] k.nextPid ∧ ∀ m, m < n → k.getProcess (pidAfter^[m + 1] k.nextPid) ≠ none := by
  induction rounds generalizing k with
  | zero => cases h
  | succ rounds ih =>
    unfold getNextPid at h
    change (if k.getProcess (pidAfter k.nextPid) ≠ none then
      getNextPid rounds {k with nextPid := pidAfter k.nextPid}
      else some ({k with nextPid := pidAfter k.nextPid}, pidAfter k.nextPid)) = _ at h
    by_cases htaken : k.getProcess (pidAfter k.nextPid) ≠ none
    · rw [if_pos htaken] at h
      obtain ⟨n, hn, hbefore⟩ := ih h
      refine ⟨n + 1, hn, fun m hm => ?_⟩
      cases m with
      | zero => exact htaken
      | succ m => exact hbefore m (Nat.lt_of_succ_lt_succ hm)
    · rw [if_neg htaken] at h
      cases h
      exact ⟨0, rfl, fun m hm => absurd hm (Nat.not_lt_zero m)⟩

/-- Among the PIDs after the last one given, in their order, a PID is the first that no
live process has. -/
def Upcoming (k : Kernel) (pid : Nat) : Prop :=
  ∃ n, pidAfter^[n + 1] k.nextPid = pid ∧ k.getProcess pid = none ∧
    ∀ m, m < n → k.getProcess (pidAfter^[m + 1] k.nextPid) ≠ none

theorem Upcoming.unique {p q : Nat} (hp : k.Upcoming p) (hq : k.Upcoming q) : p = q := by
  obtain ⟨n, rfl, hfree, hbefore⟩ := hp
  obtain ⟨m, rfl, hfree', hbefore'⟩ := hq
  rcases Nat.lt_trichotomy n m with h | rfl | h
  · exact absurd hfree (hbefore' n h)
  · rfl
  · exact absurd hfree' (hbefore m h)

theorem initProcess_upcoming {C : Code} {entryPoint stackBottom : Nat}
    (h : k.initProcess C entryPoint stackBottom = some (k', pid)) : k.Upcoming pid := by
  unfold initProcess at h
  rw [Option.map_eq_some_iff] at h
  obtain ⟨⟨k₁, pid₁⟩, hnext, heq⟩ := h
  obtain ⟨-, rfl⟩ := Prod.mk.inj heq
  obtain ⟨-, hfree, -⟩ := getNextPid_spec hnext
  obtain ⟨n, hn, hbefore⟩ := getNextPid_first hnext
  exact ⟨n, hn.symm, hfree, hbefore⟩

end Kernel

/-! ### The outcomes -/

section Outcomes
variable {L : Layout} {C : Code} {k k' : Kernel} {P : Pool} {data n : Nat}

/-- How a well-formed program fares. -/
inductive Loading (C : Code) (k : Kernel) (P : Pool) (data : Nat) : Option (Kernel × ElfOutcome) → Prop
  | noText {h : Heap} : (P.allocate (span (pHeaders k.heap.mem data)).1).2 = 0 →
      (∀ a, h.AllocatedBlock a ↔ k.heap.AllocatedBlock a) → Loading C k P data (some ({k with heap := h}, .error))
  /-- More bytes than there are would have to be cleared. -/
  | runaway : (P.allocate (span (pHeaders k.heap.mem data)).1).2 ≠ 0 → ¬ (∀ h ∈ pHeaders k.heap.mem data, Clears h) →
      Loading C k P data none
  | noStack {h : Heap} : (P.allocate (span (pHeaders k.heap.mem data)).1).2 ≠ 0 →
      (∀ h ∈ pHeaders k.heap.mem data, Clears h) →
      ((P.allocate (span (pHeaders k.heap.mem data)).1).1.allocate stackSizeDefault).2 = 0 →
      (∀ a, h.AllocatedBlock a ↔ k.heap.AllocatedBlock a) → Loading C k P data (some ({k with heap := h}, .error))
  | started {h : Heap} {entryPoint stackSpace pid textSpace minVaddr : Nat} {k' : Kernel} :
      (P.allocate (span (pHeaders k.heap.mem data)).1).2 ≠ 0 → (∀ h ∈ pHeaders k.heap.mem data, Clears h) →
      ((P.allocate (span (pHeaders k.heap.mem data)).1).1.allocate stackSizeDefault).2 ≠ 0 →
      ({k with heap := h} : Kernel).initProcess C entryPoint stackSpace = some (k', pid) →
      Loading C k P data (some (k', .started pid textSpace minVaddr))

theorem initElf_loading (hr : Represents L k.heap P) (hf : FileAt P data n) (hwf : WellFormedElf k.heap.mem data n) :
    Loading C k P data (k.initElf L C data) := by
  have hread : ¬ isReadable k.heap.mem data ≠ 0 := not_not.mpr hwf.readable
  have h9 : headerSize = 9 := rfl
  obtain ⟨hv₁, -, htext⟩ := Pool.allocate_spec hr.stands.valid (span (pHeaders k.heap.mem data)).1
  unfold Kernel.initElf
  rw [if_neg hread]
  dsimp only
  obtain ⟨h₁, hcall, hrep₁, hfile₁, hzero | ⟨a, t, hp, hnone, ha, hfit, hS, -⟩⟩ :=
    hr.textSpace hf (span (pHeaders k.heap.mem data)).1
  · rw [hcall, Option.bind_some]
    dsimp only
    rw [if_pos hzero]
    obtain ⟨-, hsame⟩ := htext.resolve_right fun ⟨b, u, hb, _⟩ => by omega
    refine .noText hzero fun b => ?_
    rw [hrep₁.allocatedBlock_iff, hr.allocatedBlock_iff, hsame]
  have hne : (P.allocate (span (pHeaders k.heap.mem data)).1).2 ≠ 0 := by omega
  have hused : (P.allocate (span (pHeaders k.heap.mem data)).1).1.used = Function.update P.used a (some t) := by
    obtain ⟨b, u, hb, -, -, hused⟩ := htext.resolve_left fun h => hne h.1
    have hba : b = a := by omega
    rw [hused, hba, Function.update_self] at ha
    rw [hused, hba, ha]
  have hfileA := hS.file
  have hwf₁ := hwf.congr hfile₁ (by omega)
  have hheaders := (pHeaders_congr hfile₁ hwf.header (by omega) hwf.table).1
  have hroom : (span (pHeaders h₁.mem data)).1 ≤ 2 ^ t - headerSize := by
    rw [hheaders]
    omega
  have hfits := hwf₁.fits hroom
  obtain ⟨hloops, hcopied⟩ := copySegments_spec hS hwf₁.header hwf₁.table hfits
  rw [hheaders] at hloops hcopied hfits
  rw [hcall, Option.bind_some]
  dsimp only
  rw [if_neg hne, hp]
  cases hloop : copySegments h₁.mem data (a + headerSize) with
  | none =>
    refine .runaway hne fun hclears => ?_
    obtain ⟨m, hm⟩ := hloops.mpr hclears
    rw [hloop] at hm
    cases hm
  | some m₂ =>
    have hclears := hloops.mp ⟨m₂, hloop⟩
    have hrep₂ : Represents L ⟨m₂, h₁.currentBrk⟩ (P.allocate (span (pHeaders k.heap.mem data)).1).1 := by
      refine ⟨hrep₁.stands.congr_payload ha fun x hx => ?_, hrep₁.brk⟩
      exact (hcopied m₂ hloop).spared (2 ^ t - headerSize) (fun h hh ht => (hfits h hh).2 ht) x (by omega)
    obtain ⟨h₂, hcall₂, hrep₃, -⟩ := hrep₂.allocate (R := fun _ => False) stackSizeDefault
    rw [Option.bind_some, hcall₂, Option.bind_some]
    dsimp only
    obtain ⟨-, -, hstack⟩ := Pool.allocate_spec hv₁ stackSizeDefault
    by_cases hzero : ((P.allocate (span (pHeaders k.heap.mem data)).1).1.allocate stackSizeDefault).2 = 0
    · -- the program's block is given back
      rw [if_pos hzero]
      obtain ⟨-, hsame⟩ := hstack.resolve_right fun ⟨b, u, hb, _⟩ => by omega
      rw [hsame] at hrep₃
      obtain ⟨h₃, hfree, hrep₄, -⟩ := hrep₃.free (R := fun _ => False) ha
      rw [hfree, Option.map_some]
      refine .noStack hne hclears hzero fun b => ?_
      rw [hrep₄.allocatedBlock_iff, hr.allocatedBlock_iff, (Pool.release_spec hrep₃.stands.valid ha).2, hused,
        Function.update_idem, Function.update_eq_self_iff.mpr hnone.symm]
    · rw [if_neg hzero]
      obtain ⟨k', pid, hinit⟩ := Kernel.initProcess_returns C {k with heap := h₂}
        (wrap (a + headerSize + (h₂.mem.ehdr data).eEntry + (addressSpace - (span (pHeaders k.heap.mem data)).2)))
        ((P.allocate (span (pHeaders k.heap.mem data)).1).1.allocate stackSizeDefault).2
      rw [hinit, Option.map_some]
      exact .started hne hclears hzero hinit

/-! ### Failing and succeeding -/

/-- A process is there that was not. -/
def Kernel.HasNew (k k' : Kernel) : Prop := ∃ i, ¬ k.Live i ∧ k'.Live i

/-- `ELF_ERROR` says that there is no new process, and then nothing is different. -/
def ReportsFailure (L : Layout) (C : Code) (k : Kernel) (data : Nat) : Prop :=
  ∃ k' o, k.initElf L C data = some (k', o) ∧ (o.value = elfError ↔ ¬ k.HasNew k') ∧
    (o.value = elfError → k'.procTable = k.procTable ∧ ∀ a, k'.heap.AllocatedBlock a ↔ k.heap.AllocatedBlock a)

theorem not_hasNew_of_procTable (h : k'.procTable = k.procTable) : ¬ k.HasNew k' := by
  rintro ⟨i, hdead, hlive⟩
  unfold Kernel.Live at hlive
  rw [h] at hlive
  exact hdead hlive

theorem hasNew_initProcess {entryPoint stackBottom pid : Nat} (hslot : ∃ i, ¬ k.Live i)
    (h : k.initProcess C entryPoint stackBottom = some (k', pid)) : k.HasNew k' := by
  obtain ⟨i, hfound, hdead, -⟩ := Kernel.initProcess_creates hslot h
  exact ⟨i, hdead, (Kernel.getProcess_eq_some hfound).1⟩

theorem reportsFailure_error {h : Heap} (hcall : k.initElf L C data = some ({k with heap := h}, .error))
    (hblocks : ∀ a, h.AllocatedBlock a ↔ k.heap.AllocatedBlock a) : ReportsFailure L C k data :=
  ⟨_, _, hcall, iff_of_true rfl (not_hasNew_of_procTable rfl), fun _ => ⟨rfl, hblocks⟩⟩

theorem reportsFailure_started {h : Heap} {entryPoint stackSpace pid textSpace minVaddr : Nat} (hslot : ∃ i, ¬ k.Live i)
    (hcall : k.initElf L C data = some (k', .started pid textSpace minVaddr))
    (hinit : ({k with heap := h} : Kernel).initProcess C entryPoint stackSpace = some (k', pid)) :
    ReportsFailure L C k data ↔ ¬ k.Upcoming elfError := by
  have hnew : k.HasNew k' := hasNew_initProcess (k := {k with heap := h}) hslot hinit
  have hup : k.Upcoming pid := Kernel.initProcess_upcoming (k := {k with heap := h}) hinit
  constructor
  · rintro ⟨k₁, o, h₁, hiff, -⟩ hone
    rw [hcall] at h₁
    cases h₁
    exact hiff.mp (hup.unique hone) hnew
  · intro hone
    have hne : pid ≠ elfError := fun he => hone (he ▸ hup)
    exact ⟨k', _, hcall, iff_of_false hne (not_not.mpr hnew), fun he => absurd he hne⟩

/-- With a free slot, `ELF_ERROR` says just that there is no new process exactly if the file is
rejected, or there is no memory for the program, or all of it can be cleared and there is no
memory for the stack or the next PID is not that of `ELF_ERROR`. -/
theorem reportsFailure_iff (hr : Represents L k.heap P) (hf : FileAt P data n) (hslot : ∃ i, ¬ k.Live i)
    (hfile : isReadable k.heap.mem data ≠ 0 ∨ WellFormedElf k.heap.mem data n) :
    ReportsFailure L C k data ↔ isReadable k.heap.mem data ≠ 0 ∨
      ∃ text stack, k.heap.served L [(span (pHeaders k.heap.mem data)).1, stackSizeDefault] = some [text, stack] ∧
        (text = false ∨ (∀ h ∈ pHeaders k.heap.mem data, Clears h) ∧ (stack = false ∨ ¬ k.Upcoming elfError)) := by
  cases hfile with
  | inl hrejected =>
    refine iff_of_true (reportsFailure_error (h := k.heap) ?_ fun _ => Iff.rfl) (Or.inl hrejected)
    unfold Kernel.initElf
    rw [if_pos hrejected]
  | inr hwf =>
    have hload := initElf_loading (C := C) hr hf hwf
    have hserved : (∃ text stack, k.heap.served L [(span (pHeaders k.heap.mem data)).1, stackSizeDefault] =
      some [text, stack] ∧
        (text = false ∨ (∀ h ∈ pHeaders k.heap.mem data, Clears h) ∧ (stack = false ∨ ¬ k.Upcoming elfError))) ↔
        (P.allocate (span (pHeaders k.heap.mem data)).1).2 = 0 ∨ (∀ h ∈ pHeaders k.heap.mem data, Clears h) ∧
          (((P.allocate (span (pHeaders k.heap.mem data)).1).1.allocate stackSizeDefault).2 = 0 ∨
            ¬ k.Upcoming elfError) := by
      rw [hr.served]
      constructor
      · rintro ⟨text, stack, he, h⟩
        cases he
        exact h.imp (fun h => not_not.mp (of_decide_eq_false h)) fun h =>
          ⟨h.1, h.2.imp_left fun h => not_not.mp (of_decide_eq_false h)⟩
      · intro h
        exact ⟨_, _, rfl, h.imp (fun h => decide_eq_false (not_not.mpr h)) fun h =>
          ⟨h.1, h.2.imp_left fun h => decide_eq_false (not_not.mpr h)⟩⟩
    rw [hserved, or_iff_right (not_not.mpr hwf.readable)]
    generalize hcall : k.initElf L C data = o at hload
    cases hload with
    | noText hzero hblocks => exact iff_of_true (reportsFailure_error hcall hblocks) (Or.inl hzero)
    | runaway hne hclears =>
      refine iff_of_false ?_ fun h => h.elim hne fun h => hclears h.1
      rintro ⟨k', o, h, -⟩
      rw [hcall] at h
      cases h
    | noStack hne hclears hzero hblocks =>
      exact iff_of_true (reportsFailure_error hcall hblocks) (Or.inr ⟨hclears, Or.inl hzero⟩)
    | started hne hclears hstack hinit =>
      rw [reportsFailure_started hslot hcall hinit]
      exact ⟨fun h => Or.inr ⟨hclears, Or.inr h⟩, fun h => ((h.resolve_left hne).2).resolve_left hstack⟩

end Outcomes
/-! ### The first program -/

/-- The first process gets PID 0. -/
theorem reportsFailure_iff_first : ReportsFailure kernelImage ⟨0x100000, 0x100010⟩ (holding oneSegment).1
    (holding oneSegment).2 := by
  obtain ⟨P, hr, hf⟩ := represents_holding oneSegment (by decide +kernel)
  have hserved : (holding oneSegment).1.heap.served kernelImage
      [(span (pHeaders (holding oneSegment).1.heap.mem (holding oneSegment).2)).1, stackSizeDefault] =
        some [true, true] := by
    decide +kernel
  have hclears : ∀ h ∈ pHeaders (holding oneSegment).1.heap.mem (holding oneSegment).2, h.pFilesz ≤ h.pMemsz := by
    decide +kernel
  refine (reportsFailure_iff hr hf ⟨0, by decide +kernel⟩ (Or.inr wellFormed_oneSegment)).mpr
    (Or.inr ⟨true, true, hserved, Or.inr ⟨fun h hh _ => hclears h hh, Or.inr ?_⟩⟩)
  rintro ⟨m, hm, -, htaken⟩
  cases m with
  | zero =>
    have hnext : (holding oneSegment).1.nextPid = addressSpace - 1 := by decide +kernel
    rw [hnext] at hm
    exact absurd hm (by decide)
  | succ m => exact htaken 0 (Nat.succ_pos m) (by decide +kernel)

/-- The backstop has been created, on a stack of its own, beside a file. -/
def backstopped : Kernel :=
  (((holding oneSegment).1.heap.allocate kernelImage 500).bind fun (h, stack) =>
    (({(holding oneSegment).1 with heap := h} : Kernel).initProcess
      ⟨0x100000, 0x100010⟩ 0x200000 stack).map Prod.fst).getD
      (holding oneSegment).1

theorem represents_backstopped : ∃ P, Represents kernelImage backstopped.heap P ∧
    FileAt P (holding oneSegment).2 oneSegment.length := by
  obtain ⟨P, hr, hf⟩ := represents_holding oneSegment (by decide +kernel)
  obtain ⟨h₁, hcall, hr₁, -⟩ := hr.allocate (R := fun _ => False) 500
  have hstack : ((holding oneSegment).1.heap.allocate kernelImage 500).any (fun r => r.2 ≠ 0) =
    true := by decide +kernel
  rw [hcall, Option.any_some, decide_eq_true_iff] at hstack
  obtain ⟨-, -, htext⟩ := Pool.allocate_spec hr.stands.valid 500
  obtain ⟨a, t, hp, -, hfit, hused⟩ := htext.resolve_left fun h => hstack h.1
  have ha : (P.allocate 500).1.used a = some t := by rw [hused, Function.update_self]
  obtain ⟨k', pid, hinit⟩ := Kernel.initProcess_returns ⟨0x100000, 0x100010⟩
    {(holding oneSegment).1 with heap := h₁} 0x200000
    (a + headerSize)
  have he : backstopped = k' := by
    unfold backstopped
    rw [hcall, Option.bind_some]
    dsimp only
    rw [hp, hinit]
    rfl
  have hr₂ : Represents kernelImage ({(holding oneSegment).1 with heap := h₁} : Kernel).heap (P.allocate 500).1 := hr₁
  obtain ⟨b, u, hb, hbu, hn⟩ := hf
  rw [he]
  exact ⟨_, (hr₂.initProcess ha (by omega) hinit).1, b, u, hb, Pool.used_allocate hr.stands.valid 500 hbu, hn⟩

/-- The first program after that is started, and `ELF_ERROR` is what is returned. -/
theorem first_program_looks_failed : ¬ ∀ (k : Kernel) (P : Pool) (data n : Nat), Represents kernelImage k.heap P →
    FileAt P data n →
    (∃ i, ¬ k.Live i) → (isReadable k.heap.mem data ≠ 0 ∨ WellFormedElf k.heap.mem data n) →
      ReportsFailure kernelImage ⟨0x100000, 0x100010⟩ k data := by
  intro hall
  obtain ⟨P, hr, hf⟩ := represents_backstopped
  have hwf : WellFormedElf backstopped.heap.mem (holding oneSegment).2 oneSegment.length :=
    ⟨by decide +kernel, by decide, by decide +kernel, by decide +kernel, by decide +kernel, by decide +kernel,
      by decide +kernel, by decide +kernel⟩
  obtain ⟨k', o, hcall, hiff, -⟩ := hall backstopped P _ _ hr hf ⟨1, by decide +kernel⟩ (Or.inr hwf)
  have hrun : (backstopped.initElf kernelImage ⟨0x100000, 0x100010⟩ (holding oneSegment).2).any
      (fun (k', o) => o.value = elfError ∧ ∃ i, ¬ backstopped.Live i ∧ k'.Live i) = true := by decide +kernel
  rw [hcall, Option.any_some] at hrun
  obtain ⟨hvalue, hnew⟩ := of_decide_eq_true hrun
  exact hiff.mp hvalue hnew

end ShompOS
