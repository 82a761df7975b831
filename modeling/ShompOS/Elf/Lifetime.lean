import ShompOS.Elf.Image
import ShompOS.Process.Occupancy

/-! What is left of a program when its process has been killed.

`init_elf` takes two blocks, one for the program and one for its stack, and
`kill_process` frees the stack it finds in the process's context; the program's
block is in no table. The loader's copying is taken to stay inside the block it
is for: what it does elsewhere would be to the allocator's own records. -/
namespace ShompOS
open Layout Memory Elf

/-! ### init_elf, step by step -/

section Loads
variable {L : Layout} {C : Code} {k k₁ : Kernel} {data pid textSpace minVaddr : Nat}

/-- What a loader that has started a process has done. -/
structure Loads (L : Layout) (C : Code) (k : Kernel) (data : Nat) (k₁ : Kernel)
    (pid textSpace minVaddr size : Nat) (h₁ : Heap) (m₂ : Memory) (h₂ : Heap) (stackSpace : Nat) : Prop where
  span : span (pHeaders k.heap.mem data) = (size, minVaddr)
  text : k.heap.allocate L size = some (h₁, textSpace)
  text_ne : textSpace ≠ 0
  copied : copySegments h₁.mem data textSpace = some m₂
  stack : Heap.allocate L ⟨m₂, h₁.currentBrk⟩ stackSizeDefault = some (h₂, stackSpace)
  stack_ne : stackSpace ≠ 0
  process : ({k with heap := h₂} : Kernel).initProcess C
    (wrap (textSpace + (h₂.mem.ehdr data).eEntry + (addressSpace - minVaddr))) stackSpace = some (k₁, pid)

theorem Kernel.initElf_loads (h : k.initElf L C data = some (k₁, .started pid textSpace minVaddr)) :
    ∃ size h₁ m₂ h₂ stackSpace,
      Loads L C k data k₁ pid textSpace minVaddr size h₁ m₂ h₂ stackSpace := by
  unfold Kernel.initElf at h
  split at h
  · cases h
  · generalize hspan : span (pHeaders k.heap.mem data) = sp at h
    obtain ⟨size, v⟩ := sp
    dsimp only at h
    rw [Option.bind_eq_some_iff] at h
    obtain ⟨⟨h₁, text⟩, htext, h⟩ := h
    dsimp only at h
    split at h
    · cases h
    · next hne =>
      rw [Option.bind_eq_some_iff] at h
      obtain ⟨m₂, hcopied, h⟩ := h
      rw [Option.bind_eq_some_iff] at h
      obtain ⟨⟨h₂, stackSpace⟩, hstack, h⟩ := h
      dsimp only at h
      split at h
      · rw [Option.map_eq_some_iff] at h
        obtain ⟨_, -, h⟩ := h
        cases h
      · next hne' =>
        rw [Option.map_eq_some_iff] at h
        obtain ⟨⟨k', p⟩, hinit, h⟩ := h
        cases h
        exact ⟨size, h₁, m₂, h₂, stackSpace, hspan, htext, hne, hcopied, hstack, hne', hinit⟩

/-- The copying of the file at `data` writes nowhere but in the block it is given. -/
def CopiesInside (L : Layout) (h : Heap) (data : Nat) : Prop :=
  ∀ h₁ textSpace m₂, h.allocate L (span (pHeaders h.mem data)).1 = some (h₁, textSpace) → textSpace ≠ 0 →
    copySegments h₁.mem data textSpace = some m₂ →
      ∀ x, ¬ (textSpace ≤ x ∧ x < textSpace - headerSize + 2 ^ h₁.mem.scale (textSpace - headerSize)) →
        m₂.byte x = h₁.mem.byte x

/-- After the process a loader started has been killed, the program's block is
allocated, beside those that were before. -/
theorem image_outlives_process {P : Pool} (hr : Represents L k.heap P) (hslot : ∃ i, ¬ k.Live i)
    (hload : k.initElf L C data = some (k₁, .started pid textSpace minVaddr))
    (hinside : CopiesInside L k.heap data) :
    ∃ k₂, k₁.killProcess L pid = some k₂ ∧
      (∀ a, k₂.heap.AllocatedBlock a ↔ k.heap.AllocatedBlock a ∨ a + headerSize = textSpace) ∧
      ¬ ∀ a, (k₂.heap.AllocatedBlock a ↔ k.heap.AllocatedBlock a) := by
  obtain ⟨size, h₁, m₂, h₂, stackSpace, hst⟩ := Kernel.initElf_loads hload
  -- the program's block
  obtain ⟨h₁', hcall₁, hrep₁, -⟩ := hr.allocate (R := fun _ => False) size
  have he₁ := hcall₁.symm.trans hst.text
  simp only [Option.some.injEq, Prod.mk.injEq] at he₁
  obtain ⟨rfl, hp₁⟩ := he₁
  obtain ⟨hv₁, -, ⟨hzero, -⟩ | ⟨a, t, hp, hnone, -, hused₁⟩⟩ := Pool.allocate_spec hr.stands.valid size
  · exact absurd (hp₁.symm.trans hzero) hst.text_ne
  have ha : (P.allocate size).1.used a = some t := by rw [hused₁, Function.update_self]
  have htext : textSpace = a + headerSize := hp₁.symm.trans hp
  have hcopy := hinside h₁' textSpace m₂ (by rw [hst.span]; exact hst.text) hst.text_ne hst.copied
  rw [htext, Nat.add_sub_cancel, hrep₁.stands.scale_eq (Or.inl ha)] at hcopy
  have hrep₂ : Represents L ⟨m₂, h₁'.currentBrk⟩ (P.allocate size).1 :=
    ⟨hrep₁.stands.congr_payload ha hcopy, hrep₁.brk⟩
  -- the stack's block
  obtain ⟨h₂', hcall₂, hrep₃, -⟩ := hrep₂.allocate (R := fun _ => False) stackSizeDefault
  have he₂ := hcall₂.symm.trans hst.stack
  simp only [Option.some.injEq, Prod.mk.injEq] at he₂
  obtain ⟨rfl, hp₂⟩ := he₂
  obtain ⟨hv₂, -, ⟨hzero, -⟩ | ⟨b, u, hq, hnone₂, hfit, hused₂⟩⟩ := Pool.allocate_spec hv₁ stackSizeDefault
  · exact absurd (hp₂.symm.trans hzero) hst.stack_ne
  have hb : ((P.allocate size).1.allocate stackSizeDefault).1.used b = some u := by
    rw [hused₂, Function.update_self]
  have hstack : stackSpace = b + headerSize := hp₂.symm.trans hq
  have hinit := hst.process
  rw [hstack] at hinit
  have hrep₃' : Represents L ({k with heap := h₂'} : Kernel).heap _ := hrep₃
  have h1000 : stackSizeDefault = 1000 := rfl
  have hrep₄ := (hrep₃'.initProcess hb (by omega) hinit).1
  have hslot' : ∃ i, ¬ ({k with heap := h₂'} : Kernel).Live i := hslot
  obtain ⟨i, hfound, -, -, hbottom, -⟩ := Kernel.initProcess_creates hslot' hinit
  -- what `kill_process` frees
  obtain ⟨h₃, hfree, hrep₅, -⟩ := hrep₄.free (R := fun _ => False) hb
  have hkill : k₁.killProcess L pid =
      some {k₁.modify (some i) (fun p => {p with status := .stopped}) with heap := h₃} := by
    unfold Kernel.killProcess
    rw [hfound]
    dsimp only
    rw [Kernel.modify_heap, Kernel.modify_procTable, if_pos rfl]
    dsimp only
    rw [hbottom, hfree]
    rfl
  have hba : b ≠ a := fun he => by rw [he, ha] at hnone₂; cases hnone₂
  have hset : ∀ x, h₃.AllocatedBlock x ↔ k.heap.AllocatedBlock x ∨ x + headerSize = textSpace := by
    intro x
    rw [hrep₅.allocatedBlock_iff, hr.allocatedBlock_iff, htext,
      (Pool.release_spec hrep₄.stands.valid hb).2, hused₂, hused₁]
    by_cases hxb : x = b
    · rw [hused₁, Function.update_of_ne hba] at hnone₂
      rw [hxb, Function.update_self, hnone₂]
      exact ⟨fun ⟨_, h⟩ => (nomatch h), fun h => h.elim (fun ⟨_, h⟩ => (nomatch h)) fun h => absurd (by omega) hba⟩
    · rw [Function.update_of_ne hxb, Function.update_of_ne hxb]
      by_cases hxa : x = a
      · rw [hxa, Function.update_self]
        exact ⟨fun _ => Or.inr rfl, fun _ => ⟨t, rfl⟩⟩
      · rw [Function.update_of_ne hxa]
        exact ⟨Or.inl, fun h => h.elim id fun h => absurd (by omega) hxa⟩
  refine ⟨_, hkill, hset, fun hsame => ?_⟩
  have hleft : k.heap.AllocatedBlock a := (hsame a).mp ((hset a).mpr (Or.inr htext.symm))
  obtain ⟨w, hw⟩ := (hr.allocatedBlock_iff a).mp hleft
  rw [hnone] at hw
  cases hw

/-- A well-formed program is copied inside its block. -/
theorem WellFormedElf.copiesInside {P : Pool} {n : Nat} {h : Heap} (hr : Represents L h P)
    (hf : FileAt P data n) (hwf : WellFormedElf h.mem data n) : CopiesInside L h data := by
  intro h₁ textSpace m₂ hcall hne hcopied
  obtain ⟨h', hcall', hrep, hfile, hzero | ⟨a, t, ha, -, ha', hfit, hS, -⟩⟩ :=
    hr.textSpace hf (span (pHeaders h.mem data)).1
  · have he := hcall'.symm.trans hcall
    simp only [Option.some.injEq, Prod.mk.injEq] at he
    exact absurd (he.2.symm.trans hzero) hne
  have he := hcall'.symm.trans hcall
  simp only [Option.some.injEq, Prod.mk.injEq] at he
  obtain ⟨rfl, hp⟩ := he
  have hA := hf.upper hr
  have htext : textSpace = a + headerSize := hp.symm.trans ha
  have hwf' := hwf.congr hfile hA
  have hheaders := (pHeaders_congr hfile hwf.header hA hwf.table).1
  have hroom : (span (pHeaders h'.mem data)).1 ≤ 2 ^ t - headerSize := by
    rw [hheaders]
    omega
  have hfits := hwf'.fits hroom
  rw [htext] at hcopied ⊢
  have hc := (copySegments_spec hS hwf'.header hwf'.table hfits).2 m₂ hcopied
  rw [Nat.add_sub_cancel, hrep.stands.scale_eq (Or.inl ha')]
  intro x hx
  exact hc.spared (2 ^ t - headerSize) (fun g hg ht => (hfits g hg).2 ht) x (by omega)

end Loads

/-! ### A program of one segment -/

theorem image_outlives_process_oneSegment : ∃ k k₁ k₂ : Kernel, ∃ pid textSpace minVaddr,
    k.initElf kernelImage ⟨0x100000, 0x100010⟩ (holding oneSegment).2 =
        some (k₁, .started pid textSpace minVaddr) ∧
      k₁.killProcess kernelImage pid = some k₂ ∧
      ∀ a, k₂.heap.AllocatedBlock a ↔ k.heap.AllocatedBlock a ∨ a + headerSize = textSpace := by
  obtain ⟨P, hr, hf⟩ := represents_holding oneSegment (by decide +kernel)
  have hrun : ((holding oneSegment).1.initElf kernelImage ⟨0x100000, 0x100010⟩ (holding oneSegment).2).any
      (fun r => r.2.isStarted) = true := by decide +kernel
  obtain ⟨⟨k₁, out⟩, hrun, hstarted⟩ := (Option.any_eq_true _ _).mp hrun
  obtain ⟨pid, textSpace, minVaddr, rfl⟩ := ElfOutcome.isStarted_iff.mp hstarted
  have hslot : ∃ i, ¬ (holding oneSegment).1.Live i := ⟨0, by decide +kernel⟩
  obtain ⟨k₂, hkill, hset, -⟩ := image_outlives_process hr hslot hrun
    (wellFormed_oneSegment.copiesInside hr hf)
  exact ⟨_, k₁, k₂, pid, textSpace, minVaddr, hrun, hkill, hset⟩

/-- The first block holds the file and the one after it the program: it was free
before, and is not after. -/
theorem image_not_reclaimed : ∃ k k₁ k₂ : Kernel, ∃ pid textSpace minVaddr a,
    k.initElf kernelImage ⟨0x100000, 0x100010⟩ (holding oneSegment).2 =
        some (k₁, .started pid textSpace minVaddr) ∧
      k₁.killProcess kernelImage pid = some k₂ ∧ k₂.heap.AllocatedBlock a ∧ ¬ k.heap.AllocatedBlock a := by
  have hrun : ((holding oneSegment).1.initElf kernelImage ⟨0x100000, 0x100010⟩ (holding oneSegment).2).any
      (fun r => r.2.isStarted ∧ (r.1.killProcess kernelImage r.2.value).any fun k₂ =>
        k₂.heap.mem.isFree (heapLowerBound + 128) = 0 ∧ Blocks k₂.heap.mem heapLowerBound
          ([0, 128, 160, 192, 256, 512, 1024, 2048, 4096, 8192, 16384].map (heapLowerBound + ·))
          k₂.heap.currentBrk) = true := by decide +kernel
  obtain ⟨⟨k₁, out⟩, hrun, hafter⟩ := (Option.any_eq_true _ _).mp hrun
  obtain ⟨hstarted, hafter⟩ := of_decide_eq_true hafter
  obtain ⟨pid, textSpace, minVaddr, rfl⟩ := ElfOutcome.isStarted_iff.mp hstarted
  obtain ⟨k₂, hkill, hafter⟩ := (Option.any_eq_true _ _).mp hafter
  obtain ⟨hzero, hblocks⟩ := of_decide_eq_true hafter
  have hone : (holding oneSegment).1.heap.mem.isFree (heapLowerBound + 128) = 1 := by decide +kernel
  refine ⟨_, k₁, k₂, pid, textSpace, minVaddr, heapLowerBound + 128, hrun, hkill,
    ⟨_, hblocks, List.mem_map.mpr ⟨128, by decide, rfl⟩, hzero⟩, ?_⟩
  rintro ⟨_, -, -, hfree⟩
  rw [hone] at hfree
  cases hfree

end ShompOS
