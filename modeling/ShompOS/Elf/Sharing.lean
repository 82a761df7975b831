import ShompOS.Elf.Lifetime
import ShompOS.Process.Housing

/-! Loading a program while the heap has other owners.

The loader asks for a block for the program and one for its stack, and writes to these
two. Where it fails it gives back what it has got; where it starts a process the two are
held, the second as the process's stack. -/
namespace ShompOS
open Memory Elf

section Sharing
variable {L : Layout} {C : Code} {k k' : Kernel} {P : Pool} {cs : List Cell} {held : List (Nat × Nat)} {data x : Nat}
  {contents : List UInt8} {outcome : ElfOutcome}

/-- What is held when the loader is done. -/
def Elf.afterLoad (k : Kernel) (held : List (Nat × Nat)) (data : Nat) (k' : Kernel) : ElfOutcome → List (Nat × Nat)
  | .error => held
  | .started pid textSpace _ =>
    (k'.getProcess pid).elim held fun i =>
      (k'.stackOf i, stackSizeDefault) :: (textSpace, (span (pHeaders k.heap.mem data)).1) :: held

theorem giveBack_head {p n : Nat} (h : p ∉ held.map Prod.fst) : giveBack ((p, n) :: held) p = held := by
  unfold giveBack
  rw [List.filter_cons_of_neg (by simp)]
  refine List.filter_eq_self.mpr fun y hy => ?_
  have hne : y.1 ≠ p := fun he => h (he ▸ List.mem_map_of_mem hy)
  simp [hne]

/-- A file of the owner of the cells is in a block. -/
theorem Settled.fileAt (hs : Settled L held P k.heap cs) (hc : (data, Contents.bytes contents) ∈ cs) :
    FileAt P data contents.length :=
  Owns.block hs _ (List.mem_append_left _ hc)

/-- A new block is not one that was held. -/
theorem Settled.head_fresh {h : Heap} {p n : Nat} (hs : Settled L ((p, n) :: held) P h cs) : p ∉ held.map Prod.fst :=
  (List.nodup_cons.mp hs.held_nodup).1

/-- The program's block is filled with a copy of the file. -/
theorem settled_copySegments (hs : Settled L held P k.heap cs) (hc : (data, Contents.bytes contents) ∈ cs)
    (hwf : WellFormedElf k.heap.mem data contents.length) {h₁ : Heap} {m₂ : Memory} {P₁ : Pool} {textSpace n : Nat}
    (hcall : k.heap.allocate L (span (pHeaders k.heap.mem data)).1 = some (h₁, textSpace))
    (hs₁ : Settled L ((textSpace, n) :: held) P₁ h₁ cs) (hloop : copySegments h₁.mem data textSpace = some m₂) :
    Settled L ((textSpace, n) :: held) P₁ ⟨m₂, h₁.currentBrk⟩ cs ∧
      ∀ x, Callers L held x → m₂.byte x = h₁.mem.byte x := by
  have hne := hs₁.ne_zero (List.mem_cons_self ..)
  have hinside := hwf.copiesInside (Owns.represents hs) (hs.fileAt hc) h₁ textSpace m₂ hcall hne hloop
  obtain ⟨a, t, rfl, ha, -⟩ := hs₁.held_block (List.mem_cons_self ..)
  have hscale : h₁.mem.scale a = t := (Owns.represents hs₁).stands.scale_eq (Or.inl ha)
  rw [Nat.add_sub_cancel, hscale] at hinside
  refine ⟨hs₁.payload (List.mem_cons_self ..) ha hinside, fun x hx => hinside x ?_⟩
  exact hs₁.payload_spares ha ((giveBack_head hs₁.head_fresh).symm ▸ hx)

/-- However the loader fares, the cells are as before, and so is what others hold; where it
has started a process there are two blocks more. -/
theorem settled_initElf (hs : Settled L held P k.heap cs) (h : k.Housed held) (hid : k.Identified)
    (hslot : ∃ i, ¬ k.Live i) (hc : (data, Contents.bytes contents) ∈ cs)
    (hwf : isReadable k.heap.mem data = 0 → WellFormedElf k.heap.mem data contents.length)
    (hcall : k.initElf L C data = some (k', outcome)) :
    k'.Identified ∧ k'.Housed (afterLoad k held data k' outcome) ∧
      (∃ P', Settled L (afterLoad k held data k' outcome) P' k'.heap cs) ∧
      held ⊆ afterLoad k held data k' outcome ∧
      ∀ x, Callers L held x → k'.heap.mem.byte x = k.heap.mem.byte x := by
  unfold Kernel.initElf at hcall
  by_cases hread : isReadable k.heap.mem data ≠ 0
  · rw [if_pos hread] at hcall
    cases hcall
    exact ⟨hid, h, ⟨P, hs⟩, List.Subset.refl _, fun x _ => rfl⟩
  rw [if_neg hread] at hcall
  have hwf := hwf (not_not.mp hread)
  -- the program's block
  obtain ⟨h₁, hcall₁, hs₁, hbytes₁⟩ := hs.allocate (span (pHeaders k.heap.mem data)).1
  dsimp only at hcall
  rw [hcall₁, Option.bind_some] at hcall
  dsimp only at hcall
  by_cases htext : (P.allocate (span (pHeaders k.heap.mem data)).1).2 = 0
  · rw [if_pos htext] at hcall
    cases hcall
    rw [htext, lend_null] at hs₁
    exact ⟨⟨hid.distinct, hid.bound, hid.active⟩, ⟨h.stack, h.apart⟩, ⟨_, hs₁⟩, List.Subset.refl _, hbytes₁⟩
  rw [if_neg htext] at hcall
  rw [lend_of_ne htext] at hs₁
  obtain ⟨m₂, hloop, hcall⟩ := Option.bind_eq_some_iff.mp hcall
  obtain ⟨hs₂, hbytes₂⟩ := settled_copySegments hs hc hwf hcall₁ hs₁ hloop
  -- and the stack's
  obtain ⟨h₃, hcall₃, hs₃, hbytes₃⟩ := hs₂.allocate stackSizeDefault
  rw [hcall₃, Option.bind_some] at hcall
  dsimp only at hcall
  have hsofar : ∀ x, Callers L held x → h₃.mem.byte x = k.heap.mem.byte x := fun x hx =>
    (hbytes₃ x (hx.mono (List.subset_cons_self _ _))).trans ((hbytes₂ x hx).trans (hbytes₁ x hx))
  generalize hq : (((P.allocate (span (pHeaders k.heap.mem data)).1).1).allocate stackSizeDefault).2 = q at *
  generalize hp : (P.allocate (span (pHeaders k.heap.mem data)).1).2 = p at *
  by_cases hstack : q = 0
  · rw [if_pos hstack] at hcall
    rw [hstack, lend_null] at hs₃
    obtain ⟨h₄, P', hfree, hs₄, hbytes₄⟩ := hs₃.free (List.mem_cons_self ..)
    rw [giveBack_head hs₃.head_fresh] at hs₄ hbytes₄
    rw [hfree] at hcall
    cases hcall
    exact ⟨⟨hid.distinct, hid.bound, hid.active⟩, ⟨h.stack, h.apart⟩, ⟨P', hs₄⟩, List.Subset.refl _,
      fun x hx => (hbytes₄ x hx).trans (hsofar x hx)⟩
  rw [if_neg hstack] at hcall
  rw [lend_of_ne hstack] at hs₃
  obtain ⟨⟨k₁, pid⟩, hinit, he⟩ := Option.map_eq_some_iff.mp hcall
  cases he
  -- it was nobody's
  have hfresh : ¬ ({k with heap := h₃} : Kernel).IsStack q := by
    rintro ⟨i, hi, hstack⟩
    obtain ⟨n, hn⟩ := h.stack i hi
    exact hs₃.head_fresh (hstack ▸ List.mem_map_of_mem (f := Prod.fst) (List.mem_cons_of_mem _ hn))
  have hhoused : ({k with heap := h₃} : Kernel).Housed ((q, stackSizeDefault) ::
      (p, (span (pHeaders k.heap.mem data)).1) :: held) :=
    Kernel.Housed.mono ⟨h.stack, h.apart⟩ fun y hy => List.mem_cons_of_mem _ (List.mem_cons_of_mem _ hy)
  obtain ⟨hhoused', i, hfound, hbottom⟩ := hhoused.initProcess hslot (List.mem_cons_self ..) hfresh hinit
  have hafter : afterLoad k held data k₁ (.started pid p (span (pHeaders k.heap.mem data)).2) =
      (q, stackSizeDefault) :: (p, (span (pHeaders k.heap.mem data)).1) :: held := by
    unfold afterLoad
    dsimp only
    rw [hfound, ← hbottom]
    rfl
  have hs₃' : Settled L ((q, stackSizeDefault) :: (p, (span (pHeaders k.heap.mem data)).1) :: held)
      ((P.allocate (span (pHeaders k.heap.mem data)).1).1.allocate stackSizeDefault).1
      ({k with heap := h₃} : Kernel).heap cs := hs₃
  obtain ⟨hs₅, hbytes₅⟩ := Kernel.settled_initProcess hs₃' (List.mem_cons_self ..) (by decide) hinit
  have hid' : ({k with heap := h₃} : Kernel).Identified := ⟨hid.distinct, hid.bound, hid.active⟩
  rw [hafter]
  refine ⟨hid'.initProcess hslot hinit, hhoused', ⟨_, hs₅⟩,
    fun y hy => List.mem_cons_of_mem _ (List.mem_cons_of_mem _ hy), fun x hx => ?_⟩
  refine (hbytes₅ x fun hin => ?_).trans (hsofar x hx)
  obtain ⟨a, t, rfl, ha, -⟩ := hs₃'.held_block (List.mem_cons_self ..)
  refine hs₃'.payload_spares ha ?_ ((Kernel.inStack_iff hs₃' ha).mp hin)
  exact (giveBack_head hs₃'.head_fresh).symm ▸ hx.mono (List.subset_cons_self _ _)

end Sharing
end ShompOS
