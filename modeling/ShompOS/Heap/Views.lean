import ShompOS.Heap.Invariant

/-! What can be read off a heap: its blocks, with their scales, and its free lists.

A client's view has nothing of the pool behind it. The headers lead through the
blocks, each used or free, and the links through the free lists; in a heap that
represents a pool these are the pool's. -/
namespace ShompOS
open Layout Memory

variable {L : Layout} {P : Pool} {h : Heap}

/-- A block of scale `s` at `a` that is handed out. -/
def Heap.UsedBlock (h : Heap) (a s : Nat) : Prop := h.AllocatedBlock a ∧ h.mem.scale a = s

/-- A block of scale `s` at `a` that is not. -/
def Heap.FreeBlock (h : Heap) (a s : Nat) : Prop :=
  ∃ blocks, Blocks h.mem heapLowerBound blocks h.currentBrk ∧ a ∈ blocks ∧ h.mem.isFree a = 1 ∧ h.mem.scale a = s

/-- The members of a free list, in the order of the list. -/
def Heap.FreeList (L : Layout) (h : Heap) (s : Nat) (list : List Nat) : Prop :=
  Chain h.mem.next h.mem.prev (L.list s) list

theorem Represents.usedBlock_iff (hr : Represents L h P) (a s : Nat) : h.UsedBlock a s ↔ P.used a = some s := by
  unfold Heap.UsedBlock
  rw [hr.allocatedBlock_iff]
  constructor
  · intro hu
    obtain ⟨⟨t, ht⟩, hs⟩ := hu
    rwa [← hs, hr.stands.scale_eq (Or.inl ht)]
  · intro hu
    exact ⟨⟨s, hu⟩, hr.stands.scale_eq (Or.inl hu)⟩

theorem Represents.freeBlock_iff (hr : Represents L h P) (a s : Nat) : h.FreeBlock a s ↔ a ∈ P.free s := by
  obtain ⟨bs, hbs, hmem⟩ := hr.blocks
  constructor
  · intro hf
    obtain ⟨blocks, hblocks, ha, hone, hs⟩ := hf
    rw [hblocks.unique hbs] at ha
    cases hr.block_cases ((hmem a).mp ha) with
    | inl hu =>
      rw [hu.1] at hone
      cases hone
    | inr hf => exact hs ▸ hf.2
  · intro hf
    have hscale := hr.stands.scale_eq (Or.inr hf)
    exact ⟨bs, hbs, (hmem a).mpr (hscale.symm ▸ Or.inr hf), (hr.stands.laid.free hf).1, hscale⟩

theorem Represents.freeList_iff (hr : Represents L h P) {s : Nat} (hmin : minBlockScale ≤ s) (hs : s ≤ maxBlockScale)
    (list : List Nat) : h.FreeList L s list ↔ list = P.free s := by
  have hc := hr.stands.laid.chain s hmin hs
  constructor
  · intro hl
    exact hl.linked.unique hc.linked hl.nodup hc.nodup
  · intro he
    exact he ▸ hc

end ShompOS
