import ShompOS.Heap.Cells

/-! The memory of those who call.

Others than the cells' owner hold blocks of the heap too, each with the size it was
asked for with. They write to those and to static memory as they like, and that is
the memory they may pass pointers to. Between two calls the used blocks are the
owner's cells and theirs (`Settled`). -/
namespace ShompOS
open Memory

/-- The `n` bytes at `p`. -/
def Memory.bytesAt (m : Memory) (p n : Nat) : List UInt8 := (List.range n).map fun i => m.byte (p + i)

theorem Memory.bytesAt_getElem? (m : Memory) (p : Nat) {n i : Nat} (hi : i < n) :
    (m.bytesAt p n)[i]? = some (m.byte (p + i)) := by
  unfold bytesAt
  rw [List.getElem?_map, List.getElem?_range hi]
  rfl

@[simp] theorem Memory.length_bytesAt (m : Memory) (p n : Nat) : (m.bytesAt p n).length = n := by
  unfold bytesAt
  rw [List.length_map, List.length_range]

/-- Bytes that are in memory one by one are there together. -/
theorem Memory.bytesAt_eq {m : Memory} {p : Nat} {bs : List UInt8} (h : ∀ i b, bs[i]? = some b → m.byte (p + i) = b) :
    m.bytesAt p bs.length = bs := by
  apply List.ext_getElem?
  intro i
  by_cases hi : i < bs.length
  · rw [bytesAt_getElem? _ _ hi, List.getElem?_eq_getElem hi, h i _ (List.getElem?_eq_getElem hi)]
  · rw [List.getElem?_eq_none (by rw [length_bytesAt]; omega), List.getElem?_eq_none (by omega)]

theorem Memory.bytesAt_congr {m m' : Memory} {p n : Nat} (h : ∀ i, i < n → m'.byte (p + i) = m.byte (p + i)) :
    m'.bytesAt p n = m.bytesAt p n := by
  unfold bytesAt
  apply List.map_congr_left
  intro i hi
  exact h i (List.mem_range.mp hi)

def heldCells (held : List (Nat × Nat)) (m : Memory) : List Cell := held.map fun x => (x.1, .bytes (m.bytesAt x.1 x.2))

/-- What callers may write to. -/
def Callers (L : Layout) (held : List (Nat × Nat)) (x : Nat) : Prop :=
  L.Static x ∨ ∃ p n, (p, n) ∈ held ∧ p ≤ x ∧ x < p + n

section Held
variable {L : Layout} {S : Nat → UInt8} {P P' : Pool} {h h' : Heap} {cs cs' : List Cell} {held : List (Nat × Nat)}
  {m : Memory} {x : Nat}

theorem heldCells_mem {p n : Nat} (hp : (p, n) ∈ held) : (p, Contents.bytes (m.bytesAt p n)) ∈ heldCells held m :=
  List.mem_map.mpr ⟨(p, n), hp, rfl⟩

theorem heldCells_addrs (held : List (Nat × Nat)) (m : Memory) : (heldCells held m).map Prod.fst =
    held.map Prod.fst := by
  unfold heldCells
  rw [List.map_map]
  rfl

theorem callers_iff_lent : Callers L held x ↔ Lent L (heldCells held m) x := by
  constructor
  · intro hx
    cases hx with
    | inl hs => exact Or.inl hs
    | inr hx =>
      obtain ⟨p, n, hp, hlo, hhi⟩ := hx
      exact Or.inr ⟨p, _, heldCells_mem hp, hlo, by rwa [length_bytesAt]⟩
  · intro hx
    cases hx with
    | inl hs => exact Or.inl hs
    | inr hx =>
      obtain ⟨p, bs, hp, hlo, hhi⟩ := hx
      obtain ⟨⟨q, n⟩, hq, he⟩ := List.mem_map.mp hp
      dsimp only at he
      obtain ⟨rfl, hbs⟩ := Prod.mk.inj he
      obtain rfl := Contents.bytes.inj hbs
      rw [length_bytesAt] at hhi
      exact Or.inr ⟨q, n, hq, hlo, hhi⟩

/-- The blocks held hold what is in memory. -/
theorem Owns.heldCells_eq (ho : Owns L S P h (cs ++ heldCells held m)) : heldCells held h.mem = heldCells held m := by
  apply List.map_congr_left
  intro x hx
  rw [bytesAt_congr fun i hi => ?_]
  exact ho.byte_eq (List.mem_append_right _ (heldCells_mem hx)) (bytesAt_getElem? _ _ hi)

/-- The used blocks are the cells `cs` and those that others hold. -/
def Settled (L : Layout) (held : List (Nat × Nat)) (P : Pool) (h : Heap) (cs : List Cell) : Prop :=
  Owns L h.mem.byte P h (cs ++ heldCells held h.mem)

theorem Owns.settled {C : List Cell} (ho : Owns L S P h (C ++ heldCells held m)) : Settled L held P h C := by
  unfold Settled
  rw [ho.heldCells_eq]
  exact ⟨ho.represents, ho.block, ho.used, ho.nodup, ho.contents, fun _ _ => rfl⟩

theorem Settled.perm (hs : Settled L held P h cs) (hp : cs.Perm cs') : Settled L held P h cs' :=
  Owns.perm hs (hp.append_right _)

/-- A call leaves the callers' memory as it was. -/
theorem Settled.callers_eq (hs : Settled L held P h cs) {C : List Cell}
    (ho : Owns L h.mem.byte P' h' (C ++ heldCells held h.mem)) (hx : Callers L held x) :
    h'.mem.byte x = h.mem.byte x :=
  Owns.lent_eq hs ho (List.subset_append_right _ _) (List.subset_append_right _ _) (callers_iff_lent.mp hx)

/-- The callers' memory is in no cell. -/
theorem Settled.outside (hs : Settled L held P h cs) (hx : Callers L held x) {c : Cell} (hc : c ∈ cs) :
    x < c.1 ∨ c.1 + c.2.size ≤ x := by
  have ho : Owns L h.mem.byte P h (cs ++ heldCells held h.mem) := hs
  apply ho.lent_outside (List.subset_append_right cs _) (callers_iff_lent.mp hx) (List.mem_append_left _ hc)
  intro d hd he
  have hnodup := ho.nodup
  rw [List.map_append, List.nodup_append] at hnodup
  exact hnodup.2.2 c.1 (List.mem_map_of_mem hc) d.1 (List.mem_map_of_mem hd) he.symm

/-- What callers write there is nothing to the owner of the cells. -/
theorem Settled.store (hs : Settled L held P h cs) (hm : ∀ x, ¬ Callers L held x → m.byte x = h.mem.byte x) :
    Settled L held P ⟨m, h.currentBrk⟩ cs := by
  have ho : Owns L h.mem.byte P h (cs ++ heldCells held h.mem) := hs
  have hpM := two_pow_pos' maxBlockScale
  have havoid : Avoids L (Callers L held) P := by
    intro x hx
    cases hx with
    | inl hst =>
      have hlow := hst.1
      refine ⟨hst.2, fun a t ha => ?_⟩
      have := ho.represents.stands.valid.tiling.lower ha
      omega
    | inr hx =>
      obtain ⟨p, n, hp, hlo, hhi⟩ := hx
      obtain ⟨a, t, hpa, ha, hsize⟩ := ho.block _ (List.mem_append_right _ (heldCells_mem (m := h.mem) hp))
      dsimp only at hpa
      rw [Contents.size_bytes, length_bytesAt] at hsize
      refine ho.represents.stands.valid.avoids (R := fun y => y = x) (fun y hy => ?_) x rfl
      exact ⟨a, t, Or.inl ha, by omega, by omega⟩
  -- the cells are not there
  have hcells : ∀ c ∈ cs, c.2.At m c.1 := by
    intro c hc
    have hmem : c ∈ cs ++ heldCells held h.mem := List.mem_append_left _ hc
    have hup := (ho.bounds hmem).2.1
    refine (ho.contents c hmem).congr (by omega) fun x h1 h2 => hm x fun hx => ?_
    have hout := hs.outside hx hc
    omega
  refine ⟨⟨ho.represents.stands.congr havoid hm, ho.represents.brk⟩, fun c hc => ?_, fun a t ha => ?_, ?_,
    fun c hc => ?_, fun _ _ => rfl⟩
  · cases List.mem_append.mp hc with
    | inl hc => exact ho.block c (List.mem_append_left _ hc)
    | inr hc =>
      obtain ⟨⟨p, n⟩, hp, rfl⟩ := List.mem_map.mp hc
      obtain ⟨a, t, h1, h2, h3⟩ := ho.block _ (List.mem_append_right _ (heldCells_mem (m := h.mem) hp))
      rw [Contents.size_bytes, length_bytesAt] at h3
      refine ⟨a, t, h1, h2, ?_⟩
      rw [Contents.size_bytes, length_bytesAt]
      exact h3
  · obtain ⟨c, hc, he⟩ := ho.used a t ha
    cases List.mem_append.mp hc with
    | inl hc => exact ⟨c, List.mem_append_left _ hc, he⟩
    | inr hc =>
      obtain ⟨⟨p, n⟩, hp, rfl⟩ := List.mem_map.mp hc
      exact ⟨_, List.mem_append_right _ (heldCells_mem hp), he⟩
  · have hnodup := ho.nodup
    rw [List.map_append, heldCells_addrs] at hnodup ⊢
    exact hnodup
  · cases List.mem_append.mp hc with
    | inl hc => exact hcells c hc
    | inr hc =>
      obtain ⟨⟨p, n⟩, hp, rfl⟩ := List.mem_map.mp hc
      intro i b hi
      have hlt := (List.getElem?_eq_some_iff.mp hi).1
      rw [length_bytesAt] at hlt
      rw [bytesAt_getElem? _ _ hlt, Option.some.injEq] at hi
      exact hi

end Held
end ShompOS
