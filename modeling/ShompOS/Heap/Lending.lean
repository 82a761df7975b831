import ShompOS.Heap.Held

/-! What those who call do with the heap.

They ask for blocks, give theirs back and write to theirs. The owner of the cells keeps
his, and what is in them, through all of it; so does each caller with the blocks that
another's request is not about. -/
namespace ShompOS
open Memory

/-- What is held after a request of `n` bytes has been answered with `p`. -/
def lend (held : List (Nat × Nat)) (p n : Nat) : List (Nat × Nat) := if p = 0 then held else (p, n) :: held

/-- What is held when `p` has been given back. -/
def giveBack (held : List (Nat × Nat)) (p : Nat) : List (Nat × Nat) := held.filter fun x => x.1 ≠ p

section Lending
variable {L : Layout} {P P' : Pool} {h h' : Heap} {cs : List Cell} {held : List (Nat × Nat)} {p n a t x : Nat}
  {m : Memory}

@[simp] theorem lend_null (held : List (Nat × Nat)) (n : Nat) : lend held 0 n = held := rfl

theorem lend_of_ne (hp : p ≠ 0) : lend held p n = (p, n) :: held := by
  simp [lend, hp]

theorem subset_lend (held : List (Nat × Nat)) (p n : Nat) : held ⊆ lend held p n := by
  unfold lend
  split
  · exact List.Subset.refl _
  · exact List.subset_cons_self _ _

@[simp] theorem mem_giveBack {q k : Nat} : (q, k) ∈ giveBack held p ↔ (q, k) ∈ held ∧ q ≠ p := by
  simp [giveBack]

theorem perm_giveBack (hp : (p, n) ∈ held) (hnodup : (held.map Prod.fst).Nodup) :
    held.Perm ((p, n) :: giveBack held p) := by
  have hfilter : giveBack held p = held.erase (p, n) := by
    rw [List.Nodup.erase_eq_filter hnodup.of_map]
    apply List.filter_congr
    intro y hy
    have hiff : y.1 = p ↔ y = (p, n) := ⟨fun he => List.inj_on_of_nodup_map hnodup hy hp he, fun he => he ▸ rfl⟩
    by_cases he : y = (p, n) <;> simp [hiff, he]
  rw [hfilter]
  exact List.perm_cons_erase hp

theorem Callers.mono {held' : List (Nat × Nat)} (hx : Callers L held x) (hsub : held ⊆ held') : Callers L held' x := by
  cases hx with
  | inl hs => exact Or.inl hs
  | inr hx =>
    obtain ⟨p, n, hp, hin⟩ := hx
    exact Or.inr ⟨p, n, hsub hp, hin⟩

/-- The blocks held are different ones. -/
theorem Settled.held_nodup (hs : Settled L held P h cs) : (held.map Prod.fst).Nodup := by
  have hnodup := Owns.nodup hs
  rw [List.map_append, heldCells_addrs] at hnodup
  exact (List.nodup_append.mp hnodup).2.1

/-- What is held is a used block. -/
theorem Settled.held_block (hs : Settled L held P h cs) (hp : (p, n) ∈ held) :
    ∃ a t, p = a + headerSize ∧ P.used a = some t ∧ n + headerSize ≤ 2 ^ t := by
  have hblock := Owns.block hs _ (List.mem_append_right _ (heldCells_mem hp))
  simpa using hblock

theorem Settled.ne_zero (hs : Settled L held P h cs) (hp : (p, n) ∈ held) : p ≠ 0 :=
  Owns.ne_zero hs (List.mem_append_right _ (heldCells_mem hp))

/-! ### Asking and giving back -/

theorem Settled.allocate (hs : Settled L held P h cs) (n : Nat) :
    ∃ h', h.allocate L n = some (h', (P.allocate n).2) ∧
      Settled L (lend held (P.allocate n).2 n) (P.allocate n).1 h' cs ∧
      ∀ x, Callers L held x → h'.mem.byte x = h.mem.byte x := by
  have ho : Owns L h.mem.byte P h (cs ++ heldCells held h.mem) := hs
  obtain ⟨h', hcall, hnone, hsome⟩ := ho.allocate n
  refine ⟨h', hcall, ?_⟩
  by_cases hp : (P.allocate n).2 = 0
  · obtain ⟨hpool, ho'⟩ := hnone hp
    rw [hp, hpool]
    exact ⟨ho'.settled, fun x hx => hs.callers_eq ho' hx⟩
  · rw [lend_of_ne hp]
    have ho' := hsome hp (.bytes (h'.mem.bytesAt (P.allocate n).2 n)) (by simp) fun i b hi => by
      have hlt := (List.getElem?_eq_some_iff.mp hi).1
      rw [length_bytesAt] at hlt
      rw [bytesAt_getElem? _ _ hlt] at hi
      exact Option.some.inj hi
    have hperm := ho'.perm List.perm_middle.symm
    have hcells : heldCells held h.mem = heldCells held h'.mem := by
      rw [← List.cons_append] at ho'
      exact ho'.heldCells_eq.symm
    refine ⟨?_, fun x hx => Owns.lent_eq hs ho' (List.subset_append_right _ _) (fun c hc => ?_)
      (callers_iff_lent.mp hx)⟩
    · rw [hcells] at hperm
      change Owns L _ _ h' (cs ++ heldCells ((_, n) :: held) h'.mem) at hperm
      exact hperm.settled
    · exact List.mem_cons_of_mem _ (List.mem_append_right _ hc)

theorem Settled.free (hs : Settled L held P h cs) (hp : (p, n) ∈ held) :
    ∃ h' P', h.free L p = some (h', 0) ∧ Settled L (giveBack held p) P' h' cs ∧
      ∀ x, Callers L (giveBack held p) x → h'.mem.byte x = h.mem.byte x := by
  have ho : Owns L h.mem.byte P h (cs ++ heldCells held h.mem) := hs
  have hheld : (heldCells held h.mem).Perm ((p, .bytes (h.mem.bytesAt p n)) :: heldCells (giveBack held p) h.mem) :=
    (perm_giveBack hp hs.held_nodup).map _
  have hperm := ho.perm ((hheld.append_left cs).trans List.perm_middle)
  obtain ⟨h', hcall, ho'⟩ := hperm.free 0 rfl
  rw [List.eraseIdx_cons_zero] at ho'
  exact ⟨h', _, hcall, ho'.settled, fun x hx => Owns.lent_eq hperm ho'
    (fun c hc => List.mem_cons_of_mem _ (List.mem_append_right _ hc)) (List.subset_append_right _ _)
    (callers_iff_lent.mp hx)⟩

/-! ### Writing -/

/-- What is written to a block that is held is nothing to the others, be it past the bytes
that were asked for. -/
theorem Settled.payload (hs : Settled L held P h cs) (hp : (a + headerSize, n) ∈ held) (ha : P.used a = some t)
    (hm : ∀ x, ¬ (a + headerSize ≤ x ∧ x < a + 2 ^ t) → m.byte x = h.mem.byte x) :
    Settled L held P ⟨m, h.currentBrk⟩ cs := by
  have ho : Owns L h.mem.byte P h (cs ++ heldCells held h.mem) := hs
  have hvalid := ho.represents.stands.valid
  have hlow := hvalid.tiling.lower (Or.inl ha)
  -- the owner's cells are in other blocks
  have hcells : ∀ c ∈ cs, c.2.At m c.1 := by
    intro c hc
    have hmem : c ∈ cs ++ heldCells held h.mem := List.mem_append_left _ hc
    obtain ⟨b, u, hb, hbu, hsize⟩ := ho.block c hmem
    have hba : b ≠ a := by
      intro he
      have hnodup := ho.nodup
      rw [List.map_append, List.nodup_append, heldCells_addrs] at hnodup
      exact hnodup.2.2 c.1 (List.mem_map_of_mem hc) (a + headerSize) (List.mem_map_of_mem (f := Prod.fst) hp) (by omega)
    have hsep := hvalid.tiling.separate (Or.inl hbu) (Or.inl ha) hba
    have hup := (ho.bounds hmem).2.1
    have hpM := two_pow_pos' maxBlockScale
    refine (ho.contents c hmem).congr (by omega) fun x h1 h2 => hm x (by omega)
  have hrep : Represents L ⟨m, h.currentBrk⟩ P :=
    ⟨ho.represents.stands.congr_payload ha hm, ho.represents.brk⟩
  refine ⟨hrep, fun c hc => ?_, fun b u hb => ?_, ?_, fun c hc => ?_, fun _ _ => rfl⟩
  · cases List.mem_append.mp hc with
    | inl hc => exact ho.block c (List.mem_append_left _ hc)
    | inr hc =>
      obtain ⟨⟨q, k⟩, hq, rfl⟩ := List.mem_map.mp hc
      simpa using hs.held_block hq
  · obtain ⟨c, hc, he⟩ := ho.used b u hb
    cases List.mem_append.mp hc with
    | inl hc => exact ⟨c, List.mem_append_left _ hc, he⟩
    | inr hc =>
      obtain ⟨⟨q, k⟩, hq, rfl⟩ := List.mem_map.mp hc
      exact ⟨_, List.mem_append_right _ (heldCells_mem hq), he⟩
  · have hnodup := ho.nodup
    rw [List.map_append, heldCells_addrs] at hnodup ⊢
    exact hnodup
  · cases List.mem_append.mp hc with
    | inl hc => exact hcells c hc
    | inr hc =>
      obtain ⟨⟨q, k⟩, hq, rfl⟩ := List.mem_map.mp hc
      intro i b hi
      have hlt := (List.getElem?_eq_some_iff.mp hi).1
      rw [length_bytesAt] at hlt
      rw [bytesAt_getElem? _ _ hlt, Option.some.injEq] at hi
      exact hi

/-- A write to one block leaves the memory of the other callers as it was. -/
theorem Settled.payload_spares (hs : Settled L held P h cs) (ha : P.used a = some t)
    (hx : Callers L (giveBack held (a + headerSize)) x) : ¬ (a + headerSize ≤ x ∧ x < a + 2 ^ t) := by
  have hvalid := (Owns.represents hs).stands.valid
  have hlow := hvalid.tiling.lower (Or.inl ha)
  cases hx with
  | inl hstatic =>
    have hbelow := hstatic.1
    omega
  | inr hx =>
    obtain ⟨q, k, hq, hlo, hhi⟩ := hx
    obtain ⟨hq, hne⟩ := mem_giveBack.mp hq
    obtain ⟨b, u, rfl, hb, hsize⟩ := hs.held_block hq
    have hsep := hvalid.tiling.separate (Or.inl hb) (Or.inl ha) fun he => hne (he ▸ rfl)
    omega

end Lending
end ShompOS
