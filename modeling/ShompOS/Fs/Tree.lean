import ShompOS.Fs.FindDir

/-! The tree below the root.

In memory the directories of the tree are those that the pointers in `subdirs`
arrays lead to from the root, and a file is linked if a directory of the tree has a
pointer to it. In a volume the same is said of a list of directories with their
subdirectories, its shape; most operations leave that alone. -/
namespace ShompOS
open Memory

/-! ### In memory -/

inductive Heap.InTree (h : Heap) (root : Nat) : Nat → Prop
  | root : InTree h root root
  | subdir {dir i : Nat} : InTree h root dir → i < h.word dir RamfsDir.subdirCount →
      InTree h root (h.word (h.word dir RamfsDir.subdirs) i)

/-- A file that a directory of the tree points to. -/
def Heap.Linked (h : Heap) (root file : Nat) : Prop :=
  ∃ dir i, h.InTree root dir ∧ i < h.word dir RamfsDir.fileCount ∧ h.word (h.word dir RamfsDir.files) i = file

/-! ### Shapes -/

inductive Reach (shape : List (Nat × List Nat)) (root : Nat) : Nat → Prop
  | root : Reach shape root root
  | subdir {a b : Nat} {subs : List Nat} : Reach shape root a → (a, subs) ∈ shape → b ∈ subs → Reach shape root b

/-- Every directory is below the root, in one place. -/
structure IsTree (shape : List (Nat × List Nat)) (root : Nat) : Prop where
  rooted : root ∈ shape.map Prod.fst
  closed : ∀ x ∈ shape, ∀ b ∈ x.2, b ∈ shape.map Prod.fst
  reached : ∀ x ∈ shape, Reach shape root x.1
  once : (root :: shape.flatMap Prod.snd).Nodup

section Shapes
variable {shape shape' : List (Nat × List Nat)} {root a b : Nat} {subs : List Nat}

theorem Reach.mono (h : Reach shape root a)
    (hs : ∀ a subs, (a, subs) ∈ shape → ∃ subs', (a, subs') ∈ shape' ∧ subs ⊆ subs') : Reach shape' root a := by
  induction h with
  | root => exact .root
  | subdir _ hx hb ih =>
    obtain ⟨subs', hx', hsub⟩ := hs _ _ hx
    exact ih.subdir hx' (hsub hb)

theorem isTree_singleton (root : Nat) : IsTree [(root, [])] root := by
  refine ⟨List.mem_singleton_self _, fun x hx b hb => ?_, fun x hx => ?_, List.nodup_singleton root⟩
  · rw [List.mem_singleton.mp hx] at hb
    cases hb
  · rw [List.mem_singleton.mp hx]
    exact .root

/-- All the subdirectories and the root are directories. -/
theorem IsTree.mem_of_mem (h : IsTree shape root) (ha : a ∈ root :: shape.flatMap Prod.snd) :
    a ∈ shape.map Prod.fst := by
  cases List.mem_cons.mp ha with
  | inl ha =>
    rw [ha]
    exact h.rooted
  | inr ha =>
    obtain ⟨x, hx, hax⟩ := List.mem_flatMap.mp ha
    exact h.closed x hx a hax

/-- One more directory below one. -/
theorem IsTree.add (h : IsTree shape root) {k new : Nat} (hk : shape[k]? = some (a, subs))
    (hfresh : new ∉ shape.map Prod.fst) :
    IsTree (shape.set k (a, subs ++ [new]) ++ [(new, [])]) root := by
  have hlt := (List.getElem?_eq_some_iff.mp hk).1
  -- what was there still is, with at least the subdirectories it had
  have hgrows : ∀ b subs', (b, subs') ∈ shape →
      ∃ subs'', (b, subs'') ∈ shape.set k (a, subs ++ [new]) ++ [(new, [])] ∧ subs' ⊆ subs'' := by
    intro b subs' hb
    obtain ⟨j, hj⟩ := List.getElem?_of_mem hb
    by_cases hjk : k = j
    · rw [← hjk, hk] at hj
      obtain ⟨rfl, rfl⟩ := Prod.mk.inj (Option.some.inj hj)
      exact ⟨_, List.mem_append_left _ (List.mem_of_getElem? (List.getElem?_set_self hlt)), List.subset_append_left _ _⟩
    · exact ⟨subs', List.mem_append_left _ (List.mem_of_getElem? ((List.getElem?_set_ne hjk).trans hj)),
        List.Subset.refl _⟩
  have haddrs : ∀ b, b ∈ shape.map Prod.fst → b ∈ (shape.set k (a, subs ++ [new]) ++ [(new, [])]).map Prod.fst := by
    intro b hb
    obtain ⟨⟨c, subs'⟩, hc, rfl⟩ := List.mem_map.mp hb
    obtain ⟨subs'', hin, -⟩ := hgrows c subs' hc
    exact List.mem_map.mpr ⟨_, hin, rfl⟩
  have ha : Reach (shape.set k (a, subs ++ [new]) ++ [(new, [])]) root a :=
    (h.reached _ (List.mem_of_getElem? hk)).mono hgrows
  have hnew : (a, subs ++ [new]) ∈ shape.set k (a, subs ++ [new]) ++ [(new, [])] :=
    List.mem_append_left _ (List.mem_of_getElem? (List.getElem?_set_self hlt))
  have hcases : ∀ x ∈ shape.set k (a, subs ++ [new]) ++ [(new, [])], x ∈ shape ∨ x = (a, subs ++ [new]) ∨
    x = (new, []) := by
    intro x hx
    cases List.mem_append.mp hx with
    | inl hx =>
      cases List.mem_or_eq_of_mem_set hx with
      | inl hx => exact Or.inl hx
      | inr hx => exact Or.inr (Or.inl hx)
    | inr hx => exact Or.inr (Or.inr (List.mem_singleton.mp hx))
  refine ⟨haddrs _ h.rooted, fun x hx b hb => ?_, fun x hx => ?_, ?_⟩
  · rcases hcases x hx with hx | rfl | rfl
    · exact haddrs _ (h.closed x hx b hb)
    · cases List.mem_append.mp hb with
      | inl hb => exact haddrs _ (h.closed _ (List.mem_of_getElem? hk) b hb)
      | inr hb =>
        rw [List.mem_singleton.mp hb]
        exact List.mem_map_of_mem (List.mem_append_right _ (List.mem_singleton_self _))
    · cases hb
  · rcases hcases x hx with hx | rfl | rfl
    · exact (h.reached x hx).mono hgrows
    · exact ha
    · exact ha.subdir hnew (List.mem_append_right _ (List.mem_singleton_self _))
  · have hperm : (root :: (shape.set k (a, subs ++ [new]) ++ [(new, [])]).flatMap Prod.snd).Perm
        (new :: root :: shape.flatMap Prod.snd) := by
      have hset := flatMap_set_perm Prod.snd hk (a, subs ++ [new])
      have hold := flatMap_perm Prod.snd hk
      rw [List.flatMap_append, ← Multiset.coe_eq_coe]
      rw [← Multiset.coe_eq_coe] at hset hold
      simp only [← Multiset.coe_add, ← Multiset.cons_coe, ← Multiset.singleton_add, List.flatMap_cons, List.flatMap_nil,
        List.append_nil] at hset hold ⊢
      rw [hset, hold]
      abel
    refine hperm.nodup_iff.mpr (List.nodup_cons.mpr ⟨fun hin => hfresh (h.mem_of_mem hin), h.once⟩)

end Shapes

/-! ### The two agree -/

section Agree
variable {L : Layout} {S : Nat → UInt8} {P : Pool} {h : Heap} {v : Volume} {F : List Cell} {root a : Nat}

theorem Volume.mem_shape_addrs : a ∈ v.shape.map Prod.fst ↔ ∃ d ∈ v.dirs, d.addr = a := by
  unfold shape
  rw [List.map_map, List.mem_map]
  rfl

theorem IsTree.volume_closed (ht : IsTree v.shape root) : v.Closed := fun d hd b hb =>
  Volume.mem_shape_addrs.mp (ht.closed (d.addr, d.subdirNodes) (List.mem_map.mpr ⟨d, hd, rfl⟩) b hb)

/-- The tree in memory is that of the volume. -/
theorem Owns.inTree_iff (ho : Owns L S P h (v.cells ++ F)) (ht : IsTree v.shape root) :
    h.InTree root a ↔ ∃ d ∈ v.dirs, d.addr = a := by
  have hrec : ∀ {d}, d ∈ v.dirs → (d.addr, Contents.words d.record) ∈ v.cells ++ F := fun hd =>
    List.mem_append_left _ (DirNode.mem_cells hd (List.mem_cons_self ..))
  have harr : ∀ {d}, d ∈ v.dirs → arrayCells d.subdirs d.subdirNodes ⊆ v.cells ++ F := fun hd c hc =>
    List.mem_append_left _ (DirNode.mem_cells hd
      (List.mem_cons_of_mem _ (List.mem_append_right _ (List.mem_append_left _ hc))))
  constructor
  · intro h
    induction h with
    | root => exact Volume.mem_shape_addrs.mp ht.rooted
    | subdir _ hi ih =>
      obtain ⟨d, hd, rfl⟩ := ih
      rw [ho.word_eq (hrec hd) (i := RamfsDir.subdirCount) rfl] at hi
      have hget := List.getElem?_eq_getElem hi
      rw [ho.word_eq (hrec hd) (i := RamfsDir.subdirs) rfl, ho.array_word (harr hd) hget]
      exact ht.volume_closed d hd _ (List.getElem_mem hi)
  · rintro ⟨d, hd, rfl⟩
    have hreach := ht.reached (d.addr, d.subdirNodes) (List.mem_map.mpr ⟨d, hd, rfl⟩)
    dsimp only at hreach
    generalize d.addr = a at hreach
    induction hreach with
    | root => exact .root
    | subdir _ hx hb ih =>
      obtain ⟨d, hd, he⟩ := List.mem_map.mp hx
      obtain ⟨rfl, rfl⟩ := Prod.mk.inj he
      obtain ⟨i, hi⟩ := List.getElem?_of_mem hb
      have hlt := (List.getElem?_eq_some_iff.mp hi).1
      have hstep := ih.subdir (i := i) (by rw [ho.word_eq (hrec hd) (i := RamfsDir.subdirCount) rfl]; exact hlt)
      rw [ho.word_eq (hrec hd) (i := RamfsDir.subdirs) rfl, ho.array_word (harr hd) hi] at hstep
      exact hstep

theorem Owns.linked_iff (ho : Owns L S P h (v.cells ++ F)) (ht : IsTree v.shape root) :
    h.Linked root a ↔ ∃ d ∈ v.dirs, ∃ f ∈ d.fileNodes, f.addr = a := by
  have hrec : ∀ {d}, d ∈ v.dirs → (d.addr, Contents.words d.record) ∈ v.cells ++ F := fun hd =>
    List.mem_append_left _ (DirNode.mem_cells hd (List.mem_cons_self ..))
  have harr : ∀ {d}, d ∈ v.dirs → arrayCells d.files (d.fileNodes.map FileNode.addr) ⊆ v.cells ++ F := fun hd c hc =>
    List.mem_append_left _ (DirNode.mem_cells hd (List.mem_cons_of_mem _ (List.mem_append_left _ hc)))
  constructor
  · rintro ⟨dir, i, hdir, hi, rfl⟩
    obtain ⟨d, hd, rfl⟩ := (ho.inTree_iff ht).mp hdir
    rw [ho.word_eq (hrec hd) (i := RamfsDir.fileCount) rfl] at hi
    have hget := List.getElem?_eq_getElem hi
    rw [ho.word_eq (hrec hd) (i := RamfsDir.files) rfl,
      ho.array_word (harr hd) (by rw [List.getElem?_map, hget]; rfl)]
    exact ⟨d, hd, _, List.getElem_mem hi, rfl⟩
  · rintro ⟨d, hd, f, hf, rfl⟩
    obtain ⟨i, hi⟩ := List.getElem?_of_mem hf
    have hlt := (List.getElem?_eq_some_iff.mp hi).1
    refine ⟨d.addr, i, (ho.inTree_iff ht).mpr ⟨d, hd, rfl⟩, ?_, ?_⟩
    · rw [ho.word_eq (hrec hd) (i := RamfsDir.fileCount) rfl]
      exact hlt
    · rw [ho.word_eq (hrec hd) (i := RamfsDir.files) rfl]
      exact ho.array_word (harr hd) (by rw [List.getElem?_map, hi]; rfl)

end Agree
end ShompOS
