import ShompOS.Fs.Create

/-! Looking names up.

The loop over an array of records finds the first one of a name. A record whose
name is `NULL` is compared with what lies at address 0, so that what the loop finds
is then not a matter of the names; it still comes to an end. -/
namespace ShompOS
open Memory

section Search
variable {m : Memory} {a name : Nat} {t : List UInt8} {α : Type}

theorem searchName_ends (hname : IsStr m name t) (count i : Nat) :
    ∃ r, Heap.searchName m a name count i = some r ∧ ∀ j, r = some j → i ≤ j ∧ j < i + count := by
  induction count generalizing i with
  | zero => exact ⟨none, rfl, fun j h => nomatch h⟩
  | succ count ih =>
    obtain ⟨d, hd⟩ := strcmp_ends hname (m.word (m.word a i) RamfsFile.name)
    unfold Heap.searchName
    rw [hd, Option.bind_some]
    by_cases hz : d = 0
    · rw [if_pos hz]
      refine ⟨_, rfl, fun j hj => ?_⟩
      cases hj
      omega
    · rw [if_neg hz]
      obtain ⟨r, hr, hrange⟩ := ih (i + 1)
      refine ⟨r, hr, fun j hj => ?_⟩
      have := hrange j hj
      omega

/-- Without a result none of the names is equal. -/
theorem searchName_missing {count i : Nat} (h : Heap.searchName m a name count i = some none) {j : Nat} (hlo : i ≤ j)
    (hhi : j < i + count) : ∃ d, m.strcmp (m.word (m.word a j) RamfsFile.name) name = some d ∧ d ≠ 0 := by
  induction count generalizing i with
  | zero => omega
  | succ count ih =>
    unfold Heap.searchName at h
    obtain ⟨d, hd, h⟩ := Option.bind_eq_some_iff.mp h
    by_cases hz : d = 0
    · rw [if_pos hz] at h
      cases h
    · rw [if_neg hz] at h
      by_cases hij : i = j
      · exact ⟨d, hij ▸ hd, hz⟩
      · exact ih h (by omega) (by omega)

/-- With a name for each the first of them is found. -/
theorem searchName_eq (xs : List α) (addr : α → Nat) (text : α → List UInt8) (i : Nat)
    (hword : ∀ j x, xs[j]? = some x → m.word a (i + j) = addr x)
    (hstr : ∀ x ∈ xs, IsStr m (m.word (addr x) RamfsFile.name) (text x)) (hname : IsStr m name t) :
    Heap.searchName m a name xs.length i = some ((xs.findIdx? fun x => text x = t).map (i + ·)) := by
  induction xs generalizing i with
  | nil => rfl
  | cons x xs ih =>
    have hx := hword 0 x rfl
    rw [Nat.add_zero] at hx
    obtain ⟨d, hd, hiff⟩ := strcmp_eq (hstr x (List.mem_cons_self ..)) hname
    rw [List.length_cons]
    unfold Heap.searchName
    rw [hx, hd, Option.bind_some, List.findIdx?_cons]
    by_cases hz : d = 0
    · rw [if_pos hz, if_pos (decide_eq_true (hiff.mp hz))]
      rfl
    · rw [if_neg hz, if_neg (fun h => hz (hiff.mpr (of_decide_eq_true h))),
        ih (i + 1) (fun j y hj => ?_) fun y hy => hstr y (List.mem_cons_of_mem _ hy), Option.map_map]
      · congr 2
        funext j
        exact Nat.add_right_comm i 1 j
      · rw [show i + 1 + j = i + (j + 1) by omega]
        exact hword (j + 1) y hj

end Search

variable {L : Layout} {S : Nat → UInt8} {P : Pool} {h : Heap} {d : DirNode} {F G cs : List Cell} {p : Nat}

/-- A cell that ends in a 0 holds a string. -/
theorem Owns.isStr (ho : Owns L S P h cs) {text : List UInt8} (hc : (p, .bytes (text ++ [0])) ∈ cs) (htext : 0 ∉ text) :
    IsStr h.mem p text := by
  have hup := (ho.bounds hc).2.1
  have hpM : 1 < 2 ^ maxBlockScale := by decide
  rw [Contents.size_bytes, List.length_append, List.length_singleton] at hup
  refine ⟨fun i c hi => ho.byte_eq hc ?_, ho.byte_eq hc ?_, htext, by omega⟩
  · rw [List.getElem?_append_left (List.getElem?_eq_some_iff.mp hi).1]
    exact hi
  · rw [List.getElem?_append_right (Nat.le_refl _), Nat.sub_self]
    rfl

/-- The words of an array. -/
theorem Owns.array_word (ho : Owns L S P h cs) {array i w : Nat} {entries : List Nat}
    (hsub : arrayCells array entries ⊆ cs) (hi : entries[i]? = some w) : h.word array i = w := by
  have hne : entries ≠ [] := fun hnil => by rw [hnil] at hi; cases hi
  rw [arrayCells_of_ne _ hne] at hsub
  exact ho.word_eq (hsub (List.mem_singleton_self _)) hi

theorem FileNode.mem_cells {f : FileNode} (hf : f ∈ d.fileNodes) : f.cells ⊆ d.cells := fun _ hc =>
  List.mem_cons_of_mem _ (List.mem_append_right _ (List.mem_append_right _ (List.mem_append_right _
    (List.mem_flatMap.mpr ⟨f, hf, hc⟩))))

/-- The files of a directory are found by their names. -/
theorem Owns.searchFile (ho : Owns L S P h cs) (hsub : d.cells ⊆ cs) (hd : d.Valid) {name : Nat} {text : List UInt8}
    (hname : IsStr h.mem name text) :
    Heap.searchName h.mem (h.word d.addr RamfsDir.files) name (h.word d.addr RamfsDir.fileCount) 0 =
      some (d.fileIdx text) := by
  have hrec : (d.addr, Contents.words d.record) ∈ cs := hsub (List.mem_cons_self ..)
  have harr : arrayCells d.files (d.fileNodes.map FileNode.addr) ⊆ cs := fun c hc =>
    hsub (List.mem_cons_of_mem _ (List.mem_append_left _ hc))
  rw [ho.word_eq hrec (i := RamfsDir.files) rfl, ho.word_eq hrec (i := RamfsDir.fileCount) rfl,
    searchName_eq d.fileNodes FileNode.addr FileNode.text 0 (fun j f hj => ?_) (fun f hf => ?_) hname]
  · unfold DirNode.fileIdx
    simp
  · rw [Nat.zero_add]
    exact ho.array_word harr (by rw [List.getElem?_map, hj]; rfl)
  · have hcells : f.cells ⊆ cs := List.Subset.trans (FileNode.mem_cells hf) hsub
    have hptr : h.mem.word f.addr RamfsFile.name = f.name := ho.word_eq (hcells (List.mem_cons_self ..)) rfl
    rw [hptr]
    exact ho.isStr (hcells (List.mem_cons_of_mem _ (List.mem_cons_self ..))) (hd.fileText f hf)

end ShompOS
