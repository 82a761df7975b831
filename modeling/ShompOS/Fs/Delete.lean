import ShompOS.Fs.Lookup
import ShompOS.Fs.Parts

/-! Deleting files.

The file's three cells are given back and its pointer is taken out of the array,
which is then copied into a shorter one, if there is memory for that. -/
namespace ShompOS
open Memory

variable {L : Layout} {S : Nat → UInt8} {P : Pool} {h : Heap} {d : DirNode} {F G : List Cell}

/-- The pointers after the `i`-th move one place down. -/
theorem Owns.closeGap {array i : Nat} {entries : List Nat} (ho : Owns L S P h ((array, .words entries) :: G))
    (hi : i < entries.length) :
    Owns L S P (if i < entries.length - 1 then
        h.memmove (wrap (array + 4 * i)) (wrap (array + 4 * (i + 1))) (wrap ((entries.length - i - 1) * 4))
      else h) ((array, .words (entries.eraseIdx i)) :: G) := by
  have hup := ho.bounds (List.mem_cons_self ..)
  have hpM := two_pow_pos' maxBlockScale
  rw [Contents.size_words] at hup
  by_cases hlast : i < entries.length - 1
  · rw [if_pos hlast, wrap_eq (by omega), wrap_eq (by omega), wrap_eq (by omega), Nat.mul_comm _ 4]
    exact ho.memmoveWords 0 rfl (by omega)
  · rw [if_neg hlast]
    refine ho.view 0 rfl ?_ fun j w hj => ?_
    · rw [Contents.size_words, Contents.size_words, List.length_eraseIdx_of_lt hi]
      omega
    · have hlt := (List.getElem?_eq_some_iff.mp hj).1
      rw [List.length_eraseIdx_of_lt hi] at hlt
      rw [List.getElem?_eraseIdx_of_lt (by omega)] at hj
      exact ho.contents _ (List.mem_cons_self ..) j w hj

/-- The array is copied into a shorter one, or given back if nothing is left. -/
theorem Owns.shrinkArray (ia count : Nat) {r array : Nat} {record entries : List Nat}
    (ho : Owns L S P h ((array, .words entries) :: (r, .words record) :: G)) (hia : record[ia]? = some array)
    (hcount : entries.length + 1 = count) :
    ∃ h', (if count > 1 then
        (h.allocate L (wrap ((count - 1) * 4))).bind fun (h, newFiles) =>
          if newFiles ≠ 0 then
            ((h.memcpy newFiles (h.word r ia) (wrap ((count - 1) * 4))).free L (h.word r ia)).map fun (h, _) =>
              h.setWord r ia newFiles
          else some h
        else (h.free L array).map fun (h, _) => h.setWord r ia 0) = some h' ∧
      Owns L S (P.shrunk array count).1 h'
        ((r, .words (record.set ia (P.shrunk array count).2)) ::
          (arrayCells (P.shrunk array count).2 entries ++ G)) := by
  have hup := ho.bounds (List.mem_cons_self ..)
  have hpM := two_pow_pos' maxBlockScale
  have hialt := (List.getElem?_eq_some_iff.mp hia).1
  rw [Contents.size_words] at hup
  have hkeep : record.set ia array = record := by
    apply List.ext_getElem?
    intro j
    by_cases hj : ia = j
    · rw [← hj, List.getElem?_set_self hialt, hia]
    · rw [List.getElem?_set_ne hj]
  unfold Pool.shrunk
  by_cases hmany : count > 1
  · have hnil : entries ≠ [] := fun he => by rw [he] at hcount; simp at hcount; omega
    rw [if_pos hmany, if_pos hmany, show count - 1 = entries.length by omega, wrap_eq (by omega), Nat.mul_comm]
    obtain ⟨h₁, hcall, hzero, hnew⟩ := ho.allocate (4 * entries.length)
    rw [hcall, Option.bind_some]
    generalize P.allocate (4 * entries.length) = r₁ at *
    obtain ⟨P₁, newFiles⟩ := r₁
    dsimp only at *
    by_cases hz : newFiles = 0
    · rw [if_neg (not_not.mpr hz), if_neg (not_not.mpr hz)]
      refine ⟨h₁, rfl, ?_⟩
      rw [hkeep, arrayCells_of_ne _ hnil]
      exact (hzero hz).2.perm (List.Perm.swap ..)
    · rw [if_pos hz, if_pos hz]
      obtain ⟨junk, hjunk, ho₁⟩ := Owns.exists_words (k := entries.length) (hnew hz)
      have hptr := ho₁.word_eq (List.mem_of_getElem? (i := 2) rfl) hia
      have hne : newFiles ≠ array := fun he => ho₁.fresh _ (List.mem_cons_self ..) he.symm
      have ho₂ := ho₁.memcpyWords 0 rfl (List.mem_of_getElem? (i := 1) rfl) hne (by omega)
      rw [List.drop_eq_nil_of_le (by omega), List.append_nil] at ho₂
      obtain ⟨h₃, hfree, ho₃⟩ := ho₂.free 1 rfl
      have hlt := (ho₃.bounds (List.mem_cons_self ..)).2.1
      rw [hptr, hfree]
      refine ⟨_, rfl, ?_⟩
      rw [arrayCells_of_ne _ hnil]
      exact (ho₃.setWord 1 rfl (i := ia) (v := newFiles) hialt (by omega)).perm (List.Perm.swap ..)
  · have hnil : entries = [] := List.length_eq_zero_iff.mp (by omega)
    rw [if_neg hmany, if_neg hmany]
    obtain ⟨h₁, hfree, ho₁⟩ := ho.free 0 rfl
    rw [hfree]
    refine ⟨_, rfl, ?_⟩
    rw [hnil]
    exact ho₁.setWord 0 rfl (i := ia) (v := 0) hialt (by decide)

/-! ### ramfs_delete_file -/

/-- With a file in it a directory has an array of them. -/
theorem DirNode.array_perm {i : Nat} {f : FileNode} (hi : d.fileNodes[i]? = some f) :
    (d.restOfFile i).Perm ((d.files, .words (d.fileNodes.map FileNode.addr)) :: (d.addr, .words d.record) ::
      (arrayCells d.subdirs d.subdirNodes ++ (nameCells d.name d.text ++
        (d.fileNodes.eraseIdx i).flatMap FileNode.cells))) := by
  have hnil : d.fileNodes.map FileNode.addr ≠ [] := fun he => by
    rw [List.map_eq_nil_iff.mp he] at hi
    cases hi
  unfold DirNode.restOfFile
  rw [arrayCells_of_ne _ hnil]
  exact List.Perm.swap ..

theorem Owns.ramfsDeleteFile (ho : Owns L S P h (d.cells ++ F)) (hd : d.Valid) {name : Nat} {text : List UInt8}
    (hname : IsStr h.mem name text) (hname0 : name ≠ 0) :
    ∃ h', h.ramfsDeleteFile L d.addr name = some h' ∧
      Owns L S (d.deleteFile P text).1 h' ((d.deleteFile P text).2.cells ++ F) := by
  have hdir0 : d.addr ≠ 0 := ho.ne_zero (List.mem_append_left _ (List.mem_cons_self ..))
  have hrec : (d.addr, Contents.words d.record) ∈ d.cells ++ F := List.mem_append_left _ (List.mem_cons_self ..)
  have hfiles := ho.word_eq hrec (i := RamfsDir.files) rfl
  have hcount := ho.word_eq hrec (i := RamfsDir.fileCount) rfl
  unfold Heap.ramfsDeleteFile DirNode.deleteFile
  rw [ho.searchFile (List.subset_append_left _ _) hd hname, hfiles, hcount]
  cases hidx : d.fileIdx text with
  | none =>
    rw [Option.bind_some]
    exact ⟨h, ite_self _, ho⟩
  | some i =>
    have hlt := List.findIdx?_eq_some_iff_findIdx_eq.mp hidx
    obtain ⟨f, hf⟩ : ∃ f, d.fileNodes[i]? = some f := ⟨_, List.getElem?_eq_getElem hlt.1⟩
    have ho₀ := ho.perm (((DirNode.cells_perm hf).trans ((DirNode.array_perm hf).append_left _)).append_right F)
    have hfiles0 : d.files ≠ 0 := ho₀.ne_zero (List.mem_of_getElem? (i := 3) rfl)
    have hptr := ho₀.word_eq (List.mem_of_getElem? (i := 3) rfl) (i := i) (by rw [List.getElem?_map, hf]; rfl)
    have hnamePtr := ho₀.word_eq (List.mem_of_getElem? (i := 0) rfl) (i := RamfsFile.name) rfl
    have hdataPtr := ho₀.word_eq (List.mem_of_getElem? (i := 0) rfl) (i := RamfsFile.data) rfl
    rw [if_neg (by omega), Option.bind_some]
    dsimp only
    rw [hf, hptr, hnamePtr, hdataPtr, Option.elim_some]
    unfold DirNode.deleteAt
    -- the three cells of the file
    obtain ⟨h₁, hfree₁, ho₁⟩ := ho₀.free 1 rfl
    obtain ⟨h₂, hfree₂, ho₂⟩ := ho₁.free 1 rfl
    obtain ⟨h₃, hfree₃, ho₃⟩ := ho₂.free 0 rfl
    rw [hfree₁, Option.bind_some]
    dsimp only
    rw [hfree₂, Option.bind_some]
    dsimp only
    rw [hfree₃, Option.bind_some]
    dsimp only
    have ho₃' : Owns L S (((P.freed f.name).freed f.data).freed f.addr) h₃
      ((d.files, .words (d.fileNodes.map FileNode.addr)) :: (d.addr, .words d.record) ::
        ((arrayCells d.subdirs d.subdirNodes ++ (nameCells d.name d.text ++
          (d.fileNodes.eraseIdx i).flatMap FileNode.cells)) ++ F)) := ho₃
    rw [ho₃'.word_eq (List.mem_of_getElem? (i := 1) rfl) (i := RamfsDir.files) rfl,
      ho₃'.word_eq (List.mem_of_getElem? (i := 1) rfl) (i := RamfsDir.fileCount) rfl]
    -- its pointer
    have ho₄ := ho₃'.closeGap (i := i) (by rw [List.length_map]; exact hlt.1)
    rw [List.length_map] at ho₄
    have hlen : ((d.fileNodes.map FileNode.addr).eraseIdx i).length + 1 = d.fileNodes.length := by
      rw [List.length_eraseIdx_of_lt (by rw [List.length_map]; exact hlt.1), List.length_map]
      omega
    obtain ⟨h₅, hcall₅, ho₅⟩ := ho₄.shrinkArray RamfsDir.files d.fileNodes.length rfl hlen
    rw [hcall₅]
    generalize (((P.freed f.name).freed f.data).freed f.addr).shrunk d.files d.fileNodes.length = r at *
    obtain ⟨P', files⟩ := r
    dsimp only at *
    have hcount₅ := ho₅.word_eq (List.mem_of_getElem? (i := 0) rfl) (i := RamfsDir.fileCount) rfl
    have hfits := ho.array_le d.files (d.fileNodes.map FileNode.addr) fun c hc =>
      List.mem_append_left _ (List.mem_cons_of_mem _ (List.mem_append_left _ hc))
    rw [List.length_map] at hfits
    have hM : 2 ^ maxBlockScale + 4 < addressSpace := by decide
    have ho₆ := ho₅.setWord 0 rfl (i := RamfsDir.fileCount) (v := d.fileNodes.length - 1)
      (Nat.le_add_left 4 2) (by omega)
    rw [Option.map_some, hcount₅]
    refine ⟨_, rfl, ho₆.perm ?_⟩
    have hrecord : (d.record.set RamfsDir.files files).set RamfsDir.fileCount (d.fileNodes.length - 1) =
        DirNode.record {d with files := files, fileNodes := d.fileNodes.eraseIdx i} := by
      unfold DirNode.record
      rw [List.length_eraseIdx_of_lt hlt.1]
      rfl
    rw [hrecord, List.eraseIdx_map]
    unfold DirNode.cells
    dsimp only [List.set_cons_zero]
    rw [← Multiset.coe_eq_coe]
    simp only [← Multiset.cons_coe, ← Multiset.coe_add, ← Multiset.singleton_add, List.cons_append]
    abel

end ShompOS
