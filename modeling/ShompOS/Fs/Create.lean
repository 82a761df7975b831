import ShompOS.Fs.Volume

/-! Creating files and directories.

What the code does to the heap is what `DirNode.createFile` and
`DirNode.createDir` do to the pool and the directory: each of the allocations may
fail, and what was allocated before it is then given back. Both operations add a
pointer to an array by making a longer copy of it (`Owns.growArray`). -/
namespace ShompOS
open Memory

variable {L : Layout} {S : Nat → UInt8} {P : Pool} {h : Heap} {d : DirNode} {F G : List Cell}

/-- The array of the record `r` is copied to `new`, and `x` is put behind its entries. -/
def Heap.growArray (L : Layout) (h : Heap) (r ia ic new x : Nat) : Option Heap :=
  let copied :=
    if h.word r ia ≠ 0 then
      ((h.memcpy new (h.word r ia) (wrap (h.word r ic * 4))).free L (h.word r ia)).map Prod.fst
    else some h
  copied.map fun h =>
    let h := h.setWord r ia new
    let count := h.word r ic
    let h := h.setWord r ic (wrap (count + 1))
    h.setWord (h.word r ia) count x

theorem Owns.growArray (ia ic : Nat) {new r old x : Nat} {junk record entries : List Nat}
    (ho : Owns L S P h ((new, .words junk) :: (r, .words record) :: (arrayCells old entries ++ G)))
    (hia : record[ia]? = some old) (hic : record[ic]? = some entries.length) (hne : ia ≠ ic)
    (hold : entries = [] → old = 0) (hjunk : junk.length = entries.length + 1) (hx : x < addressSpace) :
    ∃ h', h.growArray L r ia ic new x = some h' ∧ Owns L S (P.freedOrNull old) h'
      ((new, .words (entries ++ [x])) :: (r, .words ((record.set ia new).set ic (entries.length + 1))) :: G) := by
  have hpM := two_pow_pos' maxBlockScale
  have hnew := ho.bounds (List.mem_cons_self ..)
  rw [Contents.size_words] at hnew
  have hiaw := ho.word_eq (List.mem_cons_of_mem _ (List.mem_cons_self ..)) hia
  have hicw := ho.word_eq (List.mem_cons_of_mem _ (List.mem_cons_self ..)) hic
  have hialt := (List.getElem?_eq_some_iff.mp hia).1
  have hiclt := (List.getElem?_eq_some_iff.mp hic).1
  -- the entries are copied, and the old array is given back
  have hcopy : ∃ h' tail, (if h.word r ia ≠ 0 then
      ((h.memcpy new (h.word r ia) (wrap (h.word r ic * 4))).free L (h.word r ia)).map Prod.fst
      else some h) = some h' ∧ Owns L S (P.freedOrNull old) h'
        ((new, .words (entries ++ tail)) :: (r, .words record) :: G) ∧ tail.length = 1 := by
    rw [hiaw, hicw]
    by_cases hnil : entries = []
    · have hzero := hold hnil
      rw [hnil] at hjunk
      refine ⟨h, junk, if_neg (not_not.mpr hzero), ?_, hjunk⟩
      unfold Pool.freedOrNull
      rw [if_pos hzero, hnil]
      rw [hnil] at ho
      exact ho
    · rw [arrayCells_of_ne _ hnil] at ho
      have hmem : (old, Contents.words entries) ∈ (new, .words junk) :: (r, .words record) ::
        ([(old, .words entries)] ++ G) :=
        List.mem_cons_of_mem _ (List.mem_cons_of_mem _ (List.mem_cons_self ..))
      have hold0 := ho.ne_zero hmem
      have hne' : new ≠ old := fun he => ho.fresh _ (List.mem_cons_of_mem _ (List.mem_cons_self ..)) he.symm
      have hcopied := ho.memcpyWords 0 rfl hmem hne' (by omega)
      obtain ⟨h', hfree, hfreed⟩ := hcopied.free 2 rfl
      refine ⟨h', junk.drop entries.length, ?_, ?_, by rw [List.length_drop]; omega⟩
      · rw [if_pos hold0, wrap_eq (by omega), Nat.mul_comm, hfree]
        rfl
      · unfold Pool.freedOrNull
        rw [if_neg hold0]
        exact hfreed
  obtain ⟨h', tail, hcall, ho', htail⟩ := hcopy
  unfold Heap.growArray
  rw [hcall]
  refine ⟨_, rfl, ?_⟩
  obtain ⟨t, rfl⟩ := List.length_eq_one_iff.mp htail
  have ho₁ := ho'.setWord 1 rfl (i := ia) (v := new) hialt (by omega)
  have hcount : (h'.setWord r ia new).word r ic = entries.length := by
    refine ho₁.word_eq (List.mem_of_getElem? (i := 1) rfl) ?_
    rw [List.getElem?_set_ne hne]
    exact hic
  dsimp only
  rw [hcount, wrap_eq (a := entries.length + 1) (by omega)]
  have ho₂ := ho₁.setWord 1 rfl (i := ic) (v := entries.length + 1) (by rw [List.length_set]; exact hiclt) (by omega)
  have harray : ((h'.setWord r ia new).setWord r ic (entries.length + 1)).word r ia = new := by
    refine ho₂.word_eq (List.mem_of_getElem? (i := 1) rfl) ?_
    rw [List.getElem?_set_ne hne.symm, List.getElem?_set_self hialt]
  rw [harray]
  have ho₃ := ho₂.setWord 0 rfl (i := entries.length) (v := x) (by rw [List.length_append]; exact Nat.lt_succ_self _) hx
  rw [List.set_append_right _ _ (Nat.le_refl _), Nat.sub_self] at ho₃
  exact ho₃

/-- A record becomes the last file of a directory. -/
theorem Owns.addFile (hd : d.Valid) {f : FileNode} {new : Nat} {junk : List Nat}
    (ho : Owns L S P h ((new, .words junk) :: (f.cells ++ (d.cells ++ F))))
    (hjunk : junk.length = d.fileNodes.length + 1) :
    ∃ h', h.growArray L d.addr RamfsDir.files RamfsDir.fileCount new f.addr = some h' ∧
      Owns L S (P.freedOrNull d.files) h'
        (DirNode.cells {d with files := new, fileNodes := d.fileNodes ++ [f]} ++ F) := by
  have hpM := two_pow_pos' maxBlockScale
  have hfile := ho.bounds (List.mem_cons_of_mem _ (List.mem_append_left _ (List.mem_cons_self ..)))
  have hgrow : Owns L S P h ((new, .words junk) :: (d.addr, .words d.record) ::
      (arrayCells d.files (d.fileNodes.map FileNode.addr) ++ (f.cells ++
        (arrayCells d.subdirs d.subdirNodes ++
          (nameCells d.name d.text ++ d.fileNodes.flatMap FileNode.cells) ++ F)))) := by
    refine ho.perm ?_
    unfold DirNode.cells
    rw [← Multiset.coe_eq_coe]
    simp only [← Multiset.cons_coe, ← Multiset.coe_add, ← Multiset.singleton_add, List.cons_append]
    abel
  obtain ⟨h', hcall, ho'⟩ := hgrow.growArray RamfsDir.files RamfsDir.fileCount (x := f.addr) rfl
    (by rw [List.length_map]; rfl) (by decide) (fun hnil => hd.files (List.map_eq_nil_iff.mp hnil))
    (by rw [List.length_map]; exact hjunk) (by omega)
  refine ⟨h', hcall, ho'.perm ?_⟩
  have hrecord : (d.record.set RamfsDir.files new).set RamfsDir.fileCount ((d.fileNodes.map FileNode.addr).length + 1) =
      DirNode.record {d with files := new, fileNodes := d.fileNodes ++ [f]} := by
    unfold DirNode.record
    rw [List.length_map, List.length_append]
    rfl
  rw [hrecord]
  unfold DirNode.cells
  dsimp only
  rw [arrayCells_of_ne new (by simp), List.map_append, List.flatMap_append, ← Multiset.coe_eq_coe]
  simp only [List.flatMap_cons, List.flatMap_nil, List.map_cons, List.map_nil, ← Multiset.cons_coe, ← Multiset.coe_add,
    ← Multiset.singleton_add, List.cons_append, List.nil_append, List.append_nil]
  abel

/-- An address becomes the last subdirectory of a directory. -/
theorem Owns.addSubdir (hd : d.Valid) {new x : Nat} {junk : List Nat}
    (ho : Owns L S P h ((new, .words junk) :: (d.cells ++ F))) (hjunk : junk.length = d.subdirNodes.length + 1)
    (hx : x < addressSpace) :
    ∃ h', h.growArray L d.addr RamfsDir.subdirs RamfsDir.subdirCount new x = some h' ∧
      Owns L S (P.freedOrNull d.subdirs) h'
        (DirNode.cells {d with subdirs := new, subdirNodes := d.subdirNodes ++ [x]} ++ F) := by
  have hgrow : Owns L S P h ((new, .words junk) :: (d.addr, .words d.record) ::
      (arrayCells d.subdirs d.subdirNodes ++ (arrayCells d.files (d.fileNodes.map FileNode.addr) ++
        (nameCells d.name d.text ++ d.fileNodes.flatMap FileNode.cells) ++ F))) := by
    refine ho.perm ?_
    unfold DirNode.cells
    rw [← Multiset.coe_eq_coe]
    simp only [← Multiset.cons_coe, ← Multiset.coe_add, ← Multiset.singleton_add, List.cons_append]
    abel
  obtain ⟨h', hcall, ho'⟩ := hgrow.growArray RamfsDir.subdirs RamfsDir.subdirCount rfl rfl
    (by decide) hd.subdirs hjunk hx
  refine ⟨h', hcall, ho'.perm ?_⟩
  have hrecord : (d.record.set RamfsDir.subdirs new).set RamfsDir.subdirCount (d.subdirNodes.length + 1) =
      DirNode.record {d with subdirs := new, subdirNodes := d.subdirNodes ++ [x]} := by
    unfold DirNode.record
    rw [List.length_append]
    rfl
  rw [hrecord]
  unfold DirNode.cells
  dsimp only
  rw [arrayCells_of_ne new (by simp), ← Multiset.coe_eq_coe]
  simp only [← Multiset.cons_coe, ← Multiset.coe_add, ← Multiset.singleton_add, List.cons_append]
  abel

/-! ### ramfs_create_file -/

theorem Owns.ramfsCreateFile (ho : Owns L S P h (d.cells ++ F)) (hd : d.Valid) {name data : Nat}
    {text contents : List UInt8} (hname : LentStr L F h.mem name text) (hdata : LentBytes L F h.mem data contents)
    (hname0 : name ≠ 0) (hdata0 : data ≠ 0) :
    ∃ h', h.ramfsCreateFile L d.addr name data contents.length = some (h', (d.createFile P text contents).2.2) ∧
      Owns L S (d.createFile P text contents).1 h' ((d.createFile P text contents).2.1.cells ++ F) := by
  have hpM := two_pow_pos' maxBlockScale
  have hA : 0 < addressSpace := by decide
  have hdir0 : d.addr ≠ 0 := ho.ne_zero (List.mem_append_left _ (List.mem_cons_self ..))
  have hin : ∀ A : List Cell, F ⊆ A ++ (d.cells ++ F) := fun A c hc =>
    List.mem_append_right _ (List.mem_append_right _ hc)
  have hsub : F ⊆ d.cells ++ F := hin []
  unfold Heap.ramfsCreateFile DirNode.createFile
  rw [if_neg (by omega)]
  -- the record
  obtain ⟨h₁, hcall₁, hzero₁, hnew₁⟩ := ho.allocate RamfsFile.bytes
  rw [hcall₁, Option.bind_some]
  generalize P.allocate RamfsFile.bytes = r₁ at *
  obtain ⟨P₁, file⟩ := r₁
  dsimp only at *
  by_cases hfile0 : file = 0
  · rw [if_pos hfile0, if_pos hfile0]
    exact ⟨h₁, rfl, (hzero₁ hfile0).2⟩
  rw [if_neg hfile0, if_neg hfile0]
  obtain ⟨junk, hjunk, ho₁⟩ := Owns.exists_words (k := 3) (hnew₁ hfile0)
  obtain ⟨w₀, w₁, w₂, rfl⟩ := List.length_eq_three.mp hjunk
  -- the name
  have hsub₁ : F ⊆ (file, .words [w₀, w₁, w₂]) :: (d.cells ++ F) := hin [_]
  have hname₁ := hname.congr ho ho₁ hsub hsub₁
  obtain ⟨h₂, hcall₂, hzero₂, hnew₂⟩ := ho₁.strdup (hname₁.mono hsub₁)
  rw [hcall₂, Option.bind_some]
  generalize P₁.allocate (text.length + 1) = r₂ at *
  obtain ⟨P₂, newName⟩ := r₂
  dsimp only at *
  by_cases hnewName0 : newName = 0
  · rw [if_pos hnewName0, if_pos hnewName0]
    have ho₂ := (hzero₂ hnewName0).2.setWord 0 rfl (i := RamfsFile.name) (v := newName) (Nat.succ_pos 2) (by omega)
    obtain ⟨h₃, hfree, ho₃⟩ := ho₂.free 0 rfl
    rw [hfree]
    exact ⟨h₃, rfl, ho₃⟩
  rw [if_neg hnewName0, if_neg hnewName0]
  have ho₂ := hnew₂ hnewName0
  have hnewName := ho₂.bounds (List.mem_cons_self ..)
  have ho₂' := ho₂.setWord 1 rfl (i := RamfsFile.name) (v := newName) (Nat.succ_pos 2) (by omega)
  -- the data
  obtain ⟨h₃, hcall₃, hzero₃, hnew₃⟩ := ho₂'.allocate (if contents.length = 0 then 1 else contents.length)
  rw [hcall₃, Option.bind_some]
  generalize P₂.allocate (if contents.length = 0 then 1 else contents.length) = r₃ at *
  obtain ⟨P₃, newData⟩ := r₃
  dsimp only at *
  by_cases hnewData0 : newData = 0
  · rw [if_pos hnewData0, if_pos hnewData0]
    have ho₃ := (hzero₃ hnewData0).2.setWord 1 rfl (i := RamfsFile.data) (v := newData)
      (Nat.lt_succ_of_lt (Nat.lt_succ_self 1)) (by omega)
    rw [ho₃.word_eq (List.mem_of_getElem? (i := 1) rfl) (i := RamfsFile.name) rfl]
    obtain ⟨h₄, hfree₄, ho₄⟩ := ho₃.free 0 rfl
    obtain ⟨h₅, hfree₅, ho₅⟩ := ho₄.free 0 rfl
    rw [hfree₄, Option.bind_some]
    dsimp only
    rw [hfree₅]
    exact ⟨h₅, rfl, ho₅⟩
  rw [if_neg hnewData0, if_neg hnewData0]
  have hle : contents.length ≤ if contents.length = 0 then 1 else contents.length := by
    split <;> omega
  obtain ⟨junk, hjunk, ho₃⟩ := Owns.exists_bytes (hnew₃ hnewData0) hle
  have hnewData := ho₃.bounds (List.mem_cons_self ..)
  have ho₃' := ho₃.setWord 2 rfl (i := RamfsFile.data) (v := newData)
    (Nat.lt_succ_of_lt (Nat.lt_succ_self 1)) (by omega)
  rw [ho₃'.word_eq (List.mem_of_getElem? (i := 2) rfl) (i := RamfsFile.data) rfl]
  have hdata₃ := hdata.congr ho ho₃' hsub (hin [_, _, _])
  have ho₄ := ho₃'.memcpyBytes 0 rfl (d := 0) (by omega) hdata₃.bytes hdata.room fun i hi =>
    ho₃'.lent_outside (hin [_, _, _]) (hdata.lent i hi) (List.mem_cons_self ..) fun c hc => ho₃'.fresh c (hin [_, _] hc)
  have hcontents : junk.take 0 ++ contents ++ junk.drop (0 + contents.length) = contents := by
    rw [List.take_zero, List.nil_append, List.drop_eq_nil_of_le (by omega), List.append_nil]
  rw [hcontents, Nat.add_zero] at ho₄
  have hroom := hdata.room
  have ho₅ := ho₄.setWord 2 rfl (i := RamfsFile.size) (v := contents.length) (Nat.lt_succ_self 2) (by omega)
  -- the array
  have hcount := ho₅.word_eq (List.mem_of_getElem? (i := 3) rfl) (i := RamfsDir.fileCount) rfl
  have hfits := ho.array_le d.files (d.fileNodes.map FileNode.addr) fun c hc =>
    List.mem_append_left _ (List.mem_cons_of_mem _ (List.mem_append_left _ hc))
  rw [List.length_map] at hfits
  have hM : 2 ^ maxBlockScale + 4 < addressSpace := by decide
  rw [hcount, wrap_eq (by omega), Nat.mul_comm]
  obtain ⟨h₆, hcall₆, hzero₆, hnew₆⟩ := ho₅.allocate (4 * (d.fileNodes.length + 1))
  rw [hcall₆, Option.bind_some]
  generalize P₃.allocate (4 * (d.fileNodes.length + 1)) = r₆ at *
  obtain ⟨P₄, newFiles⟩ := r₆
  dsimp only at *
  by_cases hnewFiles0 : newFiles = 0
  · rw [if_pos hnewFiles0, if_pos hnewFiles0]
    have ho₆ := (hzero₆ hnewFiles0).2
    obtain ⟨h₇, hfree₇, ho₇⟩ := ho₆.free 0 rfl
    obtain ⟨h₈, hfree₈, ho₈⟩ := ho₇.free 0 rfl
    obtain ⟨h₉, hfree₉, ho₉⟩ := ho₈.free 0 rfl
    rw [ho₆.word_eq (List.mem_of_getElem? (i := 2) rfl) (i := RamfsFile.data) rfl, hfree₇, Option.bind_some]
    dsimp only
    rw [ho₇.word_eq (List.mem_of_getElem? (i := 1) rfl) (i := RamfsFile.name) rfl, hfree₈, Option.bind_some]
    dsimp only
    rw [hfree₉]
    exact ⟨h₉, rfl, ho₉⟩
  rw [if_neg hnewFiles0, if_neg hnewFiles0]
  obtain ⟨junk, hjunk, ho₆⟩ := Owns.exists_words (k := d.fileNodes.length + 1) (hnew₆ hnewFiles0)
  have ho₆' : Owns L S P₄ h₆ ((newFiles, .words junk) ::
      (FileNode.cells ⟨file, newName, newData, text, contents⟩ ++ (d.cells ++ F))) :=
    ho₆.perm (List.Perm.cons _ (List.reverse_perm [_, _, _] |>.symm.append_right _))
  obtain ⟨h₇, hgrown, ho₇⟩ := ho₆'.addFile hd hjunk
  obtain ⟨h₈, hcopied, rfl⟩ := Option.map_eq_some_iff.mp hgrown
  dsimp only
  rw [hcopied]
  exact ⟨_, rfl, ho₇⟩

/-! ### Directories -/

theorem emptyDir_cells (addr name : Nat) (text : List UInt8) (parent : Nat) :
    DirNode.cells ⟨addr, name, text, parent, 0, [], 0, []⟩ =
      (addr, .words [name, parent, 0, 0, 0, 0]) :: nameCells name text := by
  simp [DirNode.cells, DirNode.record, arrayCells]

/-- The record of a directory with nothing in it. -/
theorem Owns.setRecord {record : List Nat} {r name parent : Nat} (ho : Owns L S P h ((r, .words record) :: G))
    (hlen : record.length = 6) (hname : name < addressSpace) (hparent : parent < addressSpace) :
    Owns L S P ((((((h.setWord r RamfsDir.name name).setWord r RamfsDir.parent parent).setWord r
      RamfsDir.files 0).setWord r RamfsDir.fileCount 0).setWord r RamfsDir.subdirs 0).setWord r
      RamfsDir.subdirCount 0) ((r, .words [name, parent, 0, 0, 0, 0]) :: G) := by
  have hA : 0 < addressSpace := by decide
  match record, hlen with
  | [w₀, w₁, w₂, w₃, w₄, w₅], _ =>
    have ho₁ := ho.setWord 0 rfl (i := RamfsDir.name) (v := name) (Nat.succ_pos 5) hname
    have ho₂ := ho₁.setWord 0 rfl (i := RamfsDir.parent) (v := parent) (Nat.le_add_left 2 4) hparent
    have ho₃ := ho₂.setWord 0 rfl (i := RamfsDir.files) (v := 0) (Nat.le_add_left 3 3) hA
    have ho₄ := ho₃.setWord 0 rfl (i := RamfsDir.fileCount) (v := 0) (Nat.le_add_left 4 2) hA
    have ho₅ := ho₄.setWord 0 rfl (i := RamfsDir.subdirs) (v := 0) (Nat.le_add_left 5 1) hA
    exact ho₅.setWord 0 rfl (i := RamfsDir.subdirCount) (v := 0) (Nat.le_refl 6) hA

/-- A name that could not be copied is `NULL`. -/
theorem Owns.strdupName {cs : List Cell} {name : Nat} {text : List UInt8} (ho : Owns L S P h cs)
    (hname : LentStr L cs h.mem name text) :
    ∃ h', h.strdup L name = some (h', (P.allocate (text.length + 1)).2) ∧
      Owns L S (P.allocate (text.length + 1)).1 h' (nameCells (P.allocate (text.length + 1)).2 text ++ cs) ∧
      (P.allocate (text.length + 1)).2 < addressSpace := by
  obtain ⟨h', hcall, hzero, hnew⟩ := ho.strdup hname
  refine ⟨h', hcall, ?_⟩
  unfold nameCells
  by_cases hz : (P.allocate (text.length + 1)).2 = 0
  · rw [if_pos hz, hz, (hzero hz).1]
    exact ⟨(hzero hz).2, by decide⟩
  · rw [if_neg hz]
    have ho' := hnew hz
    have hup := (ho'.bounds (List.mem_cons_self ..)).2.1
    have hpM := two_pow_pos' maxBlockScale
    exact ⟨ho', by omega⟩

/-- `ramfs_create_root` makes an empty directory without a parent. -/
theorem Owns.ramfsCreateRoot {R : Rodata} (ho : Owns L S P h F) (hslash : LentStr L F h.mem R.slash [0x2F])
    (hroot : (P.allocate RamfsDir.bytes).2 ≠ 0) :
    ∃ h', h.ramfsCreateRoot L R = some (h', (P.allocate RamfsDir.bytes).2) ∧
      Owns L S ((P.allocate RamfsDir.bytes).1.allocate 2).1 h'
        (DirNode.cells ⟨(P.allocate RamfsDir.bytes).2, ((P.allocate RamfsDir.bytes).1.allocate 2).2,
          [0x2F], 0, 0, [], 0, []⟩ ++
          F) := by
  obtain ⟨h₁, hcall₁, -, hnew₁⟩ := ho.allocate RamfsDir.bytes
  unfold Heap.ramfsCreateRoot
  rw [hcall₁, Option.bind_some]
  dsimp only
  rw [if_neg hroot]
  generalize P.allocate RamfsDir.bytes = r₁ at *
  obtain ⟨P₁, root⟩ := r₁
  dsimp only at *
  obtain ⟨junk, hjunk, ho₁⟩ := Owns.exists_words (k := 6) (hnew₁ hroot)
  have hsub : F ⊆ (root, .words junk) :: F := List.subset_cons_self _ _
  obtain ⟨h₂, hcall₂, ho₂, hlt⟩ := ho₁.strdupName ((hslash.congr ho ho₁ (List.Subset.refl _) hsub).mono hsub)
  rw [hcall₂]
  have ho₃ : Owns L S (P₁.allocate 2).1 h₂ ((root, .words junk) :: (nameCells (P₁.allocate 2).2 [0x2F] ++ F)) :=
    ho₂.perm List.perm_middle
  rw [emptyDir_cells]
  exact ⟨_, rfl, ho₃.setRecord hjunk hlt (show 0 < addressSpace by decide)⟩

/-- What `ramfs_create_dir` returns. -/
def newDirPtr (new : Option DirNode) : Nat := new.elim 0 DirNode.addr

theorem Owns.ramfsCreateDir (ho : Owns L S P h (d.cells ++ F)) (hd : d.Valid) {name : Nat} {text : List UInt8}
    (hname : LentStr L F h.mem name text) (hname0 : name ≠ 0) :
    ∃ h', h.ramfsCreateDir L d.addr name = some (h', newDirPtr (d.createDir P text).2.2.1) ∧
      Owns L S (d.createDir P text).1 h' ((d.createDir P text).2.1.cells ++
        ((d.createDir P text).2.2.1.elim [] DirNode.cells ++ (d.createDir P text).2.2.2) ++ F) := by
  have hpM := two_pow_pos' maxBlockScale
  have hdir := ho.bounds (List.mem_append_left _ (List.mem_cons_self ..))
  have hdir0 : d.addr ≠ 0 := ho.ne_zero (List.mem_append_left _ (List.mem_cons_self ..))
  have hsub : F ⊆ d.cells ++ F := List.subset_append_right _ _
  have hfits := ho.array_le d.subdirs d.subdirNodes fun c hc =>
    List.mem_append_left _ (List.mem_cons_of_mem _ (List.mem_append_right _ (List.mem_append_left _ hc)))
  have hM : 2 ^ maxBlockScale + 4 < addressSpace := by decide
  unfold Heap.ramfsCreateDir DirNode.createDir
  rw [if_neg (by omega)]
  -- the record
  obtain ⟨h₁, hcall₁, hzero₁, hnew₁⟩ := ho.allocate RamfsDir.bytes
  rw [hcall₁, Option.bind_some]
  generalize P.allocate RamfsDir.bytes = r₁ at *
  obtain ⟨P₁, newDir⟩ := r₁
  dsimp only at *
  by_cases hnewDir0 : newDir = 0
  · rw [if_pos hnewDir0, if_pos hnewDir0]
    refine ⟨h₁, rfl, ?_⟩
    dsimp only [Option.elim_none]
    rw [List.append_nil, List.append_nil]
    exact (hzero₁ hnewDir0).2
  rw [if_neg hnewDir0, if_neg hnewDir0]
  obtain ⟨junk, hjunk, ho₁⟩ := Owns.exists_words (k := 6) (hnew₁ hnewDir0)
  -- the name
  have hsub₁ : F ⊆ (newDir, .words junk) :: (d.cells ++ F) := List.subset_cons_of_subset _ hsub
  obtain ⟨h₂, hcall₂, ho₂, hlt⟩ := ho₁.strdupName ((hname.congr ho ho₁ hsub hsub₁).mono hsub₁)
  rw [hcall₂, Option.bind_some]
  generalize P₁.allocate (text.length + 1) = r₂ at *
  obtain ⟨P₂, newName⟩ := r₂
  dsimp only at *
  have ho₃ : Owns L S P₂ h₂ ((newDir, .words junk) :: (nameCells newName text ++ (d.cells ++ F))) :=
    ho₂.perm List.perm_middle
  have ho₄ := ho₃.setRecord hjunk hlt (by omega : d.addr < addressSpace)
  have ho₅ := ho₄.perm (List.Perm.cons _ (List.perm_append_comm_assoc ..))
  -- the array
  have hcount := ho₅.word_eq (List.mem_of_getElem? (i := 1) rfl) (i := RamfsDir.subdirCount) rfl
  rw [hcount, wrap_eq (by omega), Nat.mul_comm]
  obtain ⟨h₆, hcall₆, hzero₆, hnew₆⟩ := ho₅.allocate (4 * (d.subdirNodes.length + 1))
  rw [hcall₆, Option.bind_some]
  generalize P₂.allocate (4 * (d.subdirNodes.length + 1)) = r₆ at *
  obtain ⟨P₃, newSubdirs⟩ := r₆
  dsimp only at *
  by_cases hnewSubdirs0 : newSubdirs = 0
  · rw [if_pos hnewSubdirs0, if_pos hnewSubdirs0]
    obtain ⟨h₇, hfree₇, ho₇⟩ := (hzero₆ hnewSubdirs0).2.free 0 rfl
    rw [hfree₇]
    refine ⟨h₇, rfl, ?_⟩
    dsimp only [Option.elim_none]
    rw [List.nil_append, List.append_assoc]
    exact ho₇
  rw [if_neg hnewSubdirs0, if_neg hnewSubdirs0]
  obtain ⟨junk', hjunk', ho₆⟩ := Owns.exists_words (k := d.subdirNodes.length + 1) (hnew₆ hnewSubdirs0)
  have hdirlt := ho₆.bounds (List.mem_of_getElem? (i := 1) rfl)
  have ho₆' : Owns L S P₃ h₆ ((newSubdirs, .words junk') ::
      (d.cells ++ ((newDir, .words [newName, d.addr, 0, 0, 0, 0]) :: (nameCells newName text ++ F)))) :=
    ho₆.perm (List.Perm.cons _ List.perm_middle.symm)
  obtain ⟨h₇, hgrown, ho₇⟩ := ho₆'.addSubdir hd hjunk' (x := newDir) (by omega)
  obtain ⟨h₈, hcopied, rfl⟩ := Option.map_eq_some_iff.mp hgrown
  dsimp only
  rw [hcopied]
  refine ⟨_, rfl, ?_⟩
  dsimp only [Option.elim_some]
  rw [emptyDir_cells, List.append_nil, List.append_assoc]
  exact ho₇

end ShompOS
