import ShompOS.Fs.FindDir

/-! Opening files.

The path is copied, and cut at its first slash: the part before that is looked up
as a path of its own, the rest is the name of a file. A descriptor is a new cell,
and the first free place of `fd_table` points to it. -/
namespace ShompOS
open Memory

variable {L : Layout} {R : Rodata} {S : Nat → UInt8} {P : Pool} {s : Ramfs} {v : Volume} {d : DirNode} {F : List Cell}

/-- `fd_table` points to the descriptors. -/
def Volume.Table (v : Volume) (fdTable : Fin maxFds → Nat) : Prop := ∀ i, fdTable i = (v.fds i).elim 0 OpenFd.addr

theorem OpenFd.mem_cells {i : Fin maxFds} {e : OpenFd} (hi : v.fds i = some e) : e.cells i ⊆ v.cells := fun c hc =>
  List.mem_append_right _ (List.mem_append_left _ (List.mem_flatMap.mpr ⟨i, List.mem_finRange i, by
    unfold fdCells
    rw [hi]
    exact hc⟩))

/-- The places of the table that are 0 are the free ones. -/
theorem Volume.Table.eq_zero_iff {t : Fin maxFds → Nat} (ht : v.Table t) {h : Heap} {cs : List Cell}
    (ho : Owns L S P h cs)
    (hsub : v.cells ⊆ cs) (i : Fin maxFds) : t i = 0 ↔ v.fds i = none := by
  rw [ht i]
  cases hi : v.fds i with
  | none => exact ⟨fun _ => rfl, fun _ => rfl⟩
  | some e =>
    have hne := ho.ne_zero (hsub (OpenFd.mem_cells hi (List.mem_cons_self ..)))
    exact ⟨fun h0 => absurd h0 hne, fun h0 => nomatch h0⟩

theorem Owns.openIn {pathCopy filename flags : Nat} {bs name : List UInt8}
    (ho : Owns L S P s.heap ((pathCopy, .bytes bs) :: (v.cells ++ F))) (ht : v.Table s.fdTable)
    (hvalid : ∀ d ∈ v.dirs, d.Valid) (hd : d ∈ v.dirs) (hname : IsStr s.heap.mem filename name)
    (hflags : flags < addressSpace) :
    ∃ s', s.openIn L d.addr filename pathCopy flags = some (s', (v.openIn P pathCopy d name flags).2) ∧
      Owns L S (v.openIn P pathCopy d name flags).1.pool s'.heap ((v.openIn P pathCopy d name flags).1.cells ++ F) ∧
      (v.openIn P pathCopy d name flags).1.Table s'.fdTable := by
  have hcells : d.cells ⊆ (pathCopy, .bytes bs) :: (v.cells ++ F) := fun c hc =>
    List.mem_cons_of_mem _ (List.mem_append_left _ (DirNode.mem_cells hd hc))
  have hsub : v.cells ⊆ (pathCopy, .bytes bs) :: (v.cells ++ F) := fun c hc =>
    List.mem_cons_of_mem _ (List.mem_append_left _ hc)
  have hfree : (List.finRange maxFds).find? (fun i => s.fdTable i = 0) = v.firstFree := by
    unfold Volume.firstFree
    congr 1
    funext i
    rw [Bool.eq_iff_iff, decide_eq_true_iff, Option.isNone_iff_eq_none]
    exact ht.eq_zero_iff ho hsub i
  -- the copy of the path is given back
  have hgive : ∀ {P : Pool} {h : Heap}, Owns L S P h ((pathCopy, .bytes bs) :: (v.cells ++ F)) →
      ∃ h', h.free L pathCopy = some (h', 0) ∧ Owns L S (P.freed pathCopy) h' (v.cells ++ F) := fun ho => ho.free 0 rfl
  have hno : ∃ s', (s.heap.free L pathCopy).map (fun r => (({s with heap := r.1} : Ramfs), (-1 : Int))) =
    some (s', -1) ∧
      Owns L S (P.freed pathCopy) s'.heap (v.cells ++ F) ∧ v.Table s'.fdTable := by
    obtain ⟨h', hcall, ho'⟩ := hgive ho
    rw [hcall]
    exact ⟨_, rfl, ho', ht⟩
  unfold Ramfs.openIn Volume.openIn
  rw [ho.searchFile hcells (hvalid d hd) hname, Option.bind_some, hfree]
  cases hidx : d.fileIdx name with
  | none => exact hno
  | some j =>
    have hlt := (List.findIdx?_eq_some_iff_findIdx_eq.mp hidx).1
    obtain ⟨f, hf⟩ : ∃ f, d.fileNodes[j]? = some f := ⟨_, List.getElem?_eq_getElem hlt⟩
    rw [Option.bind_some, hf]
    cases hfirst : v.firstFree with
    | none => exact hno
    | some i =>
      dsimp only
      have hi : v.fds i = none := by simpa using List.find?_some hfirst
      have hnil : d.fileNodes.map FileNode.addr ≠ [] := fun he => by
        rw [List.map_eq_nil_iff.mp he] at hf
        cases hf
      have hfile : s.heap.word (s.heap.word d.addr RamfsDir.files) j = f.addr := by
        rw [ho.word_eq (hcells (List.mem_cons_self ..)) (i := RamfsDir.files) rfl]
        refine ho.word_eq (hcells (List.mem_cons_of_mem _ (List.mem_append_left _ ?_)))
          (by rw [List.getElem?_map, hf]; rfl)
        rw [arrayCells_of_ne _ hnil]
        exact List.mem_singleton_self _
      have hflt := ho.bounds (hcells (FileNode.mem_cells (List.mem_of_getElem? hf) (List.mem_cons_self ..)))
      have hpM := two_pow_pos' maxBlockScale
      rw [hfile]
      obtain ⟨h₁, hcall, hzero, hnew⟩ := ho.allocate RamfsFd.bytes
      rw [hcall, Option.bind_some]
      generalize P.allocate RamfsFd.bytes = r₁ at *
      obtain ⟨P₁, fdEntry⟩ := r₁
      dsimp only at *
      by_cases hz : fdEntry = 0
      · rw [if_pos hz, if_pos hz]
        obtain ⟨h₂, hfree₂, ho₂⟩ := hgive (hzero hz).2
        rw [hfree₂]
        exact ⟨_, rfl, ho₂, ht⟩
      · rw [if_neg hz, if_neg hz]
        obtain ⟨junk, hjunk, ho₁⟩ := Owns.exists_words (k := 4) (hnew hz)
        match junk, hjunk with
        | [w₀, w₁, w₂, w₃], _ =>
          have hilt := i.isLt
          have hA : maxFds < addressSpace := by decide
          have ho₂ := ho₁.setWord 0 rfl (i := RamfsFd.fd) (v := i) (Nat.succ_pos 3) (by omega)
          have ho₃ := ho₂.setWord 0 rfl (i := RamfsFd.file) (v := f.addr) (Nat.le_add_left 2 2) (by omega)
          have ho₄ := ho₃.setWord 0 rfl (i := RamfsFd.position) (v := 0) (Nat.le_add_left 3 1) (by omega)
          have ho₅ := ho₄.setWord 0 rfl (i := RamfsFd.flags) (v := flags) (Nat.le_refl 4) hflags
          obtain ⟨h₆, hfree₆, ho₆⟩ := ho₅.free 1 rfl
          rw [hfree₆]
          refine ⟨_, rfl, ho₆.perm ((Volume.withFd_perm hi _
            ⟨fdEntry, f.addr, 0, flags⟩).symm.append_right F), fun k => ?_⟩
          dsimp only
          by_cases hk : k = i
          · rw [hk, Function.update_self, Function.update_self]
            rfl
          · rw [Function.update_of_ne hk, Function.update_of_ne hk]
            exact ht k

/-- A text with a slash in it is cut in two. -/
theorem Volume.cut_path {text : List UInt8} (h : 0x2F ∈ text) :
    text = dirname text ++ 0x2F :: filename text ∧ text.idxOf 0x2F = (dirname text).length ∧ 0x2F ∉ dirname text := by
  obtain ⟨pre, rest, rfl, hpre⟩ := List.eq_append_cons_of_mem h
  have hne : ∀ x ∈ pre, decide (x ≠ 0x2F) = true := fun x hx => decide_eq_true fun he => hpre (he ▸ hx)
  have hdir : dirname (pre ++ 0x2F :: rest) = pre := by
    unfold dirname
    rw [List.takeWhile_append_of_pos hne, List.takeWhile_cons_of_neg (by simp), List.append_nil]
  have hfile : filename (pre ++ 0x2F :: rest) = rest := by
    unfold filename
    rw [List.dropWhile_append_of_pos hne, List.dropWhile_cons_of_neg (by simp), List.tail_cons]
  rw [hdir, hfile]
  refine ⟨rfl, ?_, hpre⟩
  rw [List.idxOf_append_of_notMem hpre, List.idxOf_cons_self, Nat.add_zero]

/-- The copy of a path is cut in two, and both parts are lent with it. -/
theorem Owns.cutCopy {h : Heap} {copy : Nat} {text : List UInt8}
    (ho : Owns L S P h ((copy, .bytes (text ++ [0])) :: (v.cells ++ F))) (hstr : IsStr h.mem copy text)
    (hslash : 0x2F ∈ text) :
    ∃ bs, Owns L S P (h.setByte (copy + (Volume.dirname text).length) 0) (v.cells ++ ((copy, .bytes bs) :: F)) ∧
      LentStr L ((copy, .bytes bs) :: F) (h.setByte (copy + (Volume.dirname text).length) 0).mem copy
        (Volume.dirname text) ∧
      LentStr L ((copy, .bytes bs) :: F) (h.setByte (copy + (Volume.dirname text).length) 0).mem
        (copy + (Volume.dirname text).length + 1) (Volume.filename text) := by
  have hroom := hstr.room
  obtain ⟨htext, -, -⟩ := Volume.cut_path hslash
  have hlen : text.length = (Volume.dirname text).length + (Volume.filename text).length + 1 := by
    conv_lhs => rw [htext]
    rw [List.length_append, List.length_cons]
    omega
  rw [htext] at hstr
  obtain ⟨hdirStr, hfileStr⟩ :
      IsStr (h.setByte (copy + (Volume.dirname text).length) 0).mem copy (Volume.dirname text) ∧
        IsStr (h.setByte (copy + (Volume.dirname text).length) 0).mem (copy + (Volume.dirname text).length + 1)
          (Volume.filename text) := hstr.cut
  have ho' := ho.setByte 0 rfl (i := (Volume.dirname text).length) (v := 0) (by rw [List.length_append]; omega)
  rw [wrap_eq (by omega)] at ho'
  generalize hbs : (text ++ [0]).set (Volume.dirname text).length (.ofNat 0) = bs at ho'
  have hbsLen : bs.length = text.length + 1 := by
    rw [← hbs, List.length_set, List.length_append]
    rfl
  have hlent : ∀ i, i < text.length + 1 → Lent L ((copy, .bytes bs) :: F) (copy + i) := fun i hi =>
    Or.inr ⟨copy, bs, List.mem_cons_self .., by omega, by omega⟩
  refine ⟨bs, ho'.perm List.perm_middle.symm, ⟨hdirStr, fun i hi => hlent i (by omega)⟩, hfileStr, fun i hi => ?_⟩
  rw [Nat.add_assoc, Nat.add_assoc]
  exact hlent _ (by omega)

theorem Owns.ramfsOpen {path flags : Nat} {text : List UInt8} (ho : Owns L S v.pool s.heap (v.cells ++ F))
    (ht : v.Table s.fdTable) (hvalid : ∀ d ∈ v.dirs, d.Valid) (hclosed : v.Closed) (hR : R.Holds L s.heap.mem)
    (hd : d ∈ v.dirs) (hpath0 : path ≠ 0) (hpath : LentStr L F s.heap.mem path text) (hflags : flags < addressSpace) :
    ∃ s' found, s.ramfsOpen L R d.addr path flags = some (s', (v.openPath d text flags found).2) ∧
      Owns L S (v.openPath d text flags found).1.pool s'.heap ((v.openPath d text flags found).1.cells ++ F) ∧
      (v.openPath d text flags found).1.Table s'.fdTable ∧ (found = 0 ∨ ∃ e ∈ v.dirs, e.addr = found) ∧
      (v.Named → found = v.findDir (v.pool.allocate (text.length + 1)).1 d.addr (Volume.dirname text)) := by
  have hdir0 : d.addr ≠ 0 := ho.ne_zero (List.mem_append_left _ (DirNode.mem_cells hd (List.mem_cons_self ..)))
  obtain ⟨z₀, hz₀, hiff₀⟩ := strcmp_eq hpath.str hR.devStdin.str
  obtain ⟨z₁, hz₁, hiff₁⟩ := strcmp_eq hpath.str hR.devStdout.str
  obtain ⟨z₂, hz₂, hiff₂⟩ := strcmp_eq hpath.str hR.devStderr.str
  have hsub : F ⊆ v.cells ++ F := List.subset_append_right _ _
  have hfound := Volume.findDir_mem hclosed ho.dirs_nodup hd (v.pool.allocate (text.length + 1)).1 (Volume.dirname text)
  have hskip : ∀ (out : Nat → Volume × Int) {r : Option (Ramfs × Int)}, (∀ found, ∃ s', r = some (s', (out found).2) ∧
      Owns L S (out found).1.pool s'.heap ((out found).1.cells ++ F) ∧ (out found).1.Table s'.fdTable) →
      ∃ s' found, r = some (s', (out found).2) ∧ Owns L S (out found).1.pool s'.heap ((out found).1.cells ++ F) ∧
        (out found).1.Table s'.fdTable ∧ (found = 0 ∨ ∃ e ∈ v.dirs, e.addr = found) ∧
        (v.Named → found = v.findDir (v.pool.allocate (text.length + 1)).1 d.addr (Volume.dirname text)) :=
          fun out r hall => by
    obtain ⟨s', h1, h2, h3⟩ := hall (v.findDir (v.pool.allocate (text.length + 1)).1 d.addr (Volume.dirname text))
    exact ⟨s', _, h1, h2, h3, hfound, fun _ => rfl⟩
  unfold Ramfs.ramfsOpen Volume.openPath
  by_cases hnil : text = []
  · rw [if_pos (Or.inr (Or.inr (hpath.str.byte_eq_zero_iff.mpr hnil)))]
    simp only [if_pos hnil]
    exact hskip (fun _ => (v, -1)) fun _ => ⟨s, rfl, ho, ht⟩
  have hgo : ¬ (d.addr = 0 ∨ path = 0 ∨ s.heap.mem.byte path = 0) := by
    rw [hpath.str.byte_eq_zero_iff]
    simp only [hdir0, hpath0, hnil, or_self, not_false_eq_true]
  rw [if_neg hgo, hz₀, Option.bind_some]
  simp only [if_neg hnil]
  by_cases h0 : text = ascii "/dev/stdin"
  · rw [if_pos (hiff₀.mpr h0)]
    simp only [if_pos h0]
    exact hskip (fun _ => (v, 0)) fun _ => ⟨s, rfl, ho, ht⟩
  rw [if_neg (fun h => h0 (hiff₀.mp h)), hz₁, Option.bind_some]
  simp only [if_neg h0]
  by_cases h1 : text = ascii "/dev/stdout"
  · rw [if_pos (hiff₁.mpr h1)]
    simp only [if_pos h1]
    exact hskip (fun _ => (v, 1)) fun _ => ⟨s, rfl, ho, ht⟩
  rw [if_neg (fun h => h1 (hiff₁.mp h)), hz₂, Option.bind_some]
  simp only [if_neg h1]
  by_cases h2 : text = ascii "/dev/stderr"
  · rw [if_pos (hiff₂.mpr h2)]
    simp only [if_pos h2]
    exact hskip (fun _ => (v, 2)) fun _ => ⟨s, rfl, ho, ht⟩
  rw [if_neg (fun h => h2 (hiff₂.mp h))]
  simp only [if_neg h2]
  obtain ⟨h₁, hcall₁, hzero₁, hnew₁⟩ := ho.strdup (hpath.mono hsub)
  rw [hcall₁, Option.bind_some]
  generalize v.pool.allocate (text.length + 1) = r₁ at *
  obtain ⟨P₁, pathCopy⟩ := r₁
  dsimp only at *
  by_cases hcopy0 : pathCopy = 0
  · rw [if_pos hcopy0]
    simp only [if_pos hcopy0]
    exact hskip (fun _ => (v, -1)) fun _ => ⟨_, rfl, (hzero₁ hcopy0).2, ht⟩
  rw [if_neg hcopy0]
  simp only [if_neg hcopy0]
  have ho₁ := hnew₁ hcopy0
  have hstr := ho₁.isStr (List.mem_cons_self ..) hpath.str.text
  rw [strchr_eq hstr (by decide), Option.bind_some]
  by_cases hslash : 0x2F ∈ text
  · obtain ⟨-, hidx, -⟩ := Volume.cut_path hslash
    rw [if_pos hslash, hidx, if_neg (by omega)]
    simp only [if_neg (not_not.mpr hslash)]
    obtain ⟨bs, ho₂, hdirLent, hfileLent⟩ := ho₁.cutCopy hstr hslash
    have hroom := hfileLent.str.room
    rw [strlen_eq hdirLent.str, Option.bind_some, wrap_eq (by omega)]
    by_cases hdirNil : Volume.dirname text = []
    · simp only [if_pos hdirNil]
      rw [if_neg (by rw [hdirNil]; exact Nat.lt_irrefl 0)]
      exact hskip (fun _ => v.openIn P₁ pathCopy d (Volume.filename text) flags) fun _ =>
        Owns.openIn (s := {s with heap := h₁.setByte (pathCopy + (Volume.dirname text).length) 0})
          (ho₂.perm List.perm_middle) ht hvalid hd hfileLent.str hflags
    · simp only [if_neg hdirNil]
      rw [if_pos (List.length_pos_of_ne_nil hdirNil)]
      -- the first part is looked up
      have hsub₂ : F ⊆ v.cells ++ ((pathCopy, .bytes bs) :: F) := fun c hc =>
        List.mem_append_right _ (List.mem_cons_of_mem _ hc)
      obtain ⟨h₃, last, found, hcall₃, ho₃, hmem, hnamed⟩ := ho₂.ramfsFindDir hvalid hclosed hR.slash.ne_zero
        (((hR.slash.lent F).congr ho ho₂ hsub hsub₂).mono (List.subset_cons_self _ _)) hd hcopy0 hdirLent s.last
      have hfile₃ := hfileLent.congr ho₂ ho₃ (List.subset_append_right _ _) (List.subset_append_right _ _)
      have ho₄ : Owns L S _ h₃ ((pathCopy, .bytes bs) :: (v.cells ++ F)) := ho₃.perm List.perm_middle
      rw [hcall₃, Option.bind_some]
      dsimp only
      by_cases hfound0 : found = 0
      · rw [if_pos hfound0]
        obtain ⟨h₅, hfree, ho₅⟩ := ho₄.free 0 rfl
        have hnone : v.dirAt found = none := by
          apply List.find?_eq_none.mpr
          intro e he hp
          exact ho.ne_zero (List.mem_append_left _ (DirNode.mem_cells he (List.mem_cons_self ..)))
            ((of_decide_eq_true hp).trans hfound0)
        rw [hfree]
        refine ⟨{s with heap := h₅, last := last}, found, ?_, ?_, ?_, Or.inl hfound0, hnamed⟩ <;> rw [hnone]
        · rfl
        · exact ho₅
        · exact ht
      · rw [if_neg hfound0]
        obtain ⟨e, he, rfl, -⟩ := hmem.resolve_left hfound0
        obtain ⟨s', h1, h2, h3⟩ := Owns.openIn
          (s := {s with heap := h₃, last := last}) ho₄ ht hvalid he hfile₃.str hflags
        refine ⟨s', e.addr, ?_, ?_, ?_, Or.inr ⟨e, he, rfl⟩, hnamed⟩ <;> rw [Volume.dirAt_eq ho.dirs_nodup he]
        · exact h1
        · exact h2
        · exact h3
  · rw [if_neg hslash]
    simp only [if_pos hslash, if_true]
    exact hskip (fun _ => v.openIn P₁ pathCopy d text flags) fun _ =>
      Owns.openIn (s := {s with heap := h₁}) ho₁ ht hvalid hd hstr hflags

end ShompOS
