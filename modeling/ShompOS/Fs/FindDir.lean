import ShompOS.Fs.Lookup
import ShompOS.Fs.Parts

/-! Looking a path up.

`ramfs_find_dir` cuts a copy of the path into names with `strtok`, one at each turn
of its loop, and gives the copy back. What it finds is a directory of the volume or
nothing; where every subdirectory has a name it is the one the names lead to. -/
namespace ShompOS
open Memory

variable {L : Layout} {R : Rodata} {S : Nat → UInt8} {P : Pool} {h : Heap} {v : Volume} {d e : DirNode}
  {F G cs : List Cell} {p : Nat}

/-! ### Directories of a volume -/

theorem DirNode.mem_cells (hd : d ∈ v.dirs) : d.cells ⊆ v.cells := fun _ hc =>
  List.mem_append_left _ (List.mem_flatMap.mpr ⟨d, hd, hc⟩)

/-- The first cells are among all. -/
theorem heads_sublist {α : Type} {addr : α → Nat} (cells : α → List Cell) (h : ∀ x, ∃ o cs, cells x = (addr x, o) :: cs)
    (xs : List α) : (xs.map addr).Sublist ((xs.flatMap cells).map Prod.fst) := by
  induction xs with
  | nil => exact List.Sublist.slnil
  | cons x xs ih =>
    obtain ⟨o, cs, he⟩ := h x
    rw [List.map_cons, List.flatMap_cons, List.map_append, he]
    exact List.Sublist.cons_cons _ (ih.trans (List.sublist_append_right _ _))

/-- Each directory has an address of its own. -/
theorem Owns.dirs_nodup (ho : Owns L S P h (v.cells ++ F)) : (v.dirs.map DirNode.addr).Nodup := by
  refine ho.nodup.sublist ((heads_sublist DirNode.cells (fun d => ⟨_, _, rfl⟩) v.dirs).trans ?_)
  unfold Volume.cells
  rw [List.append_assoc, List.map_append]
  exact List.sublist_append_left _ _

/-- So has each file of a directory. -/
theorem Owns.files_nodup (ho : Owns L S P h (v.cells ++ F)) (hd : d ∈ v.dirs) :
    (d.fileNodes.map FileNode.addr).Nodup := by
  have hfiles : (d.fileNodes.flatMap FileNode.cells).Sublist d.cells := by
    unfold DirNode.cells
    simp only [← List.append_assoc]
    exact (List.sublist_append_right _ _).trans (List.sublist_cons_self _ _)
  refine ho.nodup.sublist ((heads_sublist FileNode.cells (fun f => ⟨_, _, rfl⟩) d.fileNodes).trans (.map _ ?_))
  have hdir : d.cells.Sublist (v.dirs.flatMap DirNode.cells) := by
    rw [List.flatMap_def]
    exact List.sublist_flatten_of_mem (List.mem_map_of_mem hd)
  unfold Volume.cells
  rw [List.append_assoc]
  exact (hfiles.trans hdir).trans (List.sublist_append_left _ _)

theorem Volume.dirAt_eq (hv : (v.dirs.map DirNode.addr).Nodup) (hd : d ∈ v.dirs) : v.dirAt d.addr = some d := by
  unfold dirAt
  cases hfind : v.dirs.find? fun e => e.addr = d.addr with
  | none => exact absurd (decide_eq_true rfl) (List.find?_eq_none.mp hfind d hd)
  | some e =>
    have he : e.addr = d.addr := by simpa using List.find?_some hfind
    rw [List.inj_on_of_nodup_map hv (List.mem_of_find?_eq_some hfind) hd he]

theorem Volume.textAt_eq (hv : (v.dirs.map DirNode.addr).Nodup) (hd : d ∈ v.dirs) : v.textAt d.addr = d.text := by
  unfold textAt
  rw [dirAt_eq hv hd]
  rfl

/-- The subdirectories are found by their names, if all have one. -/
theorem Owns.searchSubdir (ho : Owns L S P h (G ++ (v.cells ++ F))) (hv : (v.dirs.map DirNode.addr).Nodup)
    (hvalid : ∀ d ∈ v.dirs, d.Valid) (hclosed : v.Closed) (hd : d ∈ v.dirs) {name : Nat} {text : List UInt8}
    (hname : IsStr h.mem name text) :
    ∃ r, Heap.searchName h.mem (h.word d.addr RamfsDir.subdirs) name (h.word d.addr RamfsDir.subdirCount) 0 = some r ∧
      (∀ j, r = some j → ∃ a, d.subdirNodes[j]? = some a ∧ h.word (h.word d.addr RamfsDir.subdirs) j = a) ∧
      (v.Named → r = d.subdirNodes.findIdx? fun a => v.textAt a = text) := by
  have hcells : d.cells ⊆ G ++ (v.cells ++ F) := fun c hc =>
    List.mem_append_right _ (List.mem_append_left _ (DirNode.mem_cells hd hc))
  have hrec : (d.addr, Contents.words d.record) ∈ G ++ (v.cells ++ F) := hcells (List.mem_cons_self ..)
  have harr : arrayCells d.subdirs d.subdirNodes ⊆ G ++ (v.cells ++ F) := fun c hc =>
    hcells (List.mem_cons_of_mem _ (List.mem_append_right _ (List.mem_append_left _ hc)))
  rw [ho.word_eq hrec (i := RamfsDir.subdirs) rfl, ho.word_eq hrec (i := RamfsDir.subdirCount) rfl]
  obtain ⟨r, hr, hrange⟩ := searchName_ends hname d.subdirNodes.length 0 (a := d.subdirs)
  refine ⟨r, hr, fun j hj => ?_, fun hnamed => ?_⟩
  · have hlt := hrange j hj
    have hget := List.getElem?_eq_getElem (l := d.subdirNodes) (i := j) (by omega)
    exact ⟨_, hget, ho.array_word harr hget⟩
  · have heq := searchName_eq (m := h.mem) (a := d.subdirs) d.subdirNodes id (fun a => v.textAt a) 0 (fun j a hj => ?_)
      (fun a ha => ?_) hname
    · rw [hr, Option.some.injEq] at heq
      rw [heq]
      simp
    · rw [Nat.zero_add]
      exact ho.array_word harr hj
    · obtain ⟨e, he, rfl⟩ := hclosed d hd a ha
      have hecells : e.cells ⊆ G ++ (v.cells ++ F) := fun c hc =>
        List.mem_append_right _ (List.mem_append_left _ (DirNode.mem_cells he hc))
      have hptr : h.mem.word e.addr RamfsFile.name = e.name := ho.word_eq (hecells (List.mem_cons_self ..)) rfl
      dsimp only [id]
      rw [hptr, Volume.textAt_eq hv he]
      exact ho.isStr (hecells (DirNode.name_mem (hnamed d hd _ ha e he rfl))) (hvalid e he).text

/-! ### The loop -/

/-- What `strtok` has still to cut up: nothing, or a string in the copy of the path. -/
def Pending (m : Memory) (p n last : Nat) (names : List (List UInt8)) : Prop :=
  (last = 0 ∧ names = []) ∨
    ∃ rest, names = tokens 0x2F rest ∧ p ≤ last ∧ last + rest.length < p + n ∧ IsStr m last rest

/-- The current name, and the ones behind it. -/
def AtName (m : Memory) (p n last token : Nat) : List (List UInt8) → Prop
  | [] => token = 0
  | name :: names => token ≠ 0 ∧ IsStr m token name ∧ Pending m p n last names

/-- `strtok` moves on to the next name. -/
theorem Owns.strtokNext {bs : List UInt8} {names : List (List UInt8)} {t last : Nat}
    (ho : Owns L S P h ((p, .bytes bs) :: cs)) (hslash : LentStr L F h.mem R.slash [0x2F]) (hslash0 : R.slash ≠ 0)
    (hlast : Pending h.mem p bs.length (if t ≠ 0 then t else last) names) :
    ∃ m last' token bs', h.mem.strtok last t R.slash = some (m, last', token) ∧ bs'.length = bs.length ∧
      Owns L S P ⟨m, h.currentBrk⟩ ((p, .bytes bs') :: cs) ∧ AtName m p bs.length last' token names := by
  have hp0 := ho.ne_zero (List.mem_cons_self ..)
  cases hlast with
  | inl hend =>
    obtain ⟨hzero, rfl⟩ := hend
    have hgo : t = 0 ∧ last = 0 := by
      by_cases hstr : t = 0
      · rw [if_neg (not_not.mpr hstr)] at hzero
        exact ⟨hstr, hzero⟩
      · rw [if_pos hstr] at hzero
        exact absurd hzero hstr
    refine ⟨h.mem, 0, 0, bs, ?_, rfl, ho, rfl⟩
    unfold strtok
    rw [if_pos hgo]
  | inr hrest =>
    obtain ⟨rest, rfl, hlo, hhi, hstr⟩ := hrest
    cases strtok_next hslash.str hslash0 hstr rfl (by omega) with
    | inl hend =>
      rw [hend.1]
      exact ⟨h.mem, 0, 0, bs, hend.2, rfl, ho, rfl⟩
    | inr hnext =>
      obtain ⟨tok, rest', token, htokens, htoken0, hcases⟩ := hnext
      rw [htokens]
      cases hcases with
      | inl hlast =>
        obtain ⟨rfl, hcall, htok⟩ := hlast
        refine ⟨h.mem, 0, token, bs, hcall, rfl, ho, htoken0, htok, Or.inl ⟨rfl, ?_⟩⟩
        rw [tokens, if_pos (List.dropWhile_nil)]
      | inr hcut =>
        obtain ⟨b, hb, hlen, hcall, htok, hrest'⟩ := hcut
        obtain ⟨k, rfl⟩ := Nat.exists_eq_add_of_le (Nat.le_trans hlo hb)
        have ho' := ho.setByte 0 rfl (i := k) (v := 0) (by omega)
        rw [ho.wrap_lt (List.mem_cons_self ..) (by rw [Contents.size_bytes]; omega)] at ho'
        exact ⟨_, _, token, bs.set k 0, hcall, List.length_set, ho', htoken0, htok,
          Or.inr ⟨rest', rfl, by omega, by omega, hrest'⟩⟩

theorem Volume.walk_cons (hv : (v.dirs.map DirNode.addr).Nodup) (hd : d ∈ v.dirs) (name : List UInt8)
    (names : List (List UInt8)) :
    v.walk d.addr (name :: names) = (d.subdirNodes.find? fun a => v.textAt a = name).elim 0 fun a =>
      v.walk a names := by
  conv_lhs => unfold walk
  rw [dirAt_eq hv hd, Option.bind_some]

/-- Names lead to directories of the volume. -/
theorem Volume.walk_mem (hclosed : v.Closed) (hv : (v.dirs.map DirNode.addr).Nodup) (names : List (List UInt8))
    {d : DirNode} (hd : d ∈ v.dirs) : v.walk d.addr names = 0 ∨ ∃ e ∈ v.dirs, e.addr = v.walk d.addr names := by
  induction names generalizing d with
  | nil => exact Or.inr ⟨d, hd, rfl⟩
  | cons name names ih =>
    rw [walk_cons hv hd]
    cases hfind : d.subdirNodes.find? fun a => v.textAt a = name with
    | none => exact Or.inl rfl
    | some a =>
      obtain ⟨e, he, rfl⟩ := hclosed d hd a (List.mem_of_find?_eq_some hfind)
      exact ih he

theorem Volume.findDir_mem (hclosed : v.Closed) (hv : (v.dirs.map DirNode.addr).Nodup) (hd : d ∈ v.dirs) (P : Pool)
    (text : List UInt8) : v.findDir P d.addr text = 0 ∨ ∃ e ∈ v.dirs, e.addr = v.findDir P d.addr text := by
  unfold findDir
  by_cases h1 : text = [0x2F]
  · rw [if_pos h1]
    exact Or.inr ⟨d, hd, rfl⟩
  rw [if_neg h1]
  by_cases h2 : (P.allocate (text.length + 1)).2 = 0
  · rw [if_pos h2]
    exact Or.inl rfl
  rw [if_neg h2]
  exact walk_mem hclosed hv _ hd

/-- A number of steps down. -/
inductive Volume.Descends (v : Volume) : Nat → DirNode → DirNode → Prop
  | here {d : DirNode} : Descends v 0 d d
  | down {n : Nat} {d e x : DirNode} : e ∈ v.dirs → e.addr ∈ d.subdirNodes → Descends v n e x → Descends v (n + 1) d x

theorem Owns.findDirFrom {n : Nat} (hv : (v.dirs.map DirNode.addr).Nodup) (hvalid : ∀ d ∈ v.dirs, d.Valid)
    (hclosed : v.Closed) (hslash0 : R.slash ≠ 0) (names : List (List UInt8)) {fuel : Nat} {h : Heap} {bs : List UInt8}
    {last token : Nat} {d : DirNode} (hfuel : names.length < fuel) (hn : bs.length = n)
    (ho : Owns L S P h ((p, .bytes bs) :: (v.cells ++ F))) (hslash : LentStr L F h.mem R.slash [0x2F]) (hd : d ∈ v.dirs)
    (hat : AtName h.mem p n last token names) :
    ∃ h' last' r bs', h.findDirFrom R fuel last d.addr token = some (h', last', r) ∧
      Owns L S P h' ((p, .bytes bs') :: (v.cells ++ F)) ∧
      (r = 0 ∨ ∃ e ∈ v.dirs, e.addr = r ∧ v.Descends names.length d e) ∧ (v.Named → r = v.walk d.addr names) := by
  induction names generalizing fuel h bs last token d with
  | nil =>
    obtain ⟨fuel, rfl⟩ := Nat.exists_eq_succ_of_ne_zero (Nat.ne_zero_of_lt hfuel)
    unfold Heap.findDirFrom
    rw [if_pos (show token = 0 from hat)]
    exact ⟨h, last, d.addr, bs, rfl, ho, Or.inr ⟨d, hd, rfl, .here⟩, fun _ => rfl⟩
  | cons name names ih =>
    obtain ⟨fuel, rfl⟩ := Nat.exists_eq_succ_of_ne_zero (Nat.ne_zero_of_lt hfuel)
    obtain ⟨htoken0, hname, hpending⟩ := hat
    rw [List.length_cons] at hfuel
    obtain ⟨r, hr, hget, hnamed⟩ := Owns.searchSubdir (G := [(p, Contents.bytes bs)]) ho hv hvalid hclosed hd hname
    unfold Heap.findDirFrom
    rw [if_neg htoken0, hr, Option.bind_some]
    cases r with
    | none =>
      refine ⟨h, last, 0, bs, rfl, ho, Or.inl rfl, fun hv' => ?_⟩
      rw [Volume.walk_cons hv hd, List.find?_eq_bind_findIdx?_getElem?, ← hnamed hv']
      rfl
    | some j =>
      obtain ⟨a, ha, hword⟩ := hget j rfl
      obtain ⟨e, he, rfl⟩ := hclosed d hd a (List.mem_of_getElem? ha)
      obtain ⟨m, last', token', bs', hcall, hlen, ho', hat'⟩ :=
        ho.strtokNext (t := 0) hslash hslash0 (hn.symm ▸ hpending)
      dsimp only
      rw [hword, hcall, Option.bind_some]
      have hslash' := hslash.congr ho ho' (List.Subset.trans (List.subset_append_right _ _) (List.subset_cons_self _ _))
        (List.Subset.trans (List.subset_append_right _ _) (List.subset_cons_self _ _))
      obtain ⟨h', last'', r, bs'', hfound, ho'', hr'', hwalk⟩ :=
        ih (h := ⟨m, h.currentBrk⟩) (d := e) (Nat.lt_of_succ_lt_succ hfuel) (hlen.trans hn) ho' hslash' he (hn ▸ hat')
      refine ⟨h', last'', r, bs'', hfound, ho'', hr''.imp_right fun ⟨x, hx, hxr, hdown⟩ =>
        ⟨x, hx, hxr, .down he (List.mem_of_getElem? ha) hdown⟩, fun hv' => (hwalk hv').trans ?_⟩
      rw [Volume.walk_cons hv hd, List.find?_eq_bind_findIdx?_getElem?, ← hnamed hv', Option.bind_some, ha]
      rfl

/-! ### ramfs_find_dir -/

theorem tokens_length_le (c : UInt8) (s : List UInt8) : (tokens c s).length ≤ s.length := by
  generalize hn : s.length = n
  induction n using Nat.strong_induction_on generalizing s with
  | _ n ih =>
    cases tokens_cases c s with
    | inl h =>
      rw [h.2]
      exact Nat.zero_le _
    | inr h =>
      obtain ⟨pre, tok, rest, rfl, -, -, htok, -, htokens⟩ := h
      have hpos := List.length_pos_of_ne_nil htok
      simp only [List.length_append] at hn
      have := ih rest.length (by omega) rest rfl
      rw [htokens, List.length_cons]
      omega

theorem Owns.ramfsFindDir (ho : Owns L S P h (v.cells ++ F)) (hvalid : ∀ d ∈ v.dirs, d.Valid) (hclosed : v.Closed)
    (hslash0 : R.slash ≠ 0) (hslash : LentStr L F h.mem R.slash [0x2F]) (hd : d ∈ v.dirs) {path : Nat}
    {text : List UInt8}
    (hpath0 : path ≠ 0) (hpath : LentStr L F h.mem path text) (last : Nat) :
    ∃ h' last' r, h.ramfsFindDir L R last d.addr path = some (h', last', r) ∧
      Owns L S (Volume.findDirPool P text) h' (v.cells ++ F) ∧
      (r = 0 ∨ ∃ e ∈ v.dirs, e.addr = r ∧ v.Descends (tokens 0x2F text).length d e) ∧
      (v.Named → r = v.findDir P d.addr text) := by
  have hv := ho.dirs_nodup
  have hdir0 : d.addr ≠ 0 := ho.ne_zero (List.mem_append_left _ (DirNode.mem_cells hd (List.mem_cons_self ..)))
  have hsub : F ⊆ v.cells ++ F := List.subset_append_right _ _
  obtain ⟨z, hz, hiff⟩ := strcmp_eq hpath.str hslash.str
  unfold Heap.ramfsFindDir Volume.findDirPool Volume.findDir
  rw [if_neg (by omega), hz, Option.bind_some]
  by_cases hroot : text = [0x2F]
  · rw [if_pos (hiff.mpr hroot), if_pos hroot, if_pos hroot, hroot, tokens_cons, tokens]
    exact ⟨h, last, d.addr, rfl, ho, Or.inr ⟨d, hd, rfl, .here⟩, fun _ => rfl⟩
  rw [if_neg (fun h0 => hroot (hiff.mp h0)), if_neg hroot, if_neg hroot]
  obtain ⟨h₁, hcall₁, hzero₁, hnew₁⟩ := ho.strdup (hpath.mono hsub)
  rw [hcall₁, Option.bind_some]
  unfold Pool.borrowed
  generalize P.allocate (text.length + 1) = r₁ at *
  obtain ⟨P₁, pathCopy⟩ := r₁
  dsimp only at *
  by_cases hcopy0 : pathCopy = 0
  · rw [if_pos hcopy0, if_pos hcopy0, if_pos hcopy0]
    exact ⟨h₁, last, 0, rfl, (hzero₁ hcopy0).2, Or.inl rfl, fun _ => rfl⟩
  rw [if_neg hcopy0, if_neg hcopy0, if_neg hcopy0]
  have ho₁ := hnew₁ hcopy0
  have hsub₁ : F ⊆ (pathCopy, .bytes (text ++ [0])) :: (v.cells ++ F) := List.subset_cons_of_subset _ hsub
  have hslash₁ := hslash.congr ho ho₁ hsub hsub₁
  have hstr := ho₁.isStr (List.mem_cons_self ..) hpath.str.text
  have hpending : Pending h₁.mem pathCopy (text ++ [0]).length (if pathCopy ≠ 0 then pathCopy else last)
    (tokens 0x2F text) := by
    rw [if_pos hcopy0]
    refine Or.inr ⟨text, rfl, Nat.le_refl _, ?_, hstr⟩
    rw [List.length_append]
    exact Nat.add_lt_add_left Nat.one_pos _
  obtain ⟨m, last', token, bs, hcall₂, hlen, ho₂, hat⟩ := ho₁.strtokNext hslash₁ hslash0 hpending
  rw [hcall₂, Option.bind_some]
  dsimp only
  have hfuel : (tokens 0x2F text).length < addressSpace := by
    have hroom := hpath.str.room
    have := tokens_length_le 0x2F text
    omega
  obtain ⟨h₃, last'', r, bs', hcall₃, ho₃, hr, hwalk⟩ :=
    ho₂.findDirFrom (h := ⟨m, h₁.currentBrk⟩) hv hvalid hclosed hslash0 _ hfuel hlen (hslash₁.congr ho₁ ho₂ hsub₁
      (List.subset_cons_of_subset _ hsub)) hd hat
  obtain ⟨h₄, hfree, ho₄⟩ := ho₃.free 0 rfl
  rw [hcall₃, Option.bind_some]
  dsimp only
  rw [hfree]
  exact ⟨h₄, last'', r, rfl, ho₄, hr, hwalk⟩

end ShompOS
