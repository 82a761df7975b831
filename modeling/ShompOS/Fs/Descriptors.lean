import ShompOS.Fs.Runs

/-! Descriptors and the files they are for.

A descriptor keeps the address of a file, and deleting a file does not look at the
descriptors. As long as no file is deleted that a descriptor is for, every
descriptor's file is one of a directory of the tree. -/
namespace ShompOS
open Memory

namespace Volume
variable {v v' : Volume} {s : Mount} {c : FsCall} {r : Int} {k j a : Nat} {d : DirNode}

/-- There is a file at `a`. -/
def HasFile (v : Volume) (a : Nat) : Prop := ∃ d ∈ v.dirs, ∃ f ∈ d.fileNodes, f.addr = a

/-- Every descriptor's file is there. -/
def FdsLinked (v : Volume) : Prop := ∀ i e, v.fds i = some e → v.HasFile e.file

/-- With one directory changed the files are those that it still has. -/
theorem HasFile.set (h : v.HasFile a) (hk : v.dirs[k]? = some d) {d' : DirNode} {dirs : List DirNode}
    (hdirs : v.dirs.set k d' ⊆ dirs) (hv' : v'.dirs = dirs)
    (hd' : ∀ f ∈ d.fileNodes, f.addr = a → ∃ g ∈ d'.fileNodes, g.addr = a) : v'.HasFile a := by
  obtain ⟨e, he, f, hf, hfa⟩ := h
  obtain ⟨n, hn⟩ := List.getElem?_of_mem he
  unfold HasFile
  rw [hv']
  by_cases hkn : k = n
  · rw [← hkn, hk, Option.some.injEq] at hn
    obtain ⟨g, hg, hga⟩ := hd' f (hn ▸ hf) hfa
    exact ⟨d', hdirs (List.mem_of_getElem? (List.getElem?_set_self (List.getElem?_eq_some_iff.mp hk).1)), g, hg, hga⟩
  · exact ⟨e, hdirs (List.mem_of_getElem? ((List.getElem?_set_ne hkn).trans hn)), f, hf, hfa⟩

/-- Opening takes a free descriptor for a file that is there, or none. -/
theorem openIn_fds (v : Volume) (P : Pool) (pathCopy : Nat) (hd : d ∈ v.dirs) (name : List UInt8) (flags : Nat) :
    ((v.openIn P pathCopy d name flags).1.fds = v.fds ∧ (v.openIn P pathCopy d name flags).2 < 3) ∨
      ∃ i e, v.HasFile e.file ∧ e.flags = flags ∧ e.position = 0 ∧ v.fds i = none ∧
        (v.openIn P pathCopy d name flags).2 = (i : Nat) ∧
        (v.openIn P pathCopy d name flags).1.fds = Function.update v.fds i (some e) := by
  unfold openIn
  split
  · next f i hf hi =>
    dsimp only
    split
    · exact Or.inl ⟨rfl, (by decide : (-1 : Int) < 3)⟩
    · obtain ⟨j, -, hj⟩ := Option.bind_eq_some_iff.mp hf
      exact Or.inr ⟨i, _, ⟨d, hd, f, List.mem_of_getElem? hj, rfl⟩, rfl,
        rfl, by simpa using List.find?_some hi, rfl, rfl⟩
  · exact Or.inl ⟨rfl, (by decide : (-1 : Int) < 3)⟩

theorem openPath_fds (hd : d ∈ v.dirs) (text : List UInt8) (flags found : Nat) :
    ((v.openPath d text flags found).1.fds = v.fds ∧ (v.openPath d text flags found).2 < 3) ∨
      ∃ i e, v.HasFile e.file ∧ e.flags = flags ∧ e.position = 0 ∧ v.fds i = none ∧
        (v.openPath d text flags found).2 = (i : Nat) ∧
        (v.openPath d text flags found).1.fds = Function.update v.fds i (some e) := by
  cases openPath_cases v d text flags found with
  | inl h =>
    obtain ⟨P, n, hn, h⟩ := h
    rw [h]
    exact Or.inl ⟨rfl, hn⟩
  | inr h =>
    obtain ⟨P, pathCopy, e, name, he, h⟩ := h
    have hdir : e ∈ v.dirs := he.elim (fun he => he ▸ hd) List.mem_of_find?_eq_some
    rw [h]
    exact openIn_fds v P pathCopy hdir name flags

/-- What goes on in an open file leaves all files where they are. -/
theorem HasFile.withOpen (h : v.HasFile a) {fd : Int} {i : Fin maxFds} {f g : FileNode} {e e' : OpenFd} {P : Pool}
    (ho : v.Opens fd k j i d f e) (hg : g.addr = f.addr) : (v.withOpen k j i P g e').HasFile a := by
  refine h.set ho.dir (List.Subset.refl _) (withOpen_dirs ho.dir P g e') fun f' hf' ha => ?_
  have haddrs := DirNode.setFile_addrs ho.file hg
  have hin : a ∈ (d.setFile j g).fileNodes.map FileNode.addr := haddrs ▸ ha ▸ List.mem_map_of_mem hf'
  exact List.mem_map.mp hin

theorem FdsLinked.withOpen (h : v.FdsLinked) {fd : Int} {i : Fin maxFds} {f g : FileNode} {e e' : OpenFd} {P : Pool}
    (ho : v.Opens fd k j i d f e) (hg : g.addr = f.addr)
    (he : e'.file = e.file) : (v.withOpen k j i P g e').FdsLinked := by
  intro n e'' hn
  have hfile : v.HasFile e''.file := by
    unfold Volume.withOpen at hn
    dsimp only at hn
    by_cases hni : n = i
    · rw [hni, Function.update_self, Option.some.injEq] at hn
      rw [← hn, he]
      exact h i e ho.entry
    · rw [Function.update_of_ne hni] at hn
      exact h n e'' hn
  exact hfile.withOpen ho hg

end Volume

namespace Mount
variable {L : Layout} {R : Rodata} {s s' : Mount} {v v' : Volume} {c : FsCall} {r : Int}

/-- The descriptors of the volume are the ones of the table. -/
theorem Good.descriptor (hg : s.Good L R v) {i : Fin maxFds} {e : OpenFd} (hi : v.fds i = some e) :
    s.ramfs.fdTable i = e.addr ∧ e.addr ≠ 0 ∧ s.fileOf e.addr = e.file := by
  have hcell : e.cells i ⊆ v.cells ++ heldCells s.held s.mem :=
    fun x hx => List.mem_append_left _ (OpenFd.mem_cells hi hx)
  refine ⟨?_, hg.owns.ne_zero (hcell (List.mem_singleton_self _)),
    hg.owns.word_eq (hcell (List.mem_singleton_self _)) rfl⟩
  rw [hg.table i, hi]
  rfl

theorem Good.fdsLinked (hg : s.Good L R v) (h : v.FdsLinked) (he : v.Effect s c r v') (hk : s.KeepsOpen c) :
    v'.FdsLinked := by
  cases he with
  | @createFile k d name data size text hd =>
    intro i e hi
    refine (h i e hi).set hd (List.Subset.refl _) rfl fun f hf ha => ?_
    cases DirNode.createFile_cases v.pool d text (s.mem.bytesAt data size) with
    | inl hc =>
      rw [hc.1]
      exact ⟨f, hf, ha⟩
    | inr hc =>
      obtain ⟨g, files, -, -, -, -, hc⟩ := hc
      rw [hc]
      exact ⟨f, List.mem_append_left _ hf, ha⟩
  | @createDir k d name text hd =>
    intro i e hi
    refine (h i e hi).set hd (List.subset_append_left _ _) rfl fun f hf ha => ?_
    cases DirNode.createDir_cases v.pool d text with
    | inl hc =>
      rw [hc.1]
      exact ⟨f, hf, ha⟩
    | inr hc =>
      obtain ⟨dir, name, subdirs, -, -, hc⟩ := hc
      rw [hc]
      exact ⟨f, hf, ha⟩
  | @deleteFile k d name text _ hd _ _ _ _ hdel =>
    intro i e hi
    refine (h i e hi).set hd (List.Subset.refl _) rfl fun f hf ha => ?_
    cases DirNode.deleteFile_cases v.pool d text with
    | inl hc =>
      rw [hc.2]
      exact ⟨f, hf, ha⟩
    | inr hc =>
      obtain ⟨n, g, hn, hg', hc⟩ := hc
      obtain ⟨htable, hne, hfile⟩ := hg.descriptor hi
      have hother : e.file ≠ g.addr := fun heq =>
        hk g.addr (hdel n g hn hg') i (htable.symm ▸ hne) (by rw [htable, hfile, heq])
      rw [hc]
      obtain ⟨m, hm⟩ := List.getElem?_of_mem hf
      refine ⟨f, List.mem_eraseIdx_iff_getElem?.mpr ⟨m, fun hmn => hother ?_, hm⟩, ha⟩
      rw [hmn, hg', Option.some.injEq] at hm
      rw [hm, ha]
  | @openFile d path flags found text hd =>
    intro i e hi
    have hdirs := (Volume.openPath_dirs v d text flags found).1
    have hfile : v.HasFile e.file := by
      cases Volume.openPath_fds hd text flags found with
      | inl hf =>
        rw [hf.1] at hi
        exact h i e hi
      | inr hf =>
        obtain ⟨n, e', hfile, -, -, -, -, hf⟩ := hf
        rw [hf] at hi
        by_cases hni : i = n
        · rw [hni, Function.update_self, Option.some.injEq] at hi
          exact hi ▸ hfile
        · rw [Function.update_of_ne hni] at hi
          exact h i e hi
    unfold Volume.HasFile at *
    rw [hdirs]
    exact hfile
  | read ho => exact h.withOpen ho rfl rfl
  | write ho => exact h.withOpen ho (FileNode.write_same ..).1 (FileNode.write_same ..).2.2.2
  | seek ho => exact h.withOpen ho rfl rfl
  | @close fd fdPtr i e _ hi =>
    intro n e' hn
    unfold Volume.closeFd at hn
    dsimp only at hn
    by_cases hni : n = i
    · rw [hni, Function.update_self] at hn
      cases hn
    · rw [Function.update_of_ne hni] at hn
      exact h n e' hn
  | _ => exact h

/-- No call goes through a descriptor to a file that is gone. -/
theorem Good.lively (hg : s.Good L R v) (h : v.FdsLinked) (c : FsCall) : s.Lively c := by
  intro entry hentry
  have hfd : ∃ fd, s.ramfs.fdEntry fd = some entry := by
    cases c with
    | read => exact ⟨_, (through_read_iff.mp hentry).2⟩
    | write => exact ⟨_, (through_write_iff.mp hentry).2⟩
    | seek => exact ⟨_, hentry⟩
    | _ => cases hentry
  obtain ⟨fd, hfd⟩ := hfd
  obtain ⟨i, e, -, hi, -, hfile⟩ := hg.entry hfd
  rw [hfile]
  exact (hg.owns.linked_iff hg.tree).mpr (h i e hi)

/-- Every descriptor is for a file of the tree. -/
def NoDangling (s : Mount) : Prop := ∀ i, s.ramfs.fdTable i ≠ 0 → s.heap.Linked s.root (s.fileOf (s.ramfs.fdTable i))

theorem Good.noDangling (hg : s.Good L R v) (h : v.FdsLinked) : s.NoDangling := by
  intro i hi
  cases hfds : v.fds i with
  | none =>
    rw [hg.table i, hfds] at hi
    exact absurd rfl hi
  | some e =>
    obtain ⟨htable, -, hfile⟩ := hg.descriptor hfds
    rw [htable, hfile]
    exact (hg.owns.linked_iff hg.tree).mpr (h i e hfds)

/-! ### Runs that can be checked -/

/-- The file that a call deletes, if it deletes one. -/
def victim (s : Mount) : FsCall → Option Nat
  | .deleteFile dir name | .rm dir name =>
    if dir ≠ 0 ∧ name ≠ 0 then
      (Heap.searchName s.mem (s.heap.word dir RamfsDir.files) name (s.heap.word dir RamfsDir.fileCount) 0).join.map
        (s.heap.word (s.heap.word dir RamfsDir.files))
    else none
  | _ => none

theorem deletes_iff {file : Nat} : s.Deletes c file ↔ s.victim c = some file := by
  constructor
  · rintro ⟨dir, name, i, rfl | rfl, hdir, hname, hsearch, rfl⟩
    all_goals
      refine (if_pos ⟨hdir, hname⟩).trans ?_
      rw [hsearch]
      rfl
  · have hdelete : ∀ {dir name}, c = .deleteFile dir name ∨ c = .rm dir name → (if dir ≠ 0 ∧ name ≠ 0 then
        (Heap.searchName s.mem (s.heap.word dir RamfsDir.files) name (s.heap.word dir RamfsDir.fileCount) 0).join.map
          (s.heap.word (s.heap.word dir RamfsDir.files)) else none) = some file → s.Deletes c file := by
      intro dir name hc h
      split at h
      · next hne =>
        obtain ⟨i, hi, rfl⟩ := Option.map_eq_some_iff.mp h
        exact ⟨dir, name, i, hc, hne.1, hne.2, Option.join_eq_some_iff.mp hi, rfl⟩
      · cases h
    intro h
    cases c with
    | deleteFile dir name => exact hdelete (Or.inl rfl) h
    | rm dir filename => exact hdelete (Or.inr rfl) h
    | _ => cases h

instance : Decidable (s.KeepsOpen c) :=
  decidable_of_iff (∀ file ∈ s.victim c, ∀ i, s.ramfs.fdTable i ≠ 0 → s.fileOf (s.ramfs.fdTable i) ≠ file)
    ⟨fun h file hf => h file (deletes_iff.mp hf), fun h file hf => h file (deletes_iff.mpr hf)⟩

instance : Decidable (s.Bounded c) :=
  match c with
  | .write fd buf count => inferInstanceAs (Decidable (∀ entry ∈ s.through (.write fd buf count),
      s.heap.word entry RamfsFd.flags &&& (oWronly ||| oRdwr) ≠ 0 → s.position entry + count < addressSpace))
  | .createFile .. | .createDir .. | .deleteFile .. | .rm .. | .findDir .. | .openFile .. | .read .. | .seek .. | .close ..
  | .store .. => .isTrue trivial

/-- A root without subdirectories is the whole tree. -/
theorem inTree_root {h : Heap} {root dir : Nat} (hcount : h.word root RamfsDir.subdirCount = 0)
    (hdir : h.InTree root dir) :
    dir = root := by
  induction hdir with
  | root => rfl
  | subdir _ hi ih =>
    rw [ih, hcount] at hi
    exact absurd hi (Nat.not_lt_zero _)

theorem not_linked_of_empty {h : Heap} {root file : Nat} (hsubs : h.word root RamfsDir.subdirCount = 0)
    (hfiles : h.word root RamfsDir.fileCount = 0) : ¬ h.Linked root file := by
  rintro ⟨dir, i, hdir, hi, -⟩
  rw [inTree_root hsubs hdir, hfiles] at hi
  exact Nat.not_lt_zero _ hi

/-! ### No descriptor dangles -/

/-- In a run that deletes no open file, and writes nothing past the end of the address
space, every descriptor's file is there in every state. -/
theorem fdsLinked_of_run {tr : List (Mount × (FsCall × Int))} (hrun : Run (Fresh L R) (Step L R) tr s)
    (hkeeps : ∀ x ∈ tr, x.1.KeepsOpen x.2.1 ∧ x.1.Bounded x.2.1) :
    (∃ v, s.Good L R v ∧ v.FdsLinked) ∧ ∀ x ∈ tr, ∃ v, x.1.Good L R v ∧ v.FdsLinked := by
  refine hrun.invariant_of (I := fun s => ∃ v, s.Good L R v ∧ v.FdsLinked)
    (C := fun s e => s.KeepsOpen e.1 ∧ s.Bounded e.1)
    (fun s hs => ?_) (fun s e s' hg hC hstep => ?_) hkeeps
  · obtain ⟨P, name, hg⟩ := good_of_fresh hs
    exact ⟨_, hg, fun i e hi => nomatch hi⟩
  · obtain ⟨v, hg, hl⟩ := hg
    obtain ⟨v', hg', -, -, he⟩ := hg.step hstep.1 (hg.lively hl e.1) hC.2 hstep.2
    exact ⟨v', hg', hg.fdsLinked hl he hC.1⟩

theorem careful_of_keeps {tr : List (Mount × (FsCall × Int))} (hrun : Run (Fresh L R) (Step L R) tr s)
    (hkeeps : ∀ x ∈ tr, x.1.KeepsOpen x.2.1 ∧ x.1.Bounded x.2.1) : ∀ x ∈ tr, Careful x := by
  intro x hx
  obtain ⟨v, hg, hl⟩ := (fdsLinked_of_run hrun hkeeps).2 x hx
  exact ⟨hg.lively hl x.2.1, (hkeeps x hx).2⟩

theorem run_noDangling {tr : List (Mount × (FsCall × Int))} (hrun : Run (Fresh L R) (Step L R) tr s)
    (hkeeps : ∀ x ∈ tr, x.1.KeepsOpen x.2.1 ∧ x.1.Bounded x.2.1) : s.NoDangling ∧ ∀ x ∈ tr, x.1.NoDangling := by
  obtain ⟨⟨v, hg, hl⟩, hall⟩ := fdsLinked_of_run hrun hkeeps
  refine ⟨hg.noDangling hl, fun x hx => ?_⟩
  obtain ⟨v, hg, hl⟩ := hall x hx
  exact hg.noDangling hl

theorem run_noDangling_deleting :
    ∃ tr s, Run (Fresh .kernelImage bootRodata) (Step .kernelImage bootRodata) tr s ∧
      s.ramfs.fdTable 0 ≠ 0 ∧ s.NoDangling ∧
      ∀ x ∈ tr, x.1.NoDangling := by
  have hdec : rehearses (fun root => [.createFile root 0x1050 0x1060 1, .createFile root 0x1060 0x1050 1,
      .openFile root 0x1050 oRdwr, .write 0 0x1010 4, .deleteFile root 0x1060]) (fun tr s =>
        s.ramfs.fdTable 0 ≠ 0 ∧ ∀ x ∈ tr, x.1.KeepsOpen x.2.1 ∧ x.1.Bounded x.2.1) := by decide +kernel
  obtain ⟨tr, s, hrun, hdec⟩ := run_rehearses hdec
  obtain ⟨hopen, hkeeps⟩ := of_decide_eq_true hdec
  exact ⟨tr, s, hrun, hopen, run_noDangling hrun hkeeps⟩

/-- A file is created, opened and deleted. -/
theorem deleted_file_dangles :
    ¬ ∀ tr s, Run (Fresh .kernelImage bootRodata) (Step .kernelImage bootRodata) tr s → s.NoDangling := by
  have hdec : rehearses (fun root => [.createFile root 0x1050 0x1060 1, .openFile root 0x1050 oRdwr,
      .deleteFile root 0x1050]) (fun _ s => s.ramfs.fdTable 0 ≠ 0 ∧ s.heap.word s.root RamfsDir.subdirCount = 0 ∧
        s.heap.word s.root RamfsDir.fileCount = 0) := by decide +kernel
  obtain ⟨tr, s, hrun, hdec⟩ := run_rehearses hdec
  obtain ⟨hopen, hsubs, hfiles⟩ := of_decide_eq_true hdec
  exact fun h => not_linked_of_empty hsubs hfiles (h tr s hrun 0 hopen)

end Mount
end ShompOS
