import ShompOS.Fs.Failures
import ShompOS.Fs.Orderly

/-! Creating files and directories when memory runs out.

`ramfs_create_file` gives back what it has allocated whichever of its allocations
fails. `ramfs_create_dir` does not look at whether the name was copied, and forgets
the copy if there is no memory for the array. -/
namespace ShompOS
open Memory

namespace Mount
variable {L : Layout} {R : Rodata} {s s' : Mount} {v v' : Volume} {k dir name data size parent : Nat} {d d' : DirNode}
  {new : Option DirNode} {text : List UInt8}

/-- The files that there were still are there, with their bytes. -/
structure KeepsFiles (s s' : Mount) : Prop where
  record : ∀ file, s.heap.Linked s.root file → ∀ k, k < 3 → s'.heap.word file k = s.heap.word file k
  contents : ∀ file, s.heap.Linked s.root file → s'.contents file = s.contents file

theorem Good.keepsFiles (hg : s.Good L R v) (hg' : s'.Good L R v')
    (h : ∀ d ∈ v.dirs, ∀ f ∈ d.fileNodes, ∃ e ∈ v'.dirs, f ∈ e.fileNodes) : s.KeepsFiles s' := by
  have hfile : ∀ file, s.heap.Linked s.root file → ∃ f, f.addr = file ∧ Good.FileAt s f ∧ Good.FileAt s' f := by
    intro file hin
    obtain ⟨d, hd, f, hf, he⟩ := (hg.owns.linked_iff hg.tree).mp hin
    obtain ⟨e, hd', hf'⟩ := h d hd f hf
    exact ⟨f, he, hg.file hd hf, hg'.file hd' hf'⟩
  constructor
  · intro file hin k hk
    obtain ⟨f, rfl, hat, hat'⟩ := hfile file hin
    match k, hk with
    | 0, _ => exact hat'.name.trans hat.name.symm
    | 1, _ => exact hat'.data.trans hat.data.symm
    | 2, _ => exact hat'.size.trans hat.size.symm
  · intro file hin
    obtain ⟨f, rfl, hat, hat'⟩ := hfile file hin
    rw [hat'.contents, hat.contents]

/-! ### One more entry -/

/-- The entries of one of a directory's two arrays. -/
structure HasEntries (s : Mount) (array count dir : Nat) (xs : List Nat) : Prop where
  length : s.heap.word dir count = xs.length
  entry : ∀ i x, xs[i]? = some x → s.heap.word (s.heap.word dir array) i = x

/-- There is one more behind those that there were. -/
structure Appends (s s' : Mount) (array count dir x : Nat) : Prop where
  length : s'.heap.word dir count = s.heap.word dir count + 1
  earlier : ∀ i, i < s.heap.word dir count → s'.heap.word (s'.heap.word dir array) i =
    s.heap.word (s.heap.word dir array) i
  last : s'.heap.word (s'.heap.word dir array) (s.heap.word dir count) = x

theorem HasEntries.appends {array count x : Nat} {xs : List Nat} (h : s.HasEntries array count dir xs)
    (h' : s'.HasEntries array count dir (xs ++ [x])) : s.Appends s' array count dir x := by
  have hcount := h'.length
  rw [List.length_append, ← h.length] at hcount
  refine ⟨hcount, fun i hi => ?_, ?_⟩
  · rw [h.length] at hi
    have hget := List.getElem?_eq_getElem hi
    rw [h.entry i _ hget]
    exact h'.entry i _ ((List.getElem?_append_left hi).trans hget)
  · rw [h.length]
    exact h'.entry _ _ List.getElem?_concat_length

theorem Good.hasEntries_files (hg : s.Good L R v) (hd : d ∈ v.dirs) :
    s.HasEntries RamfsDir.files RamfsDir.fileCount d.addr (d.fileNodes.map FileNode.addr) := by
  refine ⟨(hg.fileCount hd).trans (List.length_map ..).symm, fun i x hi => ?_⟩
  rw [List.getElem?_map] at hi
  obtain ⟨f, hf, rfl⟩ := Option.map_eq_some_iff.mp hi
  exact hg.fileAt hd hf

theorem Good.hasEntries_subdirs (hg : s.Good L R v) (hd : d ∈ v.dirs) :
    s.HasEntries RamfsDir.subdirs RamfsDir.subdirCount d.addr d.subdirNodes :=
  ⟨hg.subdirCount hd, fun _ _ hi => hg.subdirAt hd hi⟩

/-! ### ramfs_create_file -/

/-- Nothing happens, or the file is there behind the others and nothing else is different. -/
theorem Good.createFile_atomic (hg : s.Good L R v) (hp : s.Permits L R (.createFile dir name data size)) :
    ∃ (s' : Mount) (file : Nat), s.call L R (.createFile dir name data size) = some (s', (file : Int)) ∧
      s.KeepsFiles s' ∧
      (file = 0 → s.Untouched s') ∧ (file ≠ 0 → s.Appends s' RamfsDir.files RamfsDir.fileCount dir file) := by
  by_cases hnull : dir = 0 ∨ name = 0 ∨ data = 0
  · refine ⟨s, 0, ?_, hg.keepsFiles hg fun d hd f hf => ⟨d, hd, hf⟩, fun _ => hg.untouched hg rfl rfl rfl rfl,
      fun h => absurd rfl h⟩
    dsimp only [call]
    unfold Heap.ramfsCreateFile
    rw [if_pos hnull]
    rfl
  obtain ⟨hdir, hname, hdata⟩ := hp
  obtain ⟨k, d, hk, rfl⟩ := (hg.dir hdir).resolve_left fun h => hnull (Or.inl h)
  obtain ⟨text, hname⟩ := hname.resolve_left fun h => hnull (Or.inr (Or.inl h))
  have hbuf := (hdata.resolve_left fun h => hnull (Or.inr (Or.inr h))).lent
  have hd := List.mem_of_getElem? hk
  obtain ⟨s', hcall, hg', hcalm⟩ := hg.createFile hk hname (fun h => hnull (Or.inr (Or.inl h))) hbuf
    fun h => hnull (Or.inr (Or.inr h))
  rw [length_bytesAt] at hcall
  have hgrows := Volume.grows_createFile hk text (s.mem.bytesAt data size)
  refine ⟨s', _, hcall, hg.keepsFiles hg' fun x hx f hf => ?_, fun hzero => ?_, fun hne => ?_⟩
  · obtain ⟨y, hy, hwas, -⟩ := hgrows.exists_of hx
    refine ⟨y, hy, ?_⟩
    cases hwas.2 with
    | inl he => exact he ▸ hf
    | inr he =>
      obtain ⟨rfl, he⟩ := he
      rw [he]
      cases DirNode.createFile_cases v.pool x text (s.mem.bytesAt data size) with
      | inl h =>
        rw [h.1]
        exact hf
      | inr h =>
        obtain ⟨g, files, -, -, -, -, hnew⟩ := h
        rw [hnew]
        exact List.mem_append_left _ hf
  · cases DirNode.createFile_cases v.pool d text (s.mem.bytesAt data size) with
    | inl h =>
      refine hg.untouched hg' ?_ rfl rfl hcalm.held
      rw [h.1]
      exact set_same hk
    | inr h =>
      obtain ⟨g, files, hne, -, -, hret, -⟩ := h
      exact absurd (hret.symm.trans hzero) hne
  · cases DirNode.createFile_cases v.pool d text (s.mem.bytesAt data size) with
    | inl h => exact absurd h.2 hne
    | inr h =>
      obtain ⟨g, files, -, -, -, hret, he⟩ := h
      have hlists := hg'.hasEntries_files hgrows.changed
      rw [hgrows.addr, he, List.map_append] at hlists
      rw [hret]
      exact (hg.hasEntries_files hd).appends hlists

/-- A file that is too long is asked for where there is one already. -/
theorem Good.createFile_atomic_refused : ∃ tr s,
    Run (Fresh .kernelImage bootRodata) (Step .kernelImage bootRodata) tr s ∧
    s.heap.word s.root RamfsDir.fileCount = 1 ∧
    ∃ s', s.call .kernelImage bootRodata (.createFile s.root 0x1060 0x100000 0x8000) = some (s', 0) ∧
      s.KeepsFiles s' ∧ s.Untouched s' := by
  have hdec : rehearses (fun root => [.createFile root 0x1050 0x1060 1]) fun tr s =>
      s.answers (.createFile s.root 0x1060 0x100000 0x8000) fun _ r =>
        (∀ x ∈ tr, x.1.KeepsOpen x.2.1 ∧ x.1.Bounded x.2.1) ∧
        (staticText .kernelImage s.mem 64 0x1060).isSome ∧ s.heap.word s.root RamfsDir.fileCount = 1 ∧ r = 0 := by
    decide +kernel
  obtain ⟨tr, s, hrun, hdec⟩ := run_rehearses hdec
  obtain ⟨s₁, r, hcall₁, hdec⟩ := call_of_answers hdec
  obtain ⟨hkeeps, hname, hcount, rfl⟩ := of_decide_eq_true hdec
  obtain ⟨v, hg⟩ := (good_of_run hrun (careful_of_keeps hrun hkeeps)).1
  have hpermits : s.Permits .kernelImage bootRodata (.createFile s.root 0x1060 0x100000 0x8000) :=
    ⟨Or.inr .root, Or.inr (passes_of_static hname), Or.inr (permits_long_write s 0)⟩
  obtain ⟨s', file, hcall, hfiles, hsame, -⟩ := hg.createFile_atomic hpermits
  obtain ⟨rfl, hzero⟩ := Prod.mk.inj (Option.some.inj (hcall.symm.trans hcall₁))
  exact ⟨tr, s, hrun, hcount, s', hcall₁, hfiles, hsame (Int.ofNat_eq_zero.mp hzero)⟩

/-! ### ramfs_create_dir -/

/-- The parent's subdirectories and the allocated blocks are as before. -/
structure KeepsDirs (s s' : Mount) (parent : Nat) : Prop where
  subdirs : s'.heap.word parent RamfsDir.subdirs = s.heap.word parent RamfsDir.subdirs
  count : s'.heap.word parent RamfsDir.subdirCount = s.heap.word parent RamfsDir.subdirCount
  entries : ∀ i, i < s.heap.word parent RamfsDir.subdirCount → s'.heap.subdirAt parent i = s.heap.subdirAt parent i
  blocks : ∀ a, s'.heap.AllocatedBlock a ↔ s.heap.AllocatedBlock a

/-- Nothing happens, or there is one more directory, with its name. -/
def CreatesDir (L : Layout) (R : Rodata) (s : Mount) (parent name : Nat) (text : List UInt8) : Prop :=
  ∃ (s' : Mount) (dir : Nat), s.call L R (.createDir parent name) = some (s', (dir : Int)) ∧
    ((dir = 0 ∧ s.KeepsDirs s' parent) ∨
      (dir ≠ 0 ∧ s.Appends s' RamfsDir.subdirs RamfsDir.subdirCount parent dir ∧ s'.heap.HasName dir text))

/-- If there is memory for the record, then either for both the copy of the name and the
longer array or for none of them. -/
def Provided (L : Layout) (s : Mount) (parent : Nat) (text : List UInt8) : Prop :=
  ∃ record name array, s.heap.served L [RamfsDir.bytes, text.length + 1,
    4 * (s.heap.word parent RamfsDir.subdirCount + 1)] =
    some [record, name, array] ∧ (record = true → name = array)

theorem Good.keepsDirs (hg : s.Good L R v) (hg' : s'.Good L R v') (hd : d ∈ v.dirs) (hdirs : v'.dirs = v.dirs)
    (hfds : v'.fds = v.fds) (hlost : v'.lost = v.lost) (hheld : s'.held = s.held) : s.KeepsDirs s' d.addr := by
  have hsame := hg.untouched hg' hdirs hfds hlost hheld
  have htree := hsame.files.tree
  have hin := hg.inTree hd
  exact ⟨htree.record _ hin RamfsDir.subdirs (by decide), htree.record _ hin RamfsDir.subdirCount (by decide),
    htree.subdirs _ hin, hsame.blocks⟩

/-- A cell that is lost is a block more. -/
theorem Good.not_keepsDirs {c : Cell} (hg : s.Good L R v) (hg' : s'.Good L R v') (hdirs : v'.dirs = v.dirs)
    (hfds : v'.fds = v.fds) (hlost : v'.lost = c :: v.lost) (hheld : s'.held = s.held) : ¬ s.KeepsDirs s' parent := by
  intro h
  have hcells : v'.cells.Perm (c :: v.cells) := by
    unfold Volume.cells
    rw [hdirs, hfds, hlost]
    exact (List.Perm.append_left _ List.perm_middle).trans List.perm_middle
  have hmem : c ∈ v'.cells ++ heldCells s'.held s'.mem :=
    List.mem_append_left _ (hcells.mem_iff.mpr (List.mem_cons_self ..))
  have hnodup := (((hcells.append_right _).map Prod.fst).nodup_iff).mp hg'.owns.nodup
  obtain ⟨a, t, hca, -, -⟩ := hg'.owns.block c hmem
  have hallocated := (h.blocks a).mp ((hg'.owns.allocatedBlock_iff a).mpr (hca ▸ List.mem_map_of_mem hmem))
  rw [hg.owns.allocatedBlock_iff, List.map_append, heldCells_addrs, ← hheld, ← heldCells_addrs s'.held s'.mem,
    ← List.map_append] at hallocated
  exact (List.nodup_cons.mp hnodup).1 (hca ▸ hallocated)

theorem Good.provided_iff (hg : s.Good L R v) (hd : d ∈ v.dirs) (text : List UInt8) : s.Provided L d.addr text ↔
    ((v.pool.allocate RamfsDir.bytes).2 ≠ 0 → (((v.pool.allocate RamfsDir.bytes).1.allocate (text.length + 1)).2 = 0 ↔
      (((v.pool.allocate RamfsDir.bytes).1.allocate (text.length + 1)).1.allocate
        (4 * (d.subdirNodes.length + 1))).2 = 0)) := by
  unfold Provided
  rw [hg.owns.represents.served, hg.subdirCount hd]
  constructor
  · rintro ⟨record, name, array, he, h⟩ hne
    cases he
    have hsame := decide_eq_decide.mp (h (decide_eq_true hne))
    exact not_iff_not.mp hsame
  · intro h
    exact ⟨_, _, _, rfl, fun hne => decide_eq_decide.mpr (not_congr (h (of_decide_eq_true hne)))⟩

theorem Good.createsDir_iff_provided (hg : s.Good L R v) (hk : v.dirs[k]? = some d) (hname : s.Passes L name text)
    (hname0 : name ≠ 0) : s.CreatesDir L R d.addr name text ↔ s.Provided L d.addr text := by
  have hd := List.mem_of_getElem? hk
  obtain ⟨s', hcall, hg', hcalm⟩ := hg.createDir hk hname hname0
  have hcreates : s.CreatesDir L R d.addr name text ↔
      (newDirPtr (d.createDir v.pool text).2.2.1 = 0 ∧ s.KeepsDirs s' d.addr) ∨
        (newDirPtr (d.createDir v.pool text).2.2.1 ≠ 0 ∧
          s.Appends s' RamfsDir.subdirs RamfsDir.subdirCount d.addr (newDirPtr (d.createDir v.pool text).2.2.1) ∧
          s'.heap.HasName (newDirPtr (d.createDir v.pool text).2.2.1) text) := by
    constructor
    · rintro ⟨s₁, dir, h, hwhole⟩
      rw [hcall, Option.some.injEq, Prod.mk.injEq, Nat.cast_inj] at h
      obtain ⟨rfl, rfl⟩ := h
      exact hwhole
    · intro h
      exact ⟨s', _, hcall, h⟩
  rw [hcreates, hg.provided_iff hd]
  obtain ⟨hgrows, -⟩ := Volume.grows_createDir hk text
  have hsubs := hg'.hasEntries_subdirs hgrows.changed
  rw [hgrows.addr, hgrows.subs] at hsubs
  have hdirs := hgrows.dirs
  have hlost : (v.createDir k d text).lost = (d.createDir v.pool text).2.2.2 ++ v.lost := rfl
  have hfds : (v.createDir k d text).fds = v.fds := rfl
  generalize v.createDir k d text = w at *
  unfold DirNode.createDir at *
  generalize v.pool.allocate RamfsDir.bytes = r₁ at *
  obtain ⟨P₁, dir⟩ := r₁
  dsimp only at *
  by_cases hdir0 : dir = 0
  · rw [if_pos hdir0] at *
    refine iff_of_true (Or.inl ⟨rfl, hg.keepsDirs hg' hd ?_ hfds hlost hcalm.held⟩) fun h => absurd hdir0 h
    exact hdirs.trans ((List.append_nil _).trans (set_same hk))
  rw [if_neg hdir0] at *
  generalize P₁.allocate (text.length + 1) = r₂ at *
  obtain ⟨P₂, newName⟩ := r₂
  dsimp only at *
  generalize P₂.allocate (4 * (d.subdirNodes.length + 1)) = r₃ at *
  obtain ⟨P₃, array⟩ := r₃
  dsimp only at *
  by_cases harray0 : array = 0
  · -- the record is given back; if there is a copy of the name, it is lost
    rw [if_pos harray0] at *
    have hsame := hdirs.trans ((List.append_nil _).trans (set_same hk))
    by_cases hnewName0 : newName = 0
    · rw [show nameCells newName text = [] from if_pos hnewName0] at hlost
      exact iff_of_true (Or.inl ⟨rfl, hg.keepsDirs hg' hd hsame hfds hlost hcalm.held⟩) fun _ =>
        iff_of_true hnewName0 harray0
    · rw [show nameCells newName text = [(newName, .bytes (text ++ [0]))] from if_neg hnewName0] at hlost
      refine iff_of_false ?_ fun h => hnewName0 ((h hdir0).mpr harray0)
      rintro (h | h)
      · exact hg.not_keepsDirs hg' hsame hfds hlost hcalm.held h.2
      · exact h.1 rfl
  · rw [if_neg harray0] at *
    have hnew : (⟨dir, newName, text, d.addr, 0, [], 0, []⟩ : DirNode) ∈ w.dirs := by
      rw [hdirs]
      exact List.mem_append_right _ (List.mem_singleton_self _)
    constructor
    · rintro (h | h) _
      · exact absurd h.1 hdir0
      · exact iff_of_false ((hg'.hasName_dir hnew).mp h.2.2).1 harray0
    · intro h
      exact Or.inr ⟨hdir0, (hg.hasEntries_subdirs hd).appends hsubs, (hg'.hasName_dir hnew).mpr
        ⟨fun hz => harray0 ((h hdir0).mp hz), rfl⟩⟩

/-- Creating a directory is all or nothing exactly if nothing is `NULL` and memory for the
record comes with memory for both other blocks or for none, or something is `NULL`. -/
theorem Good.createsDir_iff (hg : s.Good L R v) (hdir : s.Dir parent) (hname : s.Passes L name text) :
    s.CreatesDir L R parent name text ↔ parent = 0 ∨ name = 0 ∨ s.Provided L parent text := by
  by_cases hnull : parent = 0 ∨ name = 0
  · refine iff_of_true ⟨s, 0, ?_, Or.inl ⟨rfl, rfl, rfl, fun _ _ => rfl, fun _ => Iff.rfl⟩⟩ (hnull.imp_right Or.inl)
    dsimp only [call]
    unfold Heap.ramfsCreateDir
    rw [if_pos hnull]
    rfl
  · obtain ⟨k, d, hk, rfl⟩ := (hg.dir hdir).resolve_left fun h => hnull (Or.inl h)
    rw [hg.createsDir_iff_provided hk hname fun h => hnull (Or.inr h)]
    exact ⟨fun h => Or.inr (Or.inr h), fun h => (or_assoc.mpr h).resolve_left hnull⟩

/-- A directory of a short name on a fresh mount. -/
theorem Good.createsDir_iff_first : ∃ s : Mount, s.CreatesDir .kernelImage bootRodata s.root 0x1050 (ascii "a") := by
  have hrun : booted.any fun s => staticText .kernelImage s.mem 64 0x1050 = some (ascii "a") ∧
      s.heap.word s.root RamfsDir.subdirCount = 0 ∧
      s.heap.served .kernelImage [RamfsDir.bytes, 2, 4] = some [true, true, true] := by decide +kernel
  obtain ⟨s, hboot, hrun⟩ := (Option.any_eq_true _ _).mp hrun
  obtain ⟨htext, hcount, hserved⟩ := of_decide_eq_true hrun
  obtain ⟨P, name, hg⟩ := good_of_fresh (fresh_of_booted hboot)
  obtain ⟨hstr, hstatic⟩ := staticText_passes htext
  refine ⟨s, (hg.createsDir_iff (Or.inr .root) ⟨hstr, fun i hi => Or.inl (hstatic i hi)⟩).mpr (Or.inr (Or.inr ?_))⟩
  refine ⟨true, true, true, ?_, fun _ => rfl⟩
  rw [hcount]
  exact hserved

/-- A string that is longer than any block, in static memory. -/
def withLongName (m : Memory) : Memory :=
  {m with byte := fun x => if 0x100000 ≤ x ∧ x < 0x108000 then 0x61 else if x = 0x108000 then 0 else m.byte x}

theorem withLongName_isStr (m : Memory) : IsStr (withLongName m) 0x100000 (List.replicate 0x8000 0x61) := by
  refine ⟨fun i c hi => ?_, ?_, fun h => absurd (List.eq_of_mem_replicate h) (by decide), ?_⟩
  · obtain ⟨hlt, rfl⟩ := List.getElem?_eq_some_iff.mp hi
    rw [List.length_replicate] at hlt
    rw [List.getElem_replicate]
    exact if_pos (by omega)
  · unfold withLongName
    rw [List.length_replicate]
    dsimp only
    rw [if_neg (by omega), if_pos (by omega)]
  · rw [List.length_replicate]
    decide

theorem bootRodata_below {x : Nat} (h : bootRodata.Byte x) : ¬ 0x100000 ≤ x := by
  obtain ⟨lit, hlit, h1, h2⟩ := h
  have hlow : ∀ lit ∈ [(bootRodata.slash, ascii "/"), (bootRodata.devStdin, ascii "/dev/stdin"),
      (bootRodata.devStdout, ascii "/dev/stdout"), (bootRodata.devStderr, ascii "/dev/stderr"), (bootRodata.empty, [])],
      lit.1 + lit.2.length < 0x100000 := by decide
  exact Nat.not_le.mpr (Nat.lt_of_le_of_lt h2 (hlow lit hlit))

/-- Its name cannot be copied, and the directory is created without one. -/
theorem long_name_lost : ¬ ∀ (s : Mount) (v : Volume) (parent name : Nat) (text : List UInt8),
    s.Good .kernelImage bootRodata v → s.Dir parent → s.Passes .kernelImage name text →
      s.CreatesDir .kernelImage bootRodata parent name text := by
  intro hall
  have hrun : booted.any fun s =>
      s.heap.served .kernelImage [RamfsDir.bytes, 0x8001, 4] = some [true, false, true] := by decide +kernel
  obtain ⟨s, hboot, hrun⟩ := (Option.any_eq_true _ _).mp hrun
  have hserved := of_decide_eq_true hrun
  obtain ⟨P, name, hg⟩ := good_of_fresh (fresh_of_booted hboot)
  have hsame : ∀ x, ¬ (0x100000 ≤ x ∧ x ≤ 0x108000) → (withLongName s.mem).byte x = s.mem.byte x := fun x hx =>
    (if_neg (by omega)).trans (if_neg (by omega))
  have hstatic : ∀ x, 0x100000 ≤ x ∧ x ≤ 0x108000 → Layout.kernelImage.Static x := by
    intro x hx
    have hlist : Layout.kernelImage.freeList = 0x300000 := rfl
    unfold Layout.Static Layout.ListByte heapLowerBound
    omega
  have hg₁ : (s.withHeap ⟨withLongName s.mem, s.heap.currentBrk⟩).Good .kernelImage bootRodata
    (emptyVolume P s.root name) :=
    ⟨hg.settled.store fun x hx => hsame x fun hx' => hx (Or.inl (hstatic x hx')), hg.table, hg.valid, hg.tree,
      hg.rodata.congr fun x _ hlit => hsame x fun hx' => bootRodata_below hlit hx'.1⟩
  have hk : (emptyVolume P s.root name).dirs[0]? = some ⟨s.root, name, ascii "/", 0, 0, [], 0, []⟩ := rfl
  have hname : Passes .kernelImage (s.withHeap ⟨withLongName s.mem, s.heap.currentBrk⟩) 0x100000
    (List.replicate 0x8000 0x61) := by
    refine ⟨withLongName_isStr s.mem, fun i hi => Or.inl (hstatic _ ?_)⟩
    rw [List.length_replicate] at hi
    omega
  have hcreates := hall _ _ _ _ _ hg₁ (Or.inr .root) hname
  obtain ⟨record, copy, array, hserved₁, hsame₁⟩ := (hg₁.createsDir_iff_provided hk hname (by decide)).mp hcreates
  rw [hg₁.subdirCount (List.mem_of_getElem? hk), List.length_replicate, hg₁.owns.represents.served,
    ← hg.owns.represents.served] at hserved₁
  have hserved₂ : s.heap.served .kernelImage [RamfsDir.bytes, 0x8001, 4] = some [record, copy, array] := hserved₁
  rw [hserved] at hserved₂
  cases hserved₂
  exact absurd (hsame₁ rfl) (by decide)

end Mount
end ShompOS
