import ShompOS.Fs.Failures
import ShompOS.Fs.Names

/-! Every block of the file system has one owner.

A pointer that owns a block stands in one of nine places: the root, an entry of an
array of subdirectories or of files, the other three pointers of a directory, the
name and the data of a file, and an entry of `fd_table`. As long as nothing has been
lost the places and their pointers are, in another order, the cells of the volume,
of which no two are at one address. -/
namespace ShompOS
open Memory

/-! ### In memory -/

inductive Place
  | root
  | subdir (dir i : Nat)
  | dirName (dir : Nat)
  | files (dir : Nat)
  | subdirs (dir : Nat)
  | file (dir i : Nat)
  | fileName (dir i : Nat)
  | fileData (dir i : Nat)
  | fd (i : Fin maxFds)

namespace Mount

/-- The pointer at a place. -/
def pointer (s : Mount) : Place → Nat
  | .root => s.root
  | .subdir dir i => s.heap.subdirAt dir i
  | .dirName dir => s.heap.word dir RamfsDir.name
  | .files dir => s.heap.word dir RamfsDir.files
  | .subdirs dir => s.heap.word dir RamfsDir.subdirs
  | .file dir i => s.heap.fileAt dir i
  | .fileName dir i => s.heap.word (s.heap.fileAt dir i) RamfsFile.name
  | .fileData dir i => s.heap.word (s.heap.fileAt dir i) RamfsFile.data
  | .fd i => s.ramfs.fdTable i

/-- The file system has the place. -/
def Has (s : Mount) : Place → Prop
  | .root | .fd _ => True
  | .subdir dir i => s.heap.InTree s.root dir ∧ i < s.heap.word dir RamfsDir.subdirCount
  | .dirName dir | .files dir | .subdirs dir => s.heap.InTree s.root dir
  | .file dir i | .fileName dir i | .fileData dir i => s.heap.InTree s.root dir ∧ i < s.heap.word dir RamfsDir.fileCount

/-- A block that is allocated, and not by the callers. -/
def OwnBlock (s : Mount) (p : Nat) : Prop := p ∉ s.held.map Prod.fst ∧ ∃ a, a + headerSize = p ∧ s.heap.AllocatedBlock a

structure OneOwner (s : Mount) : Prop where
  blocks : ∀ p, s.OwnBlock p ↔ p ≠ 0 ∧ ∃ x, s.Has x ∧ s.pointer x = p
  once : ∀ x y, s.Has x → s.Has y → s.pointer x ≠ 0 → s.pointer x = s.pointer y → x = y
  capacity : ∀ dir i, s.Has (.file dir i) → s.heap.word (s.heap.fileAt dir i) RamfsFile.size + headerSize ≤
    2 ^ s.mem.scale (s.pointer (.fileData dir i) - headerSize)

/-- The call does not close a descriptor, and if it is to make a directory it does. -/
def Keeps : FsCall × Int → Prop
  | (.close .., _) => False
  | (.createDir parent name, r) => parent = 0 ∨ name = 0 ∨ r ≠ 0
  | _ => True

instance : DecidablePred Keeps := fun x => by
  unfold Keeps
  split <;> infer_instance

/-- Nor does it delete a file that is open or write past the end of the address space. -/
def Tidy (x : Mount × (FsCall × Int)) : Prop := x.1.KeepsOpen x.2.1 ∧ x.1.Bounded x.2.1 ∧ Keeps x.2

instance : DecidablePred Tidy := fun _ => inferInstanceAs (Decidable (_ ∧ _))

end Mount

/-! ### In a volume -/

section Places
variable {L : Layout} {R : Rodata} {S : Nat → UInt8} {P : Pool} {h : Heap} {F : List Cell} {v : Volume} {d : DirNode}

namespace DirNode

def subdirPlaces (d : DirNode) : List (Place × Nat) := d.subdirNodes.zipIdx.map fun x => (.subdir d.addr x.2, x.1)

def filePlaces (d : DirNode) : List (Place × Nat) :=
  d.fileNodes.zipIdx.flatMap fun x =>
    [(.file d.addr x.2, x.1.addr), (.fileName d.addr x.2, x.1.name), (.fileData d.addr x.2, x.1.data)]

def fieldPlaces (d : DirNode) : List (Place × Nat) :=
  [(.files d.addr, d.files), (.subdirs d.addr, d.subdirs), (.dirName d.addr, d.name)].filter (·.2 ≠ 0)

/-- The addresses of the cells below a directory's own. -/
def below (d : DirNode) : List Nat :=
  (arrayCells d.files (d.fileNodes.map FileNode.addr) ++ (arrayCells d.subdirs d.subdirNodes ++
    (nameCells d.name d.text ++ d.fileNodes.flatMap FileNode.cells))).map Prod.fst

theorem subdirPlaces_pointers (d : DirNode) : d.subdirPlaces.map Prod.snd = d.subdirNodes := by
  unfold subdirPlaces
  rw [List.map_map]
  exact List.zipIdx_map_fst 0 d.subdirNodes

theorem filePlaces_pointers (d : DirNode) :
    d.filePlaces.map Prod.snd = d.fileNodes.flatMap fun f => [f.addr, f.name, f.data] := by
  unfold filePlaces
  rw [List.map_flatMap]
  conv_rhs => rw [← List.zipIdx_map_fst 0 d.fileNodes, List.flatMap_map]
  rfl

/-- An array is there if it is not empty. -/
theorem arrayCells_pointers {array : Nat} {entries : List Nat} (h : entries = [] ↔ array = 0) :
    (arrayCells array entries).map Prod.fst = if array = 0 then [] else [array] := by
  unfold arrayCells
  by_cases h0 : array = 0
  · rw [if_pos h0, if_pos (h.mpr h0)]
    rfl
  · rw [if_neg h0, if_neg fun hnil => h0 (h.mp hnil)]
    rfl

end DirNode

theorem Owns.array_iff (ho : Owns L S P h (d.cells ++ F)) (hd : d.Valid) :
    (d.fileNodes.map FileNode.addr = [] ↔ d.files = 0) ∧ (d.subdirNodes = [] ↔ d.subdirs = 0) := by
  constructor
  · refine ⟨fun hnil => hd.files (List.map_eq_nil_iff.mp hnil), fun h0 => ?_⟩
    by_contra hne
    refine ho.ne_zero (p := d.files) (o := .words (d.fileNodes.map FileNode.addr)) (List.mem_append_left _ ?_) h0
    apply List.mem_cons_of_mem
    apply List.mem_append_left
    rw [arrayCells_of_ne _ hne]
    exact List.mem_singleton_self _
  · refine ⟨hd.subdirs, fun h0 => ?_⟩
    by_contra hne
    refine ho.ne_zero (p := d.subdirs) (o := .words d.subdirNodes) (List.mem_append_left _ ?_) h0
    apply List.mem_cons_of_mem
    apply List.mem_append_right
    apply List.mem_append_left
    rw [arrayCells_of_ne _ hne]
    exact List.mem_singleton_self _

/-- The places in a directory point to what is below it. -/
theorem DirNode.places_pointers (hfiles : d.fileNodes.map FileNode.addr = [] ↔ d.files = 0)
    (hsubdirs : d.subdirNodes = [] ↔ d.subdirs = 0) : (d.fieldPlaces ++ d.filePlaces).map Prod.snd = d.below := by
  have hname : (nameCells d.name d.text).map Prod.fst = if d.name = 0 then [] else [d.name] := by
    unfold nameCells
    split <;> rfl
  have hcells : (d.fileNodes.flatMap FileNode.cells).map Prod.fst = d.fileNodes.flatMap fun f =>
    [f.addr, f.name, f.data] :=
    List.map_flatMap
  unfold below
  rw [List.map_append, filePlaces_pointers, List.map_append, List.map_append, List.map_append,
    arrayCells_pointers hfiles,
    arrayCells_pointers hsubdirs, hname, hcells, ← List.append_assoc, ← List.append_assoc]
  congr 1
  unfold fieldPlaces
  by_cases h1 : d.files = 0 <;> by_cases h2 : d.subdirs = 0 <;> by_cases h3 : d.name = 0 <;> simp [h1, h2, h3]

/-- The root and the subdirectories are the directories. -/
theorem IsTree.addrs_perm {root : Nat} (ht : IsTree v.shape root) (hv : (v.dirs.map DirNode.addr).Nodup) :
    (root :: v.dirs.flatMap DirNode.subdirNodes).Perm (v.dirs.map DirNode.addr) := by
  have hsubs : v.shape.flatMap Prod.snd = v.dirs.flatMap DirNode.subdirNodes := List.flatMap_map ..
  have haddrs : v.shape.map Prod.fst = v.dirs.map DirNode.addr := List.map_map
  have honce := ht.once
  rw [hsubs] at honce
  apply (List.perm_ext_iff_of_nodup honce hv).mpr
  intro a
  rw [← hsubs, ← haddrs]
  constructor
  · exact ht.mem_of_mem
  · intro ha
    obtain ⟨x, hx, rfl⟩ := List.mem_map.mp ha
    generalize hb : x.1 = b
    cases hb ▸ ht.reached x hx with
    | root => exact List.mem_cons_self ..
    | subdir _ hy hin => exact List.mem_cons_of_mem _ (List.mem_flatMap.mpr ⟨_, hy, hin⟩)

namespace Volume

def fdPlaces (v : Volume) (i : Fin maxFds) : List (Place × Nat) := (v.fds i).elim [] fun e => [(.fd i, e.addr)]

/-- All places that do not hold `NULL`, with their pointers. -/
def places (v : Volume) (root : Nat) : List (Place × Nat) :=
  ((.root, root) :: v.dirs.flatMap DirNode.subdirPlaces) ++
    (v.dirs.flatMap (fun d => d.fieldPlaces ++ d.filePlaces) ++ (List.finRange maxFds).flatMap v.fdPlaces)

/-- The places point to the cells, to each once. -/
theorem places_perm {root : Nat} (ht : IsTree v.shape root) (hv : (v.dirs.map DirNode.addr).Nodup)
    (hd : ∀ d ∈ v.dirs, (d.fieldPlaces ++ d.filePlaces).map Prod.snd = d.below) (hlost : v.lost = []) :
    ((v.places root).map Prod.snd).Perm (v.cells.map Prod.fst) := by
  have hfds : ((List.finRange maxFds).flatMap v.fdPlaces).map Prod.snd =
      ((List.finRange maxFds).flatMap (fdCells v.fds)).map Prod.fst := by
    rw [List.map_flatMap, List.map_flatMap]
    apply List.flatMap_congr
    intro i _
    unfold fdPlaces fdCells
    cases v.fds i <;> rfl
  have hsubs : (v.dirs.flatMap DirNode.subdirPlaces).map Prod.snd = v.dirs.flatMap DirNode.subdirNodes := by
    rw [List.map_flatMap]
    exact List.flatMap_congr fun d _ => d.subdirPlaces_pointers
  have hown : (v.dirs.flatMap fun d => d.fieldPlaces ++ d.filePlaces).map Prod.snd = v.dirs.flatMap DirNode.below := by
    rw [List.map_flatMap]
    exact List.flatMap_congr hd
  have hcells : (v.dirs.flatMap DirNode.cells).map Prod.fst = v.dirs.flatMap fun d => [d.addr] ++ d.below :=
    List.map_flatMap
  unfold places cells
  rw [hlost, List.append_nil, List.map_append, List.map_append, List.map_append, List.map_cons, hsubs,
    hown, hfds, hcells,
    ← List.append_assoc]
  apply List.Perm.append_right
  exact ((ht.addrs_perm hv).append_right _).trans (List.map_append_flatMap_perm ..)

end Volume

end Places

namespace Mount
variable {L : Layout} {R : Rodata} {s s' : Mount} {v v' : Volume} {d : DirNode} {x y : Place} {p i : Nat}
  {tr : List (Mount × (FsCall × Int))}

/-- A directory's places. -/
theorem Good.place_dir (hg : s.Good L R v) (hd : d ∈ v.dirs) (hx : (x, p) ∈ d.subdirPlaces ∨ (x, p) ∈ d.fieldPlaces ∨
    (x, p) ∈ d.filePlaces) : s.Has x ∧ s.pointer x = p ∧ p ≠ 0 := by
  have hin := hg.inTree hd
  have hat := hg.dirAt hd
  rcases hx with hx | hx | hx
  · obtain ⟨⟨a, i⟩, hai, he⟩ := List.mem_map.mp hx
    obtain ⟨rfl, rfl⟩ := Prod.mk.inj he
    have hget := List.mem_zipIdx_iff_getElem?.mp hai
    obtain ⟨e, hmem, rfl⟩ := hg.subdirNode hd (List.mem_of_getElem? hget)
    refine ⟨⟨hin, ?_⟩, hg.subdirAt hd hget, hg.addr_ne_zero hmem⟩
    rw [hg.subdirCount hd]
    exact (List.getElem?_eq_some_iff.mp hget).1
  · obtain ⟨hx, hne⟩ := List.mem_filter.mp hx
    simp only [List.mem_cons, List.not_mem_nil, or_false, Prod.mk.injEq] at hx
    rcases hx with ⟨rfl, rfl⟩ | ⟨rfl, rfl⟩ | ⟨rfl, rfl⟩
    · exact ⟨hin, hat.record RamfsDir.files _ rfl, of_decide_eq_true hne⟩
    · exact ⟨hin, hat.record RamfsDir.subdirs _ rfl, of_decide_eq_true hne⟩
    · exact ⟨hin, hat.record RamfsDir.name _ rfl, of_decide_eq_true hne⟩
  · obtain ⟨⟨f, i⟩, hfi, hx⟩ := List.mem_flatMap.mp hx
    have hget := List.mem_zipIdx_iff_getElem?.mp hfi
    have hf := List.mem_of_getElem? hget
    have hfat := hg.file hd hf
    have hentry := hg.fileAt hd hget
    have hlt : i < s.heap.word d.addr RamfsDir.fileCount := by
      rw [hg.fileCount hd]
      exact (List.getElem?_eq_some_iff.mp hget).1
    have hcell : ∀ c ∈ f.cells, c.1 ≠ 0 := fun c hc =>
      hg.owns.ne_zero (List.mem_append_left _ (DirNode.mem_cells hd (FileNode.mem_cells hf hc)))
    simp only [List.mem_cons, List.not_mem_nil, or_false, Prod.mk.injEq] at hx
    rcases hx with ⟨rfl, rfl⟩ | ⟨rfl, rfl⟩ | ⟨rfl, rfl⟩
    · exact ⟨⟨hin, hlt⟩, hentry, hcell _ (List.mem_of_getElem? (i := 0) rfl)⟩
    · exact ⟨⟨hin, hlt⟩, (congrArg (fun a => s.heap.word a RamfsFile.name) hentry).trans hfat.name,
        hcell _ (List.mem_of_getElem? (i := 1) rfl)⟩
    · exact ⟨⟨hin, hlt⟩, (congrArg (fun a => s.heap.word a RamfsFile.data) hentry).trans hfat.data,
        hcell _ (List.mem_of_getElem? (i := 2) rfl)⟩

theorem Good.root_mem (hg : s.Good L R v) : ∃ d ∈ v.dirs, d.addr = s.root :=
  Volume.mem_shape_addrs.mp hg.tree.rooted

theorem Good.subdir_mem (hg : s.Good L R v) (hd : d ∈ v.dirs) (hi : i < s.heap.word d.addr RamfsDir.subdirCount) :
    (Place.subdir d.addr i, s.pointer (.subdir d.addr i)) ∈ d.subdirPlaces := by
  rw [hg.subdirCount hd] at hi
  have hget := List.getElem?_eq_getElem hi
  rw [show s.pointer (.subdir d.addr i) = d.subdirNodes[i] from hg.subdirAt hd hget]
  exact List.mem_map.mpr ⟨(d.subdirNodes[i], i), List.mem_zipIdx_iff_getElem?.mpr hget, rfl⟩

theorem Good.field_mem (hg : s.Good L R v) (hd : d ∈ v.dirs)
    (hx : x = .files d.addr ∨ x = .subdirs d.addr ∨ x = .dirName d.addr)
    (hne : s.pointer x ≠ 0) : (x, s.pointer x) ∈ d.fieldPlaces := by
  have hat := hg.dirAt hd
  refine List.mem_filter.mpr ⟨?_, decide_eq_true hne⟩
  rcases hx with rfl | rfl | rfl
  · rw [show s.pointer (.files d.addr) = d.files from hat.record RamfsDir.files _ rfl]
    exact List.mem_of_getElem? (i := 0) rfl
  · rw [show s.pointer (.subdirs d.addr) = d.subdirs from hat.record RamfsDir.subdirs _ rfl]
    exact List.mem_of_getElem? (i := 1) rfl
  · rw [show s.pointer (.dirName d.addr) = d.name from hat.record RamfsDir.name _ rfl]
    exact List.mem_of_getElem? (i := 2) rfl

theorem Good.file_mem (hg : s.Good L R v) (hd : d ∈ v.dirs) (hi : i < s.heap.word d.addr RamfsDir.fileCount)
    (hx : x = .file d.addr i ∨ x = .fileName d.addr i ∨ x = .fileData d.addr i) : (x, s.pointer x) ∈ d.filePlaces := by
  rw [hg.fileCount hd] at hi
  have hget := List.getElem?_eq_getElem hi
  have hentry := hg.fileAt hd hget
  have hat := hg.file hd (List.getElem_mem hi)
  refine List.mem_flatMap.mpr ⟨(d.fileNodes[i], i), List.mem_zipIdx_iff_getElem?.mpr hget, ?_⟩
  rcases hx with rfl | rfl | rfl
  · rw [show s.pointer (.file d.addr i) = d.fileNodes[i].addr from hentry]
    exact List.mem_of_getElem? (i := 0) rfl
  · rw [show s.pointer (.fileName d.addr i) = d.fileNodes[i].name from
      (congrArg (fun a => s.heap.word a RamfsFile.name) hentry).trans hat.name]
    exact List.mem_of_getElem? (i := 1) rfl
  · rw [show s.pointer (.fileData d.addr i) = d.fileNodes[i].data from
      (congrArg (fun a => s.heap.word a RamfsFile.data) hentry).trans hat.data]
    exact List.mem_of_getElem? (i := 2) rfl

/-- A place in a directory of the tree is among those of the volume if its pointer is not `NULL`. -/
theorem Good.dir_mem (hg : s.Good L R v) {dir : Nat} (hin : s.heap.InTree s.root dir)
    (h : ∀ d ∈ v.dirs, d.addr = dir → (x, p) ∈ d.subdirPlaces ∨ (x, p) ∈ d.fieldPlaces ∨ (x, p) ∈ d.filePlaces) :
    (x, p) ∈ v.places s.root := by
  obtain ⟨d, hd, he⟩ := (hg.owns.inTree_iff hg.tree).mp hin
  cases h d hd he with
  | inl h => exact List.mem_append_left _ (List.mem_cons_of_mem _ (List.mem_flatMap.mpr ⟨d, hd, h⟩))
  | inr h => exact List.mem_append_right _ (List.mem_append_left _
      (List.mem_flatMap.mpr ⟨d, hd, List.mem_append.mpr h⟩))

/-- The places of the volume are those in memory that do not hold `NULL`. -/
theorem Good.mem_places (hg : s.Good L R v) : (x, p) ∈ v.places s.root ↔ s.Has x ∧ s.pointer x = p ∧ p ≠ 0 := by
  constructor
  · intro hx
    rcases List.mem_append.mp hx with hx | hx
    · rcases List.mem_cons.mp hx with hx | hx
      · obtain ⟨rfl, rfl⟩ := Prod.mk.inj hx
        obtain ⟨d, hd, he⟩ := hg.root_mem
        exact ⟨trivial, rfl, he ▸ hg.addr_ne_zero hd⟩
      · obtain ⟨d, hd, hx⟩ := List.mem_flatMap.mp hx
        exact hg.place_dir hd (Or.inl hx)
    · rcases List.mem_append.mp hx with hx | hx
      · obtain ⟨d, hd, hx⟩ := List.mem_flatMap.mp hx
        exact hg.place_dir hd (Or.inr (List.mem_append.mp hx))
      · obtain ⟨i, -, hx⟩ := List.mem_flatMap.mp hx
        unfold Volume.fdPlaces at hx
        cases he : v.fds i with
        | none =>
          rw [he] at hx
          cases hx
        | some e =>
          rw [he] at hx
          obtain ⟨rfl, rfl⟩ := Prod.mk.inj (List.mem_singleton.mp hx)
          exact ⟨trivial, (hg.fdAt he).table, (hg.fdAt he).ne_zero⟩
  · rintro ⟨hx, rfl, hne⟩
    cases x with
    | root => exact List.mem_append_left _ (List.mem_cons_self ..)
    | fd i =>
      refine List.mem_append_right _ (List.mem_append_right _ (List.mem_flatMap.mpr ⟨i, List.mem_finRange i, ?_⟩))
      cases he : v.fds i with
      | none =>
        have h0 := hg.table i
        rw [he] at h0
        exact absurd h0 hne
      | some e =>
        unfold Volume.fdPlaces
        rw [he, Option.elim_some, List.mem_singleton]
        exact congrArg _ (hg.fdAt he).table
    | subdir dir i => exact hg.dir_mem hx.1 fun d hd he => Or.inl (he ▸ hg.subdir_mem hd (he ▸ hx.2))
    | dirName dir =>
      exact hg.dir_mem hx fun d hd he => Or.inr (Or.inl (hg.field_mem hd (Or.inr (Or.inr (he ▸ rfl))) hne))
    | files dir => exact hg.dir_mem hx fun d hd he => Or.inr (Or.inl (hg.field_mem hd (Or.inl (he ▸ rfl)) hne))
    | subdirs dir =>
      exact hg.dir_mem hx fun d hd he => Or.inr (Or.inl (hg.field_mem hd (Or.inr (Or.inl (he ▸ rfl))) hne))
    | file dir i =>
      exact hg.dir_mem hx.1 fun d hd he => Or.inr (Or.inr (hg.file_mem hd (he ▸ hx.2) (Or.inl (he ▸ rfl))))
    | fileName dir i =>
      exact hg.dir_mem hx.1 fun d hd he => Or.inr (Or.inr (hg.file_mem hd (he ▸ hx.2) (Or.inr (Or.inl (he ▸ rfl)))))
    | fileData dir i =>
      exact hg.dir_mem hx.1 fun d hd he => Or.inr (Or.inr (hg.file_mem hd (he ▸ hx.2) (Or.inr (Or.inr (he ▸ rfl)))))

/-- The blocks that are not the callers' are those of the volume. -/
theorem Good.ownBlock_iff (hg : s.Good L R v) : s.OwnBlock p ↔ p ∈ v.cells.map Prod.fst := by
  have hnodup := hg.owns.nodup
  rw [List.map_append, heldCells_addrs, List.nodup_append] at hnodup
  unfold OwnBlock
  simp only [hg.owns.allocatedBlock_iff, List.map_append, heldCells_addrs, List.mem_append]
  constructor
  · rintro ⟨hnot, a, rfl, hin⟩
    exact hin.resolve_right hnot
  · intro hin
    refine ⟨fun hheld => hnodup.2.2 p hin p hheld rfl, ?_⟩
    obtain ⟨c, hc, rfl⟩ := List.mem_map.mp hin
    obtain ⟨a, t, hca, -⟩ := hg.owns.block c (List.mem_append_left _ hc)
    exact ⟨a, hca.symm, Or.inl (hca ▸ hin)⟩

theorem Good.capacity (hg : s.Good L R v) {dir : Nat} (hx : s.Has (.file dir i)) :
    s.heap.word (s.heap.fileAt dir i) RamfsFile.size + headerSize ≤ 2 ^ s.mem.scale
      (s.pointer (.fileData dir i) - headerSize) := by
  obtain ⟨d, hd, rfl⟩ := (hg.owns.inTree_iff hg.tree).mp hx.1
  have hi := hx.2
  rw [hg.fileCount hd] at hi
  have hget := List.getElem?_eq_getElem hi
  have hf := List.getElem_mem hi
  have hat := hg.file hd hf
  obtain ⟨a, t, hdata, hused, hle⟩ := hg.owns.block _ (List.mem_append_left _ (DirNode.mem_cells hd
    (FileNode.mem_cells hf (List.mem_of_getElem? (i := 2) rfl))))
  have hscale := (hg.owns.represents.stands.laid.used hused).2.1
  unfold pointer
  dsimp only at hdata ⊢
  rw [hg.fileAt hd hget, hat.size, hat.data, hdata, Nat.add_sub_cancel, hscale]
  exact hle

/-- Nothing is lost, so there is one owner for everything. -/
theorem Good.oneOwner (hg : s.Good L R v) (hlost : v.lost = []) : s.OneOwner := by
  have hperm := Volume.places_perm hg.tree hg.owns.dirs_nodup
    (fun d hd => by
      obtain ⟨k, hk⟩ := List.getElem?_of_mem hd
      obtain ⟨hfiles, hsubdirs⟩ := Owns.array_iff (hg.ownsDir hk) (hg.valid d hd)
      exact DirNode.places_pointers hfiles hsubdirs) hlost
  have hcells := hg.owns.nodup
  rw [List.map_append, List.nodup_append] at hcells
  have hnodup := hperm.nodup_iff.mpr hcells.1
  refine ⟨fun p => ?_, fun x y hx hy hne he => ?_, fun dir i => hg.capacity⟩
  · rw [hg.ownBlock_iff, ← hperm.mem_iff, List.mem_map]
    constructor
    · rintro ⟨⟨x, q⟩, hin, rfl⟩
      obtain ⟨hx, hp, hne⟩ := hg.mem_places.mp hin
      exact ⟨hne, x, hx, hp⟩
    · rintro ⟨hne, x, hx, hp⟩
      exact ⟨(x, p), hg.mem_places.mpr ⟨hx, hp, hne⟩, rfl⟩
  · have hin := hg.mem_places.mpr ⟨hx, rfl, hne⟩
    have hin' := hg.mem_places.mpr ⟨hy, rfl, he ▸ hne⟩
    exact congrArg Prod.fst (List.inj_on_of_nodup_map hnodup hin hin' he)

/-! ### Runs -/

/-- Only closing a descriptor and failing to make a directory lose blocks. -/
theorem lost_of_effect {c : FsCall} {r : Int} (he : v.Effect s c r v') (ht : Tidy (s, (c, r))) (hlost : v.lost = []) :
    v'.lost = [] := by
  cases he with
  | @createDir k d name text hk hd0 hname hstr =>
    unfold Volume.createDir
    dsimp only
    rw [hlost, List.append_nil]
    cases DirNode.createDir_cases v.pool d text with
    | inl hnone =>
      have hr : ((newDirPtr (d.createDir v.pool text).2.2.1 : Nat) : Int) = 0 := by
        rw [hnone.2]
        rfl
      rcases ht.2.2 with h | h | h
      · exact absurd h hd0
      · exact absurd h hname
      · exact absurd hr h
    | inr hnew =>
      obtain ⟨dir, name, subdirs, -, hnew, -⟩ := hnew
      rw [hnew]
  | openFile => exact (Volume.openPath_dirs ..).2.trans hlost
  | close => exact absurd ht.2.2 not_false
  | _ => exact hlost

theorem nothing_lost_of_run (h : Run (Fresh L R) (Step L R) tr s) (ht : ∀ x ∈ tr, Tidy x) : ∃ v, s.Good L R v ∧
    v.lost = [] := by
  have hcare := careful_of_keeps h fun x hx => ⟨(ht x hx).1, (ht x hx).2.1⟩
  induction h with
  | start hf =>
    obtain ⟨P, name, hg⟩ := good_of_fresh hf
    exact ⟨_, hg, rfl⟩
  | @next tr s e s' hrun hstep ih =>
    have hin := List.mem_append_right tr (List.mem_singleton_self (s, e))
    obtain ⟨v, hg, hlost⟩ := ih (fun x hx => ht x (List.mem_append_left _ hx)) fun x hx =>
      hcare x (List.mem_append_left _ hx)
    obtain ⟨hl, hb⟩ := hcare _ hin
    obtain ⟨v', hg', -, -, he⟩ := hg.step hstep.1 hl hb hstep.2
    exact ⟨v', hg', lost_of_effect he (ht _ hin) hlost⟩

/-- After any calls that are not careless every block has one owner. -/
theorem run_oneOwner (h : Run (Fresh L R) (Step L R) tr s) (ht : ∀ x ∈ tr, Tidy x) : s.OneOwner := by
  obtain ⟨v, hg, hlost⟩ := nothing_lost_of_run h ht
  exact hg.oneOwner hlost

/-- A directory, a file and a descriptor come to be, the file grows, and another is deleted. -/
theorem run_oneOwner_grown : ∃ tr s, Run (Fresh .kernelImage bootRodata) (Step .kernelImage bootRodata) tr s ∧
    s.heap.word s.root RamfsDir.fileCount = 1 ∧ s.OneOwner := by
  have hdec : rehearses (fun root => [.createDir root 0x1060, .createFile root 0x1050 0x1070 4,
    .openFile root 0x1050 oRdwr,
      .write 0 0x1070 8, .createFile root 0x1060 0x1070 2, .deleteFile root 0x1060])
      fun tr s => (∀ x ∈ tr, Tidy x) ∧ s.heap.word s.root RamfsDir.fileCount = 1 := by decide +kernel
  obtain ⟨tr, s, hrun, hdec⟩ := run_rehearses hdec
  obtain ⟨htidy, hcount⟩ := of_decide_eq_true hdec
  exact ⟨tr, s, hrun, hcount, run_oneOwner hrun htidy⟩

end Mount
end ShompOS
