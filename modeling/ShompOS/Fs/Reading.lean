import ShompOS.Fs.Descriptors

/-! What can be read off memory.

Statements about a file system are about what is in memory: which directories and files
the pointers lead to, and the bytes they lead to. In a good mount all of that is
what the volume says, so that two states whose volumes have the same outline have
the same tree. -/
namespace ShompOS
open Memory

namespace Mount

/-- The bytes of a file. -/
def contents (s : Mount) (file : Nat) : List UInt8 :=
  s.mem.bytesAt (s.heap.word file RamfsFile.data) (s.heap.word file RamfsFile.size)

/-- The two trees are one, with the same directories, files and names. -/
structure SameTree (s s' : Mount) : Prop where
  dirs : ∀ dir, s'.heap.InTree s'.root dir ↔ s.heap.InTree s.root dir
  files : ∀ file, s'.heap.Linked s'.root file ↔ s.heap.Linked s.root file
  record : ∀ dir, s.heap.InTree s.root dir → ∀ k, k < 6 → s'.heap.word dir k = s.heap.word dir k
  entries : ∀ dir, s.heap.InTree s.root dir → ∀ i, i < s.heap.word dir RamfsDir.fileCount →
    s'.heap.word (s'.heap.word dir RamfsDir.files) i = s.heap.word (s.heap.word dir RamfsDir.files) i
  subdirs : ∀ dir, s.heap.InTree s.root dir → ∀ i, i < s.heap.word dir RamfsDir.subdirCount →
    s'.heap.word (s'.heap.word dir RamfsDir.subdirs) i = s.heap.word (s.heap.word dir RamfsDir.subdirs) i
  dirName : ∀ dir text, s.heap.InTree s.root dir → s.heap.word dir RamfsDir.name ≠ 0 →
    IsStr s.mem (s.heap.word dir RamfsDir.name) text → IsStr s'.mem (s'.heap.word dir RamfsDir.name) text
  fileName : ∀ file text, s.heap.Linked s.root file → IsStr s.mem (s.heap.word file RamfsFile.name) text →
    IsStr s'.mem (s'.heap.word file RamfsFile.name) text

/-- The same files with the same bytes. -/
structure SameFiles (s s' : Mount) : Prop where
  tree : SameTree s s'
  contents : ∀ file, s.heap.Linked s.root file → s'.contents file = s.contents file

variable {L : Layout} {R : Rodata} {s s' : Mount} {v v' : Volume} {d : DirNode} {f : FileNode} {e : OpenFd}
  {i : Fin maxFds}

/-! ### A file, a directory and a descriptor -/

structure Good.FileAt (s : Mount) (f : FileNode) : Prop where
  name : s.heap.word f.addr RamfsFile.name = f.name
  data : s.heap.word f.addr RamfsFile.data = f.data
  size : s.heap.word f.addr RamfsFile.size = f.contents.length
  text : IsStr s.mem f.name f.text
  contents : s.contents f.addr = f.contents

theorem Good.file (hg : s.Good L R v) (hd : d ∈ v.dirs) (hf : f ∈ d.fileNodes) : Good.FileAt s f := by
  have hcells : f.cells ⊆ v.cells ++ heldCells s.held s.mem := fun c hc =>
    List.mem_append_left _ (DirNode.mem_cells hd (FileNode.mem_cells hf hc))
  have hrec := hcells (List.mem_cons_self ..)
  have hdata : s.heap.word f.addr RamfsFile.data = f.data := hg.owns.word_eq hrec rfl
  have hsize : s.heap.word f.addr RamfsFile.size = f.contents.length := hg.owns.word_eq hrec rfl
  refine ⟨hg.owns.word_eq hrec rfl, hdata, hsize, ?_, ?_⟩
  · exact hg.owns.isStr (hcells (List.mem_cons_of_mem _ (List.mem_cons_self ..))) ((hg.valid d hd).fileText f hf)
  · unfold Mount.contents
    rw [hdata, hsize]
    exact bytesAt_eq (hg.owns.contents _ (hcells (List.mem_of_getElem? (i := 2) rfl)))

structure Good.DirAt (s : Mount) (d : DirNode) : Prop where
  record : ∀ k w, d.record[k]? = some w → s.heap.word d.addr k = w
  entry : ∀ k f, d.fileNodes[k]? = some f → s.heap.word d.files k = f.addr
  subdir : ∀ k a, d.subdirNodes[k]? = some a → s.heap.word d.subdirs k = a
  text : d.name ≠ 0 → IsStr s.mem d.name d.text

theorem Good.dirAt (hg : s.Good L R v) (hd : d ∈ v.dirs) : Good.DirAt s d := by
  have hcells : d.cells ⊆ v.cells ++ heldCells s.held s.mem :=
    fun c hc => List.mem_append_left _ (DirNode.mem_cells hd hc)
  refine ⟨fun k w hk => hg.owns.word_eq (hcells (List.mem_cons_self ..)) hk, fun k f hk => ?_,
    fun k a hk => ?_, fun hne => ?_⟩
  · exact hg.owns.array_word (fun c hc => hcells (List.mem_cons_of_mem _ (List.mem_append_left _ hc)))
      (by rw [List.getElem?_map, hk]; rfl)
  · exact hg.owns.array_word
      (fun c hc => hcells (List.mem_cons_of_mem _ (List.mem_append_right _ (List.mem_append_left _ hc)))) hk
  · exact hg.owns.isStr (hcells (DirNode.name_mem hne)) (hg.valid d hd).text

structure Good.FdAt (s : Mount) (i : Fin maxFds) (e : OpenFd) : Prop where
  table : s.ramfs.fdTable i = e.addr
  ne_zero : e.addr ≠ 0
  file : s.fileOf e.addr = e.file
  position : s.heap.word e.addr RamfsFd.position = e.position
  flags : s.heap.word e.addr RamfsFd.flags = e.flags

theorem Good.fdAt (hg : s.Good L R v) (hi : v.fds i = some e) : Good.FdAt s i e := by
  obtain ⟨htable, hne, hfile⟩ := hg.descriptor hi
  exact ⟨htable, hne, hfile, hg.owns.word_eq
    (List.mem_append_left _ (OpenFd.mem_cells hi (List.mem_singleton_self _))) rfl,
    hg.flags_eq hi⟩

/-- The same descriptors in two volumes are the same in memory. -/
theorem Good.sameFds {w : Volume} (hg : s.Good L R v) (hg' : s'.Good L R w) (hfds : w.fds = v.fds) :
    s'.ramfs.fdTable = s.ramfs.fdTable ∧ ∀ i, s.ramfs.fdTable i ≠ 0 →
      s'.fileOf (s.ramfs.fdTable i) = s.fileOf (s.ramfs.fdTable i) ∧
      s'.heap.word (s.ramfs.fdTable i) RamfsFd.position = s.heap.word (s.ramfs.fdTable i) RamfsFd.position ∧
      s'.heap.word (s.ramfs.fdTable i) RamfsFd.flags = s.heap.word (s.ramfs.fdTable i) RamfsFd.flags := by
  refine ⟨funext fun i => ?_, fun i hi => ?_⟩
  · rw [hg'.table i, hg.table i, hfds]
  · have hopen : v.fds i ≠ none := fun hnone => hi (by rw [hg.table i, hnone]; rfl)
    obtain ⟨e, he⟩ := Option.ne_none_iff_exists'.mp hopen
    have hat := hg.fdAt he
    have hat' := hg'.fdAt ((congrFun hfds i).trans he)
    rw [hat.table, hat.file, hat.position, hat.flags]
    exact ⟨hat'.file, hat'.position, hat'.flags⟩

/-! ### The tree -/

/-- All of a directory but what is in its files. -/
def outlineOf (d : DirNode) : (Nat × List Nat × List UInt8) × List Nat × List (Nat × Nat × List UInt8) :=
  ((d.addr, d.record, d.text), d.subdirNodes, d.fileNodes.map fun f => (f.addr, f.name, f.text))

theorem Good.sameTree (hg : s.Good L R v) (hg' : s'.Good L R v') (h : v'.dirs.map outlineOf = v.dirs.map outlineOf) :
    SameTree s s' := by
  -- each directory still is there with the same outline
  have hother : ∀ d ∈ v.dirs, ∃ d' ∈ v'.dirs, outlineOf d' = outlineOf d := fun d hd =>
    List.mem_map.mp (h ▸ List.mem_map_of_mem hd)
  have hother' : ∀ d' ∈ v'.dirs, ∃ d ∈ v.dirs, outlineOf d = outlineOf d' := fun d' hd' =>
    List.mem_map.mp (h.symm ▸ List.mem_map_of_mem hd')
  have hdir : ∀ dir, s.heap.InTree s.root dir → ∃ d ∈ v.dirs, d.addr = dir ∧ Good.DirAt s d ∧
      ∃ d' ∈ v'.dirs, outlineOf d' = outlineOf d ∧ Good.DirAt s' d' := by
    intro dir hin
    obtain ⟨d, hd, he⟩ := (hg.owns.inTree_iff hg.tree).mp hin
    obtain ⟨d', hd', hout⟩ := hother d hd
    exact ⟨d, hd, he, hg.dirAt hd, d', hd', hout, hg'.dirAt hd'⟩
  have hfile : ∀ {d d' : DirNode} {f}, outlineOf d' = outlineOf d → f ∈ d.fileNodes →
      ∃ f' ∈ d'.fileNodes, (f'.addr, f'.name, f'.text) = (f.addr, f.name, f.text) := by
    intro d d' f hout hf
    have hfiles := (Prod.mk.inj (Prod.mk.inj hout).2).2
    exact List.mem_map.mp (hfiles ▸ List.mem_map_of_mem hf)
  refine ⟨fun dir => ?_, fun file => ?_, fun dir hin k hk => ?_, fun dir hin k hk => ?_, fun dir hin k hk => ?_,
    fun dir text hin hne hstr => ?_, fun file text hin hstr => ?_⟩
  · rw [hg.owns.inTree_iff hg.tree, hg'.owns.inTree_iff hg'.tree]
    constructor
    · rintro ⟨d', hd', rfl⟩
      obtain ⟨d, hd, hout⟩ := hother' d' hd'
      exact ⟨d, hd, congrArg (fun x => x.1.1) hout⟩
    · rintro ⟨d, hd, rfl⟩
      obtain ⟨d', hd', hout⟩ := hother d hd
      exact ⟨d', hd', congrArg (fun x => x.1.1) hout⟩
  · rw [hg.owns.linked_iff hg.tree, hg'.owns.linked_iff hg'.tree]
    constructor
    · rintro ⟨d', hd', f', hf', rfl⟩
      obtain ⟨d, hd, hout⟩ := hother' d' hd'
      obtain ⟨f, hf, he⟩ := hfile hout hf'
      exact ⟨d, hd, f, hf, congrArg Prod.fst he⟩
    · rintro ⟨d, hd, f, hf, rfl⟩
      obtain ⟨d', hd', hout⟩ := hother d hd
      obtain ⟨f', hf', he⟩ := hfile hout hf
      exact ⟨d', hd', f', hf', congrArg Prod.fst he⟩
  · obtain ⟨d, hd, rfl, hat, d', hd', hout, hat'⟩ := hdir dir hin
    have haddr : d'.addr = d.addr := congrArg (fun x => x.1.1) hout
    have hrec : d'.record = d.record := congrArg (fun x => x.1.2.1) hout
    obtain ⟨w, hw⟩ : ∃ w, d.record[k]? = some w := ⟨_, List.getElem?_eq_getElem (i := k) (l := d.record) hk⟩
    rw [hat.record k w hw, ← haddr]
    exact hat'.record k w (by rw [hrec]; exact hw)
  · obtain ⟨d, hd, rfl, hat, d', hd', hout, hat'⟩ := hdir dir hin
    have haddr : d'.addr = d.addr := congrArg (fun x => x.1.1) hout
    have hfiles := congrArg (fun x => x.2.2) hout
    rw [hat.record RamfsDir.fileCount _ rfl] at hk
    rw [hat.record RamfsDir.files _ rfl, ← haddr, hat'.record RamfsDir.files _ rfl,
      hat.entry k _ (List.getElem?_eq_getElem hk)]
    have hk' : ((outlineOf d').2.2)[k]? = ((outlineOf d).2.2)[k]? := congrArg (·[k]?) hfiles
    unfold outlineOf at hk'
    dsimp only at hk'
    rw [List.getElem?_map, List.getElem?_map, List.getElem?_eq_getElem hk] at hk'
    obtain ⟨f', hf', he⟩ := Option.map_eq_some_iff.mp hk'
    rw [hat'.entry k f' hf']
    exact congrArg Prod.fst he
  · obtain ⟨d, hd, rfl, hat, d', hd', hout, hat'⟩ := hdir dir hin
    have haddr : d'.addr = d.addr := congrArg (fun x => x.1.1) hout
    have hsubs : d'.subdirNodes = d.subdirNodes := congrArg (fun x => x.2.1) hout
    rw [hat.record RamfsDir.subdirCount _ rfl] at hk
    have hget := List.getElem?_eq_getElem hk
    rw [hat.record RamfsDir.subdirs _ rfl, ← haddr, hat'.record RamfsDir.subdirs _ rfl, hat.subdir k _ hget,
      hat'.subdir k _ (by rw [hsubs]; exact hget)]
  · obtain ⟨d, hd, rfl, hat, d', hd', hout, hat'⟩ := hdir dir hin
    have haddr : d'.addr = d.addr := congrArg (fun x => x.1.1) hout
    have hname : d'.name = d.name := congrArg (fun x => x.1.2.1.headD 0) hout
    have htext : d'.text = d.text := congrArg (fun x => x.1.2.2) hout
    rw [hat.record RamfsDir.name _ rfl] at hne hstr
    rw [← haddr, hat'.record RamfsDir.name _ rfl, hstr.unique (hat.text hne), ← htext]
    exact hat'.text (by rw [hname]; exact hne)
  · obtain ⟨d, hd, f, hf, rfl⟩ := (hg.owns.linked_iff hg.tree).mp hin
    obtain ⟨d', hd', hout⟩ := hother d hd
    obtain ⟨f', hf', he⟩ := hfile hout hf
    obtain ⟨haddr, he⟩ := Prod.mk.inj he
    obtain ⟨-, htext⟩ := Prod.mk.inj he
    have hat := hg.file hd hf
    have hat' := hg'.file hd' hf'
    rw [hat.name] at hstr
    rw [← haddr, hat'.name, hstr.unique hat.text, ← htext]
    exact hat'.text

end Mount
end ShompOS
