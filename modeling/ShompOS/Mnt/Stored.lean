import ShompOS.Fs.Listing
import ShompOS.Mnt.InitMnt

/-! The directories of a volume are a store.

Creating a file or a directory is one more entry in the store, if there is memory for it,
and nothing otherwise. In memory the root holds a tree if the store shows it there. -/
namespace ShompOS
open Memory

/-! ### A volume's store -/

abbrev DirStore := FileTree.Store Nat (List UInt8) (List UInt8)

def DirNode.node (d : DirNode) : FileTree.Node Nat (List UInt8) (List UInt8) :=
  ⟨if d.name = 0 then none else some d.text, d.parent, d.entries, d.subdirNodes⟩

namespace Volume
variable {v w : Volume} {k a : Nat} {d d' : DirNode} {new : Option DirNode}

def store (v : Volume) : DirStore := fun a => (v.dirAt a).map DirNode.node

theorem store_eq (hv : (v.dirs.map DirNode.addr).Nodup) (hd : d ∈ v.dirs) : v.store d.addr = some d.node := by
  unfold store
  rw [dirAt_eq hv hd]
  rfl

theorem store_none (h : ∀ d ∈ v.dirs, d.addr ≠ a) : v.store a = none := by
  unfold store dirAt
  rw [List.find?_eq_none.mpr fun d hd => by simpa using h d hd]
  rfl

theorem exists_of_store (h : v.store a ≠ none) : ∃ d ∈ v.dirs, d.addr = a := by
  by_contra hno
  exact h (store_none fun d hd he => hno ⟨d, hd, he⟩)

/-- The new one and the one that is different apart, every directory is as it was. -/
theorem Grows.store_other (h : v.Grows w k d d' new) (hv : (v.dirs.map DirNode.addr).Nodup)
    (hw : (w.dirs.map DirNode.addr).Nodup) (hd : a ≠ d.addr) (hnew : ∀ e ∈ new, a ≠ e.addr) :
    w.store a = v.store a := by
  by_cases hsome : v.store a = none
  · rw [hsome]
    apply store_none
    intro y hy hya
    cases h.mem hy with
    | inl hx =>
      obtain ⟨x, hx⟩ := hx
      rw [← hya, (h.same hx).1, store_eq hv hx.1] at hsome
      cases hsome
    | inr hy => exact hnew y hy hya.symm
  · obtain ⟨x, hx, rfl⟩ := exists_of_store hsome
    obtain ⟨y, hy, hwas, -⟩ := h.exists_of hx
    rw [← (h.same hwas).1, store_eq hw hy, (h.same hwas).1, store_eq hv hx]
    cases hwas.2 with
    | inl he => rw [he]
    | inr he => exact absurd (he.1 ▸ rfl) hd

theorem Grows.store (h : v.Grows w k d d' new) (hv : (v.dirs.map DirNode.addr).Nodup)
    (hw : (w.dirs.map DirNode.addr).Nodup) :
    w.store = Function.update (new.elim v.store fun e => Function.update v.store e.addr (some e.node)) d.addr
      (some d'.node) := by
  funext a
  by_cases hd : a = d.addr
  · rw [hd, Function.update_self, ← h.addr]
    exact store_eq hw h.changed
  · rw [Function.update_of_ne hd]
    cases new with
    | none => exact h.store_other hv hw hd nofun
    | some e =>
      rw [Option.elim_some]
      by_cases he : a = e.addr
      · rw [he, Function.update_self]
        apply store_eq hw
        rw [h.dirs]
        exact List.mem_append_right _ (List.mem_singleton_self _)
      · rw [Function.update_of_ne he]
        apply h.store_other hv hw hd
        intro x hx
        cases hx
        exact he

/-- A file is created, and all of its memory was there, or nothing happens. -/
theorem store_createFile (hk : v.dirs[k]? = some d) (hv : (v.dirs.map DirNode.addr).Nodup) (text contents : List UInt8)
    (hw : ((v.withDir k (d.createFile v.pool text contents).1 (d.createFile v.pool text contents).2.1).dirs.map
      DirNode.addr).Nodup) :
    (v.withDir k (d.createFile v.pool text contents).1 (d.createFile v.pool text contents).2.1).store =
      if (d.createFile v.pool text contents).2.2 = 0 then v.store
      else v.store.addFile d.addr d.node text contents := by
  have hgrows := grows_createFile hk text contents
  rw [hgrows.store hv hw, Option.elim_none]
  have hentries := DirNode.createFile_entries v.pool d text contents
  cases DirNode.createFile_cases v.pool d text contents with
  | inl h =>
    rw [if_pos h.2, h.1]
    exact Function.update_eq_self_iff.mpr (store_eq hv (List.mem_of_getElem? hk)).symm
  | inr h =>
    obtain ⟨f, files, hne, -, -, hret, he⟩ := h
    rw [hret, if_neg hne] at hentries ⊢
    unfold FileTree.Store.addFile DirNode.node
    rw [hentries, he]

/-- A directory is created, or nothing happens that could be seen. -/
theorem store_createDir (hk : v.dirs[k]? = some d) (hv : (v.dirs.map DirNode.addr).Nodup) (text : List UInt8)
    (hw : ((v.createDir k d text).dirs.map DirNode.addr).Nodup) :
    (v.createDir k d text).store = (d.createDir v.pool text).2.2.1.elim v.store fun e =>
      v.store.addDir d.addr d.node e.addr (if e.name = 0 then none else some text) := by
  have hgrows := (grows_createDir hk text).1
  rw [hgrows.store hv hw]
  cases DirNode.createDir_cases v.pool d text with
  | inl h =>
    rw [h.1, h.2]
    exact Function.update_eq_self_iff.mpr (store_eq hv (List.mem_of_getElem? hk)).symm
  | inr h =>
    obtain ⟨dir, name, subdirs, -, hnew, he⟩ := h
    rw [hnew, he]
    rfl

end Volume

/-! ### In the kernel image -/

section Image
variable {L : Layout} {m m' : Memory}

theorem Embedded.congr {start stop : Nat} {contents : List UInt8} (h : Embedded L m start stop contents)
    (hm : ∀ x, L.Static x → m'.byte x = m.byte x) : Embedded L m' start stop contents :=
  ⟨h.ne_zero, fun i b hi => (hm _ (h.static i (List.getElem?_eq_some_iff.mp hi).1)).trans (h.bytes i b hi), h.static,
    h.ends, h.room⟩

/-- `_end - _start` -/
theorem Embedded.size {start stop : Nat} {contents : List UInt8} (h : Embedded L m start stop contents) :
    wrap (stop + (addressSpace - start)) = contents.length := by
  have hle : start ≤ stop := h.ends ▸ Nat.le_add_right ..
  rw [wrap_sub hle h.room, h.ends, Nat.add_sub_cancel_left]

theorem Embedded.lent {start stop : Nat} {contents : List UInt8} (h : Embedded L m start stop contents)
    (cs : List Cell) : LentBytes L cs m start contents :=
  ⟨h.bytes, fun i hi => Or.inl (h.static i hi), h.ends ▸ h.room⟩

theorem Literal.congr {a : Nat} {text : List UInt8} (h : Literal L m a text)
    (hm : ∀ x, L.Static x → m'.byte x = m.byte x) : Literal L m' a text := by
  refine ⟨h.ne_zero, h.str.congr fun x h1 h2 => hm x ?_, h.static⟩
  obtain ⟨i, rfl⟩ := Nat.exists_eq_add_of_le h1
  exact h.static i (by omega)

theorem Mount.passes_of_literal {s : Mount} {a : Nat} {text : List UInt8} (h : Literal L s.mem a text) :
    s.Passes L a text :=
  ⟨h.str, fun i hi => Or.inl (h.static i hi)⟩

/-- The image is as before. -/
theorem Mount.Calm.image {s s' : Mount} (h : Mount.Calm L s s') (hm : ∀ x, L.Static x → s.mem.byte x = m.byte x) :
    ∀ x, L.Static x → s'.mem.byte x = m.byte x :=
  fun x hx => (h.memory x (Or.inl hx)).trans (hm x hx)

end Image

/-! ### Memory for everything -/

namespace DirNode

theorem createFile_served (P : Pool) (d : DirNode) (text contents : List UInt8) :
    (d.createFile P text contents).2.2 ≠ 0 ↔ P.served [RamfsFile.bytes, text.length + 1,
      if contents.length = 0 then 1 else contents.length, 4 * (d.fileNodes.length + 1)] = [true, true, true, true] := by
  unfold createFile
  simp only [Pool.served, List.cons.injEq, and_true, decide_eq_true_eq]
  generalize P.allocate RamfsFile.bytes = r₁
  by_cases h1 : r₁.2 = 0
  · simp [h1]
  generalize r₁.1.allocate (text.length + 1) = r₂
  by_cases h2 : r₂.2 = 0
  · simp [h1, h2]
  generalize r₂.1.allocate (if contents.length = 0 then 1 else contents.length) = r₃
  by_cases h3 : r₃.2 = 0
  · simp [h1, h2, h3]
  generalize r₃.1.allocate (4 * (d.fileNodes.length + 1)) = r₄
  by_cases h4 : r₄.2 = 0 <;> simp [h1, h2, h3, h4]

/-- A directory can come to be without its name. -/
theorem createDir_served (P : Pool) (d : DirNode) (text : List UInt8) :
    (∃ e ∈ (d.createDir P text).2.2.1, e.name ≠ 0) ↔ P.served [RamfsDir.bytes, text.length + 1,
      4 * (d.subdirNodes.length + 1)] = [true, true, true] := by
  unfold createDir
  simp only [Pool.served, List.cons.injEq, and_true, decide_eq_true_eq]
  generalize P.allocate RamfsDir.bytes = r₁
  by_cases h1 : r₁.2 = 0
  · simp [h1]
  generalize r₁.1.allocate (text.length + 1) = r₂
  generalize r₂.1.allocate (4 * (d.subdirNodes.length + 1)) = r₃
  by_cases h3 : r₃.2 = 0 <;> simp [h1, h3]

end DirNode

/-! ### In memory -/

namespace Mount
variable {L : Layout} {R : Rodata} {s : Mount} {v : Volume} {d : DirNode}

theorem Good.supplies_createFile (hg : s.Good L R v) (hd : d ∈ v.dirs) {name : Nat} {text : List UInt8}
    (hname : IsStr s.mem name text) (data : Nat) (contents : List UInt8) :
    s.Supplies L (.createFile d.addr name data contents.length) ↔ (d.createFile v.pool text contents).2.2 ≠ 0 := by
  rw [DirNode.createFile_served]
  unfold Supplies
  dsimp only
  rw [hg.fileCount hd]
  constructor
  · intro h
    have hserved := h text hname
    rw [hg.owns.represents.served] at hserved
    exact Option.some.inj hserved
  · intro h text' hname'
    rw [hname'.unique hname, hg.owns.represents.served, h]

theorem Good.supplies_createDir (hg : s.Good L R v) (hd : d ∈ v.dirs) {name : Nat} {text : List UInt8}
    (hname : IsStr s.mem name text) :
    s.Supplies L (.createDir d.addr name) ↔ ∃ e ∈ (d.createDir v.pool text).2.2.1, e.name ≠ 0 := by
  rw [DirNode.createDir_served]
  unfold Supplies
  dsimp only
  rw [hg.subdirCount hd]
  constructor
  · intro h
    have hserved := h text hname
    rw [hg.owns.represents.served] at hserved
    exact Option.some.inj hserved
  · intro h text' hname'
    rw [hname'.unique hname, hg.owns.represents.served, h]

/-- `ramfs_create_file` on the store: a file more, if there is memory for everything. -/
theorem Good.createFile_store (hg : s.Good L R v) {dir name data stop : Nat}
    {n : FileTree.Node Nat (List UInt8) (List UInt8)} {text contents : List UInt8} (hdir : v.store dir = some n)
    (hname : Literal L s.mem name text) (hdata : Embedded L s.mem data stop contents) :
    ∃ s' v' r, s.call L R (.createFile dir name data contents.length) = some (s', r) ∧ s'.Good L R v' ∧ Calm L s s' ∧
      ((¬ s.Supplies L (.createFile dir name data contents.length) ∧ v'.store = v.store) ∨
        (s.Supplies L (.createFile dir name data contents.length) ∧
          v'.store = v.store.addFile dir n text contents)) := by
  obtain ⟨d, hd, rfl⟩ := Volume.exists_of_store (hdir ▸ Option.some_ne_none n)
  cases (Volume.store_eq hg.owns.dirs_nodup hd).symm.trans hdir
  obtain ⟨k, hk⟩ := List.getElem?_of_mem hd
  obtain ⟨s', hcall, hg', hcalm⟩ :=
    hg.createFile hk (passes_of_literal hname) hname.ne_zero (hdata.lent _) hdata.ne_zero
  have hstore := Volume.store_createFile hk hg.owns.dirs_nodup text contents hg'.owns.dirs_nodup
  rw [hg.supplies_createFile hd hname.str data contents]
  refine ⟨s', _, _, hcall, hg', hcalm, ?_⟩
  by_cases hzero : (d.createFile v.pool text contents).2.2 = 0
  · rw [if_pos hzero] at hstore
    exact Or.inl ⟨not_not.mpr hzero, hstore⟩
  · rw [if_neg hzero] at hstore
    exact Or.inr ⟨hzero, hstore⟩

/-- `ramfs_create_dir` on the store: a directory more, which has its name if there is memory
for everything, or `NULL`. -/
theorem Good.createDir_store (hg : s.Good L R v) {dir name : Nat} {n : FileTree.Node Nat (List UInt8) (List UInt8)}
    {text : List UInt8} (hdir : v.store dir = some n) (hname : Literal L s.mem name text) :
    ∃ s' v' r, s.call L R (.createDir dir name) = some (s', ((r : Nat) : Int)) ∧ s'.Good L R v' ∧ Calm L s s' ∧
      ((r = 0 ∧ ¬ s.Supplies L (.createDir dir name) ∧ v'.store = v.store) ∨
        ∃ name', v.store r = none ∧ v'.store = v.store.addDir dir n r name' ∧
          (name' = some text ↔ s.Supplies L (.createDir dir name))) := by
  obtain ⟨d, hd, rfl⟩ := Volume.exists_of_store (hdir ▸ Option.some_ne_none n)
  cases (Volume.store_eq hg.owns.dirs_nodup hd).symm.trans hdir
  obtain ⟨k, hk⟩ := List.getElem?_of_mem hd
  obtain ⟨s', hcall, hg', hcalm⟩ := hg.createDir hk (passes_of_literal hname) hname.ne_zero
  have hstore := Volume.store_createDir hk hg.owns.dirs_nodup text hg'.owns.dirs_nodup
  have hgrows := (Volume.grows_createDir hk text).1
  have hnodup := hg'.owns.dirs_nodup
  rw [hg.supplies_createDir hd hname.str]
  refine ⟨s', _, _, hcall, hg', hcalm, ?_⟩
  generalize v.createDir k d text = v' at *
  generalize (d.createDir v.pool text).2.2.1 = new at *
  cases new with
  | none => exact Or.inl ⟨rfl, fun h => by simp at h, hstore⟩
  | some e =>
    refine Or.inr ⟨if e.name = 0 then none else some text, ?_, hstore, by simp⟩
    exact Volume.store_none fun x hx => hgrows.fresh hnodup rfl hx

/-- What a directory holds in memory is what the store shows. -/
theorem Good.holdsTree_iff (hg : s.Good L R v) (t : HostDir) (hd : d ∈ v.dirs) (i j : Nat) :
    s.HoldsTree t d.addr i j ↔ (t.map FileName.text).Shows v.store d.addr i j := by
  have hstore : ∀ {d}, d ∈ v.dirs → v.store d.addr = some d.node := fun hd => Volume.store_eq hg.owns.dirs_nodup hd
  induction t generalizing d i j with
  | empty =>
    unfold HoldsTree FileTree.map FileTree.Shows
    rw [hstore hd, hg.fileCount hd, hg.subdirCount hd]
    simp [DirNode.node, DirNode.entries]
  | file name contents rest ih =>
    unfold HoldsTree FileTree.map FileTree.Shows
    apply and_congr _ (ih hd (i + 1) j)
    rw [hstore hd, hg.fileCount hd]
    have hentry : (∃ n, some d.node = some n ∧ n.files[i]? = some (name.text, contents)) ↔
        d.entries[i]? = some (name.text, contents) := by
      simp [DirNode.node]
    rw [hentry]
    unfold DirNode.entries
    rw [List.getElem?_map, Option.map_eq_some_iff]
    constructor
    · intro h
      obtain ⟨hi, hname, hcontents⟩ := h
      have hget := List.getElem?_eq_getElem hi
      have hf := List.getElem_mem hi
      rw [hg.fileAt hd hget] at hname hcontents
      rw [hg.hasName_file hd hf] at hname
      rw [(hg.file hd hf).contents] at hcontents
      exact ⟨_, hget, Prod.ext hname hcontents⟩
    · intro h
      obtain ⟨f, hget, he⟩ := h
      have hf := List.mem_of_getElem? hget
      obtain ⟨hname, hcontents⟩ := Prod.mk.inj he
      rw [hg.fileAt hd hget, hg.hasName_file hd hf, (hg.file hd hf).contents]
      exact ⟨(List.getElem?_eq_some_iff.mp hget).1, hname, hcontents⟩
  | dir name sub rest ihs ihr =>
    unfold HoldsTree FileTree.map FileTree.Shows
    apply and_congr _ (ihr hd i (j + 1))
    rw [hstore hd, hg.subdirCount hd]
    constructor
    · intro h
      obtain ⟨hj, hname, hparent, hsub⟩ := h
      have hget := List.getElem?_eq_getElem hj
      obtain ⟨e, he, hea⟩ := hg.subdirNode hd (List.getElem_mem hj)
      rw [hg.subdirAt hd hget, ← hea] at hname hparent hsub
      rw [hg.hasName_dir he] at hname
      rw [(hg.dirAt he).record RamfsDir.parent _ rfl] at hparent
      refine ⟨d.node, e.addr, e.node, rfl, hget.trans (congrArg some hea.symm), hstore he, ?_, hparent,
        (ihs he 0 0).mp hsub⟩
      unfold DirNode.node
      rw [if_neg hname.1, hname.2]
    · intro h
      obtain ⟨n, b, m, hn, hb, hm, hname, hparent, hsub⟩ := h
      cases hn
      obtain ⟨e, he, rfl⟩ := hg.subdirNode hd (List.mem_of_getElem? hb)
      rw [hstore he] at hm
      cases hm
      rw [hg.subdirAt hd hb, hg.hasName_dir he, (hg.dirAt he).record RamfsDir.parent _ rfl]
      refine ⟨(List.getElem?_eq_some_iff.mp hb).1, ?_, hparent, (ihs he 0 0).mpr hsub⟩
      unfold DirNode.node at hname
      dsimp only at hname
      split at hname
      · cases hname
      · next hne => exact ⟨hne, Option.some.inj hname⟩

end Mount
end ShompOS
