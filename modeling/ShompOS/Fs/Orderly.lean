import ShompOS.Fs.Pwd

/-! Directories without two entries of one name.

`ramfs_create_file` and `ramfs_create_dir` put an entry into a directory whatever is
there. An `Orderly` volume is one where nothing has come twice, and it stays so if a
name is not there when something gets it. -/
namespace ShompOS
open Memory

namespace Volume
variable {v w : Volume} {root k n : Nat} {d d' e x y : DirNode} {ds : List DirNode} {new : Option DirNode}

/-- No two subdirectories of a directory have one name. -/
def Distinct (v : Volume) : Prop := ∀ d ∈ v.dirs, ∀ e ∈ v.dirs, ∀ e' ∈ v.dirs, e.addr ∈ d.subdirNodes →
    e'.addr ∈ d.subdirNodes →
  e.name ≠ 0 → e'.name ≠ 0 → e.text = e'.text → e = e'

structure Orderly (v : Volume) (root : Nat) : Prop where
  parented : v.Parented root
  files : ∀ d ∈ v.dirs, (d.fileNodes.map FileNode.text).Nodup
  subs : v.Distinct

/-- One directory is different, and it may have got a new one. -/
structure Grows (v w : Volume) (k : Nat) (d d' : DirNode) (new : Option DirNode) : Prop where
  dir : v.dirs[k]? = some d
  dirs : w.dirs = v.dirs.set k d' ++ new.toList
  addr : d'.addr = d.addr
  name : d'.name = d.name
  text : d'.text = d.text
  parent : d'.parent = d.parent
  subs : d'.subdirNodes = d.subdirNodes ++ new.toList.map DirNode.addr
  above : ∀ e ∈ new, e.parent = d.addr
  empty : ∀ e ∈ new, e.subdirNodes = [] ∧ e.fileNodes = []

/-- A directory that was there already, with the one it was. -/
def Was (v : Volume) (d d' x y : DirNode) : Prop := x ∈ v.dirs ∧ (y = x ∨ (x = d ∧ y = d'))

theorem Grows.mem (h : v.Grows w k d d' new) (hy : y ∈ w.dirs) : (∃ x, v.Was d d' x y) ∨ y ∈ new := by
  rw [h.dirs] at hy
  cases List.mem_append.mp hy with
  | inl hy =>
    cases List.mem_or_eq_of_mem_set hy with
    | inl hy => exact Or.inl ⟨y, hy, Or.inl rfl⟩
    | inr hy => exact Or.inl ⟨d, List.mem_of_getElem? h.dir, Or.inr ⟨rfl, hy⟩⟩
  | inr hy => exact Or.inr (Option.mem_toList.mp hy)

theorem Grows.changed (h : v.Grows w k d d' new) : d' ∈ w.dirs := by
  rw [h.dirs]
  exact List.mem_append_left _ (List.mem_set (List.getElem?_eq_some_iff.mp h.dir).1 _)

theorem Grows.same (h : v.Grows w k d d' new) (hx : v.Was d d' x y) :
    y.addr = x.addr ∧ y.name = x.name ∧ y.text = x.text ∧ y.parent = x.parent := by
  cases hx.2 with
  | inl he =>
    rw [he]
    exact ⟨rfl, rfl, rfl, rfl⟩
  | inr he =>
    obtain ⟨rfl, rfl⟩ := he
    exact ⟨h.addr, h.name, h.text, h.parent⟩

/-- A directory's subdirectories: those it had, and perhaps the new one. -/
theorem Grows.sub (h : v.Grows w k d d' new) (hx : v.Was d d' x y) {a : Nat} (ha : a ∈ y.subdirNodes) :
    a ∈ x.subdirNodes ∨ (x = d ∧ ∃ e ∈ new, e.addr = a) := by
  cases hx.2 with
  | inl he => exact Or.inl (he ▸ ha)
  | inr he =>
    obtain ⟨rfl, rfl⟩ := he
    rw [h.subs] at ha
    refine (List.mem_append.mp ha).imp_right fun ha => ⟨rfl, ?_⟩
    obtain ⟨e, he, rfl⟩ := List.mem_map.mp ha
    exact ⟨e, Option.mem_toList.mp he, rfl⟩

/-- Every directory is still there. -/
theorem Grows.exists_of (h : v.Grows w k d d' new) (hx : x ∈ v.dirs) :
    ∃ y ∈ w.dirs, v.Was d d' x y ∧ x.subdirNodes ⊆ y.subdirNodes := by
  obtain ⟨j, hj⟩ := List.getElem?_of_mem hx
  have hlt := (List.getElem?_eq_some_iff.mp hj).1
  rw [h.dirs]
  by_cases hkj : k = j
  · rw [← hkj, h.dir] at hj
    obtain rfl := Option.some.inj hj
    refine ⟨d', List.mem_append_left _ (List.mem_of_getElem? (List.getElem?_set_self (hkj ▸ hlt))),
      ⟨hx, Or.inr ⟨rfl, rfl⟩⟩, ?_⟩
    rw [h.subs]
    exact List.subset_append_left _ _
  · exact ⟨x, List.mem_append_left _ (List.mem_of_getElem? ((List.getElem?_set_ne hkj).trans hj)), ⟨hx, Or.inl rfl⟩,
      List.Subset.refl _⟩

theorem Grows.lineage (h : v.Grows w k d d' new) (hw : (w.dirs.map DirNode.addr).Nodup) (hline : v.Lineage root e ds) :
    ∃ e' ds', w.Lineage root e' ds' ∧ e'.addr = e.addr ∧ ds'.map DirNode.name = ds.map DirNode.name := by
  induction hline with
  | @top e he hroot =>
    obtain ⟨y, hy, hwas, -⟩ := h.exists_of he
    obtain ⟨haddr, hname, -⟩ := h.same hwas
    exact ⟨y, [y], .top hy (haddr.trans hroot), haddr, congrArg (fun n => [n]) hname⟩
  | @under e x ds hup hx hin ih =>
    obtain ⟨e', ds', hup', haddr', hnames⟩ := ih
    obtain ⟨z, hz, hwasz, hsub⟩ := h.exists_of hup.mem
    obtain ⟨y, hy, hwas, -⟩ := h.exists_of hx
    obtain ⟨haddr, hname, -⟩ := h.same hwas
    obtain rfl : z = e' := List.inj_on_of_nodup_map hw hz hup'.mem ((h.same hwasz).1.trans haddr'.symm)
    refine ⟨y, y :: ds', .under hup' hy (haddr ▸ hsub hin), haddr, ?_⟩
    rw [List.map_cons, List.map_cons, hname, hnames]

/-- The new one is none of those. -/
theorem Grows.fresh (h : v.Grows w k d d' new) (hw : (w.dirs.map DirNode.addr).Nodup) (he : e ∈ new) (hx : x ∈ v.dirs) :
    x.addr ≠ e.addr := by
  have hsame : (v.dirs.set k d').map DirNode.addr = v.dirs.map DirNode.addr := by
    rw [List.map_set, h.addr]
    apply set_same
    rw [List.getElem?_map, h.dir]
    rfl
  rw [h.dirs, List.map_append, hsame] at hw
  exact (List.nodup_append.mp hw).2.2 _ (List.mem_map_of_mem hx) _ (List.mem_map_of_mem (Option.mem_toList.mpr he))

/-- A subdirectory of a directory is an old one of it, or the new one. -/
theorem Grows.sub_cases (h : v.Grows w k d d' new) (hclosed : v.Closed) (hw : (w.dirs.map DirNode.addr).Nodup)
    (hx : v.Was d d' x y) (he : e ∈ w.dirs) (hin : e.addr ∈ y.subdirNodes) :
    (∃ u, v.Was d d' u e ∧ u.addr ∈ x.subdirNodes) ∨ (x = d ∧ e ∈ new) := by
  cases h.mem he with
  | inl hu =>
    obtain ⟨u, hu⟩ := hu
    have haddr := (h.same hu).1
    cases h.sub hx hin with
    | inl hin => exact Or.inl ⟨u, hu, haddr ▸ hin⟩
    | inr hin =>
      obtain ⟨-, z, hz, hza⟩ := hin
      exact absurd (haddr.symm.trans hza.symm) (h.fresh hw hz hu.1)
  | inr he =>
    cases h.sub hx hin with
    | inl hin =>
      obtain ⟨z, hz, hza⟩ := hclosed x hx.1 _ hin
      exact absurd hza (h.fresh hw he hz)
    | inr hin => exact Or.inr ⟨hin.1, he⟩

/-- A directory with subdirectories is an old one. -/
theorem Grows.was (h : v.Grows w k d d' new) (hy : y ∈ w.dirs) {a : Nat} (hin : a ∈ y.subdirNodes) :
    ∃ x, v.Was d d' x y := by
  cases h.mem hy with
  | inl hx => exact hx
  | inr hy =>
    rw [(h.empty y hy).1] at hin
    cases hin

/-- Names stay distinct if the new one is. -/
theorem Distinct.grow (hv : v.Distinct) (h : v.Grows w k d d' new) (hclosed : v.Closed)
    (hw : (w.dirs.map DirNode.addr).Nodup)
    (hname : ∀ e ∈ new, ∀ x ∈ v.dirs, x.addr ∈ d.subdirNodes → x.name ≠ 0 → x.text ≠ e.text) : w.Distinct := by
  intro y hy z hz z' hz' hin hin' h0 h0' htext
  obtain ⟨x, hx⟩ := h.was hy hin
  refine List.inj_on_of_nodup_map hw hz hz' ?_
  cases h.sub_cases hclosed hw hx hz hin with
  | inl hu =>
    obtain ⟨u, hu, hin⟩ := hu
    obtain ⟨haddr, hn, ht, -⟩ := h.same hu
    cases h.sub_cases hclosed hw hx hz' hin' with
    | inl hu' =>
      obtain ⟨u', hu', hin'⟩ := hu'
      obtain ⟨haddr', hn', ht', -⟩ := h.same hu'
      rw [haddr, haddr', hv x hx.1 u hu.1 u' hu'.1 hin hin' (hn ▸ h0) (hn' ▸ h0') (ht ▸ ht' ▸ htext)]
    | inr hz' =>
      obtain ⟨rfl, hz'⟩ := hz'
      exact absurd (ht.symm.trans htext) (hname z' hz' u hu.1 hin (hn ▸ h0))
  | inr hz =>
    obtain ⟨rfl, hz⟩ := hz
    cases h.sub_cases hclosed hw hx hz' hin' with
    | inl hu' =>
      obtain ⟨u', hu', hin'⟩ := hu'
      obtain ⟨-, hn', ht', -⟩ := h.same hu'
      exact absurd (ht'.symm.trans htext.symm) (hname z hz u' hu'.1 hin' (hn' ▸ h0'))
    | inr hz' => rw [Option.mem_unique hz hz'.2]

/-- Where the new name is new and files stay apart, order is kept. -/
theorem Orderly.grow (ho : v.Orderly root) (ht : IsTree v.shape root) (h : v.Grows w k d d' new)
    (hw : (w.dirs.map DirNode.addr).Nodup) (hfiles : (d'.fileNodes.map FileNode.text).Nodup)
    (hname : ∀ e ∈ new, ∀ x ∈ v.dirs, x.addr ∈ d.subdirNodes → x.name ≠ 0 → x.text ≠ e.text) : w.Orderly root := by
  refine ⟨⟨fun y hy hroot => ?_, fun y hy z hz hin => ?_⟩, fun y hy => ?_, ho.subs.grow h ht.volume_closed hw hname⟩
  · cases h.mem hy with
    | inl hx =>
      obtain ⟨x, hx⟩ := hx
      obtain ⟨haddr, -, -, hparent⟩ := h.same hx
      rw [hparent]
      exact ho.parented.top x hx.1 (haddr.symm.trans hroot)
    | inr hy =>
      obtain ⟨r, hr, hra⟩ := mem_shape_addrs.mp ht.rooted
      exact absurd (hra.trans hroot.symm) (h.fresh hw hy hr)
  · obtain ⟨x, hx⟩ := h.was hy hin
    rw [(h.same hx).1]
    cases h.sub_cases ht.volume_closed hw hx hz hin with
    | inl hu =>
      obtain ⟨u, hu, hin⟩ := hu
      rw [(h.same hu).2.2.2]
      exact ho.parented.sub x hx.1 u hu.1 hin
    | inr hz => exact hz.1.symm ▸ h.above z hz.2
  · cases h.mem hy with
    | inl hx =>
      obtain ⟨x, hx, he⟩ := hx
      cases he with
      | inl he => exact he ▸ ho.files x hx
      | inr he => exact he.2 ▸ hfiles
    | inr hy =>
      rw [(h.empty y hy).2]
      exact List.nodup_nil

/-! ### What grows -/

theorem grows_pool (hk : v.dirs[k]? = some d) (P : Pool) : v.Grows {v with pool := P} k d d none :=
  ⟨hk, ((List.append_nil _).trans (set_same hk)).symm, rfl, rfl, rfl, rfl, (List.append_nil _).symm, nofun, nofun⟩

theorem grows_createFile (hk : v.dirs[k]? = some d) (text contents : List UInt8) :
    v.Grows (v.withDir k (d.createFile v.pool text contents).1 (d.createFile v.pool text contents).2.1) k d
      (d.createFile v.pool text contents).2.1 none := by
  have hdirs : ∀ d' : DirNode, v.dirs.set k d' = v.dirs.set k d' ++ (none : Option DirNode).toList := fun _ =>
    (List.append_nil _).symm
  cases DirNode.createFile_cases v.pool d text contents with
  | inl h =>
    rw [h.1]
    exact ⟨hk, hdirs _, rfl, rfl, rfl, rfl, (List.append_nil _).symm, nofun, nofun⟩
  | inr h =>
    obtain ⟨f, files, -, -, -, -, he⟩ := h
    rw [he]
    exact ⟨hk, hdirs _, rfl, rfl, rfl, rfl, (List.append_nil _).symm, nofun, nofun⟩

theorem grows_deleteFile (hk : v.dirs[k]? = some d) (text : List UInt8) :
    v.Grows (v.withDir k (d.deleteFile v.pool text).1 (d.deleteFile v.pool text).2) k d
      (d.deleteFile v.pool text).2 none := by
  have hdirs : ∀ d' : DirNode, v.dirs.set k d' = v.dirs.set k d' ++ (none : Option DirNode).toList := fun _ =>
    (List.append_nil _).symm
  cases DirNode.deleteFile_cases v.pool d text with
  | inl h =>
    rw [h.2]
    exact ⟨hk, hdirs _, rfl, rfl, rfl, rfl, (List.append_nil _).symm, nofun, nofun⟩
  | inr h =>
    obtain ⟨i, f, -, -, he⟩ := h
    rw [he]
    exact ⟨hk, hdirs _, rfl, rfl, rfl, rfl, (List.append_nil _).symm, nofun, nofun⟩

theorem grows_createDir (hk : v.dirs[k]? = some d) (text : List UInt8) :
    v.Grows (v.createDir k d text) k d (d.createDir v.pool text).2.1 (d.createDir v.pool text).2.2.1 ∧
      ∀ e ∈ (d.createDir v.pool text).2.2.1, e.text = text := by
  cases DirNode.createDir_cases v.pool d text with
  | inl h =>
    have hnone : ∀ e, e ∉ (d.createDir v.pool text).2.2.1 := fun e he => by
      rw [h.2] at he
      cases he
    refine ⟨⟨hk, rfl, ?_, ?_, ?_, ?_, ?_, fun e he => absurd he (hnone e), fun e he => absurd he (hnone e)⟩,
      fun e he => absurd he (hnone e)⟩
    all_goals rw [h.1]
    rw [h.2]
    exact (List.append_nil _).symm
  | inr h =>
    obtain ⟨dir, name, subdirs, -, hnew, he⟩ := h
    refine ⟨⟨hk, rfl, ?_, ?_, ?_, ?_, ?_, fun e he' => ?_, fun e he' => ?_⟩, fun e he' => ?_⟩
    any_goals rw [he]
    · rw [hnew]
      rfl
    all_goals
      rw [hnew] at he'
      cases he'
      first
        | rfl
        | exact ⟨rfl, rfl⟩

theorem files_createFile (hd : (d.fileNodes.map FileNode.text).Nodup) {text : List UInt8}
    (hnone : d.fileIdx text = none) (P : Pool)
    (contents : List UInt8) : ((d.createFile P text contents).2.1.fileNodes.map FileNode.text).Nodup := by
  cases DirNode.createFile_cases P d text contents with
  | inl h =>
    rw [h.1]
    exact hd
  | inr h =>
    obtain ⟨f, files, -, hf, -, -, he⟩ := h
    rw [he, List.map_append, List.map_singleton, hf]
    refine List.nodup_append.mpr ⟨hd, List.nodup_singleton _, fun a ha b hb hab => ?_⟩
    obtain ⟨g, hg, rfl⟩ := List.mem_map.mp ha
    have hno := List.findIdx?_eq_none_iff.mp hnone g hg
    rw [List.mem_singleton] at hb
    exact absurd (hab.trans hb) (by simpa using hno)

theorem files_deleteFile (hd : (d.fileNodes.map FileNode.text).Nodup) (P : Pool) (text : List UInt8) :
    ((d.deleteFile P text).2.fileNodes.map FileNode.text).Nodup := by
  cases DirNode.deleteFile_cases P d text with
  | inl h =>
    rw [h.2]
    exact hd
  | inr h =>
    obtain ⟨i, f, -, -, he⟩ := h
    rw [he]
    exact hd.sublist ((List.eraseIdx_sublist ..).map _)

theorem files_createDir (hd : (d.fileNodes.map FileNode.text).Nodup) (P : Pool) (text : List UInt8) :
    ((d.createDir P text).2.1.fileNodes.map FileNode.text).Nodup := by
  cases DirNode.createDir_cases P d text with
  | inl h =>
    rw [h.1]
    exact hd
  | inr h =>
    obtain ⟨dir, name, subdirs, -, -, he⟩ := h
    rw [he]
    exact hd

/-! ### In one place -/

theorem once (ht : IsTree v.shape root) : root ∉ v.dirs.flatMap DirNode.subdirNodes ∧
    (v.dirs.flatMap DirNode.subdirNodes).Nodup := by
  have honce := ht.once
  unfold shape at honce
  rw [List.flatMap_map] at honce
  exact List.nodup_cons.mp honce

theorem subdirs_nodup (ht : IsTree v.shape root) (hd : d ∈ v.dirs) : d.subdirNodes.Nodup :=
  (List.nodup_flatMap.mp (once ht).2).1 d hd

/-- No directory is in two. -/
theorem eq_of_mem_subdirs (ht : IsTree v.shape root) (hd : d ∈ v.dirs) (he : e ∈ v.dirs) {a : Nat}
    (ha : a ∈ d.subdirNodes)
    (ha' : a ∈ e.subdirNodes) : d = e := by
  have hsymm : Std.Symm (Function.onFun List.Disjoint DirNode.subdirNodes) := ⟨fun _ _ h => h.symm⟩
  by_contra hne
  exact List.Pairwise.forall (List.nodup_flatMap.mp (once ht).2).2 hd he hne ha ha'

/-- A directory that is few steps down has few above it. -/
theorem Descends.lineage (h : v.Descends n d e) (hline : v.Lineage root d ds) :
    ∃ es, v.Lineage root e es ∧ es.length = ds.length + n := by
  induction h generalizing ds with
  | here => exact ⟨ds, hline, rfl⟩
  | down he hin _ ih =>
    obtain ⟨es, hes, hlen⟩ := ih (.under hline he hin)
    rw [List.length_cons] at hlen
    exact ⟨es, hes, by omega⟩

end Volume

/-- The subdirectories of the volume have different names if those in memory do. -/
theorem Mount.Good.distinct {L : Layout} {R : Rodata} {s : Mount} {v : Volume} (hg : s.Good L R v)
    (h : ∀ dir i j text, s.heap.InTree s.root dir → i < s.heap.word dir RamfsDir.subdirCount →
      j < s.heap.word dir RamfsDir.subdirCount → s.heap.HasName (s.heap.subdirAt dir i) text →
      s.heap.HasName (s.heap.subdirAt dir j) text → i = j) : v.Distinct := by
  intro d hd e he e' he' hin hin' h0 h0' htext
  obtain ⟨i, hi⟩ := List.getElem?_of_mem hin
  obtain ⟨j, hj⟩ := List.getElem?_of_mem hin'
  have hij := h d.addr i j e.text (hg.inTree hd)
    (by rw [hg.subdirCount hd]; exact (List.getElem?_eq_some_iff.mp hi).1)
    (by rw [hg.subdirCount hd]; exact (List.getElem?_eq_some_iff.mp hj).1)
    (by rw [hg.subdirAt hd hi]; exact (hg.hasName_dir he).mpr ⟨h0, rfl⟩)
    (by rw [hg.subdirAt hd hj]; exact (hg.hasName_dir he').mpr ⟨h0', htext.symm⟩)
  rw [hij, hj] at hi
  exact (List.inj_on_of_nodup_map hg.owns.dirs_nodup he' he (Option.some.inj hi)).symm

end ShompOS
