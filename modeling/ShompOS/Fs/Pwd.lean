import ShompOS.Fs.Names
import ShompOS.Fs.Upward
import Mathlib.Data.List.Flatten
import Mathlib.Data.List.Pairwise

/-! `ramfs_pwd` in a file system.

In a tree where each directory points back to the one it is in, a directory has one
lineage up to the root. The buffer for its path is a byte longer than the path, so
that the first byte printed is whatever the buffer begins with. -/
namespace ShompOS
open Memory

/-- Each subdirectory points back to its directory, and the root to none. -/
structure Heap.Parented (h : Heap) (root : Nat) : Prop where
  top : h.word root RamfsDir.parent = 0
  sub : ∀ dir i, h.InTree root dir → i < h.word dir RamfsDir.subdirCount →
    h.word (h.subdirAt dir i) RamfsDir.parent = dir

/-- The root is called `/`; all other names of directories are plain, and none is there
twice in a directory. -/
structure Heap.PlainDirs (h : Heap) (root : Nat) : Prop where
  top : h.HasName root (ascii "/")
  sub : ∀ dir i, h.InTree root dir → i < h.word dir RamfsDir.subdirCount →
    ∃ text, h.HasName (h.subdirAt dir i) text ∧ Plain text
  subs : ∀ dir i j text, h.InTree root dir → i < h.word dir RamfsDir.subdirCount → j < h.word dir RamfsDir.subdirCount →
    h.HasName (h.subdirAt dir i) text → h.HasName (h.subdirAt dir j) text → i = j

theorem Heap.PlainDirs.named {h : Heap} {root : Nat} (hp : h.PlainDirs root) : h.Named root := fun dir i hdir hi => by
  obtain ⟨text, hname, -⟩ := hp.sub dir i hdir hi
  exact hname.1

/-- The directories are the root and some below it, all with names and parents. -/
def Heap.flatUpward (h : Heap) (root : Nat) : Bool :=
  h.flat root ∧ h.plainEntries (h.subdirAt root) (h.word root RamfsDir.subdirCount) ∧
    h.word root RamfsDir.parent = 0 ∧ h.nameAt root = some (ascii "/") ∧
    ∀ i, i < h.word root RamfsDir.subdirCount → h.word (h.subdirAt root i) RamfsDir.parent = root

theorem Heap.upward_of_flat {h : Heap} {root : Nat} (hf : h.flatUpward root) : h.Parented root ∧ h.PlainDirs root := by
  obtain ⟨hflat, hsubs, hparent, hname, hparents⟩ := of_decide_eq_true hf
  have hroot : ∀ {dir i}, h.InTree root dir → i < h.word dir RamfsDir.subdirCount → dir = root := by
    intro dir i hdir hi
    rcases Heap.inTree_flat hflat hdir with rfl | ⟨j, hj, rfl⟩
    · rfl
    · rw [of_decide_eq_true hflat j hj] at hi
      exact absurd hi (Nat.not_lt_zero _)
  refine ⟨⟨hparent, fun dir i hdir hi => ?_⟩, Heap.nameAt_hasName hname, fun dir i hdir hi => ?_,
    fun dir i j text hdir hi hj h₁ h₂ => ?_⟩
  · obtain rfl := hroot hdir hi
    exact hparents i hi
  · obtain rfl := hroot hdir hi
    obtain ⟨text, -, hnamed⟩ := Heap.plain_of_entries hsubs hi
    exact ⟨text, hnamed⟩
  · obtain rfl := hroot hdir hi
    exact Heap.distinct_of_entries hsubs hi hj h₁ h₂

/-! ### Lineages -/

namespace Volume
variable {v : Volume} {root : Nat} {d e x : DirNode} {ds es : List DirNode}

structure Parented (v : Volume) (root : Nat) : Prop where
  top : ∀ d ∈ v.dirs, d.addr = root → d.parent = 0
  sub : ∀ d ∈ v.dirs, ∀ e ∈ v.dirs, e.addr ∈ d.subdirNodes → e.parent = d.addr

/-- The directories from one up to the root. -/
inductive Lineage (v : Volume) (root : Nat) : DirNode → List DirNode → Prop
  | top {d : DirNode} : d ∈ v.dirs → d.addr = root → Lineage v root d [d]
  | under {d e : DirNode} {ds : List DirNode} : Lineage v root d ds → e ∈ v.dirs → e.addr ∈ d.subdirNodes →
      Lineage v root e (e :: ds)

theorem Lineage.mem (h : v.Lineage root d ds) : d ∈ v.dirs := by
  cases h with
  | top hd => exact hd
  | under _ hd => exact hd

theorem Lineage.subset (h : v.Lineage root d ds) : ds ⊆ v.dirs := by
  induction h with
  | top hd => exact fun x hx => List.mem_singleton.mp hx ▸ hd
  | under _ he _ ih => exact List.cons_subset.mpr ⟨he, ih⟩

/-- Every directory of a tree has a lineage. -/
theorem exists_lineage (ht : IsTree v.shape root) (hd : d ∈ v.dirs) : ∃ ds, v.Lineage root d ds := by
  have hreach := ht.reached (d.addr, d.subdirNodes) (List.mem_map.mpr ⟨d, hd, rfl⟩)
  dsimp only at hreach
  generalize ha : d.addr = a at hreach
  induction hreach generalizing d with
  | root => exact ⟨_, .top hd ha⟩
  | subdir _ hx hb ih =>
    obtain ⟨e, he, hxe⟩ := List.mem_map.mp hx
    obtain ⟨rfl, rfl⟩ := Prod.mk.inj hxe
    obtain ⟨ds, hds⟩ := ih he rfl
    exact ⟨_, .under hds hd (ha ▸ hb)⟩

/-- By the pointers back it has one only. -/
theorem Lineage.unique (hp : v.Parented root) (hv : (v.dirs.map DirNode.addr).Nodup) (h0 : ∀ d ∈ v.dirs, d.addr ≠ 0)
    (h : v.Lineage root d ds) (h' : v.Lineage root d es) : ds = es := by
  induction h generalizing es with
  | top hd hroot =>
    cases h' with
    | top => rfl
    | under hup he hsub => exact absurd ((hp.sub _ hup.mem _ he hsub).symm.trans (hp.top _ hd hroot)) (h0 _ hup.mem)
  | under hup he hsub ih =>
    cases h' with
    | top _ hroot => exact absurd ((hp.sub _ hup.mem _ he hsub).symm.trans (hp.top _ he hroot)) (h0 _ hup.mem)
    | under hup' _ hsub' =>
      have haddr := (hp.sub _ hup.mem _ he hsub).symm.trans (hp.sub _ hup'.mem _ he hsub')
      obtain rfl := List.inj_on_of_nodup_map hv hup.mem hup'.mem haddr
      rw [ih hup']

/-- Each directory of a lineage has its own within it. -/
theorem Lineage.suffix (h : v.Lineage root d ds) (hx : x ∈ ds) : ∃ es, v.Lineage root x es ∧ es <:+ ds := by
  induction h with
  | top hd hroot =>
    rw [List.mem_singleton.mp hx]
    exact ⟨_, .top hd hroot, List.suffix_refl _⟩
  | @under d e ds hup he hsub ih =>
    cases List.mem_cons.mp hx with
    | inl hx =>
      rw [hx]
      exact ⟨_, .under hup he hsub, List.suffix_refl _⟩
    | inr hx =>
      obtain ⟨es, hes, hsuf⟩ := ih hx
      exact ⟨es, hes, hsuf.trans (List.suffix_cons e ds)⟩

theorem Lineage.nodup (hp : v.Parented root) (hv : (v.dirs.map DirNode.addr).Nodup) (h0 : ∀ d ∈ v.dirs, d.addr ≠ 0)
    (h : v.Lineage root d ds) : ds.Nodup := by
  induction h with
  | top => exact List.nodup_singleton _
  | @under d e ds hup he hsub ih =>
    refine List.nodup_cons.mpr ⟨fun hmem => ?_, ih⟩
    -- it would be above itself
    obtain ⟨es, hes, hsuf⟩ := hup.suffix hmem
    have hlen := hsuf.length_le
    rw [hes.unique hp hv h0 (.under hup he hsub), List.length_cons] at hlen
    omega

end Volume

/-! ### Room for the path -/

/-- Cells that do not meet fit into the address space. -/
theorem Owns.total_le {L : Layout} {S : Nat → UInt8} {P : Pool} {h : Heap} {cs ds : List Cell} (ho : Owns L S P h cs)
    (hsub : ds ⊆ cs) (hnodup : (ds.map Prod.fst).Nodup) : heapLowerBound + (ds.map fun c =>
      c.2.size).sum ≤ addressSpace := by
  have hpM := two_pow_pos' maxBlockScale
  have hbytes : (ds.flatMap fun c => List.range' c.1 c.2.size).Nodup := by
    refine List.nodup_flatMap.mpr ⟨fun c _ => List.nodup_range', ?_⟩
    refine (List.pairwise_map.mp hnodup).imp_of_mem fun {c d} hc hd hne => ?_
    rw [Function.onFun, List.disjoint_left]
    intro x hx hx'
    have hsep := ho.apart (hsub hc) (hsub hd) hne
    rw [List.mem_range'_1] at hx hx'
    omega
  have hrange : (ds.flatMap fun c => List.range' c.1 c.2.size) ⊆ List.range' heapLowerBound
    (addressSpace - heapLowerBound) := by
    intro x hx
    obtain ⟨c, hc, hx⟩ := List.mem_flatMap.mp hx
    have hb := ho.bounds (hsub hc)
    rw [List.mem_range'_1] at hx ⊢
    have hlow : heapLowerBound ≤ addressSpace := by decide
    omega
  have hlen := (hbytes.subperm hrange).length_le
  rw [List.length_flatMap, List.length_range'] at hlen
  simp only [List.length_range'] at hlen
  have hlow : heapLowerBound ≤ addressSpace := by decide
  omega

/-! ### What the pointers lead to -/

/-- What is read as the name of a directory; without a name it is what lies at
address 0. -/
def DirNode.Says (L : Layout) (m : Memory) (d : DirNode) (text : List UInt8) : Prop :=
  (d.name ≠ 0 ∧ d.text = text) ∨ (d.name = 0 ∧ IsStr m 0 text ∧ ∀ i, i ≤ text.length → L.Static i)

section Upward
variable {L : Layout} {S : Nat → UInt8} {P : Pool} {h h' : Heap} {v : Volume} {d : DirNode} {ds : List DirNode}
  {cs : List Cell}
  {root lo hi path : Nat} {text : List UInt8} {texts : List (List UInt8)}

theorem DirNode.Says.congr (hs : d.Says L h.mem text) (hm : ∀ x, L.Static x → h'.mem.byte x = h.mem.byte x) :
    d.Says L h'.mem text := by
  cases hs with
  | inl hs => exact Or.inl hs
  | inr hs =>
    obtain ⟨h0, hstr, hstatic⟩ := hs
    exact Or.inr ⟨h0, hstr.congr fun x _ hx => hm x (hstatic x (by omega)), hstatic⟩

/-- One directory outside of the buffer. -/
theorem Owns.upwardDir (ho : Owns L S P h cs) (hsub : v.cells ⊆ cs) (hvalid : ∀ d ∈ v.dirs, d.Valid)
    (hout : ∀ c ∈ v.cells, Beside lo hi c.1 c.2.size) (hlow : hi = 0 ∨ heapLowerBound ≤ lo) (hd : d ∈ v.dirs)
    (htexts : d.Says L h.mem text) (hup : h.mem.Upward lo hi d.parent texts) : h.mem.Upward lo hi d.addr
      (text :: texts) := by
  have hrec : (d.addr, Contents.words d.record) ∈ v.cells := DirNode.mem_cells hd (List.mem_cons_self ..)
  have hword : ∀ i w, d.record[i]? = some w → h.mem.word d.addr i = w := fun i w hi => ho.word_eq (hsub hrec) hi
  have hb := (ho.bounds (hsub hrec)).2.1
  unfold Memory.Upward
  rw [hword RamfsDir.name d.name rfl, hword RamfsDir.parent d.parent rfl]
  refine ⟨ho.ne_zero (hsub hrec), Nat.le_trans (Nat.le_add_right _ _) hb, hout _ hrec, ?_, ?_, hup⟩
  all_goals
    cases htexts with
    | inl hs =>
      obtain ⟨hne, rfl⟩ := hs
      have hname : (d.name, Contents.bytes (d.text ++ [0])) ∈ v.cells := DirNode.mem_cells hd (DirNode.name_mem hne)
      first
        | exact ho.isStr (hsub hname) (hvalid d hd).text
        | have := hout _ hname
          rwa [Contents.size_bytes, List.length_append] at this
    | inr hs =>
      obtain ⟨h0, hstr, hstatic⟩ := hs
      rw [h0]
      first
        | exact hstr
        | have hend := (hstatic text.length (Nat.le_refl _)).1
          unfold Beside
          omega

theorem Owns.upward (ho : Owns L S P h cs) (hsub : v.cells ⊆ cs) (hvalid : ∀ d ∈ v.dirs, d.Valid) (hp : v.Parented root)
    (hout : ∀ c ∈ v.cells, Beside lo hi c.1 c.2.size) (hlow : hi = 0 ∨ heapLowerBound ≤ lo)
    (hline : v.Lineage root d ds)
    (htexts : List.Forall₂ (DirNode.Says L h.mem) ds texts) : h.mem.Upward lo hi d.addr texts := by
  induction hline generalizing texts with
  | top hd hroot =>
    cases htexts with
    | cons htexts hnil =>
      cases hnil
      exact ho.upwardDir hsub hvalid hout hlow hd htexts (hp.top _ hd hroot)
  | under hup he hin ih =>
    cases htexts with
    | cons htexts hrest =>
      refine ho.upwardDir hsub hvalid hout hlow he htexts ?_
      rw [hp.sub _ hup.mem _ he hin]
      exact ih hrest

/-! ### The buffer -/

theorem length_le_pathSize (texts : List (List UInt8)) : texts.length ≤ pathSize texts := by
  induction texts with
  | nil => exact Nat.le_refl 0
  | cons text texts ih =>
    rw [List.length_cons, pathSize_cons]
    omega

theorem Owns.pathBuffer (ho : Owns L S P h cs) {dir : Nat} (hup : h.mem.Upward 0 0 dir texts)
    (hfits : pathSize texts + 1 < addressSpace) :
    ∃ h', h.pathBuffer L dir = some (h', (P.allocate (pathSize texts + 1)).2, pathSize texts) ∧
      ((P.allocate (pathSize texts + 1)).2 = 0 → Owns L S P h' cs) ∧
      ((P.allocate (pathSize texts + 1)).2 ≠ 0 → ∃ junk, junk.length = pathSize texts + 1 ∧
        Owns L S (P.allocate (pathSize texts + 1)).1 h'
          (((P.allocate (pathSize texts + 1)).2, .bytes junk) :: cs)) := by
  have hfuel := length_le_pathSize texts
  obtain ⟨h', hcall, hzero, hnew⟩ := ho.allocate (pathSize texts + 1)
  unfold Heap.pathBuffer
  rw [pathLength_eq hup (by omega) (by omega), Option.bind_some, Nat.zero_add, wrap_eq hfits, hcall]
  exact ⟨h', rfl, fun h0 => (hzero h0).2, fun hne => Owns.exists_bytes (hnew hne) (Nat.le_refl _)⟩

/-- The path is written behind the first byte of its buffer, which is left as it was. -/
theorem Owns.writePath {junk : List UInt8} (ho : Owns L S P h ((path, .bytes junk) :: cs))
    (hlen : junk.length = pathSize (text :: texts) + 1) {dir : Nat}
    (hup : h.mem.Upward path (path + junk.length) dir (text :: texts)) :
    ∃ h', h.writePath dir path (pathSize (text :: texts)) = some h' ∧
      (∃ bs, Owns L S P h' ((path, .bytes bs) :: cs)) ∧
      Spares (fun x => ¬ (path + 1 ≤ x ∧ x ≤ path + pathSize (text :: texts))) h.mem h'.mem ∧
      IsStr h'.mem (path + 1) (pathUp (text :: texts)) := by
  have hsize := length_pathUp text texts
  have hb := ho.bounds (List.mem_cons_self ..)
  have hpM := two_pow_pos' maxBlockScale
  have hfuel := length_le_pathSize (text :: texts)
  rw [Contents.size_bytes] at hb
  generalize pathSize (text :: texts) = n at *
  have hnul := spares_store8 (R := fun x => ¬ (path + 1 ≤ x ∧ x ≤ path + n)) h.mem (a := path + n) 0
    (not_not.mpr (by omega))
  have hend : IsStr (h.mem.store8 (path + n) 0) (path + n) [] :=
    ⟨fun i c hi => (nomatch hi), (byte_store8 ..).trans (if_pos rfl), List.not_mem_nil, by
      rw [List.length_nil]
      omega⟩
  have hdeep : (text :: texts).length < addressSpace := by omega
  obtain ⟨m', hfill, hstr, hspares⟩ := fillPath_eq (hup.congr fun x hx => hnul.bytes x (show ¬ (_ ∧ _) by omega)) hdeep
    (by omega) hend (by rw [List.length_nil]; omega)
  rw [show path + n - (pathUp (text :: texts)).length = path + 1 by omega] at hstr hspares
  rw [List.append_nil] at hstr
  have hall : Spares (fun x => ¬ (path + 1 ≤ x ∧ x ≤ path + n)) h.mem m' :=
    hnul.trans (hspares.mono fun x hx => by omega)
  unfold Heap.writePath
  rw [wrap_eq (by omega), hfill]
  refine ⟨_, rfl, ⟨m'.bytesAt path junk.length, ?_⟩, hall, hstr⟩
  refine ho.update 0 rfl (r := .bytes (m'.bytesAt path junk.length)) (by simp)
    (fun x hx => hall.bytes x ?_) fun i b hi => ?_
  · rw [Contents.size_bytes] at hx
    omega
  · have hlt := (List.getElem?_eq_some_iff.mp hi).1
    rw [length_bytesAt] at hlt
    rw [bytesAt_getElem? _ _ hlt] at hi
    exact Option.some.inj hi

end Upward

/-- The names of two directories are not at one place. -/
theorem Owns.name_inj {L : Layout} {S : Nat → UInt8} {P : Pool} {h : Heap} {v : Volume} {F : List Cell} {d e : DirNode}
    (ho : Owns L S P h (v.cells ++ F)) (hd : d ∈ v.dirs) (he : e ∈ v.dirs) (hne : d.name ≠ 0) (heq : d.name = e.name) :
    d = e := by
  have hsub : ∀ d ∈ v.dirs, (nameCells d.name d.text).Sublist d.cells := fun d _ =>
    .cons _ ((List.sublist_append_left _ _).trans
      ((List.sublist_append_right _ _).trans (List.sublist_append_right _ _)))
  have hnames : (v.dirs.flatMap fun d => (nameCells d.name d.text).map Prod.fst).Nodup := by
    refine ho.nodup.sublist ?_
    rw [← List.map_flatMap]
    refine List.Sublist.map _ ((List.Sublist.flatMap_right _ hsub).trans ?_)
    exact (List.sublist_append_left _ _).trans (List.sublist_append_left _ _)
  have hsymm : Std.Symm (Function.onFun List.Disjoint fun d : DirNode => (nameCells d.name d.text).map Prod.fst) :=
    ⟨fun _ _ h => h.symm⟩
  by_contra hde
  have hapart := List.Pairwise.forall (List.nodup_flatMap.mp hnames).2 hd he hde
  have hmem : ∀ {text : List UInt8}, d.name ∈ (nameCells d.name text).map Prod.fst := fun {text} => by
    unfold nameCells
    rw [if_neg hne]
    exact List.mem_singleton_self _
  exact hapart hmem (heq ▸ hmem)

namespace Mount
variable {L : Layout} {R : Rodata} {s s' : Mount} {v : Volume} {d : DirNode} {ds : List DirNode}
  {texts : List (List UInt8)}
  {dir path length : Nat} {h h' : Heap}

theorem Good.parented_iff (hg : s.Good L R v) : s.heap.Parented s.root ↔ v.Parented s.root := by
  have hparent : ∀ {d}, d ∈ v.dirs → s.heap.word d.addr RamfsDir.parent = d.parent := fun hd =>
    (hg.dirAt hd).record RamfsDir.parent _ rfl
  constructor
  · refine fun h => ⟨fun d hd hroot => ?_, fun d hd e he hin => ?_⟩
    · rw [← hparent hd, hroot]
      exact h.top
    · obtain ⟨i, hi⟩ := List.getElem?_of_mem hin
      have := h.sub d.addr i (hg.inTree hd) (by
        rw [hg.subdirCount hd]
        exact (List.getElem?_eq_some_iff.mp hi).1)
      rwa [hg.subdirAt hd hi, hparent he] at this
  · refine fun h => ⟨?_, fun dir i hdir hi => ?_⟩
    · obtain ⟨d, hd, hroot⟩ := (hg.owns.inTree_iff hg.tree).mp .root
      rw [← hroot, hparent hd]
      exact h.top d hd hroot
    · obtain ⟨d, hd, rfl⟩ := (hg.owns.inTree_iff hg.tree).mp hdir
      rw [hg.subdirCount hd] at hi
      have hget := List.getElem?_eq_getElem hi
      obtain ⟨e, he, hea⟩ := hg.subdirNode hd (List.getElem_mem hi)
      rw [hg.subdirAt hd hget, ← hea, hparent he]
      exact h.sub d hd e he (hea ▸ List.getElem_mem hi)

/-- Where subdirectories have names all of a lineage have. -/
theorem Good.lineage_named (hg : s.Good L R v) (hplain : s.heap.PlainDirs s.root) (hline : v.Lineage s.root d ds) :
    ∀ e ∈ ds, e.name ≠ 0 := by
  induction hline with
  | @top d hd hroot =>
    intro e he
    rw [List.mem_singleton.mp he]
    exact ((hg.hasName_dir hd).mp (hroot ▸ hplain.top)).1
  | @under d e ds hup he hin ih =>
    exact List.forall_mem_cons.mpr ⟨hg.named_iff.mp hplain.named _ hup.mem _ hin _ he rfl, ih⟩

theorem Good.lineage_nodup (hg : s.Good L R v) (hp : v.Parented s.root) (hline : v.Lineage s.root d ds) : ds.Nodup :=
  hline.nodup hp hg.owns.dirs_nodup fun _ => hg.addr_ne_zero

/-- Names that are in memory fit into a path. -/
theorem Good.pathSize_lt (hg : s.Good L R v) (hp : v.Parented s.root) (hline : v.Lineage s.root d ds)
    (hnames : ∀ d ∈ ds, d.name ≠ 0) : pathSize (ds.map DirNode.text) + 1 < addressSpace := by
  have hsub : (ds.map fun d => ((d.name, Contents.bytes (d.text ++ [0])) : Cell)) ⊆ v.cells ++
    heldCells s.held s.mem := by
    intro c hc
    obtain ⟨d, hd, rfl⟩ := List.mem_map.mp hc
    refine List.mem_append_left _ (DirNode.mem_cells (hline.subset hd) (List.mem_cons_of_mem _ (List.mem_append_right _
      (List.mem_append_right _ (List.mem_append_left _ ?_)))))
    unfold nameCells
    rw [if_neg (hnames d hd)]
    exact List.mem_singleton_self _
  have htotal := hg.owns.total_le hsub (by
    rw [List.map_map]
    exact (hg.lineage_nodup hp hline).map_on fun d hd e he heq =>
      hg.owns.name_inj (hline.subset hd) (hline.subset he) (hnames d hd) heq)
  have hsum : ((ds.map fun d => ((d.name, Contents.bytes (d.text ++ [0])) : Cell)).map fun c => c.2.size).sum =
      pathSize (ds.map DirNode.text) := by
    unfold pathSize
    rw [List.map_map, List.map_map]
    congr 1
    apply List.map_congr_left
    intro d _
    exact List.length_append
  have hlow : 1 < heapLowerBound := by decide
  rw [hsum] at htotal
  omega

theorem says_named {m : Memory} (hnames : ∀ d ∈ ds, d.name ≠ 0) :
    List.Forall₂ (DirNode.Says L m) ds (ds.map DirNode.text) := by
  rw [List.forall₂_map_right_iff, List.forall₂_same]
  exact fun d hd => Or.inl ⟨hnames d hd, rfl⟩

/-- The buffer, and the path in it. -/
theorem Good.writesPath (hg : s.Good L R v) (hp : v.Parented s.root) (hline : v.Lineage s.root d ds)
    (htexts : List.Forall₂ (DirNode.Says L s.mem) ds texts) (hfits : pathSize texts + 1 < addressSpace) :
    ∃ h', s.heap.pathBuffer L d.addr = some (h', (v.pool.allocate (pathSize texts + 1)).2, pathSize texts) ∧
      ((v.pool.allocate (pathSize texts + 1)).2 = 0 → Owns L s.mem.byte v.pool h' (v.cells ++ heldCells s.held s.mem)) ∧
      ((v.pool.allocate (pathSize texts + 1)).2 ≠ 0 →
        ∃ h'', h'.writePath d.addr (v.pool.allocate (pathSize texts + 1)).2 (pathSize texts) = some h'' ∧
          (∃ bs, Owns L s.mem.byte (v.pool.allocate (pathSize texts + 1)).1 h''
            (((v.pool.allocate (pathSize texts + 1)).2, .bytes bs) :: (v.cells ++ heldCells s.held s.mem))) ∧
          Spares (fun x => ¬ ((v.pool.allocate (pathSize texts + 1)).2 + 1 ≤ x ∧
            x ≤ (v.pool.allocate (pathSize texts + 1)).2 + pathSize texts)) h'.mem h''.mem ∧
          IsStr h''.mem ((v.pool.allocate (pathSize texts + 1)).2 + 1) (pathUp texts)) := by
  have hsub : v.cells ⊆ v.cells ++ heldCells s.held s.mem := List.subset_append_left _ _
  have hout : ∀ c ∈ v.cells, Beside 0 0 c.1 c.2.size := fun c _ => Or.inr (Nat.zero_le _)
  have hup := hg.owns.upward hsub hg.valid hp hout (Or.inl rfl) hline htexts
  obtain ⟨h', hbuffer, hzero, hnew⟩ := hg.owns.pathBuffer hup hfits
  refine ⟨h', hbuffer, hzero, fun hne => ?_⟩
  obtain ⟨junk, hlen, ho⟩ := hnew hne
  generalize v.pool.allocate (pathSize texts + 1) = r at *
  obtain ⟨P, path⟩ := r
  have hout' : ∀ c ∈ v.cells, Beside path (path + junk.length) c.1 c.2.size := fun c hc => by
    have hsep := ho.apart (List.mem_cons_of_mem _ (hsub hc)) (List.mem_cons_self ..) (ho.fresh c (hsub hc))
    rw [Contents.size_bytes] at hsep
    exact hsep.imp Nat.le_of_lt Nat.le_of_lt
  have hup' := ho.upward (List.subset_cons_of_subset _ hsub) hg.valid hp hout' (Or.inr ?_) hline
    (htexts.imp fun d text h => h.congr fun x hx => ho.static x hx)
  · cases hline with
    | top | under =>
      cases htexts
      exact ho.writePath hlen hup'
  · have hb := (ho.bounds (List.mem_cons_self ..)).1
    dsimp only at hb ⊢
    omega

/-- A path is printed, if there is memory for it, and nothing is changed. -/
theorem Good.pwd (hg : s.Good L R v) (hp : v.Parented s.root) (hline : v.Lineage s.root d ds)
    (htexts : List.Forall₂ (DirNode.Says L s.mem) ds texts) (hfits : pathSize texts + 1 < addressSpace) :
    ∃ r, s.ramfs.ramfsPwd L d.addr = some r ∧ r.fdTable = s.ramfs.fdTable ∧
      (s.withRamfs r).Good L R {v with pool := v.pool.borrowed (pathSize texts + 1)} ∧ Calm L s (s.withRamfs r) := by
  obtain ⟨h', hbuffer, hzero, hnew⟩ := hg.writesPath hp hline htexts hfits
  unfold Ramfs.ramfsPwd Pool.borrowed
  rw [if_neg (hg.addr_ne_zero hline.mem), hbuffer, Option.bind_some]
  generalize v.pool.allocate (pathSize texts + 1) = r at *
  obtain ⟨P, path⟩ := r
  dsimp only at *
  by_cases h0 : path = 0
  · rw [if_pos h0, if_pos h0]
    exact ⟨_, rfl, rfl, hg.next (w := v) (r := {s.ramfs with heap := h'}) (hzero h0) hg.table hg.valid hg.tree⟩
  rw [if_neg h0, if_neg h0]
  obtain ⟨h'', hwrite, ⟨bs, ho⟩, -, hstr⟩ := hnew h0
  obtain ⟨h₃, hfree, ho₃⟩ := ho.free 0 rfl
  obtain ⟨text, htext⟩ := hstr.exists_here
  rw [hwrite, Option.bind_some]
  unfold Ramfs.terminalWritestring Ramfs.print
  dsimp only
  rw [strlen_eq htext, Option.map_some, Option.bind_some]
  dsimp only
  rw [hfree]
  exact ⟨_, rfl, rfl, hg.next (w := {v with pool := P.freed path})
    (r := {s.ramfs with heap := h₃, terminal := _}) ho₃ hg.table
    hg.valid hg.tree⟩

/-! ### The path that is printed -/

/-- What `ramfs_pwd` is to do between getting its buffer and printing it: it writes in the
buffer, it has written all that it prints, and that leads back to the directory. -/
structure PrintsPath (L : Layout) (R : Rodata) (root dir path length : Nat) (h h' : Heap) : Prop where
  stores : ∃ new, h'.mem.stores = new ++ h.mem.stores ∧ (∀ x ∈ new, path ≤ x ∧ x ≤ path + length) ∧
    ∀ text, IsStr h'.mem path text → ∀ i, i ≤ text.length → path + i ∈ new
  leadsBack : ∀ last, ∃ h'' last', h'.ramfsFindDir L R last root path = some (h'', last', dir)

/-- It never does: the first byte of the buffer is printed but not written. -/
theorem not_printsPath (hg : s.Good L R v) (hp : s.heap.Parented s.root) (hplain : s.heap.PlainDirs s.root)
    (hdir : s.heap.InTree s.root dir) (hbuffer : s.heap.pathBuffer L dir = some (h, path, length)) (hpath : path ≠ 0) :
    ∃ h', h.writePath dir path length = some h' ∧ ¬ PrintsPath L R s.root dir path length h h' := by
  obtain ⟨d, hd, rfl⟩ := (hg.owns.inTree_iff hg.tree).mp hdir
  obtain ⟨ds, hline⟩ := Volume.exists_lineage hg.tree hd
  have hparents := hg.parented_iff.mp hp
  have hnames : ∀ e ∈ ds, e.name ≠ 0 := hg.lineage_named hplain hline
  obtain ⟨h₁, hbuffer₁, -, hnew⟩ := hg.writesPath hparents hline (says_named hnames)
    (hg.pathSize_lt hparents hline hnames)
  rw [hbuffer] at hbuffer₁
  obtain ⟨rfl, he⟩ := Prod.mk.inj (Option.some.inj hbuffer₁)
  obtain ⟨rfl, rfl⟩ := Prod.mk.inj he
  obtain ⟨h', hwrite, -, hspares, hstr⟩ := hnew hpath
  refine ⟨h', hwrite, fun hprints => ?_⟩
  obtain ⟨new, hnew, -, hall⟩ := hprints.stores
  obtain ⟨new', hnew', hout⟩ := hspares.stores
  rw [hnew, List.append_cancel_right_eq] at hnew'
  obtain ⟨text, htext⟩ := hstr.exists_here
  exact hout _ (hnew' ▸ hall text htext 0 (Nat.zero_le _)) (by omega)

theorem not_printsPath_below : ∃ tr s dir h path length h',
    Run (Fresh .kernelImage bootRodata) (Step .kernelImage bootRodata) tr s ∧ dir ≠ s.root ∧
    s.heap.InTree s.root dir ∧ Heap.pathBuffer .kernelImage (Mount.heap s) dir = some (h, path, length) ∧
    h.writePath dir path length = some h' ∧ ¬ PrintsPath .kernelImage bootRodata s.root dir path length h h' := by
  have hdec : rehearses (fun root => [.createDir root 0x1050]) fun tr s =>
      (s.heap.pathBuffer .kernelImage (s.heap.subdirAt s.root 0)).any fun buffer =>
        (∀ x ∈ tr, x.1.KeepsOpen x.2.1 ∧ x.1.Bounded x.2.1) ∧ s.heap.flatUpward s.root ∧ buffer.2.1 ≠ 0 ∧
          s.heap.word s.root RamfsDir.subdirCount = 1 ∧ s.heap.subdirAt s.root 0 ≠ s.root := by decide +kernel
  obtain ⟨tr, s, hrun, hdec⟩ := run_rehearses hdec
  obtain ⟨⟨h, path, length⟩, hbuffer, hdec⟩ := (Option.any_eq_true _ _).mp hdec
  obtain ⟨hkeeps, hflat, hpath, hcount, hne⟩ := of_decide_eq_true hdec
  obtain ⟨v, hg⟩ := (good_of_run hrun (careful_of_keeps hrun hkeeps)).1
  obtain ⟨hparented, hplain⟩ := Heap.upward_of_flat hflat
  have hdir : s.heap.InTree s.root (s.heap.subdirAt s.root 0) := .subdir .root (hcount ▸ Nat.one_pos)
  obtain ⟨h', hwrite, hnot⟩ := not_printsPath hg hparented hplain hdir hbuffer hpath
  exact ⟨tr, s, _, h, path, length, h', hrun, hne, hdir, hbuffer, hwrite, hnot⟩

/-- A file `a` has been created and deleted below the root. -/
theorem exists_deleted : ∃ tr s h path length h',
    Run (Fresh .kernelImage bootRodata) (Step .kernelImage bootRodata) tr s ∧
    (∀ x ∈ tr, Careful x) ∧ s.heap.Parented s.root ∧ s.heap.PlainDirs s.root ∧
    s.heap.pathBuffer .kernelImage s.root = some (h, path, length) ∧ path ≠ 0 ∧
      h.writePath s.root path length = some h' ∧
    ∃ h'' last, h'.ramfsFindDir .kernelImage bootRodata 0 s.root path = some (h'', last, 0) := by
  have hdec : rehearses (fun root => [.createFile root 0x1050 0x1070 1, .deleteFile root 0x1050]) fun tr s =>
      (s.heap.pathBuffer .kernelImage s.root).any fun buffer =>
        (buffer.1.writePath s.root buffer.2.1 buffer.2.2).any fun h' =>
        (h'.ramfsFindDir .kernelImage bootRodata 0 s.root buffer.2.1).any fun found =>
          (∀ x ∈ tr, x.1.KeepsOpen x.2.1 ∧ x.1.Bounded x.2.1) ∧ s.heap.flatUpward s.root ∧ buffer.2.1 ≠ 0 ∧
          found.2.2 = 0 := by
    decide +kernel
  obtain ⟨tr, s, hrun, hdec⟩ := run_rehearses hdec
  obtain ⟨⟨h, path, length⟩, hbuffer, hdec⟩ := (Option.any_eq_true _ _).mp hdec
  obtain ⟨h', hwrite, hdec⟩ := (Option.any_eq_true _ _).mp hdec
  obtain ⟨⟨h'', last, dir⟩, hfind, hdec⟩ := (Option.any_eq_true _ _).mp hdec
  obtain ⟨hkeeps, hflat, hpath, hdir⟩ := of_decide_eq_true hdec
  obtain rfl : dir = 0 := hdir
  obtain ⟨hparented, hplain⟩ := Heap.upward_of_flat hflat
  exact ⟨tr, s, h, path, length, h', hrun, careful_of_keeps hrun hkeeps, hparented, hplain, hbuffer, hpath, hwrite,
    h'', last, hfind⟩

/-- What is printed for the root begins with the name that the file had, and leads nowhere. -/
theorem deleted_name_printed : ¬ ∀ s v dir h path length h', Mount.Good .kernelImage bootRodata s v →
    s.heap.Parented s.root →
    s.heap.PlainDirs s.root → s.heap.InTree s.root dir → s.heap.pathBuffer .kernelImage dir = some (h, path, length) →
    path ≠ 0 → h.writePath dir path length = some h' →
      PrintsPath .kernelImage bootRodata s.root dir path length h h' := by
  obtain ⟨tr, s, h, path, length, h', hrun, hcare, hparented, hplain, hbuffer, hpath, hwrite, h'', last,
    hfind⟩ := exists_deleted
  obtain ⟨v, hg⟩ := (good_of_run hrun hcare).1
  intro hall
  obtain ⟨h₃, last', hfind'⟩ := (hall s v s.root h path length h' hg hparented hplain .root hbuffer hpath hwrite).leadsBack 0
  rw [hfind] at hfind'
  obtain ⟨d, hd, hroot⟩ := (hg.owns.inTree_iff hg.tree).mp .root
  have hzero : 0 = s.root := (Prod.mk.inj (Prod.mk.inj (Option.some.inj hfind')).2).2
  exact hg.addr_ne_zero hd (hroot.trans hzero.symm)

end Mount
end ShompOS
