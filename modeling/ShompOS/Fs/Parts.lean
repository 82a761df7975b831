import ShompOS.Fs.Volume
import ShompOS.Heap.Held
import Mathlib.Data.List.Perm.Basic

/-! One part of a volume at a time.

What an operation works on is brought to the front of the list of cells, a
directory, a file or a descriptor, and what it leaves there is brought back. The
rest of the cells is the same before and after. -/
namespace ShompOS
open Memory

theorem flatMap_perm {α β : Type} (f : α → List β) {xs : List α} {k : Nat} {x : α} (hk : xs[k]? = some x) :
    (xs.flatMap f).Perm (f x ++ (xs.eraseIdx k).flatMap f) := by
  obtain ⟨hlt, rfl⟩ := List.getElem?_eq_some_iff.mp hk
  have := (List.getElem_cons_eraseIdx_perm hlt).symm.flatMap_right f
  rwa [List.flatMap_cons] at this

theorem flatMap_set_perm {α β : Type} (f : α → List β) {xs : List α} {k : Nat} {x : α} (hk : xs[k]? = some x) (y : α) :
    ((xs.set k y).flatMap f).Perm (f y ++ (xs.eraseIdx k).flatMap f) := by
  have hlt := (List.getElem?_eq_some_iff.mp hk).1
  have := (List.set_perm_cons_eraseIdx hlt y).flatMap_right f
  rwa [List.flatMap_cons] at this

theorem set_same {α : Type} {xs : List α} {k : Nat} {x : α} (hk : xs[k]? = some x) : xs.set k x = xs := by
  obtain ⟨hlt, rfl⟩ := List.getElem?_eq_some_iff.mp hk
  exact List.set_getElem_self hlt

/-! ### A file of a directory -/

namespace DirNode
variable {d : DirNode} {j : Nat} {f : FileNode}

/-- The cells of a directory that are not its `j`-th file's. -/
def restOfFile (d : DirNode) (j : Nat) : List Cell :=
  (d.addr, .words d.record) :: (arrayCells d.files (d.fileNodes.map FileNode.addr) ++
    (arrayCells d.subdirs d.subdirNodes ++ (nameCells d.name d.text ++
      (d.fileNodes.eraseIdx j).flatMap FileNode.cells)))

theorem cells_perm (hj : d.fileNodes[j]? = some f) : d.cells.Perm (f.cells ++ d.restOfFile j) := by
  have hfiles := flatMap_perm FileNode.cells hj
  unfold cells restOfFile
  rw [← Multiset.coe_eq_coe] at hfiles ⊢
  simp only [← Multiset.cons_coe, ← Multiset.coe_add, ← Multiset.singleton_add] at hfiles ⊢
  rw [hfiles]
  abel

/-- With a file at the same address in its place. -/
def setFile (d : DirNode) (j : Nat) (f : FileNode) : DirNode := {d with fileNodes := d.fileNodes.set j f}

theorem setFile_addrs (hj : d.fileNodes[j]? = some f) {g : FileNode} (hg : g.addr = f.addr) :
    (d.setFile j g).fileNodes.map FileNode.addr = d.fileNodes.map FileNode.addr := by
  unfold setFile
  rw [List.map_set, hg]
  apply set_same
  rw [List.getElem?_map, hj]
  rfl

theorem setFile_perm (hj : d.fileNodes[j]? = some f) {g : FileNode} (hg : g.addr = f.addr) :
    (d.setFile j g).cells.Perm (g.cells ++ d.restOfFile j) := by
  have hfiles := flatMap_set_perm FileNode.cells hj g
  have haddrs := setFile_addrs hj hg
  unfold cells restOfFile record
  rw [haddrs]
  unfold setFile
  rw [List.length_set]
  rw [← Multiset.coe_eq_coe] at hfiles ⊢
  simp only [← Multiset.cons_coe, ← Multiset.coe_add, ← Multiset.singleton_add] at hfiles ⊢
  rw [hfiles]
  abel

end DirNode

/-! ### A descriptor -/

section Descriptors
variable (fds : Fin maxFds → Option OpenFd) (i : Fin maxFds)

def restOfFd : List Cell := ((List.finRange maxFds).erase i).flatMap (fdCells fds)

theorem fds_perm : ((List.finRange maxFds).flatMap (fdCells fds)).Perm (fdCells fds i ++ restOfFd fds i) := by
  have := (List.perm_cons_erase (List.mem_finRange i)).flatMap_right (fdCells fds)
  rwa [List.flatMap_cons] at this

theorem restOfFd_update (e : Option OpenFd) : restOfFd (Function.update fds i e) i = restOfFd fds i := by
  unfold restOfFd
  apply List.flatMap_congr
  intro k hk
  unfold fdCells
  rw [Function.update_of_ne fun he => (List.Nodup.not_mem_erase (List.nodup_finRange maxFds)) (he ▸ hk)]

theorem fds_update_perm (e : Option OpenFd) :
    ((List.finRange maxFds).flatMap (fdCells (Function.update fds i e))).Perm (e.elim [] (OpenFd.cells i) ++
      restOfFd fds i) := by
  have := fds_perm (Function.update fds i e) i
  unfold fdCells at this
  rw [Function.update_self, restOfFd_update] at this
  exact this

end Descriptors

/-! ### Parts of a volume -/

namespace Volume
variable {v : Volume} {k j : Nat} {d : DirNode} {f : FileNode} {i : Fin maxFds} {e : OpenFd}

theorem cells_congr {w : Volume} (hdirs : w.dirs = v.dirs) (hfds : w.fds = v.fds) (hlost : w.lost = v.lost) :
    w.cells = v.cells := by
  unfold cells
  rw [hdirs, hfds, hlost]

/-- With another pool and another `k`-th directory. -/
def withDir (v : Volume) (k : Nat) (P : Pool) (d : DirNode) : Volume := {v with pool := P, dirs := v.dirs.set k d}

theorem withDir_shape (hk : v.dirs[k]? = some d) {x : DirNode} (haddr : x.addr = d.addr)
    (hsubs : x.subdirNodes = d.subdirNodes) (P : Pool) : (v.withDir k P x).shape = v.shape := by
  unfold shape withDir
  rw [List.map_set, haddr, hsubs]
  apply set_same
  rw [List.getElem?_map, hk]
  rfl

theorem withDir_self (hk : v.dirs[k]? = some d) : v.withDir k v.pool d = v := by
  unfold withDir
  rw [set_same hk]

theorem withDir_mem {d' e : DirNode} {P : Pool} (he : e ∈ (v.withDir k P d').dirs) : e = d' ∨ e ∈ v.dirs :=
  (List.mem_or_eq_of_mem_set he).symm

def restOfDir (v : Volume) (k : Nat) : List Cell :=
  (v.dirs.eraseIdx k).flatMap DirNode.cells ++ ((List.finRange maxFds).flatMap (fdCells v.fds) ++ v.lost)

theorem dir_perm (hk : v.dirs[k]? = some d) : v.cells.Perm (d.cells ++ v.restOfDir k) := by
  have := (flatMap_perm DirNode.cells hk).append_right ((List.finRange maxFds).flatMap (fdCells v.fds) ++ v.lost)
  rwa [List.append_assoc] at this

theorem withDir_perm (hk : v.dirs[k]? = some d) (P : Pool) (d' : DirNode) :
    (v.withDir k P d').cells.Perm (d'.cells ++ v.restOfDir k) := by
  have := (flatMap_set_perm DirNode.cells hk d').append_right ((List.finRange maxFds).flatMap (fdCells v.fds) ++ v.lost)
  rwa [List.append_assoc] at this

/-- With a new directory below the `k`-th, if it comes to be. -/
def createDir (v : Volume) (k : Nat) (d : DirNode) (text : List UInt8) : Volume :=
  {v with
    pool := (d.createDir v.pool text).1
    dirs := v.dirs.set k (d.createDir v.pool text).2.1 ++ (d.createDir v.pool text).2.2.1.toList
    lost := (d.createDir v.pool text).2.2.2 ++ v.lost}

theorem createDir_perm (hk : v.dirs[k]? = some d) (text : List UInt8) :
    (v.createDir k d text).cells.Perm ((d.createDir v.pool text).2.1.cells ++
      ((d.createDir v.pool text).2.2.1.elim [] DirNode.cells ++ (d.createDir v.pool text).2.2.2) ++ v.restOfDir k) := by
  have hset := flatMap_set_perm DirNode.cells hk (d.createDir v.pool text).2.1
  have hnew : (d.createDir v.pool text).2.2.1.toList.flatMap DirNode.cells =
      (d.createDir v.pool text).2.2.1.elim [] DirNode.cells := by
    cases (d.createDir v.pool text).2.2.1 with
    | none => rfl
    | some e => exact List.append_nil _
  unfold cells restOfDir createDir
  rw [List.flatMap_append, hnew]
  rw [← Multiset.coe_eq_coe] at hset ⊢
  simp only [← Multiset.coe_add] at hset ⊢
  rw [hset]
  abel

theorem createDir_shape (hk : v.dirs[k]? = some d) (text : List UInt8) :
    (v.createDir k d text).shape = v.shape ∨
      ∃ new, v.shape[k]? = some (d.addr, d.subdirNodes) ∧
        (v.createDir k d text).shape = v.shape.set k (d.addr, d.subdirNodes ++ [new]) ++ [(new, [])] := by
  cases DirNode.createDir_cases v.pool d text with
  | inl h =>
    left
    have hshape := withDir_shape (P := v.pool) hk rfl rfl
    unfold shape createDir at *
    rw [h.1, h.2]
    simpa [withDir] using hshape
  | inr h =>
    right
    obtain ⟨dir, name, subdirs, -, hnew, he⟩ := h
    refine ⟨dir, ?_, ?_⟩
    · unfold shape
      rw [List.getElem?_map, hk]
      rfl
    · unfold shape createDir
      rw [he, hnew, List.map_append, List.map_set]
      rfl

/-- What is neither the `j`-th file of the `k`-th directory nor the `i`-th descriptor. -/
def restOfOpen (v : Volume) (k j : Nat) (i : Fin maxFds) : List Cell :=
  (v.dirs[k]?.elim [] fun d => d.restOfFile j) ++
    ((v.dirs.eraseIdx k).flatMap DirNode.cells ++ (restOfFd v.fds i ++ v.lost))

/-- With another pool, another file and another descriptor. -/
def withOpen (v : Volume) (k j : Nat) (i : Fin maxFds) (P : Pool) (f : FileNode) (e : OpenFd) : Volume :=
  {v with
    pool := P
    dirs := v.dirs.modify k fun d => d.setFile j f
    fds := Function.update v.fds i (some e)}

theorem withOpen_dirs (hk : v.dirs[k]? = some d) (P : Pool) (g : FileNode) (e : OpenFd) :
    (v.withOpen k j i P g e).dirs = v.dirs.set k (d.setFile j g) := by
  unfold withOpen
  rw [List.modify_eq_set_getElem?, hk]
  rfl

/-- `fd` is the `i`-th descriptor, for the `j`-th file of the `k`-th directory. -/
structure Opens (v : Volume) (fd : Int) (k j : Nat) (i : Fin maxFds) (d : DirNode) (f : FileNode)
    (e : OpenFd) : Prop where
  fd : (i : Int) = fd
  entry : v.fds i = some e
  dir : v.dirs[k]? = some d
  file : d.fileNodes[j]? = some f
  same : e.file = f.addr

theorem open_perm (hk : v.dirs[k]? = some d) (hj : d.fileNodes[j]? = some f) (hi : v.fds i = some e) :
    v.cells.Perm (f.cells ++ (e.cells i ++ v.restOfOpen k j i)) := by
  have hd := (flatMap_perm DirNode.cells hk).trans ((DirNode.cells_perm hj).append_right _)
  have he := fds_perm v.fds i
  unfold cells restOfOpen
  unfold fdCells at he
  rw [hi, ← Multiset.coe_eq_coe] at he
  rw [hk]
  rw [← Multiset.coe_eq_coe] at hd ⊢
  simp only [← Multiset.coe_add, Option.elim_some] at hd he ⊢
  rw [hd]
  unfold fdCells
  rw [he]
  abel

theorem withOpen_perm (hk : v.dirs[k]? = some d) (hj : d.fileNodes[j]? = some f) (P : Pool) {g : FileNode}
    (hg : g.addr = f.addr) (e : OpenFd) :
    (v.withOpen k j i P g e).cells.Perm (g.cells ++ (e.cells i ++ v.restOfOpen k j i)) := by
  have hd := (flatMap_set_perm DirNode.cells hk (d.setFile j g)).trans ((DirNode.setFile_perm hj hg).append_right _)
  have he := fds_update_perm v.fds i (some e)
  unfold cells restOfOpen
  rw [withOpen_dirs hk, hk]
  unfold withOpen
  dsimp only
  rw [← Multiset.coe_eq_coe] at hd he ⊢
  simp only [← Multiset.coe_add, Option.elim_some] at hd he ⊢
  rw [hd, he]
  abel

/-- With a descriptor forgotten; its cell stays. -/
def closeFd (v : Volume) (i : Fin maxFds) (e : OpenFd) : Volume :=
  {v with fds := Function.update v.fds i none, lost := e.cells i ++ v.lost}

theorem closeFd_perm (hi : v.fds i = some e) : (v.closeFd i e).cells.Perm v.cells := by
  have hnew := fds_update_perm v.fds i none
  have hold := fds_perm v.fds i
  have hsome : fdCells v.fds i = e.cells i := by
    unfold fdCells
    rw [hi]
    rfl
  unfold cells closeFd
  dsimp only
  rw [hsome, ← Multiset.coe_eq_coe] at hold
  rw [← Multiset.coe_eq_coe] at hnew ⊢
  simp only [← Multiset.coe_add, Option.elim_none, List.nil_append] at hnew hold ⊢
  rw [hold, hnew]
  abel

/-- With one descriptor more. -/
theorem withFd_perm (hi : v.fds i = none) (P : Pool) (e : OpenFd) :
    ({v with pool := P, fds := Function.update v.fds i (some e)} : Volume).cells.Perm (e.cells i ++ v.cells) := by
  have hnew := fds_update_perm v.fds i (some e)
  have hold := fds_perm v.fds i
  have hnone : fdCells v.fds i = [] := by
    unfold fdCells
    rw [hi]
    rfl
  unfold cells
  dsimp only
  rw [hnone, ← Multiset.coe_eq_coe] at hold
  rw [← Multiset.coe_eq_coe] at hnew ⊢
  simp only [← Multiset.coe_add, Option.elim_some, List.nil_append] at hnew hold ⊢
  rw [hold, hnew]
  abel

end Volume
end ShompOS
