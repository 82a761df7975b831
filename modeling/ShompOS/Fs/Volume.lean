import ShompOS.Fs.Ramfs
import Mathlib.Algebra.Order.Group.Multiset
import Mathlib.Tactic.Abel

/-! What the file system is for: a volume.

A volume is directories that hold named files and refer to other directories,
with the open descriptors. It has no memory, only the addresses at which its parts
are kept, and the pool they come from: what an operation does to a volume depends
on nothing else, so that it says where everything new will be. `Volume.cells` are
the cells a volume is kept in. Cells nobody points to any more are `lost`. -/
namespace ShompOS
open Memory

structure FileNode where
  addr : Nat
  name : Nat
  data : Nat
  text : List UInt8
  contents : List UInt8

structure DirNode where
  addr : Nat
  /-- 0 if there was no memory for a copy of the name. -/
  name : Nat
  text : List UInt8
  parent : Nat
  files : Nat
  fileNodes : List FileNode
  subdirs : Nat
  subdirNodes : List Nat

structure OpenFd where
  addr : Nat
  file : Nat
  position : Nat
  flags : Nat

structure Volume where
  pool : Pool
  dirs : List DirNode
  fds : Fin maxFds → Option OpenFd
  lost : List Cell

/-! ### Cells -/

def FileNode.cells (f : FileNode) : List Cell :=
  [(f.addr, .words [f.name, f.data, f.contents.length]), (f.name, .bytes (f.text ++ [0])), (f.data, .bytes f.contents)]

/-- An array of pointers; an empty one is `NULL`. -/
def arrayCells (array : Nat) (entries : List Nat) : List Cell :=
  if entries = [] then [] else [(array, .words entries)]

/-- The name of a directory. -/
def nameCells (name : Nat) (text : List UInt8) : List Cell :=
  if name = 0 then [] else [(name, .bytes (text ++ [0]))]

def DirNode.record (d : DirNode) : List Nat :=
  [d.name, d.parent, d.files, d.fileNodes.length, d.subdirs, d.subdirNodes.length]

def DirNode.cells (d : DirNode) : List Cell :=
  (d.addr, .words d.record) :: (arrayCells d.files (d.fileNodes.map FileNode.addr) ++
    (arrayCells d.subdirs d.subdirNodes ++ (nameCells d.name d.text ++ d.fileNodes.flatMap FileNode.cells)))

theorem DirNode.name_mem {d : DirNode} (h : d.name ≠ 0) : (d.name, Contents.bytes (d.text ++ [0])) ∈ d.cells := by
  refine List.mem_cons_of_mem _ (List.mem_append_right _ (List.mem_append_right _ (List.mem_append_left _ ?_)))
  unfold nameCells
  rw [if_neg h]
  exact List.mem_singleton_self _

def OpenFd.cells (i : Fin maxFds) (e : OpenFd) : List Cell :=
  [(e.addr, .words [i, e.file, e.position, e.flags])]

def fdCells (fds : Fin maxFds → Option OpenFd) (i : Fin maxFds) : List Cell :=
  (fds i).elim [] (OpenFd.cells i)

def Volume.cells (v : Volume) : List Cell :=
  v.dirs.flatMap DirNode.cells ++ ((List.finRange maxFds).flatMap (fdCells v.fds) ++ v.lost)

/-! ### Operations -/

/-- Frees a pointer that may be `NULL`. -/
def Pool.freedOrNull (P : Pool) (p : Nat) : Pool := if p = 0 then P else P.freed p

/-- An array of `count` pointers is copied into one of one less, if there is memory
for it, and given back if that would be empty. -/
def Pool.shrunk (P : Pool) (array count : Nat) : Pool × Nat :=
  if count > 1 then
    let (P₁, newArray) := P.allocate (4 * (count - 1))
    if newArray ≠ 0 then (P₁.freed array, newArray) else (P, array)
  else (P.freed array, 0)

namespace DirNode

/-- A new file, with the pool and the pointer returned. -/
def createFile (P : Pool) (d : DirNode) (text contents : List UInt8) : Pool × DirNode × Nat :=
  let (P₁, file) := P.allocate RamfsFile.bytes
  if file = 0 then (P, d, 0)
  else
    let (P₂, name) := P₁.allocate (text.length + 1)
    if name = 0 then (P₁.freed file, d, 0)
    else
      let (P₃, data) := P₂.allocate (if contents.length = 0 then 1 else contents.length)
      if data = 0 then ((P₂.freed name).freed file, d, 0)
      else
        let (P₄, files) := P₃.allocate (4 * (d.fileNodes.length + 1))
        if files = 0 then (((P₃.freed data).freed name).freed file, d, 0)
        else (P₄.freedOrNull d.files,
          {d with files := files, fileNodes := d.fileNodes ++ [⟨file, name, data, text, contents⟩]}, file)

/-- A new directory below one, if it comes to be, and what is lost. -/
def createDir (P : Pool) (d : DirNode) (text : List UInt8) : Pool × DirNode × Option DirNode × List Cell :=
  let (P₁, dir) := P.allocate RamfsDir.bytes
  if dir = 0 then (P, d, none, [])
  else
    let (P₂, name) := P₁.allocate (text.length + 1)
    let (P₃, subdirs) := P₂.allocate (4 * (d.subdirNodes.length + 1))
    if subdirs = 0 then (P₂.freed dir, d, none, nameCells name text)
    else (P₃.freedOrNull d.subdirs, {d with subdirs := subdirs, subdirNodes := d.subdirNodes ++ [dir]},
      some ⟨dir, name, text, d.addr, 0, [], 0, []⟩, [])

/-- Where the first file of a name is. -/
def fileIdx (d : DirNode) (text : List UInt8) : Option Nat := d.fileNodes.findIdx? fun f => f.text = text

/-- Without the `i`-th file `f`. -/
def deleteAt (P : Pool) (d : DirNode) (i : Nat) (f : FileNode) : Pool × DirNode :=
  let (P₁, files) := (((P.freed f.name).freed f.data).freed f.addr).shrunk d.files d.fileNodes.length
  (P₁, {d with files := files, fileNodes := d.fileNodes.eraseIdx i})

def deleteFile (P : Pool) (d : DirNode) (text : List UInt8) : Pool × DirNode :=
  match d.fileIdx text with
  | none => (P, d)
  | some i => (d.fileNodes[i]?).elim (P, d) (deleteAt P d i)

end DirNode

/-- `bytes` written at a position, behind a gap if that is past the end. -/
def overwritten (contents gap bytes : List UInt8) (position : Nat) : List UInt8 :=
  (contents ++ gap).take position ++ bytes ++ contents.drop (position + bytes.length)

/-- Where the next write through a descriptor begins. -/
def OpenFd.start (e : OpenFd) (f : FileNode) : Nat := if e.flags &&& oAppend ≠ 0 then f.contents.length else e.position

/-- Bytes written through a descriptor, with what is returned; a longer file is kept
in a new block, where whatever was there before fills the gap. -/
def FileNode.write (P : Pool) (f : FileNode) (e : OpenFd) (gap bytes : List UInt8) : Pool × FileNode × OpenFd × Int :=
  let newSize := e.start f + bytes.length
  let contents := overwritten f.contents gap bytes (e.start f)
  if newSize > f.contents.length then
    let (P₁, data) := P.allocate newSize
    if data = 0 then (P, f, {e with position := e.start f}, -1)
    else (P₁.freed f.data, {f with data := data, contents := contents}, {e with position := newSize}, bytes.length)
  else (P, {f with contents := contents}, {e with position := newSize}, bytes.length)

/-- How much a read through a descriptor reads. -/
def OpenFd.readCount (e : OpenFd) (f : FileNode) (count : Nat) : Nat :=
  let available := wrap (f.contents.length + (addressSpace - e.position))
  if count > available then available else count

/-! ### Paths -/

/-- `NULL` or a block that is given back. -/
def Pool.borrowed (P : Pool) (n : Nat) : Pool :=
  let (P₁, p) := P.allocate n
  if p = 0 then P else P₁.freed p

namespace Volume

def dirAt (v : Volume) (addr : Nat) : Option DirNode := v.dirs.find? fun d => d.addr = addr

def textAt (v : Volume) (addr : Nat) : List UInt8 := (v.dirAt addr).elim [] DirNode.text

/-- Where a list of names leads from a directory; 0 if there is nothing. -/
def walk (v : Volume) : Nat → List (List UInt8) → Nat
  | dir, [] => dir
  | dir, name :: names =>
    ((v.dirAt dir).bind fun d => d.subdirNodes.find? fun a => v.textAt a = name).elim 0 fun a => walk v a names

/-- Each directory's subdirectories are directories of the volume. -/
def Closed (v : Volume) : Prop := ∀ d ∈ v.dirs, ∀ a ∈ d.subdirNodes, ∃ e ∈ v.dirs, e.addr = a

/-- Which directories there are, each with its subdirectories. -/
def shape (v : Volume) : List (Nat × List Nat) := v.dirs.map fun d => (d.addr, d.subdirNodes)

/-- There was memory for the names of all subdirectories. -/
def Named (v : Volume) : Prop := ∀ d ∈ v.dirs, ∀ a ∈ d.subdirNodes, ∀ e ∈ v.dirs, e.addr = a → e.name ≠ 0

/-- Where a path leads if there is memory to copy it. -/
def findDir (v : Volume) (P : Pool) (root : Nat) (text : List UInt8) : Nat :=
  if text = [0x2F] then root
  else if (P.allocate (text.length + 1)).2 = 0 then 0
  else v.walk root (tokens 0x2F text)

/-- The pool after looking a path up. -/
def findDirPool (P : Pool) (text : List UInt8) : Pool := if text = [0x2F] then P else P.borrowed (text.length + 1)

/-! ### Opening -/

/-- The first descriptor that is not in use. -/
def firstFree (v : Volume) : Option (Fin maxFds) := (List.finRange maxFds).find? fun i => (v.fds i).isNone

/-- A descriptor for a file of a directory; the copy of the path is given back. -/
def openIn (v : Volume) (P : Pool) (pathCopy : Nat) (d : DirNode) (filename : List UInt8) (flags : Nat) :
    Volume × Int :=
  match (d.fileIdx filename).bind fun j => d.fileNodes[j]?, v.firstFree with
  | some f, some i =>
    let (P₁, fdEntry) := P.allocate RamfsFd.bytes
    if fdEntry = 0 then ({v with pool := P.freed pathCopy}, -1)
    else ({v with pool := P₁.freed pathCopy, fds := Function.update v.fds i (some ⟨fdEntry, f.addr, 0, flags⟩)}, i)
  | _, _ => ({v with pool := P.freed pathCopy}, -1)

/-- A path up to its first slash. -/
def dirname (text : List UInt8) : List UInt8 := text.takeWhile (· ≠ 0x2F)

/-- What is behind that. -/
def filename (text : List UInt8) : List UInt8 := (text.dropWhile (· ≠ 0x2F)).tail

/-- `found` is where the part of the path up to the slash leads, if there is one. -/
def openPath (v : Volume) (root : DirNode) (text : List UInt8) (flags found : Nat) : Volume × Int :=
  if text = [] then (v, -1)
  else if text = ascii "/dev/stdin" then (v, 0)
  else if text = ascii "/dev/stdout" then (v, 1)
  else if text = ascii "/dev/stderr" then (v, 2)
  else
    let (P, pathCopy) := v.pool.allocate (text.length + 1)
    if pathCopy = 0 then (v, -1)
    else if 0x2F ∉ text then v.openIn P pathCopy root text flags
    else if dirname text = [] then v.openIn P pathCopy root (filename text) flags
    else
      let P := findDirPool P (dirname text)
      (v.dirAt found).elim ({v with pool := P.freed pathCopy}, -1) fun d => v.openIn P pathCopy d (filename text) flags

end Volume

/-! ### What the operations can do -/

namespace DirNode
variable {P : Pool} {d : DirNode} {text contents : List UInt8}

/-- A file is created with its name and contents, or nothing happens. -/
theorem createFile_cases (P : Pool) (d : DirNode) (text contents : List UInt8) :
    ((d.createFile P text contents).2.1 = d ∧ (d.createFile P text contents).2.2 = 0) ∨
      ∃ f files, f.addr ≠ 0 ∧ f.text = text ∧ f.contents = contents ∧ (d.createFile P text contents).2.2 = f.addr ∧
        (d.createFile P text contents).2.1 = {d with files := files, fileNodes := d.fileNodes ++ [f]} := by
  unfold createFile
  dsimp only
  by_cases h1 : (P.allocate RamfsFile.bytes).2 = 0
  · rw [if_pos h1]
    exact Or.inl ⟨rfl, rfl⟩
  rw [if_neg h1]
  generalize (P.allocate RamfsFile.bytes).1 = P₁
  by_cases h2 : (P₁.allocate (text.length + 1)).2 = 0
  · rw [if_pos h2]
    exact Or.inl ⟨rfl, rfl⟩
  rw [if_neg h2]
  generalize (P₁.allocate (text.length + 1)).1 = P₂
  by_cases h3 : (P₂.allocate (if contents.length = 0 then 1 else contents.length)).2 = 0
  · rw [if_pos h3]
    exact Or.inl ⟨rfl, rfl⟩
  rw [if_neg h3]
  generalize (P₂.allocate (if contents.length = 0 then 1 else contents.length)).1 = P₃
  by_cases h4 : (P₃.allocate (4 * (d.fileNodes.length + 1))).2 = 0
  · rw [if_pos h4]
    exact Or.inl ⟨rfl, rfl⟩
  rw [if_neg h4]
  exact Or.inr ⟨_, _, h1, rfl, rfl, rfl, rfl⟩

/-- A directory is created, or nothing happens to its parent. -/
theorem createDir_cases (P : Pool) (d : DirNode) (text : List UInt8) :
    ((d.createDir P text).2.1 = d ∧ (d.createDir P text).2.2.1 = none) ∨
      ∃ dir name subdirs, dir ≠ 0 ∧ (d.createDir P text).2.2 = (some ⟨dir, name, text, d.addr, 0, [], 0, []⟩, []) ∧
        (d.createDir P text).2.1 = {d with subdirs := subdirs, subdirNodes := d.subdirNodes ++ [dir]} := by
  unfold createDir
  dsimp only
  by_cases h1 : (P.allocate RamfsDir.bytes).2 = 0
  · rw [if_pos h1]
    exact Or.inl ⟨rfl, rfl⟩
  rw [if_neg h1]
  generalize hP₂ : ((P.allocate RamfsDir.bytes).1.allocate (text.length + 1)) = r₂
  by_cases h2 : (r₂.1.allocate (4 * (d.subdirNodes.length + 1))).2 = 0
  · rw [if_pos h2]
    exact Or.inl ⟨rfl, rfl⟩
  rw [if_neg h2]
  exact Or.inr ⟨_, _, _, h1, rfl, rfl⟩

/-- The first file of a name is deleted, if there is one. -/
theorem deleteFile_cases (P : Pool) (d : DirNode) (text : List UInt8) :
    (d.fileIdx text = none ∧ d.deleteFile P text = (P, d)) ∨
      ∃ i f, d.fileIdx text = some i ∧ d.fileNodes[i]? = some f ∧ d.deleteFile P text = d.deleteAt P i f := by
  unfold deleteFile
  cases h : d.fileIdx text with
  | none => exact Or.inl ⟨rfl, rfl⟩
  | some i =>
    have hlt := (List.findIdx?_eq_some_iff_findIdx_eq.mp h).1
    refine Or.inr ⟨i, d.fileNodes[i], rfl, List.getElem?_eq_getElem hlt, ?_⟩
    dsimp only
    rw [List.getElem?_eq_getElem hlt, Option.elim_some]

end DirNode

/-! ### What lies in memory -/

section Cells
variable {L : Layout} {S : Nat → UInt8} {P : Pool} {h : Heap} {F : List Cell}

structure DirNode.Valid (d : DirNode) : Prop where
  files : d.fileNodes = [] → d.files = 0
  subdirs : d.subdirNodes = [] → d.subdirs = 0
  text : 0 ∉ d.text
  fileText : ∀ f ∈ d.fileNodes, 0 ∉ f.text

namespace DirNode
variable {d : DirNode} {text : List UInt8}

theorem Valid.createFile (hd : d.Valid) (P : Pool) (htext : 0 ∉ text) (contents : List UInt8) :
    (d.createFile P text contents).2.1.Valid := by
  cases createFile_cases P d text contents with
  | inl h =>
    rw [h.1]
    exact hd
  | inr h =>
    obtain ⟨f, files, -, hf, -, -, he⟩ := h
    rw [he]
    refine ⟨fun hnil => absurd hnil (List.append_ne_nil_of_right_ne_nil _ (List.cons_ne_nil _ _)), hd.subdirs, hd.text,
      fun g hg => ?_⟩
    cases List.mem_append.mp hg with
    | inl hg => exact hd.fileText g hg
    | inr hg =>
      rw [List.mem_singleton.mp hg, hf]
      exact htext

theorem Valid.createDir (hd : d.Valid) (P : Pool) (htext : 0 ∉ text) :
    (d.createDir P text).2.1.Valid ∧ ∀ e ∈ (d.createDir P text).2.2.1, e.Valid := by
  cases createDir_cases P d text with
  | inl h =>
    rw [h.1, h.2]
    exact ⟨hd, fun e he => nomatch he⟩
  | inr h =>
    obtain ⟨dir, name, subdirs, -, hnew, he⟩ := h
    rw [he, hnew]
    refine ⟨⟨hd.files, fun hnil => absurd hnil (List.append_ne_nil_of_right_ne_nil _ (List.cons_ne_nil _ _)), hd.text,
      hd.fileText⟩, fun e he => ?_⟩
    cases he
    exact ⟨fun _ => rfl, fun _ => rfl, htext, fun f hf => nomatch hf⟩

theorem Valid.deleteFile (hd : d.Valid) (P : Pool) (text : List UInt8) : (d.deleteFile P text).2.Valid := by
  cases deleteFile_cases P d text with
  | inl h =>
    rw [h.2]
    exact hd
  | inr h =>
    obtain ⟨i, f, -, hf, he⟩ := h
    have hlt := (List.getElem?_eq_some_iff.mp hf).1
    rw [he]
    refine ⟨fun hnil => ?_, hd.subdirs, hd.text, fun g hg => hd.fileText g (List.mem_of_mem_eraseIdx hg)⟩
    have hone : ¬ d.fileNodes.length > 1 := by
      have hlen := congrArg List.length hnil
      rw [show (d.deleteAt P i f).2.fileNodes = d.fileNodes.eraseIdx i from rfl, List.length_eraseIdx_of_lt hlt] at hlen
      rw [List.length_nil] at hlen
      omega
    unfold deleteAt Pool.shrunk
    rw [if_neg hone]

end DirNode

/-- Bytes that the caller has lent. -/
structure LentBytes (L : Layout) (cs : List Cell) (m : Memory) (a : Nat) (bs : List UInt8) : Prop where
  bytes : ∀ i b, bs[i]? = some b → m.byte (a + i) = b
  lent : ∀ i, i < bs.length → Lent L cs (a + i)
  room : a + bs.length < addressSpace

theorem LentBytes.congr {h' : Heap} {P' : Pool} {cs cs' : List Cell} {a : Nat} {bs : List UInt8}
    (hs : LentBytes L F h.mem a bs) (ho : Owns L S P h cs) (ho' : Owns L S P' h' cs') (hF : F ⊆ cs)
    (hF' : F ⊆ cs') : LentBytes L F h'.mem a bs := by
  refine ⟨fun i b hi => ?_, hs.lent, hs.room⟩
  rw [ho.lent_eq ho' hF hF' (hs.lent i (List.getElem?_eq_some_iff.mp hi).1)]
  exact hs.bytes i b hi

theorem LentBytes.mono {m : Memory} {cs cs' : List Cell} {a : Nat} {bs : List UInt8} (h : LentBytes L cs m a bs)
    (hsub : cs ⊆ cs') : LentBytes L cs' m a bs :=
  ⟨h.bytes, fun i hi => (h.lent i hi).mono hsub, h.room⟩

theorem arrayCells_of_ne (array : Nat) {entries : List Nat} (h : entries ≠ []) :
    arrayCells array entries = [(array, .words entries)] := if_neg h

/-- An array fits into a block. -/
theorem Owns.array_le {cs : List Cell} (ho : Owns L S P h cs) (array : Nat) (entries : List Nat)
    (hsub : arrayCells array entries ⊆ cs) : 4 * entries.length ≤ 2 ^ maxBlockScale := by
  by_cases hnil : entries = []
  · rw [hnil]
    exact Nat.zero_le _
  · rw [arrayCells_of_ne _ hnil] at hsub
    have hle := (ho.bounds (hsub (List.mem_singleton_self _))).2.2
    rw [Contents.size_words] at hle
    omega

end Cells

namespace Volume

/-- Opening looks for a file in one directory, or does no more than borrow memory. -/
theorem openPath_cases (v : Volume) (d : DirNode) (text : List UInt8) (flags found : Nat) :
    (∃ P n, n < 3 ∧ v.openPath d text flags found = ({v with pool := P}, n)) ∨
      ∃ P pathCopy e name, (e = d ∨ v.dirAt found = some e) ∧ v.openPath d text flags found =
        v.openIn P pathCopy e name flags := by
  unfold openPath
  by_cases h1 : text = []
  · rw [if_pos h1]
    exact Or.inl ⟨v.pool, -1, by decide, rfl⟩
  rw [if_neg h1]
  by_cases h2 : text = ascii "/dev/stdin"
  · rw [if_pos h2]
    exact Or.inl ⟨v.pool, 0, by decide, rfl⟩
  rw [if_neg h2]
  by_cases h3 : text = ascii "/dev/stdout"
  · rw [if_pos h3]
    exact Or.inl ⟨v.pool, 1, by decide, rfl⟩
  rw [if_neg h3]
  by_cases h4 : text = ascii "/dev/stderr"
  · rw [if_pos h4]
    exact Or.inl ⟨v.pool, 2, by decide, rfl⟩
  rw [if_neg h4]
  dsimp only
  by_cases h5 : (v.pool.allocate (text.length + 1)).2 = 0
  · rw [if_pos h5]
    exact Or.inl ⟨v.pool, -1, by decide, rfl⟩
  rw [if_neg h5]
  by_cases h6 : 0x2F ∉ text
  · rw [if_pos h6]
    exact Or.inr ⟨_, _, d, _, Or.inl rfl, rfl⟩
  rw [if_neg h6]
  by_cases h7 : dirname text = []
  · rw [if_pos h7]
    exact Or.inr ⟨_, _, d, _, Or.inl rfl, rfl⟩
  rw [if_neg h7]
  cases hfound : v.dirAt found with
  | none => exact Or.inl ⟨_, -1, by decide, rfl⟩
  | some e => exact Or.inr ⟨_, _, e, _, Or.inr rfl, rfl⟩

theorem openIn_dirs (v : Volume) (P : Pool) (pathCopy : Nat) (d : DirNode) (name : List UInt8) (flags : Nat) :
    (v.openIn P pathCopy d name flags).1.dirs = v.dirs ∧ (v.openIn P pathCopy d name flags).1.lost = v.lost := by
  unfold openIn
  split
  · dsimp only
    split <;> exact ⟨rfl, rfl⟩
  · exact ⟨rfl, rfl⟩

/-- Opening changes no directory. -/
theorem openPath_dirs (v : Volume) (d : DirNode) (text : List UInt8) (flags found : Nat) :
    (v.openPath d text flags found).1.dirs = v.dirs ∧ (v.openPath d text flags found).1.lost = v.lost := by
  cases openPath_cases v d text flags found with
  | inl h =>
    obtain ⟨P, n, -, h⟩ := h
    rw [h]
    exact ⟨rfl, rfl⟩
  | inr h =>
    obtain ⟨P, pathCopy, e, name, -, h⟩ := h
    rw [h]
    exact openIn_dirs v P pathCopy e name flags

end Volume
end ShompOS
