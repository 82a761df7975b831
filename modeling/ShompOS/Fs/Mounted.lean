import ShompOS.Fs.Access
import ShompOS.Fs.Delete
import ShompOS.Fs.Open
import ShompOS.Fs.Tree
import ShompOS.Run

/-! Whole runs of a mounted file system.

A `Mount` is the state of the file system with its root and the blocks that its
callers hold. They call the functions of `ramfs.c` with directories of the tree,
with strings and buffers in their own memory, and with any descriptor, and write to
their memory in between. `Good` is what holds of a mount and the volume it keeps. -/
namespace ShompOS
open Memory

structure Mount where
  ramfs : Ramfs
  root : Nat
  held : List (Nat × Nat)

inductive FsCall
  | createFile (dir name data size : Nat)
  | createDir (parent name : Nat)
  | deleteFile (dir name : Nat)
  | rm (dir filename : Nat)
  | findDir (root path : Nat)
  | openFile (root path flags : Nat)
  | read (fd : Int) (buf count : Nat)
  | write (fd : Int) (buf count : Nat)
  | seek (fd offset origin : Int)
  | close (fd : Int) (fdPtr : Nat)
  /-- A caller writes a byte of its memory. -/
  | store (a v : Nat)
  deriving DecidableEq

namespace Mount

abbrev heap (s : Mount) : Heap := s.ramfs.heap

abbrev mem (s : Mount) : Memory := s.ramfs.heap.mem

def withHeap (s : Mount) (h : Heap) : Mount := {s with ramfs := {s.ramfs with heap := h}}

def withRamfs (s : Mount) (r : Ramfs) : Mount := {s with ramfs := r}

section Calls
variable (L : Layout) (R : Rodata)

/-- A call and what it returns, a pointer or a number; 0 if nothing. What the
keyboard handler does when it is called by a read are calls of their own. -/
def call (s : Mount) : FsCall → Option (Mount × Int)
  | .createFile dir name data size =>
    (s.heap.ramfsCreateFile L dir name data size).map fun (h, file) => (s.withHeap h, file)
  | .createDir parent name => (s.heap.ramfsCreateDir L parent name).map fun (h, dir) => (s.withHeap h, dir)
  | .deleteFile dir name => (s.heap.ramfsDeleteFile L dir name).map fun h => (s.withHeap h, 0)
  | .rm dir filename => (s.ramfs.ramfsRm L dir filename).map fun r => (s.withRamfs r, 0)
  | .findDir root path =>
    (s.heap.ramfsFindDir L R s.ramfs.last root path).map fun (h, last, dir) =>
      (s.withRamfs {s.ramfs with heap := h, last := last}, dir)
  | .openFile root path flags => (s.ramfs.ramfsOpen L R root path flags).map fun (r, ret) => (s.withRamfs r, ret)
  | .read fd buf count => (s.ramfs.ramfsRead some fd buf count).map fun (r, ret) => (s.withRamfs r, ret)
  | .write fd buf count => (s.ramfs.ramfsWrite L fd buf count).map fun (r, ret) => (s.withRamfs r, ret)
  | .seek fd offset origin => some (s.withRamfs (s.ramfs.ramfsSeek fd offset origin).1,
      (s.ramfs.ramfsSeek fd offset origin).2)
  | .close fd fdPtr => (s.ramfs.ramfsClose L fd fdPtr).map fun (r, ret) => (s.withRamfs r, ret)
  | .store a v => some (s.withHeap ⟨s.mem.store8 a v, s.heap.currentBrk⟩, 0)

/-- A directory of the tree, or `NULL`. -/
def Dir (s : Mount) (dir : Nat) : Prop := dir = 0 ∨ s.heap.InTree s.root dir

/-- A string in the callers' memory. -/
def Passes (s : Mount) (a : Nat) (text : List UInt8) : Prop :=
  IsStr s.mem a text ∧ ∀ i, i ≤ text.length → Callers L s.held (a + i)

/-- `n` bytes of the callers' memory. -/
def Buffer (s : Mount) (a n : Nat) : Prop := (∀ i, i < n → Callers L s.held (a + i)) ∧ a + n < addressSpace

/-- `free` refuses the pointer. -/
def Refuses (s : Mount) (p : Nat) : Prop :=
  p = 0 ∨ s.mem.next (wrap (p + (addressSpace - headerSize))) ≠ wrap (p + (addressSpace - headerSize)) ∨
    s.mem.prev (wrap (p + (addressSpace - headerSize))) ≠ wrap (p + (addressSpace - headerSize))

/-- What a caller may call. -/
def Permits (s : Mount) : FsCall → Prop
  | .createFile dir name data size =>
    s.Dir dir ∧ (name = 0 ∨ ∃ text, s.Passes L name text) ∧ (data = 0 ∨ s.Buffer L data size)
  | .createDir parent name => s.Dir parent ∧ (name = 0 ∨ ∃ text, s.Passes L name text)
  | .deleteFile dir name => s.Dir dir ∧ (name = 0 ∨ ∃ text, IsStr s.mem name text)
  | .rm dir filename => s.Dir dir ∧ (filename = 0 ∨ ∃ text, IsStr s.mem filename text)
  | .findDir root path => s.Dir root ∧ (path = 0 ∨ ∃ text, s.Passes L path text)
  | .openFile root path flags => s.Dir root ∧ (path = 0 ∨ ∃ text, s.Passes L path text) ∧ flags < addressSpace
  | .read _ buf count => s.Buffer L buf count ∧ ∀ i, i < count → ¬ R.Byte (buf + i)
  | .write _ buf count => s.Buffer L buf count
  | .seek .. => True
  | .close _ fdPtr => s.Refuses fdPtr
  | .store a _ => Callers L s.held a ∧ ¬ R.Byte a

/-- The descriptor that a call goes through. -/
def through (s : Mount) : FsCall → Option Nat
  | .read fd .. => if fd = stdinFileno then none else s.ramfs.fdEntry fd
  | .write fd .. => if fd = stdoutFileno ∨ fd = stderrFileno then none else s.ramfs.fdEntry fd
  | .seek fd .. => s.ramfs.fdEntry fd
  | _ => none

theorem through_read_iff {s : Mount} {fd : Int} {buf count entry : Nat} :
    s.through (.read fd buf count) = some entry ↔ fd ≠ stdinFileno ∧ s.ramfs.fdEntry fd = some entry :=
  Option.ite_none_left_eq_some

theorem through_write_iff {s : Mount} {fd : Int} {buf count entry : Nat} :
    s.through (.write fd buf count) = some entry ↔
    ¬ (fd = stdoutFileno ∨ fd = stderrFileno) ∧ s.ramfs.fdEntry fd = some entry :=
  Option.ite_none_left_eq_some

/-- The file of a descriptor. -/
def fileOf (s : Mount) (entry : Nat) : Nat := s.heap.word entry RamfsFd.file

/-- Where the next write through a descriptor begins. -/
def position (s : Mount) (entry : Nat) : Nat :=
  if s.heap.word entry RamfsFd.flags &&& oAppend ≠ 0 then s.heap.word (s.fileOf entry) RamfsFile.size
  else s.heap.word entry RamfsFd.position

/-- The call does not go through a descriptor to a file that is not linked. -/
def Lively (s : Mount) (c : FsCall) : Prop := ∀ entry, s.through c = some entry → s.heap.Linked s.root (s.fileOf entry)

/-- It does not write past the end of the address space, unless it is refused for the mode. -/
def Bounded (s : Mount) : FsCall → Prop
  | .write fd buf count => ∀ entry, s.through (.write fd buf count) = some entry →
      s.heap.word entry RamfsFd.flags &&& (oWronly ||| oRdwr) ≠ 0 → s.position entry + count < addressSpace
  | _ => True

/-- The file that a call deletes. -/
def Deletes (s : Mount) (c : FsCall) (file : Nat) : Prop :=
  ∃ dir name i, (c = .deleteFile dir name ∨ c = .rm dir name) ∧ dir ≠ 0 ∧ name ≠ 0 ∧
    Heap.searchName s.mem (s.heap.word dir RamfsDir.files) name (s.heap.word dir RamfsDir.fileCount) 0 = some (some i) ∧
    s.heap.word (s.heap.word dir RamfsDir.files) i = file

/-- The call does not delete a file that is open. -/
def KeepsOpen (s : Mount) (c : FsCall) : Prop :=
  ∀ file, s.Deletes c file → ∀ i, s.ramfs.fdTable i ≠ 0 → s.fileOf (s.ramfs.fdTable i) ≠ file

/-- A call with what it returned. -/
def Step (s : Mount) (e : FsCall × Int) (s' : Mount) : Prop := s.Permits L R e.1 ∧ s.call L R e.1 = some (s', e.2)

end Calls

/-! ### The invariant -/

structure Good (L : Layout) (R : Rodata) (s : Mount) (v : Volume) : Prop where
  settled : Settled L s.held v.pool s.heap v.cells
  table : v.Table s.ramfs.fdTable
  valid : ∀ d ∈ v.dirs, d.Valid
  tree : IsTree v.shape s.root
  rodata : R.Holds L s.mem

/-- The root and the callers' memory are as before. -/
structure Calm (L : Layout) (s s' : Mount) : Prop where
  root : s'.root = s.root
  held : s'.held = s.held
  memory : ∀ x, Callers L s.held x → s'.mem.byte x = s.mem.byte x

variable {L : Layout} {R : Rodata} {s s' : Mount} {v v' : Volume} {c : FsCall} {k j : Nat} {d : DirNode} {f : FileNode}
  {e : OpenFd} {i : Fin maxFds}

theorem Calm.refl (s : Mount) : Calm L s s := ⟨rfl, rfl, fun _ _ => rfl⟩

theorem Calm.trans {t : Mount} (h : Calm L s s') (h' : Calm L s' t) : Calm L s t :=
  ⟨h'.root.trans h.root, h'.held.trans h.held, fun x hx => (h'.memory x (h.held ▸ hx)).trans (h.memory x hx)⟩

/-- What a call has to have done for its volume. -/
theorem Good.next (hg : s.Good L R v) {w : Volume} {r : Ramfs}
    (ho : Owns L s.mem.byte w.pool r.heap (w.cells ++ heldCells s.held s.mem)) (ht : w.Table r.fdTable)
    (hvalid : ∀ d ∈ w.dirs, d.Valid) (htree : IsTree w.shape s.root) :
    (s.withRamfs r).Good L R w ∧ Calm L s (s.withRamfs r) :=
  ⟨⟨ho.settled, ht, hvalid, htree, hg.rodata.congr fun x hx _ => ho.static x hx⟩,
    rfl, rfl, fun _ hx => hg.settled.callers_eq ho hx⟩

/-- What the terminal shows and where `strtok` is are nothing to the volume. -/
theorem Good.congr (hg : s.Good L R v) {r : Ramfs} (hheap : r.heap = s.heap) (htable : r.fdTable = s.ramfs.fdTable) :
    (s.withRamfs r).Good L R v ∧ Calm L s (s.withRamfs r) :=
  hg.next (r := r) (hheap.symm ▸ hg.settled) (htable.symm ▸ hg.table) hg.valid hg.tree

theorem Good.owns (hg : s.Good L R v) : Owns L s.mem.byte v.pool s.heap
    (v.cells ++ heldCells s.held s.mem) := hg.settled

/-- A directory that a caller names. -/
theorem Good.dir (hg : s.Good L R v) {dir : Nat} (hd : s.Dir dir) :
    dir = 0 ∨ ∃ (k : Nat) (d : DirNode), v.dirs[k]? = some d ∧ d.addr = dir := by
  cases hd with
  | inl h0 => exact Or.inl h0
  | inr hd =>
    obtain ⟨d, hd, he⟩ := (hg.owns.inTree_iff hg.tree).mp hd
    obtain ⟨k, hk⟩ := List.getElem?_of_mem hd
    exact Or.inr ⟨k, d, hk, he⟩

theorem Passes.lent {a : Nat} {text : List UInt8} (h : s.Passes L a text) :
    LentStr L (heldCells s.held s.mem) s.mem a text :=
  ⟨h.1, fun i hi => callers_iff_lent.mp (h.2 i hi)⟩

theorem Buffer.lent {a n : Nat} (h : s.Buffer L a n) :
    LentBytes L (heldCells s.held s.mem) s.mem a (s.mem.bytesAt a n) := by
  refine ⟨fun i b hi => ?_, fun i hi => callers_iff_lent.mp (h.1 i (by rwa [length_bytesAt] at hi)), by
    rw [length_bytesAt]; exact h.2⟩
  have hlt := (List.getElem?_eq_some_iff.mp hi).1
  rw [length_bytesAt] at hlt
  rw [bytesAt_getElem? _ _ hlt] at hi
  exact Option.some.inj hi

end Mount
end ShompOS
