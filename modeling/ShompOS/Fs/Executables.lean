import ShompOS.Fs.Ramfs
import ShompOS.Shell.Numbers

/-! The commands on the file system (`ramfs_executables.c`), function by function.

They get directories and strings as the functions of `ramfs.c` do and say on the
terminal what they did. `ramfs_pwd` is cut in two, where it has its buffer and
where the path is in it. -/
namespace ShompOS
open Memory

namespace Memory

/-- The first loop of `ramfs_pwd`. -/
def pathLength (m : Memory) : (fuel temp length : Nat) → Option Nat
  | 0, _, _ => none
  | fuel + 1, temp, length =>
    if temp = 0 then some length
    else (m.strlen (m.word temp RamfsDir.name)).bind fun len =>
      pathLength m fuel (m.word temp RamfsDir.parent) (wrap (length + (len + 1)))

/-- Its second loop, which fills the buffer from the end. -/
def fillPath : (fuel : Nat) → (m : Memory) → (temp ptr : Nat) → Option Memory
  | 0, _, _, _ => none
  | fuel + 1, m, temp, ptr =>
    if temp = 0 then some m
    else (m.strlen (m.word temp RamfsDir.name)).bind fun nameLen =>
      let ptr := wrap (ptr + (addressSpace - nameLen))
      let m := memcpy nameLen m ptr (m.word temp RamfsDir.name)
      if m.word temp RamfsDir.parent ≠ 0 then
        let ptr := wrap (ptr + (addressSpace - 1))
        let m := m.store8 ptr 0x2F
        fillPath fuel m (m.word temp RamfsDir.parent) ptr
      else fillPath fuel m (m.word temp RamfsDir.parent) ptr

/-- The loop that skips leading spaces. -/
def skipSpaces (m : Memory) : (fuel filename : Nat) → Option Nat
  | 0, _ => none
  | fuel + 1, filename => if m.byte filename = 0x20 then skipSpaces m fuel (wrap (filename + 1)) else some filename

end Memory

namespace Heap

/-- A buffer for the path of a directory, or `NULL`, with the length of the path. -/
def pathBuffer (L : Layout) (h : Heap) (dir : Nat) : Option (Heap × Nat × Nat) :=
  (h.mem.pathLength addressSpace dir 0).bind fun length =>
    (h.allocate L (wrap (length + 1))).map fun (h, path) => (h, path, length)

/-- The path is put into it. -/
def writePath (h : Heap) (dir path length : Nat) : Option Heap :=
  (fillPath addressSpace (h.mem.store8 (wrap (path + length)) 0) dir (wrap (path + length))).map fun m =>
    ⟨m, h.currentBrk⟩

end Heap

namespace Ramfs

/-- Three things that are often printed together. -/
def report (s : Ramfs) (text : String) (name : Nat) : Option Ramfs :=
  ((s.print text).terminalWritestring name).map fun s => s.print "\n"

/-- `terminal_putchar`, as far as what the terminal has been sent goes. -/
def putchar (s : Ramfs) (c : UInt8) : Ramfs := {s with terminal := s.terminal ++ [c]}

/-- `terminal_writeint` -/
def terminalWriteint (R : Rodata) (s : Ramfs) (num : Int) : Ramfs :=
  (Terminal.writeint R.negMin putchar num Memory.zero s).2

theorem terminalWriteint_eq (R : Rodata) (s : Ramfs) (num : Int) :
    s.terminalWriteint R num = {s with terminal := s.terminal ++ Terminal.text R.negMin num} := by
  have hsent : ∀ (text : List UInt8) (s : Ramfs), text.foldl putchar s = {s with terminal := s.terminal ++ text} := by
    intro text
    induction text with
    | nil => exact fun s => by rw [List.foldl_nil, List.append_nil]
    | cons c text ih => exact fun s => (ih (s.putchar c)).trans (by simp only [putchar, List.append_assoc]; rfl)
  exact (Terminal.writeint_eq R.negMin num Memory.zero s).trans (hsent _ s)

section Executables
variable (L : Layout) (R : Rodata)

/-- `ramfs_pwd` -/
def ramfsPwd (s : Ramfs) (dir : Nat) : Option Ramfs :=
  if dir = 0 then some s
  else (s.heap.pathBuffer L dir).bind fun (h, path, length) =>
    if path = 0 then some {s with heap := h}
    else (h.writePath dir path length).bind fun h =>
      ((({s with heap := h} : Ramfs).print "The current directory is: \x7b").terminalWritestring path).bind fun s =>
        let s := s.print "\x7d\n"
        (s.heap.free L path).map fun (h, _) => {s with heap := h}

/-- `ramfs_mkdir` -/
def ramfsMkdir (s : Ramfs) (dir dirname : Nat) : Option Ramfs :=
  if dir = 0 ∨ dirname = 0 then some s
  else (Heap.searchName s.heap.mem (s.heap.word dir RamfsDir.subdirs) dirname
    (s.heap.word dir RamfsDir.subdirCount) 0).bind
    fun found =>
      match found with
      | some _ => s.report "Directory already exists: " dirname
      | none => (s.heap.ramfsCreateDir L dir dirname).bind fun (h, newdir) =>
        ({s with heap := h} : Ramfs).report (if newdir ≠ 0 then "Created directory: " else "Failed to create directory: ") dirname

/-- The first loop of `ramfs_ls`. -/
def listSubdirs (dir : Nat) : (count i : Nat) → Ramfs → Option Ramfs
  | 0, _, s => some s
  | count + 1, i, s =>
    (s.report "[DIR]  " (s.heap.word (s.heap.word (s.heap.word dir RamfsDir.subdirs) i) RamfsDir.name)).bind
      (listSubdirs dir count (i + 1))

/-- The second one. -/
def listFiles (dir : Nat) : (count i : Nat) → Ramfs → Option Ramfs
  | 0, _, s => some s
  | count + 1, i, s =>
    let file := s.heap.word (s.heap.word dir RamfsDir.files) i
    ((s.print "[FILE] ").terminalWritestring (s.heap.word file RamfsFile.name)).bind fun s =>
      listFiles dir count (i + 1)
        (((s.print "    size:").terminalWriteint R (toSigned (s.heap.word file RamfsFile.size))).print "\n")

/-- `ramfs_ls` -/
def ramfsLs (s : Ramfs) (dir : Nat) : Option Ramfs :=
  if dir = 0 then some s
  else ((s.print "Contents of ").ramfsPwd L dir).bind fun s =>
    (listSubdirs dir (s.heap.word dir RamfsDir.subdirCount) 0 s).bind fun s =>
      listFiles R dir (s.heap.word dir RamfsDir.fileCount) 0 s

/-- `ramfs_cat` -/
def ramfsCat (s : Ramfs) (dir filename : Nat) : Option Ramfs :=
  if dir = 0 ∨ filename = 0 then some s
  else (s.heap.mem.skipSpaces addressSpace filename).bind fun filename =>
    (Heap.searchName s.heap.mem (s.heap.word dir RamfsDir.files) filename (s.heap.word dir RamfsDir.fileCount) 0).bind
      fun found =>
        match found with
        | some i => s.report "" (s.heap.word (s.heap.word (s.heap.word dir RamfsDir.files) i) RamfsFile.data)
        | none => s.report "File not found: " filename

/-- `ramfs_touch` -/
def ramfsTouch (s : Ramfs) (dir filename : Nat) : Option Ramfs :=
  if dir = 0 ∨ filename = 0 then some s
  else (s.heap.mem.skipSpaces addressSpace filename).bind fun filename =>
    (s.heap.mem.strlen filename).bind fun len =>
      if len = 0 then some (s.print "Usage: touch <filename>\n")
      else (Heap.searchName s.heap.mem (s.heap.word dir RamfsDir.files) filename
        (s.heap.word dir RamfsDir.fileCount) 0).bind
        fun found =>
          match found with
          | some _ => some (s.print "File already exists\n")
          | none => (s.heap.ramfsCreateFile L dir filename R.empty 1).bind fun (h, file) =>
            if file ≠ 0 then ({s with heap := h} : Ramfs).report "Created file: " filename
            else some (({s with heap := h} : Ramfs).print "Failed to create file\n")

/-- `ramfs_cd` -/
def ramfsCd (s : Ramfs) (root dirName : Nat) : Option (Ramfs × Nat) :=
  (s.heap.ramfsFindDir L R s.last root dirName).map fun (h, last, dir) => ({s with heap := h, last := last}, dir)

/-- `ramfs_run`; what `init_elf` does with the file is a parameter. -/
def ramfsRun (initElf : Ramfs → Nat → Option Ramfs) (s : Ramfs) (dir filename : Nat) : Option Ramfs :=
  if dir = 0 ∨ filename = 0 then some s
  else (s.heap.mem.skipSpaces addressSpace filename).bind fun filename =>
    (Heap.searchName s.heap.mem (s.heap.word dir RamfsDir.files) filename (s.heap.word dir RamfsDir.fileCount) 0).bind
      fun found =>
        match found with
        | some i => initElf s (s.heap.word (s.heap.word dir RamfsDir.files) i)
        | none => s.report "File not found: " filename

end Executables
end Ramfs
end ShompOS
