import ShompOS.FakeLibc.Text

/-! The in-memory file system (`ramfs.c`), function by function.

Files, directories and open descriptors are records of words in blocks of the
heap, and a directory's files and subdirectories are arrays of pointers. A field
is the index of its word. The string literals of the source lie in the kernel
image at the addresses `Rodata` gives. `fd_table` is an array of its own here, not
a part of memory. A function that does not return is `none`; `NULL` is 0. -/
namespace ShompOS
open Memory

abbrev maxFds : Nat := 64

abbrev seekSet : Int := 0
abbrev seekCur : Int := 1
abbrev seekEnd : Int := 2

abbrev stdinFileno : Int := 0
abbrev stdoutFileno : Int := 1
abbrev stderrFileno : Int := 2

abbrev oRdonly : Nat := 1
abbrev oWronly : Nat := 2
abbrev oRdwr : Nat := 3
abbrev oAppend : Nat := 4

/-! ### ramfs_file_t, ramfs_dir_t and ramfs_fd_t -/

namespace RamfsFile
abbrev name : Nat := 0
abbrev data : Nat := 1
abbrev size : Nat := 2
/-- `sizeof(ramfs_file_t)` -/
abbrev bytes : Nat := 12
end RamfsFile

namespace RamfsDir
abbrev name : Nat := 0
abbrev parent : Nat := 1
abbrev files : Nat := 2
abbrev fileCount : Nat := 3
abbrev subdirs : Nat := 4
abbrev subdirCount : Nat := 5
/-- `sizeof(ramfs_dir_t)` -/
abbrev bytes : Nat := 24
end RamfsDir

namespace RamfsFd
abbrev fd : Nat := 0
abbrev file : Nat := 1
abbrev position : Nat := 2
abbrev flags : Nat := 3
/-- `sizeof(ramfs_fd_t)` -/
abbrev bytes : Nat := 16
end RamfsFd

/-- What is up to the build: where the string literals are, and a number. -/
structure Rodata where
  slash : Nat
  devStdin : Nat
  devStdout : Nat
  devStderr : Nat
  empty : Nat
  /-- What `terminal_writeint` goes on with where `-num` overflows. -/
  negMin : Int

/-- The literals are where `Rodata` says. -/
structure Rodata.Holds (R : Rodata) (L : Layout) (m : Memory) : Prop where
  slash : Literal L m R.slash (ascii "/")
  devStdin : Literal L m R.devStdin (ascii "/dev/stdin")
  devStdout : Literal L m R.devStdout (ascii "/dev/stdout")
  devStderr : Literal L m R.devStderr (ascii "/dev/stderr")
  empty : Literal L m R.empty []

/-- The bytes of the literals. -/
def Rodata.Byte (R : Rodata) (x : Nat) : Prop :=
  ∃ lit ∈ [(R.slash, ascii "/"), (R.devStdin, ascii "/dev/stdin"), (R.devStdout, ascii "/dev/stdout"),
    (R.devStderr, ascii "/dev/stderr"), (R.empty, [])], lit.1 ≤ x ∧ x ≤ lit.1 + lit.2.length

theorem Rodata.Holds.congr {R : Rodata} {L : Layout} {m m' : Memory} (h : R.Holds L m)
    (hm : ∀ x, L.Static x → R.Byte x → m'.byte x = m.byte x) : R.Holds L m' := by
  have hlit : ∀ {a text}, (a, text) ∈ [(R.slash, ascii "/"), (R.devStdin, ascii "/dev/stdin"),
      (R.devStdout, ascii "/dev/stdout"), (R.devStderr, ascii "/dev/stderr"), (R.empty, [])] → Literal L m a text →
      Literal L m' a text := fun {a text} hin hl => by
    refine ⟨hl.ne_zero, hl.str.congr fun x h1 h2 => hm x ?_ ⟨_, hin, h1, h2⟩, hl.static⟩
    obtain ⟨i, rfl⟩ := Nat.exists_eq_add_of_le h1
    exact hl.static i (by omega)
  exact ⟨hlit (by simp) h.slash, hlit (by simp) h.devStdin, hlit (by simp) h.devStdout, hlit (by simp) h.devStderr,
    hlit (by simp) h.empty⟩

/-- A 32-bit word as a signed one. -/
def toSigned (v : Nat) : Int := if v < 2 ^ 31 then v else (v : Int) - addressSpace

/-- A signed number as a 32-bit word. -/
def toUnsigned (v : Int) : Nat := (v % addressSpace).toNat

namespace Heap

section Directories
variable (L : Layout) (R : Rodata)

/-- `ramfs_create_root` -/
def ramfsCreateRoot (h : Heap) : Option (Heap × Nat) :=
  (h.allocate L RamfsDir.bytes).bind fun (h, root) =>
    if root = 0 then some (h, 0)
    else (h.strdup L R.slash).map fun (h, name) =>
      let h := h.setWord root RamfsDir.name name
      let h := h.setWord root RamfsDir.parent 0
      let h := h.setWord root RamfsDir.files 0
      let h := h.setWord root RamfsDir.fileCount 0
      let h := h.setWord root RamfsDir.subdirs 0
      (h.setWord root RamfsDir.subdirCount 0, root)

/-- `ramfs_create_dir` -/
def ramfsCreateDir (h : Heap) (parent name : Nat) : Option (Heap × Nat) :=
  if parent = 0 ∨ name = 0 then some (h, 0)
  else (h.allocate L RamfsDir.bytes).bind fun (h, newDir) =>
    if newDir = 0 then some (h, 0)
    else (h.strdup L name).bind fun (h, newName) =>
      let h := h.setWord newDir RamfsDir.name newName
      let h := h.setWord newDir RamfsDir.parent parent
      let h := h.setWord newDir RamfsDir.files 0
      let h := h.setWord newDir RamfsDir.fileCount 0
      let h := h.setWord newDir RamfsDir.subdirs 0
      let h := h.setWord newDir RamfsDir.subdirCount 0
      (h.allocate L (wrap ((h.word parent RamfsDir.subdirCount + 1) * 4))).bind fun (h, newSubdirs) =>
        if newSubdirs = 0 then (h.free L newDir).map fun (h, _) => (h, 0)
        else
          let oldSubdirs := h.word parent RamfsDir.subdirs
          let copied :=
            if oldSubdirs ≠ 0 then
              let h := h.memcpy newSubdirs oldSubdirs (wrap (h.word parent RamfsDir.subdirCount * 4))
              (h.free L oldSubdirs).map Prod.fst
            else some h
          copied.map fun h =>
            let h := h.setWord parent RamfsDir.subdirs newSubdirs
            let count := h.word parent RamfsDir.subdirCount
            let h := h.setWord parent RamfsDir.subdirCount (wrap (count + 1))
            (h.setWord (h.word parent RamfsDir.subdirs) count newDir, newDir)

/-- `ramfs_create_file` -/
def ramfsCreateFile (h : Heap) (dir name data size : Nat) : Option (Heap × Nat) :=
  if dir = 0 ∨ name = 0 ∨ data = 0 then some (h, 0)
  else (h.allocate L RamfsFile.bytes).bind fun (h, newFile) =>
    if newFile = 0 then some (h, 0)
    else (h.strdup L name).bind fun (h, newName) =>
      let h := h.setWord newFile RamfsFile.name newName
      if newName = 0 then (h.free L newFile).map fun (h, _) => (h, 0)
      else (h.allocate L (if size = 0 then 1 else size)).bind fun (h, newData) =>
        let h := h.setWord newFile RamfsFile.data newData
        if newData = 0 then
          (h.free L (h.word newFile RamfsFile.name)).bind fun (h, _) =>
            (h.free L newFile).map fun (h, _) => (h, 0)
        else
          let h := h.memcpy (h.word newFile RamfsFile.data) data size
          let h := h.setWord newFile RamfsFile.size size
          (h.allocate L (wrap ((h.word dir RamfsDir.fileCount + 1) * 4))).bind fun (h, newFiles) =>
            if newFiles = 0 then
              (h.free L (h.word newFile RamfsFile.data)).bind fun (h, _) =>
                (h.free L (h.word newFile RamfsFile.name)).bind fun (h, _) =>
                  (h.free L newFile).map fun (h, _) => (h, 0)
            else
              let oldFiles := h.word dir RamfsDir.files
              let copied :=
                if oldFiles ≠ 0 then
                  let h := h.memcpy newFiles oldFiles (wrap (h.word dir RamfsDir.fileCount * 4))
                  (h.free L oldFiles).map Prod.fst
                else some h
              copied.map fun h =>
                let h := h.setWord dir RamfsDir.files newFiles
                let count := h.word dir RamfsDir.fileCount
                let h := h.setWord dir RamfsDir.fileCount (wrap (count + 1))
                (h.setWord (h.word dir RamfsDir.files) count newFile, newFile)

/-- The loop that looks for a name among `count` records from the `i`-th on; files
and directories both begin with the pointer to their name. -/
def searchName (m : Memory) (array name : Nat) : (count i : Nat) → Option (Option Nat)
  | 0, _ => some none
  | count + 1, i =>
    (m.strcmp (m.word (m.word array i) RamfsFile.name) name).bind fun d =>
      if d = 0 then some (some i) else searchName m array name count (i + 1)

/-- `ramfs_delete_file` -/
def ramfsDeleteFile (h : Heap) (dir name : Nat) : Option Heap :=
  if dir = 0 ∨ name = 0 ∨ h.word dir RamfsDir.files = 0 ∨ h.word dir RamfsDir.fileCount = 0 then some h
  else (searchName h.mem (h.word dir RamfsDir.files) name (h.word dir RamfsDir.fileCount) 0).bind fun fileIdx =>
    match fileIdx with
    | none => some h
    | some fileIdx =>
      let filePtr := h.word (h.word dir RamfsDir.files) fileIdx
      let namePtr := h.word filePtr RamfsFile.name
      let dataPtr := h.word filePtr RamfsFile.data
      (h.free L namePtr).bind fun (h, _) => (h.free L dataPtr).bind fun (h, _) => (h.free L filePtr).bind fun (h, _) =>
        let files := h.word dir RamfsDir.files
        let count := h.word dir RamfsDir.fileCount
        -- if it is not the last file, shift the remaining files left
        let h :=
          if fileIdx < count - 1 then
            h.memmove (wrap (files + 4 * fileIdx)) (wrap (files + 4 * (fileIdx + 1))) (wrap ((count - fileIdx - 1) * 4))
          else h
        let shrunk :=
          if count > 1 then
            (h.allocate L (wrap ((count - 1) * 4))).bind fun (h, newFiles) =>
              if newFiles ≠ 0 then
                let oldFiles := h.word dir RamfsDir.files
                let h := h.memcpy newFiles oldFiles (wrap ((count - 1) * 4))
                (h.free L oldFiles).map fun (h, _) => h.setWord dir RamfsDir.files newFiles
              else some h
          else (h.free L files).map fun (h, _) => h.setWord dir RamfsDir.files 0
        shrunk.map fun h => h.setWord dir RamfsDir.fileCount (h.word dir RamfsDir.fileCount - 1)

/-- The loop of `ramfs_find_dir`, with `last` and the directory or 0. -/
def findDirFrom (h : Heap) : (fuel last current token : Nat) → Option (Heap × Nat × Nat)
  | 0, _, _, _ => none
  | fuel + 1, last, current, token =>
    if token = 0 then some (h, last, current)
    else (searchName h.mem (h.word current RamfsDir.subdirs) token
      (h.word current RamfsDir.subdirCount) 0).bind fun found =>
      match found with
      | none => some (h, last, 0)
      | some i =>
        let current := h.word (h.word current RamfsDir.subdirs) i
        (h.mem.strtok last 0 R.slash).bind fun (m, last, token) =>
          findDirFrom ⟨m, h.currentBrk⟩ fuel last current token

/-- `ramfs_find_dir`, with `strtok`'s static variable. -/
def ramfsFindDir (h : Heap) (last root path : Nat) : Option (Heap × Nat × Nat) :=
  if root = 0 ∨ path = 0 then some (h, last, 0)
  else (h.mem.strcmp path R.slash).bind fun d =>
    if d = 0 then some (h, last, root)
    else (h.strdup L path).bind fun (h, pathCopy) =>
      if pathCopy = 0 then some (h, last, 0)
      else (h.mem.strtok last pathCopy R.slash).bind fun (m, last, token) =>
        (findDirFrom R ⟨m, h.currentBrk⟩ addressSpace last root token).bind fun (h, last, current) =>
          (h.free L pathCopy).map fun (h, _) => (h, last, current)

end Directories
end Heap

/-! ### Descriptors -/

/-- The state of the file system: the heap, the descriptors, `strtok`'s static
variable, and what the terminal has been sent. -/
structure Ramfs where
  heap : Heap
  fdTable : Fin maxFds → Nat
  fdCount : Int
  last : Nat
  terminal : List UInt8

namespace Ramfs

/-- `terminal_writestring` -/
def terminalWritestring (s : Ramfs) (data : Nat) : Option Ramfs :=
  (s.heap.mem.strlen data).map fun len =>
    {s with terminal := s.terminal ++ (List.range len).map fun i => s.heap.mem.byte (wrap (data + i))}

/-- `ramfs_init_fd_system` -/
def ramfsInitFdSystem (s : Ramfs) : Ramfs := {s with fdTable := fun _ => 0, fdCount := 0}

section Descriptors
variable (L : Layout) (R : Rodata)

/-- The rest of `ramfs_open`, once the directory is known. -/
def openIn (s : Ramfs) (dir filename pathCopy flags : Nat) : Option (Ramfs × Int) :=
  (Heap.searchName s.heap.mem (s.heap.word dir RamfsDir.files) filename (s.heap.word dir RamfsDir.fileCount) 0).bind
    fun found =>
      match found, (List.finRange maxFds).find? fun i => s.fdTable i = 0 with
      | some i, some fd =>
        let file := s.heap.word (s.heap.word dir RamfsDir.files) i
        (s.heap.allocate L RamfsFd.bytes).bind fun (h, fdEntry) =>
          if fdEntry = 0 then (h.free L pathCopy).map fun (h, _) => ({s with heap := h}, -1)
          else
            let h := h.setWord fdEntry RamfsFd.fd fd
            let h := h.setWord fdEntry RamfsFd.file file
            let h := h.setWord fdEntry RamfsFd.position 0
            let h := h.setWord fdEntry RamfsFd.flags flags
            (h.free L pathCopy).map fun (h, _) =>
              ({s with heap := h, fdTable := Function.update s.fdTable fd fdEntry, fdCount := s.fdCount + 1}, fd)
      | _, _ => (s.heap.free L pathCopy).map fun (h, _) => ({s with heap := h}, -1)

/-- `ramfs_open` -/
def ramfsOpen (s : Ramfs) (root path flags : Nat) : Option (Ramfs × Int) :=
  if root = 0 ∨ path = 0 ∨ s.heap.mem.byte path = 0 then some (s, -1)
  else (s.heap.mem.strcmp path R.devStdin).bind fun d => if d = 0 then some (s, 0)
  else (s.heap.mem.strcmp path R.devStdout).bind fun d => if d = 0 then some (s, 1)
  else (s.heap.mem.strcmp path R.devStderr).bind fun d => if d = 0 then some (s, 2)
  else (s.heap.strdup L path).bind fun (h, pathCopy) =>
    if pathCopy = 0 then some ({s with heap := h}, -1)
    else (h.mem.strchr pathCopy 0x2F).bind fun lastSlash =>
      if lastSlash = 0 then openIn L {s with heap := h} root pathCopy pathCopy flags
      else
        let h := h.setByte lastSlash 0
        (h.mem.strlen pathCopy).bind fun len =>
          if len > 0 then
            (h.ramfsFindDir L R s.last root pathCopy).bind fun (h, last, dir) =>
              if dir = 0 then (h.free L pathCopy).map fun (h, _) => ({s with heap := h, last := last}, -1)
              else openIn L {s with heap := h, last := last} dir (wrap (lastSlash + 1)) pathCopy flags
          else openIn L {s with heap := h} root (wrap (lastSlash + 1)) pathCopy flags

/-- What is in `fd_table` for `fd`; `none` for an invalid descriptor. -/
def fdEntry (s : Ramfs) (fd : Int) : Option Nat :=
  if hfd : 0 ≤ fd ∧ fd < maxFds then
    let entry := s.fdTable ⟨fd.toNat, by omega⟩
    if entry = 0 then none else some entry
  else none

/-- `ramfs_read`; what the keyboard handler does is a parameter. -/
def ramfsRead (handleKeyboardInterrupt : Ramfs → Option Ramfs) (s : Ramfs) (fd : Int) (buf count : Nat) :
    Option (Ramfs × Int) :=
  match s.fdEntry fd with
  | none => some (s, -1)
  | some fdEntry =>
    if fd = stdinFileno then (handleKeyboardInterrupt s).map fun s => (s, -1)
    else
      let flags := s.heap.word fdEntry RamfsFd.flags
      let file := s.heap.word fdEntry RamfsFd.file
      if flags &&& oRdonly = 0 ∧ flags &&& oRdwr = 0 then some (s, -1)
      else if file = 0 then some (s, -1)
      else
        let position := s.heap.word fdEntry RamfsFd.position
        let available := wrap (s.heap.word file RamfsFile.size + (addressSpace - position))
        let bytesToRead := if count > available then available else count
        let h := s.heap.memcpy buf (wrap (s.heap.word file RamfsFile.data + position)) bytesToRead
        let h := h.setWord fdEntry RamfsFd.position (wrap (h.word fdEntry RamfsFd.position + bytesToRead))
        some ({s with heap := h}, toSigned bytesToRead)

/-- `ramfs_write` -/
def ramfsWrite (s : Ramfs) (fd : Int) (buf count : Nat) : Option (Ramfs × Int) :=
  match s.fdEntry fd with
  | none => some (s, -1)
  | some fdEntry =>
    if fd = stdoutFileno ∨ fd = stderrFileno then (s.terminalWritestring buf).map fun s => (s, toSigned count)
    else
      let flags := s.heap.word fdEntry RamfsFd.flags
      let file := s.heap.word fdEntry RamfsFd.file
      if flags &&& (oWronly ||| oRdwr) = 0 then some (s, -1)
      else if file = 0 then some (s, -1)
      else
        let h :=
          if flags &&& oAppend ≠ 0 then s.heap.setWord fdEntry RamfsFd.position (s.heap.word file RamfsFile.size)
          else s.heap
        let newSize := wrap (h.word fdEntry RamfsFd.position + count)
        let resized :=
          if newSize > h.word file RamfsFile.size then
            (h.allocate L newSize).bind fun (h, newData) =>
              if newData = 0 then some (h, false)
              else
                let oldData := h.word file RamfsFile.data
                let copied :=
                  if oldData ≠ 0 then
                    let h := h.memcpy newData oldData (h.word file RamfsFile.size)
                    (h.free L oldData).map Prod.fst
                  else some h
                copied.map fun h =>
                  let h := h.setWord file RamfsFile.data newData
                  (h.setWord file RamfsFile.size newSize, true)
          else some (h, true)
        resized.map fun (h, ok) =>
          if ok then
            let h := h.memcpy (wrap (h.word file RamfsFile.data + h.word fdEntry RamfsFd.position)) buf count
            let h := h.setWord fdEntry RamfsFd.position (wrap (h.word fdEntry RamfsFd.position + count))
            ({s with heap := h}, toSigned count)
          else ({s with heap := h}, -1)

/-- `ramfs_seek` -/
def ramfsSeek (s : Ramfs) (fd offset origin : Int) : Ramfs × Int :=
  match s.fdEntry fd with
  | none => (s, -1)
  | some fdEntry =>
    let file := s.heap.word fdEntry RamfsFd.file
    let move (newPosition : Int) : Ramfs × Int :=
      if newPosition < 0 then (s, -1)
      else ({s with heap := s.heap.setWord fdEntry RamfsFd.position (toUnsigned newPosition)}, newPosition)
    if origin = seekSet then move offset
    else if origin = seekCur then move (toSigned (toUnsigned (s.heap.word fdEntry RamfsFd.position + offset)))
    else if origin = seekEnd then move (toSigned (toUnsigned (s.heap.word file RamfsFile.size + offset)))
    else (s, -1)

/-- `ramfs_close`; it frees the address of its own local variable, `fdPtr`. -/
def ramfsClose (s : Ramfs) (fd : Int) (fdPtr : Nat) : Option (Ramfs × Int) :=
  if hfd : 0 ≤ fd ∧ fd < maxFds then
    if s.fdTable ⟨fd.toNat, by omega⟩ = 0 then some (s, -1)
    else (s.heap.free L fdPtr).map fun (h, _) =>
      ({s with heap := h, fdTable := Function.update s.fdTable ⟨fd.toNat, by omega⟩ 0, fdCount := s.fdCount - 1}, 0)
  else some (s, -1)

/-- What `terminal_writestring` does with a literal. -/
def print (s : Ramfs) (text : String) : Ramfs := {s with terminal := s.terminal ++ ascii text}

/-- `ramfs_rm` (`ramfs_executables.c`) -/
def ramfsRm (s : Ramfs) (dir filename : Nat) : Option Ramfs :=
  if dir = 0 ∨ filename = 0 then some s
  else (Heap.searchName s.heap.mem (s.heap.word dir RamfsDir.files) filename
    (s.heap.word dir RamfsDir.fileCount) 0).bind
    fun found =>
      match found with
      | none => ((s.print "File not found: ").terminalWritestring filename).map fun s => s.print "\n"
      | some _ => (s.heap.ramfsDeleteFile L dir filename).bind fun h =>
        (({s with heap := h} : Ramfs).print "Removed file: ").terminalWritestring filename |>.map fun s => s.print "\n"

end Descriptors
end Ramfs
end ShompOS
