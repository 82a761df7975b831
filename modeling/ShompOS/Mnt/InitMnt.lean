import ShompOS.Fs.Creating
import ShompOS.Mnt.Generator

/-! Running `init_mnt`.

The generated function calls `ramfs_create_file` and `ramfs_create_dir` one after another
and looks at nothing that they return, so that an entry for which there is no memory is
left out. Where the compiler and the linker have put the names and the files is a
parameter. -/
namespace ShompOS
open Memory

/-- Where the symbols of the objects and the string literals are. -/
structure Linkage where
  symbol : List UInt8 → Nat
  literal : List UInt8 → Nat

/-- What is in an object lies in the kernel image between its two symbols. -/
structure Embedded (L : Layout) (m : Memory) (start stop : Nat) (contents : List UInt8) : Prop where
  ne_zero : start ≠ 0
  bytes : ∀ i b, contents[i]? = some b → m.byte (start + i) = b
  static : ∀ i, i < contents.length → L.Static (start + i)
  ends : stop = start + contents.length
  room : stop < addressSpace

/-- The string literal of a statement. -/
def CLine.literal : CLine → Option (List UInt8)
  | .createFile _ name .. => some name
  | .createDir _ _ name => some name
  | _ => none

/-- Assumed of the compiler and the linker: the literals and the objects are where the
program looks for them. -/
structure Linkage.Loads (K : Linkage) (L : Layout) (m : Memory) (g : Generated) : Prop where
  object : ∀ run ∈ objects g.ldRuns, Embedded L m (K.symbol (startSymbol (ldSymbol run.input)))
    (K.symbol (endSymbol (ldSymbol run.input))) run.contents
  literal : ∀ line ∈ g.lines, ∀ name ∈ line.literal, Literal L m (K.literal name) name

namespace Mount

section Running
variable (L : Layout) (R : Rodata) (K : Linkage)

/-- Statements, with the pointers in the variables; the calls are recorded. -/
def exec : (vars : List UInt8 → Nat) → Mount → List CLine → Option (List (Mount × (FsCall × Int)) × Mount)
  | _, _, [] => none
  | _, _, .initMnt _ :: _ => none
  | vars, s, .createFile dir name data stop start :: lines =>
    let size := wrap (K.symbol stop + (addressSpace - K.symbol start))
    let c := FsCall.createFile (vars dir) (K.literal name) (K.symbol data) size
    (s.call L R c).bind fun (s', r) => (exec vars s' lines).map fun (tr, u) => ((s, (c, r)) :: tr, u)
  | vars, s, .createDir new dir name :: lines =>
    let c := FsCall.createDir (vars dir) (K.literal name)
    (s.call L R c).bind fun (s', r) =>
      (exec (Function.update vars new r.toNat) s' lines).map fun (tr, u) => ((s, (c, r)) :: tr, u)
  | _, s, .return0 :: _ => some ([], s)

/-- `init_mnt(root)` -/
def initMnt (s : Mount) (g : Generated) : Option (List (Mount × (FsCall × Int)) × Mount) :=
  match g.lines with
  | .initMnt param :: lines => exec L R K (Function.update (fun _ => 0) param s.root) s lines
  | _ => none

/-- There is memory for everything that the call allocates. -/
def Supplies (s : Mount) : FsCall → Prop
  | .createFile dir name _ size => ∀ text, IsStr s.mem name text → s.heap.served L [RamfsFile.bytes, text.length + 1,
      if size = 0 then 1 else size, 4 * (s.heap.word dir RamfsDir.fileCount + 1)] = some [true, true, true, true]
  | .createDir parent name => ∀ text, IsStr s.mem name text → s.heap.served L [RamfsDir.bytes, text.length + 1,
      4 * (s.heap.word parent RamfsDir.subdirCount + 1)] = some [true, true, true]
  | _ => True

end Running

/-- From its `i`-th file and its `j`-th subdirectory on, a directory is what the tree says,
and there is nothing more in it. -/
def HoldsTree (s : Mount) : HostDir → (dir i j : Nat) → Prop
  | .empty, dir, i, j => s.heap.word dir RamfsDir.fileCount = i ∧ s.heap.word dir RamfsDir.subdirCount = j
  | .file name contents rest, dir, i, j =>
    (i < s.heap.word dir RamfsDir.fileCount ∧ s.heap.HasName (s.heap.fileAt dir i) name.text ∧
      s.contents (s.heap.fileAt dir i) = contents) ∧ HoldsTree s rest dir (i + 1) j
  | .dir name sub rest, dir, i, j =>
    (j < s.heap.word dir RamfsDir.subdirCount ∧ s.heap.HasName (s.heap.subdirAt dir j) name.text ∧
      s.heap.word (s.heap.subdirAt dir j) RamfsDir.parent = dir ∧ HoldsTree s sub (s.heap.subdirAt dir j) 0 0) ∧
      HoldsTree s rest dir i (j + 1)

/-- What is generated from a tree compiles and links, with an object and symbols for each
file and a variable for each directory, and `init_mnt` makes that tree of the root. -/
structure Reproduces (L : Layout) (R : Rodata) (K : Linkage) (s : Mount) (t : HostDir) : Prop where
  given : (mntSetup mntDir t).ldRuns.map (fun run => (run.input, run.contents)) = HostDir.files t mntDir
  objects : ((mntSetup mntDir t).ldRuns.map LdRun.out).Nodup
  symbols : ((mntSetup mntDir t).ldRuns.map fun run => ldSymbol run.input).Nodup
  compiles : (mntSetup mntDir t).Compiles
  links : (mntSetup mntDir t).Links
  runs : ∃ tr s', s.initMnt L R K (mntSetup mntDir t) = some (tr, s') ∧ s'.HoldsTree t s.root 0 0

end Mount
end ShompOS
