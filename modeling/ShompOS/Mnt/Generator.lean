import ShompOS.FakeLibc.Text
import ShompOS.FileTree

/-! The generator of the mount image (`scripts/mnt_setup.sh` and its two `awk` scripts).

The shell script goes through a directory of the host, writes a line for every entry to
a temporary file and has `ld` wrap every file into an object. From the lines the `awk`
scripts make a C file, declarations first and then the function `init_mnt`. A path is
turned into an identifier in three places: by `sed` for the variables and the names of
the objects, by the `awk` scripts from what `sed` made of it, and by `ld`. -/
namespace ShompOS
open Memory

/-! ### The directory of the host -/

def isAlnum (c : UInt8) : Bool :=
  (0x30 ≤ c && c ≤ 0x39) || (0x41 ≤ c && c ≤ 0x5A) || (0x61 ≤ c && c ≤ 0x7A)

/-- Letters, digits, '_' and '.'. -/
def isNameChar (c : UInt8) : Bool := isAlnum c || c == 0x5F || c == 0x2E

/-- A name that the shell's `*` matches, and that is one word wherever the script does not
quote it. -/
structure FileName where
  text : List UInt8
  ne_nil : text ≠ []
  chars : ∀ c ∈ text, isNameChar c
  visible : text.head? ≠ some 0x2E

/-- What is in a directory, in the order of the shell's `*`. -/
abbrev HostDir := FileTree FileName (List UInt8)

/-- The path of an entry. -/
def FileName.below (name : FileName) (path : List UInt8) : List UInt8 := path ++ 0x2F :: name.text

namespace HostDir

/-- The paths of all files below a directory, with what is in them. -/
def files : HostDir → (path : List UInt8) → List (List UInt8 × List UInt8)
  | .empty, _ => []
  | .file name contents rest, path => (name.below path, contents) :: files rest path
  | .dir name sub rest, path => files sub (name.below path) ++ files rest path

/-- The paths of all directories below one. -/
def dirs : HostDir → (path : List UInt8) → List (List UInt8)
  | .empty, _ => []
  | .file _ _ rest, path => dirs rest path
  | .dir name sub rest, path => name.below path :: (dirs sub (name.below path) ++ dirs rest path)

end HostDir

/-! ### mnt_setup.sh -/

/-- A run of `$LD -r -b binary -o $MNT_OUT_DIR/out input`, with what was in the file. -/
structure LdRun where
  out : List UInt8
  input : List UInt8
  contents : List UInt8
  deriving DecidableEq

/-- The temporary file and what `ld` was run on. -/
structure Setup where
  tempfile : List UInt8
  ldRuns : List LdRun

/-- `sed 's/[ \/\.]/_/g'`; the second backslash is one of the characters. -/
def sed (text : List UInt8) : List UInt8 :=
  text.map fun c => if c = 0x20 ∨ c = 0x2F ∨ c = 0x5C ∨ c = 0x2E then 0x5F else c

/-- `basename` -/
def basename (filename : List UInt8) : List UInt8 := (filename.reverse.takeWhile (· ≠ 0x2F)).reverse

/-- `ech` -/
def Setup.ech (s : Setup) (text : List UInt8) : Setup := {s with tempfile := s.tempfile ++ text ++ [0x20]}

def Setup.newline (s : Setup) : Setup := {s with tempfile := s.tempfile ++ [0x0A]}

def Setup.ld (s : Setup) (out input contents : List UInt8) : Setup :=
  {s with ldRuns := s.ldRuns ++ [⟨out, input, contents⟩]}

/-- The line that is written for an entry. -/
def Setup.line (s : Setup) (type parentSymbol filename : List UInt8) : Setup :=
  let s := s.ech type
  let s := s.ech parentSymbol
  let s := s.ech (basename filename)
  let s := s.ech (sed filename)
  s.newline

/-- `check_dir`; in an empty directory `*` stands for itself and does not exist. -/
def checkDir : HostDir → (dir : List UInt8) → Setup → Setup
  | .empty, _, s => s
  | .file name contents rest, dir, s =>
    let filename := name.below dir
    let s := s.line (ascii "f") (sed dir) filename
    let s := s.ld (sed filename ++ ascii ".o") filename contents
    checkDir rest dir s
  | .dir name sub rest, dir, s =>
    let filename := name.below dir
    let s := s.line (ascii "d") (sed dir) filename
    let s := checkDir sub filename s
    checkDir rest dir s

/-! ### mnt_setup_1.awk and mnt_setup_2.awk -/

/-- The lines of a text; no rule of the scripts matches an empty one. -/
def records (text : List UInt8) : List (List UInt8) := tokens 0x0A text

/-- `$n` -/
def field (record : List UInt8) (n : Nat) : List UInt8 := ((tokens 0x20 record)[n - 1]?).getD []

def startSymbol (symbol : List UInt8) : List UInt8 := ascii "_binary_" ++ symbol ++ ascii "_start"

def endSymbol (symbol : List UInt8) : List UInt8 := ascii "_binary_" ++ symbol ++ ascii "_end"

/-- `extern char symbol[];` for each symbol. -/
def mntSetup1 (tempfile : List UInt8) : List (List UInt8) :=
  (records tempfile).flatMap fun record =>
    if record.head? = some 0x66 then [endSymbol (field record 4), startSymbol (field record 4)] else []

inductive CLine
  /-- `int init_mnt(ramfs_dir_t *param) {` -/
  | initMnt (param : List UInt8)
  /-- `ramfs_create_file(dir, "name", data, stop - start);` -/
  | createFile (dir name data stop start : List UInt8)
  /-- `ramfs_dir_t *new = ramfs_create_dir(dir, "name");` -/
  | createDir (new dir name : List UInt8)
  /-- `return 0;` and the brace at the end -/
  | return0
  deriving DecidableEq

/-- The lines for one record: each rule that matches prints one. -/
def mntSetup2Rules (record : List UInt8) : List CLine :=
  (if record.head? = some 0x5F then [.initMnt (field record 1)] else []) ++
  (if record.head? = some 0x66 then
    [.createFile (field record 2) (field record 3) (startSymbol (field record 4)) (endSymbol (field record 4))
      (startSymbol (field record 4))]
  else []) ++
  (if record.head? = some 0x64 then [.createDir (field record 4) (field record 2) (field record 3)] else [])

def mntSetup2 (tempfile : List UInt8) : List CLine := (records tempfile).flatMap mntSetup2Rules ++ [.return0]

/-- The C file, and the runs of `ld` in their order. -/
structure Generated where
  externs : List (List UInt8)
  lines : List CLine
  ldRuns : List LdRun

/-- `mnt_setup.sh` -/
def mntSetup (mntDir : List UInt8) (t : HostDir) : Generated :=
  let s := checkDir t mntDir ⟨sed mntDir ++ [0x0A], []⟩
  ⟨mntSetup1 s.tempfile, mntSetup2 s.tempfile, s.ldRuns⟩

/-- `MNT_DIR` in the Makefile -/
abbrev mntDir : List UInt8 := ascii "./mnt"

/-! ### Compiling and linking -/

/-- Assumed of `ld`: in the names of the symbols of an object every other character of
the input's path is replaced by '_'. -/
def ldSymbol (input : List UInt8) : List UInt8 := input.map fun c => if isAlnum c then c else 0x5F

/-- The objects that there are in the end; of two of one name the later one. -/
def objects : List LdRun → List LdRun
  | [] => []
  | run :: runs => if run.out ∈ runs.map LdRun.out then objects runs else run :: objects runs

def isIdentifierChar (c : UInt8) : Bool := isAlnum c || c == 0x5F

/-- An identifier of C. -/
def IsIdentifier (text : List UInt8) : Prop :=
  (∀ c ∈ text, isIdentifierChar c) ∧ ∃ c ∈ text.head?, ¬ (0x30 ≤ c ∧ c ≤ 0x39)

/-- Between quotes the characters stand for themselves. -/
def IsLiteral (text : List UInt8) : Prop := ∀ c ∈ text, c ≠ 0x22 ∧ c ≠ 0x5C ∧ c ≠ 0x0A

/-- Each variable is declared once, before it is used, and so are the symbols; the
function ends with its `return`. -/
def InScope (externs : List (List UInt8)) : (scope : List (List UInt8)) → List CLine → Prop
  | _, [] => False
  | _, .initMnt _ :: _ => False
  | scope, .createFile dir name data stop start :: lines =>
    dir ∈ scope ∧ IsLiteral name ∧ data ∈ externs ∧ stop ∈ externs ∧ start ∈ externs ∧ InScope externs scope lines
  | scope, .createDir new dir name :: lines =>
    dir ∈ scope ∧ IsLiteral name ∧ IsIdentifier new ∧ new ∉ scope ∧
      InScope externs (new :: scope) lines
  | _, .return0 :: lines => lines = []

def Generated.Compiles (g : Generated) : Prop :=
  (∀ symbol ∈ g.externs, IsIdentifier symbol) ∧
    ∃ param lines, g.lines = .initMnt param :: lines ∧ IsIdentifier param ∧ InScope g.externs [param] lines

/-- No symbol is defined twice, and every one that is declared is defined. -/
def Generated.Links (g : Generated) : Prop :=
  ((objects g.ldRuns).map fun run => ldSymbol run.input).Nodup ∧
    ∀ symbol ∈ g.externs, ∃ run ∈ objects g.ldRuns,
      symbol = startSymbol (ldSymbol run.input) ∨ symbol = endSymbol (ldSymbol run.input)

end ShompOS
