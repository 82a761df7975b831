import ShompOS.Fs.Executables
import ShompOS.Fs.Mounted
import ShompOS.Shell.Keyboard

/-! The shell's commands (`handle_command`, `kernel.c`).

The shell works on the mounted file system and remembers a directory of it. A line
stands in `cmd_buffer`, in static memory; it is cut at its first space, and what is
in front of that is compared with the names of the commands one after another. -/
namespace ShompOS
open Memory

/-- What the first loop of `handle_command` finds: the first space, if there is one
before the end. -/
def Memory.findSpace (m : Memory) : (fuel a : Nat) → Option (Option Nat)
  | 0, _ => none
  | fuel + 1, a =>
    if m.byte a = 0 then some none
    else if m.byte a = 0x20 then some (some a)
    else findSpace m fuel (wrap (a + 1))

/-- Whether `strcmp` with a literal is 0; nothing depends on where the literal is. -/
def Memory.streq (m : Memory) : (a : Nat) → (text : List UInt8) → Bool
  | a, [] => m.byte a = 0
  | a, c :: text => m.byte a = c && streq m (wrap (a + 1)) text

/-- `system_root` is the root of the mount. -/
structure Shell where
  mount : Mount
  currentDir : Nat

namespace Shell

abbrev ramfs (s : Shell) : Ramfs := s.mount.ramfs

abbrev heap (s : Shell) : Heap := s.mount.ramfs.heap

abbrev mem (s : Shell) : Memory := s.mount.ramfs.heap.mem

abbrev systemRoot (s : Shell) : Nat := s.mount.root

def withRamfs (s : Shell) (r : Ramfs) : Shell := {s with mount := s.mount.withRamfs r}

/-- Other contents of memory. -/
def withMem (s : Shell) (m : Memory) : Shell := s.withRamfs {s.ramfs with heap := ⟨m, s.heap.currentBrk⟩}

def print (s : Shell) (text : String) : Shell := s.withRamfs (s.ramfs.print text)

/-- `terminal_clear` -/
def terminalClear (s : Shell) : Shell := s.withRamfs {s.ramfs with terminal := []}

/-- What a command did to the file system. -/
def after (s : Shell) (r : Option Ramfs) : Option Shell := r.map s.withRamfs

/-- A command that needs arguments. -/
def needs (s : Shell) (args : Nat) (usage : String) (command : Option Shell) : Option Shell :=
  if args = 0 then some (s.print usage) else command

def helpText : String :=
  "Available commands:\n" ++
  "  clear        Clear the screen\n" ++
  "  ls          List directory contents\n" ++
  "  pwd         Print working directory\n" ++
  "  cat <file>  Display file contents\n" ++
  "  touch <file> Create empty file\n" ++
  "  mkdir <dir> Create directory\n" ++
  "  rm <file>   Remove file\n" ++
  "  help        Show this help message\n"

section Commands
variable (L : Layout) (R : Rodata) (initElf : Ramfs → Nat → Option Ramfs)

/-- `cd` -/
def changeDir (s : Shell) (args : Nat) : Option Shell :=
  (s.ramfs.ramfsCd L R s.systemRoot args).map fun (r, resultDir) =>
    if resultDir ≠ 0 then {s.withRamfs r with currentDir := resultDir}
    else (s.withRamfs r).print "Failed to find directory\n"

/-- The command by its name, with `NULL` or its arguments. -/
def perform (s : Shell) (cmdName args : Nat) : Option Shell :=
  let is (name : String) : Prop := s.mem.streq cmdName (ascii name)
  if is "clear" then some s.terminalClear
  else if is "ls" then s.after (s.ramfs.ramfsLs L R s.currentDir)
  else if is "pwd" then s.after (s.ramfs.ramfsPwd L s.currentDir)
  else if is "cat" then s.needs args "Usage: cat <filename>\n" (s.after (s.ramfs.ramfsCat s.currentDir args))
  else if is "touch" then s.needs args "Usage: touch <filename>\n" (s.after (s.ramfs.ramfsTouch L R s.currentDir args))
  else if is "mkdir" then s.needs args "Usage: mkdir <dirname>\n" (s.after (s.ramfs.ramfsMkdir L s.currentDir args))
  else if is "rm" then s.needs args "Usage: rm <filename>\n" (s.after (s.ramfs.ramfsRm L s.currentDir args))
  else if is "help" then some (s.print helpText)
  else if is "cd" then s.needs args "Usage: rm <filename>\n" (s.changeDir L R args)
  else if is "run" then s.needs args "Usage: rm <filename>\n" (s.after (s.ramfs.ramfsRun initElf s.currentDir args))
  else if s.mem.byte cmdName ≠ 0 then s.after (s.ramfs.report "Unknown command: " cmdName)
  else some s

/-- `handle_command` -/
def handleCommand (s : Shell) (cmd : Nat) : Option Shell :=
  (s.mem.findSpace addressSpace cmd).bind fun space =>
    match space with
    | none => s.perform L R initElf cmd 0
    | some a => (s.withMem (s.mem.store8 a 0)).perform L R initElf cmd (wrap (a + 1))

/-- A line comes into the buffer, and `handle_command` is called with it. -/
def Enters (cmdBuffer : Nat) (s : Shell) (line : List UInt8) (s' : Shell) : Prop :=
  ∃ m, (∀ x, ¬ (cmdBuffer ≤ x ∧ x < cmdBuffer + cmdMaxLen) → m.byte x = s.mem.byte x) ∧
    IsStr m cmdBuffer line ∧ line.length ≤ cmdMaxLen - 1 ∧
    (s.withMem m).handleCommand L R initElf cmdBuffer = some s'

end Commands

/-- The name in front of the first space of a line. -/
def nameOf (line : List UInt8) : List UInt8 := line.takeWhile (· ≠ 0x20)

/-- What is behind that space, if there is one. -/
def argsOf (line : List UInt8) : Option (List UInt8) :=
    if 0x20 ∈ line then some (line.dropWhile (· ≠ 0x20)).tail else none

end Shell

/-- The buffer is in static memory, apart from the literals. -/
def CmdBuffer (L : Layout) (R : Rodata) (cmdBuffer : Nat) : Prop :=
  cmdBuffer ≠ 0 ∧ ∀ i, i < Shell.cmdMaxLen → L.Static (cmdBuffer + i) ∧ ¬ R.Byte (cmdBuffer + i)

end ShompOS
