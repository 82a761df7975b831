import ShompOS.FakeLibc.String
import ShompOS.Process.Table

/-! The ELF loader (`elf.c`), function by function.

A file is the address of its bytes. The headers are read where they lie, and a
program header once for each of the two loops. `init_elf` answers with a PID and
with `ELF_ERROR`, which is a PID too; `ElfOutcome` tells the two apart and keeps
the two local variables that say where the program is. A count of bytes to clear
that wraps would have `memset` write over the whole address space, the kernel
included: a loader that comes to one is `none`. -/
namespace ShompOS
open Memory

structure Elf32Ehdr where
  eIdent : Nat → Nat
  eType : Nat
  eMachine : Nat
  eEntry : Nat
  ePhoff : Nat
  ePhentsize : Nat
  ePhnum : Nat

structure Elf32Phdr where
  pType : Nat
  pOffset : Nat
  pVaddr : Nat
  pFilesz : Nat
  pMemsz : Nat
  deriving DecidableEq

namespace Memory

def ehdr (m : Memory) (a : Nat) : Elf32Ehdr where
  eIdent i := m.load8 (wrap (a + i))
  eType := m.load16 (wrap (a + 16))
  eMachine := m.load16 (wrap (a + 18))
  eEntry := m.load32 (wrap (a + 24))
  ePhoff := m.load32 (wrap (a + 28))
  ePhentsize := m.load16 (wrap (a + 42))
  ePhnum := m.load16 (wrap (a + 44))

def phdr (m : Memory) (a : Nat) : Elf32Phdr where
  pType := m.load32 a
  pOffset := m.load32 (wrap (a + 4))
  pVaddr := m.load32 (wrap (a + 8))
  pFilesz := m.load32 (wrap (a + 16))
  pMemsz := m.load32 (wrap (a + 20))

end Memory

namespace Elf

abbrev elfclass32 : Nat := 1
abbrev eTypeExec : Nat := 2
abbrev eMachineNone : Nat := 0
abbrev eMachine386 : Nat := 3
abbrev eLittleEndian : Nat := 1
abbrev programTypeLoad : Nat := 1

abbrev elfError : Nat := 1
abbrev notElfFile : Nat := 2
abbrev elfUnreadable : Nat := 3

abbrev stackSizeDefault : Nat := 1000

end Elf

open Elf

/-- What is to be loaded. -/
def Elf32Phdr.Load (header : Elf32Phdr) : Prop := header.pType = programTypeLoad

instance (header : Elf32Phdr) : Decidable header.Load := inferInstanceAs (Decidable (_ = _))

/-- What both loops pass over. -/
def Elf32Phdr.Skipped (header : Elf32Phdr) : Prop := header.pType ≠ programTypeLoad ∧ header.pMemsz > 0

instance (header : Elf32Phdr) : Decidable header.Skipped := inferInstanceAs (Decidable (_ ∧ _))

namespace Elf

/-- `is_readable` -/
def isReadable (m : Memory) (data : Nat) : Nat :=
  let elfHeader := m.ehdr data
  if elfHeader.eIdent 0 ≠ 0x7F ∨ elfHeader.eIdent 1 ≠ 0x45 ∨ elfHeader.eIdent 2 ≠ 0x4C ∨
      elfHeader.eIdent 3 ≠ 0x46 then notElfFile
  else if elfHeader.eIdent 4 ≠ elfclass32 then elfUnreadable
  else if elfHeader.eIdent 5 ≠ eLittleEndian then elfUnreadable
  else if elfHeader.eType ≠ eTypeExec then elfUnreadable
  else if elfHeader.eMachine ≠ eMachine386 ∧ elfHeader.eMachine ≠ eMachineNone then elfUnreadable
  else 0

/-- Where `&pHeaders[i]` points. -/
def pHeader (m : Memory) (data i : Nat) : Nat := wrap (data + (m.ehdr data).ePhoff + 32 * i)

/-- The program header table. -/
def pHeaders (m : Memory) (data : Nat) : List Elf32Phdr :=
  (List.range (m.ehdr data).ePhnum).map fun i => m.phdr (pHeader m data i)

/-- One round of the first loop, on `size` and `min_vaddr`. -/
def spanRound (st : Nat × Nat) (header : Elf32Phdr) : Nat × Nat :=
  let (size, minVaddr) := st
  if header.Skipped then (size, minVaddr)
  else
    let (size, minVaddr) :=
      if header.pVaddr < minVaddr then
        (if size > 0 then wrap (size + (minVaddr - header.pVaddr)) else header.pMemsz, header.pVaddr)
      else (size, minVaddr)
    let segmentEnd := wrap (header.pVaddr + header.pMemsz)
    if segmentEnd > wrap (minVaddr + size) then (wrap (segmentEnd + (addressSpace - minVaddr)), minVaddr)
    else (size, minVaddr)

/-- The first loop: how much space is needed, and for what from which address on. -/
def span (headers : List Elf32Phdr) : Nat × Nat := headers.foldl spanRound (0, addressSpace - 1)

/-- One round of the second loop. -/
def copyRound (data textSpace : Nat) (m : Memory) (i : Nat) : Option Memory :=
  let header := m.phdr (pHeader m data i)
  if header.Skipped then some m
  else if header.pFilesz > header.pMemsz then none
  else
    let m := memcpy header.pFilesz m textSpace (wrap (data + header.pOffset))
    some (memset (header.pMemsz - header.pFilesz) m (wrap (textSpace + header.pFilesz)) 0)

/-- The second loop. -/
def copySegments (m : Memory) (data textSpace : Nat) : Option Memory :=
  (List.range (m.ehdr data).ePhnum).foldlM (copyRound data textSpace) m

inductive ElfOutcome
  | error
  | started (pid textSpace minVaddr : Nat)

/-- What `init_elf` returns. -/
def ElfOutcome.value : ElfOutcome → Nat
  | .error => elfError
  | .started pid _ _ => pid

end Elf

/-- `init_elf` -/
def Kernel.initElf (L : Layout) (C : Code) (k : Kernel) (data : Nat) : Option (Kernel × ElfOutcome) :=
  if isReadable k.heap.mem data ≠ 0 then some (k, .error)
  else
    let (size, minVaddr) := span (pHeaders k.heap.mem data)
    (k.heap.allocate L size).bind fun (h, textSpace) =>
      if textSpace = 0 then some ({k with heap := h}, .error)
      else
        (copySegments h.mem data textSpace).bind fun m =>
          (Heap.allocate L ⟨m, h.currentBrk⟩ stackSizeDefault).bind fun (h, stackSpace) =>
            if stackSpace = 0 then
              (h.free L textSpace).map fun (h, _) => ({k with heap := h}, .error)
            else
              let entryPoint := wrap (textSpace + (h.mem.ehdr data).eEntry + (addressSpace - minVaddr))
              (({k with heap := h} : Kernel).initProcess C entryPoint stackSpace).map fun (k, pid) =>
                (k, .started pid textSpace minVaddr)

end ShompOS
