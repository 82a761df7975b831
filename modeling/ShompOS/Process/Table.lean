import ShompOS.Heap.Allocator
import Mathlib.Data.List.FinRange

/-! The process table (`process.c`), function by function.

A process pointer is a slot of `proc_table` or `NULL`, and what `NULL` points at
is a record of its own, outside the table: the bytes at address 0, which nothing
keeps the code from reading and writing. `context_switch` is given the stack
pointer it saves, and answers with the one it loads. -/
namespace ShompOS
open Memory

abbrev maxProcess : Nat := 0x8
abbrev maxPid : Nat := 0xB10B

/-- `process_status` -/
inductive ProcessStatus
  | stopped
  | active
  | waiting
  | spawned
  deriving DecidableEq

structure ContextStruct where
  esp : Nat
  stackTop : Nat
  stackBottom : Nat

structure ProcessStruct where
  context : ContextStruct
  pid : Nat
  status : ProcessStatus
  entryPoint : Nat
  waitTime : Nat

/-- The addresses of the two routines whose addresses `init_process` stores. -/
structure Code where
  killProcess : Nat
  switchProcessFromQueue : Nat

structure Kernel where
  heap : Heap
  procTable : Fin maxProcess → ProcessStruct
  /-- What a null process pointer points at. -/
  nullProcess : ProcessStruct
  activePid : Nat
  nextPid : Nat

namespace Kernel

/-- A static record before anything is written to it. -/
def zeroProcess : ProcessStruct := ⟨⟨0, 0, 0⟩, 0, .stopped, 0, 0⟩

/-- As the kernel is loaded: an empty table, and -1 in both PID variables. -/
structure Loaded (k : Kernel) : Prop where
  procTable : k.procTable = fun _ => zeroProcess
  activePid : k.activePid = addressSpace - 1
  nextPid : k.nextPid = addressSpace - 1

def deref (k : Kernel) : Option (Fin maxProcess) → ProcessStruct
  | some i => k.procTable i
  | none => k.nullProcess

def modify (k : Kernel) (p : Option (Fin maxProcess)) (f : ProcessStruct → ProcessStruct) : Kernel :=
  match p with
  | some i => {k with procTable := Function.update k.procTable i (f (k.procTable i))}
  | none => {k with nullProcess := f k.nullProcess}

/-- `reserve_proc_table_slot` -/
def reserveProcTableSlot (k : Kernel) : Option (Fin maxProcess) :=
  (List.finRange maxProcess).find? fun i => (k.procTable i).status = .stopped

/-- `get_process` -/
def getProcess (k : Kernel) (pid : Nat) : Option (Fin maxProcess) :=
  (List.finRange maxProcess).find? fun i =>
    (k.procTable i).pid = pid ∧ (k.procTable i).status ≠ .stopped

/-- `get_next_PID`, which calls itself while the PID it comes to is taken. -/
def getNextPid : (rounds : Nat) → Kernel → Option (Kernel × Nat)
  | 0, _ => none
  | rounds + 1, k =>
    let next := wrap (k.nextPid + 1)
    let next := if next > maxPid then 1 else next
    let k := {k with nextPid := next}
    if k.getProcess next ≠ none then getNextPid rounds k else some (k, next)

/-- One more round than there are slots. -/
def pidRounds : Nat := maxProcess + 1

/-- `kill_process` -/
def killProcess (L : Layout) (k : Kernel) (pid : Nat) : Option Kernel :=
  match k.getProcess pid with
  | none => some k
  | some i =>
    let k := k.modify (some i) fun p => {p with status := .stopped}
    (k.heap.free L (k.procTable i).context.stackBottom).map fun (h, _) => {k with heap := h}

/-- The words `init_process` lays out, from `stack_top` down. -/
def initialFrame (C : Code) (stackTop pid entryPoint : Nat) : List Nat :=
  [pid, C.switchProcessFromQueue, C.killProcess,
    entryPoint,
    wrap (stackTop + (addressSpace - 0xC)),
    0xAAAA, 0xCCCC, 0xDDDD, 0xBBBB,
    wrap (stackTop + (addressSpace - 0x10)),
    wrap (stackTop + (addressSpace - 0x10)),
    0x0E51, 0x0ED1, 0x0202]

/-- Words stored from an address down. -/
def storeDown : Memory → (top : Nat) → List Nat → Memory
  | m, _, [] => m
  | m, top, v :: rest => storeDown (m.store32 top v) (wrap (top + (addressSpace - 4))) rest

/-- `init_process` -/
def initProcess (C : Code) (k : Kernel) (entryPoint stackBottom : Nat) : Option (Kernel × Nat) :=
  (getNextPid pidRounds k).map fun (k, pid) =>
    let proc := k.reserveProcTableSlot
    let blk := wrap (stackBottom + (addressSpace - headerSize))
    let stackTop := wrap (blk + 2 ^ k.heap.mem.scale blk + (addressSpace - 4))
    let m := storeDown k.heap.mem stackTop (initialFrame C stackTop pid entryPoint)
    let k := {k with heap := {k.heap with mem := m}}
    let esp := wrap (stackTop + (addressSpace - 0x34))
    (k.modify proc fun _ => ⟨⟨esp, stackTop, stackBottom⟩, pid, .spawned, entryPoint, 0⟩, pid)

/-- `switch_process`, with the stack pointer the switch loads if there is one. -/
def switchProcess (k : Kernel) (pid esp : Nat) : Kernel × Option Nat :=
  let oldProc := k.getProcess k.activePid
  let newProc := k.getProcess pid
  if newProc ≠ oldProc then
    let k := if (k.deref oldProc).status = .active then
        k.modify oldProc fun p => {p with status := .waiting}
      else k
    let k := k.modify newProc fun p => {p with status := .active}
    let k := {k with activePid := pid}
    let k := k.modify oldProc fun p => {p with context := {p.context with esp := esp}}
    (k, some (k.deref newProc).context.esp)
  else (k, none)

/-- One round of the loop of `switch_process_from_queue`: the table and `proc`. -/
def queueRound (st : Kernel × Option (Fin maxProcess)) (i : Fin maxProcess) :
    Kernel × Option (Fin maxProcess) :=
  let (k, proc) := st
  if (k.procTable i).status ≠ .stopped ∧ (k.procTable i).pid ≠ 0 then
    let k := k.modify (some i) fun p => {p with waitTime := wrap (p.waitTime + 1)}
    if (k.procTable i).waitTime > (k.deref proc).waitTime then (k, some i) else (k, proc)
  else (k, proc)

/-- The loop of `switch_process_from_queue`: who is to run next. -/
@[irreducible]
def selectProcess (k : Kernel) : Kernel × Option (Fin maxProcess) :=
  (List.finRange maxProcess).foldl queueRound (k, k.getProcess 0)

/-- `switch_process_from_queue` -/
def switchProcessFromQueue (k : Kernel) (esp : Nat) : Kernel × Option Nat :=
  let (k, proc) := k.selectProcess
  let k := k.modify proc fun p => {p with waitTime := 0}
  if (k.deref proc).pid ≠ k.activePid then k.switchProcess (k.deref proc).pid esp else (k, none)

end Kernel
end ShompOS
