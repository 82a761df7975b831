import ShompOS.Heap.Session
import ShompOS.Process.Steps

/-! The kernel on its processor: heap, process table and stack pointer in one state.

What runs is on the boot stack, below the heap, or on a stack that a process was
created with. The pointers held are those `allocate` has returned and nobody has
freed; the keyboard's commands hold some, and the rest were given to
`init_process`. A process that returns goes through `kill_process`, statement by
statement, and from there into the scheduler, and the clock or the keyboard may
come in between. The stack pointer itself moves by `run`: pushes, calls and
returns are that and a `store`. -/
namespace ShompOS
open Layout Memory

/-- How far a process that has returned has got. -/
inductive Phase
  | running
  /-- In `kill_process`, with `proc` marked as stopped. -/
  | stopped (proc : Fin maxProcess)
  /-- At the end of `kill_process`. -/
  | killed
  deriving DecidableEq

structure Machine where
  kernel : Kernel
  /-- The pointers held, with the sizes they were asked for with. -/
  live : List (Nat × Nat)
  /-- Those of them that processes were created with. -/
  stackBottoms : List Nat
  esp : Nat
  phase : Phase

namespace Machine

inductive Event
  | allocate (requestSize : Nat)
  | free (data : Nat)
  | initProcess (entryPoint stackBottom : Nat)
  /-- A byte of the block at `data` is written. -/
  | store (data x v : Nat)
  /-- What runs moves its stack pointer. -/
  | run (esp : Nat)
  /-- The timer interrupt. -/
  | tick
  /-- The process returns into `kill_process`, which marks it as stopped. -/
  | exit
  /-- `kill_process` frees its stack. -/
  | release
  /-- `kill_process` returns into `switch_process_from_queue`. -/
  | leave
  deriving DecidableEq

variable (L : Layout) (C : Code)

def session (s : Machine) : Session := ⟨s.kernel.heap, s.live⟩

def withSession (s : Machine) (t : Session) : Machine :=
  {s with kernel := {s.kernel with heap := t.heap}, live := t.live}

/-- `x` is in the block a pointer held is to. -/
def InBlock (s : Machine) (p x : Nat) : Prop :=
  p ≤ x ∧ x < p - headerSize + 2 ^ s.kernel.heap.mem.scale (p - headerSize)

instance (s : Machine) (p x : Nat) : Decidable (s.InBlock p x) := inferInstanceAs (Decidable (_ ∧ _))

def SameStack (s : Machine) (x y : Nat) : Prop :=
  (x < heapLowerBound ∧ y < heapLowerBound) ∨ ∃ p ∈ s.stackBottoms, s.InBlock p x ∧ s.InBlock p y

instance (s : Machine) (x y : Nat) : Decidable (s.SameStack x y) := inferInstanceAs (Decidable (_ ∨ _))

/-- The PID `init_process` left as the argument of `kill_process`. -/
def exitPid (s : Machine) : Nat := s.kernel.heap.mem.load32 (wrap (s.esp + 8))

/-- The keyboard frees what it holds itself; a stack has room for what
`init_process` puts there; the timer is started once the backstop exists, and the
backstop does not return. -/
def Permits (s : Machine) : Event → Prop
  | .allocate _ => True
  | .free p => (∃ x ∈ s.live, x.1 = p) ∧ p ∉ s.stackBottoms
  | .initProcess _ p => (∃ x ∈ s.live, x.1 = p ∧ 56 ≤ x.2) ∧ p ∉ s.stackBottoms
  | .store p x _ => (∃ y ∈ s.live, y.1 = p) ∧ s.InBlock p x
  | .run esp => s.SameStack s.esp esp
  | .tick => s.kernel.getProcess 0 ≠ none
  | .exit => s.phase = .running ∧ s.kernel.getProcess 0 ≠ none ∧
      s.kernel.heap.mem.load32 s.esp = C.killProcess ∧
      s.kernel.heap.mem.load32 (wrap (s.esp + 4)) = C.switchProcessFromQueue ∧ s.exitPid ≠ 0
  | .release => s.phase ≠ .running ∧ s.phase ≠ .killed
  | .leave => s.phase = .killed ∧
      s.kernel.heap.mem.load32 (wrap (s.esp + 4)) = C.switchProcessFromQueue

instance (s : Machine) : (e : Event) → Decidable (s.Permits C e)
  | .allocate _ => inferInstanceAs (Decidable True)
  | .free _ => inferInstanceAs (Decidable (_ ∧ _))
  | .initProcess _ _ => inferInstanceAs (Decidable (_ ∧ _))
  | .store _ _ _ => inferInstanceAs (Decidable (_ ∧ _))
  | .run esp => inferInstanceAs (Decidable (s.SameStack s.esp esp))
  | .tick => inferInstanceAs (Decidable (_ ≠ _))
  | .exit => inferInstanceAs (Decidable (_ ∧ _))
  | .release => inferInstanceAs (Decidable (_ ∧ _))
  | .leave => inferInstanceAs (Decidable (_ ∧ _))

/-- `switch_process_from_queue` and the switch it ends in. -/
def schedule (s : Machine) : Machine :=
  let (k, esp) := s.kernel.switchProcessFromQueue s.esp
  match esp with
  | some esp => {s with kernel := k, esp := esp, phase := .running}
  | none => {s with kernel := k}

/-- `kill_process` up to its call of `free`. -/
def stop (s : Machine) : Machine :=
  match s.kernel.getProcess s.exitPid with
  | none => {s with phase := .killed}
  | some i =>
    {s with kernel := s.kernel.modify (some i) fun p => {p with status := .stopped}, phase := .stopped i}

/-- The rest of `kill_process`. -/
def freeStack (s : Machine) : Option Machine :=
  match s.phase with
  | .stopped i =>
    let stack := (s.kernel.procTable i).context.stackBottom
    (s.session.call L (.free stack)).map fun t =>
      {s.withSession t with stackBottoms := s.stackBottoms.filter (· ≠ stack), phase := .killed}
  | _ => none

def handle (s : Machine) : Event → Option Machine
  | .allocate n => (s.session.call L (.allocate n)).map s.withSession
  | .free p => (s.session.call L (.free p)).map s.withSession
  | .initProcess entryPoint p =>
    (s.kernel.initProcess C entryPoint p).map fun (k, _) => {s with kernel := k, stackBottoms := p :: s.stackBottoms}
  | .store _ x v =>
    some (s.withSession ⟨⟨s.kernel.heap.mem.store8 x v, s.kernel.heap.currentBrk⟩, s.live⟩)
  | .run esp => some {s with esp := esp}
  | .tick => some s.schedule
  | .exit => some s.stop
  | .release => s.freeStack L
  | .leave => some s.schedule

def Step (s : Machine) (e : Event) (s' : Machine) : Prop := s.Permits C e ∧ s.handle L C e = some s'

/-- The kernel is loaded and has set up its heap. -/
structure Booted (s : Machine) : Prop where
  loaded : s.kernel.Loaded
  heap : ∃ m, Heap.initHeap L m heapLowerBound = some s.kernel.heap
  live : s.live = []
  stackBottoms : s.stackBottoms = []
  esp : s.esp < heapLowerBound
  phase : s.phase = .running

/-- The two steps of `kill_process` are `kill_process`. -/
theorem stop_freeStack (s : Machine) :
    (if s.stop.phase = .killed then some s.stop.kernel else (s.stop.freeStack L).map Machine.kernel) =
      s.kernel.killProcess L s.exitPid := by
  unfold Kernel.killProcess stop
  cases hg : s.kernel.getProcess s.exitPid with
  | none => simp
  | some i => simp [freeStack, session, withSession, Session.call, Option.map_map, Function.comp_def]

end Machine
end ShompOS
