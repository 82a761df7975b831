import ShompOS.Fs.Runs
import ShompOS.Fs.Sharing
import ShompOS.Elf.Sharing

/-! The kernel as one system.

The file system, the process table and whoever else asks for memory are on one heap. An
event is a call of the file system, an `allocate` or a `free` of the kernel's, a byte that
a process writes to its stack, a program of the file system that `init_elf` loads, or one
of the process table's own. They come in any order. `held` is of the proofs only: the
blocks that are not the file system's, with the sizes they were asked for with. -/
namespace ShompOS
open Memory Elf

structure System where
  mount : Mount
  procTable : Fin maxProcess → ProcessStruct
  nullProcess : ProcessStruct
  activePid : Nat
  nextPid : Nat

inductive SystemEvent
  | call (c : FsCall)
  | allocate (requestSize : Nat)
  | free (data : Nat)
  /-- A process writes a byte of its stack. -/
  | push (x v : Nat)
  | initElf (file : Nat)
  | process (e : Kernel.Event)

namespace System

abbrev heap (s : System) : Heap := s.mount.heap

abbrev held (s : System) : List (Nat × Nat) := s.mount.held

/-- What the functions of `process.c` and `elf.c` work on. -/
def kernel (s : System) : Kernel := ⟨s.heap, s.procTable, s.nullProcess, s.activePid, s.nextPid⟩

def withHeld (s : System) (h : Heap) (held : List (Nat × Nat)) : System := {s with mount := s.mount.withHeld h held}

def withKernel (s : System) (k : Kernel) (held : List (Nat × Nat)) : System :=
  ⟨s.mount.withHeld k.heap held, k.procTable, k.nullProcess, k.activePid, k.nextPid⟩

/-- The bytes of a file of the file system. -/
def dataOf (s : System) (file : Nat) : Nat := s.heap.word file RamfsFile.data

section Events
variable (L : Layout) (R : Rodata) (C : Code)

def afterProcess (s : System) : Kernel.Event → List (Nat × Nat)
  | .initProcess _ _ | .tick _ => s.held
  | .killProcess pid => s.kernel.afterKill s.held pid
  | .exit _ => s.kernel.afterKill s.held s.activePid

/-- An event and what it returns; 0 if nothing. -/
def handle (s : System) : SystemEvent → Option (System × Int)
  | .call c => (s.mount.call L R c).map fun (m, r) => ({s with mount := m}, r)
  | .allocate n => (s.heap.allocate L n).map fun (h, p) => (s.withHeld h (lend s.held p n), p)
  | .free p => (s.heap.free L p).map fun (h, ret) => (s.withHeld h (giveBack s.held p), ret)
  | .push x v => some (s.withHeld ⟨s.heap.mem.store8 x v, s.heap.currentBrk⟩ s.held, 0)
  | .initElf file => (s.kernel.initElf L C (s.dataOf file)).map fun (k, outcome) =>
      (s.withKernel k (afterLoad s.kernel s.held (s.dataOf file) k outcome), outcome.value)
  | .process e => (s.kernel.handle L C e).map fun k => (s.withKernel k (s.afterProcess e), 0)

/-- What may happen. Nobody frees a live process's stack or gives it to another process,
processes are created while there is a slot, and a file that looks like a program is one. -/
def Permits (s : System) : SystemEvent → Prop
  | .call c => s.mount.Permits L R c
  | .allocate _ => True
  | .free p => (∃ n, (p, n) ∈ s.held) ∧ ¬ s.kernel.IsStack p
  | .push x _ => ∃ p, s.kernel.IsStack p ∧ s.kernel.InStack p x
  | .initElf file => (∃ i, ¬ s.kernel.Live i) ∧ s.heap.Linked s.mount.root file ∧
      (isReadable s.heap.mem (s.dataOf file) = 0 →
        WellFormedElf s.heap.mem (s.dataOf file) (s.heap.word file RamfsFile.size))
  | .process (.initProcess _ p) => (∃ i, ¬ s.kernel.Live i) ∧ (∃ n, (p, n) ∈ s.held ∧ 56 ≤ n) ∧ ¬ s.kernel.IsStack p
  | .process _ => True

/-- An event with what it returned. -/
def Step (s : System) (e : SystemEvent × Int) (s' : System) : Prop :=
  s.Permits L R e.1 ∧ s.handle L R C e.1 = some (s', e.2)

/-- After `ramfs_create_root`, with no process yet. -/
def Booted (s : System) : Prop := Mount.Fresh L R s.mount ∧ s.kernel.Loaded

/-- The file system is not called for files that are gone, nor to write past the end of
the address space. -/
def Careful (x : System × (SystemEvent × Int)) : Prop :=
  ∀ c, x.2.1 = .call c → Mount.Careful (x.1.mount, (c, x.2.2))

end Events

/-! ### The invariant -/

/-- The file system has its volume, and the processes their stacks. -/
structure Sound (L : Layout) (R : Rodata) (s : System) (v : Volume) : Prop where
  good : s.mount.Good L R v
  identified : s.kernel.Identified
  housed : s.kernel.Housed s.held

variable {L : Layout} {R : Rodata} {C : Code} {s s' : System} {v : Volume} {e : SystemEvent}

theorem Sound.settled (hs : s.Sound L R v) : Settled L s.held v.pool s.kernel.heap v.cells := hs.good.settled

/-- Whatever is done to the heap and the process table, the volume is as before if its
cells are. -/
theorem Sound.next (hs : s.Sound L R v) {k : Kernel} {held : List (Nat × Nat)} {P : Pool}
    (hset : Settled L held P k.heap v.cells) (hstatic : ∀ x, L.Static x → k.heap.mem.byte x = s.heap.mem.byte x)
    (hid : k.Identified) (hhoused : k.Housed held) : (s.withKernel k held).Sound L R {v with pool := P} :=
  ⟨hs.good.lent hset hstatic, hid, hhoused⟩

/-! ### Runs on a booted machine -/

section Rehearsal

instance (k : Kernel) : DecidablePred k.IsStack :=
  fun p => inferInstanceAs (Decidable (∃ i, k.Live i ∧ k.stackOf i = p))

instance (k : Kernel) (p x : Nat) : Decidable (k.InStack p x) := inferInstanceAs (Decidable (_ ∧ _))

instance (m : Memory) (data n : Nat) : Decidable (WellFormedElf m data n) :=
  decidable_of_iff (isReadable m data = 0 ∧ 52 ≤ n ∧ (m.ehdr data).ePhentsize = 32 ∧
      (m.ehdr data).ePhoff + 32 * (m.ehdr data).ePhnum ≤ n ∧ (∃ h ∈ pHeaders m data, h.Load) ∧
      (∀ h ∈ pHeaders m data, h.Load → h.pFilesz ≤ h.pMemsz ∧ 0 < h.pMemsz ∧ h.pOffset + h.pFilesz ≤ n ∧
        h.pVaddr + h.pMemsz < addressSpace) ∧
      ((pHeaders m data).Pairwise fun h g => h.Load → g.Load →
        h.pVaddr + h.pMemsz ≤ g.pVaddr ∨ g.pVaddr + g.pMemsz ≤ h.pVaddr) ∧
      ∀ h ∈ pHeaders m data, ∀ g ∈ pHeaders m data, h.Load → g.Load → h.pVaddr + h.pMemsz ≤ g.pVaddr + 32759)
    ⟨fun h => ⟨h.1, h.2.1, h.2.2.1, h.2.2.2.1, h.2.2.2.2.1, h.2.2.2.2.2.1, h.2.2.2.2.2.2.1, h.2.2.2.2.2.2.2⟩,
      fun h => ⟨h.readable, h.header, h.phentsize, h.table, h.load, h.segment, h.disjoint, h.extent⟩⟩

/-- A file of the root directory. -/
def Rooted (s : Mount) (file : Nat) : Prop :=
  ∃ i, i < s.heap.word s.root RamfsDir.fileCount ∧ s.heap.word (s.heap.word s.root RamfsDir.files) i = file

instance (s : Mount) (file : Nat) : Decidable (Rooted s file) :=
  inferInstanceAs (Decidable (∃ i, i < s.heap.word s.root RamfsDir.fileCount ∧ _))

theorem Rooted.linked {s : Mount} {file : Nat} (h : Rooted s file) : s.heap.Linked s.root file := by
  obtain ⟨i, hi, rfl⟩ := h
  exact ⟨s.root, i, .root, hi, rfl⟩

/-- The event is one of those that may happen, and the file system is called with care. -/
def allows (s : System) : SystemEvent → Bool
  | .call c => s.mount.allows .kernelImage Mount.bootRodata c ∧
      (∀ entry ∈ s.mount.through c, Rooted s.mount (s.mount.fileOf entry)) ∧ s.mount.Bounded c
  | .allocate _ => true
  | .free p => p ∈ s.held.map Prod.fst ∧ ¬ s.kernel.IsStack p
  | .push x _ => ∃ i, s.kernel.Live i ∧ s.kernel.InStack (s.kernel.stackOf i) x
  | .initElf file => (∃ i, ¬ s.kernel.Live i) ∧ Rooted s.mount file ∧
      WellFormedElf s.heap.mem (s.dataOf file) (s.heap.word file RamfsFile.size)
  | .process (.initProcess _ p) =>
    (∃ i, ¬ s.kernel.Live i) ∧ (∃ x ∈ s.held, x.1 = p ∧ 56 ≤ x.2) ∧ ¬ s.kernel.IsStack p
  | .process _ => true

theorem permits_of_allows (h : s.allows e) :
    s.Permits .kernelImage Mount.bootRodata e ∧ ∀ r, Careful (s, (e, r)) := by
  have hcareless : (∀ c, e ≠ .call c) → ∀ r, Careful (s, (e, r)) := fun he r c hc => absurd hc (he c)
  cases e with
  | call c =>
    obtain ⟨hallows, hrooted, hbounded⟩ := of_decide_eq_true h
    refine ⟨Mount.permits_of_allows hallows, fun r c' hc => ?_⟩
    cases hc
    exact ⟨fun entry hentry => (hrooted entry hentry).linked, hbounded⟩
  | allocate n => exact ⟨trivial, hcareless (fun c hc => SystemEvent.noConfusion hc)⟩
  | free p =>
    obtain ⟨hp, hstack⟩ := of_decide_eq_true h
    obtain ⟨⟨q, n⟩, hq, rfl⟩ := List.mem_map.mp hp
    exact ⟨⟨⟨n, hq⟩, hstack⟩, hcareless (fun c hc => SystemEvent.noConfusion hc)⟩
  | push x w =>
    obtain ⟨i, hi, hin⟩ := of_decide_eq_true h
    exact ⟨⟨_, ⟨i, hi, rfl⟩, hin⟩, hcareless (fun c hc => SystemEvent.noConfusion hc)⟩
  | initElf file =>
    obtain ⟨hslot, hrooted, hwf⟩ := of_decide_eq_true h
    exact ⟨⟨hslot, hrooted.linked, fun _ => hwf⟩, hcareless (fun c hc => SystemEvent.noConfusion hc)⟩
  | process e =>
    refine ⟨?_, hcareless (fun c hc => SystemEvent.noConfusion hc)⟩
    cases e with
    | initProcess entryPoint p =>
      obtain ⟨hslot, ⟨⟨q, n⟩, hq, rfl, hn⟩, hstack⟩ := of_decide_eq_true h
      exact ⟨hslot, ⟨n, hq, hn⟩, hstack⟩
    | _ => trivial

/-- The addresses of `kill_process` and `switch_process_from_queue` in an image. -/
def bootCode : Code := ⟨0x100000, 0x100010⟩

/-- The file system has been set up and no process created. -/
def booted : Option System := Mount.booted.map fun m => ⟨m, fun _ => Kernel.zeroProcess, Kernel.zeroProcess,
  addressSpace - 1, addressSpace - 1⟩

theorem booted_of_booted (h : booted = some s) : Booted .kernelImage Mount.bootRodata s := by
  obtain ⟨m, hm, rfl⟩ := Option.map_eq_some_iff.mp h
  exact ⟨Mount.fresh_of_booted hm, rfl, rfl, rfl⟩

/-- Events on the booted machine go through, to a trace and a state as `p` asks. -/
def rehearses (es : List SystemEvent) (p : List (System × (SystemEvent × Int)) → System → Bool) : Bool :=
  booted.any fun s =>
    (Run.replay (handle .kernelImage Mount.bootRodata bootCode) allows s es).any fun x => p x.1 x.2

theorem run_rehearses {es : List SystemEvent} {p : List (System × (SystemEvent × Int)) → System → Bool}
    (h : rehearses es p) : ∃ tr s, Run (Booted .kernelImage Mount.bootRodata)
      (Step .kernelImage Mount.bootRodata bootCode) tr s ∧ (∀ x ∈ tr, Careful x) ∧
      tr.map (fun x => x.2.1) = es ∧ p tr s := by
  obtain ⟨s₀, hboot, h⟩ := (Option.any_eq_true _ _).mp h
  obtain ⟨⟨tr, s⟩, hreplay, hp⟩ := (Option.any_eq_true _ _).mp h
  have hstart : Run (Booted .kernelImage Mount.bootRodata) (Step .kernelImage Mount.bootRodata bootCode) [] s₀ :=
    .start (booted_of_booted hboot)
  obtain ⟨hrun, hall, hevents⟩ := hstart.of_replay
    (fun s e s' r hallows hcall => ⟨(permits_of_allows hallows).1, hcall⟩) hreplay
  exact ⟨tr, s, hrun, fun x hx => (permits_of_allows (hall x hx)).2 x.2.2, hevents, hp⟩

end Rehearsal

end System
end ShompOS
