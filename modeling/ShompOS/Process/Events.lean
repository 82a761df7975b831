import ShompOS.Run
import ShompOS.Process.Steps

/-! What happens to the process table, one event at a time.

A process is created, or killed, or the clock ticks, or the running process
returns: `init_process` has laid out its stack so that it returns into
`kill_process` with its own PID, and from there into the scheduler. -/
namespace ShompOS
namespace Kernel
open Memory

inductive Event
  | initProcess (entryPoint stackBottom : Nat)
  | killProcess (pid : Nat)
  /-- The timer interrupt; `esp` is what a switch would save. -/
  | tick (esp : Nat)
  /-- The running process returns. -/
  | exit (esp : Nat)

/-- The kernel as it is loaded, on memory that is all zero. -/
def atLoad : Kernel :=
  ⟨⟨Memory.zero, heapLowerBound⟩, fun _ => zeroProcess, zeroProcess, addressSpace - 1, addressSpace - 1⟩

theorem loaded_atLoad : Loaded atLoad := ⟨rfl, rfl, rfl⟩

variable (L : Layout) (C : Code)

def handle (k : Kernel) : Event → Option Kernel
  | .initProcess entryPoint stackBottom => (k.initProcess C entryPoint stackBottom).map Prod.fst
  | .killProcess pid => k.killProcess L pid
  | .tick esp => some (k.switchProcessFromQueue esp).1
  | .exit esp => (k.killProcess L k.activePid).map fun k => (k.switchProcessFromQueue esp).1

/-- The kernel in which an event has the scheduler choose: a process that returns is killed
before it does. -/
def scheduled (k : Kernel) : Event → Option Kernel
  | .tick _ => some k
  | .exit _ => k.killProcess L k.activePid
  | _ => none

/-- An event that enters the scheduler. -/
def Event.isScheduler : Event → Bool
  | .tick _ => true
  | .exit _ => true
  | _ => false

/-- The backstop has been created, and nothing else has happened. -/
def Started (k : Kernel) : Prop :=
  ∃ k₀ entryPoint stackBottom pid, Loaded k₀ ∧ k₀.initProcess C entryPoint stackBottom = some (k, pid)

variable {L C} {k k' : Kernel}

theorem Loaded.getProcess {k₀ : Kernel} (h : Loaded k₀) (pid : Nat) : k₀.getProcess pid = none := by
  cases hg : k₀.getProcess pid with
  | none => rfl
  | some j =>
    have hlive := (getProcess_eq_some hg).1
    unfold Live at hlive
    rw [h.procTable] at hlive
    exact absurd rfl hlive

/-- The PID after -1 is 0. -/
theorem Loaded.getNextPid {k₀ : Kernel} (h : Loaded k₀) :
    Kernel.getNextPid pidRounds k₀ = some ({k₀ with nextPid := 0}, 0) := by
  have hafter : wrap (k₀.nextPid + 1) = 0 := by
    rw [h.nextPid]
    decide
  have hle : ¬ 0 > maxPid := by omega
  unfold pidRounds Kernel.getNextPid
  simp only [hafter, if_neg hle]
  exact if_neg (not_not.mpr (h.getProcess 0))

/-- The first process gets PID 0. -/
theorem started_table (h : Started C k) : ∃ i p, k.procTable = Function.update (fun _ => zeroProcess) i p ∧
    p.pid = 0 ∧ p.status = .spawned ∧ p.waitTime = 0 ∧ k.activePid = addressSpace - 1 ∧ k.nextPid = 0 := by
  obtain ⟨k₀, entryPoint, stackBottom, pid, hl, hinit⟩ := h
  have hdead : ¬ k₀.Live 0 := by
    unfold Live
    rw [hl.procTable]
    exact not_not.mpr rfl
  have hpid : pid = 0 := by
    unfold initProcess at hinit
    rw [hl.getNextPid] at hinit
    exact (Prod.mk.inj (Option.some.inj hinit)).2.symm
  obtain ⟨i, esp, stackTop, -, -, -, htable, hactive, hnext⟩ := initProcess_spec ⟨0, hdead⟩ hinit
  rw [hl.procTable] at htable
  exact ⟨i, _, htable, hpid, rfl, rfl, hactive.trans hl.activePid, hnext.trans hpid⟩

/-! ### Reading an event back -/

theorem handle_initProcess {entryPoint stackBottom : Nat}
    (h : k.handle L C (.initProcess entryPoint stackBottom) = some k') :
    ∃ pid, k.initProcess C entryPoint stackBottom = some (k', pid) := by
  simp only [handle, Option.map_eq_some_iff] at h
  obtain ⟨⟨k₁, pid⟩, h, he⟩ := h
  have he' : k₁ = k' := he
  exact ⟨pid, he' ▸ h⟩

theorem handle_exit {esp : Nat} (h : k.handle L C (.exit esp) = some k') :
    ∃ k₁, k.killProcess L k.activePid = some k₁ ∧ (k₁.switchProcessFromQueue esp).1 = k' := by
  simpa only [handle, Option.map_eq_some_iff] using h

end Kernel
end ShompOS
