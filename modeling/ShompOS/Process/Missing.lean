import ShompOS.Process.Identity
import ShompOS.Process.Stacks

/-! When `switch_process` works on a process that is not there.

`switch_process` looks up the process it leaves and the process it goes to, and
uses both without a test. The second is always found: the scheduler selects live
processes. The first is looked up under `active_pid`, which is -1 until the first
switch and, from where a process that returns has been marked as stopped up to the
switch that follows, still names that process. So it is there at a tick that
interrupts a running process, the first tick after boot apart; at a tick in
`kill_process` or behind it, and at the call at its end, it is not, unless a process
that was created meanwhile has got the same PID. -/
namespace ShompOS
open Layout Memory

namespace Kernel

variable {k : Kernel}

/-- Where the scheduler enters `switch_process`: the kernel at that point and the PID given. -/
def switchEntry (k : Kernel) : Option (Kernel × Nat) :=
  if k.nextProcess ≠ k.queued.activePid then some (k.queued, k.nextProcess) else none

/-- Neither `old_proc` nor `new_proc` is null. -/
def FindsBoth (k : Kernel) (pid : Nat) : Prop :=
  k.getProcess k.activePid ≠ none ∧ k.getProcess pid ≠ none

theorem getProcess_ne_none_iff {pid : Nat} :
    k.getProcess pid ≠ none ↔ ∃ i, k.Live i ∧ (k.procTable i).pid = pid := by
  constructor
  · intro h
    obtain ⟨i, hi⟩ := Option.ne_none_iff_exists'.mp h
    exact ⟨i, getProcess_eq_some hi⟩
  · rintro ⟨i, hi, hpid⟩
    obtain ⟨j, hj⟩ := getProcess_ne_none hi hpid
    rw [hj]
    exact Option.some_ne_none j

theorem queued_getProcess_ne_none_iff {pid : Nat} : k.queued.getProcess pid ≠ none ↔ k.getProcess pid ≠ none := by
  rw [getProcess_ne_none_iff, getProcess_ne_none_iff]
  refine exists_congr fun i => ?_
  rw [queued_live, queued_procTable]

/-- No process has PID -1. -/
theorem Identified.ne_unset (h : k.Identified) {i : Fin maxProcess} (hi : k.Live i) :
    (k.procTable i).pid ≠ addressSpace - 1 := by
  have hle := h.bound hi
  have hlt : maxPid < addressSpace - 1 := by decide
  omega

/-- Whom the scheduler finds where it enters `switch_process`. -/
theorem entry_finds (hb : k.getProcess 0 ≠ none) {k₁ : Kernel} {pid : Nat} (hentry : k.switchEntry = some (k₁, pid)) :
    k₁.getProcess pid ≠ none ∧ (k₁.getProcess k₁.activePid ≠ none ↔ k.getProcess k.activePid ≠ none) := by
  unfold switchEntry at hentry
  split at hentry
  · obtain ⟨rfl, rfl⟩ := Prod.mk.inj (Option.some.inj hentry)
    obtain ⟨-, -, -, hfound⟩ := exists_nextProcess hb
    rw [k.queued_rest.2.1]
    exact ⟨hfound, queued_getProcess_ne_none_iff⟩
  · cases hentry

/-- As long as there has been no switch, the scheduler enters `switch_process`. -/
theorem Identified.entry_first (h : k.Identified) (hb : k.getProcess 0 ≠ none)
    (hfirst : k.activePid = addressSpace - 1) : k.switchEntry = some (k.queued, k.nextProcess) := by
  obtain ⟨i, hlive, hpid, -⟩ := exists_nextProcess hb
  refine if_pos ?_
  rw [k.queued_rest.2.1, hfirst, ← hpid]
  exact h.ne_unset hlive

end Kernel

namespace Machine
open Kernel

variable {L : Layout} {C : Code} {s s' : Machine}

/-- Where a step enters `switch_process`. -/
def switchEntry (s : Machine) : Event → Option (Kernel × Nat)
  | .tick => s.kernel.switchEntry
  | .leave => s.kernel.switchEntry
  | _ => none

/-- What the booted system does: processes are created while there is a slot, and one that
returns has been switched to and finds its own PID on its stack. -/
def Regular (s : Machine) : Event → Prop
  | .initProcess _ _ => ∃ i, ¬ s.kernel.Live i
  | .exit => s.exitPid = s.kernel.activePid ∧ s.kernel.activePid ≠ addressSpace - 1
  | _ => True

instance (s : Machine) : (e : Event) → Decidable (s.Regular e)
  | .initProcess _ _ => inferInstanceAs (Decidable (∃ i, ¬ s.kernel.Live i))
  | .exit => inferInstanceAs (Decidable (_ ∧ _))
  | .allocate _ | .free _ | .store _ _ _ | .run _ | .tick | .release | .leave => inferInstanceAs (Decidable True)

abbrev BootedRun (L : Layout) (C : Code) : List (Machine × Event) → Machine → Prop :=
  Run (Booted L) fun s e s' => s.Regular e ∧ Step L C s e s'

/-- Every switch of a run is between two processes that are there. -/
def SwitchesSound (tr : List (Machine × Event)) : Prop :=
  ∀ x ∈ tr, ∀ k pid, x.1.switchEntry x.2 = some (k, pid) → k.FindsBoth pid

/-- What runs was switched to and is live, or nothing has been yet. -/
def Attended (s : Machine) : Prop :=
  s.phase = .running ∧ s.kernel.activePid ≠ addressSpace - 1

/-- A process that has returned has left its PID to one created since. -/
def Succeeded (s : Machine) : Prop :=
  s.phase ≠ .running ∧ ∃ i, (s.kernel.procTable i).status = .spawned ∧ (s.kernel.procTable i).pid = s.kernel.activePid

/-! ### The invariant -/

structure Accounted (s : Machine) : Prop where
  identified : s.kernel.Identified
  running : s.Attended → s.kernel.getProcess s.kernel.activePid ≠ none
  backstop : s.phase ≠ .running → s.kernel.getProcess 0 ≠ none
  returned : s.phase ≠ .running → ∀ i, s.kernel.Live i → (s.kernel.procTable i).pid = s.kernel.activePid →
    (s.kernel.procTable i).status = .spawned

theorem Accounted.booted (h : Booted L s) : s.Accounted :=
  ⟨.loaded h.loaded, fun hrun => absurd h.loaded.activePid hrun.2, fun hphase => absurd h.phase hphase,
    fun hphase => absurd h.phase hphase⟩

/-- `old_proc` is found if what runs was switched to, and if its PID has gone to another. -/
theorem Accounted.found_iff (h : s.Accounted) :
    s.kernel.getProcess s.kernel.activePid ≠ none ↔ s.Attended ∨ s.Succeeded := by
  constructor
  · intro hfound
    obtain ⟨i, hi, hpid⟩ := getProcess_ne_none_iff.mp hfound
    by_cases hphase : s.phase = .running
    · exact Or.inl ⟨hphase, fun hunset => h.identified.ne_unset hi (hpid.trans hunset)⟩
    · exact Or.inr ⟨hphase, i, h.returned hphase i hi hpid, hpid⟩
  · rintro (hrun | ⟨-, i, hi, hpid⟩)
    · exact h.running hrun
    · refine getProcess_ne_none_iff.mpr ⟨i, ?_, hpid⟩
      unfold Live
      rw [hi]
      decide

/-- It says nothing of the heap, nor of the stack pointer. -/
theorem Accounted.congr (h : s.Accounted) (htable : s'.kernel.procTable = s.kernel.procTable)
    (hactive : s'.kernel.activePid = s.kernel.activePid) (hphase : s'.phase = .running ↔ s.phase = .running) :
    s'.Accounted := by
  have hfound : ∀ pid, s'.kernel.getProcess pid = s.kernel.getProcess pid := fun pid => by
    unfold getProcess
    rw [htable]
  have hlive : ∀ i, s'.kernel.Live i ↔ s.kernel.Live i := fun i => by
    unfold Live
    rw [htable]
  constructor
  · refine ⟨fun {i j} hi hj => ?_, fun {i} hi => ?_, fun {i} hi => ?_⟩
    · rw [htable]
      exact h.identified.distinct ((hlive i).mp hi) ((hlive j).mp hj)
    · rw [htable]
      exact h.identified.bound ((hlive i).mp hi)
    · rw [htable] at hi ⊢
      rw [hactive]
      exact h.identified.active hi
  · unfold Attended
    rw [hphase, hactive, hfound]
    exact h.running
  · rw [hfound, ne_eq, hphase]
    exact h.backstop
  · unfold Live
    rw [htable, hactive, ne_eq, hphase]
    exact h.returned

theorem Accounted.initProcess (h : s.Accounted) {entryPoint p : Nat} (hslot : ∃ i, ¬ s.kernel.Live i)
    (hs : s.handle L C (.initProcess entryPoint p) = some s') : s'.Accounted := by
  obtain ⟨⟨k, pid⟩, hinit, rfl⟩ := Option.map_eq_some_iff.mp hs
  obtain ⟨i, esp, stackTop, hdead, -, -, htable, hactive, -⟩ := initProcess_spec hslot hinit
  have hold : ∀ j, s.kernel.Live j → k.procTable j = s.kernel.procTable j := fun j hj => by
    have hji : j ≠ i := fun he => hdead (he ▸ hj)
    rw [htable, Function.update_of_ne hji]
  have hkeeps : ∀ {q}, s.kernel.getProcess q ≠ none → k.getProcess q ≠ none := fun hq =>
    getProcess_ne_none_of hq fun j hj hpid => by
      unfold Live
      rw [hold j hj]
      exact ⟨hj, hpid⟩
  refine ⟨h.identified.initProcess hslot hinit, fun hrun => ?_, fun hphase => hkeeps (h.backstop hphase),
    fun hphase j hj hpid => ?_⟩
  · dsimp only
    rw [hactive]
    exact hkeeps (h.running ⟨hrun.1, hactive ▸ hrun.2⟩)
  · dsimp only at hj hpid ⊢
    by_cases hji : j = i
    · rw [htable, hji, Function.update_self]
    · have he : k.procTable j = s.kernel.procTable j := by rw [htable, Function.update_of_ne hji]
      unfold Live at hj
      rw [he] at hj hpid ⊢
      exact h.returned hphase j hj (hpid.trans hactive)

/-- The process that returns is the only one that had its PID. -/
theorem Accounted.stop (h : s.Accounted) (hphase : s.phase = .running) (hb : s.kernel.getProcess 0 ≠ none)
    (hpid : s.exitPid ≠ 0) (hexit : s.exitPid = s.kernel.activePid) (hset : s.kernel.activePid ≠ addressSpace - 1) :
    s.stop.Accounted := by
  obtain ⟨i, hi⟩ := Option.ne_none_iff_exists'.mp (h.running ⟨hphase, hset⟩)
  have hstop : s.stop = {s with
      kernel := s.kernel.modify (some i) fun p => {p with status := .stopped}
      phase := .stopped i} := by
    unfold Machine.stop
    rw [hexit, hi]
  have htable := s.kernel.modify_procTable (some i) fun p => {p with status := .stopped}
  rw [hstop]
  refine ⟨h.identified.stop i, fun hrun => ?_, fun _ => ?_, fun _ j hj hj' => ?_⟩
  · cases hrun.1
  · apply getProcess_ne_none_of hb
    intro j hj hj0
    have hij : i ≠ j := fun he => hpid (by rw [hexit, ← (getProcess_eq_some hi).2, he, hj0])
    unfold Live
    dsimp only
    rw [htable, if_neg fun he => hij (Option.some.inj he)]
    exact ⟨hj, hj0⟩
  · unfold Live at hj
    dsimp only at hj hj' ⊢
    rw [htable] at hj hj' ⊢
    split at hj
    · exact absurd rfl hj
    · next hij =>
      rw [if_neg hij, modify_activePid] at hj'
      exact absurd (congrArg some (h.identified.distinct (getProcess_eq_some hi).1 hj
        ((getProcess_eq_some hi).2.trans hj'.symm))) hij

theorem Accounted.schedule (h : s.Accounted) (hb : s.kernel.getProcess 0 ≠ none) : s.schedule.Accounted := by
  rcases schedule_eq s hb with he | ⟨j, hj, hdiff, he⟩
  · have htable := s.kernel.queued_procTable
    have hactive : s.kernel.queued.activePid = s.kernel.activePid := s.kernel.queued_rest.2.1
    rw [he]
    refine ⟨h.identified.queued, fun hrun => ?_, fun hphase => ?_, fun hphase i hi hpid => ?_⟩
    · dsimp only
      rw [hactive, queued_getProcess_ne_none_iff]
      exact h.running ⟨hrun.1, hactive ▸ hrun.2⟩
    · exact queued_getProcess_ne_none_iff.mpr (h.backstop hphase)
    · dsimp only at hi hpid ⊢
      rw [htable] at hpid ⊢
      exact h.returned hphase i ((s.kernel.queued_live i).mp hi) (hpid.trans hactive)
  · rw [he]
    refine ⟨h.identified.queued.switchProcess _ _, fun _ => ?_, fun hphase => absurd rfl hphase,
      fun hphase => absurd rfl hphase⟩
    have hq := s.kernel.queued.switchProcess_sameQueue s.kernel.nextProcess s.esp
    obtain ⟨-, -, -, hfound⟩ := exists_nextProcess hb
    dsimp only
    rw [switchProcess_activePid hdiff]
    apply getProcess_ne_none_of hfound
    intro i hi hpid
    exact ⟨(hq.live i).mpr hi, (hq.pid i).trans hpid⟩

theorem Accounted.step (h : s.Accounted) {e : Event} (hregular : s.Regular e) (hs : Step L C s e s') :
    s'.Accounted := by
  obtain ⟨hpermit, hs⟩ := hs
  cases e with
  | allocate n =>
    obtain ⟨t, -, rfl⟩ := Option.map_eq_some_iff.mp hs
    exact h.congr rfl rfl Iff.rfl
  | free p =>
    obtain ⟨t, -, rfl⟩ := Option.map_eq_some_iff.mp hs
    exact h.congr rfl rfl Iff.rfl
  | initProcess entryPoint p => exact h.initProcess hregular hs
  | store p x v =>
    cases hs
    exact h.congr rfl rfl Iff.rfl
  | run esp =>
    cases hs
    exact h.congr rfl rfl Iff.rfl
  | tick =>
    cases hs
    exact h.schedule hpermit
  | exit =>
    cases hs
    exact h.stop hpermit.1 hpermit.2.1 hpermit.2.2.2.2 hregular.1 hregular.2
  | release =>
    have hs' : s.freeStack L = some s' := hs
    unfold freeStack at hs'
    split at hs'
    · next i hphase =>
      obtain ⟨t, -, rfl⟩ := Option.map_eq_some_iff.mp hs'
      exact h.congr rfl rfl (iff_of_false (by simp) (by rw [hphase]; simp))
    · cases hs'
  | leave =>
    cases hs
    exact h.schedule (h.backstop (by rw [hpermit.1]; decide))

theorem accounted_of_run {tr : List (Machine × Event)} (h : BootedRun L C tr s) : s.Accounted :=
  h.invariant (fun _ => Accounted.booted) fun _ _ _ hs hstep => hs.step hstep.1 hstep.2

/-! ### Runs -/

/-- An entry finds the process it goes to, and the one it leaves as `found_iff` says. -/
theorem Accounted.entry (h : s.Accounted) {e : Event} (hpermit : s.Permits C e) {k : Kernel} {pid : Nat}
    (hentry : s.switchEntry e = some (k, pid)) :
    k.getProcess pid ≠ none ∧ (k.getProcess k.activePid ≠ none ↔ s.Attended ∨ s.Succeeded) := by
  have hfinds : s.kernel.getProcess 0 ≠ none → s.kernel.switchEntry = some (k, pid) →
      k.getProcess pid ≠ none ∧ (k.getProcess k.activePid ≠ none ↔ s.Attended ∨ s.Succeeded) := by
    intro hb hentry
    obtain ⟨hnew, hold⟩ := entry_finds hb hentry
    exact ⟨hnew, hold.trans h.found_iff⟩
  cases e with
  | tick => exact hfinds hpermit hentry
  | leave => exact hfinds (h.backstop (by rw [hpermit.1]; decide)) hentry
  | _ => cases hentry

/-- Before the clock has ticked nothing has been switched to, and nothing can return. -/
theorem idle_of_no_tick {tr : List (Machine × Event)} (h : BootedRun L C tr s) (hno : ∀ x ∈ tr, x.2 ≠ .tick) :
    (s.phase = .running ∧ s.kernel.activePid = addressSpace - 1) ∧
      ∀ x ∈ tr, x.1.phase = .running ∧ x.1.kernel.activePid = addressSpace - 1 := by
  refine h.invariant_of (I := fun s => s.phase = .running ∧ s.kernel.activePid = addressSpace - 1)
    (C := fun _ e => e ≠ .tick) (fun s hs => ⟨hs.phase, hs.loaded.activePid⟩) (fun s e s' hs he hstep => ?_) hno
  obtain ⟨hregular, hpermit, hstep⟩ := hstep
  cases e with
  | allocate n =>
    obtain ⟨t, -, rfl⟩ := Option.map_eq_some_iff.mp hstep
    exact hs
  | free p =>
    obtain ⟨t, -, rfl⟩ := Option.map_eq_some_iff.mp hstep
    exact hs
  | initProcess entryPoint p =>
    obtain ⟨⟨k, pid⟩, hinit, rfl⟩ := Option.map_eq_some_iff.mp hstep
    obtain ⟨i, esp, stackTop, -, -, -, -, hactive, -⟩ := initProcess_spec hregular hinit
    exact ⟨hs.1, hactive.trans hs.2⟩
  | store p x v =>
    cases hstep
    exact hs
  | run esp =>
    cases hstep
    exact hs
  | tick => exact absurd rfl he
  | exit => exact absurd hs.2 hregular.2
  | release => exact absurd hs.1 hpermit.1
  | leave =>
    have hkilled := hpermit.1
    rw [hs.1] at hkilled
    cases hkilled

/-- A run switches soundly throughout exactly if the clock never ticks in it: the first tick
comes with `active_pid` still -1. Of the entries into `switch_process` exactly those find the
process that is left that interrupt one that was switched to, and those where the PID of a
process that has returned belongs to a new one; the process gone to is there in all of them.
What a process that returns does until then is `kill_process` with its own PID. -/
theorem switchesSound_iff {tr : List (Machine × Event)} (h : BootedRun L C tr s) :
    (SwitchesSound tr ↔ ∀ x ∈ tr, x.2 ≠ .tick) ∧
    (∀ x ∈ tr, ∀ k pid, x.1.switchEntry x.2 = some (k, pid) →
      k.getProcess pid ≠ none ∧ (k.getProcess k.activePid ≠ none ↔ x.1.Attended ∨ x.1.Succeeded)) ∧
    ∀ x ∈ tr, x.2 = .exit →
      (if x.1.stop.phase = .killed then some x.1.stop.kernel else (x.1.stop.freeStack L).map Machine.kernel) =
        x.1.kernel.killProcess L x.1.kernel.activePid := by
  refine ⟨⟨fun hsound => ?_, fun hno x hx k pid hentry => ?_⟩, fun x hx k pid hentry => ?_, fun x hx hexit => ?_⟩
  · induction h with
    | start => exact fun x hx => (List.not_mem_nil hx).elim
    | @next tr s e s' hrun hstep ih =>
      have hno := ih fun x hx => hsound x (List.mem_append_left _ hx)
      have haccounted := accounted_of_run hrun
      obtain ⟨-, hunset⟩ := (idle_of_no_tick hrun hno).1
      rw [List.forall_mem_append, List.forall_mem_singleton]
      refine ⟨hno, fun he => ?_⟩
      obtain rfl : e = .tick := he
      have hentry := haccounted.identified.entry_first hstep.2.1 hunset
      have hboth := hsound (s, .tick) (List.mem_append_right _ (List.mem_singleton_self _)) _ _ hentry
      obtain ⟨i, hi, hpid⟩ := getProcess_ne_none_iff.mp ((entry_finds hstep.2.1 hentry).2.mp hboth.1)
      exact haccounted.identified.ne_unset hi (hpid.trans hunset)
  · have hidle := (idle_of_no_tick h hno).2 x hx
    obtain ⟨-, s', -, hstep, -⟩ := h.visited hx
    obtain ⟨s₀, e⟩ := x
    cases e with
    | tick => exact absurd rfl (hno _ hx)
    | leave =>
      have hkilled := hstep.2.1.1
      rw [hidle.1] at hkilled
      cases hkilled
    | _ => cases hentry
  · obtain ⟨tr', s', hrun, hstep, -⟩ := h.visited hx
    exact (accounted_of_run hrun).entry hstep.2.1 hentry
  · obtain ⟨-, s', -, hstep, -⟩ := h.visited hx
    obtain ⟨s₀, e⟩ := x
    obtain rfl : e = .exit := hexit
    rw [stop_freeStack, hstep.1.1]

/-! ### Two runs -/

/-- A step of the booted system, if it is one. -/
def advance (L : Layout) (C : Code) (s : Machine) (e : Event) : Option Machine :=
  if s.Regular e ∧ s.Permits C e then s.handle L C e else none

theorem exists_bootedRun {es : List Event} (h : es.foldlM (advance kernelImage ⟨0x100000, 0x100010⟩) atBoot = some s) :
    ∃ tr, BootedRun kernelImage ⟨0x100000, 0x100010⟩ tr s := by
  have hstep : ∀ (s : Machine) e s', e ∈ es → advance kernelImage ⟨0x100000, 0x100010⟩ s e = some s' →
      s.Regular e ∧ Step kernelImage ⟨0x100000, 0x100010⟩ s e s' := by
    intro s e s' _ hs
    unfold advance at hs
    split at hs
    · next hc => exact ⟨hc.1, hc.2, hs⟩
    · cases hs
  obtain ⟨tr, hrun, -⟩ := (Run.start booted_atBoot).foldlM hstep h
  exact ⟨_, hrun⟩

/-- A process has been switched to and has returned, and `kill_process` has marked it as stopped. -/
def returned : List Event := startUp ++ [.run (heapLowerBound + 1012), .exit]

/-- The clock ticks while the process that has returned is on its way through `kill_process`. -/
theorem switchesSound_iff_returned : ∃ tr s s' k pid,
    BootedRun kernelImage ⟨0x100000, 0x100010⟩ (tr ++ [(s, .tick)]) s' ∧ s.phase ≠ .running ∧
      s.switchEntry .tick = some (k, pid) ∧ k.getProcess k.activePid = none ∧ k.getProcess pid ≠ none ∧
      ¬ SwitchesSound (tr ++ [(s, .tick)]) := by
  have hdec : (returned.foldlM (advance kernelImage ⟨0x100000, 0x100010⟩) atBoot).any fun s =>
        s.Permits ⟨0x100000, 0x100010⟩ .tick ∧ s.phase ≠ .running ∧ (s.switchEntry .tick).isSome ∧
          ∀ i, (s.kernel.procTable i).status = .spawned → (s.kernel.procTable i).pid ≠ s.kernel.activePid := by
    decide +kernel
  obtain ⟨s, hs, hdec⟩ := (Option.any_eq_true _ _).mp hdec
  obtain ⟨hpermit, hphase, hentry, hnone⟩ := of_decide_eq_true hdec
  obtain ⟨⟨k, pid⟩, hentry⟩ := Option.isSome_iff_exists.mp hentry
  obtain ⟨tr, hrun⟩ := exists_bootedRun hs
  have hstep : s.Regular .tick ∧ Step kernelImage ⟨0x100000, 0x100010⟩ s .tick s.schedule := ⟨trivial, hpermit, rfl⟩
  have hrun' := hrun.next hstep
  have hin : (s, .tick) ∈ tr ++ [(s, Event.tick)] := List.mem_append_right _ (List.mem_singleton_self _)
  obtain ⟨hiff, hentries, -⟩ := switchesSound_iff hrun'
  obtain ⟨hnew, hold⟩ := hentries _ hin k pid hentry
  refine ⟨tr, s, _, k, pid, hrun', hphase, hentry, ?_, hnew, fun hsound => hiff.mp hsound _ hin rfl⟩
  by_contra hfound
  rcases hold.mp hfound with hrunning | ⟨-, i, hi, hpid⟩
  · exact hphase hrunning.1
  · exact hnone i hi hpid

/-- The backstop is created and the clock ticks: nobody is under `active_pid`. -/
theorem first_switch_unsound : ∃ tr s s' k pid,
    BootedRun kernelImage ⟨0x100000, 0x100010⟩ (tr ++ [(s, .tick)]) s' ∧
      s.switchEntry .tick = some (k, pid) ∧ k.getProcess k.activePid = none ∧
      ¬ SwitchesSound (tr ++ [(s, .tick)]) := by
  have hdec : (([.allocate 500, .initProcess 0 (heapLowerBound + 9)] : List Event).foldlM
      (advance kernelImage ⟨0x100000, 0x100010⟩) atBoot).any fun s =>
        s.Permits ⟨0x100000, 0x100010⟩ .tick ∧ s.kernel.activePid = addressSpace - 1 := by decide +kernel
  obtain ⟨s, hs, hdec⟩ := (Option.any_eq_true _ _).mp hdec
  obtain ⟨hpermit, hunset⟩ := of_decide_eq_true hdec
  obtain ⟨tr, hrun⟩ := exists_bootedRun hs
  have haccounted := accounted_of_run hrun
  have hentry := haccounted.identified.entry_first hpermit hunset
  have hnone : s.kernel.queued.getProcess s.kernel.queued.activePid = none := by
    by_contra hfound
    obtain ⟨i, hi, hpid⟩ := getProcess_ne_none_iff.mp ((entry_finds hpermit hentry).2.mp hfound)
    exact haccounted.identified.ne_unset hi (hpid.trans hunset)
  exact ⟨tr, s, _, _, _, hrun.next ⟨trivial, hpermit, rfl⟩, hentry, hnone, fun hsound =>
    (hsound _ (List.mem_append_right _ (List.mem_singleton_self _)) _ _ hentry).1 hnone⟩

end Machine
end ShompOS
