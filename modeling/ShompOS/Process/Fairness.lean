import ShompOS.Waiting
import ShompOS.Process.Events

/-! The scheduler serves the process that has waited longest, and the backstop
only when there is no other.

In runs that create the backstop first and never kill it, its wait stays 0 and
every other live process has waited a tick or more when the scheduler looks, so
the loop never stays with the backstop while there is another. What it selects
has waited longest, which makes the waits `Staggered`: with at most seven
processes besides the backstop, at most `7 - j` have waited `j` ticks. -/
namespace ShompOS
namespace Kernel
open Memory Layout

variable {L : Layout} {C : Code} {k k' : Kernel}

structure Fair (k : Kernel) : Prop where
  backstop : ∃ b, k.Live b ∧ (k.procTable b).pid = 0 ∧ (k.procTable b).waitTime = 0 ∧
    ∀ i, k.Live i → (k.procTable i).pid = 0 → i = b
  staggered : Staggered (maxProcess - 1) (Finset.univ.filter k.Counted) fun i => (k.procTable i).waitTime
  nextPid : k.nextPid ≤ maxPid

theorem mem_counted {i : Fin maxProcess} : i ∈ Finset.univ.filter k.Counted ↔ k.Counted i := by
  simp

/-- The backstop's slot is not among those that wait. -/
theorem Fair.card_le (h : k.Fair) : (Finset.univ.filter k.Counted).card ≤ maxProcess - 1 := by
  obtain ⟨b, -, hpid, -⟩ := h.backstop
  have hsub : Finset.univ.filter k.Counted ⊆ Finset.univ.erase b := by
    intro i hi
    refine Finset.mem_erase.mpr ⟨?_, Finset.mem_univ i⟩
    rintro rfl
    exact (mem_counted.mp hi).2 hpid
  have hcard := Finset.card_le_card hsub
  rwa [Finset.card_erase_of_mem (Finset.mem_univ b), Finset.card_univ, Fintype.card_fin] at hcard

theorem Fair.waitTime_le (h : k.Fair) {i : Fin maxProcess} (hi : k.Counted i) :
    (k.procTable i).waitTime ≤ maxProcess - 2 := by
  by_cases h0 : (k.procTable i).waitTime = 0
  · rw [h0]
    exact Nat.zero_le _
  · have := h.staggered.lt (mem_counted.mpr hi) h0
    omega

/-- A tick counts: the wait does not wrap. -/
theorem Fair.tickWait_eq (h : k.Fair) {i : Fin maxProcess} (hi : k.Counted i) :
    k.tickWait i = (k.procTable i).waitTime + 1 := by
  have hle := h.waitTime_le hi
  have hlt : maxProcess - 2 + 1 < addressSpace := by decide
  exact wrap_eq (by omega)

theorem Fair.getProcess_zero (h : k.Fair) :
    ∃ b, k.getProcess 0 = some b ∧ k.Live b ∧ (k.procTable b).pid = 0 ∧
      (k.procTable b).waitTime = 0 ∧ ∀ i, k.Live i → (k.procTable i).pid = 0 → i = b := by
  obtain ⟨b, hlive, hpid, hwait, huniq⟩ := h.backstop
  obtain ⟨j, hj⟩ := getProcess_ne_none hlive hpid
  have hjb : j = b := huniq j (getProcess_eq_some hj).1 (getProcess_eq_some hj).2
  exact ⟨b, hjb ▸ hj, hlive, hpid, hwait, huniq⟩

/-- Where there is a process besides the backstop, one that has waited longest is selected. -/
theorem Fair.selectProcess (h : k.Fair) {j : Fin maxProcess} (hj : k.Counted j) :
    ∃ i, k.selectProcess.2 = some i ∧ k.Counted i ∧
      ∀ m, k.Counted m → (k.procTable m).waitTime ≤ (k.procTable i).waitTime := by
  obtain ⟨b, hb, -, -, hwait, -⟩ := h.getProcess_zero
  rcases k.selectProcess_selected.proc with ⟨-, hle⟩ | ⟨i, -, hsel, hi, -, hle⟩
  · have h1 := hle j (List.mem_finRange j) hj
    rw [hb, h.tickWait_eq hj] at h1
    have h2 : (k.procTable j).waitTime + 1 ≤ (k.procTable b).waitTime := h1
    omega
  · refine ⟨i, hsel, hi, fun m hm => ?_⟩
    have := hle m (List.mem_finRange m) hm
    rw [h.tickWait_eq hi, h.tickWait_eq hm] at this
    omega

/-! ### What a tick does -/

/-- The scheduler goes on with the process in slot `i`: it is active and waits from 0 again, and
the others have waited one tick more. -/
structure Serves (k k' : Kernel) (i : Fin maxProcess) : Prop where
  chosen : k.Live i
  active : k'.activePid = (k.procTable i).pid
  served : (k'.procTable i).waitTime = 0
  others : ∀ j, j ≠ i → k.Live j → (k.procTable j).pid ≠ 0 →
    (k'.procTable j).waitTime = (k.procTable j).waitTime + 1
  same : ∀ j, (k'.Live j ↔ k.Live j) ∧ (k'.procTable j).pid = (k.procTable j).pid

theorem Fair.serves (h : k.Fair) (esp : Nat) : ∃ i, Serves k (k.switchProcessFromQueue esp).1 i ∧
    ((∃ j, k.Live j ∧ (k.procTable j).pid ≠ 0) → (k.procTable i).pid ≠ 0) := by
  have hserves : ∀ i, k.selectProcess.2 = some i → k.Live i → Serves k (k.switchProcessFromQueue esp).1 i := by
    intro i hsel hlive
    have hq := k.switchProcessFromQueue_queue esp
    refine ⟨hlive, switchProcessFromQueue_activePid esp hsel hlive, ?_, fun j hji hj hpid => ?_, fun j =>
      ⟨(hq j).2.2.1, (hq j).1⟩⟩
    · rw [(hq i).2.1, waitAfter, if_pos hsel]
    · have hsel' : k.selectProcess.2 ≠ some j := fun he => hji (Option.some.inj (he.symm.trans hsel))
      have hcounted : k.Counted j := ⟨hj, hpid⟩
      rw [(hq j).2.1, waitAfter, if_neg hsel', if_pos hcounted, h.tickWait_eq hcounted]
  by_cases hany : ∃ j, k.Counted j
  · obtain ⟨j, hj⟩ := hany
    obtain ⟨i, hsel, hi, -⟩ := h.selectProcess hj
    exact ⟨i, hserves i hsel hi.1, fun _ => hi.2⟩
  · obtain ⟨b, hb, hlive, -⟩ := h.getProcess_zero
    refine ⟨b, hserves b ?_ hlive, fun hj => absurd hj hany⟩
    rcases k.selectProcess_selected.proc with ⟨hsel, -⟩ | ⟨i, -, -, hi, -⟩
    · exact hsel.trans hb
    · exact absurd ⟨i, hi⟩ hany

/-! ### Each event keeps it -/

/-- A process besides the backstop is stopped. -/
theorem Fair.stop (h : k.Fair) {i : Fin maxProcess} (hpid : (k.procTable i).pid ≠ 0) (hp : Heap) :
    Fair {k.modify (some i) (fun p => {p with status := .stopped}) with heap := hp} := by
  have htable : ∀ j, ({k.modify (some i) (fun p => {p with status := .stopped}) with heap := hp} :
      Kernel).procTable j = if i = j then {k.procTable j with status := .stopped} else k.procTable j := by
    intro j
    have := k.modify_procTable (some i) (fun p => {p with status := .stopped}) j
    simpa only [Option.some.injEq] using this
  obtain ⟨b, hlive, hb, hwait, huniq⟩ := h.backstop
  have hib : i ≠ b := fun he => hpid (he ▸ hb)
  refine ⟨⟨b, ?_, ?_, ?_, fun j hj hj0 => ?_⟩, ?_, ?_⟩
  · unfold Live
    rw [htable, if_neg hib]
    exact hlive
  · rw [htable, if_neg hib]
    exact hb
  · rw [htable, if_neg hib]
    exact hwait
  · by_cases hij : i = j
    · unfold Live at hj
      rw [htable, if_pos hij] at hj
      exact absurd rfl hj
    · unfold Live at hj
      rw [htable, if_neg hij] at hj hj0
      exact huniq j hj hj0
  · refine h.staggered.of_subset fun j hj _ => ?_
    have hcj := mem_counted.mp hj
    unfold Counted Live at hcj
    rw [htable] at hcj ⊢
    by_cases hij : i = j
    · rw [if_pos hij] at hcj
      exact absurd rfl hcj.1
    · rw [if_neg hij] at hcj ⊢
      exact ⟨mem_counted.mpr hcj, Nat.le_refl _⟩
  · exact h.nextPid

theorem Fair.killProcess (h : k.Fair) {pid : Nat} (hpid : pid ≠ 0)
    (hkill : k.killProcess L pid = some k') : k'.Fair := by
  rcases killProcess_spec hkill with ⟨-, rfl⟩ | ⟨i, hp, ret, hg, -, rfl⟩
  · exact h
  · exact h.stop (by rw [(getProcess_eq_some hg).2]; exact hpid) hp

/-- In a run that is under way the next PID is not the backstop's. -/
theorem pidAfter_iterate_pos {n m : Nat} (hm : m ≤ maxPid) : 0 < pidAfter^[n + 1] m := by
  rw [Function.iterate_succ_apply']
  cases n with
  | zero => exact pidAfter_pos hm
  | succ n =>
    rw [Function.iterate_succ_apply']
    exact pidAfter_pos (pidAfter_le _)

theorem pidAfter_iterate_le (n m : Nat) : pidAfter^[n + 1] m ≤ maxPid := by
  rw [Function.iterate_succ_apply']
  exact pidAfter_le _

theorem Fair.initProcess (h : k.Fair) {entryPoint stackBottom pid : Nat} (hslot : ∃ i, ¬ k.Live i)
    (hinit : k.initProcess C entryPoint stackBottom = some (k', pid)) : k'.Fair := by
  obtain ⟨i, esp, stackTop, hdead, -, ⟨n, hn⟩, htable, -, hnext⟩ := initProcess_spec hslot hinit
  have hpos : 0 < pid := hn ▸ pidAfter_iterate_pos h.nextPid
  obtain ⟨b, hlive, hb, hwait, huniq⟩ := h.backstop
  have hbi : b ≠ i := fun he => hdead (he ▸ hlive)
  have hold : ∀ j, j ≠ i → k'.procTable j = k.procTable j := fun j hj => by
    rw [htable, Function.update_of_ne hj]
  have hnew : k'.procTable i = ⟨⟨esp, stackTop, stackBottom⟩, pid, .spawned, entryPoint, 0⟩ := by
    rw [htable, Function.update_self]
  refine ⟨⟨b, ?_, ?_, ?_, fun j hj hj0 => ?_⟩, ?_, ?_⟩
  · unfold Live
    rw [hold b hbi]
    exact hlive
  · rw [hold b hbi]
    exact hb
  · rw [hold b hbi]
    exact hwait
  · by_cases hji : j = i
    · rw [hji, hnew] at hj0
      have hj0' : pid = 0 := hj0
      omega
    · unfold Live at hj
      rw [hold j hji] at hj hj0
      exact huniq j hj hj0
  · refine h.staggered.of_subset fun j hj h0 => ?_
    by_cases hji : j = i
    · rw [hji, hnew] at h0
      exact absurd rfl h0
    · have hcj := mem_counted.mp hj
      unfold Counted Live at hcj
      rw [hold j hji] at hcj ⊢
      exact ⟨mem_counted.mpr hcj, Nat.le_refl _⟩
  · rw [hnext, hn]
    exact pidAfter_iterate_le n _

theorem Fair.tick (h : k.Fair) (esp : Nat) : (k.switchProcessFromQueue esp).1.Fair := by
  have hq := k.switchProcessFromQueue_queue esp
  generalize (k.switchProcessFromQueue esp).1 = k' at hq
  obtain ⟨b, hb, hlive, hpid, hwait, huniq⟩ := h.getProcess_zero
  have hnb : ¬ k.Counted b := fun hc => hc.2 hpid
  have hcounted : ∀ i, k'.Counted i ↔ k.Counted i := fun i => by
    unfold Counted
    rw [(hq i).1, (hq i).2.2.1]
  have hset : Finset.univ.filter k'.Counted = Finset.univ.filter k.Counted := by
    ext i
    rw [mem_counted, mem_counted, hcounted]
  refine ⟨⟨b, (hq b).2.2.1.mpr hlive, (hq b).1.trans hpid, ?_, fun i hi hi0 => ?_⟩, ?_, ?_⟩
  · rw [(hq b).2.1]
    unfold waitAfter
    rw [if_neg hnb, hwait]
    exact ite_self 0
  · exact huniq i ((hq i).2.2.1.mp hi) ((hq i).1.symm.trans hi0)
  · rw [hset]
    by_cases hany : ∃ j, k.Counted j
    · obtain ⟨j, hj⟩ := hany
      obtain ⟨i, hsel, hi, hmax⟩ := h.selectProcess hj
      refine h.staggered.serve h.card_le (mem_counted.mpr hi)
        (fun m hm => hmax m (mem_counted.mp hm)) ?_ fun m hm hmi => ?_
      · rw [(hq i).2.1, waitAfter, if_pos hsel]
      · have hsel' : k.selectProcess.2 ≠ some m := fun he => hmi (Option.some.inj (he.symm.trans hsel))
        rw [(hq m).2.1, waitAfter, if_neg hsel', if_pos (mem_counted.mp hm),
          h.tickWait_eq (mem_counted.mp hm)]
    · exact Staggered.of_forall_zero fun i hi => absurd ⟨i, mem_counted.mp hi⟩ hany
  · rw [(hq b).2.2.2]
    exact h.nextPid

/-! ### Runs -/

/-- The backstop is not killed, and processes are created while there is a slot. -/
def KeepsBackstop (k : Kernel) : Event → Prop
  | .initProcess _ _ => ∃ i, ¬ k.Live i
  | .killProcess pid => pid ≠ 0
  | .tick _ => True
  | .exit _ => k.activePid ≠ 0

theorem Fair.handle (h : k.Fair) {e : Event} (he : k.KeepsBackstop e) (hs : k.handle L C e = some k') :
    k'.Fair := by
  cases e with
  | initProcess entryPoint stackBottom =>
    obtain ⟨pid, hinit⟩ := handle_initProcess hs
    exact h.initProcess he hinit
  | killProcess pid => exact h.killProcess he hs
  | tick esp =>
    rw [← Option.some.inj hs]
    exact h.tick esp
  | exit esp =>
    obtain ⟨k₁, hkill, rfl⟩ := handle_exit hs
    exact (h.killProcess he hkill).tick esp

theorem Fair.started (h : Started C k) : k.Fair := by
  obtain ⟨i, p, htable, hpid, hstatus, hwait, -, hnext⟩ := started_table h
  have hlive : ∀ j, k.Live j ↔ j = i := fun j => by
    unfold Live
    rw [htable]
    by_cases hj : j = i
    · subst hj
      simp [hstatus]
    · simp [hj, zeroProcess]
  refine ⟨⟨i, (hlive i).mpr rfl, ?_, ?_, fun j hj _ => (hlive j).mp hj⟩, ?_, ?_⟩
  · rw [htable, Function.update_self, hpid]
  · rw [htable, Function.update_self, hwait]
  · refine Staggered.of_forall_zero fun j hj => ?_
    rw [(hlive j).mp (mem_counted.mp hj).1, htable, Function.update_self, hwait]
  · rw [hnext]
    exact Nat.zero_le _

theorem fair_of_run {tr : List (Kernel × Event)}
    (h : Run (Started C) (fun k e k' => k.KeepsBackstop e ∧ k.handle L C e = some k') tr k) : k.Fair :=
  h.invariant (fun _ => Fair.started) fun _ _ _ hk hs => hk.handle hs.1 hs.2

/-- What the scheduler does in a run, at the clock's ticks and when a process returns. -/
theorem Fair.handle_serves (h : k.Fair) {e : Event} (he : k.KeepsBackstop e) (hs : k.handle L C e = some k')
    {k₀ : Kernel} (hk₀ : k.scheduled L e = some k₀) : ∃ i, Serves k₀ k' i ∧
      ((∃ j, k₀.Live j ∧ (k₀.procTable j).pid ≠ 0) → (k₀.procTable i).pid ≠ 0) := by
  cases e with
  | initProcess => cases hk₀
  | killProcess => cases hk₀
  | tick esp =>
    cases hk₀
    rw [← Option.some.inj hs]
    exact h.serves esp
  | exit esp =>
    obtain ⟨k₁, hkill, rfl⟩ := handle_exit hs
    obtain rfl := Option.some.inj (hkill.symm.trans hk₀)
    exact (h.killProcess he hkill).serves esp

/-- A kill leaves the slots it does not stop as they are. -/
theorem killProcess_same {pid : Nat} (hkill : k.killProcess L pid = some k') {i : Fin maxProcess} (hi : k'.Live i) :
    k'.procTable i = k.procTable i := by
  rcases killProcess_spec hkill with ⟨-, rfl⟩ | ⟨j, hp, ret, -, -, rfl⟩
  · rfl
  · have htable := k.modify_procTable (some j) (fun p => {p with status := .stopped}) i
    by_cases hij : j = i
    · unfold Live at hi
      exact absurd (by rw [htable, if_pos (congrArg some hij)]) hi
    · exact htable.trans (if_neg fun he => hij (Option.some.inj he))

/-- While a process lives and the scheduler goes on with others, its wait grows by each tick. -/
theorem Fair.handle_waits (h : k.Fair) {e : Event} (he : k.KeepsBackstop e) (hs : k.handle L C e = some k')
    {i : Fin maxProcess} (hi : k.Live i) (hi' : k'.Live i) (hpid : (k.procTable i).pid ≠ 0)
    (hothers : e.isScheduler → k'.activePid ≠ (k.procTable i).pid) :
    (k'.procTable i).waitTime = (k.procTable i).waitTime + if e.isScheduler then 1 else 0 := by
  have hserved : ∀ {k₀ : Kernel}, k₀.procTable i = k.procTable i → k.scheduled L e = some k₀ → e.isScheduler →
      (k'.procTable i).waitTime = (k.procTable i).waitTime + if e.isScheduler then 1 else 0 := by
    intro k₀ hsame hk₀ hsched
    obtain ⟨j, hj, -⟩ := h.handle_serves he hs hk₀
    have hji : i ≠ j := by
      rintro rfl
      exact hothers hsched (hsame ▸ hj.active)
    rw [hj.others i hji ((hj.same i).1.mp hi') (by rw [hsame]; exact hpid), hsame, if_pos hsched]
  cases e with
  | initProcess entryPoint stackBottom =>
    obtain ⟨pid, hinit⟩ := handle_initProcess hs
    obtain ⟨j, esp, stackTop, hdead, -, -, htable, -⟩ := initProcess_spec he hinit
    have hij : i ≠ j := fun he => hdead (he ▸ hi)
    rw [htable, Function.update_of_ne hij]
    rfl
  | killProcess pid =>
    rw [killProcess_same hs hi']
    rfl
  | tick esp => exact hserved rfl rfl rfl
  | exit esp =>
    obtain ⟨k₁, hkill, hk'⟩ := handle_exit hs
    have hlive : k₁.Live i := by
      have hq := k₁.switchProcessFromQueue_queue esp i
      rw [hk'] at hq
      exact hq.2.2.1.mp hi'
    exact hserved (killProcess_same hkill hlive) hkill rfl

/-- The same over a part of a run. -/
theorem waits_stretch {k₀ : Kernel} {stretch : List (Kernel × Event)} (h₀ : k₀.Fair)
    (h : Run (· = k₀) (fun k e k' => k.KeepsBackstop e ∧ k.handle L C e = some k') stretch k) {i : Fin maxProcess}
    {pid : Nat} (hpid : pid ≠ 0) (hlives : ∀ x ∈ stretch, x.1.Live i ∧ (x.1.procTable i).pid = pid) (hlast : k.Live i)
    (hothers : ∀ x ∈ stretch, ∀ k', x.2.isScheduler → x.1.handle L C x.2 = some k' → k'.activePid ≠ pid) :
    k.Fair ∧ (k.procTable i).waitTime = (k₀.procTable i).waitTime + stretch.countP fun x => x.2.isScheduler := by
  induction h with
  | start hk =>
    cases hk
    exact ⟨h₀, rfl⟩
  | @next stretch k e k' hrun hstep ih =>
    have hin : (k, e) ∈ stretch ++ [(k, e)] := List.mem_append_right _ (List.mem_singleton_self _)
    obtain ⟨hlive, hpid'⟩ := hlives _ hin
    obtain ⟨hfair, hwait⟩ := ih (fun x hx => hlives x (List.mem_append_left _ hx)) hlive
      fun x hx => hothers x (List.mem_append_left _ hx)
    refine ⟨hfair.handle hstep.1 hstep.2, ?_⟩
    have hone := hfair.handle_waits hstep.1 hstep.2 hlive hlast (hpid'.symm ▸ hpid) fun hsched =>
      hpid'.symm ▸ hothers _ hin k' hsched hstep.2
    rw [hone, hwait, List.countP_append, List.countP_singleton, Nat.add_assoc]

/-- Bounded waiting: no tick goes on with the backstop while another process lives; at most
`7 - j` processes have waited `j` ticks, and a wait never wraps; and in no part of a run does
the scheduler choose seven times without choosing a process that lives all the while. -/
theorem bounded_waiting {tr : List (Kernel × Event)}
    (h : Run (Started C) (fun k e k' => k.KeepsBackstop e ∧ k.handle L C e = some k') tr k) :
    (∀ x ∈ tr, ∀ k₀ k', x.1.scheduled L x.2 = some k₀ → x.1.handle L C x.2 = some k' → ∃ i, Serves k₀ k' i ∧
      ((∃ j, k₀.Live j ∧ (k₀.procTable j).pid ≠ 0) → (k₀.procTable i).pid ≠ 0 ∧ k'.activePid ≠ 0)) ∧
    (∀ j, 1 ≤ j → (Finset.univ.filter fun i => (k.Live i ∧ (k.procTable i).pid ≠ 0) ∧
      j ≤ (k.procTable i).waitTime).card ≤ maxProcess - 1 - j) ∧
    (∀ i, k.Live i → (k.procTable i).pid ≠ 0 →
      (k.procTable i).waitTime ≤ maxProcess - 2 ∧
        wrap ((k.procTable i).waitTime + 1) = (k.procTable i).waitTime + 1) ∧
    ∀ before stretch i pid, tr = before ++ stretch → pid ≠ 0 →
      (∀ x ∈ stretch, x.1.Live i ∧ (x.1.procTable i).pid = pid) → k.Live i ∧ (k.procTable i).pid = pid →
      (∀ x ∈ stretch, ∀ k', x.2.isScheduler → x.1.handle L C x.2 = some k' → k'.activePid ≠ pid) →
        (stretch.countP fun x => x.2.isScheduler) ≤ maxProcess - 2 := by
  have hfair := fair_of_run h
  refine ⟨fun x hx k₀ k' hk₀ hs => ?_, fun j hj => ?_, fun i hlive hpid => ?_,
    fun before stretch i pid htr hpid hlives hlast hothers => ?_⟩
  · obtain ⟨tr', k₁, hrun, hstep, -⟩ := h.visited hx
    obtain ⟨i, hi, hcounted⟩ := (fair_of_run hrun).handle_serves hstep.1 hs hk₀
    exact ⟨i, hi, fun hany => ⟨hcounted hany, hi.active ▸ hcounted hany⟩⟩
  · have := hfair.staggered j hj
    rwa [Finset.filter_filter] at this
  · exact ⟨hfair.waitTime_le ⟨hlive, hpid⟩, hfair.tickWait_eq ⟨hlive, hpid⟩⟩
  · obtain ⟨mid, hbefore, hafter⟩ := (htr ▸ h).split
    obtain ⟨-, hwait⟩ := waits_stretch (fair_of_run hbefore) hafter hpid hlives hlast.1 hothers
    have hle := hfair.waitTime_le ⟨hlast.1, hlast.2.symm ▸ hpid⟩
    omega

/-- The backstop and one more process are created, and the clock ticks: the other process is
active then. -/
theorem bounded_waiting_two : ∃ (k k' : Kernel) (i : Fin maxProcess),
    (k.switchProcessFromQueue 0).1 = k' ∧ Serves k k' i ∧ (k.procTable i).pid ≠ 0 ∧ k'.activePid ≠ 0 := by
  obtain ⟨k₁, pid₁, h₁⟩ := initProcess_returns ⟨0, 0⟩ atLoad 0 0
  have hstart : Started ⟨0, 0⟩ k₁ := ⟨_, 0, 0, pid₁, loaded_atLoad, h₁⟩
  obtain ⟨k₂, pid₂, h₂⟩ := initProcess_returns ⟨0, 0⟩ k₁ 0 0
  have hslot : ∃ i, ¬ k₁.Live i := by
    by_contra hall
    have hfull : ∀ i, k₁.Live i := fun i => by
      by_contra hi
      exact hall ⟨i, hi⟩
    obtain ⟨b, -, -, -, huniq⟩ := (Fair.started hstart).backstop
    obtain ⟨i, p, htable, hpid, -⟩ := started_table hstart
    have hzero : ∀ j, (k₁.procTable j).pid = 0 := fun j => by
      rw [htable]
      by_cases hj : j = i
      · rw [hj, Function.update_self, hpid]
      · rw [Function.update_of_ne hj]
        rfl
    have h01 := (huniq 0 (hfull 0) (hzero 0)).trans (huniq 1 (hfull 1) (hzero 1)).symm
    exact absurd h01 (by decide)
  have hrun : Run (Started ⟨0, 0⟩)
      (fun k e k' => k.KeepsBackstop e ∧ k.handle kernelImage ⟨0, 0⟩ e = some k')
      [(k₁, .initProcess 0 0), (k₂, .tick 0)] (k₂.switchProcessFromQueue 0).1 :=
    ((Run.start hstart).next ⟨hslot, by simp only [Kernel.handle, h₂, Option.map_some]⟩).next ⟨trivial, rfl⟩
  obtain ⟨i, esp, stackTop, -, -, ⟨n, hn⟩, htable, -⟩ := initProcess_spec hslot h₂
  have hpos : 0 < pid₂ := hn ▸ pidAfter_iterate_pos (Fair.started hstart).nextPid
  have hnew : k₂.Live i ∧ (k₂.procTable i).pid ≠ 0 := by
    unfold Live
    rw [htable, Function.update_self]
    exact ⟨by simp, Nat.pos_iff_ne_zero.mp hpos⟩
  obtain ⟨j, hserves, hother⟩ := (bounded_waiting hrun).1 (k₂, .tick 0)
    (List.mem_cons_of_mem _ (List.mem_singleton_self _)) k₂ _ rfl rfl
  exact ⟨k₂, _, j, rfl, hserves, hother ⟨i, hnew⟩⟩

end Kernel
end ShompOS
