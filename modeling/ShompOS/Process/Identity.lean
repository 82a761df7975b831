import ShompOS.Process.Events

/-! Who is who in the process table.

Live processes have different PIDs, none above `MAX_PID`, and the active one, if
there is one, is the one `active_pid` names. PIDs wrap around and stay behind in
slots of stopped processes; what makes the first part survive is that
`get_next_PID` looks through the live ones. The last part survives a switch
because whoever was active is found under `active_pid`, being the only one of
that PID. A null `old_proc` is the record outside the table. -/
namespace ShompOS
namespace Kernel
open Memory Layout

variable {L : Layout} {C : Code} {k k' : Kernel}

structure Identified (k : Kernel) : Prop where
  distinct : ∀ {i j}, k.Live i → k.Live j → (k.procTable i).pid = (k.procTable j).pid → i = j
  bound : ∀ {i}, k.Live i → (k.procTable i).pid ≤ maxPid
  active : ∀ {i}, (k.procTable i).status = .active → (k.procTable i).pid = k.activePid

theorem live_of_active {i : Fin maxProcess} (h : (k.procTable i).status = .active) : k.Live i := by
  unfold Live
  rw [h]
  decide

theorem Identified.getProcess (h : k.Identified) {i : Fin maxProcess} (hi : k.Live i) :
    k.getProcess (k.procTable i).pid = some i := by
  obtain ⟨j, hj⟩ := getProcess_ne_none hi rfl
  rw [hj, h.distinct (getProcess_eq_some hj).1 hi (getProcess_eq_some hj).2]

theorem Identified.loaded (h : Loaded k) : k.Identified := by
  have hdead : ∀ {i}, ¬ k.Live i := fun {i} hi => by
    obtain ⟨j, hj⟩ := getProcess_ne_none hi rfl
    rw [h.getProcess] at hj
    cases hj
  exact ⟨fun hi => absurd hi hdead, fun hi => absurd hi hdead, fun hi => absurd (live_of_active hi) hdead⟩

theorem Identified.switchProcess (h : k.Identified) (pid esp : Nat) :
    (k.switchProcess pid esp).1.Identified := by
  by_cases hsame : k.getProcess pid = k.getProcess k.activePid
  · rw [switchProcess_same hsame]
    exact h
  · have hq := k.switchProcess_sameQueue pid esp
    refine ⟨fun {i j} hi hj hpid => ?_, fun {i} hi => ?_, fun {i} hi => ?_⟩
    · rw [hq.pid, hq.pid] at hpid
      exact h.distinct ((hq.live i).mp hi) ((hq.live j).mp hj) hpid
    · rw [hq.pid]
      exact h.bound ((hq.live i).mp hi)
    · rw [hq.pid, switchProcess_activePid hsame]
      rw [(switchProcess_procTable esp hsame i).2.2] at hi
      by_cases hnew : k.getProcess pid = some i
      · exact (getProcess_eq_some hnew).2
      · rw [if_neg hnew] at hi
        by_cases hold : k.getProcess k.activePid = some i ∧ (k.procTable i).status = .active
        · rw [if_pos hold] at hi
          cases hi
        · -- who is active is found under `active_pid`, and has been set to waiting
          rw [if_neg hold] at hi
          have hfound := h.getProcess (live_of_active hi)
          rw [h.active hi] at hfound
          exact absurd ⟨hfound, hi⟩ hold

theorem Identified.queued (h : k.Identified) : k.queued.Identified := by
  refine ⟨fun {i j} hi hj hpid => ?_, fun {i} hi => ?_, fun {i} hi => ?_⟩
  · rw [queued_procTable, queued_procTable] at hpid
    exact h.distinct ((k.queued_live i).mp hi) ((k.queued_live j).mp hj) hpid
  · rw [queued_procTable]
    exact h.bound ((k.queued_live i).mp hi)
  · rw [queued_procTable] at hi ⊢
    exact (h.active hi).trans k.queued_rest.2.1.symm

theorem Identified.tick (h : k.Identified) (esp : Nat) : (k.switchProcessFromQueue esp).1.Identified := by
  rw [switchProcessFromQueue_eq]
  by_cases hne : k.nextProcess ≠ k.queued.activePid
  · rw [if_pos hne]
    exact h.queued.switchProcess k.nextProcess esp
  · rw [if_neg hne]
    exact h.queued

/-- A process is marked as stopped. -/
theorem Identified.stop (h : k.Identified) (i : Fin maxProcess) :
    (k.modify (some i) fun p => {p with status := .stopped}).Identified := by
  have htable := k.modify_procTable (some i) (fun p => {p with status := .stopped})
  have hrest : ∀ {j}, Live (k.modify (some i) (fun p => {p with status := .stopped})) j →
      (k.modify (some i) (fun p => {p with status := .stopped})).procTable j = k.procTable j ∧ k.Live j :=
    fun {j} hj => by
      unfold Live at hj
      by_cases hij : i = j
      · rw [htable, if_pos (congrArg some hij)] at hj
        exact absurd rfl hj
      · have he : (k.modify (some i) (fun p => {p with status := .stopped})).procTable j =
            k.procTable j := by simp [htable, hij]
        rw [he] at hj
        exact ⟨he, hj⟩
  refine ⟨fun {a b} ha hb hpid => ?_, fun {a} ha => ?_, fun {a} ha => ?_⟩
  · rw [(hrest ha).1, (hrest hb).1] at hpid
    exact h.distinct (hrest ha).2 (hrest hb).2 hpid
  · rw [(hrest ha).1]
    exact h.bound (hrest ha).2
  · have hlive := live_of_active ha
    rw [(hrest hlive).1] at ha ⊢
    rw [modify_activePid]
    exact h.active ha

theorem Identified.withHeap (h : k.Identified) (hp : Heap) : Identified {k with heap := hp} :=
  ⟨h.distinct, h.bound, h.active⟩

theorem Identified.killProcess (h : k.Identified) {pid : Nat} (hkill : k.killProcess L pid = some k') :
    k'.Identified := by
  rcases killProcess_spec hkill with ⟨-, rfl⟩ | ⟨i, hp, ret, hg, -, rfl⟩
  · exact h
  · exact (h.stop i).withHeap hp

theorem Identified.initProcess (h : k.Identified) {entryPoint stackBottom pid : Nat}
    (hslot : ∃ i, ¬ k.Live i) (hinit : k.initProcess C entryPoint stackBottom = some (k', pid)) :
    k'.Identified := by
  obtain ⟨i, esp, stackTop, hdead, hfree, ⟨n, hn⟩, htable, hactive, -⟩ := initProcess_spec hslot hinit
  have hnew : k'.procTable i = ⟨⟨esp, stackTop, stackBottom⟩, pid, .spawned, entryPoint, 0⟩ := by
    rw [htable, Function.update_self]
  have hold : ∀ {j}, j ≠ i → k'.procTable j = k.procTable j ∧ (k'.Live j ↔ k.Live j) := fun {j} hj => by
    have he : k'.procTable j = k.procTable j := by rw [htable, Function.update_of_ne hj]
    unfold Live
    rw [he]
    exact ⟨rfl, Iff.rfl⟩
  have hfresh : ∀ {j}, j ≠ i → k'.Live j → (k'.procTable j).pid ≠ (k'.procTable i).pid := fun {j} hj hlive => by
    rw [(hold hj).1, hnew]
    exact getProcess_eq_none hfree ((hold hj).2.mp hlive)
  refine ⟨fun {a b} ha hb hpid => ?_, fun {a} ha => ?_, fun {a} ha => ?_⟩
  · by_cases hai : a = i
    · by_cases hbi : b = i
      · rw [hai, hbi]
      · exact absurd (hai ▸ hpid.symm) (hfresh hbi hb)
    · by_cases hbi : b = i
      · exact absurd (hbi ▸ hpid) (hfresh hai ha)
      · rw [(hold hai).1, (hold hbi).1] at hpid
        exact h.distinct ((hold hai).2.mp ha) ((hold hbi).2.mp hb) hpid
  · by_cases hai : a = i
    · rw [hai, hnew, hn, Function.iterate_succ_apply']
      exact pidAfter_le _
    · rw [(hold hai).1]
      exact h.bound ((hold hai).2.mp ha)
  · by_cases hai : a = i
    · rw [hai, hnew] at ha
      cases ha
    · rw [(hold hai).1] at ha ⊢
      rw [hactive]
      exact h.active ha

/-! ### Runs -/

/-- Processes are created while there is a slot; all else may happen at any time. -/
def HasSlot (k : Kernel) : Event → Prop
  | .initProcess _ _ => ∃ i, ¬ k.Live i
  | _ => True

theorem Identified.handle (h : k.Identified) {e : Event} (he : k.HasSlot e)
    (hs : k.handle L C e = some k') : k'.Identified := by
  cases e with
  | initProcess entryPoint stackBottom =>
    obtain ⟨pid, hinit⟩ := handle_initProcess hs
    exact h.initProcess he hinit
  | killProcess pid => exact h.killProcess hs
  | tick esp =>
    rw [← Option.some.inj hs]
    exact h.tick esp
  | exit esp =>
    obtain ⟨k₁, hkill, rfl⟩ := handle_exit hs
    exact (h.killProcess hkill).tick esp

theorem identified_of_run {tr : List (Kernel × Event)}
    (h : Run Loaded (fun k e k' => k.HasSlot e ∧ k.handle L C e = some k') tr k) : k.Identified :=
  h.invariant (fun _ => Identified.loaded) fun _ _ _ hk hs => hk.handle hs.1 hs.2

/-- The process table's invariant. -/
theorem process_table_invariant {tr : List (Kernel × Event)}
    (h : Run Loaded (fun k e k' => k.HasSlot e ∧ k.handle L C e = some k') tr k) :
    (∀ i j, k.Live i → k.Live j → (k.procTable i).pid = (k.procTable j).pid → i = j) ∧
    (∀ i, k.Live i → (k.procTable i).pid ≤ maxPid) ∧
    (∀ i j, (k.procTable i).status = .active → (k.procTable j).status = .active → i = j) ∧
    ∀ i, (k.procTable i).status = .active → (k.procTable i).pid = k.activePid := by
  have hid := identified_of_run h
  refine ⟨fun i j hi hj hpid => hid.distinct hi hj hpid, fun i hi => hid.bound hi, fun i j hi hj => ?_,
    fun i hi => hid.active hi⟩
  exact hid.distinct (live_of_active hi) (live_of_active hj) ((hid.active hi).trans (hid.active hj).symm)

/-- The table after a process has been created and the clock has ticked. -/
theorem process_table_invariant_tick :
    ∃ k k' : Kernel, (k.switchProcessFromQueue 0).1 = k' ∧
      ∀ i, (k'.procTable i).status = .active → (k'.procTable i).pid = k'.activePid := by
  obtain ⟨k, pid, hinit⟩ := initProcess_returns ⟨0, 0⟩ atLoad 0 0
  have hdead : ¬ atLoad.Live 0 := fun h => h rfl
  have hcreate : Run Loaded (fun k e k' => k.HasSlot e ∧ k.handle kernelImage ⟨0, 0⟩ e = some k')
      [(atLoad, .initProcess 0 0)] k :=
    (Run.start loaded_atLoad).next ⟨⟨0, hdead⟩, by simp only [Kernel.handle, hinit, Option.map_some]⟩
  have hrun : Run Loaded (fun k e k' => k.HasSlot e ∧ k.handle kernelImage ⟨0, 0⟩ e = some k')
      [(atLoad, .initProcess 0 0), (k, .tick 0)] (k.switchProcessFromQueue 0).1 :=
    hcreate.next ⟨trivial, rfl⟩
  exact ⟨k, _, rfl, (process_table_invariant hrun).2.2.2⟩

end Kernel
end ShompOS
