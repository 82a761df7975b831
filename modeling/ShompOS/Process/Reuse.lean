import ShompOS.Rotation
import ShompOS.Process.Identity
import ShompOS.Process.Pids

/-! How soon a PID comes again.

`get_next_PID` goes round the PIDs from 1 to `MAX_PID` and passes over those that live
processes have. Between two processes with the same PID the counter has made a whole
turn, in which it has passed over at most the processes that were live when the first
of the two was created, so that all other PIDs have been given to processes in between.
Whoever still holds the PID of a stopped process can tell for that long that it is stale. -/
namespace ShompOS
namespace Kernel
open Memory Rotation

variable {L : Layout} {C : Code} {k k' s : Kernel} {tr : List (Kernel × Event)} {pid : Nat}

/-- The PID of the process that an event creates. -/
def created (C : Code) (x : Kernel × Event) : Option Nat :=
  match x.2 with
  | .initProcess entryPoint stackBottom => (x.1.initProcess C entryPoint stackBottom).map Prod.snd
  | _ => none

/-- The PIDs of the processes a run has created, in order. -/
def createdPids (C : Code) (tr : List (Kernel × Event)) : List Nat := tr.filterMap (created C)

/-- A process table's step, with a slot for who is created. -/
abbrev TableStep (L : Layout) (C : Code) (k : Kernel) (e : Event) (k' : Kernel) : Prop :=
  k.HasSlot e ∧ k.handle L C e = some k'

/-! ### The cycle of PIDs -/

theorem pidAfter_turn {p i : Nat} (hp : p ≤ maxPid) (hi : i ≤ maxPid) :
    pidAfter^[i] p = if p + i ≤ maxPid then p + i else p + i - maxPid := by
  have hlt : maxPid + 1 < addressSpace := by decide
  induction i with
  | zero => simp [hp]
  | succ i ih =>
    rw [Function.iterate_succ_apply', ih (by omega)]
    unfold pidAfter
    split
    · rw [wrap_eq (by omega)]
      split <;> split <;> omega
    · rw [wrap_eq (by omega)]
      split <;> split <;> omega

/-- A turn comes to no PID twice. -/
theorem distinct_pidAfter {p : Nat} (hp : p ≤ maxPid) : Distinct pidAfter p maxPid := by
  intro i j hi hj he
  rw [pidAfter_turn hp (Nat.le_of_lt hi), pidAfter_turn hp (Nat.le_of_lt hj)] at he
  split at he <;> split at he <;> omega

/-! ### One event -/

/-- What does not create a process leaves the counter, and gives no process a PID. -/
structure Quits (k k' : Kernel) : Prop where
  nextPid : k'.nextPid = k.nextPid
  live : ∀ i, k'.Live i → k.Live i ∧ (k'.procTable i).pid = (k.procTable i).pid

theorem Quits.trans {k₁ : Kernel} (h : Quits k k₁) (h' : Quits k₁ k') : Quits k k' := by
  refine ⟨h'.nextPid.trans h.nextPid, fun i hi => ?_⟩
  obtain ⟨hlive, hpid⟩ := h'.live i hi
  exact ⟨(h.live i hlive).1, hpid.trans (h.live i hlive).2⟩

theorem quits_tick (k : Kernel) (esp : Nat) : Quits k (k.switchProcessFromQueue esp).1 := by
  refine ⟨(k.switchProcessFromQueue_queue esp 0).2.2.2, fun i hi => ?_⟩
  obtain ⟨hpid, -, hlive, -⟩ := k.switchProcessFromQueue_queue esp i
  exact ⟨hlive.mp hi, hpid⟩

theorem quits_killProcess (h : k.killProcess L pid = some k') : Quits k k' := by
  rcases killProcess_spec h with ⟨-, rfl⟩ | ⟨i, hp, ret, -, -, rfl⟩
  · exact ⟨rfl, fun i hi => ⟨hi, rfl⟩⟩
  · refine ⟨modify_nextPid _ _ _, fun j hj => ?_⟩
    have htable := k.modify_procTable (some i) (fun p => {p with status := .stopped}) j
    unfold Live at hj ⊢
    by_cases hij : some i = some j
    · rw [htable, if_pos hij] at hj
      exact absurd rfl hj
    · rw [htable, if_neg hij] at hj ⊢
      exact ⟨hj, rfl⟩

theorem quits_or_created {e : Event} (h : k.handle L C e = some k') :
    Quits k k' ∧ created C (k, e) = none ∨
      ∃ pid entryPoint stackBottom, e = .initProcess entryPoint stackBottom ∧
        k.initProcess C entryPoint stackBottom = some (k', pid) ∧ created C (k, e) = some pid := by
  cases e with
  | initProcess entryPoint stackBottom =>
    obtain ⟨pid, hinit⟩ := handle_initProcess h
    refine Or.inr ⟨pid, entryPoint, stackBottom, rfl, hinit, ?_⟩
    simp only [created, hinit, Option.map_some]
  | killProcess pid => exact Or.inl ⟨quits_killProcess h, rfl⟩
  | tick esp =>
    rw [← Option.some.inj h]
    exact Or.inl ⟨k.quits_tick esp, rfl⟩
  | exit esp =>
    obtain ⟨k₁, hkill, rfl⟩ := handle_exit h
    exact Or.inl ⟨(quits_killProcess hkill).trans (k₁.quits_tick esp), rfl⟩

/-- A live process has the PID. -/
def Taken (k : Kernel) (pid : Nat) : Prop := k.getProcess pid ≠ none

theorem Quits.taken (h : Quits k k') (hpid : k'.Taken pid) : k.Taken pid := by
  obtain ⟨i, hi⟩ := Option.ne_none_iff_exists'.mp hpid
  obtain ⟨hlive, rfl⟩ := getProcess_eq_some hi
  obtain ⟨hold, hsame⟩ := h.live i hlive
  obtain ⟨j, hj⟩ := getProcess_ne_none hold hsame.symm
  unfold Taken
  rw [hj]
  exact Option.some_ne_none j

/-- The PID created is the first behind the counter that is not taken. -/
theorem initProcess_takes {entryPoint stackBottom : Nat} (hslot : ∃ i, ¬ k.Live i)
    (h : k.initProcess C entryPoint stackBottom = some (k', pid)) :
    ∃ n, pid = pidAfter^[n + 1] k.nextPid ∧ (∀ i, i < n → k.Taken (pidAfter^[i + 1] k.nextPid)) ∧
      k'.nextPid = pid ∧ (∃ i, k'.Live i ∧ (k'.procTable i).pid = pid) ∧
      ∀ x, k'.Taken x → k.Taken x ∨ x = pid := by
  obtain ⟨i, esp, top, -, -, -, htable, -, hnext⟩ := initProcess_spec hslot h
  unfold Kernel.initProcess at h
  obtain ⟨⟨k₁, pid₁⟩, hget, heq⟩ := Option.map_eq_some_iff.mp h
  obtain rfl : pid₁ = pid := (Prod.mk.inj heq).2
  obtain ⟨n, -, hpid, hbefore, -⟩ := getNextPid_visits hget
  have hnew : k'.procTable i = ⟨⟨esp, top, stackBottom⟩, pid₁, .spawned, entryPoint, 0⟩ := by
    rw [htable, Function.update_self]
  refine ⟨n, hpid, hbefore, hnext, ⟨i, ?_, by rw [hnew]⟩, fun x hx => ?_⟩
  · unfold Live
    rw [hnew]
    exact ProcessStatus.noConfusion
  · obtain ⟨j, hj⟩ := Option.ne_none_iff_exists'.mp hx
    obtain ⟨hlive, rfl⟩ := getProcess_eq_some hj
    by_cases hji : j = i
    · rw [hji, hnew]
      exact Or.inr rfl
    · left
      unfold Live at hlive
      rw [htable, Function.update_of_ne hji] at hlive ⊢
      obtain ⟨l, hl⟩ := getProcess_ne_none hlive rfl
      unfold Taken
      rw [hl]
      exact Option.some_ne_none l

/-! ### A turn -/

/-- The PIDs of the live processes other than `p`. -/
def otherPids (k : Kernel) (p : Nat) : Finset Nat :=
  (Finset.univ.filter fun i => (k.procTable i).status ≠ .stopped ∧ (k.procTable i).pid ≠ p).image fun i =>
    (k.procTable i).pid

theorem card_otherPids (h : ∃ i, (k.procTable i).pid = pid) : (k.otherPids pid).card + 1 ≤ maxProcess := by
  obtain ⟨i, hi⟩ := h
  have himage : (k.otherPids pid).card ≤ _ := Finset.card_image_le
  have hless : (Finset.univ.filter fun i => (k.procTable i).status ≠ .stopped ∧ (k.procTable i).pid ≠ pid) ⊂
      Finset.univ := by
    refine Finset.filter_ssubset.mpr ⟨i, Finset.mem_univ i, fun h => h.2 hi⟩
  have hcard := Finset.card_lt_card hless
  rw [Finset.card_univ, Fintype.card_fin] at hcard
  omega

theorem taken_mem_otherPids {x : Nat} (h : k.Taken x) : x = pid ∨ x ∈ k.otherPids pid := by
  obtain ⟨i, hi⟩ := Option.ne_none_iff_exists'.mp h
  obtain ⟨hlive, rfl⟩ := getProcess_eq_some hi
  by_cases hx : (k.procTable i).pid = pid
  · exact Or.inl hx
  · exact Or.inr (Finset.mem_image.mpr ⟨i, Finset.mem_filter.mpr ⟨Finset.mem_univ i, hlive, hx⟩, rfl⟩)

/-- The counter has not come back to `p` since, or has handed out almost all PIDs. -/
def Onward (p : Nat) (old : Finset Nat) (taken : Nat) (k : Kernel) : Prop :=
  maxPid ≤ taken + old.card + 1 ∨
    ∃ w, w < maxPid ∧ k.nextPid = pidAfter^[w] p ∧ Turn pidAfter p old k.Taken taken w

theorem Onward.quits {p taken : Nat} {old : Finset Nat} (h : Onward p old taken k) (hq : Quits k k') :
    Onward p old taken k' := by
  rcases h with h | ⟨w, hw, hnext, hturn⟩
  · exact Or.inl h
  · exact Or.inr ⟨w, hw, hq.nextPid.trans hnext, hturn.release fun x => hq.taken⟩

/-- The counter is moved on by a creation, and if that is past the end of the turn, the turn was full. -/
theorem Onward.passes {p taken n w : Nat} {old : Finset Nat} (hp : p ≤ maxPid)
    (hturn : Turn pidAfter p old k.Taken taken w) (hw : w < maxPid)
    (hbefore : ∀ i, i < n → k.Taken (pidAfter^[w + i + 1] p)) (hlong : maxPid ≤ w + n + 1) :
    maxPid ≤ taken + old.card + 1 := by
  have hM := distinct_pidAfter hp
  have hend : w + (maxPid - 1 - w) = maxPid - 1 := by omega
  have hskips := hturn.skips hM (n := maxPid - 1 - w) (by omega) fun i hi => hbefore i (by omega)
  rw [hend] at hskips
  have := hskips.full hM (by omega)
  omega

theorem iterate_counter {p w : Nat} (h : k.nextPid = pidAfter^[w] p) (i : Nat) :
    pidAfter^[i + 1] k.nextPid = pidAfter^[w + i + 1] p := by
  rw [h, ← Function.iterate_add_apply]
  congr 1
  omega

theorem Onward.creates {p taken n : Nat} {old : Finset Nat} (hp : p ≤ maxPid) (h : Onward p old taken k)
    (hpid : pid = pidAfter^[n + 1] k.nextPid) (hbefore : ∀ i, i < n → k.Taken (pidAfter^[i + 1] k.nextPid))
    (hnext : k'.nextPid = pid) (htaken : ∀ x, k'.Taken x → k.Taken x ∨ x = pid) :
    Onward p old (taken + 1) k' := by
  rcases h with h | ⟨w, hw, hcounter, hturn⟩
  · left
    omega
  · have hshift := iterate_counter hcounter
    have hahead : ∀ i, i < n → k.Taken (pidAfter^[w + i + 1] p) := fun i hi => hshift i ▸ hbefore i hi
    by_cases hlong : maxPid ≤ w + n + 1
    · have := Onward.passes hp hturn hw hahead hlong
      left
      omega
    · refine Or.inr ⟨w + n + 1, by omega, by rw [hnext, hpid, hshift], ?_⟩
      have hskips := hturn.skips (distinct_pidAfter hp) (n := n) (by omega) hahead
      exact hskips.take fun x hx => (hshift n ▸ hpid) ▸ htaken x hx

/-- A turn from where a PID was handed out, through whatever the run does. -/
theorem onward_of_run {p : Nat} (hp : p ≤ maxPid) (hs : s.nextPid = p)
    (h : Run (· = s) (TableStep L C) tr k) : Onward p (s.otherPids p) (createdPids C tr).length k := by
  induction h with
  | start h =>
    subst h
    exact Or.inr ⟨0, by decide, hs, Turn.start fun x => taken_mem_otherPids⟩
  | @next tr k e k' _ hstep ih =>
    unfold createdPids
    rw [List.filterMap_append, List.length_append]
    rcases quits_or_created (C := C) hstep.2 with ⟨hq, hnone⟩ | ⟨pid, entryPoint, stackBottom, rfl, hinit, hsome⟩
    · rw [List.filterMap_cons_none hnone]
      exact ih.quits hq
    · obtain ⟨n, hpid, hbefore, hnext, -, htaken⟩ := initProcess_takes hstep.1 hinit
      rw [List.filterMap_cons_some hsome]
      exact ih.creates hp hpid hbefore hnext htaken

/-- If the same PID is handed out again, there were many others in between. -/
theorem Onward.again {p taken n : Nat} {old : Finset Nat} (hp : p ≤ maxPid) (h : Onward p old taken k)
    (hpid : p = pidAfter^[n + 1] k.nextPid) (hbefore : ∀ i, i < n → k.Taken (pidAfter^[i + 1] k.nextPid)) :
    maxPid ≤ taken + old.card + 1 := by
  rcases h with h | ⟨w, hw, hcounter, hturn⟩
  · exact h
  · have hshift := iterate_counter hcounter
    refine Onward.passes hp hturn hw (fun i hi => hshift i ▸ hbefore i hi) (Nat.le_of_not_lt fun hlt => ?_)
    have := distinct_pidAfter hp 0 (w + n + 1) (by decide) hlt (hpid.trans (hshift n))
    omega

/-! ### Two processes with one PID -/

/-- Where in a run the `i`-th process is created. -/
theorem createdPids_split {i : Nat} (h : (createdPids C tr)[i]? = some pid) :
    ∃ before x after, tr = before ++ x :: after ∧ (createdPids C before).length = i ∧ created C x = some pid := by
  obtain ⟨hlt, hget⟩ := List.getElem?_eq_some_iff.mp h
  have hcut : createdPids C tr = (createdPids C tr).take i ++ pid :: (createdPids C tr).drop (i + 1) := by
    rw [← hget, ← List.drop_eq_getElem_cons hlt, List.take_append_drop]
  obtain ⟨l, rest, htr, hl, hrest⟩ := List.filterMap_eq_append_iff.mp hcut
  obtain ⟨none, x, after, hrest', hnone, hx, -⟩ := List.filterMap_eq_cons_iff.mp hrest
  refine ⟨l ++ none, x, after, ?_, ?_, hx⟩
  · rw [htr, hrest', List.append_assoc]
  · unfold createdPids
    rw [List.filterMap_append, List.filterMap_eq_nil_iff.mpr hnone, List.append_nil, hl, List.length_take]
    exact Nat.min_eq_left (Nat.le_of_lt hlt)

theorem created_eq_some {x : Kernel × Event} (h : created C x = some pid) {k' : Kernel}
    (hstep : TableStep L C x.1 x.2 k') :
    ∃ n, pid = pidAfter^[n + 1] x.1.nextPid ∧ (∀ i, i < n → x.1.Taken (pidAfter^[i + 1] x.1.nextPid)) ∧
      k'.nextPid = pid ∧ ∃ i, k'.Live i ∧ (k'.procTable i).pid = pid := by
  rcases quits_or_created (C := C) hstep.2 with ⟨-, hnone⟩ | ⟨pid', entryPoint, stackBottom, he, hinit, hsome⟩
  · rw [hnone] at h
    cases h
  · obtain rfl : pid' = pid := Option.some.inj (hsome.symm.trans h)
    have hslot : x.1.HasSlot x.2 := hstep.1
    rw [he] at hslot
    obtain ⟨n, hpid, hbefore, hnext, hlive, -⟩ := initProcess_takes hslot hinit
    exact ⟨n, hpid, hbefore, hnext, hlive⟩

theorem iterate_pidAfter_le {m : Nat} (hm : m ≤ maxPid) (n : Nat) : pidAfter^[n] m ≤ maxPid := by
  cases n with
  | zero => exact hm
  | succ n =>
    rw [Function.iterate_succ_apply']
    exact pidAfter_le _

/-- Once a PID has been given the counter is no longer at its end. -/
theorem nextPid_le_of_run (hs : s.nextPid ≤ maxPid) (h : Run (· = s) (TableStep L C) tr k) : k.nextPid ≤ maxPid := by
  refine h.invariant (fun _ h => h ▸ hs) fun k e k' hk hstep => ?_
  rcases quits_or_created (C := C) hstep.2 with ⟨hq, -⟩ | ⟨pid, entryPoint, stackBottom, rfl, hinit, -⟩
  · exact hq.nextPid.trans_le hk
  · obtain ⟨n, hpid, -, hnext, -, -⟩ := initProcess_takes hstep.1 hinit
    rw [hnext, hpid]
    exact iterate_pidAfter_le hk (n + 1)

/-- The PIDs of two processes, the second of which is not the first of all. -/
theorem pid_distance (h : Run Loaded (TableStep L C) tr k) {i j pid' : Nat} (hij : i < j)
    (hi : (createdPids C tr)[i]? = some pid) (hj : (createdPids C tr)[j]? = some pid') :
    0 < pid' ∧ (pid = pid' → maxPid - maxProcess + 1 ≤ j - i) := by
  obtain ⟨before, x, after, rfl, hbefore, hx⟩ := createdPids_split hi
  have hrest : (createdPids C after)[j - i - 1]? = some pid' := by
    have hindex : j = i + (j - i - 1 + 1) := by omega
    unfold createdPids at hj hbefore ⊢
    rw [List.filterMap_append, List.filterMap_cons_some hx, List.getElem?_append_right (by omega), hbefore,
      hindex, Nat.add_sub_cancel_left, List.getElem?_cons_succ] at hj
    exact hj
  obtain ⟨between, y, last, rfl, hbetween, hy⟩ := createdPids_split hrest
  rw [List.append_cons] at h
  obtain ⟨s, hfirst, hrun⟩ := h.split
  rw [List.append_cons] at hrun
  obtain ⟨t, hagain, -⟩ := hrun.split
  obtain ⟨-, hxstep⟩ := hfirst.last
  obtain ⟨hturn, hystep⟩ := hagain.last
  obtain ⟨m, hfrom, -, hnext, i', -, hi'⟩ := created_eq_some hx hxstep
  obtain ⟨n, hpid, htaken, -, -⟩ := created_eq_some hy hystep
  have hp : pid ≤ maxPid := by
    rw [hfrom, Function.iterate_succ_apply']
    exact pidAfter_le _
  have hle := nextPid_le_of_run (hnext.trans_le hp) hturn
  constructor
  · rw [hpid, Function.iterate_succ_apply']
    exact pidAfter_pos (iterate_pidAfter_le hle n)
  · rintro rfl
    have hlong := (onward_of_run hp hnext hturn).again hp hpid htaken
    have hfew := card_otherPids ⟨i', hi'⟩
    omega

/-- Of the processes of a run as many in a row as there are PIDs, less the other
slots of the table, have different PIDs; and the PID of the backstop is given to no
process but the first. -/
theorem created_pids_fresh (h : Run Loaded (TableStep L C) tr k) :
    (∀ i, (((createdPids C tr).drop i).take (maxPid - maxProcess + 1)).Nodup) ∧
      ∀ pid ∈ (createdPids C tr).tail, 0 < pid := by
  constructor
  · intro i
    rw [List.nodup_iff_getElem?_ne_getElem?]
    intro a b hab hb he
    rw [List.length_take, List.length_drop] at hb
    rw [List.getElem?_take_of_lt (by omega), List.getElem?_take_of_lt (by omega), List.getElem?_drop,
      List.getElem?_drop] at he
    obtain ⟨pid, hpid⟩ : ∃ pid, (createdPids C tr)[i + b]? = some pid :=
      ⟨_, List.getElem?_eq_getElem (show i + b < (createdPids C tr).length by omega)⟩
    have := (pid_distance h (show i + a < i + b by omega) (he.trans hpid) hpid).2 rfl
    omega
  · intro pid hpid
    obtain ⟨j, hj⟩ := List.mem_iff_getElem?.mp hpid
    rw [List.getElem?_tail] at hj
    obtain ⟨hlt, -⟩ := List.getElem?_eq_some_iff.mp hj
    have hpos : 0 < (createdPids C tr).length := by omega
    exact (pid_distance h (Nat.succ_pos j) (List.getElem?_eq_getElem hpos) hj).1

/-- Two processes are created. -/
theorem created_pids_fresh_two : ∃ tr k, Run Loaded (TableStep .kernelImage ⟨0, 0⟩) tr k ∧
    (createdPids ⟨0, 0⟩ tr).length = 2 ∧ ∀ pid ∈ (createdPids ⟨0, 0⟩ tr).tail, 0 < pid := by
  obtain ⟨k, pid, hinit⟩ := initProcess_returns ⟨0, 0⟩ atLoad 0 0
  have hdead : ∃ i, ¬ atLoad.Live i := ⟨0, fun h => h rfl⟩
  obtain ⟨i, esp, top, -, -, -, htable, -, -⟩ := initProcess_spec hdead hinit
  obtain ⟨j, hj⟩ := exists_ne i
  have hslot : ¬ k.Live j := by
    unfold Live
    rw [htable, Function.update_of_ne hj]
    exact not_not.mpr rfl
  obtain ⟨k', pid', hinit'⟩ := initProcess_returns ⟨0, 0⟩ k 0 0
  have hfirst : Run Loaded (TableStep .kernelImage ⟨0, 0⟩) [(atLoad, .initProcess 0 0)] k :=
    (Run.start loaded_atLoad).next ⟨hdead, by simp only [Kernel.handle, hinit, Option.map_some]⟩
  have hrun : Run Loaded (TableStep .kernelImage ⟨0, 0⟩) [(atLoad, .initProcess 0 0), (k, .initProcess 0 0)] k' :=
    hfirst.next ⟨⟨j, hslot⟩, by simp only [Kernel.handle, hinit', Option.map_some]⟩
  refine ⟨_, k', hrun, ?_, (created_pids_fresh hrun).2⟩
  simp only [createdPids, List.filterMap_cons, created, hinit, hinit', Option.map_some, List.filterMap_nil,
    List.length_cons, List.length_nil]

end Kernel
end ShompOS
