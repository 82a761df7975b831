import ShompOS.Process.Table
import Mathlib.Data.Fintype.Pigeonhole

/-! What each routine of `process.c` does to the process table.

One lemma for each routine says everything the later proofs use of it: what
becomes of every slot, of `active_pid` and of `next_pid`, and in which cases.
`SameQueue` is what the scheduler does not change by switching. -/
namespace ShompOS
namespace Kernel
open Memory

variable {k k' : Kernel}

/-- The process in a slot has not been stopped. -/
def Live (k : Kernel) (i : Fin maxProcess) : Prop := (k.procTable i).status ≠ .stopped

instance (k : Kernel) (i : Fin maxProcess) : Decidable (k.Live i) :=
  inferInstanceAs (Decidable (_ ≠ _))

/-! ### modify -/

@[simp] theorem modify_heap (k : Kernel) (p : Option (Fin maxProcess)) (f : ProcessStruct → ProcessStruct) :
    (k.modify p f).heap = k.heap := by
  cases p <;> rfl

@[simp] theorem modify_activePid (k : Kernel) (p : Option (Fin maxProcess))
    (f : ProcessStruct → ProcessStruct) : (k.modify p f).activePid = k.activePid := by
  cases p <;> rfl

@[simp] theorem modify_nextPid (k : Kernel) (p : Option (Fin maxProcess))
    (f : ProcessStruct → ProcessStruct) : (k.modify p f).nextPid = k.nextPid := by
  cases p <;> rfl

theorem modify_procTable (k : Kernel) (p : Option (Fin maxProcess)) (f : ProcessStruct → ProcessStruct)
    (i : Fin maxProcess) :
    (k.modify p f).procTable i = if p = some i then f (k.procTable i) else k.procTable i := by
  cases p with
  | none => rfl
  | some j =>
    by_cases h : j = i
    · subst h
      simp [modify]
    · simp [modify, h, Function.update_of_ne (Ne.symm h)]

/-! ### The two searches -/

theorem reserveProcTableSlot_eq_some {i : Fin maxProcess} (h : k.reserveProcTableSlot = some i) :
    ¬ k.Live i := by
  have := List.find?_some h
  simpa [Live] using this

theorem reserveProcTableSlot_ne_none {i : Fin maxProcess} (h : ¬ k.Live i) :
    ∃ j, k.reserveProcTableSlot = some j ∧ ¬ k.Live j := by
  cases hr : k.reserveProcTableSlot with
  | none =>
    have := List.find?_eq_none.mp hr i (List.mem_finRange i)
    simp [Live] at h this
    exact absurd h this
  | some j => exact ⟨j, rfl, reserveProcTableSlot_eq_some hr⟩

theorem getProcess_eq_some {pid : Nat} {i : Fin maxProcess} (h : k.getProcess pid = some i) :
    k.Live i ∧ (k.procTable i).pid = pid := by
  have := List.find?_some h
  simp only [decide_eq_true_eq] at this
  exact ⟨this.2, this.1⟩

theorem getProcess_eq_none {pid : Nat} (h : k.getProcess pid = none) {i : Fin maxProcess}
    (hi : k.Live i) : (k.procTable i).pid ≠ pid := by
  have := List.find?_eq_none.mp h i (List.mem_finRange i)
  simp only [decide_eq_true_eq, not_and_or] at this
  rcases this with h' | h'
  · exact h'
  · exact absurd hi h'

theorem getProcess_ne_none {pid : Nat} {i : Fin maxProcess} (hi : k.Live i)
    (hpid : (k.procTable i).pid = pid) : ∃ j, k.getProcess pid = some j := by
  cases h : k.getProcess pid with
  | none => exact absurd hpid (getProcess_eq_none h hi)
  | some j => exact ⟨j, rfl⟩

theorem getProcess_ne_none_of {pid : Nat} (h : k.getProcess pid ≠ none)
    (hkeep : ∀ i, k.Live i → (k.procTable i).pid = pid → k'.Live i ∧ (k'.procTable i).pid = pid) :
    k'.getProcess pid ≠ none := by
  obtain ⟨i, hi⟩ := Option.ne_none_iff_exists'.mp h
  obtain ⟨h1, h2⟩ := hkeep i (getProcess_eq_some hi).1 (getProcess_eq_some hi).2
  obtain ⟨j, hj⟩ := getProcess_ne_none h1 h2
  rw [hj]
  exact Option.some_ne_none j

/-! ### get_next_PID -/

/-- The PID tried after `n`. -/
def pidAfter (n : Nat) : Nat := if wrap (n + 1) > maxPid then 1 else wrap (n + 1)

theorem pidAfter_le (n : Nat) : pidAfter n ≤ maxPid := by
  unfold pidAfter
  split
  · decide
  · omega

theorem pidAfter_pos {n : Nat} (h : n ≤ maxPid) : 0 < pidAfter n := by
  have hlt : maxPid + 1 < addressSpace := by decide
  unfold pidAfter
  rw [wrap_eq (by omega)]
  split <;> omega

/-- Only `next_pid` changes, and the PID returned is the new value of it: one that
no live process has, got from the old value by steps of `pidAfter`. -/
theorem getNextPid_spec {rounds pid : Nat} (h : getNextPid rounds k = some (k', pid)) :
    k' = {k with nextPid := pid} ∧ k.getProcess pid = none ∧ ∃ n, pid = pidAfter^[n + 1] k.nextPid := by
  induction rounds generalizing k with
  | zero => cases h
  | succ rounds ih =>
    unfold getNextPid at h
    change (if k.getProcess (pidAfter k.nextPid) ≠ none then
      getNextPid rounds {k with nextPid := pidAfter k.nextPid}
      else some ({k with nextPid := pidAfter k.nextPid}, pidAfter k.nextPid)) = _ at h
    by_cases hf : k.getProcess (pidAfter k.nextPid) ≠ none
    · rw [if_pos hf] at h
      obtain ⟨h1, h2, n, hn⟩ := ih h
      exact ⟨h1, h2, n + 1, hn⟩
    · rw [if_neg hf] at h
      simp only [Option.some.injEq, Prod.mk.injEq] at h
      obtain ⟨rfl, rfl⟩ := h
      exact ⟨rfl, not_not.mp hf, 0, rfl⟩

/-- From a PID in range, less than a whole turn of steps. -/
theorem pidAfter_iterate {m i : Nat} (hm : m ≤ maxPid) (hi : i ≤ maxProcess) :
    pidAfter^[i] m = if m + i ≤ maxPid then m + i else m + i - maxPid := by
  have hlt : maxPid + 1 < addressSpace := by decide
  have hlt' : maxProcess < maxPid := by decide
  induction i with
  | zero => simp [hm]
  | succ i ih =>
    rw [Function.iterate_succ_apply', ih (by omega)]
    unfold pidAfter
    split
    · rw [wrap_eq (by omega)]
      split <;> split <;> omega
    · rw [wrap_eq (by omega)]
      split <;> split <;> omega

/-- More PIDs in a row than there are slots cannot all be taken. -/
theorem getNextPid_returns (k : Kernel) : ∃ k' pid, getNextPid pidRounds k = some (k', pid) := by
  have htaken : ∀ {rounds : Nat} {k : Kernel}, getNextPid rounds k = none →
      ∀ i, i < rounds → k.getProcess (pidAfter^[i + 1] k.nextPid) ≠ none := by
    intro rounds
    induction rounds with
    | zero =>
      intro k _ i hi
      omega
    | succ rounds ih =>
      intro k h i hi
      change (if k.getProcess (pidAfter k.nextPid) ≠ none then
        getNextPid rounds {k with nextPid := pidAfter k.nextPid}
        else some ({k with nextPid := pidAfter k.nextPid}, pidAfter k.nextPid)) = _ at h
      by_cases hf : k.getProcess (pidAfter k.nextPid) ≠ none
      · rw [if_pos hf] at h
        cases i with
        | zero => exact hf
        | succ i => exact ih h i (by omega)
      · rw [if_neg hf] at h
        cases h
  cases hr : getNextPid pidRounds k with
  | some r => exact ⟨r.1, r.2, rfl⟩
  | none =>
    exfalso
    have hslot : ∀ i : Fin (maxProcess + 1), ∃ j : Fin maxProcess,
        (k.procTable j).pid = pidAfter^[i.val + 1] k.nextPid := by
      intro i
      obtain ⟨j, hj⟩ := Option.ne_none_iff_exists'.mp (htaken hr i.val i.isLt)
      exact ⟨j, (getProcess_eq_some hj).2⟩
    choose f hf using hslot
    obtain ⟨a, b, hab, he⟩ := Fintype.exists_ne_map_eq_of_card_lt f (by simp)
    have hpid := (hf a).symm.trans ((congrArg (fun j => (k.procTable j).pid) he).trans (hf b))
    rw [Function.iterate_succ_apply, Function.iterate_succ_apply,
      pidAfter_iterate (pidAfter_le _) (Nat.le_of_lt_succ a.isLt),
      pidAfter_iterate (pidAfter_le _) (Nat.le_of_lt_succ b.isLt)] at hpid
    have hlt' : maxProcess < maxPid := by decide
    have hne : a.val ≠ b.val := fun h => hab (Fin.ext h)
    have := a.isLt
    have := b.isLt
    split at hpid <;> split at hpid <;> omega

/-! ### kill_process and init_process -/

theorem killProcess_spec {L : Layout} {pid : Nat} (h : k.killProcess L pid = some k') :
    (k.getProcess pid = none ∧ k' = k) ∨
      ∃ i hp ret, k.getProcess pid = some i ∧
        k.heap.free L (k.procTable i).context.stackBottom = some (hp, ret) ∧
        k' = {k.modify (some i) (fun p => {p with status := .stopped}) with heap := hp} := by
  unfold killProcess at h
  cases hg : k.getProcess pid with
  | none =>
    rw [hg] at h
    exact Or.inl ⟨rfl, (Option.some.inj h).symm⟩
  | some i =>
    rw [hg] at h
    simp only [modify_heap, modify_procTable, if_true, Option.map_eq_some_iff] at h
    obtain ⟨⟨hp, ret⟩, hfree, rfl⟩ := h
    exact Or.inr ⟨i, hp, ret, rfl, hfree, rfl⟩

/-- Words stored downwards lie below the first one's end. -/
theorem spares_storeDown (ws : List Nat) (m : Memory) {top : Nat} (hlo : 4 * ws.length ≤ top)
    (htop : top + 4 ≤ addressSpace) :
    Spares (fun x => x < top + 4 - 4 * ws.length ∨ top + 4 ≤ x) m (storeDown m top ws) := by
  induction ws generalizing m top with
  | nil => exact Spares.refl _ _
  | cons v rest ih =>
    rw [List.length_cons] at hlo ⊢
    unfold storeDown
    rw [wrap_sub (by omega) (by omega)]
    exact (spares_store32 m v htop fun x h1 h2 => by omega).trans
      ((ih _ (by omega) (by omega)).mono fun x hx => by omega)

/-- With a slot to take, the new process is in one that was stopped, under a PID
that no live process has. -/
theorem initProcess_spec {C : Code} {entryPoint stackBottom pid : Nat} (hslot : ∃ i, ¬ k.Live i)
    (h : k.initProcess C entryPoint stackBottom = some (k', pid)) :
    ∃ i esp stackTop, ¬ k.Live i ∧ k.getProcess pid = none ∧ (∃ n, pid = pidAfter^[n + 1] k.nextPid) ∧
      k'.procTable = Function.update k.procTable i
        ⟨⟨esp, stackTop, stackBottom⟩, pid, .spawned, entryPoint, 0⟩ ∧
      k'.activePid = k.activePid ∧ k'.nextPid = pid := by
  unfold initProcess at h
  rw [Option.map_eq_some_iff] at h
  obtain ⟨⟨k₁, pid₁⟩, hnext, heq⟩ := h
  obtain ⟨rfl, hfree, hn⟩ := getNextPid_spec hnext
  obtain ⟨j, hj⟩ := hslot
  obtain ⟨i, hi, hdead⟩ := reserveProcTableSlot_ne_none hj
  have hres : ({k with nextPid := pid₁} : Kernel).reserveProcTableSlot = some i := hi
  simp only [hres, Prod.mk.injEq] at heq
  obtain ⟨rfl, rfl⟩ := heq
  exact ⟨i, _, _, hdead, hfree, hn, rfl, rfl, rfl⟩

/-- What `init_process` writes to the stack, and what it leaves of the table. -/
theorem initProcess_frame {C : Code} {entryPoint stackBottom pid : Nat}
    (h : k.initProcess C entryPoint stackBottom = some (k', pid)) :
    let blk := wrap (stackBottom + (addressSpace - headerSize))
    let stackTop := wrap (blk + 2 ^ k.heap.mem.scale blk + (addressSpace - 4))
    k'.heap = ⟨storeDown k.heap.mem stackTop (initialFrame C stackTop pid entryPoint), k.heap.currentBrk⟩ ∧
      (∀ i, k.Live i → k'.procTable i = k.procTable i) ∧
      ∀ i, k'.Live i → k.Live i ∨ (k'.procTable i).context.esp = wrap (stackTop + (addressSpace - 0x34)) := by
  unfold initProcess at h
  rw [Option.map_eq_some_iff] at h
  obtain ⟨⟨k₁, pid₁⟩, hnext, heq⟩ := h
  obtain ⟨rfl, -, -⟩ := getNextPid_spec hnext
  simp only [Prod.mk.injEq] at heq
  obtain ⟨rfl, rfl⟩ := heq
  refine ⟨modify_heap _ _ _, fun i hi => ?_, fun i hi => ?_⟩
  · rw [modify_procTable]
    split
    · next hslot => exact absurd hi (reserveProcTableSlot_eq_some hslot)
    · rfl
  · unfold Live at hi
    rw [modify_procTable] at hi ⊢
    split
    · exact Or.inr rfl
    · next hslot =>
      rw [if_neg hslot] at hi
      exact Or.inl hi

theorem initProcess_returns (C : Code) (k : Kernel) (entryPoint stackBottom : Nat) :
    ∃ k' pid, k.initProcess C entryPoint stackBottom = some (k', pid) := by
  obtain ⟨k₁, pid, h⟩ := k.getNextPid_returns
  unfold initProcess
  rw [h]
  exact ⟨_, _, rfl⟩

/-! ### switch_process -/

/-- The same processes are live, with the same PIDs and waits. -/
structure SameQueue (k k' : Kernel) : Prop where
  pid : ∀ i, (k'.procTable i).pid = (k.procTable i).pid
  waitTime : ∀ i, (k'.procTable i).waitTime = (k.procTable i).waitTime
  live : ∀ i, k'.Live i ↔ k.Live i
  nextPid : k'.nextPid = k.nextPid
  heap : k'.heap = k.heap

theorem SameQueue.refl (k : Kernel) : SameQueue k k :=
  ⟨fun _ => rfl, fun _ => rfl, fun _ => Iff.rfl, rfl, rfl⟩

/-- If the two processes are the same, nothing is done. -/
theorem switchProcess_same {pid esp : Nat} (h : k.getProcess pid = k.getProcess k.activePid) :
    k.switchProcess pid esp = (k, none) := by
  unfold switchProcess
  exact if_neg (by rw [h]; simp)

theorem switchProcess_procTable {pid : Nat} (esp : Nat) (h : k.getProcess pid ≠ k.getProcess k.activePid)
    (i : Fin maxProcess) :
    ((k.switchProcess pid esp).1.procTable i).pid = (k.procTable i).pid ∧
      ((k.switchProcess pid esp).1.procTable i).waitTime = (k.procTable i).waitTime ∧
      ((k.switchProcess pid esp).1.procTable i).status =
        if k.getProcess pid = some i then .active
        else if k.getProcess k.activePid = some i ∧ (k.procTable i).status = .active then .waiting
        else (k.procTable i).status := by
  unfold switchProcess
  simp only [if_pos h]
  have hreset : ∀ j, ((if (k.deref (k.getProcess k.activePid)).status = .active then
      k.modify (k.getProcess k.activePid) fun p => {p with status := .waiting} else k).procTable j) =
      if k.getProcess k.activePid = some j ∧ (k.procTable j).status = .active then
        {k.procTable j with status := .waiting} else k.procTable j := by
    intro j
    by_cases hj : k.getProcess k.activePid = some j
    · rw [hj]
      by_cases hs : (k.procTable j).status = .active
      · simp [deref, hs, modify_procTable]
      · simp [deref, hs]
    · split
      · simp [modify_procTable, hj]
      · simp [hj]
  by_cases hn : k.getProcess pid = some i
  · have ho : k.getProcess k.activePid ≠ some i := fun ho => h (hn.trans ho.symm)
    simp [modify_procTable, hn, ho, hreset]
  · by_cases ho : k.getProcess k.activePid = some i
    · by_cases hs : (k.procTable i).status = .active
      · simp [modify_procTable, hn, ho, hs, deref]
      · simp [modify_procTable, hn, ho, hs, deref]
    · simp [modify_procTable, hn, ho, hreset]

/-- The process left is given the stack pointer saved. -/
theorem switchProcess_context {pid : Nat} (esp : Nat) (h : k.getProcess pid ≠ k.getProcess k.activePid)
    (i : Fin maxProcess) :
    ((k.switchProcess pid esp).1.procTable i).context =
      if k.getProcess k.activePid = some i then {(k.procTable i).context with esp := esp}
      else (k.procTable i).context := by
  have hstatus : ∀ (k₁ : Kernel) (p : Option (Fin maxProcess)) (status : ProcessStatus),
      ((k₁.modify p fun q => {q with status := status}).procTable i).context = (k₁.procTable i).context := by
    intro k₁ p status
    rw [modify_procTable]
    split <;> rfl
  have hreset : ((if (k.deref (k.getProcess k.activePid)).status = .active then
      k.modify (k.getProcess k.activePid) fun p => {p with status := .waiting}
      else k).procTable i).context = (k.procTable i).context := by
    split
    · exact hstatus _ _ _
    · rfl
  unfold switchProcess
  simp only [if_pos h]
  rw [modify_procTable]
  split
  · exact congrArg (fun c : ContextStruct => {c with esp := esp}) ((hstatus _ _ _).trans hreset)
  · exact (hstatus _ _ _).trans hreset

/-- The stack pointer loaded is the one saved in the process gone to. -/
theorem switchProcess_loads {pid : Nat} (esp : Nat) (h : k.getProcess pid ≠ k.getProcess k.activePid)
    {j : Fin maxProcess} (hj : k.getProcess pid = some j) :
    (k.switchProcess pid esp).2 = some (k.procTable j).context.esp := by
  have hctx := switchProcess_context esp h j
  rw [if_neg fun he => h (hj.trans he.symm)] at hctx
  rw [← hctx]
  unfold switchProcess
  simp only [if_pos h]
  rw [hj]
  rfl

theorem switchProcess_activePid {pid esp : Nat} (h : k.getProcess pid ≠ k.getProcess k.activePid) :
    (k.switchProcess pid esp).1.activePid = pid := by
  unfold switchProcess
  simp only [if_pos h, modify_activePid]

theorem switchProcess_sameQueue (k : Kernel) (pid esp : Nat) :
    SameQueue k (k.switchProcess pid esp).1 := by
  by_cases h : k.getProcess pid = k.getProcess k.activePid
  · rw [switchProcess_same h]
    exact SameQueue.refl k
  · have htable := switchProcess_procTable esp h
    refine ⟨fun i => (htable i).1, fun i => (htable i).2.1, fun i => ?_, ?_, ?_⟩
    · unfold Live
      rw [(htable i).2.2]
      by_cases hn : k.getProcess pid = some i
      · have hlive : (k.procTable i).status ≠ .stopped := (getProcess_eq_some hn).1
        simp [hn, hlive]
      · by_cases ho : k.getProcess k.activePid = some i ∧ (k.procTable i).status = .active
        · simp [hn, ho]
        · simp [hn, ho]
    · unfold switchProcess
      simp only [if_pos h, modify_nextPid]
      split <;> simp
    · unfold switchProcess
      simp only [if_pos h, modify_heap]
      split <;> simp

/-! ### switch_process_from_queue -/

/-- The processes whose waits the loop counts. -/
def Counted (k : Kernel) (i : Fin maxProcess) : Prop := k.Live i ∧ (k.procTable i).pid ≠ 0

instance (k : Kernel) (i : Fin maxProcess) : Decidable (k.Counted i) :=
  inferInstanceAs (Decidable (_ ∧ _))

/-- The wait after one more tick. -/
def tickWait (k : Kernel) (i : Fin maxProcess) : Nat := wrap ((k.procTable i).waitTime + 1)

/-- After the rounds for the slots `l`: their waits have been counted, and `proc`
is the first of them to have waited longest, if longer than the backstop. -/
structure Selected (k : Kernel) (l : List (Fin maxProcess)) (st : Kernel × Option (Fin maxProcess)) :
    Prop where
  table : ∀ i, st.1.procTable i =
    if i ∈ l ∧ k.Counted i then {k.procTable i with waitTime := k.tickWait i} else k.procTable i
  rest : st.1.heap = k.heap ∧ st.1.nullProcess = k.nullProcess ∧ st.1.activePid = k.activePid ∧
    st.1.nextPid = k.nextPid
  proc : (st.2 = k.getProcess 0 ∧
      ∀ i ∈ l, k.Counted i → k.tickWait i ≤ (k.deref (k.getProcess 0)).waitTime) ∨
    ∃ i ∈ l, st.2 = some i ∧ k.Counted i ∧ (k.deref (k.getProcess 0)).waitTime < k.tickWait i ∧
      ∀ j ∈ l, k.Counted j → k.tickWait j ≤ k.tickWait i

theorem queueRound_selected {l : List (Fin maxProcess)} {st : Kernel × Option (Fin maxProcess)}
    (h : Selected k l st) {i : Fin maxProcess} (hi : i ∉ l) : Selected k (l ++ [i]) (queueRound st i) := by
  obtain ⟨k₁, proc⟩ := st
  have hsame : k₁.procTable i = k.procTable i := by
    have := h.table i
    rwa [if_neg fun hc => hi hc.1] at this
  -- a bound on the waits of the rounds before is one on those of this round too
  have hall : ∀ {b : Nat}, (∀ m ∈ l, k.Counted m → k.tickWait m ≤ b) → (k.Counted i → k.tickWait i ≤ b) →
      ∀ m ∈ l ++ [i], k.Counted m → k.tickWait m ≤ b := fun hle hi =>
    List.forall_mem_append.mpr ⟨hle, List.forall_mem_singleton.mpr hi⟩
  have hlonger : (∀ m ∈ l, k.Counted m → k.tickWait m ≤ k.tickWait i) → ∀ m ∈ l ++ [i], k.Counted m →
    k.tickWait m ≤ k.tickWait i :=
    fun hle => hall hle fun _ => Nat.le_refl _
  unfold queueRound
  simp only
  rw [hsame]
  by_cases hc : k.Counted i
  · have hdec : (k.procTable i).status ≠ .stopped ∧ (k.procTable i).pid ≠ 0 := hc
    simp only [if_pos hdec]
    have htable : ∀ j, (k₁.modify (some i) fun p => {p with waitTime := wrap (p.waitTime + 1)}).procTable j =
        if j ∈ l ++ [i] ∧ k.Counted j then {k.procTable j with waitTime := k.tickWait j}
        else k.procTable j := by
      intro j
      rw [modify_procTable]
      by_cases hji : j = i
      · subst hji
        simp [hc, hsame, tickWait]
      · have hij : i ≠ j := Ne.symm hji
        simpa [hij, hji] using h.table j
    have hwait : ((k₁.modify (some i) fun p => {p with waitTime := wrap (p.waitTime + 1)}).procTable i).waitTime =
        k.tickWait i := by
      rw [htable, if_pos ⟨List.mem_append_right _ (List.mem_singleton_self i), hc⟩]
    have hrest : ∀ p, (k₁.modify (some i) p).heap = k.heap ∧ (k₁.modify (some i) p).nullProcess = k.nullProcess ∧
        (k₁.modify (some i) p).activePid = k.activePid ∧ (k₁.modify (some i) p).nextPid = k.nextPid :=
      fun p => h.rest
    rw [hwait]
    -- the wait `i` is compared with: the backstop's, or that of the slot chosen so far
    rcases h.proc with ⟨hp, hle⟩ | ⟨j, hj, hp, hcj, hlt, hle⟩
    · have hp' : proc = k.getProcess 0 := hp
      have hcur : ((k₁.modify (some i) fun p => {p with waitTime := wrap (p.waitTime + 1)}).deref proc).waitTime =
          (k.deref (k.getProcess 0)).waitTime := by
        rw [hp']
        cases hg : k.getProcess 0 with
        | none => exact congrArg ProcessStruct.waitTime h.rest.2.1
        | some b =>
          have hb := (getProcess_eq_some hg).2
          show ((k₁.modify (some i) _).procTable b).waitTime = (k.procTable b).waitTime
          rw [htable, if_neg fun hc' => hc'.2.2 hb]
      rw [hcur]
      split
      · next hgt =>
        refine ⟨htable, hrest _, Or.inr ⟨i, List.mem_append_right _ (List.mem_singleton_self i), rfl, hc, hgt, ?_⟩⟩
        exact hlonger fun m hm hcm => (hle m hm hcm).trans (Nat.le_of_lt hgt)
      · next hgt =>
        exact ⟨htable, hrest _, Or.inl ⟨hp', hall hle fun _ => Nat.le_of_not_lt hgt⟩⟩
    · have hp' : proc = some j := hp
      have hji : j ≠ i := fun he => hi (he ▸ hj)
      have hcur : ((k₁.modify (some i) fun p => {p with waitTime := wrap (p.waitTime + 1)}).deref proc).waitTime =
          k.tickWait j := by
        rw [hp']
        show ((k₁.modify (some i) _).procTable j).waitTime = k.tickWait j
        rw [htable, if_pos ⟨List.mem_append_left _ hj, hcj⟩]
      rw [hcur]
      split
      · next hgt =>
        refine ⟨htable, hrest _, Or.inr ⟨i, List.mem_append_right _ (List.mem_singleton_self i), rfl,
          hc, hlt.trans hgt, ?_⟩⟩
        exact hlonger fun m hm hcm => (hle m hm hcm).trans (Nat.le_of_lt hgt)
      · next hgt =>
        exact ⟨htable, hrest _, Or.inr ⟨j, List.mem_append_left _ hj, hp', hcj, hlt,
          hall hle fun _ => Nat.le_of_not_lt hgt⟩⟩
  · have hdec : ¬ ((k.procTable i).status ≠ .stopped ∧ (k.procTable i).pid ≠ 0) := hc
    simp only [if_neg hdec]
    refine ⟨fun j => ?_, h.rest, ?_⟩
    · have := h.table j
      simp only at this
      rw [this]
      by_cases hji : j = i
      · subst hji
        simp [hc]
      · simp [hji]
    · rcases h.proc with ⟨hp, hle⟩ | ⟨j, hj, hp, hcj, hlt, hle⟩
      · exact Or.inl ⟨hp, hall hle fun hc' => absurd hc' hc⟩
      · exact Or.inr ⟨j, List.mem_append_left _ hj, hp, hcj, hlt, hall hle fun hc' => absurd hc' hc⟩

theorem selectProcess_selected (k : Kernel) : Selected k (List.finRange maxProcess) k.selectProcess := by
  have hrounds : ∀ l : List (Fin maxProcess), l.Nodup →
      Selected k l (l.foldl queueRound (k, k.getProcess 0)) := by
    intro l
    induction l using List.reverseRecOn with
    | nil =>
      intro _
      refine ⟨fun i => ?_, ⟨rfl, rfl, rfl, rfl⟩, Or.inl ⟨rfl, fun i hi => ?_⟩⟩
      · simp
      · exact (List.not_mem_nil hi).elim
    | append_singleton l i ih =>
      intro hnd
      obtain ⟨h1, -, h2⟩ := List.nodup_append.mp hnd
      rw [List.foldl_append]
      exact queueRound_selected (ih h1) fun hi => h2 i hi i (List.mem_singleton_self i) rfl
  unfold selectProcess
  exact hrounds _ (List.nodup_finRange maxProcess)

/-- The wait of a slot after a tick: the process selected starts over. -/
def waitAfter (k : Kernel) (i : Fin maxProcess) : Nat :=
  if k.selectProcess.2 = some i then 0 else if k.Counted i then k.tickWait i else (k.procTable i).waitTime

/-- The table as `switch_process_from_queue` leaves it to the switch. -/
def queued (k : Kernel) : Kernel :=
  k.selectProcess.1.modify k.selectProcess.2 fun p => {p with waitTime := 0}

/-- The PID to switch to. -/
def nextProcess (k : Kernel) : Nat := (k.queued.deref k.selectProcess.2).pid

theorem switchProcessFromQueue_eq (k : Kernel) (esp : Nat) :
    k.switchProcessFromQueue esp =
      if k.nextProcess ≠ k.queued.activePid then k.queued.switchProcess k.nextProcess esp
      else (k.queued, none) := by
  unfold switchProcessFromQueue nextProcess queued
  cases k.selectProcess with
  | mk k₁ proc => rfl

/-- The waits are those after the tick, and all else is as before. -/
theorem queued_procTable (k : Kernel) (i : Fin maxProcess) :
    k.queued.procTable i = {k.procTable i with waitTime := k.waitAfter i} := by
  have h := k.selectProcess_selected.table i
  unfold queued waitAfter
  rw [modify_procTable, h]
  generalize k.selectProcess.2 = sel
  by_cases hs : sel = some i
  · by_cases hc : k.Counted i
    · simp [hs, hc]
    · simp [hs, hc]
  · by_cases hc : k.Counted i
    · simp [hs, hc]
    · simp [hs, hc]

theorem queued_rest (k : Kernel) :
    k.queued.heap = k.heap ∧ k.queued.activePid = k.activePid ∧ k.queued.nextPid = k.nextPid := by
  have h := k.selectProcess_selected.rest
  unfold queued
  rw [modify_heap, modify_activePid, modify_nextPid]
  exact ⟨h.1, h.2.2.1, h.2.2.2⟩

theorem queued_live (k : Kernel) (i : Fin maxProcess) : k.queued.Live i ↔ k.Live i := by
  unfold Live
  rw [queued_procTable]

/-- With the backstop there, the process selected is there. -/
theorem exists_nextProcess (h : k.getProcess 0 ≠ none) :
    ∃ i, k.Live i ∧ (k.procTable i).pid = k.nextProcess ∧ k.queued.getProcess k.nextProcess ≠ none := by
  have hfound : ∀ i, k.selectProcess.2 = some i → k.Live i →
      ∃ i, k.Live i ∧ (k.procTable i).pid = k.nextProcess ∧
        k.queued.getProcess k.nextProcess ≠ none := fun i hsel hlive => by
    have hpid : (k.queued.procTable i).pid = k.nextProcess := by
      unfold Kernel.nextProcess
      rw [hsel]
      rfl
    obtain ⟨j, hj⟩ := getProcess_ne_none ((k.queued_live i).mpr hlive) hpid
    rw [queued_procTable] at hpid
    exact ⟨i, hlive, hpid, by rw [hj]; exact Option.some_ne_none j⟩
  obtain ⟨b, hb⟩ := Option.ne_none_iff_exists'.mp h
  rcases k.selectProcess_selected.proc with ⟨hsel, -⟩ | ⟨i, -, hsel, hi, -⟩
  · exact hfound b (hsel.trans hb) (getProcess_eq_some hb).1
  · exact hfound i hsel hi.1

/-- Whoever is selected is active after the tick. -/
theorem switchProcessFromQueue_activePid (esp : Nat) {i : Fin maxProcess} (hsel : k.selectProcess.2 = some i)
    (hlive : k.Live i) : (k.switchProcessFromQueue esp).1.activePid = (k.procTable i).pid := by
  have hpid : (k.queued.procTable i).pid = (k.procTable i).pid := by rw [queued_procTable]
  have hnext : k.nextProcess = (k.procTable i).pid := by
    unfold nextProcess
    rw [hsel]
    exact hpid
  rw [switchProcessFromQueue_eq]
  by_cases hne : k.nextProcess ≠ k.queued.activePid
  · obtain ⟨j, hj⟩ := getProcess_ne_none ((k.queued_live i).mpr hlive) (hpid.trans hnext.symm)
    have hdiff : k.queued.getProcess k.nextProcess ≠ k.queued.getProcess k.queued.activePid := by
      intro he
      rw [hj] at he
      exact hne ((getProcess_eq_some hj).2.symm.trans (getProcess_eq_some he.symm).2)
    rw [if_pos hne, switchProcess_activePid hdiff, hnext]
  · rw [if_neg hne]
    exact (not_not.mp hne).symm.trans hnext

/-- A tick changes waits and, by switching, who is active. -/
theorem switchProcessFromQueue_queue (k : Kernel) (esp : Nat) (i : Fin maxProcess) :
    ((k.switchProcessFromQueue esp).1.procTable i).pid = (k.procTable i).pid ∧
      ((k.switchProcessFromQueue esp).1.procTable i).waitTime = k.waitAfter i ∧
      ((k.switchProcessFromQueue esp).1.Live i ↔ k.Live i) ∧
      (k.switchProcessFromQueue esp).1.nextPid = k.nextPid := by
  have hpid : (k.queued.procTable i).pid = (k.procTable i).pid := by rw [queued_procTable]
  have hwait : (k.queued.procTable i).waitTime = k.waitAfter i := by rw [queued_procTable]
  rw [switchProcessFromQueue_eq]
  by_cases hne : k.nextProcess ≠ k.queued.activePid
  · rw [if_pos hne]
    have hq := switchProcess_sameQueue k.queued k.nextProcess esp
    refine ⟨?_, ?_, ?_, ?_⟩
    · exact (hq.pid i).trans hpid
    · exact (hq.waitTime i).trans hwait
    · exact (hq.live i).trans (k.queued_live i)
    · exact hq.nextPid.trans k.queued_rest.2.2
  · rw [if_neg hne]
    dsimp only
    exact ⟨hpid, hwait, k.queued_live i, k.queued_rest.2.2⟩

end Kernel
end ShompOS
