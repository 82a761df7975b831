import ShompOS.Process.FreshProcess

/-! What `init_process` makes of a table of any occupancy.

With a slot to take it creates the process it returns the PID of. Without one it
says so on the screen and goes on: the first words go into the stack it was given,
the record goes to where `NULL` points, and a PID is returned that no process has. -/
namespace ShompOS
open Memory
namespace Kernel
variable {C : Code} {k k' : Kernel} {entryPoint stackBottom pid : Nat}

/-- The process is found under its PID, in a slot that was free, and the others are as
they were. -/
def Creates (k k' : Kernel) (pid entryPoint stackBottom : Nat) : Prop :=
  ∃ i, k'.getProcess pid = some i ∧ ¬ k.Live i ∧ (k'.procTable i).entryPoint = entryPoint ∧
    (k'.procTable i).context.stackBottom = stackBottom ∧ ∀ j, j ≠ i → k'.procTable j = k.procTable j

/-- The table is as it was, and nothing is written anywhere else. -/
structure Declines (k k' : Kernel) : Prop where
  table : k'.procTable = k.procTable
  null : k'.nullProcess = k.nullProcess
  memory : k'.heap.mem.stores = k.heap.mem.stores

/-- What comes back is the PID of a process that is there, or nothing has happened. -/
def NamesProcess (C : Code) (k : Kernel) (entryPoint stackBottom : Nat) : Prop :=
  ∃ k' pid, k.initProcess C entryPoint stackBottom = some (k', pid) ∧
    (k.Creates k' pid entryPoint stackBottom ∨ k.Declines k')

/-- With a slot to take. -/
theorem initProcess_creates (hslot : ∃ i, ¬ k.Live i) (h : k.initProcess C entryPoint stackBottom = some (k', pid)) :
    k.Creates k' pid entryPoint stackBottom := by
  obtain ⟨i, esp, top, hdead, hfree, -, htable, -, -⟩ := initProcess_spec hslot h
  have hi : k'.procTable i = ⟨⟨esp, top, stackBottom⟩, pid, .spawned, entryPoint, 0⟩ := by
    rw [htable, Function.update_self]
  have hother : ∀ j, j ≠ i → k'.procTable j = k.procTable j := by
    intro j hj
    rw [htable, Function.update_of_ne hj]
  have hlive : k'.Live i := by
    unfold Live
    rw [hi]
    exact ProcessStatus.noConfusion
  obtain ⟨j, hj⟩ := getProcess_ne_none hlive (show (k'.procTable i).pid = pid by rw [hi])
  obtain ⟨hjlive, hjpid⟩ := getProcess_eq_some hj
  have hji : j = i := by
    -- no other had the PID
    by_contra hne
    unfold Live at hjlive
    rw [hother j hne] at hjlive hjpid
    exact getProcess_eq_none hfree hjlive hjpid
  rw [hji] at hj
  refine ⟨i, hj, hdead, ?_, ?_, hother⟩
  all_goals rw [hi]

/-- Each word is four stores more. -/
theorem length_stores_storeDown (ws : List Nat) (m : Memory) (top : Nat) :
    (storeDown m top ws).stores.length = m.stores.length + 4 * ws.length := by
  induction ws generalizing m top with
  | nil => rfl
  | cons w rest ih =>
    have hword : (m.store32 top w).stores.length = m.stores.length + 4 := rfl
    unfold storeDown
    rw [ih, hword, List.length_cons]
    omega

/-- Without one, nothing is created but the words are stored. -/
theorem not_namesProcess_full (hfull : ∀ i, k.Live i) : ¬ NamesProcess C k entryPoint stackBottom := by
  rintro ⟨k', pid, h, hcreates | hdeclines⟩
  · obtain ⟨i, -, hdead, -⟩ := hcreates
    exact hdead (hfull i)
  · have hmem := congrArg List.length hdeclines.memory
    obtain ⟨hheap, -⟩ := initProcess_frame h
    rw [hheap, length_stores_storeDown] at hmem
    have hframe : ∀ top, (initialFrame C top pid entryPoint).length = 14 := fun _ => rfl
    rw [hframe] at hmem
    omega

/-- The PID that comes back is a process's, or nothing has happened, exactly if a slot is
free. -/
theorem namesProcess_iff (C : Code) (k : Kernel) (entryPoint stackBottom : Nat) :
    NamesProcess C k entryPoint stackBottom ↔ ∃ i, (k.procTable i).status = .stopped := by
  constructor
  · intro h
    by_contra hnone
    exact not_namesProcess_full (fun i hi => hnone ⟨i, hi⟩) h
  · rintro ⟨i, hi⟩
    obtain ⟨k', pid, h⟩ := initProcess_returns C k entryPoint stackBottom
    exact ⟨k', pid, h, Or.inl (initProcess_creates ⟨i, fun hlive => hlive hi⟩ h)⟩

/-! ### A ninth process -/

/-- Nine blocks for stacks. -/
def nineStacks : Option Session :=
  (List.replicate (maxProcess + 1) (Call.allocate 500)).foldlM (Session.call .kernelImage) ⟨bootHeap, []⟩

/-- A process on each stack but the last. -/
def eightProcesses (s : Session) : List Event := s.live.tail.map fun x => .initProcess 0x200000 x.1

/-- With eight live processes on their stacks, `init_process` on another stack returns a
PID, without a process. -/
theorem ninth_process : ∃ (s : Session) (tr : List (Kernel × Event)) (k : Kernel) (p n : Nat),
    s.Reached .kernelImage ∧ Run (fun k => Loaded k ∧ k.heap = s.heap)
      (fun k e k' => k.handle .kernelImage ⟨0x100000, 0x100010⟩ e = some k') tr k ∧
      tr.map Prod.snd = eightProcesses s ∧ s.live.head? = some (p, n) ∧ 500 ≤ n ∧ p ∉ s.live.tail.map Prod.fst ∧
      ¬ NamesProcess ⟨0x100000, 0x100010⟩ k 0x200000 p := by
  have hrun : nineStacks.any fun s => ((eightProcesses s).foldlM (handle .kernelImage ⟨0x100000, 0x100010⟩)
      ({Kernel.atLoad with heap := s.heap} : Kernel)).any fun k =>
        (s.live.head?.any fun x => 500 ≤ x.2 ∧ x.1 ∉ s.live.tail.map Prod.fst) ∧ ∀ i, k.Live i := by decide +kernel
  obtain ⟨s, hs, hrun⟩ := (Option.any_eq_true _ _).mp hrun
  obtain ⟨k, hk, hrun⟩ := (Option.any_eq_true _ _).mp hrun
  obtain ⟨hhead, hfull⟩ := of_decide_eq_true hrun
  obtain ⟨⟨p, n⟩, hpn, hhead⟩ := (Option.any_eq_true _ _).mp hhead
  obtain ⟨hn, hp⟩ := of_decide_eq_true hhead
  obtain ⟨h, hboot, -⟩ := represents_initHeap .kernelImage Memory.zero
  have hbooted : Session.Booted .kernelImage ⟨bootHeap, []⟩ := by
    refine ⟨rfl, Memory.zero, ?_⟩
    unfold bootHeap
    rw [hboot]
    rfl
  have hstart : Run (Session.Booted .kernelImage) (Session.Step .kernelImage) [] ⟨bootHeap, []⟩ := .start hbooted
  obtain ⟨tr₀, hreached, -⟩ := hstart.foldlM (fun s c s' hc hcall => by
    rw [List.eq_of_mem_replicate hc] at hcall ⊢
    exact ⟨trivial, hcall⟩) hs
  have hload : Run (fun k => Loaded k ∧ k.heap = s.heap)
    (fun k e k' => k.handle .kernelImage ⟨0x100000, 0x100010⟩ e = some k') []
      {Kernel.atLoad with heap := s.heap} := .start ⟨⟨rfl, rfl, rfl⟩, rfl⟩
  obtain ⟨tr, hrun, hmap⟩ := hload.foldlM (fun _ _ _ _ h => h) hk
  exact ⟨s, tr, k, p, n, ⟨_, hreached⟩, hrun, hmap, hpn, hn, hp, not_namesProcess_full hfull⟩

end Kernel
end ShompOS
