import ShompOS.Heap.Lending
import ShompOS.Process.Identity
import ShompOS.Process.Occupancy
import ShompOS.Process.Stacks

/-! Whose stack a block is.

The stack a process was created with is in its context until it is killed, and nothing
moves it (`keepsStacks_tick`). If every live process's stack is held and no two have one
stack, killing one gives back its block and no other's. -/
namespace ShompOS
namespace Kernel
open Memory

variable {L : Layout} {C : Code} {k k' : Kernel} {held held' : List (Nat × Nat)} {pid entryPoint p esp : Nat}
  {i j : Fin maxProcess}

def stackOf (k : Kernel) (i : Fin maxProcess) : Nat := (k.procTable i).context.stackBottom

/-- The stack of a live process. -/
def IsStack (k : Kernel) (p : Nat) : Prop := ∃ i, k.Live i ∧ k.stackOf i = p

/-- The stacks of the live processes are held, and each is the stack of one. -/
structure Housed (k : Kernel) (held : List (Nat × Nat)) : Prop where
  stack : ∀ i, k.Live i → ∃ n, (k.stackOf i, n) ∈ held
  apart : ∀ i j, k.Live i → k.Live j → k.stackOf i = k.stackOf j → i = j

theorem Housed.mono (h : k.Housed held) (hsub : held ⊆ held') : k.Housed held' :=
  ⟨fun i hi => (h.stack i hi).imp fun _ hn => hsub hn, h.apart⟩

/-- What is freed is no process's stack. -/
theorem Housed.free (h : k.Housed held) (hp : ¬ k.IsStack p) : k.Housed (giveBack held p) := by
  refine ⟨fun i hi => (h.stack i hi).imp fun n hn => ?_, h.apart⟩
  exact mem_giveBack.mpr ⟨hn, fun he => hp ⟨i, hi, he⟩⟩

/-! ### Ticks -/

/-- The same processes are live, on the same stacks. -/
structure KeepsStacks (k k' : Kernel) : Prop where
  heap : k'.heap = k.heap
  live : ∀ i, k'.Live i ↔ k.Live i
  stackOf : ∀ i, k'.stackOf i = k.stackOf i

theorem keepsStacks_tick (k : Kernel) (esp : Nat) : KeepsStacks k (k.switchProcessFromQueue esp).1 := by
  have hqueued : ∀ i, k.queued.stackOf i = k.stackOf i := by
    intro i
    unfold Kernel.stackOf
    rw [queued_procTable]
  refine ⟨?_, fun i => (k.switchProcessFromQueue_queue esp i).2.2.1, fun i => ?_⟩
  · rw [switchProcessFromQueue_eq]
    split
    · exact (switchProcess_sameQueue ..).heap.trans k.queued_rest.1
    · exact k.queued_rest.1
  · rw [switchProcessFromQueue_eq]
    split
    · rw [← hqueued i]
      by_cases hsame : k.queued.getProcess k.nextProcess = k.queued.getProcess k.queued.activePid
      · rw [switchProcess_same hsame]
      · unfold Kernel.stackOf
        rw [switchProcess_context esp hsame]
        split <;> rfl
    · exact hqueued i

theorem Housed.same (h : k.Housed held) (hk : KeepsStacks k k') : k'.Housed held := by
  refine ⟨fun i hi => ?_, fun i j hi hj he => ?_⟩
  · rw [hk.stackOf]
    exact h.stack i ((hk.live i).mp hi)
  · rw [hk.stackOf, hk.stackOf] at he
    exact h.apart i j ((hk.live i).mp hi) ((hk.live j).mp hj) he

/-! ### Killing and creating -/

/-- What is held when the process of a PID has been killed: its stack no more. -/
def afterKill (k : Kernel) (held : List (Nat × Nat)) (pid : Nat) : List (Nat × Nat) :=
  (k.getProcess pid).elim held fun i => giveBack held (k.stackOf i)

/-- The stack given back is no other's. -/
theorem Housed.stop (h : k.Housed held) (hi : k.Live i) (heap : Heap) :
    Housed {k.modify (some i) (fun p => {p with status := .stopped}) with heap := heap}
      (giveBack held (k.stackOf i)) := by
  have hlive : ∀ j, (k.modify (some i) fun p => {p with status := .stopped}).Live j → j ≠ i ∧ k.Live j := by
    intro j hj
    unfold Live at hj ⊢
    rw [modify_procTable] at hj
    split at hj
    · exact absurd rfl hj
    · next hij => exact ⟨fun he => hij (he ▸ rfl), hj⟩
  have hstack : ∀ j, (k.modify (some i) fun p => {p with status := .stopped}).stackOf j = k.stackOf j := by
    intro j
    unfold stackOf
    rw [modify_procTable]
    split <;> rfl
  refine ⟨fun j hj => ?_, fun j l hj hl he => ?_⟩
  · obtain ⟨hji, hj⟩ := hlive j hj
    obtain ⟨n, hn⟩ := h.stack j hj
    exact ⟨n, mem_giveBack.mpr ⟨(hstack j).symm ▸ hn, fun he => hji (h.apart j i hj hi ((hstack j).symm.trans he))⟩⟩
  · exact h.apart j l (hlive j hj).2 (hlive l hl).2 ((hstack j).symm.trans (he.trans (hstack l)))

/-- A process is created on a block that is held and no live process's stack. -/
theorem Housed.initProcess (h : k.Housed held) {n : Nat} (hslot : ∃ i, ¬ k.Live i) (hp : (p, n) ∈ held)
    (hnew : ¬ k.IsStack p) (hinit : k.initProcess C entryPoint p = some (k', pid)) :
    k'.Housed held ∧ ∃ i, k'.getProcess pid = some i ∧ k'.stackOf i = p := by
  obtain ⟨i, hfound, hdead, -, hbottom, hother⟩ := initProcess_creates hslot hinit
  have hstack : ∀ j, j ≠ i → k'.stackOf j = k.stackOf j := fun j hj => by
    unfold stackOf
    rw [hother j hj]
  have hlive : ∀ j, j ≠ i → k'.Live j → k.Live j := fun j hj hl => by
    unfold Live at hl ⊢
    rwa [hother j hj] at hl
  refine ⟨⟨fun j hj => ?_, fun j l hj hl he => ?_⟩, i, hfound, hbottom⟩
  · by_cases hji : j = i
    · rw [hji]
      exact ⟨n, (show k'.stackOf i = p from hbottom).symm ▸ hp⟩
    · rw [hstack j hji]
      exact h.stack j (hlive j hji hj)
  · by_cases hji : j = i
    · by_cases hli : l = i
      · rw [hji, hli]
      · rw [hji, hstack l hli] at he
        exact absurd ⟨l, hlive l hli hl, he.symm.trans hbottom⟩ hnew
    · by_cases hli : l = i
      · rw [hli, hstack j hji] at he
        exact absurd ⟨j, hlive j hji hj, he.trans hbottom⟩ hnew
      · rw [hstack j hji, hstack l hli] at he
        exact h.apart j l (hlive j hji hj) (hlive l hli hl) he

/-! ### On a heap with an owner of other cells -/

section Settled
variable {P : Pool} {cs : List Cell} {n x : Nat}

/-- The block of which `p` is the data. -/
def InStack (k : Kernel) (p x : Nat) : Prop := p ≤ x ∧ x < p - headerSize + 2 ^ k.heap.mem.scale (p - headerSize)

theorem inStack_iff {a t : Nat} (hs : Settled L held P k.heap cs) (ha : P.used a = some t) :
    k.InStack (a + headerSize) x ↔ a + headerSize ≤ x ∧ x < a + 2 ^ t := by
  have hscale : k.heap.mem.scale a = t := (Owns.represents hs).stands.scale_eq (Or.inl ha)
  unfold InStack
  rw [Nat.add_sub_cancel, hscale]

theorem settled_killProcess (hs : Settled L held P k.heap cs) (h : k.Housed held)
    (hkill : k.killProcess L pid = some k') :
    k'.Housed (k.afterKill held pid) ∧ (∃ P', Settled L (k.afterKill held pid) P' k'.heap cs) ∧
      ∀ x, Callers L (k.afterKill held pid) x → k'.heap.mem.byte x = k.heap.mem.byte x := by
  unfold afterKill
  rcases killProcess_spec hkill with ⟨hnone, rfl⟩ | ⟨i, hp, ret, hfound, hfree, rfl⟩
  · rw [hnone]
    exact ⟨h, ⟨P, hs⟩, fun x _ => rfl⟩
  · rw [hfound]
    have hi := (getProcess_eq_some hfound).1
    obtain ⟨n, hn⟩ := h.stack i hi
    obtain ⟨h', P', hcall, hs', hbytes⟩ := hs.free hn
    have hcall' : k.heap.free L (k.procTable i).context.stackBottom = some (h', 0) := hcall
    rw [hfree] at hcall'
    cases hcall'
    exact ⟨h.stop hi hp, ⟨P', hs'⟩, hbytes⟩

/-- `init_process` writes to the stack and to nothing else. -/
theorem settled_initProcess (hs : Settled L held P k.heap cs) (hp : (p, n) ∈ held) (hroom : 56 ≤ n)
    (hinit : k.initProcess C entryPoint p = some (k', pid)) :
    Settled L held P k'.heap cs ∧ ∀ x, ¬ k.InStack p x → k'.heap.mem.byte x = k.heap.mem.byte x := by
  obtain ⟨a, t, rfl, ha, hsize⟩ := hs.held_block hp
  have hrep : Represents L k.heap P := Owns.represents hs
  obtain ⟨-, hbytes, -⟩ := hrep.initProcess ha (by omega) hinit
  have hbrk : k'.heap = ⟨k'.heap.mem, k.heap.currentBrk⟩ := by
    rw [(initProcess_frame hinit).1]
  refine ⟨?_, fun x hx => hbytes x fun hin => hx ((inStack_iff hs ha).mpr hin)⟩
  rw [hbrk]
  exact hs.payload hp ha hbytes

end Settled

end Kernel
end ShompOS
