import ShompOS.X86
import ShompOS.Process.Stacks

/-! The exceptions that end a process (`isr.S`).

The processor pushes EFLAGS, CS and EIP on the stack of the process it interrupts,
and for some vectors an error code; the handler calls `kill_process` with nothing
pushed for its argument, which so is the word the processor pushed last. -/
namespace ShompOS
open Layout Memory X86

/-! ### free always returns -/

namespace Heap
variable {L : Layout}

/-- The growing loop ends if the address is a whole number of blocks away. -/
theorem brkGrow_returns {addr rounds r : Nat} (hr : r < rounds) {h : Heap}
    (haddr : addr = h.currentBrk + r * 2 ^ maxBlockScale) (htop : addr < addressSpace) :
    ∃ h', brkGrow L addr rounds h = some h' := by
  have hpM := two_pow_pos' maxBlockScale
  induction rounds generalizing r h with
  | zero => exact absurd hr (Nat.not_lt_zero r)
  | succ rounds ih =>
    unfold brkGrow
    cases r with
    | zero =>
      rw [if_neg (by omega)]
      exact ⟨h, rfl⟩
    | succ r =>
      rw [Nat.succ_mul] at haddr
      rw [if_pos (by omega), wrap_eq (a := h.currentBrk + 2 ^ maxBlockScale) (by omega)]
      apply ih (r := r) (by omega)
      dsimp only
      omega

/-- Dropping the last block returns, also where there is none. -/
theorem sbrk_returns (h : Heap) (hbrk : h.currentBrk < addressSpace) : ∃ r, sbrk L h (-1) = some r := by
  have h32 : 2 ^ maxBlockScale = 32768 := rfl
  have hlt : h.currentBrk < 4294967296 := hbrk
  have haddr : addOffset h.currentBrk (-1 * 2 ^ maxBlockScale) =
      if h.currentBrk < 32768 then h.currentBrk + 131071 * 32768 else h.currentBrk - 32768 := by
    have hinc : (-1 * 2 ^ maxBlockScale : Int) = -32768 := rfl
    unfold addOffset
    rw [hinc, show ((addressSpace : Nat) : Int) = 4294967296 from rfl]
    split <;> omega
  unfold sbrk brk
  rw [if_neg (by decide), haddr]
  by_cases hlow : h.currentBrk < 32768
  · have hgrow : ∃ h', brkGrow L (h.currentBrk + 131071 * 32768) brkRounds h = some h' :=
      brkGrow_returns (r := 131071) (by decide) (by rw [h32])
        (show h.currentBrk + 131071 * 32768 < 4294967296 by omega)
    obtain ⟨h', hgrow⟩ := hgrow
    rw [if_pos hlow, if_pos (by omega), hgrow]
    exact ⟨_, rfl⟩
  · have hblock : wrap (h.currentBrk + (addressSpace - 2 ^ maxBlockScale)) = h.currentBrk - 32768 :=
      wrap_sub (by omega) hbrk
    rw [if_neg hlow, if_neg (by omega), show brkRounds = 131071 + 1 + 1 from rfl]
    unfold brkShrink
    rw [if_pos (by omega), hblock]
    dsimp only
    split
    · exact ⟨_, rfl⟩
    · unfold brkShrink
      rw [if_neg (by dsimp only; omega)]
      exact ⟨_, rfl⟩

theorem free_returns (h : Heap) (hbrk : h.currentBrk < addressSpace) (data : Nat) :
    ∃ r, h.free L data = some r := by
  unfold free
  split
  · exact ⟨_, rfl⟩
  · dsimp only
    split
    · exact ⟨_, rfl⟩
    · split
      · obtain ⟨r, hr⟩ := sbrk_returns (L := L)
          ⟨addToFreeList L (coalesceBlock h.mem (wrap (data + (addressSpace - headerSize)))).1
            (coalesceBlock h.mem (wrap (data + (addressSpace - headerSize)))).2, h.currentBrk⟩ hbrk
        rw [hr]
        exact ⟨_, rfl⟩
      · exact ⟨_, rfl⟩

end Heap

/-! ### The handlers -/

/-- The vectors whose handler is `unrecoverable_error`. -/
inductive Vector
  | isr2
  | isr4
  | isr5
  | isr8
  | isr10
  | isr11
  | isr12
  | isr16
  | isr19
  deriving DecidableEq

/-- Whether the processor pushes an error code. -/
def Vector.hasErrorCode : Vector → Bool
  | .isr8 | .isr10 | .isr11 | .isr12 => true
  | _ => false

/-- What the processor pushes before it goes to the handler. -/
def Vector.pushes (v : Vector) (t : State) (cs errorCode : Word) : List Word :=
  [t.eflags.bits, cs, t.eip] ++ if v.hasErrorCode then [errorCode] else []

/-- A fault in the state `t`: the processor pushes, `unrecoverable_error` calls
`kill_process`, which pushes the return address `ret`, and `kill_process` finds
its argument above that. -/
def Kernel.unrecoverableError (L : Layout) (k : Kernel) (v : Vector) (t : State) (cs errorCode ret : Word) :
    Option Kernel :=
  let t := ({t with mem := k.heap.mem} : State).pushWords (v.pushes t cs errorCode)
  let t := t.push ret
  ({k with heap := ⟨t.mem, k.heap.currentBrk⟩} : Kernel).killProcess L (t.mem.loadWord (t.reg .esp + 4#32)).toNat

/-- What `kill_process` takes for its argument. -/
def Vector.argument (v : Vector) (t : State) (errorCode : Word) : Word :=
  if v.hasErrorCode then errorCode else t.eip

/-- With room on the stack, the argument is the word the processor pushed last. -/
theorem argument_eq (v : Vector) (t : State) (m : Memory) (cs errorCode ret : Word)
    (hroom : 20 ≤ (t.reg .esp).toNat) :
    let u := (({t with mem := m} : State).pushWords (v.pushes t cs errorCode)).push ret
    u.mem.loadWord (u.reg .esp + 4#32) = v.argument t errorCode := by
  have hlt := (t.reg .esp).isLt
  have hpush : ∀ ws : List Word, ws.length ≤ 4 → ∀ (hpos : ws.length - 1 < ws.length),
      let u := (({t with mem := m} : State).pushWords ws).push ret
      u.mem.loadWord (u.reg .esp + 4#32) = ws[ws.length - 1] := by
    intro ws hlen hpos u
    have hu : u = ({t with mem := m} : State).pushWords (ws ++ [ret]) := by
      show (ws.foldl State.push _).push ret = (ws ++ [ret]).foldl State.push _
      rw [List.foldl_append]
      rfl
    have hall : (ws ++ [ret]).length = ws.length + 1 := List.length_append
    have hp := pushWords_pushed (ws ++ [ret]) {t with mem := m} (by dsimp only; omega)
    rw [← hu] at hp
    have hesp : (u.reg .esp).toNat = (t.reg .esp).toNat - 4 * (ws.length + 1) := hall ▸ hp.esp
    have hword := hp.words (ws.length - 1) (by omega) (u.reg .esp + 4#32) (by dsimp only; bv_omega)
    rw [hword]
    exact List.getElem_append_left hpos
  unfold Vector.pushes Vector.argument
  cases v.hasErrorCode with
  | true => exact hpush [t.eflags.bits, cs, t.eip, errorCode] (Nat.le_refl 4) (Nat.lt_succ_self 3)
  | false => exact hpush [t.eflags.bits, cs, t.eip] (Nat.le_succ 3) (Nat.lt_succ_self 2)

/-- From `k` to `k'` the process in slot `i` has been stopped, and no other. -/
structure StopsOnly (i : Fin maxProcess) (k k' : Kernel) : Prop where
  stopped : (k'.procTable i).status = .stopped
  others : ∀ j, j ≠ i → (k'.procTable j).status = (k.procTable j).status

theorem Kernel.killProcess_returns (L : Layout) (k : Kernel) (hbrk : k.heap.currentBrk < addressSpace) (pid : Nat) :
    ∃ k', k.killProcess L pid = some k' := by
  unfold killProcess
  cases k.getProcess pid with
  | none => exact ⟨k, rfl⟩
  | some i =>
    dsimp only
    rw [modify_heap]
    obtain ⟨r, hr⟩ := Heap.free_returns (L := L) k.heap hbrk
      ((k.modify (some i) fun p => {p with status := .stopped}).procTable i).context.stackBottom
    rw [hr]
    exact ⟨_, rfl⟩

theorem Kernel.killProcess_stopsOnly_iff {L : Layout} {k k' : Kernel} {i : Fin maxProcess} {pid : Nat}
    (hactive : k.getProcess k.activePid = some i) (hkill : k.killProcess L pid = some k') :
    StopsOnly i k k' ↔ pid = k.activePid := by
  obtain ⟨hlive, hpid⟩ := getProcess_eq_some hactive
  rcases killProcess_spec hkill with ⟨hnone, rfl⟩ | ⟨j, h, r, hj, -, rfl⟩
  · refine ⟨fun hs => absurd hs.stopped hlive, fun he => ?_⟩
    rw [he, hactive] at hnone
    cases hnone
  · have htable : ∀ l, ((k.modify (some j) fun p => {p with status := .stopped}).procTable l).status =
        if j = l then .stopped else (k.procTable l).status := by
      intro l
      rw [modify_procTable]
      by_cases hl : j = l
      · rw [if_pos (congrArg some hl), if_pos hl]
      · rw [if_neg fun he => hl (Option.some.inj he), if_neg hl]
    constructor
    · intro hs
      have hst := (htable i).symm.trans hs.stopped
      by_cases hji : j = i
      · rw [← (getProcess_eq_some hj).2, hji, hpid]
      · rw [if_neg hji] at hst
        exact absurd hst hlive
    · intro he
      rw [he, hactive] at hj
      cases hj
      exact ⟨(htable i).trans (if_pos rfl), fun l hl => (htable l).trans (if_neg hl.symm)⟩

/-- A fault stops the active process, and no other, exactly if its PID is what the
processor pushed last. -/
theorem fault_stops_active_iff {L : Layout} {k : Kernel} {i : Fin maxProcess}
    (hbrk : k.heap.currentBrk < addressSpace) (hactive : k.getProcess k.activePid = some i) (v : Vector)
    (t : State) (cs errorCode ret : Word) (hroom : 20 ≤ (t.reg .esp).toNat) :
    (∃ k', k.unrecoverableError L v t cs errorCode ret = some k' ∧ StopsOnly i k k') ↔
      (v.argument t errorCode).toNat = k.activePid := by
  unfold Kernel.unrecoverableError
  dsimp only
  rw [argument_eq v t k.heap.mem cs errorCode ret hroom]
  generalize ((({t with mem := k.heap.mem} : State).pushWords (v.pushes t cs errorCode)).push ret).mem = m
  obtain ⟨k', hkill⟩ := Kernel.killProcess_returns L {k with heap := ⟨m, k.heap.currentBrk⟩} hbrk
    (v.argument t errorCode).toNat
  have hiff := Kernel.killProcess_stopsOnly_iff (k := {k with heap := ⟨m, k.heap.currentBrk⟩}) hactive hkill
  rw [hkill]
  constructor
  · rintro ⟨k'', he, hs⟩
    cases he
    exact hiff.mp ⟨hs.stopped, hs.others⟩
  · intro he
    have hs := hiff.mpr he
    exact ⟨k', rfl, hs.stopped, hs.others⟩

/-! ### A process beside the backstop -/

/-- Interrupted at `eip`, with the stack pointer there. -/
def interrupted (esp eip : Word) : State :=
  ⟨fun r => if r = .esp then esp else 0#32, .ofWord 0x202#32, eip, Memory.zero⟩

/-- A segment fault whose selector happens to be the PID. -/
theorem fault_stops_active_iff_selector : ∃ k k' : Kernel,
    k.unrecoverableError kernelImage .isr11 (interrupted 0x7000#32 0x200000#32) 8#32 1#32 0x100000#32 = some k' ∧
      StopsOnly 1 k k' := by
  have hexec : (Machine.exec kernelImage ⟨0x100000, 0x100010⟩ Machine.atBoot Machine.startUp).any
      (fun s => s.kernel.heap.currentBrk < addressSpace ∧ s.kernel.activePid = 1 ∧
        s.kernel.getProcess s.kernel.activePid = some 1) = true := by decide +kernel
  obtain ⟨s, -, hs⟩ := (Option.any_eq_true _ _).mp hexec
  obtain ⟨hbrk, hpid, hactive⟩ := of_decide_eq_true hs
  obtain ⟨k', hk⟩ := (fault_stops_active_iff (L := kernelImage) hbrk hactive .isr11
    (interrupted 0x7000#32 0x200000#32) 8#32 1#32 0x100000#32 (by decide)).mpr hpid.symm
  exact ⟨s.kernel, k', hk⟩

/-- A double fault, whose error code is always 0, stops the backstop instead. -/
theorem double_fault_stops_backstop : ∃ (tr : List (Machine × Machine.Event)) (s : Machine) (k' : Kernel),
    Machine.Runs kernelImage ⟨0x100000, 0x100010⟩ tr s ∧
      s.kernel.getProcess s.kernel.activePid = some 1 ∧
      s.kernel.unrecoverableError kernelImage .isr8 (interrupted (BitVec.ofNat 32 s.esp) 0x200000#32) 8#32 0#32
        0x100000#32 = some k' ∧
      ¬ StopsOnly 1 s.kernel k' ∧ (s.kernel.procTable 0).pid = 0 ∧ (k'.procTable 0).status = .stopped := by
  have hexec : (Machine.exec kernelImage ⟨0x100000, 0x100010⟩ Machine.atBoot Machine.startUp).any
      (fun s => s.kernel.getProcess s.kernel.activePid = some 1 ∧ (s.kernel.procTable 0).pid = 0 ∧
        (s.kernel.unrecoverableError kernelImage .isr8 (interrupted (BitVec.ofNat 32 s.esp) 0x200000#32) 8#32 0#32
          0x100000#32).any (fun k' => (k'.procTable 1).status ≠ .stopped ∧ (k'.procTable 0).status = .stopped)) =
      true := by decide +kernel
  obtain ⟨s, hs, hfinal⟩ := (Option.any_eq_true _ _).mp hexec
  obtain ⟨hactive, hpid, hfault⟩ := of_decide_eq_true hfinal
  obtain ⟨k', hk', hstatus⟩ := (Option.any_eq_true _ _).mp hfault
  obtain ⟨hlive, hstopped⟩ := of_decide_eq_true hstatus
  obtain ⟨tr, hrun, -⟩ := Machine.runs_exec (Run.start Machine.booted_atBoot) hs
  exact ⟨tr, s, k', hrun, hactive, hk', fun h => hlive h.stopped, hpid, hstopped⟩

end ShompOS
