import ShompOS.Run
import ShompOS.X86

/-! Context switching is transparent (`context_switch.S`).

`contextSwitch` saves the caller's registers in a frame on the caller's stack and
its stack pointer in the caller's `context_struct`, takes the other stack pointer
and restores from the frame there. Half way through it has clobbered `ebx` and
`ebp`; the pushed copies and the order of the pops make up for that. `Suspended`
says that a process's frame and context are as its last call left them. Only its
own stack and context matter to that, so whatever the others do it stays true
until the process is switched to, and then it continues where it was. -/
namespace ShompOS
namespace ContextSwitch
open X86 Memory

/-- `context_switch` up to where it has the other stack pointer. -/
def save : List Instr :=
  [.pushl .ebp,
    .movl .esp .ebp,
    .pushal,
    .pushfl,
    .load 8#32 .ebp .ebx,
    .store .esp .ebx,
    .load 12#32 .ebp .ebx,
    .load 0#32 .ebx .esp]

/-- The rest of `context_switch`. -/
def restore : List Instr :=
  [.popfl,
    .popal,
    .leave,
    .ret]

/-- `context_switch` -/
def contextSwitch : List Instr := save ++ restore

/-- What a call in the state `c` pushes, in this order. -/
def frameWords (c : State) : List Word :=
  [c.reg .ebp,
    c.reg .eax, c.reg .ecx, c.reg .edx, c.reg .ebx, c.reg .esp - 4#32, c.reg .esp - 4#32, c.reg .esi,
    c.reg .edi,
    c.eflags.bits]

/-- `t` is back from the call made in the state `c`. -/
structure Resumes (c t : State) : Prop where
  reg : ∀ r, r ≠ .esp → t.reg r = c.reg r
  esp : t.reg .esp = c.reg .esp + 4#32
  eflags : t.eflags = c.eflags
  eip : t.eip = c.mem.loadWord (c.reg .esp)

/-! ### The two halves of the routine -/

/-- The last four instructions, in terms of the memory they start with. -/
theorem run_restore (t : State) :
    let s := run t restore
    let esp := t.reg .esp
    let ebp := t.mem.loadWord (esp + 12#32)
    s.reg .edi = t.mem.loadWord (esp + 4#32) ∧ s.reg .esi = t.mem.loadWord (esp + 8#32) ∧
      s.reg .ebx = t.mem.loadWord (esp + 20#32) ∧ s.reg .edx = t.mem.loadWord (esp + 24#32) ∧
      s.reg .ecx = t.mem.loadWord (esp + 28#32) ∧ s.reg .eax = t.mem.loadWord (esp + 32#32) ∧
      s.reg .ebp = t.mem.loadWord ebp ∧ s.reg .esp = ebp + 8#32 ∧
      s.eflags = .ofWord (t.mem.loadWord esp) ∧ s.eip = t.mem.loadWord (ebp + 4#32) := by
  simp [run, restore, Instr.exec, State.pop, State.skip, State.setReg, BitVec.add_assoc]

/-- The first eight instructions, in terms of the memory `m` with the frame pushed. -/
theorem run_save (c : State) :
    let m := (c.pushWords (frameWords c)).mem
    let m' := m.storeWord (m.loadWord (c.reg .esp + 4#32)) (c.reg .esp - 40#32)
    (run c save).mem = m' ∧
      (run c save).reg .esp = m'.loadWord (m'.loadWord (c.reg .esp + 8#32)) := by
  -- `ebp` is one word below the return address, and the frame is ten words
  have hcurrent : c.reg .esp - 4#32 + 8#32 = c.reg .esp + 4#32 := by bv_omega
  have hnext : c.reg .esp - 4#32 + 12#32 = c.reg .esp + 8#32 := by bv_omega
  have hframe : c.reg .esp - 4#32 - 4#32 - 4#32 - 4#32 - 4#32 - 4#32 - 4#32 - 4#32 - 4#32 - 4#32 =
      c.reg .esp - 40#32 := by bv_omega
  simp [run, save, frameWords, Instr.exec, State.pushWords, State.push, State.setReg, Function.update,
    hcurrent, hnext, hframe]

/-! ### Processes -/

/-- Where the processes' stacks and context structs are. -/
structure Tasks (ι : Type) where
  stackBottom : ι → Nat
  stackTop : ι → Nat
  context : ι → Nat
  stack_le : ∀ i, stackTop i ≤ addressSpace
  context_le : ∀ i, context i + 12 ≤ addressSpace
  stacksDisjoint : ∀ i j, i ≠ j → stackTop i ≤ stackBottom j ∨ stackTop j ≤ stackBottom i
  contextsDisjoint : ∀ i j, i ≠ j → context i + 12 ≤ context j ∨ context j + 12 ≤ context i
  apart : ∀ i j, context i + 12 ≤ stackBottom j ∨ stackTop j ≤ context i

variable {ι : Type} (T : Tasks ι)

/-- The bytes `context_switch` and a process itself leave a suspended process. -/
def Tasks.Own (i : ι) (x : Nat) : Prop :=
  (T.stackBottom i ≤ x ∧ x < T.stackTop i) ∨ (T.context i ≤ x ∧ x < T.context i + 12)

structure System (ι : Type) where
  cpu : State
  running : ι

inductive Event (ι : Type)
  /-- The running process does whatever leads to the state `cpu`. -/
  | run (cpu : State)
  /-- It calls `context_switch` with its own context and that of `next`. -/
  | switch (next : ι)

/-- The arguments of the call are on the running process's stack, which has room
for the frame. -/
structure Calls (s : System ι) (next : ι) : Prop where
  room : T.stackBottom s.running + 40 ≤ (s.cpu.reg .esp).toNat
  inside : (s.cpu.reg .esp).toNat + 12 ≤ T.stackTop s.running
  current : (s.cpu.mem.loadWord (s.cpu.reg .esp + 4#32)).toNat = T.context s.running
  next : (s.cpu.mem.loadWord (s.cpu.reg .esp + 8#32)).toNat = T.context next

/-- Between two switches no other process's stack is written, and no context. -/
def Step (s : System ι) (e : Event ι) (s' : System ι) : Prop :=
  match e with
  | .run cpu => s' = {s with cpu := cpu} ∧
      ∀ x, ((∃ i, i ≠ s.running ∧ T.stackBottom i ≤ x ∧ x < T.stackTop i) ∨
        ∃ i, T.context i ≤ x ∧ x < T.context i + 12) → cpu.mem.byte x = s.cpu.mem.byte x
  | .switch next => Calls T s next ∧ s' = ⟨run s.cpu contextSwitch, next⟩

/-- `m` holds what process `i` left when it called `context_switch` in the state `c`. -/
structure Suspended (i : ι) (c : State) (m : Memory) : Prop where
  room : T.stackBottom i + 40 ≤ (c.reg .esp).toNat
  inside : (c.reg .esp).toNat + 12 ≤ T.stackTop i
  context : ∀ a : Word, a.toNat = T.context i → m.loadWord a = c.reg .esp - 40#32
  words : ∀ k (hk : k < (frameWords c).length), ∀ a : Word,
    a.toNat = (c.reg .esp).toNat - 4 * (k + 1) → m.loadWord a = (frameWords c)[k]
  ret : m.loadWord (c.reg .esp) = c.mem.loadWord (c.reg .esp)

variable {T} {s s' : System ι} {i : ι} {c : State} {m m' : Memory}

/-- Only the process's own stack and context matter. -/
theorem Suspended.congr (h : Suspended T i c m) (hm : ∀ x, T.Own i x → m'.byte x = m.byte x) :
    Suspended T i c m' := by
  have hA := addressSpace_eq
  have hroom := h.room
  have hinside := h.inside
  have htop := T.stack_le i
  have hctx := T.context_le i
  refine ⟨h.room, h.inside, fun a ha => ?_, fun k hk a ha => ?_, ?_⟩
  · exact (loadWord_congr (by omega) fun x h1 h2 => hm x (Or.inr (by omega))).trans (h.context a ha)
  · have hk10 : k < 10 := hk
    exact (loadWord_congr (by omega) fun x h1 h2 => hm x (Or.inl (by omega))).trans (h.words k hk a ha)
  · exact (loadWord_congr (by omega) fun x h1 h2 => hm x (Or.inl (by omega))).trans h.ret

/-- Switched to, a suspended process is back from its call. -/
theorem Suspended.resumes (h : Suspended T i c m) {t : State} (ht : t.mem = m)
    (hesp : t.reg .esp = c.reg .esp - 40#32) : Resumes c (run t restore) := by
  have hroom := h.room
  have hword : ∀ k (hk : k < 10), ∀ a : Word,
      a = c.reg .esp - BitVec.ofNat 32 (4 * (k + 1)) → t.mem.loadWord a = (frameWords c).get ⟨k, hk⟩ := by
    intro k hk a ha
    rw [ht]
    apply h.words k hk
    bv_omega
  obtain ⟨hedi, hesi, hebx, hedx, hecx, heax, hebp, hsp, hfl, hip⟩ := run_restore t
  -- the frame pointer of the call stands where `pushal` left it
  have hfp : t.mem.loadWord (t.reg .esp + 12#32) = c.reg .esp - 4#32 :=
    hword 6 (by decide) _ (by rw [hesp]; bv_omega)
  refine ⟨fun r hr => ?_, ?_, ?_, ?_⟩
  · cases r with
    | eax => exact heax.trans (hword 1 (by decide) _ (by rw [hesp]; bv_omega))
    | ecx => exact hecx.trans (hword 2 (by decide) _ (by rw [hesp]; bv_omega))
    | edx => exact hedx.trans (hword 3 (by decide) _ (by rw [hesp]; bv_omega))
    | ebx => exact hebx.trans (hword 4 (by decide) _ (by rw [hesp]; bv_omega))
    | esp => exact absurd rfl hr
    | ebp => exact hebp.trans (hword 0 (by decide) _ hfp)
    | esi => exact hesi.trans (hword 7 (by decide) _ (by rw [hesp]; bv_omega))
    | edi => exact hedi.trans (hword 8 (by decide) _ (by rw [hesp]; bv_omega))
  · rw [hsp, hfp]
    bv_omega
  · have hflags : t.mem.loadWord (t.reg .esp) = c.eflags.bits :=
      hword 9 (by decide) _ hesp
    rw [hfl, hflags, Eflags.ofWord_bits]
  · have hra : t.mem.loadWord (t.reg .esp + 12#32) + 4#32 = c.reg .esp := by
      rw [hfp]
      bv_omega
    rw [hip, hra, ht, h.ret]

/-- Up to where it takes the other stack pointer, the routine writes the frame and
the caller's context, and takes the stack pointer `next` was left with. -/
structure Saved (s : System ι) (next : ι) (t : State) : Prop where
  suspended : Suspended T s.running s.cpu t.mem
  bytes : ∀ x, ¬ T.Own s.running x → t.mem.byte x = s.cpu.mem.byte x
  esp : ∃ a : Word, a.toNat = T.context next ∧ t.reg .esp = t.mem.loadWord a

theorem Calls.saved {next : ι} (h : Calls T s next) : Saved (T := T) s next (run s.cpu save) := by
  have hA := addressSpace_eq
  have hroom := h.room
  have hinside := h.inside
  have htop : T.stackTop s.running ≤ 4294967296 := T.stack_le s.running
  have hctx := T.context_le s.running
  have hapart := T.apart s.running s.running
  obtain ⟨hmem, hesp⟩ := run_save s.cpu
  have hpush := pushWords_pushed (frameWords s.cpu) s.cpu (show 4 * 10 ≤ _ by omega)
  have hpushed : ∀ x, x < (s.cpu.reg .esp).toNat - 40 ∨ (s.cpu.reg .esp).toNat ≤ x →
      (s.cpu.pushWords (frameWords s.cpu)).mem.byte x = s.cpu.mem.byte x := hpush.bytes
  have hwords := hpush.words
  have harg : ∀ d : Word, d = 0#32 ∨ d = 4#32 ∨ d = 8#32 →
      (s.cpu.pushWords (frameWords s.cpu)).mem.loadWord (s.cpu.reg .esp + d) =
        s.cpu.mem.loadWord (s.cpu.reg .esp + d) := by
    intro d hd
    have hd8 : d.toNat ≤ 8 := by rcases hd with rfl | rfl | rfl <;> decide
    have hadd : (s.cpu.reg .esp + d).toNat = (s.cpu.reg .esp).toNat + d.toNat := by bv_omega
    exact loadWord_congr (by omega) fun x h1 _ => hpushed x (by omega)
  revert hmem hesp hpushed hwords harg
  generalize (s.cpu.pushWords (frameWords s.cpu)).mem = m
  intro hmem hesp hpushed hwords harg
  -- the context does not reach into the stack
  have hcurrent : (m.loadWord (s.cpu.reg .esp + 4#32)).toNat = T.context s.running := by
    rw [harg _ (Or.inr (Or.inl rfl)), h.current]
  have hstore : ∀ x, x < T.context s.running ∨ T.context s.running + 4 ≤ x →
      (run s.cpu save).mem.byte x = m.byte x := by
    intro x hx
    rw [hmem]
    exact (spares_store32 (R := fun y => y = x) m _ (by omega) (by omega)).bytes x rfl
  refine ⟨⟨h.room, h.inside, fun a ha => ?_, fun k hk a ha => ?_, ?_⟩, fun x hx => ?_, ?_⟩
  · have hsame : a = m.loadWord (s.cpu.reg .esp + 4#32) := BitVec.eq_of_toNat_eq (ha.trans hcurrent.symm)
    rw [hmem, hsame]
    exact loadWord_storeWord m _ (by omega)
  · have hk10 : k < 10 := hk
    exact (loadWord_congr (by omega) fun x h1 h2 => hstore x (by omega)).trans (hwords k hk a ha)
  · have hret := harg 0#32 (Or.inl rfl)
    rw [BitVec.add_zero] at hret
    exact (loadWord_congr (by omega) fun x h1 h2 => hstore x (by omega)).trans hret
  · unfold Tasks.Own at hx
    exact (hstore x (by omega)).trans (hpushed x (by omega))
  · rw [← hmem] at hesp
    refine ⟨_, ?_, hesp⟩
    have hadd : (s.cpu.reg .esp + 8#32).toNat = (s.cpu.reg .esp).toNat + 8 := by bv_omega
    rw [loadWord_congr (by omega) fun x h1 h2 => hstore x (by omega), harg _ (Or.inr (Or.inr rfl)), h.next]

/-- What is another process's own is not the caller's. -/
theorem Calls.bytes_other {next : ι} (h : Calls T s next) {i : ι} (hi : s.running ≠ i) {x : Nat}
    (hx : T.Own i x) : (run s.cpu save).mem.byte x = s.cpu.mem.byte x := by
  apply h.saved.bytes
  have hs := T.stacksDisjoint s.running i hi
  have hcx := T.contextsDisjoint s.running i hi
  have h1 := T.apart s.running i
  have h2 := T.apart i s.running
  unfold Tasks.Own at hx ⊢
  omega

/-- The last four instructions do not write. -/
theorem run_restore_mem (t : State) : (run t restore).mem = t.mem := rfl

/-! ### Runs -/

section Runs
variable [DecidableEq ι] {tr : List (System ι × Event ι)} {next : ι}

/-- The state in which process `i` last called `context_switch`. -/
def lastCall (i : ι) (tr : List (System ι × Event ι)) : Option State :=
  tr.foldl (fun last x =>
    match x.2 with
    | .run _ => last
    | .switch _ => if x.1.running = i then some x.1.cpu else last) none

theorem lastCall_run (i : ι) (tr : List (System ι × Event ι)) (s : System ι) (cpu : State) :
    lastCall i (tr ++ [(s, .run cpu)]) = lastCall i tr :=
  List.foldl_append

theorem lastCall_switch (i : ι) (tr : List (System ι × Event ι)) (s : System ι) (next : ι) :
    lastCall i (tr ++ [(s, .switch next)]) = if s.running = i then some s.cpu else lastCall i tr :=
  List.foldl_append

/-- Every process that has called `context_switch` and does not run now. -/
def AllSuspended (T : Tasks ι) (tr : List (System ι × Event ι)) (s : System ι) : Prop :=
  ∀ i c, i ≠ s.running → lastCall i tr = some c → Suspended T i c s.cpu.mem

/-- The call suspends the caller and leaves the others as they were. -/
theorem Calls.allSuspended (h : Calls T s next) (hall : AllSuspended T tr s) {i : ι} {c : State}
    (hc : lastCall i (tr ++ [(s, .switch next)]) = some c) : Suspended T i c (run s.cpu save).mem := by
  have hsaved := h.saved
  rw [lastCall_switch] at hc
  by_cases hi : s.running = i
  · rw [if_pos hi] at hc
    cases hi
    cases hc
    exact hsaved.suspended
  · rw [if_neg hi] at hc
    exact (hall i c (Ne.symm hi) hc).congr fun x hx => h.bytes_other hi hx

theorem allSuspended_step {e : Event ι} (hall : AllSuspended T tr s) (h : Step T s e s') :
    AllSuspended T (tr ++ [(s, e)]) s' := by
  intro i c hi hc
  cases e with
  | run cpu =>
    obtain ⟨rfl, hkeep⟩ := h
    rw [lastCall_run] at hc
    apply (hall i c hi hc).congr
    intro x hx
    apply hkeep
    cases hx with
    | inl hx => exact Or.inl ⟨i, hi, hx⟩
    | inr hx => exact Or.inr ⟨i, hx⟩
  | switch next =>
    obtain ⟨hcalls, rfl⟩ := h
    show Suspended T i c (run s.cpu contextSwitch).mem
    rw [contextSwitch, run_append, run_restore_mem]
    exact hcalls.allSuspended hall hc

theorem allSuspended_of_run (h : Run (fun _ => True) (Step T) tr s) : AllSuspended T tr s := by
  induction h with
  | start => exact fun i c _ hc => nomatch hc
  | next _ hstep ih => exact allSuspended_step ih hstep

/-- Whenever a process that has called `context_switch` is switched to, it is back
from its last call. -/
theorem switch_resumes {c : State} (h : Run (fun _ => True) (Step T) (tr ++ [(s, .switch next)]) s')
    (hc : lastCall next (tr ++ [(s, .switch next)]) = some c) : Resumes c s'.cpu := by
  obtain ⟨hrun, hcalls, hs'⟩ := h.last
  have hsusp := hcalls.allSuspended (allSuspended_of_run hrun) hc
  obtain ⟨a, ha, hesp⟩ := hcalls.saved.esp
  have hres := hsusp.resumes rfl (hesp.trans (hsusp.context a ha))
  rw [← run_append] at hres
  rw [hs']
  exact hres

end Runs

/-! ### Two processes -/

/-- Two processes, each with a page of stack. -/
def pages : Tasks Bool where
  stackBottom i := if i then 8192 else 4096
  stackTop i := if i then 12288 else 8192
  context i := if i then 1048 else 1024
  stack_le := by decide
  context_le := by decide
  stacksDisjoint := by decide
  contextsDisjoint := by decide
  apart := by decide

/-- Each stack holds the arguments of a call that switches to the other process. -/
def arguments : Memory :=
  (((Memory.zero.storeWord 8004#32 1024#32).storeWord 8008#32 1048#32).storeWord 12004#32 1048#32).storeWord
    12008#32 1024#32

/-- The first is about to switch to the second. -/
def leaving : System Bool where
  cpu := ⟨fun r => if r = .esp then 8000#32 else 7#32, .ofWord 0x202#32, 0#32, arguments⟩
  running := false

/-- The second is about to switch back. -/
def returning : System Bool where
  cpu := (run leaving.cpu contextSwitch).setReg .esp 12000#32
  running := true

theorem leaving_calls : Calls pages leaving true := by
  refine ⟨?_, ?_, ?_, ?_⟩ <;> decide +kernel

theorem returning_calls : Calls pages returning false := by
  refine ⟨?_, ?_, ?_, ?_⟩ <;> decide +kernel

theorem switch_resumes_returning : Resumes leaving.cpu (run returning.cpu contextSwitch) := by
  have hleft : Run (fun _ => True) (Step pages) ([] ++ [(leaving, .switch true)])
      ⟨run leaving.cpu contextSwitch, true⟩ := (Run.start trivial).next ⟨leaving_calls, rfl⟩
  have hset : Step pages ⟨run leaving.cpu contextSwitch, true⟩ (.run returning.cpu) returning :=
    ⟨rfl, fun _ _ => rfl⟩
  have hback : Step pages returning (.switch false) ⟨run returning.cpu contextSwitch, false⟩ :=
    ⟨returning_calls, rfl⟩
  exact switch_resumes ((hleft.next hset).next hback) rfl

end ContextSwitch
end ShompOS
