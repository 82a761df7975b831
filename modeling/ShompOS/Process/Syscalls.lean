import ShompOS.Processor
import ShompOS.X86

/-! System calls keep the caller's registers (`boot.S`, `mnt/inc/syscalls.S`,
`syscall_table.S`).

`do_syscall` loads the seven words it is given into registers, and
`syscall_handler` pushes six of them again, as the arguments of the function it
takes from the table. Every register it pops afterwards may have been changed in
its argument slot. What holds are the four that `do_syscall` has pushed itself,
above the interrupt frame. -/
namespace ShompOS

namespace X86

/-- Bits that an interrupt gate clears: TF, IF and NT. -/
def gateMask : Word := 0x4300#32

def directionFlag : Word := 0x400#32

/-- The processor with its code segment. -/
structure Cpu extends State where
  cs : BitVec 16

structure Gate where
  selector : BitVec 16
  offset : Word

inductive Op
  | instr (i : Instr)
  | popl (r : Reg)
  | cld
  /-- `leal a, dst` -/
  | leal (a : Word) (dst : Reg)
  /-- `movl (base, index, 4), dst` -/
  | indexed (base index dst : Reg)
  /-- `call *r` -/
  | call (r : Reg)
  | int
  | iret

/-- The operation, in a state whose `eip` is already that of the next one. -/
def Op.exec (g : Gate) (s : Cpu) : Op → Cpu
  | .instr i => {s with toState := i.exec s.toState}
  | .popl r => {s with toState := s.pop r}
  | .cld => {s with eflags := .ofWord (s.eflags.bits &&& ~~~directionFlag)}
  | .leal a dst => {s with toState := s.setReg dst a}
  | .indexed base index dst =>
    {s with toState := s.setReg dst (s.mem.loadWord (s.reg base + 4#32 * s.reg index))}
  | .call r => {s with toState := {s.push s.eip with eip := s.reg r}}
  | .int =>
    { toState := {s.pushWords [s.eflags.bits, s.cs.setWidth 32, s.eip] with
        eflags := .ofWord (s.eflags.bits &&& ~~~gateMask)
        eip := g.offset}
      cs := g.selector }
  | .iret =>
    { toState := {s.skip.skip.skip with
        eip := s.mem.loadWord (s.reg .esp)
        eflags := .ofWord (s.mem.loadWord (s.reg .esp + 8#32))}
      cs := (s.mem.loadWord (s.reg .esp + 4#32)).setWidth 16 }

/-- The operation at an address, and the address after it. -/
abbrev Text := Word → Option (Op × Word)

def processor (g : Gate) : Processor Cpu Op Word where
  exec op s := op.exec g s
  pc s := s.eip
  goto a s := {s with eip := a}
  pc_goto _ _ := rfl
  goto_goto _ _ _ := rfl
  goto_pc _ := rfl

/-- The operations that stand one after the other from an address on. -/
abbrev Text.Stands (text : Text) : Word → List Op → Prop := Processor.Stands text

abbrev Text.Step (text : Text) (g : Gate) : Cpu → Cpu → Prop := (processor g).Step text

abbrev Text.Steps (text : Text) (g : Gate) : Cpu → Cpu → Prop := (processor g).Steps text

/-- Goes on with the next operation. -/
def Op.Straight : Op → Prop
  | .instr .ret => False
  | .call _ => False
  | .int => False
  | .iret => False
  | _ => True

instance : DecidablePred Op.Straight := fun op => by
  unfold Op.Straight
  split <;> infer_instance

/-- The operations on everything but `eip`. -/
abbrev runOps (g : Gate) (s : Cpu) (ops : List Op) : Cpu := (processor g).runOps s ops

theorem pushWords_eip (s : State) (b : Word) (ws : List Word) :
    ({s with eip := b} : State).pushWords ws = {s.pushWords ws with eip := b} := by
  induction ws generalizing s with
  | nil => rfl
  | cons w ws ih => exact ih (s.push w)

theorem pop_eip (s : State) (b : Word) (r : Reg) : ({s with eip := b} : State).pop r = {s.pop r with eip := b} := rfl

theorem skip_eip (s : State) (b : Word) : ({s with eip := b} : State).skip = {s.skip with eip := b} := rfl

theorem Op.Straight.exec_eip {op : Op} (h : op.Straight) (g : Gate) (s : Cpu) (b : Word) :
    op.exec g {s with eip := b} = {op.exec g s with eip := b} := by
  cases op with
  | instr i =>
    cases i with
    | ret => exact absurd h not_false
    | pushal =>
      unfold exec Instr.exec
      dsimp only
      rw [pushWords_eip]
    | popal =>
      unfold exec Instr.exec
      simp only [pop_eip, skip_eip]
    | _ => rfl
  | call r => exact absurd h not_false
  | int => exact absurd h not_false
  | iret => exact absurd h not_false
  | _ => rfl

/-- Straight code runs to its end. -/
theorem steps_straight {text : Text} (g : Gate) {ops rest : List Op} (h : ∀ op ∈ ops, op.Straight) {a : Word}
    (htext : text.Stands a (ops ++ rest)) (s : Cpu) :
    ∃ b, text.Stands b rest ∧ text.Steps g {s with eip := a} {runOps g s ops with eip := b} :=
  Processor.steps_straight (fun op hop b t => (h op hop).exec_eip g t b) htext s

/-- What pushes leave depends on the memory and the stack pointer only. -/
theorem pushWords_congr {s t : State} (hmem : s.mem = t.mem) (hesp : s.reg .esp = t.reg .esp) (ws : List Word) :
    (s.pushWords ws).mem = (t.pushWords ws).mem ∧ (s.pushWords ws).reg .esp = (t.pushWords ws).reg .esp := by
  induction ws generalizing s t with
  | nil => exact ⟨hmem, hesp⟩
  | cons w ws ih =>
    apply ih
    · show s.mem.storeWord (s.reg .esp - 4#32) w = t.mem.storeWord (t.reg .esp - 4#32) w
      rw [hmem, hesp]
    · rw [push_esp, push_esp, hesp]

/-- `t` has the words `ws` on the stack of `s`, and its registers may be others. -/
structure HasPushed (s : State) (ws : List Word) (t : State) : Prop where
  mem : t.mem = (s.pushWords ws).mem
  esp : t.reg .esp = (s.pushWords ws).reg .esp

theorem HasPushed.trans {s t u : State} {ws ws' : List Word} (h : HasPushed s ws t) (h' : HasPushed t ws' u) :
    HasPushed s (ws ++ ws') u := by
  obtain ⟨hmem, hesp⟩ := pushWords_congr h.mem h.esp ws'
  unfold State.pushWords at hmem hesp
  constructor
  · rw [State.pushWords, List.foldl_append, ← hmem, h'.mem, State.pushWords]
  · rw [State.pushWords, List.foldl_append, ← hesp, h'.esp, State.pushWords]

/-- Words outside what was pushed are as they were. -/
theorem HasPushed.outside {s t : State} {ws : List Word} (h : HasPushed s ws t) {a : Word}
    (ha : a.toNat + 4 ≤ addressSpace)
    (hroom : 4 * ws.length ≤ (s.reg .esp).toNat)
    (hout : a.toNat + 4 ≤ (s.reg .esp).toNat - 4 * ws.length ∨ (s.reg .esp).toNat ≤ a.toNat) :
    t.mem.loadWord a = s.mem.loadWord a := by
  rw [h.mem]
  exact Memory.loadWord_congr ha fun x h1 h2 => (pushWords_pushed ws s hroom).bytes x (by omega)

/-- The words are found in the order they were pushed in, going down. -/
theorem HasPushed.words {s t : State} {ws : List Word} (h : HasPushed s ws t)
    (hroom : 4 * ws.length ≤ (s.reg .esp).toNat)
    {i : Nat} (hi : i < ws.length) {a : Word} (ha : a.toNat = (s.reg .esp).toNat - 4 * (i + 1)) :
    t.mem.loadWord a = ws[i] := by
  rw [h.mem]
  exact (pushWords_pushed ws s hroom).words i hi a ha

end X86

namespace Syscall
open X86 Memory

/-- `do_syscall` up to the interrupt -/
def request : List Op :=
  [.instr (.pushl .ebp),
    .instr (.pushl .edi),
    .instr (.pushl .esi),
    .instr (.pushl .ebx),
    .instr (.load 20#32 .esp .eax),
    .instr (.load 24#32 .esp .ebx),
    .instr (.load 28#32 .esp .ecx),
    .instr (.load 32#32 .esp .edx),
    .instr (.load 36#32 .esp .esi),
    .instr (.load 40#32 .esp .edi),
    .instr (.load 44#32 .esp .ebp)]

/-- The rest of `do_syscall`, but for its `ret`. -/
def answer : List Op :=
  [.popl .ebx,
    .popl .esi,
    .popl .edi,
    .popl .ebp]

def doSyscall : List Op := request ++ .int :: (answer ++ [.instr .ret])

/-- `syscall_handler` up to the call -/
def dispatch (sysTable : Word) : List Op :=
  [.instr .pushfl,
    .cld,
    .instr (.pushl .ebp),
    .instr (.pushl .edi),
    .instr (.pushl .esi),
    .instr (.pushl .edx),
    .instr (.pushl .ecx),
    .instr (.pushl .ebx),
    .leal sysTable .ebx,
    .indexed .ebx .eax .eax]

/-- The rest of `syscall_handler`, but for its `iret`. -/
def unwind : List Op :=
  [.popl .ebx,
    .popl .ecx,
    .popl .edx,
    .popl .esi,
    .popl .edi,
    .popl .ebp,
    .instr .popfl]

def syscallHandler (sysTable : Word) : List Op := dispatch sysTable ++ .call .eax :: (unwind ++ [.iret])

/-- The words of `sys_table`. -/
def entries : Nat := 384

/-- Where the two routines and the table are. -/
structure Image where
  text : Text
  gate : Gate
  doSyscall : Word
  sysTable : Word
  doSyscall_stands : text.Stands doSyscall Syscall.doSyscall
  syscallHandler_stands : text.Stands gate.offset (syscallHandler sysTable)

/-! ### The four pieces of straight code -/

variable (g : Gate)

theorem run_request (s : Cpu) :
    let t := runOps g s request
    let m := (s.pushWords [s.reg .ebp, s.reg .edi, s.reg .esi, s.reg .ebx]).mem
    HasPushed s.toState [s.reg .ebp, s.reg .edi, s.reg .esi, s.reg .ebx] t.toState ∧
      t.reg .eax = m.loadWord (s.reg .esp + 4#32) ∧ t.reg .ebx = m.loadWord (s.reg .esp + 8#32) ∧
      t.reg .ecx = m.loadWord (s.reg .esp + 12#32) ∧ t.reg .edx = m.loadWord (s.reg .esp + 16#32) ∧
      t.reg .esi = m.loadWord (s.reg .esp + 20#32) ∧ t.reg .edi = m.loadWord (s.reg .esp + 24#32) ∧
      t.reg .ebp = m.loadWord (s.reg .esp + 28#32) ∧ t.eflags = s.eflags ∧ t.cs = s.cs := by
  -- four words lie below the return address
  have hesp : s.reg .esp - 4#32 - 4#32 - 4#32 - 4#32 = s.reg .esp - 16#32 := by bv_omega
  have hadd : ∀ k l : Word, l = 16#32 + k → s.reg .esp - 16#32 + l = s.reg .esp + k := fun k l h => by
    rw [h]
    bv_omega
  refine ⟨⟨rfl, rfl⟩, ?_⟩
  simp [runOps, Processor.runOps, processor, request, Op.exec, Instr.exec, State.pushWords, State.push, State.setReg,
    Function.update, hesp, hadd 4#32 20#32 rfl, hadd 8#32 24#32 rfl, hadd 12#32 28#32 rfl, hadd 16#32 32#32 rfl,
    hadd 20#32 36#32 rfl, hadd 24#32 40#32 rfl, hadd 28#32 44#32 rfl]

theorem run_dispatch (sysTable : Word) (s : Cpu) :
    let t := runOps g s (dispatch sysTable)
    HasPushed s.toState [s.eflags.bits, s.reg .ebp, s.reg .edi, s.reg .esi, s.reg .edx, s.reg .ecx,
      s.reg .ebx] t.toState ∧
      t.reg .eax = t.mem.loadWord (sysTable + 4#32 * s.reg .eax) := by
  refine ⟨⟨?_, ?_⟩, ?_⟩ <;>
    simp [runOps, Processor.runOps, processor, dispatch, Op.exec, Instr.exec, State.pushWords, State.push,
      State.setReg, Function.update]

theorem run_unwind (s : Cpu) :
    let t := runOps g s unwind
    t.mem = s.mem ∧ t.reg .esp = s.reg .esp + 28#32 ∧ t.reg .eax = s.reg .eax := by
  simp [runOps, Processor.runOps, processor, unwind, Op.exec, Instr.exec, State.pop, State.skip, State.setReg,
    BitVec.add_assoc]

theorem exec_iret (s : Cpu) :
    let t := Op.iret.exec g s
    t.mem = s.mem ∧ t.reg .esp = s.reg .esp + 12#32 ∧ t.reg .eax = s.reg .eax ∧
      t.eip = s.mem.loadWord (s.reg .esp) ∧ t.cs = (s.mem.loadWord (s.reg .esp + 4#32)).setWidth 16 ∧
      t.eflags = .ofWord (s.mem.loadWord (s.reg .esp + 8#32)) := by
  simp [Op.exec, State.skip, State.setReg, BitVec.add_assoc]

theorem run_answer (s : Cpu) :
    let t := runOps g s answer
    t.mem = s.mem ∧ t.reg .esp = s.reg .esp + 16#32 ∧ t.reg .eax = s.reg .eax ∧
      t.reg .ebx = s.mem.loadWord (s.reg .esp) ∧ t.reg .esi = s.mem.loadWord (s.reg .esp + 4#32) ∧
      t.reg .edi = s.mem.loadWord (s.reg .esp + 8#32) ∧ t.reg .ebp = s.mem.loadWord (s.reg .esp + 12#32) ∧
      t.eflags = s.eflags ∧ t.cs = s.cs := by
  simp [runOps, Processor.runOps, processor, answer, Op.exec, State.pop, State.skip, State.setReg, BitVec.add_assoc]

/-! ### The call and the return -/

/-- `do_syscall(n, ..)` has just been called. The stack has room for the frames of
the two routines, which do not reach the table. -/
structure Image.Calls (I : Image) (caller : Cpu) (n : Word) (args : List Word) : Prop where
  eip : caller.eip = I.doSyscall
  room : 60 ≤ (caller.reg .esp).toNat
  inside : (caller.reg .esp).toNat + 4 * (args.length + 2) ≤ addressSpace
  number : caller.mem.loadWord (caller.reg .esp + 4#32) = n
  arguments : ∀ i (hi : i < args.length),
    caller.mem.loadWord (caller.reg .esp + BitVec.ofNat 32 (4 * (i + 2))) = args[i]
  entry : n.toNat < entries
  table : I.sysTable.toNat + 4 * entries ≤ addressSpace
  apart : I.sysTable.toNat + 4 * entries ≤ (caller.reg .esp).toNat - 60 ∨
    (caller.reg .esp).toNat ≤ I.sysTable.toNat

/-- The function called in the state `e` has returned in the state `t`. The stack
from its six argument slots up to `top` is not its own. -/
structure Cdecl (top : Nat) (e t : Cpu) : Prop where
  eip : t.eip = e.mem.loadWord (e.reg .esp)
  esp : t.reg .esp = e.reg .esp + 4#32
  saved : ∀ r ∈ [Reg.ebx, .esi, .edi, .ebp], t.reg r = e.reg r
  bytes : ∀ x, (e.reg .esp).toNat + 28 ≤ x → x < top → t.mem.byte x = e.mem.byte x

/-- `r` is back from the call of `do_syscall` in the state `caller`, with what the
function left in the state `t`. -/
structure Returned (caller t r : Cpu) : Prop where
  eip : r.eip = caller.mem.loadWord (caller.reg .esp)
  esp : r.reg .esp = caller.reg .esp + 4#32
  saved : ∀ q ∈ [Reg.ebx, .esi, .edi, .ebp], r.reg q = caller.reg q
  eax : r.reg .eax = t.reg .eax
  mem : r.mem = t.mem
  eflags : r.eflags = caller.eflags
  cs : r.cs = caller.cs

variable {I : Image} {caller e t : Cpu} {n b c d s di bp afterInt flags afterCall : Word} {args : List Word}

/-- What is on the stack when the interrupt is taken. -/
def trapFrame (caller : Cpu) (afterInt : Word) : List Word :=
  [caller.reg .ebp, caller.reg .edi, caller.reg .esi, caller.reg .ebx, caller.eflags.bits,
    caller.cs.setWidth 32, afterInt]

/-- What is on the stack when the function is called. -/
def frame (caller : Cpu) (args : List Word) (afterInt flags afterCall : Word) : List Word :=
  trapFrame caller afterInt ++ (flags :: args.reverse) ++ [afterCall]

/-- In the state `e` the interrupt has been taken. -/
structure Image.Trapped (I : Image) (caller : Cpu) (n : Word) (args : List Word) (afterInt : Word)
    (e : Cpu) : Prop where
  steps : I.text.Steps I.gate caller e
  eip : e.eip = I.gate.offset
  pushed : HasPushed caller.toState (trapFrame caller afterInt) e.toState
  number : e.reg .eax = n
  registers : [Reg.ebx, .ecx, .edx, .esi, .edi, .ebp].map e.reg = args
  answer : I.text.Stands afterInt (answer ++ [.instr .ret])

/-- In the state `e` the function is called. -/
structure Image.Entered (I : Image) (caller : Cpu) (args : List Word) (afterInt flags afterCall : Word)
    (e : Cpu) : Prop where
  steps : I.text.Steps I.gate caller e
  pushed : HasPushed caller.toState (frame caller args afterInt flags afterCall) e.toState
  answer : I.text.Stands afterInt (answer ++ [.instr .ret])
  unwind : I.text.Stands afterCall (unwind ++ [.iret])

/-- The words are read above the four that were pushed. -/
theorem Image.Calls.request (h : I.Calls caller n [b, c, d, s, di, bp]) :
    let t := runOps I.gate caller request
    HasPushed caller.toState [caller.reg .ebp, caller.reg .edi, caller.reg .esi, caller.reg .ebx] t.toState ∧
      t.reg .eax = n ∧ [Reg.ebx, .ecx, .edx, .esi, .edi, .ebp].map t.reg = [b, c, d, s, di, bp] ∧
      t.eflags = caller.eflags ∧ t.cs = caller.cs := by
  have hroom := h.room
  have hinside : (caller.reg .esp).toNat + 32 ≤ addressSpace := h.inside
  obtain ⟨hpush, heax, hebx, hecx, hedx, hesi, hedi, hebp, hflags, hcs⟩ := run_request I.gate caller
  have harg : ∀ k : Nat, k < 8 →
      (caller.pushWords [caller.reg .ebp, caller.reg .edi, caller.reg .esi, caller.reg .ebx]).mem.loadWord
        (caller.reg .esp + BitVec.ofNat 32 (4 * k)) =
          caller.mem.loadWord (caller.reg .esp + BitVec.ofNat 32 (4 * k)) := by
    intro k hk
    have hadd : (caller.reg .esp + BitVec.ofNat 32 (4 * k)).toNat = (caller.reg .esp).toNat + 4 * k := by
      have hA := addressSpace_eq
      rw [BitVec.toNat_add, BitVec.toNat_ofNat]
      omega
    rw [← hpush.mem]
    exact hpush.outside (by omega) (show 4 * 4 ≤ _ by omega) (by omega)
  refine ⟨hpush, heax.trans ((harg 1 (by decide)).trans h.number), ?_, hflags, hcs⟩
  simp only [List.map_cons, List.map_nil]
  rw [hebx.trans ((harg 2 (by decide)).trans (h.arguments 0 (show 0 < 6 by decide))),
    hecx.trans ((harg 3 (by decide)).trans (h.arguments 1 (show 1 < 6 by decide))),
    hedx.trans ((harg 4 (by decide)).trans (h.arguments 2 (show 2 < 6 by decide))),
    hesi.trans ((harg 5 (by decide)).trans (h.arguments 3 (show 3 < 6 by decide))),
    hedi.trans ((harg 6 (by decide)).trans (h.arguments 4 (show 4 < 6 by decide))),
    hebp.trans ((harg 7 (by decide)).trans (h.arguments 5 (show 5 < 6 by decide)))]
  rfl

theorem Image.Calls.trapped (h : I.Calls caller n [b, c, d, s, di, bp]) :
    ∃ afterInt e, I.Trapped caller n [b, c, d, s, di, bp] afterInt e := by
  have hself : {caller with eip := I.doSyscall} = caller := by
    rw [← h.eip]
  obtain ⟨a, ⟨afterInt, hint, hanswer⟩, hsteps⟩ := steps_straight I.gate (by decide) I.doSyscall_stands caller
  obtain ⟨hpush, hnum, hregs, hflags, hcs⟩ := h.request
  rw [hself] at hsteps
  generalize runOps I.gate caller Syscall.request = t at *
  have hstep : I.text.Step I.gate {t with eip := a} (Op.int.exec I.gate {t with eip := afterInt}) :=
    ⟨.int, afterInt, hint, rfl⟩
  have hint : HasPushed t.toState [caller.eflags.bits, caller.cs.setWidth 32, afterInt]
      (Op.int.exec I.gate {t with eip := afterInt}).toState := by
    rw [← hflags, ← hcs]
    exact ⟨rfl, rfl⟩
  exact ⟨afterInt, _, hsteps.tail hstep, rfl, hpush.trans hint, hnum, hregs, hanswer⟩

theorem dispatch_straight (sysTable : Word) : ∀ op ∈ dispatch sysTable, op.Straight := by
  simp [dispatch, Op.Straight]

/-- The function is the one in the table, which is above or below what was pushed. -/
theorem Image.Trapped.entered (h : I.Calls caller n [b, c, d, s, di, bp])
    (ht : I.Trapped caller n [b, c, d, s, di, bp] afterInt t) :
    ∃ flags afterCall e, I.Entered caller [b, c, d, s, di, bp] afterInt flags afterCall e ∧
      e.eip = caller.mem.loadWord (I.sysTable + 4#32 * n) := by
  have hself : {t with eip := I.gate.offset} = t := by
    rw [← ht.eip]
  obtain ⟨a, ⟨afterCall, hcall, hunwind⟩, hsteps⟩ :=
    steps_straight I.gate (dispatch_straight I.sysTable) I.syscallHandler_stands t
  obtain ⟨hpush, hentry⟩ := run_dispatch I.gate I.sysTable t
  rw [hself] at hsteps
  rw [ht.number] at hentry
  have hwords : [t.eflags.bits, t.reg .ebp, t.reg .edi, t.reg .esi, t.reg .edx, t.reg .ecx, t.reg .ebx] =
      t.eflags.bits :: [b, c, d, s, di, bp].reverse := by
    rw [← ht.registers]
    rfl
  rw [hwords] at hpush
  generalize runOps I.gate t (dispatch I.sysTable) = u at *
  have hstep : I.text.Step I.gate {u with eip := a} ((Op.call .eax).exec I.gate {u with eip := afterCall}) :=
    ⟨.call .eax, afterCall, hcall, rfl⟩
  have hpushed := ht.pushed.trans hpush
  refine ⟨t.eflags.bits, afterCall, _, ⟨(ht.steps.trans hsteps).tail hstep, ?_, ht.answer, hunwind⟩, ?_⟩
  · exact hpushed.trans ⟨rfl, rfl⟩
  · show u.reg .eax = _
    have hroom := h.room
    have hnum : n.toNat < 384 := h.entry
    have htable : I.sysTable.toNat + 4 * 384 ≤ addressSpace := h.table
    have hapart : I.sysTable.toNat + 4 * 384 ≤ (caller.reg .esp).toNat - 60 ∨
      (caller.reg .esp).toNat ≤ I.sysTable.toNat := h.apart
    have hindex : (I.sysTable + 4#32 * n).toNat = I.sysTable.toNat + 4 * n.toNat := by
      have hA := addressSpace_eq
      rw [BitVec.toNat_add, BitVec.toNat_mul, BitVec.toNat_ofNat]
      omega
    rw [hentry]
    have hlen : (trapFrame caller afterInt ++ t.eflags.bits :: [b, c, d, s, di, bp].reverse).length = 14 := rfl
    exact hpushed.outside (by omega) (by omega) (by omega)

/-- What the function leaves of the frame: the words above its arguments. -/
structure Left (caller : Cpu) (afterInt : Word) (m : Memory) : Prop where
  words : ∀ i (hi : i < (trapFrame caller afterInt).length), ∀ a : Word, a.toNat =
    (caller.reg .esp).toNat - 4 * (i + 1) →
    m.loadWord a = (trapFrame caller afterInt)[i]
  ret : m.loadWord (caller.reg .esp) = caller.mem.loadWord (caller.reg .esp)

theorem Image.Entered.esp (h : I.Calls caller n [b, c, d, s, di, bp])
    (he : I.Entered caller [b, c, d, s, di, bp] afterInt flags afterCall e) :
    (e.reg .esp).toNat = (caller.reg .esp).toNat - 60 := by
  have hroom := h.room
  have hlen : (frame caller [b, c, d, s, di, bp] afterInt flags afterCall).length = 15 := rfl
  rw [he.pushed.esp, (pushWords_pushed _ _ (show 4 * 15 ≤ _ by omega)).esp, hlen]

/-- The words stand on the stack as a C function expects its arguments. -/
theorem Image.Entered.arguments (h : I.Calls caller n [b, c, d, s, di, bp])
    (he : I.Entered caller [b, c, d, s, di, bp] afterInt flags afterCall e) (i : Fin 6) :
    e.mem.loadWord (e.reg .esp + BitVec.ofNat 32 (4 * (i + 1))) = [b, c, d, s, di, bp].get i := by
  have hroom := h.room
  have hesp := he.esp h
  have hlen : (frame caller [b, c, d, s, di, bp] afterInt flags afterCall).length = 15 := rfl
  have hi := i.isLt
  rw [he.pushed.words (i := 13 - i) (by omega) (by omega) (by bv_omega)]
  match i with
  | 0 => rfl
  | 1 => rfl
  | 2 => rfl
  | 3 => rfl
  | 4 => rfl
  | 5 => rfl

theorem Image.Entered.left (h : I.Calls caller n [b, c, d, s, di, bp])
    (he : I.Entered caller [b, c, d, s, di, bp] afterInt flags afterCall e)
    (ht : Cdecl ((caller.reg .esp).toNat + 4) e t) : Left caller afterInt t.mem ∧ t.eip = afterCall ∧
      t.reg .esp = caller.reg .esp - 56#32 := by
  have hA := addressSpace_eq
  have hroom := h.room
  have hinside : (caller.reg .esp).toNat + 32 ≤ addressSpace := h.inside
  have hlen : (frame caller [b, c, d, s, di, bp] afterInt flags afterCall).length = 15 := rfl
  have hesp := he.esp h
  have hkeep : ∀ a : Word, (caller.reg .esp).toNat - 32 ≤ a.toNat → a.toNat + 4 ≤ (caller.reg .esp).toNat + 4 →
      t.mem.loadWord a = e.mem.loadWord a := by
    intro a h1 h2
    exact loadWord_congr (by omega) fun x hx1 hx2 => ht.bytes x (by omega) (by omega)
  refine ⟨⟨fun i hi a ha => ?_, ?_⟩, ?_, ?_⟩
  · have hi7 : i < 7 := hi
    rw [hkeep a (by omega) (by omega), he.pushed.words (by omega) (by omega) ha]
    exact List.getElem_append_left hi
  · rw [hkeep _ (by omega) (by omega)]
    exact he.pushed.outside (by omega) (by omega) (Or.inr (Nat.le_refl _))
  · have hlast : e.mem.loadWord (e.reg .esp) = (frame caller [b, c, d, s, di, bp] afterInt flags afterCall)[14] :=
      he.pushed.words (by omega) (by omega) (by omega)
    exact ht.eip.trans hlast
  · rw [ht.esp]
    apply BitVec.eq_of_toNat_eq
    bv_omega

theorem Left.word {m : Memory} (hroom : 60 ≤ (caller.reg .esp).toNat) (hl : Left caller afterInt m)
    {i : Nat} (hi : i < 7) {a : Word}
    (ha : a = caller.reg .esp - BitVec.ofNat 32 (4 * (i + 1))) : m.loadWord a =
      (trapFrame caller afterInt).get ⟨i, hi⟩ := by
  apply hl.words i hi
  bv_omega

/-- Back after the interrupt, with the flags and the segment of the caller. -/
structure Resumed (caller : Cpu) (afterInt : Word) (t v : Cpu) : Prop where
  eip : v.eip = afterInt
  esp : v.reg .esp = caller.reg .esp - 16#32
  eax : v.reg .eax = t.reg .eax
  mem : v.mem = t.mem
  eflags : v.eflags = caller.eflags
  cs : v.cs = caller.cs

/-- Of what `syscall_handler` pops, the registers do not matter. -/
theorem Left.unwinds (hroom : 60 ≤ (caller.reg .esp).toNat) (hl : Left caller afterInt t.mem)
    (hunwind : I.text.Stands t.eip (unwind ++ [.iret])) (hesp : t.reg .esp = caller.reg .esp - 56#32) :
    ∃ v, I.text.Steps I.gate t v ∧ Resumed caller afterInt t v := by
  obtain ⟨a, ⟨a', hiret, -⟩, hsteps⟩ := steps_straight I.gate (by decide) hunwind t
  obtain ⟨humem, huesp, hueax⟩ := run_unwind I.gate t
  generalize runOps I.gate t unwind = u at *
  have hstep : I.text.Step I.gate {u with eip := a} (Op.iret.exec I.gate {u with eip := a'}) := ⟨.iret, a', hiret, rfl⟩
  obtain ⟨hmem, hvesp, heax, heip, hcs, hflags⟩ := exec_iret I.gate {u with eip := a'}
  have huesp' : u.reg .esp = caller.reg .esp - 28#32 := by
    rw [huesp, hesp]
    bv_omega
  have hword5 : u.reg .esp + 4#32 = caller.reg .esp - BitVec.ofNat 32 (4 * (5 + 1)) := by
    rw [huesp']
    bv_omega
  have hword4 : u.reg .esp + 8#32 = caller.reg .esp - BitVec.ofNat 32 (4 * (4 + 1)) := by
    rw [huesp']
    bv_omega
  refine ⟨_, hsteps.tail hstep, ?_, ?_, heax.trans hueax, hmem.trans humem, ?_, ?_⟩
  · rw [heip]
    dsimp only
    rw [humem]
    exact hl.word hroom (show 6 < 7 by decide) huesp'
  · rw [hvesp]
    dsimp only
    rw [huesp']
    bv_omega
  · rw [hflags]
    dsimp only
    rw [humem, hl.word hroom (show 4 < 7 by decide) hword4]
    exact Eflags.ofWord_bits caller.eflags
  · rw [hcs]
    dsimp only
    rw [humem, hl.word hroom (show 5 < 7 by decide) hword5]
    show (caller.cs.setWidth 32).setWidth 16 = caller.cs
    simp

/-- `do_syscall` restores the registers from its own copies. -/
theorem Resumed.returns {v : Cpu} (hroom : 60 ≤ (caller.reg .esp).toNat) (hl : Left caller afterInt t.mem)
    (hv : Resumed caller afterInt t v) (hanswer : I.text.Stands afterInt (answer ++ [.instr .ret])) :
    ∃ r, I.text.Steps I.gate v r ∧ Returned caller t r := by
  rw [← hv.eip] at hanswer
  obtain ⟨a, ⟨a', hret, -⟩, hsteps⟩ := steps_straight I.gate (by decide) hanswer v
  obtain ⟨hmem, hesp, heax, hebx, hesi, hedi, hebp, hflags, hcs⟩ := run_answer I.gate v
  generalize runOps I.gate v answer = w at *
  have hstep : I.text.Step I.gate {w with eip := a} ((Op.instr .ret).exec I.gate {w with eip := a'}) :=
    ⟨.instr .ret, a', hret, rfl⟩
  have hesp' : w.reg .esp = caller.reg .esp := by
    rw [hesp, hv.esp]
    bv_omega
  rw [hv.mem] at hebx hesi hedi hebp hmem
  have hreg : ∀ r, r ≠ .esp → ((Op.instr .ret).exec I.gate {w with eip := a'}).reg r = w.reg r := fun r hr =>
    setReg_ne w.toState _ hr
  have haddr : ∀ (k : Nat) (d : Word), k < 4 → d = BitVec.ofNat 32 (4 * (3 - k)) →
      v.reg .esp + d = caller.reg .esp - BitVec.ofNat 32 (4 * (k + 1)) := by
    intro k d hk hd
    rw [hd, hv.esp]
    bv_omega
  refine ⟨_, hsteps.tail hstep, ?_, ?_, ?_, ?_, hmem, hflags.trans hv.eflags, hcs.trans hv.cs⟩
  · show w.mem.loadWord (w.reg .esp) = _
    rw [hmem, hesp', hl.ret]
  · show (w.toState.skip).reg .esp = _
    rw [State.skip, setReg_same, hesp']
  · intro q hq
    simp only [List.mem_cons, List.not_mem_nil, or_false] at hq
    obtain rfl | rfl | rfl | rfl := hq
    · rw [hreg .ebx nofun, hebx]
      exact hl.word hroom (show 3 < 7 by decide) hv.esp
    · rw [hreg .esi nofun, hesi]
      exact hl.word hroom (show 2 < 7 by decide) (haddr 2 _ (by decide) rfl)
    · rw [hreg .edi nofun, hedi]
      exact hl.word hroom (show 1 < 7 by decide) (haddr 1 _ (by decide) rfl)
    · rw [hreg .ebp nofun, hebp]
      exact hl.word hroom (show 0 < 7 by decide) (haddr 0 _ (by decide) rfl)
  · rw [hreg .eax nofun, heax, hv.eax]

/-- The function in the table is called with the six words, and when it has
returned so does `do_syscall`, with what it left in `eax` and the caller's registers. -/
theorem syscall_calls_and_returns (h : I.Calls caller n [b, c, d, s, di, bp]) :
    ∃ e, I.text.Steps I.gate caller e ∧ e.eip = caller.mem.loadWord (I.sysTable + 4#32 * n) ∧
      (∀ i : Fin 6, e.mem.loadWord (e.reg .esp + BitVec.ofNat 32 (4 * (i + 1))) = [b, c, d, s, di, bp].get i) ∧
      ∀ t, Cdecl ((caller.reg .esp).toNat + 4) e t → ∃ r, I.text.Steps I.gate t r ∧ Returned caller t r := by
  obtain ⟨afterInt, u, hu⟩ := h.trapped
  obtain ⟨flags, afterCall, e, he, heip⟩ := hu.entered h
  have hroom := h.room
  refine ⟨e, he.steps, heip, he.arguments h, fun t ht => ?_⟩
  obtain ⟨hl, heip, hesp⟩ := he.left h ht
  obtain ⟨v, hv, hres⟩ := hl.unwinds h.room (heip ▸ he.unwind) hesp
  obtain ⟨r, hr, hret⟩ := hres.returns h.room hl he.answer
  exact ⟨r, hv.trans hr, hret⟩

/-! ### One call -/

/-- The operations one byte after the other from an address on. -/
def listing (base : Word) (ops : List Op) : Text := fun a =>
  (ops[(a - base).toNat]?).map fun op => (op, a + 1#32)

/-- The two routines and a table. -/
def linked : Image where
  text a := if a.toNat < 0x2000 then listing 0x1000#32 doSyscall a else listing 0x2000#32 (syscallHandler 0x3000#32) a
  gate := ⟨8#16, 0x2000#32⟩
  doSyscall := 0x1000#32
  sysTable := 0x3000#32
  doSyscall_stands := by
    repeat' (first | exact trivial | refine Exists.intro _ ⟨rfl, ?_⟩)
  syscallHandler_stands := by
    repeat' (first | exact trivial | refine Exists.intro _ ⟨rfl, ?_⟩)

/-- `exit(7)`, with the function of the first entry at `0x4000`. -/
def exiting : Cpu where
  reg r := if r = .esp then 0x8000#32 else 5#32
  eflags := .ofWord 0x202#32
  eip := 0x1000#32
  mem := ((Memory.zero.storeWord 0x3004#32 0x4000#32).storeWord 0x8004#32 1#32).storeWord 0x8008#32 7#32
  cs := 8#16

theorem exiting_calls : linked.Calls exiting 1#32 [7#32, 0#32, 0#32, 0#32, 0#32, 0#32] := by
  refine ⟨rfl, ?_, ?_, ?_, ?_, ?_, ?_, ?_⟩ <;> decide +kernel

theorem syscall_returns_exit : ∃ e t r, e.eip = 0x4000#32 ∧ Cdecl 0x8004 e t ∧ t.reg .eax = 9#32 ∧
    linked.text.Steps linked.gate t r ∧ Returned exiting t r := by
  obtain ⟨e, -, heip, -, hret⟩ := syscall_calls_and_returns exiting_calls
  have hentry : exiting.mem.loadWord (linked.sysTable + 4#32 * 1#32) = 0x4000#32 := by decide +kernel
  have ht : Cdecl 0x8004 e {e with toState := (Instr.ret.exec e.toState).setReg .eax 9#32} := by
    refine ⟨rfl, rfl, fun r hr => ?_, fun _ _ _ => rfl⟩
    simp only [List.mem_cons, List.not_mem_nil, or_false] at hr
    obtain rfl | rfl | rfl | rfl := hr <;> rfl
  obtain ⟨r, hr, hback⟩ := hret _ ht
  exact ⟨e, _, r, heip.trans hentry, ht, rfl, hr, hback⟩

end Syscall
end ShompOS
