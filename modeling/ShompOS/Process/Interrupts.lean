import ShompOS.Processor
import ShompOS.Process.Syscalls

/-! An interrupt is not noticed by what it interrupts (`boot.S`, `isr.S`).

The handlers of the keyboard and of the clock push every register, call a C function
and pop them again; what the function changes of the registers it may change, since
the copies are on the stack, above its frame. So from any state at all the processor
comes back to that state, but for what the function has done to memory below the
stack. The handler of a division by zero moves the saved `eip` two bytes on, with
`edx` for a scratch register, which `popal` then restores. -/
namespace ShompOS
namespace Interrupt
open X86 Memory

/-! ### The operations of the handlers -/

def interruptFlag : Word := 0x200#32

/-- The bits that `addl` sets: CF, PF, AF, ZF, SF and OF. -/
def arithmeticFlags : Word := 0x8D5#32

/-- What `addl` makes of them. -/
def sumFlags (a b : Word) : Word :=
  let sum := a + b
  let bit (c : Bool) (i : Nat) : Word := if c then 1#32 <<< i else 0#32
  bit (BitVec.carry 32 a b false) 0 |||
    bit ((List.range 8).countP (sum.getLsbD ·) % 2 = 0) 2 |||
    bit (BitVec.carry 4 a b false) 4 ||| bit (sum = 0#32) 6 ||| bit sum.msb 7 |||
    bit (a.msb = b.msb ∧ a.msb ≠ sum.msb) 11

inductive Operation
  | op (o : X86.Op)
  | cli
  | sti
  /-- `call a` -/
  | callTo (a : Word)
  /-- `addl $a, dst` -/
  | addl (a : Word) (dst : Reg)
  /-- `movl src, disp(base)` -/
  | storeAt (src : Reg) (disp : Word) (base : Reg)

def Operation.exec (g : Gate) (s : Cpu) : Operation → Cpu
  | .op o => o.exec g s
  | .cli => {s with eflags := .ofWord (s.eflags.bits &&& ~~~interruptFlag)}
  | .sti => {s with eflags := .ofWord (s.eflags.bits ||| interruptFlag)}
  | .callTo a => {s with toState := {s.push s.eip with eip := a}}
  | .addl a dst =>
    {s with toState := {s.setReg dst (s.reg dst + a) with
      eflags := .ofWord ((s.eflags.bits &&& ~~~arithmeticFlags) ||| sumFlags (s.reg dst) a)}}
  | .storeAt src disp base => {s with mem := s.mem.storeWord (s.reg base + disp) (s.reg src)}

/-- The i386 with these operations; the gate is that of `int`, which no handler uses. -/
def i386 (g : Gate) : Processor Cpu Operation Word := (processor g).withOps fun op s => op.exec g s

/-- Bits that a trap gate clears: TF and NT. -/
def trapMask : Word := 0x4100#32

/-- The processor takes an interrupt through a gate, which is a trap gate or not. -/
def take (trap : Bool) (g : Gate) (s : Cpu) : Cpu where
  toState := {s.pushWords [s.eflags.bits, s.cs.setWidth 32, s.eip] with
    eflags := .ofWord (s.eflags.bits &&& ~~~(if trap then trapMask else gateMask))
    eip := g.offset}
  cs := g.selector

/-! ### The handlers -/

/-- The handlers, each of which calls a C function. -/
inductive Handler
  | keyboardHandler
  | clockHandler
  /-- Of a division by zero. -/
  | isr0
  deriving DecidableEq

/-- A clock tick and an exception leave interrupts as they are. -/
def Handler.trap : Handler → Bool
  | .keyboardHandler => false
  | .clockHandler | .isr0 => true

/-- Up to the call. -/
def Handler.before : Handler → List Operation
  | .keyboardHandler | .isr0 => [.op (.instr .pushal), .op .cld]
  | .clockHandler => [.cli, .op (.instr .pushal), .op .cld]

/-- From the call to `iret`. -/
def Handler.after : Handler → List Operation
  | .keyboardHandler => [.op (.instr .popal)]
  | .clockHandler => [.op (.instr .popal), .sti]
  | .isr0 =>
    [.op (.instr (.load 0x20#32 .esp .edx)), .addl 2#32 .edx, .storeAt .edx 0x20#32 .esp, .op (.instr .popal)]

/-- `keyboard_handler`, `clock_handler` or `isr_0`, with the address of
`handle_keyboard_interrupt`, `handle_clock_interrupt` or `handle_div_by_zero`. -/
def Handler.code (h : Handler) (handle : Word) : List Operation :=
  h.before ++ .callTo handle :: (h.after ++ [.op .iret])

/-- Where the interrupted code goes on, in bytes from where it was. -/
def Handler.skipped : Handler → Word
  | .isr0 => 2#32
  | .keyboardHandler | .clockHandler => 0#32

theorem Handler.before_straight (h : Handler) (g : Gate) : ∀ op ∈ h.before, (i386 g).Straight op := by
  have hpushal : (i386 g).Straight (.op (.instr .pushal)) := fun a s =>
    (show X86.Op.Straight (.instr .pushal) by decide).exec_eip g s a
  have hcld : (i386 g).Straight (.op .cld) := fun _ _ => rfl
  have hcli : (i386 g).Straight .cli := fun _ _ => rfl
  cases h <;> simp [before, hpushal, hcld, hcli]

theorem Handler.after_straight (h : Handler) (g : Gate) : ∀ op ∈ h.after, (i386 g).Straight op := by
  have hpopal : (i386 g).Straight (.op (.instr .popal)) := fun a s =>
    (show X86.Op.Straight (.instr .popal) by decide).exec_eip g s a
  have hsti : (i386 g).Straight .sti := fun _ _ => rfl
  have hload : (i386 g).Straight (.op (.instr (.load 0x20#32 .esp .edx))) := fun _ _ => rfl
  have haddl : (i386 g).Straight (.addl 2#32 .edx) := fun _ _ => rfl
  have hstore : (i386 g).Straight (.storeAt .edx 0x20#32 .esp) := fun _ _ => rfl
  cases h <;> simp [after, hpopal, hsti, hload, haddl, hstore]

/-! ### Up to the call -/

/-- What the processor and the handler push, in the state `p` that is interrupted. -/
def savedWords (p : Cpu) : List Word :=
  [p.eflags.bits, p.cs.setWidth 32, p.eip,
    p.reg .eax, p.reg .ecx, p.reg .edx, p.reg .ebx, p.reg .esp - 12#32, p.reg .ebp, p.reg .esi, p.reg .edi]

theorem Handler.run_before (h : Handler) (g : Gate) (p : Cpu) :
    let e := (i386 g).runOps (take h.trap g p) h.before
    HasPushed p.toState (savedWords p) e.toState ∧ e.cs = g.selector := by
  have hesp : p.reg .esp - 4#32 - 4#32 - 4#32 = p.reg .esp - 12#32 := by bv_omega
  cases h <;>
    refine ⟨⟨?_, ?_⟩, ?_⟩ <;>
      simp [before, Processor.runOps, i386, Processor.withOps, processor, Operation.exec, X86.Op.exec, Instr.exec,
        take, savedWords, State.pushWords, State.push, State.setReg, Function.update, hesp]

/-- A flag that a word is loaded with. -/
theorem ofWord_and (w : Word) {k : Word} (hk : flagMask &&& k = k) (h2 : 2#32 &&& k = 0#32) :
    (Eflags.ofWord w).bits &&& k = w &&& k := by
  show ((w &&& flagMask) ||| 2#32) &&& k = w &&& k
  rw [BitVec.and_comm _ k, BitVec.and_or_distrib_left, BitVec.and_comm k 2#32, h2, BitVec.or_zero,
    BitVec.and_comm k, BitVec.and_assoc, hk]

/-- Clearing flags clears them, and no others. -/
theorem cleared_and (w : Word) {c k : Word} (hk : ~~~c &&& k = 0#32) : (w &&& ~~~c) &&& k = 0#32 := by
  rw [BitVec.and_assoc, hk, BitVec.and_zero]

theorem kept_and (w : Word) {c k : Word} (hk : ~~~c &&& k = k) : (w &&& ~~~c) &&& k = w &&& k := by
  rw [BitVec.and_assoc, hk]

/-- The function is called with the direction flag clear, as it may expect, and with
interrupts off unless a division made it be called. -/
theorem Handler.run_before_flags (h : Handler) (g : Gate) (p : Cpu) :
    let e := (i386 g).runOps (take h.trap g p) h.before
    e.eflags.bits &&& directionFlag = 0#32 ∧ (h ≠ .isr0 → e.eflags.bits &&& interruptFlag = 0#32) := by
  have hcld : ∀ w : Word, (Eflags.ofWord (w &&& ~~~directionFlag)).bits &&& directionFlag = 0#32 := fun w => by
    rw [ofWord_and _ (by decide) (by decide), cleared_and _ (by decide)]
  have hkeep : ∀ w : Word, (Eflags.ofWord (w &&& ~~~directionFlag)).bits &&& interruptFlag = w &&& interruptFlag :=
    fun w => by rw [ofWord_and _ (by decide) (by decide), kept_and _ (by decide)]
  cases h with
  | keyboardHandler =>
    refine ⟨hcld _, fun _ => (hkeep _).trans ?_⟩
    exact (ofWord_and _ (by decide) (by decide)).trans (cleared_and _ (by decide))
  | clockHandler =>
    refine ⟨hcld _, fun _ => (hkeep _).trans ?_⟩
    exact (ofWord_and _ (by decide) (by decide)).trans (cleared_and _ (by decide))
  | isr0 => exact ⟨hcld _, fun h => absurd rfl h⟩

/-! ### From the call -/

/-- The C function called in the state `e` has returned in the state `t`. The stack
above its return address and up to `top` is not its own. -/
structure Called (top : Nat) (e t : Cpu) : Prop where
  eip : t.eip = e.mem.loadWord (e.reg .esp)
  esp : t.reg .esp = e.reg .esp + 4#32
  bytes : ∀ x, (e.reg .esp).toNat + 4 ≤ x → x < top → t.mem.byte x = e.mem.byte x

/-- Back at what was interrupted in the state `p`. -/
structure Back (top : Nat) (h : Handler) (p r : Cpu) : Prop where
  reg : r.reg = p.reg
  eip : r.eip = p.eip + h.skipped
  eflags : r.eflags = p.eflags
  cs : r.cs = p.cs
  /-- The stack is as it was, down to the stack pointer. -/
  stack : ∀ x, (p.reg .esp).toNat ≤ x → x < top → r.mem.byte x = p.mem.byte x

/-- The memory when the handler is done. -/
def Handler.memory (h : Handler) (t : Cpu) : Memory :=
  match h with
  | .isr0 => t.mem.storeWord (t.reg .esp + 32#32) (t.mem.loadWord (t.reg .esp + 32#32) + 2#32)
  | .keyboardHandler | .clockHandler => t.mem

theorem Handler.run_after (h : Handler) (g : Gate) (t : Cpu) (b : Word) :
    let m := h.memory t
    let esp := t.reg .esp
    let r := (i386 g).exec (.op .iret) ((i386 g).goto b ((i386 g).runOps t h.after))
    r.mem = m ∧ r.reg .esp = esp + 44#32 ∧ r.reg .edi = m.loadWord esp ∧ r.reg .esi = m.loadWord (esp + 4#32) ∧
      r.reg .ebp = m.loadWord (esp + 8#32) ∧ r.reg .ebx = m.loadWord (esp + 16#32) ∧
      r.reg .edx = m.loadWord (esp + 20#32) ∧ r.reg .ecx = m.loadWord (esp + 24#32) ∧
      r.reg .eax = m.loadWord (esp + 28#32) ∧ r.eip = m.loadWord (esp + 32#32) ∧
      r.cs = (m.loadWord (esp + 36#32)).setWidth 16 ∧ r.eflags = .ofWord (m.loadWord (esp + 40#32)) := by
  cases h <;>
    simp [after, memory, Processor.runOps, i386, Processor.withOps, processor, Operation.exec, X86.Op.exec,
      Instr.exec, State.pop, State.skip, State.setReg, Function.update, BitVec.add_assoc]

/-- What was interrupted, where it goes on. -/
def Handler.resumed (h : Handler) (p : Cpu) : Cpu := {p with eip := p.eip + h.skipped}

variable {h : Handler} {g : Gate} {p e t : Cpu} {afterCall : Word} {top : Nat}

/-- The stack at the call. -/
structure Entered (p : Cpu) (afterCall : Word) (e : Cpu) : Prop where
  room : 48 ≤ (p.reg .esp).toNat
  pushed : HasPushed p.toState (savedWords p ++ [afterCall]) e.toState

theorem Entered.esp (he : Entered p afterCall e) : (e.reg .esp).toNat = (p.reg .esp).toNat - 48 := by
  have hroom := he.room
  have hlen : (savedWords p ++ [afterCall]).length = 12 := rfl
  rw [he.pushed.esp, (pushWords_pushed _ _ (show 4 * 12 ≤ _ by omega)).esp, hlen]

/-- The function has left the words that were pushed, and what is above them. -/
theorem Called.words (ht : Called top e t) (he : Entered p afterCall e) (htop : (p.reg .esp).toNat ≤ top) {i : Nat}
    (hi : i < 11) {a : Word} (ha : a.toNat = (p.reg .esp).toNat - 4 * (i + 1)) :
    t.mem.loadWord a = (savedWords p).get ⟨i, hi⟩ := by
  have hA := addressSpace_eq
  have hroom := he.room
  have hesp := he.esp
  have hlt := (p.reg .esp).isLt
  have hlen : (savedWords p ++ [afterCall]).length = 12 := rfl
  have hkeep : t.mem.loadWord a = e.mem.loadWord a :=
    loadWord_congr (by omega) fun x h1 h2 => ht.bytes x (by omega) (by omega)
  rw [hkeep, he.pushed.words (by omega) (by omega) ha]
  exact List.getElem_append_left hi

theorem Called.above (ht : Called top e t) (he : Entered p afterCall e) {x : Nat} (hx : (p.reg .esp).toNat ≤ x)
    (htop : x < top) : t.mem.byte x = p.mem.byte x := by
  have hroom := he.room
  have hesp := he.esp
  rw [ht.bytes x (by omega) htop, he.pushed.mem]
  exact (pushWords_pushed _ _ (show 4 * 12 ≤ _ by omega)).bytes x (Or.inr hx)

theorem Called.returned (ht : Called top e t) (he : Entered p afterCall e) :
    t.eip = afterCall ∧ t.reg .esp = p.reg .esp - 44#32 := by
  have hroom := he.room
  have hesp := he.esp
  have hlen : (savedWords p ++ [afterCall]).length = 12 := rfl
  have hlast : e.mem.loadWord (e.reg .esp) = (savedWords p ++ [afterCall])[11] :=
    he.pushed.words (by omega) (by omega) (by omega)
  refine ⟨ht.eip.trans hlast, ?_⟩
  rw [ht.esp]
  bv_omega

/-- The only word that a handler changes is where the interrupted code goes on. -/
theorem Called.memory (ht : Called top e t) (he : Entered p afterCall e) (htop : (p.reg .esp).toNat ≤ top) :
    (∀ i (hi : i < 11) (a : Word), a.toNat = (p.reg .esp).toNat - 4 * (i + 1) →
      (h.memory t).loadWord a = (savedWords (h.resumed p)).get ⟨i, hi⟩) ∧
      ∀ x, x < (p.reg .esp).toNat - 44 ∨ (p.reg .esp).toNat ≤ x → (h.memory t).byte x = t.mem.byte x := by
  have hA := addressSpace_eq
  have hroom := he.room
  have hlt := (p.reg .esp).isLt
  have hplain : (h.memory t = t.mem ∧ h.resumed p = p) → (∀ i (hi : i < 11) (a : Word),
      a.toNat = (p.reg .esp).toNat - 4 * (i + 1) →
        (h.memory t).loadWord a = (savedWords (h.resumed p)).get ⟨i, hi⟩) ∧
      ∀ x, x < (p.reg .esp).toNat - 44 ∨ (p.reg .esp).toNat ≤ x → (h.memory t).byte x = t.mem.byte x := by
    rintro ⟨hm, hp⟩
    rw [hm, hp]
    exact ⟨fun i hi a ha => ht.words he htop hi ha, fun _ _ => rfl⟩
  cases h with
  | keyboardHandler => exact hplain ⟨rfl, by unfold Handler.resumed Handler.skipped; rw [BitVec.add_zero]⟩
  | clockHandler => exact hplain ⟨rfl, by unfold Handler.resumed Handler.skipped; rw [BitVec.add_zero]⟩
  | isr0 =>
    have hat : (t.reg .esp + 32#32).toNat = (p.reg .esp).toNat - 12 := by
      rw [(ht.returned he).2]
      bv_omega
    have heip : t.mem.loadWord (t.reg .esp + 32#32) = p.eip := ht.words he htop (i := 2) (by decide) hat
    unfold Handler.memory
    dsimp only
    rw [heip]
    refine ⟨fun i hi a ha => ?_, fun x hx => ?_⟩
    · by_cases hi2 : i = 2
      · cases hi2
        have ha' : a = t.reg .esp + 32#32 := BitVec.eq_of_toNat_eq (by omega)
        rw [ha', loadWord_storeWord _ _ (by omega)]
        rfl
      · rw [loadWord_storeWord_ne _ _ (by omega) (by omega) (by omega), ht.words he htop hi ha]
        match i with
        | 0 | 1 | 3 | 4 | 5 | 6 | 7 | 8 | 9 | 10 => rfl
    · exact (spares_store32 (R := fun y => y = x) t.mem _ (by omega) (by omega)).bytes x rfl

/-- From the function's return on. -/
theorem Called.back {text : Word → Option (Operation × Word)} (ht : Called top e t) (he : Entered p afterCall e)
    (htop : (p.reg .esp).toNat ≤ top) (hcode : Processor.Stands text afterCall (h.after ++ [.op .iret])) :
    ∃ r, (i386 g).Steps text t r ∧ Back top h p r ∧
      ∀ x, x < (p.reg .esp).toNat - 44 ∨ (p.reg .esp).toNat ≤ x → r.mem.byte x = t.mem.byte x := by
  obtain ⟨heip, hesp⟩ := ht.returned he
  obtain ⟨hword, hbyte⟩ := ht.memory (h := h) he htop
  obtain ⟨b, -, hsteps⟩ := Processor.steps_last (h.after_straight g) (heip ▸ hcode : Processor.Stands text t.eip _)
  obtain ⟨hmem, hsp, hedi, hesi, hebp, hebx, hedx, hecx, heax, hip, hcs, hflags⟩ := h.run_after g t b
  have hroom := he.room
  -- the words are found from the last one pushed up
  have hat : ∀ i (hi : i < 11) (d : Word), d = BitVec.ofNat 32 (4 * (10 - i)) →
      (h.memory t).loadWord (t.reg .esp + d) = (savedWords (h.resumed p)).get ⟨i, hi⟩ := by
    intro i hi d hd
    apply hword
    rw [hd, hesp]
    bv_omega
  have hat10 : (h.memory t).loadWord (t.reg .esp) = p.reg .edi := by
    apply hword 10 (by decide)
    rw [hesp]
    bv_omega
  refine ⟨_, hsteps, ⟨?_, hip.trans (hat 2 (by decide) _ rfl), ?_, ?_, fun x hx hlt => ?_⟩, fun x hx => ?_⟩
  · funext q
    cases q with
    | eax => exact heax.trans (hat 3 (by decide) _ rfl)
    | ecx => exact hecx.trans (hat 4 (by decide) _ rfl)
    | edx => exact hedx.trans (hat 5 (by decide) _ rfl)
    | ebx => exact hebx.trans (hat 6 (by decide) _ rfl)
    | esp =>
      refine hsp.trans ?_
      rw [hesp]
      bv_omega
    | ebp => exact hebp.trans (hat 8 (by decide) _ rfl)
    | esi => exact hesi.trans (hat 9 (by decide) _ rfl)
    | edi => exact hedi.trans hat10
  · refine hflags.trans ?_
    rw [hat 0 (by decide) _ rfl]
    exact Eflags.ofWord_bits p.eflags
  · refine hcs.trans ?_
    rw [hat 1 (by decide) _ rfl]
    show (p.cs.setWidth 32).setWidth 16 = p.cs
    simp
  · rw [hmem, hbyte x (Or.inr hx)]
    exact ht.above he hx hlt
  · rw [hmem, hbyte x hx]

/-- An interrupt taken in any state comes to the C function with the state on the stack. -/
theorem Handler.entered {text : Word → Option (Operation × Word)} {handle : Word}
    (hcode : Processor.Stands text g.offset (h.code handle)) (hroom : 48 ≤ (p.reg .esp).toNat) :
    ∃ afterCall e, (i386 g).Steps text (take h.trap g p) e ∧ Entered p afterCall e ∧ e.eip = handle ∧
      e.cs = g.selector ∧ e.eflags.bits &&& directionFlag = 0#32 ∧
      (h ≠ .isr0 → e.eflags.bits &&& interruptFlag = 0#32) ∧
      Processor.Stands text afterCall (h.after ++ [.op .iret]) := by
  obtain ⟨b, hrest, hsteps⟩ := Processor.steps_last (M := i386 g) (s := take h.trap g p) (h.before_straight g) hcode
  obtain ⟨hpushed, hcs⟩ := h.run_before g p
  obtain ⟨hdf, hif⟩ := h.run_before_flags g p
  exact ⟨b, _, hsteps, ⟨hroom, hpushed.trans ⟨rfl, rfl⟩⟩, rfl, hcs, hdf, hif, hrest⟩

/-- Whatever is interrupted, the handler calls its C function, and when that has
returned goes back to what was interrupted, which finds its registers, its flags and its
stack as they were, behind a division two bytes on. The rest of memory is what the
function has made it. -/
theorem interrupt_returns {text : Word → Option (Operation × Word)} {handle : Word}
    (hcode : Processor.Stands text g.offset (h.code handle)) (hroom : 48 ≤ (p.reg .esp).toNat)
    (htop : (p.reg .esp).toNat ≤ top) :
    ∃ e, (i386 g).Steps text (take h.trap g p) e ∧ e.eip = handle ∧ e.eflags.bits &&& directionFlag = 0#32 ∧
      (h ≠ .isr0 → e.eflags.bits &&& interruptFlag = 0#32) ∧
      ∀ t, Called top e t → ∃ r, (i386 g).Steps text t r ∧ Back top h p r ∧
        ∀ x, x < (p.reg .esp).toNat - 44 ∨ (p.reg .esp).toNat ≤ x → r.mem.byte x = t.mem.byte x := by
  obtain ⟨afterCall, e, hsteps, he, heip, -, hdf, hif, hrest⟩ := Handler.entered (h := h) hcode hroom
  exact ⟨e, hsteps, heip, hdf, hif, fun t ht => ht.back he htop hrest⟩

/-! ### One division -/

/-- `isr_0` at `0x1000`. -/
def loaded : Word → Option (Operation × Word) := fun a =>
  ((Handler.isr0.code 0x4000#32)[(a - 0x1000#32).toNat]?).map fun op => (op, a + 1#32)

theorem loaded_stands : Processor.Stands loaded 0x1000#32 (Handler.isr0.code 0x4000#32) := by
  repeat' (first | exact trivial | refine Exists.intro _ ⟨rfl, ?_⟩)

/-- About to divide by zero. -/
def dividing : Cpu where
  reg r := if r = .esp then 0x8000#32 else 0#32
  eflags := .ofWord 0x202#32
  eip := 0x2000#32
  mem := .zero
  cs := 8#16

theorem interrupt_returns_dividing : ∃ e t r, e.eip = 0x4000#32 ∧ Called 0x8000 e t ∧
    (i386 ⟨8#16, 0x1000#32⟩).Steps loaded t r ∧ r.eip = 0x2002#32 ∧ r.reg = dividing.reg := by
  obtain ⟨e, -, heip, -, -, hret⟩ := interrupt_returns (g := ⟨8#16, 0x1000#32⟩) loaded_stands
    (show 48 ≤ (dividing.reg .esp).toNat by decide) (show (dividing.reg .esp).toNat ≤ 0x8000 by decide)
  have ht : Called 0x8000 e {e with toState := Instr.ret.exec e.toState} := ⟨rfl, rfl, fun _ _ _ => rfl⟩
  obtain ⟨r, hsteps, hback, -⟩ := hret _ ht
  exact ⟨e, _, r, heip, ht, hsteps, hback.eip, hback.reg⟩

end Interrupt
end ShompOS
