import ShompOS.Process.ContextSwitch
import ShompOS.Process.Interrupts

/-! A process does not notice that others have run.

`clock_handler` calls a C function that may call `context_switch`, and the interrupted
process is gone until it is switched to. By then its registers are back as its call
left them (`switch_resumes`); what is shown here is that so is its stack, from its stack
pointer up, whatever the others have done on theirs. So the function goes on where it
was, returns to the handler, and the handler to what was interrupted. -/
namespace ShompOS
namespace ContextSwitch
open X86 Memory Interrupt

variable {ι : Type} {T : Tasks ι} {s s' : System ι} {i next : ι} {c : State} {m : Memory}

/-- The stack that process `i` left when it called `context_switch` in the state `c`. -/
def StackKept (T : Tasks ι) (i : ι) (c : State) (m : Memory) : Prop :=
  ∀ x, (c.reg .esp).toNat ≤ x → x < T.stackTop i → m.byte x = c.mem.byte x

/-- The frame is below the stack pointer, and the context is not on the stack. -/
theorem Calls.stackKept (h : Calls T s next) : StackKept T s.running s.cpu (run s.cpu save).mem := by
  intro x hlo hhi
  have hA := addressSpace_eq
  have hroom := h.room
  have hinside := h.inside
  have htop : T.stackTop s.running ≤ 4294967296 := T.stack_le s.running
  have hctx := T.context_le s.running
  have hapart := T.apart s.running s.running
  have hpush := pushWords_pushed (frameWords s.cpu) s.cpu (show 4 * 10 ≤ _ by omega)
  have hpushed : ∀ y, (s.cpu.reg .esp).toNat ≤ y →
      (s.cpu.pushWords (frameWords s.cpu)).mem.byte y = s.cpu.mem.byte y := fun y hy => hpush.bytes y (Or.inr hy)
  have harg : (s.cpu.reg .esp + 4#32).toNat = (s.cpu.reg .esp).toNat + 4 := by bv_omega
  have hcurrent : ((s.cpu.pushWords (frameWords s.cpu)).mem.loadWord (s.cpu.reg .esp + 4#32)).toNat =
      T.context s.running := by
    rw [loadWord_congr (by omega) fun y h1 _ => hpushed y (by omega), h.current]
  rw [(run_save s.cpu).1, ← hpushed x hlo]
  exact (spares_store32 (R := fun y => y = x) _ _ (by omega) (by omega)).bytes x rfl

section Runs
variable [DecidableEq ι] {tr : List (System ι × Event ι)}

/-- The stacks of the processes that have called `context_switch` and do not run now. -/
def AllKept (T : Tasks ι) (tr : List (System ι × Event ι)) (s : System ι) : Prop :=
  ∀ i c, i ≠ s.running → lastCall i tr = some c → StackKept T i c s.cpu.mem

/-- The call leaves the caller's stack and those of the others. -/
theorem Calls.allKept (h : Calls T s next) (hsusp : AllSuspended T tr s) (hall : AllKept T tr s)
    (hc : lastCall i (tr ++ [(s, .switch next)]) = some c) : StackKept T i c (run s.cpu save).mem := by
  rw [lastCall_switch] at hc
  by_cases hi : s.running = i
  · rw [if_pos hi] at hc
    cases hi
    cases hc
    exact h.stackKept
  · rw [if_neg hi] at hc
    intro x hlo hhi
    have hroom := (hsusp i c (Ne.symm hi) hc).room
    rw [h.bytes_other hi (Or.inl ⟨by omega, hhi⟩)]
    exact hall i c (Ne.symm hi) hc x hlo hhi

theorem allKept_step {e : Event ι} (hsusp : AllSuspended T tr s) (hall : AllKept T tr s) (h : Step T s e s') :
    AllKept T (tr ++ [(s, e)]) s' := by
  intro i c hi hc
  cases e with
  | run cpu =>
    obtain ⟨rfl, hkeep⟩ := h
    rw [lastCall_run] at hc
    intro x hlo hhi
    have hroom := (hsusp i c hi hc).room
    exact (hkeep x (Or.inl ⟨i, hi, by omega, hhi⟩)).trans (hall i c hi hc x hlo hhi)
  | switch next =>
    obtain ⟨hcalls, rfl⟩ := h
    show StackKept T i c (run s.cpu contextSwitch).mem
    rw [contextSwitch, run_append, run_restore_mem]
    exact hcalls.allKept hsusp hall hc

theorem allKept_of_run (h : Run (fun _ => True) (Step T) tr s) : AllKept T tr s := by
  induction h with
  | start => exact fun i c _ hc => (Option.some_ne_none c hc.symm).elim
  | next hrun hstep ih => exact allKept_step (allSuspended_of_run hrun) ih hstep

theorem switch_stackKept (h : Run (fun _ => True) (Step T) (tr ++ [(s, .switch next)]) s')
    (hc : lastCall next (tr ++ [(s, .switch next)]) = some c) : StackKept T next c s'.cpu.mem := by
  obtain ⟨hrun, hcalls, hs'⟩ := h.last
  rw [hs']
  show StackKept T next c (run s.cpu contextSwitch).mem
  rw [contextSwitch, run_append, run_restore_mem]
  exact hcalls.allKept (allSuspended_of_run hrun) (allKept_of_run hrun) hc

/-! ### The interrupted process -/

/-- The C function called in the state `e` has called `context_switch` in the state `c`:
it has not written above its frame, and when it is back from the call with its stack as
it was it returns, and does not write there either. -/
structure Switches (top : Nat) (g : Gate) (text : Word → Option (Operation × Word)) (e : Cpu) (c : State) : Prop where
  below : (c.reg .esp).toNat ≤ (e.reg .esp).toNat
  stack : ∀ x, (e.reg .esp).toNat ≤ x → x < top → c.mem.byte x = e.mem.byte x
  returns : ∀ u : Cpu, Resumes c u.toState → (∀ x, (c.reg .esp).toNat ≤ x → x < top → u.mem.byte x = c.mem.byte x) →
    ∃ t, (i386 g).Steps text u t ∧ t.eip = u.mem.loadWord (e.reg .esp) ∧ t.reg .esp = e.reg .esp + 4#32 ∧
      ∀ x, (e.reg .esp).toNat + 4 ≤ x → x < top → t.mem.byte x = u.mem.byte x

variable {g : Gate} {text : Word → Option (Operation × Word)} {handle afterCall : Word} {p e u : Cpu} {h : Handler}

/-- The function returns to the handler all the same. -/
theorem Switches.called {top : Nat} (hsw : Switches top g text e c) (hres : Resumes c u.toState)
    (hkept : ∀ x, (c.reg .esp).toNat ≤ x → x < top → u.mem.byte x = c.mem.byte x)
    (htop : (e.reg .esp).toNat + 4 ≤ top) (hle : top ≤ addressSpace) :
    ∃ t, (i386 g).Steps text u t ∧ Called top e t := by
  have hbelow := hsw.below
  have hsame : ∀ x, (e.reg .esp).toNat ≤ x → x < top → u.mem.byte x = e.mem.byte x := fun x hlo hhi =>
    (hkept x (by omega) hhi).trans (hsw.stack x hlo hhi)
  obtain ⟨t, hsteps, heip, hesp, hbytes⟩ := hsw.returns u hres hkept
  refine ⟨t, hsteps, heip.trans ?_, hesp, fun x hlo hhi => (hbytes x hlo hhi).trans (hsame x (by omega) hhi)⟩
  exact loadWord_congr (by omega) fun x h1 h2 => hsame x h1 (by omega)

/-- A process that is interrupted, and whose handler's function switches to another
process, is back where it was some time after it is switched to again, however many
switches there have been: with its registers, its flags and its stack. -/
theorem preempted_resumes (hcode : Processor.Stands text g.offset (h.code handle)) (hroom : 48 ≤ (p.reg .esp).toNat)
    (htop : (p.reg .esp).toNat ≤ T.stackTop i) :
    ∃ afterCall e, (i386 g).Steps text (take h.trap g p) e ∧ Entered p afterCall e ∧ e.eip = handle ∧
      ∀ c, Switches (T.stackTop i) g text e c → ∀ tr s s' cs,
        Run (fun _ => True) (Step T) (tr ++ [(s, .switch i)]) s' →
        lastCall i (tr ++ [(s, .switch i)]) = some c →
        ∃ r, (i386 g).Steps text ⟨s'.cpu, cs⟩ r ∧ Back (T.stackTop i) h p r := by
  obtain ⟨afterCall, e, hsteps, he, heip, -, -, -, hrest⟩ := Handler.entered (h := h) hcode hroom
  refine ⟨afterCall, e, hsteps, he, heip, fun c hsw tr s s' cs hrun hc => ?_⟩
  have hesp := he.esp
  have hres := switch_resumes hrun hc
  have hkept := switch_stackKept hrun hc
  obtain ⟨t, hreturn, ht⟩ := hsw.called (u := ⟨s'.cpu, cs⟩) hres hkept (by omega) (T.stack_le i)
  obtain ⟨r, hback, hr, -⟩ := ht.back he htop hrest
  exact ⟨r, hreturn.trans hback, hr⟩

end Runs

/-! ### One tick -/

/-- `clock_handler` at `0x1000`, and at `0x5000` what its function has left to do after
the call of `context_switch`. -/
def ticking : Word → Option (Operation × Word) := fun a =>
  if a.toNat < 0x5000 then ((Handler.clockHandler.code 0x4000#32)[(a - 0x1000#32).toNat]?).map fun op => (op, a + 1#32)
  else ([.op (.popl .ecx), .op (.popl .ecx), .op (.popl .ecx), .op (.instr .ret)][(a - 0x5000#32).toNat]?).map
    fun op => (op, a + 1#32)

theorem ticking_stands : Processor.Stands ticking 0x1000#32 (Handler.clockHandler.code 0x4000#32) ∧
    Processor.Stands ticking 0x5000#32
      ([.op (.popl .ecx), .op (.popl .ecx), .op (.popl .ecx)] ++ .op (.instr .ret) :: []) := by
  constructor <;> repeat' (first | exact trivial | refine Exists.intro _ ⟨rfl, ?_⟩)

/-- The first of the two processes is running. -/
def ticked : Cpu where
  toState := leaving.cpu
  cs := 8#16

/-- The function called in the state `e` calls `context_switch` for the second. -/
def tickSwitch (e : Cpu) : State :=
  {e.toState.setReg .esp 7936#32 with
    mem := ((e.mem.storeWord 7936#32 0x5000#32).storeWord 7940#32 1024#32).storeWord 7944#32 1048#32}

theorem tickSwitch_esp (e : Cpu) : (tickSwitch e).reg .esp = 7936#32 := rfl

theorem tickSwitch_byte (e : Cpu) {x : Nat} (hx : 7948 ≤ x) : (tickSwitch e).mem.byte x = e.mem.byte x := by
  have hA := addressSpace_eq
  have hstore : ∀ (m : Memory) (a v : Word), a.toNat + 4 ≤ 7948 → (m.storeWord a v).byte x = m.byte x := fun m a v ha =>
    (spares_store32 (R := fun y => y = x) m v.toNat (by omega) (by omega)).bytes x rfl
  exact (hstore _ 7944#32 _ (by decide)).trans ((hstore _ 7940#32 _ (by decide)).trans
    (hstore _ 7936#32 _ (by decide)))

theorem tickSwitch_words (e : Cpu) : (tickSwitch e).mem.loadWord 7936#32 = 0x5000#32 ∧
    (tickSwitch e).mem.loadWord 7940#32 = 1024#32 ∧ (tickSwitch e).mem.loadWord 7944#32 = 1048#32 := by
  unfold tickSwitch
  dsimp only
  refine ⟨?_, ?_, loadWord_storeWord _ _ (by decide)⟩
  · rw [loadWord_storeWord_ne _ _ (by decide) (by decide) (by decide),
      loadWord_storeWord_ne _ _ (by decide) (by decide) (by decide), loadWord_storeWord _ _ (by decide)]
  · rw [loadWord_storeWord_ne _ _ (by decide) (by decide) (by decide), loadWord_storeWord _ _ (by decide)]

theorem tickSwitch_switches {e : Cpu} (he : e.reg .esp = 7952#32) (g : Gate) :
    Switches 8192 g ticking e (tickSwitch e) := by
  refine ⟨?_, fun x hlo _ => tickSwitch_byte e ?_, fun u hres hkept => ?_⟩
  · rw [tickSwitch_esp, he]
    decide
  · rw [he] at hlo
    exact Nat.le_trans (by decide) hlo
  · have heip : u.eip = 0x5000#32 := hres.eip.trans (tickSwitch_words e).1
    obtain ⟨b, -, hsteps⟩ := Processor.steps_last (M := i386 g) (s := u) (fun op hop => by
      simp only [List.mem_cons, List.not_mem_nil, or_false, or_self] at hop
      rw [hop]
      exact fun _ _ => rfl) (heip ▸ ticking_stands.2 : Processor.Stands ticking u.eip _)
    have hesp : u.reg .esp = 7940#32 := hres.esp
    refine ⟨_, hsteps, ?_, ?_, fun _ _ _ => rfl⟩
    · simp [Processor.runOps, i386, Processor.withOps, processor, Operation.exec, X86.Op.exec, Instr.exec,
        State.pop, State.skip, State.setReg, he, hesp]
    · simp [Processor.runOps, i386, Processor.withOps, processor, Operation.exec, X86.Op.exec, Instr.exec,
        State.pop, State.skip, State.setReg, he, hesp]

theorem tickSwitch_calls (e : Cpu) : Calls pages ⟨tickSwitch e, false⟩ true := by
  obtain ⟨-, hcurrent, hnext⟩ := tickSwitch_words e
  refine ⟨?_, ?_, congrArg BitVec.toNat hcurrent, congrArg BitVec.toNat hnext⟩
  · rw [tickSwitch_esp]
    exact (by decide : 4096 + 40 ≤ 7936)
  · rw [tickSwitch_esp]
    exact (by decide : 7936 + 12 ≤ 8192)

/-- The second process switches back if its arguments are where they were. -/
theorem calls_back (u : State) (hcurrent : u.mem.loadWord 12004#32 = 1048#32)
    (hnext : u.mem.loadWord 12008#32 = 1024#32) : Calls pages ⟨u.setReg .esp 12000#32, true⟩ false := by
  refine ⟨?_, ?_, congrArg BitVec.toNat hcurrent, congrArg BitVec.toNat hnext⟩
  · rw [setReg_same]
    exact (by decide : 8192 + 40 ≤ 12000)
  · rw [setReg_same]
    exact (by decide : 12000 + 12 ≤ 12288)

/-- The tick and the first switch leave the second process's stack alone. -/
theorem ticked_arguments {e : Cpu} {afterCall : Word} (he : Entered ticked afterCall e) {a : Word}
    (hlo : 8192 ≤ a.toNat) (hhi : a.toNat + 4 ≤ 12288) : (run (tickSwitch e) contextSwitch).mem.loadWord a = arguments.loadWord a := by
  have hA := addressSpace_eq
  have hroom := he.room
  have hesp : (ticked.reg .esp).toNat = 8000 := rfl
  refine loadWord_congr (by omega) fun x h1 h2 => ?_
  have hown : ¬ pages.Own false x := by
    unfold Tasks.Own
    rintro (h | h)
    · exact absurd h.2 (show ¬ x < 8192 by omega)
    · exact absurd h.2 (show ¬ x < 1036 by omega)
  rw [contextSwitch, run_append, run_restore_mem, (tickSwitch_calls e).saved.bytes x hown]
  rw [tickSwitch_byte e (by omega), he.pushed.mem]
  exact (pushWords_pushed _ _ (show 4 * 12 ≤ _ by omega)).bytes x (Or.inr (by omega))

theorem preempted_resumes_ticked : ∃ (s' : System Bool) (r : Cpu), s'.running = false ∧
    (i386 ⟨8#16, 0x1000#32⟩).Steps ticking ⟨s'.cpu, 8#16⟩ r ∧ Back 8192 .clockHandler ticked r := by
  obtain ⟨afterCall, e, -, he, -, hresumes⟩ := preempted_resumes (T := pages) (i := false) (g := ⟨8#16, 0x1000#32⟩)
    ticking_stands.1 (show 48 ≤ (ticked.reg .esp).toNat by decide) (show (ticked.reg .esp).toNat ≤ 8192 by decide)
  have hesp : e.reg .esp = 7952#32 := BitVec.eq_of_toNat_eq he.esp
  have hcurrent : (run (tickSwitch e) contextSwitch).mem.loadWord 12004#32 = 1048#32 :=
    (ticked_arguments he (by decide) (by decide)).trans (by decide +kernel)
  have hnext : (run (tickSwitch e) contextSwitch).mem.loadWord 12008#32 = 1024#32 :=
    (ticked_arguments he (by decide) (by decide)).trans (by decide +kernel)
  have hleft : Run (fun _ => True) (Step pages) ([] ++ [(⟨tickSwitch e, false⟩, .switch true)])
      ⟨run (tickSwitch e) contextSwitch, true⟩ := (Run.start trivial).next ⟨tickSwitch_calls e, rfl⟩
  have hset : Step pages ⟨run (tickSwitch e) contextSwitch, true⟩
      (.run ((run (tickSwitch e) contextSwitch).setReg .esp 12000#32))
      ⟨(run (tickSwitch e) contextSwitch).setReg .esp 12000#32, true⟩ := ⟨rfl, fun _ _ => rfl⟩
  obtain ⟨r, hsteps, hback⟩ := hresumes (tickSwitch e) (tickSwitch_switches hesp _) _ _ _ 8#16
    ((hleft.next hset).next ⟨calls_back _ hcurrent hnext, rfl⟩) rfl
  exact ⟨_, r, rfl, hsteps, hback⟩

end ContextSwitch
end ShompOS
