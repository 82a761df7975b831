import ShompOS.Heap.Invariant
import ShompOS.Process.ContextSwitch
import ShompOS.Process.Events

/-! A new process on its processor.

`init_process` writes fourteen words at the end of a block and a stack pointer to
the lowest of them; `context_switch` takes them for the frame of a call. `Fresh`
says that a process's stack and context are as `init_process` left them, which
stays true until the process is first switched to. Then it is at its entry point,
and what is above its stack pointer is the frame of a call of `kill_process`. -/
namespace ShompOS
open Layout Memory X86 ContextSwitch

/-! ### The words of the frame -/

theorem loadWord_store32 (m : Memory) {a : Word} {top v : Nat} (ha : a.toNat = top)
    (htop : top + 4 ≤ addressSpace) : (m.store32 top v).loadWord a = BitVec.ofNat 32 v := by
  unfold loadWord
  rw [ha, load32_store32_mod m htop]
  apply BitVec.eq_of_toNat_eq
  rw [BitVec.toNat_ofNat, BitVec.toNat_ofNat]
  exact Nat.mod_mod v addressSpace

theorem storeDown_words (ws : List Nat) (m : Memory) {top : Nat} (hlo : 4 * ws.length ≤ top)
    (htop : top + 4 ≤ addressSpace) {i : Nat} (hi : i < ws.length) {a : Word} (ha : a.toNat = top - 4 * i) :
    (Kernel.storeDown m top ws).loadWord a = BitVec.ofNat 32 ws[i] := by
  induction ws generalizing m top i with
  | nil => exact absurd hi (Nat.not_lt_zero i)
  | cons v rest ih =>
    rw [List.length_cons] at hlo hi
    unfold Kernel.storeDown
    rw [wrap_sub (by omega) (by omega)]
    cases i with
    | zero =>
      -- the words after it are below
      have hlen : 4 * rest.length ≤ top - 4 := by omega
      have hbelow := Kernel.spares_storeDown rest (m.store32 top v) hlen (by omega)
      rw [loadWord_congr (by omega) fun x h1 h2 => hbelow.bytes x (by omega)]
      exact loadWord_store32 m (by omega) htop
    | succ i => exact ih _ (by omega) (by omega) (by omega) (by omega)

/-- The words `init_process` writes below the end of a block. -/
def frame (C : Code) (stackEnd pid entryPoint : Nat) : List Word :=
  (Kernel.initialFrame C (stackEnd - 4) pid entryPoint).map (BitVec.ofNat 32)

/-! ### Until the first switch -/

section Fresh
variable {ι : Type} {T : Tasks ι} {C : Code} {i : ι} {pid entryPoint : Nat} {m m' : Memory} {s s' : System ι}

/-- The stack and the context of process `i` are as `init_process` left them. -/
structure Fresh (T : Tasks ι) (C : Code) (i : ι) (pid entryPoint : Nat) (m : Memory) : Prop where
  room : T.stackBottom i + 56 ≤ T.stackTop i
  context : ∀ a : Word, a.toNat = T.context i → (m.loadWord a).toNat = T.stackTop i - 56
  words : ∀ k (hk : k < (frame C (T.stackTop i) pid entryPoint).length), ∀ a : Word,
    a.toNat = T.stackTop i - 4 * (k + 1) → m.loadWord a = (frame C (T.stackTop i) pid entryPoint)[k]

/-- At the entry point, as if called by `kill_process`'s first instruction. -/
structure Starts (C : Code) (pid entryPoint : Nat) (t : State) : Prop where
  eip : t.eip = BitVec.ofNat 32 entryPoint
  eflags : t.eflags.bits = 0x0202#32
  ret : t.mem.loadWord (t.reg .esp) = BitVec.ofNat 32 C.killProcess
  above : t.mem.loadWord (t.reg .esp + 4#32) = BitVec.ofNat 32 C.switchProcessFromQueue ∧
    t.mem.loadWord (t.reg .esp + 8#32) = BitVec.ofNat 32 pid

/-- `u` is about to return from the call `t` started with. -/
structure Returns (t u : State) : Prop where
  esp : u.reg .esp = t.reg .esp
  words : ∀ d : Word, d = 0#32 ∨ d = 4#32 ∨ d = 8#32 →
    u.mem.loadWord (u.reg .esp + d) = t.mem.loadWord (t.reg .esp + d)

/-- In `kill_process`, with its argument and its return address on the stack. -/
structure Kills (C : Code) (pid : Nat) (t : State) : Prop where
  eip : t.eip = BitVec.ofNat 32 C.killProcess
  ret : t.mem.loadWord (t.reg .esp) = BitVec.ofNat 32 C.switchProcessFromQueue
  argument : t.mem.loadWord (t.reg .esp + 4#32) = BitVec.ofNat 32 pid

theorem Fresh.congr (h : Fresh T C i pid entryPoint m) (hm : ∀ x, T.Own i x → m'.byte x = m.byte x) :
    Fresh T C i pid entryPoint m' := by
  have hA := addressSpace_eq
  have hroom := h.room
  have htop := T.stack_le i
  have hctx := T.context_le i
  refine ⟨h.room, fun a ha => ?_, fun k hk a ha => ?_⟩
  · rw [loadWord_congr (by omega) fun x h1 h2 => hm x (Or.inr (by omega))]
    exact h.context a ha
  · have hk14 : k < 14 := hk
    rw [loadWord_congr (by omega) fun x h1 h2 => hm x (Or.inl (by omega))]
    exact h.words k hk a ha

/-- The rest of `context_switch` on the new stack. -/
theorem Fresh.starts (h : Fresh T C i pid entryPoint m) {t : State} (ht : t.mem = m)
    (hesp : (t.reg .esp).toNat = T.stackTop i - 56) : Starts C pid entryPoint (run t restore) := by
  have hA := addressSpace_eq
  have hroom := h.room
  have htop : T.stackTop i ≤ 4294967296 := T.stack_le i
  obtain ⟨-, -, -, -, -, -, -, hsp, hfl, hip⟩ := run_restore t
  have hword : ∀ k (hk : k < 14), ∀ a : Word, a.toNat = T.stackTop i - 4 * (k + 1) →
      t.mem.loadWord a = (frame C (T.stackTop i) pid entryPoint).get ⟨k, hk⟩ := by
    intro k hk a ha
    rw [ht]
    exact h.words k hk a ha
  -- the frame pointer popped leads to where `leave` takes its own
  have hslot : (t.reg .esp + 12#32).toNat = T.stackTop i - 44 := by bv_omega
  have hfp : (t.mem.loadWord (t.reg .esp + 12#32)).toNat = T.stackTop i - 20 := by
    rw [hword 10 (by decide) _ hslot]
    show (BitVec.ofNat 32 (wrap (T.stackTop i - 4 + (addressSpace - 0x10)))).toNat = _
    rw [wrap_sub (by omega) (by omega), BitVec.toNat_ofNat]
    omega
  have hesp' : ((run t restore).reg .esp).toNat = T.stackTop i - 12 := by
    rw [hsp]
    bv_omega
  have hmem : (run t restore).mem = t.mem := run_restore_mem t
  refine ⟨?_, ?_, ?_, ?_, ?_⟩
  · rw [hip, hword 3 (by decide) _ (by bv_omega)]
    rfl
  · have hflags : t.mem.loadWord (t.reg .esp) = 0x0202#32 := hword 13 (by decide) _ hesp
    rw [hfl, hflags]
    decide
  · rw [hmem, hword 2 (by decide) _ hesp']
    rfl
  · rw [hmem, hword 1 (by decide) _ (by bv_omega)]
    rfl
  · rw [hmem, hword 0 (by decide) _ (by bv_omega)]
    rfl

/-- Returning leads into `kill_process`. -/
theorem Starts.kills {t u : State} (h : Starts C pid entryPoint t) (hu : Returns t u) :
    Kills C pid (Instr.ret.exec u) := by
  have h0 := hu.words 0#32 (Or.inl rfl)
  have h4 := hu.words 4#32 (Or.inr (Or.inl rfl))
  have h8 := hu.words 8#32 (Or.inr (Or.inr rfl))
  rw [BitVec.add_zero, BitVec.add_zero] at h0
  have hesp : (Instr.ret.exec u).reg .esp = u.reg .esp + 4#32 := setReg_same u .esp _
  refine ⟨?_, ?_, ?_⟩
  · exact h0.trans h.ret
  · rw [hesp]
    exact h4.trans h.above.1
  · rw [hesp, BitVec.add_assoc]
    exact h8.trans h.above.2

/-- What happens to other processes leaves a new one as it is. -/
theorem Fresh.step {e : Event ι} (h : Fresh T C i pid entryPoint s.cpu.mem) (hi : s.running ≠ i)
    (he : e ≠ .switch i) (hs : Step T s e s') : Fresh T C i pid entryPoint s'.cpu.mem ∧ s'.running ≠ i := by
  cases e with
  | run cpu =>
    obtain ⟨rfl, hkeep⟩ := hs
    refine ⟨h.congr fun x hx => hkeep x ?_, hi⟩
    cases hx with
    | inl hx => exact Or.inl ⟨i, hi.symm, hx⟩
    | inr hx => exact Or.inr ⟨i, hx⟩
  | switch next =>
    obtain ⟨hcalls, rfl⟩ := hs
    have hnext : next ≠ i := fun hn => he (by rw [hn])
    refine ⟨?_, hnext⟩
    show Fresh T C i pid entryPoint (run s.cpu contextSwitch).mem
    rw [contextSwitch, run_append, run_restore_mem]
    exact h.congr fun x hx => hcalls.bytes_other hi hx

/-- The first switch to a new process starts it. -/
theorem Fresh.switch (h : Fresh T C i pid entryPoint s.cpu.mem) (hi : s.running ≠ i)
    (hs : Step T s (.switch i) s') : Starts C pid entryPoint s'.cpu := by
  obtain ⟨hcalls, rfl⟩ := hs
  obtain ⟨a, ha, hesp⟩ := hcalls.saved.esp
  have hfresh : Fresh T C i pid entryPoint (run s.cpu save).mem :=
    h.congr fun x hx => hcalls.bytes_other hi hx
  have hstart := hfresh.starts rfl (by rw [hesp]; exact hfresh.context a ha)
  rw [← run_append] at hstart
  exact hstart

end Fresh

/-! ### init_process -/

section Created
variable {L : Layout} {C : Code} {k k' : Kernel} {entryPoint stackBottom pid : Nat}

/-- The context `init_process` sets up, also if the table is full. -/
theorem Kernel.initProcess_context (h : k.initProcess C entryPoint stackBottom = some (k', pid)) :
    let blk := wrap (stackBottom + (addressSpace - headerSize))
    let stackTop := wrap (blk + 2 ^ k.heap.mem.scale blk + (addressSpace - 4))
    (k'.deref k.reserveProcTableSlot).context.esp = wrap (stackTop + (addressSpace - 0x34)) := by
  unfold initProcess at h
  rw [Option.map_eq_some_iff] at h
  obtain ⟨⟨k₁, pid₁⟩, hnext, heq⟩ := h
  obtain ⟨rfl, -, -⟩ := getNextPid_spec hnext
  simp only [Prod.mk.injEq] at heq
  obtain ⟨rfl, rfl⟩ := heq
  dsimp only
  cases hslot : k.reserveProcTableSlot with
  | none =>
    have hres : ({k with nextPid := pid₁} : Kernel).reserveProcTableSlot = none := hslot
    rw [hres]
    rfl
  | some j =>
    have hres : ({k with nextPid := pid₁} : Kernel).reserveProcTableSlot = some j := hslot
    rw [hres]
    simp only [deref, modify_procTable, if_true]

/-- Given a block with room for the frame, it writes to the end of the block's payload. -/
theorem Represents.initProcess_fresh {P : Pool} {a t : Nat} (hr : Represents L k.heap P)
    (ha : P.used a = some t) (hroom : 56 + headerSize ≤ 2 ^ t)
    (h : k.initProcess C entryPoint (a + headerSize) = some (k', pid)) :
    Spares (fun x => x < a + headerSize ∨ a + 2 ^ t ≤ x) k.heap.mem k'.heap.mem ∧
      (k'.deref k.reserveProcTableSlot).context.esp = a + 2 ^ t - 56 ∧
      ∀ j (hj : j < (frame C (a + 2 ^ t) pid entryPoint).length), ∀ b : Word,
        b.toNat = a + 2 ^ t - 4 * (j + 1) → k'.heap.mem.loadWord b = (frame C (a + 2 ^ t) pid entryPoint)[j] := by
  obtain ⟨hheap, -, -⟩ := Kernel.initProcess_frame h
  have hesp := Kernel.initProcess_context h
  have hst := hr.stands
  have hup := hst.valid.tiling.upper (Or.inl ha)
  have htop := hst.valid.top
  have hpM := two_pow_pos' maxBlockScale
  have h9 : headerSize = 9 := rfl
  dsimp only at hesp
  rw [hst.block_of_data ha, hst.scale_eq (Or.inl ha),
    wrap_sub (a := a + 2 ^ t) (c := 4) (by omega) (by omega)] at hheap hesp
  rw [wrap_sub (a := a + 2 ^ t - 4) (c := 0x34) (by omega) (by omega)] at hesp
  have hlen : (Kernel.initialFrame C (a + 2 ^ t - 4) pid entryPoint).length = 14 := rfl
  rw [hheap]
  refine ⟨?_, by omega, fun j hj b hb => ?_⟩
  · apply (Kernel.spares_storeDown _ _ (by omega) (by omega)).mono
    intro x hx
    omega
  · have hj14 : j < 14 := hj
    refine (storeDown_words _ _ (by omega) (by omega) (hlen ▸ hj14) (by omega)).trans ?_
    exact (List.getElem_map _).symm

variable {ι : Type}

/-- The processor's memory after `init_process` has set up process `i`; something
else is running. -/
structure Created (T : Tasks ι) (i : ι) (k' : Kernel) (proc : Option (Fin maxProcess)) (s : System ι) : Prop where
  running : s.running ≠ i
  stack : ∀ x, T.stackBottom i ≤ x → x < T.stackTop i → s.cpu.mem.byte x = k'.heap.mem.byte x
  context : ∀ a : Word, a.toNat = T.context i → (s.cpu.mem.loadWord a).toNat = (k'.deref proc).context.esp

theorem Created.fresh {T : Tasks ι} {i : ι} {proc : Option (Fin maxProcess)} {s : System ι}
    (hc : Created T i k' proc s) (hroom : T.stackBottom i + 56 ≤ T.stackTop i)
    (hesp : (k'.deref proc).context.esp = T.stackTop i - 56)
    (hwords : ∀ j (hj : j < (frame C (T.stackTop i) pid entryPoint).length), ∀ b : Word,
      b.toNat = T.stackTop i - 4 * (j + 1) → k'.heap.mem.loadWord b = (frame C (T.stackTop i) pid entryPoint)[j]) :
    Fresh T C i pid entryPoint s.cpu.mem := by
  refine ⟨hroom, fun b hb => (hc.context b hb).trans hesp, fun j hj b hb => ?_⟩
  have hstack := T.stack_le i
  have hj14 : j < 14 := hj
  rw [loadWord_congr (by omega) fun x h1 h2 => hc.stack x (by omega) (by omega)]
  exact hwords j hj b hb

/-- Given at least 500 bytes that `allocate` has returned, `init_process` writes
nowhere but there, and the process it sets up starts at its entry point when it is
first switched to, and when it returns, ends in `kill_process`. -/
theorem initProcess_starts {s : Session} {p n : Nat} (hs : s.Reached L) (hp : (p, n) ∈ s.live)
    (hn : 500 ≤ n) (hk : k.heap = s.heap) (h : k.initProcess C entryPoint p = some (k', pid)) :
    let stackEnd := p - headerSize + 2 ^ s.heap.mem.scale (p - headerSize)
    Spares (fun x => x < p ∨ stackEnd ≤ x) k.heap.mem k'.heap.mem ∧
      ∀ (T : Tasks ι) (i : ι) (tr : List (System ι × Event ι)) (u u' : System ι),
        T.stackBottom i = p → T.stackTop i = stackEnd →
        Run (Created T i k' k.reserveProcTableSlot) (Step T) (tr ++ [(u, .switch i)]) u' →
        (∀ x ∈ tr, x.2 ≠ .switch i) →
          Starts C pid entryPoint u'.cpu ∧
            ∀ v, Returns u'.cpu v → Kills C pid (Instr.ret.exec v) := by
  obtain ⟨P, hgood⟩ := Session.good_of_reached hs
  obtain ⟨a, t, rfl, ha, hfit⟩ := hgood.held hp
  have hr : Represents L k.heap P := hk ▸ hgood.represents
  have hroom : 56 + headerSize ≤ 2 ^ t := by omega
  obtain ⟨hsp, hesp, hwords⟩ := hr.initProcess_fresh ha hroom h
  rw [Nat.add_sub_cancel, hgood.represents.stands.scale_eq (Or.inl ha)]
  refine ⟨hsp, fun T i tr u u' hbottom htop hrun hfirst => ?_⟩
  obtain ⟨hbefore, hswitch⟩ := hrun.last
  rw [← htop] at hesp hwords
  have hfresh := (hbefore.invariant_of
    (I := fun s => Fresh T C i pid entryPoint s.cpu.mem ∧ s.running ≠ i) (C := fun _ e => e ≠ .switch i)
    (fun s hc => ⟨hc.fresh (by omega) hesp hwords, hc.running⟩)
    (fun s e s' hI he hs => hI.1.step hI.2 he hs) hfirst).1
  have hstart := hfresh.1.switch hfresh.2 hswitch
  exact ⟨hstart, fun v hv => hstart.kills hv⟩

end Created

/-! ### A first process -/

/-- The boot stack, and the first block of 500 bytes. -/
def firstStack : Tasks Bool where
  stackBottom i := if i then heapLowerBound + 9 else 4096
  stackTop i := if i then heapLowerBound + 512 else 8192
  context i := if i then 1048 else 1024
  stack_le := by decide
  context_le := pages.context_le
  stacksDisjoint := by decide
  contextsDisjoint := pages.contextsDisjoint
  apart := by decide

/-- The heap is set up on memory that is all zero. -/
def bootHeap : Heap := (Heap.initHeap kernelImage Memory.zero heapLowerBound).getD ⟨Memory.zero, 0⟩

/-- About to switch to the process just created. -/
def starting (k : Kernel) : System Bool where
  cpu := ⟨fun r => if r = .esp then 8000#32 else 7#32, .ofWord 0x202#32, 0#32,
    ((k.heap.mem.storeWord 1048#32 (BitVec.ofNat 32 (heapLowerBound + 456))).storeWord 8004#32 1024#32).storeWord
      8008#32 1048#32⟩
  running := false

theorem created_starting (k : Kernel) (hesp : (k.deref (some 0)).context.esp = heapLowerBound + 456) :
    Created firstStack true k (some 0) (starting k) := by
  refine ⟨Bool.false_ne_true, fun x h1 _ => ?_, fun a ha => ?_⟩
  · have hA := addressSpace_eq
    have hlow : heapLowerBound + 9 ≤ x := h1
    have hx : 8012 ≤ x := Nat.le_trans (by decide) hlow
    have hstore : ∀ (m : Memory) (b v : Word), b.toNat ≤ 8008 → (m.storeWord b v).byte x = m.byte x := fun m b v hb =>
      (spares_store32 (R := fun y => y = x) m v.toNat (by omega) (by omega)).bytes x rfl
    exact (hstore _ _ _ (by decide)).trans ((hstore _ _ _ (by decide)).trans (hstore _ _ _ (by decide)))
  · have ha' : a = 1048#32 := BitVec.eq_of_toNat_eq ha
    rw [ha', hesp]
    have hword : (starting k).cpu.mem.loadWord 1048#32 = BitVec.ofNat 32 (heapLowerBound + 456) :=
      (loadWord_storeWord_ne _ _ (by decide) (by decide) (by decide)).trans
        ((loadWord_storeWord_ne _ _ (by decide) (by decide) (by decide)).trans
          (loadWord_storeWord _ _ (by decide)))
    rw [hword]
    decide

theorem starting_calls (k : Kernel) : Calls firstStack (starting k) true := by
  have hroom : 4096 + 40 ≤ (8000#32).toNat := by decide
  have hinside : (8000#32).toNat + 12 ≤ 8192 := by decide
  refine ⟨hroom, hinside, ?_, ?_⟩
  · have hword : (starting k).cpu.mem.loadWord 8004#32 = 1024#32 :=
      (loadWord_storeWord_ne _ _ (by decide) (by decide) (by decide)).trans
        (loadWord_storeWord _ _ (by decide))
    exact congrArg BitVec.toNat hword
  · have hword : (starting k).cpu.mem.loadWord 8008#32 = 1048#32 := loadWord_storeWord _ _ (by decide)
    exact congrArg BitVec.toNat hword

theorem initProcess_starts_first : ∃ k : Kernel,
    Starts ⟨0x100000, 0x100010⟩ 0 0x200000 (run (starting k).cpu contextSwitch) := by
  have hexec : ((Session.call kernelImage ⟨bootHeap, []⟩ (.allocate 500)).bind fun s =>
      ((({Kernel.atLoad with heap := s.heap} : Kernel).initProcess ⟨0x100000, 0x100010⟩ 0x200000
        (heapLowerBound + 9)).map fun r => (s, r))).any (fun (s, k, pid) =>
      s.live = [(heapLowerBound + 9, 500)] ∧ s.heap.mem.scale heapLowerBound = 9 ∧ pid = 0 ∧
        (k.deref (some 0)).context.esp = heapLowerBound + 456) = true := by decide +kernel
  obtain ⟨⟨s, k, pid⟩, hcalls, hfinal⟩ := (Option.any_eq_true _ _).mp hexec
  obtain ⟨hlive, hscale, rfl, hesp⟩ := of_decide_eq_true hfinal
  rw [Option.bind_eq_some_iff] at hcalls
  obtain ⟨s', hcall, hcalls⟩ := hcalls
  rw [Option.map_eq_some_iff] at hcalls
  obtain ⟨r, hinit, heq⟩ := hcalls
  cases heq
  obtain ⟨h, hboot, -⟩ := represents_initHeap kernelImage Memory.zero
  have hbooted : Session.Booted kernelImage ⟨bootHeap, []⟩ := by
    refine ⟨rfl, Memory.zero, ?_⟩
    unfold bootHeap
    rw [hboot]
    rfl
  have hstep : Session.Step kernelImage ⟨bootHeap, []⟩ (.allocate 500) s := ⟨trivial, hcall⟩
  have hreached : Session.Reached kernelImage s := ⟨_, (Run.start hbooted).next hstep⟩
  have hp : (heapLowerBound + 9, 500) ∈ s.live := hlive ▸ List.mem_singleton_self _
  have hswitch : Step firstStack (starting k) (.switch true) ⟨run (starting k).cpu contextSwitch, true⟩ :=
    ⟨starting_calls k, rfl⟩
  refine ⟨k, ((initProcess_starts hreached hp (Nat.le_refl _) rfl hinit).2 firstStack true [] _ _ rfl ?_
    ((Run.start (created_starting k hesp)).next hswitch) fun x hx => (List.not_mem_nil hx).elim).1⟩
  show heapLowerBound + 512 = heapLowerBound + 9 - headerSize + 2 ^ s.heap.mem.scale (heapLowerBound + 9 - headerSize)
  rw [show heapLowerBound + 9 - headerSize = heapLowerBound from rfl, hscale]
  rfl

end ShompOS
