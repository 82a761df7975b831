import ShompOS.Process.Syscalls

/-! The number of a system call (`boot.S`, `syscall_table.S`).

Any program may execute `int $0x80` with anything in its registers. The handler
checks nothing: it takes the word of the table that `eax` names, counted with
wraparound from wherever it points to, and calls it. The table has one function;
the other words are 0. Even the one function is called only as long as what is
pushed on the program's own stack does not run into its entry. -/
namespace ShompOS

namespace X86

/-- A step inside a handler: no call, and no return from it. -/
def Text.Inside (text : Text) (g : Gate) (s s' : Cpu) : Prop :=
  ∃ op next, text s.eip = some (op, next) ∧ (∀ r, op ≠ .call r) ∧ op ≠ .iret ∧ s' = op.exec g {s with eip := next}

/-- From `s` to `u` nothing is called. -/
abbrev Text.Within (text : Text) (g : Gate) : Cpu → Cpu → Prop := Relation.ReflTransGen (text.Inside g)

variable {text : Text} {g : Gate} {ops rest : List Op} {a : Word} {r : Reg}

theorem Op.Straight.ne_call {op : Op} (h : op.Straight) (r : Reg) : op ≠ .call r := by
  rintro rfl
  exact h

theorem Op.Straight.ne_iret {op : Op} (h : op.Straight) : op ≠ .iret := by
  rintro rfl
  exact h

/-- Straight code runs to its end without a call. -/
theorem within_straight (h : ∀ op ∈ ops, op.Straight) (htext : text.Stands a (ops ++ rest)) (s : Cpu) :
    ∃ b, text.Stands b rest ∧ text.Within g {s with eip := a} {runOps g s ops with eip := b} := by
  induction ops generalizing a s with
  | nil => exact ⟨a, htext, .refl⟩
  | cons op ops ih =>
    obtain ⟨b, hop, htext⟩ := htext
    have hstraight := h op (List.mem_cons_self ..)
    obtain ⟨c, hrest, hsteps⟩ := ih (fun op' hop' => h op' (List.mem_cons_of_mem _ hop')) htext (op.exec g s)
    exact ⟨c, hrest, .head ⟨op, b, hop, hstraight.ne_call, hstraight.ne_iret, (hstraight.exec_eip g s b).symm⟩ hsteps⟩

/-- And whatever it comes to before a call is on the way there. -/
theorem within_straight_inv (h : ∀ op ∈ ops, op.Straight) (htext : text.Stands a (ops ++ .call r :: rest)) {s u : Cpu}
    (hu : text.Within g {s with eip := a} u) :
    ∃ k b, k ≤ ops.length ∧ u = {runOps g s (ops.take k) with eip := b} ∧
      text.Stands b (ops.drop k ++ .call r :: rest) := by
  induction ops generalizing a s with
  | nil =>
    obtain ⟨b, hcall, hrest⟩ := htext
    cases hu.cases_head with
    | inl hend => exact ⟨0, a, Nat.le_refl 0, hend.symm, b, hcall, hrest⟩
    | inr hstep =>
      obtain ⟨v, ⟨op, next, hop, hno, -, -⟩, -⟩ := hstep
      rw [hcall] at hop
      cases hop
      exact absurd rfl (hno r)
  | cons op ops ih =>
    obtain ⟨b, hop, hrest⟩ := htext
    cases hu.cases_head with
    | inl hend => exact ⟨0, a, Nat.zero_le _, hend.symm, b, hop, hrest⟩
    | inr hstep =>
      obtain ⟨v, ⟨op', next, hop', -, -, hv⟩, hvu⟩ := hstep
      rw [hop] at hop'
      cases hop'
      have hexec : v = {op.exec g s with eip := b} := hv.trans ((h op (List.mem_cons_self ..)).exec_eip g s b)
      subst hexec
      obtain ⟨k, c, hk, hu, hstands⟩ := ih (fun op' hop' => h op' (List.mem_cons_of_mem _ hop')) hrest hvu
      exact ⟨k + 1, c, Nat.succ_le_succ hk, hu, hstands⟩

end X86

namespace Syscall
open X86 Memory

/-- `sys_table` as it is assembled: `.long 0`, `.long syscall_exit`, `.space 1528`. -/
def sysTableWords (syscallExit : Word) : List Word := 0#32 :: syscallExit :: List.replicate 382 0#32

/-- The number has a function in the table. -/
def Handled (syscallExit n : Word) : Prop :=
  ∃ f, (sysTableWords syscallExit)[n.toNat]? = some f ∧ f ≠ 0#32

/-- What `eax` is read as on return from a call that failed. -/
def Failed (v : Word) : Prop := v.toInt < 0

/-- `s` is about to execute `int $0x80`, behind which the program goes on at `afterInt`. -/
structure Image.Interrupts (I : Image) (syscallExit : Word) (s : Cpu) (afterInt : Word) : Prop where
  int : I.text s.eip = some (.int, afterInt)
  exit : syscallExit ≠ 0#32

/-- The interrupt is dispatched as a table of functions should be: what is called is a function of the
table, and a number without one is back behind the interrupt with an error, before anything is called. -/
structure Image.Dispatches (I : Image) (syscallExit : Word) (s : Cpu) (afterInt : Word) : Prop where
  called : ∀ u r a, I.text.Within I.gate (Op.int.exec I.gate {s with eip := afterInt}) u →
    I.text u.eip = some (.call r, a) → u.reg r ≠ 0#32 ∧ u.reg r ∈ sysTableWords syscallExit
  refused : ¬ Handled syscallExit (s.reg .eax) →
    ∃ u next v, I.text.Within I.gate (Op.int.exec I.gate {s with eip := afterInt}) u ∧
      I.text u.eip = some (.iret, next) ∧ v = Op.iret.exec I.gate {u with eip := next} ∧
      v.eip = afterInt ∧ v.reg .esp = s.reg .esp ∧ Failed (v.reg .eax)

/-- What lies on the program's stack when the table is read, the first word highest. -/
def pushed (I : Image) (s : Cpu) (afterInt : Word) : List Word :=
  [s.eflags.bits, s.cs.setWidth 32, afterInt, (Op.int.exec I.gate s).eflags.bits, s.reg .ebp, s.reg .edi,
    s.reg .esi, s.reg .edx, s.reg .ecx, s.reg .ebx]

variable {I : Image} {syscallExit afterInt n : Word} {s : Cpu}

/-- The one number that has a function is that of `exit`. -/
theorem handled_iff (hexit : syscallExit ≠ 0#32) : Handled syscallExit n ↔ n = 1#32 := by
  unfold Handled sysTableWords
  constructor
  · rintro ⟨f, hf, hne⟩
    apply BitVec.eq_of_toNat_eq
    match hn : n.toNat with
    | 0 =>
      rw [hn] at hf
      exact absurd (Option.some.inj hf).symm hne
    | 1 => rfl
    | k + 2 =>
      rw [hn, List.getElem?_cons_succ, List.getElem?_cons_succ] at hf
      exact absurd (List.eq_of_mem_replicate (List.mem_of_getElem? hf)) hne
  · rintro rfl
    exact ⟨syscallExit, rfl, hexit⟩

theorem mem_sysTableWords_iff {f : Word} (hf : f ≠ 0#32) : f ∈ sysTableWords syscallExit ↔ f = syscallExit := by
  unfold sysTableWords
  rw [List.mem_cons, or_iff_right hf, List.mem_cons, or_iff_left fun h => hf (List.eq_of_mem_replicate h)]

/-- What the handler comes to before it calls anything. -/
theorem Image.within_dispatch (I : Image) {t u : Cpu} (heip : t.eip = I.gate.offset) (hu : I.text.Within I.gate t u) :
    (∃ op next, I.text u.eip = some (op, next) ∧ op.Straight) ∨
      ∃ b next, u = {runOps I.gate t (dispatch I.sysTable) with eip := b} ∧ I.text b = some (.call .eax, next) := by
  have hself : {t with eip := I.gate.offset} = t := by
    rw [← heip]
  rw [← hself] at hu
  obtain ⟨k, b, hk, rfl, hstands⟩ := within_straight_inv (dispatch_straight I.sysTable) I.syscallHandler_stands hu
  cases hdrop : (dispatch I.sysTable).drop k with
  | nil =>
    rw [hdrop] at hstands
    obtain ⟨next, hcall, -⟩ := hstands
    rw [List.take_of_length_le (List.drop_eq_nil_iff.mp hdrop)]
    exact .inr ⟨b, next, rfl, hcall⟩
  | cons op ops =>
    rw [hdrop] at hstands
    obtain ⟨next, hop, -⟩ := hstands
    have hmem : op ∈ dispatch I.sysTable := List.mem_of_mem_drop (hdrop ▸ List.mem_cons_self ..)
    exact .inl ⟨op, next, hop, dispatch_straight I.sysTable op hmem⟩

/-- The word that is called is read when everything has been pushed. -/
theorem Image.called_word (I : Image) (s : Cpu) (afterInt : Word) :
    (runOps I.gate (Op.int.exec I.gate {s with eip := afterInt}) (dispatch I.sysTable)).reg .eax =
      (s.pushWords (pushed I s afterInt)).mem.loadWord (I.sysTable + 4#32 * s.reg .eax) := by
  obtain ⟨hpush, heax⟩ := run_dispatch I.gate I.sysTable (Op.int.exec I.gate {s with eip := afterInt})
  have hint : HasPushed s.toState [s.eflags.bits, s.cs.setWidth 32, afterInt]
      (Op.int.exec I.gate {s with eip := afterInt}).toState := ⟨rfl, rfl⟩
  rw [heax, (hint.trans hpush).mem]
  rfl

/-- The handler does not return before it has called. -/
theorem Image.not_refused (I : Image) {t u : Cpu} {next : Word} (heip : t.eip = I.gate.offset)
    (hu : I.text.Within I.gate t u) : I.text u.eip ≠ some (.iret, next) := by
  intro hiret
  cases I.within_dispatch heip hu with
  | inl h =>
    obtain ⟨op, next', hop, hstraight⟩ := h
    rw [hiret] at hop
    cases hop
    exact hstraight
  | inr h =>
    obtain ⟨b, next', rfl, hcall⟩ := h
    exact absurd (hcall.symm.trans hiret) nofun

/-- What it calls is the word that it has read. -/
theorem Image.called_eq (I : Image) {t u : Cpu} {r : Reg} {next : Word} (heip : t.eip = I.gate.offset)
    (hu : I.text.Within I.gate t u) (hcall : I.text u.eip = some (.call r, next)) :
    u.reg r = (runOps I.gate t (dispatch I.sysTable)).reg .eax := by
  cases I.within_dispatch heip hu with
  | inl h =>
    obtain ⟨op, next', hop, hstraight⟩ := h
    rw [hcall] at hop
    cases hop
    exact absurd hstraight not_false
  | inr h =>
    obtain ⟨b, next', rfl, hcall'⟩ := h
    cases hcall.symm.trans hcall'
    rfl

/-- Only the number of `exit` is dispatched, and only where the entry of `exit` is not pushed over. -/
theorem Image.dispatches_iff (h : I.Interrupts syscallExit s afterInt) :
    I.Dispatches syscallExit s afterInt ↔ s.reg .eax = 1#32 ∧
      (s.pushWords (pushed I s afterInt)).mem.loadWord (I.sysTable + 4#32) = syscallExit := by
  have hword := I.called_word s afterInt
  constructor
  · intro hd
    have hone : s.reg .eax = 1#32 := by
      by_contra hne
      obtain ⟨u, next, v, hu, hiret, -⟩ := hd.refused fun hh => hne ((handled_iff h.exit).mp hh)
      exact I.not_refused rfl hu hiret
    obtain ⟨b, ⟨next, hcall, -⟩, hu⟩ := within_straight (dispatch_straight I.sysTable) I.syscallHandler_stands
      (Op.int.exec I.gate {s with eip := afterInt})
    obtain ⟨hne, hmem⟩ := hd.called _ .eax next hu hcall
    have hexit := (mem_sysTableWords_iff hne).mp hmem
    refine ⟨hone, ?_⟩
    rw [hone] at hword
    exact hword.symm.trans hexit
  · rintro ⟨hone, hentry⟩
    constructor
    · intro u r a hu hcall
      have hval : u.reg r = syscallExit := by
        rw [I.called_eq rfl hu hcall, hword, hone]
        exact hentry
      rw [hval]
      exact ⟨h.exit, (mem_sysTableWords_iff h.exit).mpr rfl⟩
    · exact fun hno => absurd ((handled_iff h.exit).mpr hone) hno

/-- About to execute the interrupt of `do_syscall`, with the table as it is assembled. -/
def requesting (n : Word) : Cpu where
  reg r := if r = .esp then 0x8000#32 else if r = .eax then n else 5#32
  eflags := .ofWord 0x202#32
  eip := 0x100b#32
  mem := Memory.zero.storeWord 0x3004#32 0x4000#32
  cs := 8#16

theorem requesting_interrupts (n : Word) : linked.Interrupts 0x4000#32 (requesting n) 0x100c#32 := by
  refine ⟨?_, by decide⟩
  show linked.text 0x100b#32 = some (.int, 0x100c#32)
  rfl

theorem dispatches_iff_exit : linked.Dispatches 0x4000#32 (requesting 1#32) 0x100c#32 :=
  (linked.dispatches_iff (requesting_interrupts 1#32)).mpr (by decide +kernel)

/-- `write` of the programs' library is not dispatched: address 0 is called. -/
theorem write_not_dispatched : ¬ linked.Dispatches 0x4000#32 (requesting 4#32) 0x100c#32 ∧
    (runOps linked.gate (Op.int.exec linked.gate {requesting 4#32 with eip := 0x100c#32})
      (dispatch linked.sysTable)).reg
      .eax = 0#32 := by
  constructor
  · intro hd
    obtain ⟨u, next, v, hu, hiret, -⟩ := hd.refused fun h => absurd ((handled_iff (by decide)).mp h) (by decide)
    exact linked.not_refused rfl hu hiret
  · rw [linked.called_word]
    decide +kernel

end Syscall
end ShompOS
