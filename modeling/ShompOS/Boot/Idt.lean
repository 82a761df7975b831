import ShompOS.FakeLibc.String

/-! The interrupt descriptor table (`kernel.c`, `ist.S`).

`init_idt` writes the offset of a handler in two halves, with the selector and the flags
between them; the processor puts them together again. Of the 256 vectors those of the
exceptions lead to the routines of `isr_stub_table`, three lead to handlers, and the
others have no gate, since the table is zero before. -/
namespace ShompOS
open Memory

/-- The address of the second byte wraps. -/
def Memory.store16 (m : Memory) (a v : Nat) : Memory := (m.store8 (wrap a) v).store8 (wrap (a + 1)) (v / 2 ^ 8)

namespace Idt

/-- `IDT_SIZE` -/
def idtSize : Nat := 0x100

/-- `EXCEPTIONS_SIZE` -/
def exceptionsSize : Nat := 0x20

/-- `KERNEL_CODE_SEGMENT_OFFSET` -/
def kernelCodeSegmentOffset : Nat := 0x8

/-- `IDT_INTERRUPT_GATE_32BIT` -/
def idtInterruptGate32bit : Nat := 0x8E

/-- `IDT_TRAP_GATE_32BIT` -/
def idtTrapGate32bit : Nat := 0x8F

/-- Where the table and the handlers are. -/
structure Image where
  idt : Nat
  isrStubTable : Nat
  syscallHandler : Nat
  keyboardHandler : Nat
  clockHandler : Nat
  idt_le : idt + 8 * idtSize ≤ addressSpace
  isrStubTable_le : isrStubTable + 4 * exceptionsSize ≤ addressSpace
  apart : isrStubTable + 4 * exceptionsSize ≤ idt ∨ idt + 8 * idtSize ≤ isrStubTable
  handlers_lt : syscallHandler < addressSpace ∧ keyboardHandler < addressSpace ∧ clockHandler < addressSpace

/-- `idt_set_descriptor`, with the fields of an entry in the order of the source. -/
def idtSetDescriptor (idt : Nat) (m : Memory) (interruptNum offset flags : Nat) : Memory :=
  let entry := idt + 8 * interruptNum
  let m := m.store16 entry (offset % 2 ^ 16)
  let m := m.store16 (entry + 2) kernelCodeSegmentOffset
  let m := m.store8 (wrap (entry + 4)) 0
  let m := m.store8 (wrap (entry + 5)) flags
  m.store16 (entry + 6) (offset / 2 ^ 16)

/-- The loop of `init_idt` over the first `n` exceptions. -/
def setExceptions (I : Image) (m : Memory) (n : Nat) : Memory :=
  (List.range n).foldl (fun m i =>
    idtSetDescriptor I.idt m i (m.load32 (wrap (I.isrStubTable + 4 * i))) idtTrapGate32bit) m

/-- What `init_idt` does to the table. -/
def initIdt (I : Image) (m : Memory) : Memory :=
  let m := setExceptions I m exceptionsSize
  let m := idtSetDescriptor I.idt m 0x80 I.syscallHandler idtInterruptGate32bit
  let m := idtSetDescriptor I.idt m 0x21 I.keyboardHandler idtInterruptGate32bit
  idtSetDescriptor I.idt m 0x20 I.clockHandler idtTrapGate32bit

/-! ### What the processor makes of an entry -/

structure Descriptor where
  offset : Nat
  selector : Nat
  typeAttr : Nat
  deriving DecidableEq

namespace Descriptor

def present (d : Descriptor) : Bool := d.typeAttr / 2 ^ 7 % 2 = 1

/-- An interrupt gate of 32 bits. -/
def interruptGate (d : Descriptor) : Bool := d.typeAttr % 2 ^ 5 = 0b01110

end Descriptor

theorem interruptGate_flags (offset selector : Nat) :
    Descriptor.interruptGate ⟨offset, selector, idtInterruptGate32bit⟩ = true :=
  decide_eq_true (by decide : 0x8E % 2 ^ 5 = 0b01110)

/-- The entry of a vector. -/
def descriptor (idt : Nat) (m : Memory) (vector : Nat) : Descriptor where
  offset := m.load16 (idt + 8 * vector) + 2 ^ 16 * m.load16 (idt + 8 * vector + 6)
  selector := m.load16 (idt + 8 * vector + 2)
  typeAttr := m.load8 (wrap (idt + 8 * vector + 5))

variable {I : Image} {m m' : Memory} {idt n v offset flags : Nat}

/-- An entry is read from its eight bytes. -/
theorem descriptor_congr (hv : idt + 8 * v + 8 ≤ addressSpace)
    (h : ∀ x, idt + 8 * v ≤ x → x < idt + 8 * v + 8 → m'.byte x = m.byte x) :
    descriptor idt m' v = descriptor idt m v := by
  unfold descriptor
  rw [load16_congr (by omega) fun x h1 h2 => h x (by omega) (by omega),
    load16_congr (by omega) fun x h1 h2 => h x (by omega) (by omega),
    load16_congr (by omega) fun x h1 h2 => h x (by omega) (by omega), wrap_eq (by omega),
    load8_congr (h _ (by omega) (by omega))]

/-- The bytes of an entry. -/
def entryBytes (offset flags : Nat) : List Nat :=
  [offset % 2 ^ 16, offset % 2 ^ 16 / 2 ^ 8, kernelCodeSegmentOffset, kernelCodeSegmentOffset / 2 ^ 8, 0, flags,
    offset / 2 ^ 16, offset / 2 ^ 16 / 2 ^ 8]

theorem idtSetDescriptor_byte (hn : idt + 8 * n + 8 ≤ addressSpace) (m : Memory) (offset flags x : Nat) :
    (idtSetDescriptor idt m n offset flags).byte x =
      if idt + 8 * n ≤ x ∧ x < idt + 8 * n + 8 then UInt8.ofNat ((entryBytes offset flags).getD (x - (idt + 8 * n)) 0)
      else m.byte x := by
  unfold idtSetDescriptor store16
  dsimp only
  generalize idt + 8 * n = e at *
  rw [wrap_eq (a := e) (by omega), wrap_eq (a := e + 1) (by omega), wrap_eq (a := e + 2) (by omega),
    wrap_eq (a := e + 2 + 1) (by omega), wrap_eq (a := e + 4) (by omega), wrap_eq (a := e + 5) (by omega),
    wrap_eq (a := e + 6) (by omega), wrap_eq (a := e + 6 + 1) (by omega)]
  simp only [byte_store8]
  by_cases hx : e ≤ x ∧ x < e + 8
  · obtain ⟨i, rfl⟩ := Nat.exists_eq_add_of_le hx.1
    have hi : i = 0 ∨ i = 1 ∨ i = 2 ∨ i = 3 ∨ i = 4 ∨ i = 5 ∨ i = 6 ∨ i = 7 := by omega
    rcases hi with rfl | rfl | rfl | rfl | rfl | rfl | rfl | rfl <;> simp [entryBytes, Nat.add_assoc]
  · rw [if_neg (by omega), if_neg (by omega), if_neg (by omega), if_neg (by omega), if_neg (by omega),
      if_neg (by omega), if_neg (by omega), if_neg (by omega), if_neg hx]

/-- What is put into an entry comes out of it. -/
theorem descriptor_set (hn : idt + 8 * n + 8 ≤ addressSpace) (m : Memory) (hoffset : offset < addressSpace)
    (hflags : flags < 2 ^ 8) :
    descriptor idt (idtSetDescriptor idt m n offset flags) n = ⟨offset, kernelCodeSegmentOffset, flags⟩ := by
  have hat : ∀ i, i < 8 → (idtSetDescriptor idt m n offset flags).load8 (wrap (idt + 8 * n + i)) =
      (entryBytes offset flags).getD i 0 % 2 ^ 8 := by
    intro i hi
    rw [wrap_eq (by omega)]
    unfold load8
    rw [idtSetDescriptor_byte hn, if_pos (by omega), Nat.add_sub_cancel_left]
    simp
  unfold descriptor load16
  rw [Nat.add_assoc _ 2 1, Nat.add_assoc _ 6 1, ← Nat.add_zero (idt + 8 * n), Nat.add_assoc _ 0 2, Nat.add_assoc _ 0 6,
    Nat.add_assoc _ 0 5, Nat.add_assoc _ 0 1]
  simp only [Nat.zero_add, Nat.reduceAdd]
  rw [hat 0 (by decide), hat 1 (by decide), hat 2 (by decide), hat 3 (by decide), hat 5 (by decide), hat 6 (by decide),
    hat 7 (by decide)]
  have h32 : addressSpace = 2 ^ 32 := rfl
  simp only [entryBytes, List.getD_cons_zero, List.getD_cons_succ, Descriptor.mk.injEq]
  refine ⟨by omega, by decide, by omega⟩

theorem descriptor_set_ne (hn : idt + 8 * n + 8 ≤ addressSpace) (hv : idt + 8 * v + 8 ≤ addressSpace) (hne : n ≠ v)
    (m : Memory) (offset flags : Nat) :
    descriptor idt (idtSetDescriptor idt m n offset flags) v = descriptor idt m v := by
  refine descriptor_congr hv fun x h1 h2 => ?_
  rw [idtSetDescriptor_byte hn, if_neg (by omega)]

/-! ### The whole table -/

/-- Bytes that are no entry's. -/
def Outside (idt x : Nat) : Prop := x < idt ∨ idt + 8 * idtSize ≤ x

theorem idtSetDescriptor_outside (hn : n < idtSize) (hidt : idt + 8 * idtSize ≤ addressSpace) (m : Memory)
    (offset flags : Nat) {x : Nat} (hx : Outside idt x) :
    (idtSetDescriptor idt m n offset flags).byte x = m.byte x := by
  have h256 : idtSize = 256 := rfl
  unfold Outside at hx
  rw [idtSetDescriptor_byte (by omega), if_neg (by omega)]

/-- After the first `n` rounds, for which the routines' addresses stand where they stood. -/
theorem setExceptions_spec (I : Image) (m : Memory) (hn : n ≤ exceptionsSize) :
    (∀ x, Outside I.idt x → (setExceptions I m n).byte x = m.byte x) ∧
      ∀ v, v < idtSize → descriptor I.idt (setExceptions I m n) v =
        if v < n then ⟨m.load32 (I.isrStubTable + 4 * v), kernelCodeSegmentOffset, idtTrapGate32bit⟩
        else descriptor I.idt m v := by
  have h256 : idtSize = 256 := rfl
  have h32 : exceptionsSize = 32 := rfl
  have hidt := I.idt_le
  have hstub := I.isrStubTable_le
  have hapart := I.apart
  induction n with
  | zero => exact ⟨fun _ _ => rfl, fun v _ => (if_neg (Nat.not_lt_zero v)).symm⟩
  | succ n ih =>
    obtain ⟨hout, hall⟩ := ih (by omega)
    have hstep : setExceptions I m (n + 1) = idtSetDescriptor I.idt (setExceptions I m n) n
        ((setExceptions I m n).load32 (wrap (I.isrStubTable + 4 * n))) idtTrapGate32bit := by
      unfold setExceptions
      rw [List.range_succ, List.foldl_append]
      rfl
    have hentry : (setExceptions I m n).load32 (wrap (I.isrStubTable + 4 * n)) =
        m.load32 (I.isrStubTable + 4 * n) := by
      rw [wrap_eq (by omega)]
      exact load32_congr (by omega) fun x h1 h2 => hout x (by unfold Outside; omega)
    rw [hstep, hentry]
    refine ⟨fun x hx => ?_, fun v hv => ?_⟩
    · rw [idtSetDescriptor_outside (by omega) hidt _ _ _ hx]
      exact hout x hx
    · by_cases hvn : v = n
      · rw [hvn, descriptor_set (by omega) _ (load32_lt _ _) (by decide), if_pos (Nat.lt_succ_self n)]
      · rw [descriptor_set_ne (by omega) (by omega) (Ne.symm hvn), hall v hv]
        by_cases hlt : v < n
        · rw [if_pos hlt, if_pos (by omega)]
        · rw [if_neg hlt, if_neg (by omega)]

/-- The entry that a vector is to have. -/
def entryOf (I : Image) (m : Memory) (v : Nat) : Option Descriptor :=
  if v = 0x20 then some ⟨I.clockHandler, kernelCodeSegmentOffset, idtTrapGate32bit⟩
  else if v = 0x21 then some ⟨I.keyboardHandler, kernelCodeSegmentOffset, idtInterruptGate32bit⟩
  else if v = 0x80 then some ⟨I.syscallHandler, kernelCodeSegmentOffset, idtInterruptGate32bit⟩
  else if v < exceptionsSize then some ⟨m.load32 (I.isrStubTable + 4 * v), kernelCodeSegmentOffset, idtTrapGate32bit⟩
  else none

/-- From a table that is zero `init_idt` makes one in which each of the 256 vectors leads
to its handler, or nowhere if it has none; it writes nothing else. -/
theorem initIdt_descriptors (I : Image) (m : Memory)
    (hzero : ∀ x, I.idt ≤ x → x < I.idt + 8 * idtSize → m.byte x = 0) :
    (∀ v, v < idtSize → (∀ d, entryOf I m v = some d → descriptor I.idt (initIdt I m) v = d) ∧
      (entryOf I m v = none → (descriptor I.idt (initIdt I m) v).present = false)) ∧
      ∀ x, Outside I.idt x → (initIdt I m).byte x = m.byte x := by
  have h256 : idtSize = 256 := rfl
  have h32 : exceptionsSize = 32 := rfl
  have hidt := I.idt_le
  obtain ⟨hsys, hkey, hclock⟩ := I.handlers_lt
  obtain ⟨hout, hall⟩ := setExceptions_spec I m (Nat.le_refl exceptionsSize)
  refine ⟨fun v hv => ?_, fun x hx => ?_⟩
  · unfold entryOf initIdt
    dsimp only
    by_cases h20 : v = 0x20
    · rw [if_pos h20, h20, descriptor_set (by omega) _ hclock (by decide)]
      exact ⟨fun d hd => Option.some.inj hd, fun h => absurd h (Option.some_ne_none _)⟩
    rw [if_neg h20, descriptor_set_ne (by omega) (by omega) (Ne.symm h20)]
    by_cases h21 : v = 0x21
    · rw [if_pos h21, h21, descriptor_set (by omega) _ hkey (by decide)]
      exact ⟨fun d hd => Option.some.inj hd, fun h => absurd h (Option.some_ne_none _)⟩
    rw [if_neg h21, descriptor_set_ne (by omega) (by omega) (Ne.symm h21)]
    by_cases h80 : v = 0x80
    · rw [if_pos h80, h80, descriptor_set (by omega) _ hsys (by decide)]
      exact ⟨fun d hd => Option.some.inj hd, fun h => absurd h (Option.some_ne_none _)⟩
    rw [if_neg h80, descriptor_set_ne (by omega) (by omega) (Ne.symm h80), hall v hv]
    by_cases hexc : v < exceptionsSize
    · rw [if_pos hexc, if_pos hexc]
      exact ⟨fun d hd => Option.some.inj hd, fun h => absurd h (Option.some_ne_none _)⟩
    · rw [if_neg hexc, if_neg hexc]
      refine ⟨fun d hd => absurd hd.symm (Option.some_ne_none d), fun _ => ?_⟩
      have hbyte : m.load8 (wrap (I.idt + 8 * v + 5)) = 0 := by
        rw [wrap_eq (by omega)]
        unfold load8
        rw [hzero _ (by omega) (by omega)]
        rfl
      unfold descriptor Descriptor.present
      rw [hbyte]
      exact decide_eq_false (by decide : ¬ 0 / 2 ^ 7 % 2 = 1)
  · unfold initIdt
    dsimp only
    rw [idtSetDescriptor_outside (by decide) hidt _ _ _ hx, idtSetDescriptor_outside (by decide) hidt _ _ _ hx,
      idtSetDescriptor_outside (by decide) hidt _ _ _ hx, hout x hx]

/-- A table at 2 MiB and the routines behind it. -/
def sampleImage : Image where
  idt := 0x200000
  isrStubTable := 0x201000
  syscallHandler := 0x101000
  keyboardHandler := 0x12345678
  clockHandler := 0x103000
  idt_le := by decide
  isrStubTable_le := by decide
  apart := by decide
  handlers_lt := by decide

theorem initIdt_descriptors_zero :
    descriptor sampleImage.idt (initIdt sampleImage .zero) 0x21 = ⟨0x12345678, 8, idtInterruptGate32bit⟩ ∧
      (descriptor sampleImage.idt (initIdt sampleImage .zero) 0x27).present = false := by
  have h := (initIdt_descriptors sampleImage .zero fun _ _ _ => rfl).1
  exact ⟨(h 0x21 (by decide)).1 _ rfl, (h 0x27 (by decide)).2 rfl⟩

end Idt
end ShompOS
