import ShompOS.Memory
import Mathlib.Logic.Function.Basic

/-! The i386 instructions that move words between registers and a stack.

General registers and addresses are 32-bit vectors over the byte memory. EFLAGS
is a word whose reserved bits have their fixed values and whose virtual-mode and
resume bits are clear, which is how it stands between two instructions of code
running in ring 0; `popfl` there loads every other bit. The instructions are
those a hand-written stack switch is made of, without their lengths: `eip` is
only what `ret` makes it. What a sequence of pushes leaves in memory is stated
once, for any list of words (`pushWords`). -/
namespace ShompOS
namespace X86

abbrev Word := BitVec 32

inductive Reg
  | eax
  | ecx
  | edx
  | ebx
  | esp
  | ebp
  | esi
  | edi
  deriving DecidableEq

/-- The bits of EFLAGS that `popfl` loads in ring 0: CF, PF, AF, ZF, SF, TF, IF,
DF, OF, IOPL, NT, AC and ID. -/
def flagMask : Word := 0x247FD5#32

structure Eflags where
  bits : Word
  /-- Of the other bits only bit 1 is set. -/
  fixed : bits &&& ~~~flagMask = 2#32

theorem Eflags.ext {f g : Eflags} (h : f.bits = g.bits) : f = g := by
  cases f with
  | mk bits fixed =>
    cases h
    rfl

/-- What `popfl` makes of a word. -/
def Eflags.ofWord (w : Word) : Eflags where
  bits := (w &&& flagMask) ||| 2#32
  fixed := by
    have h : (2#32 : Word) &&& ~~~flagMask = 2#32 := by decide
    have h0 : flagMask &&& ~~~flagMask = 0#32 := by decide
    rw [BitVec.and_comm, BitVec.and_or_distrib_left, BitVec.and_comm (~~~flagMask) 2#32, h,
      BitVec.and_comm (~~~flagMask), BitVec.and_assoc, h0]
    simp

/-- `popfl` takes back what `pushfl` stored. -/
theorem Eflags.ofWord_bits (f : Eflags) : Eflags.ofWord f.bits = f := by
  apply Eflags.ext
  show (f.bits &&& flagMask) ||| 2#32 = f.bits
  have hall : flagMask ||| ~~~flagMask = BitVec.allOnes 32 := by decide
  rw [← f.fixed, ← BitVec.and_or_distrib_left, hall, BitVec.and_allOnes]

structure State where
  reg : Reg → Word
  eflags : Eflags
  eip : Word
  mem : Memory

end X86

namespace Memory
open X86

def loadWord (m : Memory) (a : Word) : Word := BitVec.ofNat 32 (m.load32 a.toNat)

def storeWord (m : Memory) (a v : Word) : Memory := m.store32 a.toNat v.toNat

theorem loadWord_storeWord (m : Memory) {a : Word} (v : Word) (ha : a.toNat + 4 ≤ addressSpace) :
    (m.storeWord a v).loadWord a = v := by
  unfold loadWord storeWord
  rw [load32_store32 m ha v.isLt, BitVec.ofNat_toNat, BitVec.setWidth_eq]

theorem loadWord_storeWord_ne (m : Memory) {a b : Word} (v : Word) (ha : a.toNat + 4 ≤ addressSpace)
    (hb : b.toNat + 4 ≤ addressSpace) (h : a.toNat + 4 ≤ b.toNat ∨ b.toNat + 4 ≤ a.toNat) :
    (m.storeWord a v).loadWord b = m.loadWord b := by
  unfold loadWord storeWord
  rw [load32_store32_ne m ha hb (by omega)]

theorem loadWord_congr {m m' : Memory} {a : Word} (ha : a.toNat + 4 ≤ addressSpace)
    (h : ∀ x, a.toNat ≤ x → x < a.toNat + 4 → m'.byte x = m.byte x) : m'.loadWord a = m.loadWord a := by
  unfold loadWord
  rw [load32_congr ha h]

end Memory

namespace X86
open Memory

/-! ### Instructions -/

def State.setReg (s : State) (r : Reg) (v : Word) : State := {s with reg := Function.update s.reg r v}

def State.push (s : State) (v : Word) : State :=
  let esp := s.reg .esp - 4#32
  {s.setReg .esp esp with mem := s.mem.storeWord esp v}

/-- Drops the word on top of the stack. -/
def State.skip (s : State) : State := s.setReg .esp (s.reg .esp + 4#32)

def State.pop (s : State) (r : Reg) : State := s.skip.setReg r (s.mem.loadWord (s.reg .esp))

def State.pushWords (s : State) (ws : List Word) : State := ws.foldl State.push s

inductive Instr
  | pushl (r : Reg)
  /-- `movl src, dst` -/
  | movl (src dst : Reg)
  /-- `movl disp(base), dst` -/
  | load (disp : Word) (base dst : Reg)
  /-- `movl src, (base)` -/
  | store (src base : Reg)
  | pushal
  | pushfl
  | popfl
  | popal
  | leave
  | ret

def Instr.exec (s : State) : Instr → State
  | .pushl r => s.push (s.reg r)
  | .movl src dst => s.setReg dst (s.reg src)
  | .load disp base dst => s.setReg dst (s.mem.loadWord (s.reg base + disp))
  | .store src base => {s with mem := s.mem.storeWord (s.reg base) (s.reg src)}
  | .pushal =>
    s.pushWords [s.reg .eax, s.reg .ecx, s.reg .edx, s.reg .ebx, s.reg .esp, s.reg .ebp, s.reg .esi,
      s.reg .edi]
  | .pushfl => s.push s.eflags.bits
  | .popfl => {s.skip with eflags := .ofWord (s.mem.loadWord (s.reg .esp))}
  | .popal =>
    -- the stored `esp` is not loaded
    let s := ((s.pop .edi).pop .esi).pop .ebp
    (((s.skip.pop .ebx).pop .edx).pop .ecx).pop .eax
  | .leave => (s.setReg .esp (s.reg .ebp)).pop .ebp
  | .ret => {s.skip with eip := s.mem.loadWord (s.reg .esp)}

def run (s : State) (is : List Instr) : State := is.foldl Instr.exec s

theorem run_append (s : State) (is js : List Instr) : run s (is ++ js) = run (run s is) js :=
  List.foldl_append

@[simp] theorem setReg_same (s : State) (r : Reg) (v : Word) : (s.setReg r v).reg r = v :=
  Function.update_self ..

theorem setReg_ne (s : State) {r q : Reg} (v : Word) (h : q ≠ r) : (s.setReg r v).reg q = s.reg q :=
  Function.update_of_ne h ..

@[simp] theorem setReg_mem (s : State) (r : Reg) (v : Word) : (s.setReg r v).mem = s.mem := rfl

@[simp] theorem setReg_eflags (s : State) (r : Reg) (v : Word) : (s.setReg r v).eflags = s.eflags := rfl

@[simp] theorem setReg_eip (s : State) (r : Reg) (v : Word) : (s.setReg r v).eip = s.eip := rfl

/-! ### Pushes -/

theorem toNat_sub_four {a : Word} (h : 4 ≤ a.toNat) : (a - 4#32).toNat = a.toNat - 4 := by
  rw [BitVec.toNat_sub_of_le]
  · rfl
  · exact h

theorem addressSpace_eq : addressSpace = 4294967296 := rfl

theorem push_esp (s : State) (v : Word) : (s.push v).reg .esp = s.reg .esp - 4#32 :=
  setReg_same s .esp _

theorem push_reg (s : State) (v : Word) {r : Reg} (h : r ≠ .esp) : (s.push v).reg r = s.reg r :=
  setReg_ne s _ h

theorem push_byte (s : State) (v : Word) (h : 4 ≤ (s.reg .esp).toNat) {x : Nat}
    (hx : x < (s.reg .esp).toNat - 4 ∨ (s.reg .esp).toNat ≤ x) :
    (s.push v).mem.byte x = s.mem.byte x := by
  have hlt := (s.reg .esp).isLt
  have hA := addressSpace_eq
  have ha := toNat_sub_four h
  have hsp := spares_store32 (R := fun y => y = x) s.mem (a := (s.reg .esp - 4#32).toNat) v.toNat
    (by omega) (by omega)
  exact hsp.bytes x rfl

theorem push_loadWord (s : State) (v : Word) (h : 4 ≤ (s.reg .esp).toNat) :
    (s.push v).mem.loadWord (s.reg .esp - 4#32) = v := by
  have hlt := (s.reg .esp).isLt
  have hA := addressSpace_eq
  have ha := toNat_sub_four h
  exact loadWord_storeWord s.mem v (by omega)

/-- The words `ws` pushed one after the other: the last one lies lowest. -/
structure Pushed (s : State) (ws : List Word) (s' : State) : Prop where
  esp : (s'.reg .esp).toNat = (s.reg .esp).toNat - 4 * ws.length
  reg : ∀ r, r ≠ .esp → s'.reg r = s.reg r
  eflags : s'.eflags = s.eflags
  bytes : ∀ x, x < (s.reg .esp).toNat - 4 * ws.length ∨ (s.reg .esp).toNat ≤ x →
    s'.mem.byte x = s.mem.byte x
  words : ∀ i (hi : i < ws.length), ∀ a : Word, a.toNat = (s.reg .esp).toNat - 4 * (i + 1) →
    s'.mem.loadWord a = ws[i]

theorem pushWords_pushed (ws : List Word) (s : State) (h : 4 * ws.length ≤ (s.reg .esp).toNat) :
    Pushed s ws (s.pushWords ws) := by
  induction ws generalizing s with
  | nil =>
    exact ⟨rfl, fun _ _ => rfl, rfl, fun _ _ => rfl, fun i hi => absurd hi (Nat.not_lt_zero i)⟩
  | cons w rest ih =>
    rw [List.length_cons] at h
    have hesp : ((s.push w).reg .esp).toNat = (s.reg .esp).toNat - 4 := by
      rw [push_esp, toNat_sub_four (by omega)]
    have hrest := ih (s.push w) (by omega)
    have hlt := (s.reg .esp).isLt
    have hA := addressSpace_eq
    refine ⟨?_, fun r hr => ?_, ?_, fun x hx => ?_, fun i hi a ha => ?_⟩
    · rw [State.pushWords, List.foldl_cons, ← State.pushWords, hrest.esp, hesp, List.length_cons]
      omega
    · exact (hrest.reg r hr).trans (push_reg s w hr)
    · exact hrest.eflags
    · rw [List.length_cons] at hx
      exact (hrest.bytes x (by omega)).trans (push_byte s w (by omega) (by omega))
    · cases i with
      | zero =>
        -- the pushes after it are below
        have ha' : a = s.reg .esp - 4#32 := by
          apply BitVec.eq_of_toNat_eq
          rw [ha, toNat_sub_four (by omega)]
        have hkeep : ((s.push w).pushWords rest).mem.loadWord a = (s.push w).mem.loadWord a :=
          loadWord_congr (by omega) fun x h1 h2 => hrest.bytes x (by omega)
        exact hkeep.trans (ha' ▸ push_loadWord s w (by omega))
      | succ i =>
        rw [List.length_cons] at hi
        exact hrest.words i (by omega) a (by omega)

end X86
end ShompOS
