import Mathlib.Algebra.Ring.Nat

/-! Byte memory of a 32-bit little-endian machine.

Addresses and words are natural numbers; an address computed from another wraps
at `2 ^ 32`, as the hardware's does. A memory also carries the list of addresses
it has ever been stored to, so that *where a program writes* is a fact about two
memories rather than about a program: `Spares R m m'` says that whatever leads
from `m` to `m'` made no store into the region `R`. -/
namespace ShompOS

/-- The size of the address space. -/
abbrev addressSpace : Nat := 2 ^ 32

structure Memory where
  byte : Nat → UInt8
  /-- Every address stored to so far, the latest first. -/
  stores : List Nat

namespace Memory

def zero : Memory := ⟨fun _ => 0, []⟩

def store8 (m : Memory) (a v : Nat) : Memory :=
  ⟨fun x => if x = a then UInt8.ofNat v else m.byte x, a :: m.stores⟩

def load8 (m : Memory) (a : Nat) : Nat := (m.byte a).toNat

/-- The address an address computation yields. -/
def wrap (a : Nat) : Nat := a % addressSpace

def load16 (m : Memory) (a : Nat) : Nat := m.load8 (wrap a) + 2 ^ 8 * m.load8 (wrap (a + 1))

def load32 (m : Memory) (a : Nat) : Nat :=
  m.load8 (wrap a) + 2 ^ 8 * m.load8 (wrap (a + 1)) +
    2 ^ 16 * m.load8 (wrap (a + 2)) + 2 ^ 24 * m.load8 (wrap (a + 3))

def store32 (m : Memory) (a v : Nat) : Memory :=
  (((m.store8 (wrap a) v).store8 (wrap (a + 1)) (v / 2 ^ 8)).store8 (wrap (a + 2)) (v / 2 ^ 16)).store8
    (wrap (a + 3)) (v / 2 ^ 24)

theorem wrap_eq {a : Nat} (h : a < addressSpace) : wrap a = a := Nat.mod_eq_of_lt h

theorem wrap_wrap_add (a i : Nat) : wrap (wrap (a + 1) + i) = wrap (a + (i + 1)) := by
  unfold wrap
  rw [Nat.mod_add_mod, Nat.add_right_comm, Nat.add_assoc]

/-- Subtracting, as an addition that wraps. -/
theorem wrap_sub {a c : Nat} (hc : c ≤ a) (ha : a < addressSpace) :
    wrap (a + (addressSpace - c)) = a - c := by
  unfold wrap
  rw [show a + (addressSpace - c) = a - c + addressSpace by omega, Nat.add_mod_right]
  exact Nat.mod_eq_of_lt (by omega)

/-! ### Bytes and words -/

theorem load8_lt (m : Memory) (a : Nat) : m.load8 a < 2 ^ 8 := (m.byte a).toNat_lt

theorem load8_store8 (m : Memory) (a v x : Nat) :
    (m.store8 a v).load8 x = if x = a then v % 2 ^ 8 else m.load8 x := by
  unfold load8 store8
  split <;> simp [*]

theorem load8_congr {m m' : Memory} {a : Nat} (h : m'.byte a = m.byte a) :
    m'.load8 a = m.load8 a := by
  rw [load8, load8, h]

theorem load16_congr {m m' : Memory} {a : Nat} (ha : a + 2 ≤ addressSpace)
    (h : ∀ x, a ≤ x → x < a + 2 → m'.byte x = m.byte x) : m'.load16 a = m.load16 a := by
  unfold load16
  rw [wrap_eq (by omega), wrap_eq (by omega), load8_congr (h a (by omega) (by omega)),
    load8_congr (h (a + 1) (by omega) (by omega))]

theorem load32_lt (m : Memory) (a : Nat) : m.load32 a < addressSpace := by
  have h0 := m.load8_lt (wrap a)
  have h1 := m.load8_lt (wrap (a + 1))
  have h2 := m.load8_lt (wrap (a + 2))
  have h3 := m.load8_lt (wrap (a + 3))
  simp only [load32, addressSpace]
  omega

/-- A word is read from its four bytes. -/
theorem load32_congr {m m' : Memory} {a : Nat} (ha : a + 4 ≤ addressSpace)
    (h : ∀ x, a ≤ x → x < a + 4 → m'.byte x = m.byte x) : m'.load32 a = m.load32 a := by
  have hb : ∀ i, i < 4 → m'.load8 (wrap (a + i)) = m.load8 (wrap (a + i)) := fun i hi => by
    rw [wrap_eq (by omega)]
    exact load8_congr (h _ (by omega) (by omega))
  have h0 : m'.load8 (wrap a) = m.load8 (wrap a) := hb 0 (by decide)
  simp only [load32, h0, hb 1 (by decide), hb 2 (by decide), hb 3 (by decide)]

theorem load8_store32 (m : Memory) {a v : Nat} (x : Nat) (ha : a + 4 ≤ addressSpace) :
    (m.store32 a v).load8 x =
      if a ≤ x ∧ x < a + 4 then v / 2 ^ (8 * (x - a)) % 2 ^ 8 else m.load8 x := by
  simp only [store32, load8_store8]
  rw [wrap_eq (by omega), wrap_eq (by omega), wrap_eq (by omega), wrap_eq (by omega)]
  by_cases hx : a ≤ x ∧ x < a + 4
  · obtain ⟨i, rfl⟩ := Nat.exists_eq_add_of_le hx.1
    have hi : i = 0 ∨ i = 1 ∨ i = 2 ∨ i = 3 := by omega
    rcases hi with rfl | rfl | rfl | rfl <;> simp
  · rw [if_neg (by omega), if_neg (by omega), if_neg (by omega), if_neg (by omega), if_neg hx]

theorem load8_store32_ne (m : Memory) {a v x : Nat} (ha : a + 4 ≤ addressSpace)
    (hx : x < a ∨ a + 4 ≤ x) : (m.store32 a v).load8 x = m.load8 x := by
  rw [load8_store32 m x ha, if_neg (by omega)]

/-- A stored word is read back, as far as it fits. -/
theorem load32_store32_mod (m : Memory) {a v : Nat} (ha : a + 4 ≤ addressSpace) :
    (m.store32 a v).load32 a = v % addressSpace := by
  simp only [load32]
  rw [wrap_eq (by omega), wrap_eq (by omega), wrap_eq (by omega), wrap_eq (by omega)]
  simp only [load8_store32 m _ ha]
  rw [if_pos (by omega), if_pos (by omega), if_pos (by omega), if_pos (by omega)]
  simp only [Nat.sub_self, Nat.add_sub_cancel_left, addressSpace]
  omega

theorem load32_store32 (m : Memory) {a v : Nat} (ha : a + 4 ≤ addressSpace)
    (hv : v < addressSpace) : (m.store32 a v).load32 a = v := by
  rw [load32_store32_mod m ha]
  exact Nat.mod_eq_of_lt hv

/-- A word elsewhere is as it was. -/
theorem load32_store32_ne (m : Memory) {a b v : Nat} (ha : a + 4 ≤ addressSpace)
    (hb : b + 4 ≤ addressSpace) (hab : a + 4 ≤ b ∨ b + 4 ≤ a) :
    (m.store32 a v).load32 b = m.load32 b := by
  simp only [load32]
  rw [wrap_eq (by omega), wrap_eq (by omega), wrap_eq (by omega), wrap_eq (by omega)]
  simp only [load8_store32 m _ ha]
  rw [if_neg (by omega), if_neg (by omega), if_neg (by omega), if_neg (by omega)]

theorem load32_store8_ne (m : Memory) {a b v : Nat} (hb : b + 4 ≤ addressSpace)
    (hab : a < b ∨ b + 4 ≤ a) : (m.store8 a v).load32 b = m.load32 b := by
  simp only [load32]
  rw [wrap_eq (by omega), wrap_eq (by omega), wrap_eq (by omega), wrap_eq (by omega)]
  simp only [load8_store8]
  rw [if_neg (by omega), if_neg (by omega), if_neg (by omega), if_neg (by omega)]

/-! ### What is not written -/

/-- From `m` to `m'` no store was made into `R`, and so its bytes are as they were. -/
structure Spares (R : Nat → Prop) (m m' : Memory) : Prop where
  stores : ∃ new, m'.stores = new ++ m.stores ∧ ∀ x ∈ new, ¬ R x
  bytes : ∀ x, R x → m'.byte x = m.byte x

theorem Spares.refl (R : Nat → Prop) (m : Memory) : Spares R m m :=
  ⟨⟨[], rfl, by simp⟩, fun _ _ => rfl⟩

theorem Spares.trans {R : Nat → Prop} {m₁ m₂ m₃ : Memory} (h : Spares R m₁ m₂)
    (h' : Spares R m₂ m₃) : Spares R m₁ m₃ := by
  obtain ⟨new, hnew, hR⟩ := h.stores
  obtain ⟨new', hnew', hR'⟩ := h'.stores
  refine ⟨⟨new' ++ new, by rw [hnew', hnew, List.append_assoc], fun x hx => ?_⟩,
    fun x hx => (h'.bytes x hx).trans (h.bytes x hx)⟩
  rcases List.mem_append.mp hx with hx | hx
  · exact hR' x hx
  · exact hR x hx

theorem Spares.mono {R S : Nat → Prop} {m m' : Memory} (h : Spares R m m')
    (hS : ∀ x, S x → R x) : Spares S m m' := by
  obtain ⟨new, hnew, hR⟩ := h.stores
  exact ⟨⟨new, hnew, fun x hx hs => hR x hx (hS x hs)⟩, fun x hx => h.bytes x (hS x hx)⟩

theorem spares_store8 {R : Nat → Prop} (m : Memory) {a : Nat} (v : Nat) (h : ¬ R a) :
    Spares R m (m.store8 a v) := by
  refine ⟨⟨[a], rfl, by simpa using h⟩, fun x hx => ?_⟩
  have hne : x ≠ a := fun e => h (e ▸ hx)
  simp [store8, hne]

theorem spares_store32 {R : Nat → Prop} (m : Memory) {a : Nat} (v : Nat)
    (ha : a + 4 ≤ addressSpace) (h : ∀ x, a ≤ x → x < a + 4 → ¬ R x) :
    Spares R m (m.store32 a v) := by
  unfold store32
  rw [wrap_eq (by omega), wrap_eq (by omega), wrap_eq (by omega), wrap_eq (by omega)]
  exact (((spares_store8 m v (h _ (by omega) (by omega))).trans
    (spares_store8 _ _ (h _ (by omega) (by omega)))).trans
    (spares_store8 _ _ (h _ (by omega) (by omega)))).trans
    (spares_store8 _ _ (h _ (by omega) (by omega)))

end Memory
end ShompOS
