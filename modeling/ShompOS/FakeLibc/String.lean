import ShompOS.Memory

/-! Copying and filling memory (`string.c`).

The loops go byte by byte; a count of 0 does nothing. On ranges that do not wrap
the result is the range copied or filled and every other byte as it was, for
`memcpy` as long as it copies downwards or the ranges do not meet, for `memmove`
however they overlap. -/
namespace ShompOS
namespace Memory

/-- `memcpy` -/
def memcpy : (n : Nat) → (m : Memory) → (dest src : Nat) → Memory
  | 0, m, _, _ => m
  | n + 1, m, dest, src => memcpy n (m.store8 dest (m.load8 src)) (wrap (dest + 1)) (wrap (src + 1))

/-- `memset` -/
def memset : (n : Nat) → (m : Memory) → (dest c : Nat) → Memory
  | 0, m, _, _ => m
  | n + 1, m, dest, c => memset n (m.store8 dest c) (wrap (dest + 1)) c

/-- The second loop of `memmove`, from the last byte on. -/
def memcpyDown : (n : Nat) → (m : Memory) → (dest src : Nat) → Memory
  | 0, m, _, _ => m
  | n + 1, m, dest, src =>
    memcpyDown n (m.store8 (wrap (dest + n)) (m.load8 (wrap (src + n)))) dest src

/-- `memmove` -/
def memmove (n : Nat) (m : Memory) (dest src : Nat) : Memory :=
  if dest < src ∨ dest ≥ wrap (src + n) then memcpy n m dest src else memcpyDown n m dest src

theorem byte_store8 (m : Memory) (a v x : Nat) :
    (m.store8 a v).byte x = if x = a then UInt8.ofNat v else m.byte x := rfl

theorem memcpy_byte (n : Nat) (m : Memory) {dest src : Nat} (hd : dest + n < addressSpace)
    (hs : src + n < addressSpace) (hsep : dest ≤ src ∨ src + n ≤ dest) (x : Nat) :
    (memcpy n m dest src).byte x =
      if dest ≤ x ∧ x < dest + n then m.byte (src + (x - dest)) else m.byte x := by
  induction n generalizing m dest src with
  | zero =>
    rw [if_neg (by omega)]
    rfl
  | succ n ih =>
    have hload : UInt8.ofNat (m.load8 src) = m.byte src := UInt8.ofNat_toNat
    unfold memcpy
    rw [wrap_eq (by omega), wrap_eq (by omega), ih _ (by omega) (by omega) (by omega), byte_store8,
      byte_store8, hload]
    by_cases hx : x = dest
    · rw [if_neg (by omega), if_pos hx, if_pos (by omega), hx, Nat.sub_self, Nat.add_zero]
    · by_cases hin : dest + 1 ≤ x ∧ x < dest + 1 + n
      · rw [if_pos hin, if_neg (by omega), if_pos (by omega)]
        congr 1
        omega
      · rw [if_neg hin, if_neg hx, if_neg (by omega)]

/-- The addresses that `memcpy` stores to. -/
def memcpyStores : (n dest : Nat) → List Nat
  | 0, _ => []
  | n + 1, dest => dest :: memcpyStores n (wrap (dest + 1))

theorem mem_memcpyStores {n dest x : Nat} (hd : dest < addressSpace) :
    x ∈ memcpyStores n dest ↔ ∃ i, i < n ∧ x = wrap (dest + i) := by
  induction n generalizing dest with
  | zero => exact ⟨fun h => absurd h List.not_mem_nil, fun ⟨i, hi, _⟩ => absurd hi (Nat.not_lt_zero i)⟩
  | succ n ih =>
    have hnext : wrap (dest + 1) < addressSpace := Nat.mod_lt _ (by decide)
    have hshift : ∀ i, wrap (wrap (dest + 1) + i) = wrap (dest + (i + 1)) := fun i => wrap_wrap_add dest i
    unfold memcpyStores
    rw [List.mem_cons, ih hnext]
    constructor
    · rintro (rfl | ⟨i, hi, rfl⟩)
      · exact ⟨0, Nat.succ_pos n, (wrap_eq hd).symm⟩
      · exact ⟨i + 1, Nat.succ_lt_succ hi, hshift i⟩
    · rintro ⟨i, hi, rfl⟩
      cases i with
      | zero => exact Or.inl (wrap_eq hd)
      | succ i => exact Or.inr ⟨i, Nat.lt_of_succ_lt_succ hi, (hshift i).symm⟩

/-- Nothing else changes. -/
theorem memcpy_of_not_stored (n : Nat) (m : Memory) (dest src : Nat) {x : Nat} (hx : x ∉ memcpyStores n dest) :
    (memcpy n m dest src).byte x = m.byte x := by
  induction n generalizing m dest src with
  | zero => rfl
  | succ n ih =>
    unfold memcpyStores at hx
    rw [List.mem_cons, not_or] at hx
    unfold memcpy
    rw [ih _ _ _ hx.2, byte_store8, if_neg hx.1]

/-- Whatever is copied, only the destination changes. -/
theorem memcpy_outside (n : Nat) (m : Memory) {dest : Nat} (src : Nat) (hd : dest + n < addressSpace) {x : Nat}
    (hx : ¬ (dest ≤ x ∧ x < dest + n)) : (memcpy n m dest src).byte x = m.byte x := by
  refine memcpy_of_not_stored n m dest src fun h => hx ?_
  obtain ⟨i, hi, rfl⟩ := (mem_memcpyStores (by omega)).mp h
  rw [wrap_eq (by omega)]
  omega

/-- From the last byte on, a byte of the source is read before its place is stored to. -/
theorem memcpyDown_byte (n : Nat) (m : Memory) {dest src : Nat} (hd : dest + n < addressSpace)
    (hs : src + n < addressSpace) (hsep : src ≤ dest) (x : Nat) :
    (memcpyDown n m dest src).byte x =
      if dest ≤ x ∧ x < dest + n then m.byte (src + (x - dest)) else m.byte x := by
  induction n generalizing m with
  | zero =>
    rw [if_neg (by omega)]
    rfl
  | succ n ih =>
    have hload : UInt8.ofNat (m.load8 (src + n)) = m.byte (src + n) := UInt8.ofNat_toNat
    unfold memcpyDown
    rw [wrap_eq (by omega), wrap_eq (by omega), ih _ (by omega) (by omega), byte_store8, byte_store8, hload]
    by_cases hlast : x = dest + n
    · rw [if_neg (by omega), if_pos hlast, if_pos (by omega), hlast, Nat.add_sub_cancel_left]
    · by_cases hin : dest ≤ x ∧ x < dest + n
      · rw [if_pos hin, if_neg (by omega), if_pos (by omega)]
      · rw [if_neg hin, if_neg hlast, if_neg (by omega)]

/-- The direction is right for every overlap. -/
theorem memmove_byte (n : Nat) (m : Memory) {dest src : Nat} (hd : dest + n < addressSpace)
    (hs : src + n < addressSpace) (x : Nat) :
    (memmove n m dest src).byte x =
      if dest ≤ x ∧ x < dest + n then m.byte (src + (x - dest)) else m.byte x := by
  unfold memmove
  rw [wrap_eq hs]
  by_cases hup : dest < src ∨ dest ≥ src + n
  · rw [if_pos hup]
    exact memcpy_byte n m hd hs (by omega) x
  · rw [if_neg hup]
    exact memcpyDown_byte n m hd hs (by omega) x

theorem memmove_moves (n : Nat) (m : Memory) {dest src : Nat} (hs : src + n < addressSpace)
    (hd : dest + n < addressSpace) :
    (∀ i, i < n → (memmove n m dest src).byte (dest + i) = m.byte (src + i)) ∧
      ∀ x, ¬ (dest ≤ x ∧ x < dest + n) → (memmove n m dest src).byte x = m.byte x := by
  constructor
  · intro i hi
    rw [memmove_byte n m hd hs, if_pos (by omega), Nat.add_sub_cancel_left]
  · intro x hx
    rw [memmove_byte n m hd hs, if_neg hx]

/-- Up by one place, over all but one of the bytes. -/
theorem memmove_moves_up : (memmove 3 ⟨fun x => .ofNat x, []⟩ 5 4).byte 7 = 6 :=
  (memmove_moves 3 ⟨fun x => .ofNat x, []⟩ (show 4 + 3 < addressSpace by decide)
    (show 5 + 3 < addressSpace by decide)).1 2 (by decide)

theorem memset_byte (n : Nat) (m : Memory) {dest : Nat} (c : Nat) (hd : dest + n < addressSpace) (x : Nat) :
    (memset n m dest c).byte x = if dest ≤ x ∧ x < dest + n then UInt8.ofNat c else m.byte x := by
  induction n generalizing m dest with
  | zero =>
    rw [if_neg (by omega)]
    rfl
  | succ n ih =>
    unfold memset
    rw [wrap_eq (by omega), ih _ (by omega), byte_store8]
    by_cases hx : x = dest
    · rw [if_neg (by omega), if_pos hx, if_pos (by omega)]
    · by_cases hin : dest + 1 ≤ x ∧ x < dest + 1 + n
      · rw [if_pos hin, if_pos (by omega)]
      · rw [if_neg hin, if_neg hx, if_neg (by omega)]

/-! ### Writing a text -/

variable {m m₁ m' : Memory} {a : Nat} {s t : List UInt8}

/-- From `m` to `m'` the text `s` is written at `a`, and nothing else is stored. -/
structure Writes (m m' : Memory) (a : Nat) (s : List UInt8) : Prop where
  chars : ∀ i c, s[i]? = some c → m'.byte (a + i) = c
  others : ∀ x, ¬ (a ≤ x ∧ x < a + s.length) → m'.byte x = m.byte x
  stores : ∃ new, m'.stores = new ++ m.stores ∧ ∀ x, x ∈ new ↔ a ≤ x ∧ x < a + s.length

theorem Writes.nil (m : Memory) (a : Nat) : Writes m m a [] :=
  ⟨fun i c hi => absurd hi (by simp), fun x _ => rfl, [], rfl, fun x => by simp⟩

theorem writes_store8 (m : Memory) (a v : Nat) : Writes m (m.store8 a v) a [.ofNat v] := by
  refine ⟨fun i c hi => ?_, fun x hx => ?_, [a], rfl, fun x => ?_⟩
  · obtain ⟨hlen, rfl⟩ := List.getElem?_eq_some_iff.mp hi
    have hzero : i = 0 := Nat.lt_one_iff.mp hlen
    subst hzero
    exact if_pos rfl
  · rw [byte_store8, if_neg]
    rintro rfl
    exact hx ⟨Nat.le_refl x, Nat.lt_succ_self x⟩
  · simp only [List.mem_singleton, List.length_singleton]
    omega

/-- One text behind another, whichever is written first. -/
theorem Writes.join (new : List Nat) (hs : ∀ i c, s[i]? = some c → m'.byte (a + i) = c)
    (ht : ∀ i c, t[i]? = some c → m'.byte (a + s.length + i) = c)
    (hothers : ∀ x, ¬ (a ≤ x ∧ x < a + s.length) → ¬ (a + s.length ≤ x ∧ x < a + s.length + t.length) →
      m'.byte x = m.byte x)
    (hnew : m'.stores = new ++ m.stores)
    (hmem : ∀ x, x ∈ new ↔ (a ≤ x ∧ x < a + s.length) ∨ (a + s.length ≤ x ∧ x < a + s.length + t.length)) :
    Writes m m' a (s ++ t) := by
  refine ⟨fun i c hi => ?_, fun x hx => ?_, new, hnew, fun x => ?_⟩
  · by_cases hlt : i < s.length
    · exact hs i c (by rwa [List.getElem?_append_left hlt] at hi)
    · rw [List.getElem?_append_right (Nat.le_of_not_lt hlt)] at hi
      have hbyte := ht _ c hi
      rwa [Nat.add_assoc, Nat.add_sub_cancel' (Nat.le_of_not_lt hlt)] at hbyte
  · rw [List.length_append] at hx
    exact hothers x (by omega) (by omega)
  · rw [hmem, List.length_append]
    omega

theorem Writes.append (hs : Writes m m₁ a s) (ht : Writes m₁ m' (a + s.length) t) : Writes m m' a (s ++ t) := by
  obtain ⟨new, hnew, hmem⟩ := hs.stores
  obtain ⟨new', hnew', hmem'⟩ := ht.stores
  apply Writes.join (new' ++ new)
  · intro i c hi
    have hlt := (List.getElem?_eq_some_iff.mp hi).1
    rw [ht.others _ (by omega), hs.chars i c hi]
  · exact ht.chars
  · exact fun x hx hx' => (ht.others x hx').trans (hs.others x hx)
  · rw [hnew', hnew, List.append_assoc]
  · intro x
    rw [List.mem_append, hmem, hmem', or_comm]

/-- The text behind is written first. -/
theorem Writes.prepend (ht : Writes m m₁ (a + s.length) t) (hs : Writes m₁ m' a s) : Writes m m' a (s ++ t) := by
  obtain ⟨new, hnew, hmem⟩ := ht.stores
  obtain ⟨new', hnew', hmem'⟩ := hs.stores
  apply Writes.join (new' ++ new)
  · exact hs.chars
  · intro i c hi
    rw [hs.others _ (by omega), ht.chars i c hi]
  · exact fun x hx hx' => (hs.others x hx).trans (ht.others x hx')
  · rw [hnew', hnew, List.append_assoc]
  · intro x
    rw [List.mem_append, hmem, hmem']

end Memory
end ShompOS
