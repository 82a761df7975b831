import ShompOS.FakeLibc.Text
import ShompOS.Numerals

/-! Addresses as text (`addr_to_string`, `heap.c`).

One loop counts the digits, another writes them from the last one on, and where
they end is taken from the count. A single digit is counted as two, but is still
written as one: it stands a place too far back, and the place in front of it is
left as it was. -/
namespace ShompOS
namespace Memory
open Numeral

/-- `hex_digits` -/
def hexDigits : List UInt8 := ascii "0123456789ABCDEF"

/-- The first loop of `addr_to_string`. -/
def countDigits : (fuel digits temp : Nat) → Option Nat
  | 0, _, _ => none
  | fuel + 1, digits, temp => if temp ≠ 0 then countDigits fuel (digits + 1) (temp >>> 4) else some digits

/-- The second one. -/
def writeDigits (buffer : Nat) : (fuel : Nat) → (m : Memory) → (pos addr : Nat) → Option Memory
  | 0, _, _, _ => none
  | fuel + 1, m, pos, addr =>
    if addr ≠ 0 then
      writeDigits buffer fuel (m.store8 (wrap (buffer + pos)) (hexDigits.getD (addr &&& 0xF) 0).toNat)
        (wrap (pos + (addressSpace - 1))) (addr >>> 4)
    else some m

/-- `addr_to_string` -/
def addrToString (m : Memory) (buffer addr : Nat) : Option (Memory × Nat) :=
  let m := (m.store8 buffer 0x30).store8 (wrap (buffer + 1)) 0x78
  if addr = 0 then some ((m.store8 (wrap (buffer + 2)) 0x30).store8 (wrap (buffer + 3)) 0, buffer)
  else (countDigits addressSpace 0 addr).bind fun digits =>
    let digits := if digits = 1 then digits + 1 else digits
    (writeDigits buffer addressSpace (m.store8 (wrap (buffer + (digits + 2))) 0) (digits + 1) addr).map
      fun m => (m, buffer)

/-! ### The loops -/

variable {m m' : Memory} {a buffer addr : Nat} {s : List UInt8}

/-- A text written with its terminator is a string. -/
theorem Writes.isStr (h : Writes m m' a (s ++ [0])) (h0 : 0 ∉ s) (hroom : a + s.length + 1 < addressSpace) :
    IsStr m' a s := by
  refine ⟨fun i c hi => ?_, ?_, h0, hroom⟩
  · apply h.chars
    rw [List.getElem?_append_left (List.getElem?_eq_some_iff.mp hi).1, hi]
  · apply h.chars
    rw [List.getElem?_append_right (Nat.le_refl _), Nat.sub_self]
    rfl

theorem hexDigits_getD {d : Nat} (hd : d < 16) : hexDigits.getD d 0 = digitChar d := by
  have hall : ∀ d : Fin 16, hexDigits.getD d 0 = digitChar d := by decide
  exact hall ⟨d, hd⟩

/-- A loop that shifts to the right takes the last digit off. -/
theorem length_numeral_shift (haddr : addr ≠ 0) :
    (numeral 16 addr).length = (numeral 16 (addr >>> 4)).length + 1 := by
  rw [numeral_eq (by decide) haddr, List.length_append, Nat.shiftRight_eq_div_pow]
  rfl

theorem countDigits_eq {fuel : Nat} (hf : (numeral 16 addr).length < fuel) (digits : Nat) :
    countDigits fuel digits addr = some (digits + (numeral 16 addr).length) := by
  induction fuel generalizing digits addr with
  | zero => exact absurd hf (Nat.not_lt_zero _)
  | succ fuel ih =>
    unfold countDigits
    by_cases haddr : addr = 0
    · subst haddr
      rw [if_neg (fun h => h rfl), numeral_zero]
      rfl
    · have hlen := length_numeral_shift haddr
      rw [if_pos haddr, ih (by omega), hlen, Nat.add_assoc, Nat.add_comm 1]

/-- The last digit is written where the loop starts. -/
theorem writeDigits_writes {fuel q : Nat} (hf : (numeral 16 addr).length < fuel) (hq : 1 ≤ q)
    (hroom : buffer + q + (numeral 16 addr).length < addressSpace) (m : Memory) :
    ∃ m', writeDigits buffer fuel m (q + (numeral 16 addr).length - 1) addr = some m' ∧
      Writes m m' (buffer + q) (numeral 16 addr) := by
  induction fuel generalizing m addr with
  | zero => exact absurd hf (Nat.not_lt_zero _)
  | succ fuel ih =>
    unfold writeDigits
    by_cases haddr : addr = 0
    · subst haddr
      rw [if_neg (fun h => h rfl), numeral_zero]
      exact ⟨m, rfl, Writes.nil m _⟩
    · have hlen := length_numeral_shift haddr
      obtain ⟨m', hrun, hwrites⟩ := ih
        (show (numeral 16 (addr >>> 4)).length < fuel by omega) (by omega)
        (m.store8 (buffer + q + (numeral 16 (addr >>> 4)).length) (digitChar (addr % 16)).toNat)
      refine ⟨m', ?_, ?_⟩
      · have hmod : addr &&& 0xF = addr % 16 := Nat.and_two_pow_sub_one_eq_mod addr 4
        have hpos : q + (numeral 16 addr).length - 1 = q + (numeral 16 (addr >>> 4)).length := by omega
        rw [if_pos haddr, hmod, hexDigits_getD (Nat.mod_lt addr (by decide)), hpos, ← Nat.add_assoc,
          wrap_eq (by omega), wrap_sub (by omega) (by omega)]
        exact hrun
      · have hsplit : numeral 16 addr = numeral 16 (addr >>> 4) ++ [digitChar (addr % 16)] := by
          rw [numeral_eq (by decide) haddr, Nat.shiftRight_eq_div_pow]
        have hlast := writes_store8 m (buffer + q + (numeral 16 (addr >>> 4)).length) (digitChar (addr % 16)).toNat
        rw [UInt8.ofNat_toNat] at hlast
        rw [hsplit]
        exact hlast.prepend hwrites

/-! ### The text -/

/-- A store into `x` is among those that lead from `m` to `m'`. -/
def Wrote (m m' : Memory) (x : Nat) : Prop := ∃ new, m'.stores = new ++ m.stores ∧ x ∈ new

/-- `addr_to_string` leaves `0x` and hexadecimal digits of the address, all of them its own. -/
def Formats (m : Memory) (buffer addr : Nat) : Prop :=
  ∃ m' ds, m.addrToString buffer addr = some (m', buffer) ∧ IsStr m' buffer (ascii "0x" ++ ds) ∧
    ds ≠ [] ∧ value 16 ds = some addr ∧ ∀ i, i ≤ (ascii "0x" ++ ds).length → Wrote m m' (buffer + i)

theorem writes_prefix (m : Memory) (hroom : buffer + 1 < addressSpace) :
    Writes m ((m.store8 buffer 0x30).store8 (wrap (buffer + 1)) 0x78) buffer (ascii "0x") := by
  rw [wrap_eq hroom]
  exact (writes_store8 m buffer 0x30).append (writes_store8 _ (buffer + 1) 0x78)

theorem Writes.formats {ds : List UInt8} (hrun : m.addrToString buffer addr = some (m', buffer))
    (hwrites : Writes m m' buffer (ascii "0x" ++ ds ++ [0])) (h0 : 0 ∉ ds) (hds : ds ≠ [])
    (hvalue : value 16 ds = some addr) (hroom : buffer + ds.length + 3 < addressSpace) : Formats m buffer addr := by
  have hlen : (ascii "0x" ++ ds).length = ds.length + 2 := by
    rw [List.length_append, Nat.add_comm]
    rfl
  obtain ⟨new, hnew, hmem⟩ := hwrites.stores
  refine ⟨m', ds, hrun, hwrites.isStr ?_ (by omega), hds, hvalue, fun i hi => ⟨new, hnew, (hmem _).mpr ?_⟩⟩
  · rw [List.mem_append, not_or]
    exact ⟨by decide, h0⟩
  · rw [List.length_append, List.length_singleton]
    omega

theorem addrToString_zero (m : Memory) (hroom : buffer + 3 < addressSpace) :
    ∃ m', m.addrToString buffer 0 = some (m', buffer) ∧ Writes m m' buffer (ascii "0x" ++ [0x30] ++ [0]) := by
  have h0x := writes_prefix m (show buffer + 1 < addressSpace by omega)
  refine ⟨_, rfl, ?_⟩
  rw [wrap_eq hroom, wrap_eq (a := buffer + 2) (by omega)]
  exact (h0x.append (writes_store8 _ (buffer + 2) 0x30)).append (writes_store8 _ (buffer + 3) 0)

theorem numeral_length_eq_one_iff (haddr : addr ≠ 0) : (numeral 16 addr).length = 1 ↔ addr < 16 := by
  have hpos : 0 < (numeral 16 addr).length := List.length_pos_iff.mpr (numeral_ne_nil (by decide) haddr)
  have hone := length_numeral_le_iff (show 1 < 16 by decide) 1 (n := addr)
  rw [Nat.pow_one] at hone
  rw [← hone]
  omega

/-- A single digit stands one place too far back. -/
theorem addrToString_writes (haddr : addr ≠ 0) (hlt : addr < addressSpace) (hroom : buffer + 11 < addressSpace)
    (m : Memory) :
    ∃ m₁ m', m.addrToString buffer addr = some (m', buffer) ∧ Writes m m₁ buffer (ascii "0x") ∧
      Writes m₁ m' (buffer + if addr < 16 then 3 else 2) (numeral 16 addr ++ [0]) := by
  have hmax : (numeral 16 addr).length ≤ 8 := (length_numeral_le_iff (by decide) 8).mpr hlt
  have hpos : 0 < (numeral 16 addr).length := List.length_pos_iff.mpr (numeral_ne_nil (by decide) haddr)
  have hbig : 8 < addressSpace := by decide
  obtain ⟨q, hq⟩ : ∃ q, q = if addr < 16 then 3 else 2 := ⟨_, rfl⟩
  have hone := numeral_length_eq_one_iff haddr
  have hends : (if (numeral 16 addr).length = 1 then (numeral 16 addr).length + 1 else (numeral 16 addr).length) + 2 =
      q + (numeral 16 addr).length := by
    rw [hq]
    split <;> split <;> omega
  have hq2 : 2 ≤ q := by
    rw [hq]
    split <;> decide
  have hq3 : q + (numeral 16 addr).length ≤ 10 := by
    rw [hq]
    split <;> omega
  rw [← hq]
  have hended := writes_store8 ((m.store8 buffer 0x30).store8 (wrap (buffer + 1)) 0x78)
    (buffer + q + (numeral 16 addr).length) 0
  obtain ⟨m', hrun, hdigits⟩ := writeDigits_writes (Nat.lt_of_le_of_lt hmax hbig)
    (Nat.le_of_succ_le hq2) (show buffer + q + (numeral 16 addr).length < addressSpace by omega)
      (((m.store8 buffer 0x30).store8 (wrap (buffer + 1)) 0x78).store8 (buffer + q + (numeral 16 addr).length) 0)
  refine ⟨_, m', ?_, writes_prefix m (by omega), hended.prepend hdigits⟩
  unfold addrToString
  rw [if_neg haddr, countDigits_eq (Nat.lt_of_le_of_lt hmax hbig), Option.bind_some, Nat.zero_add]
  dsimp only
  generalize (if (numeral 16 addr).length = 1 then (numeral 16 addr).length + 1 else (numeral 16 addr).length) = digits
    at hends ⊢
  have hstart : digits + 1 = q + (numeral 16 addr).length - 1 := by omega
  rw [hstart, hends, ← Nat.add_assoc, wrap_eq
    (show buffer + q + (numeral 16 addr).length < addressSpace by omega), hrun]
  rfl

theorem formats_zero (hroom : buffer + 11 < addressSpace) (m : Memory) : Formats m buffer 0 := by
  obtain ⟨m', hrun, hwrites⟩ := addrToString_zero m (show buffer + 3 < addressSpace by omega)
  apply hwrites.formats hrun (by decide) (by decide) (by decide)
  rw [List.length_singleton]
  omega

theorem formats_of_ge (hlt : addr < addressSpace) (hge : 16 ≤ addr) (hroom : buffer + 11 < addressSpace) (m : Memory) :
    Formats m buffer addr := by
  have haddr : addr ≠ 0 := by omega
  have hmax : (numeral 16 addr).length ≤ 8 := (length_numeral_le_iff (by decide) 8).mpr hlt
  have hzero : ∀ c ∈ numeral 16 addr, c ≠ 0 := forall_mem_numeral (by decide) fun d hd => digitChar_ne_terminator hd
  obtain ⟨m₁, m', hrun, h0x, hdigits⟩ := addrToString_writes haddr hlt hroom m
  rw [if_neg (Nat.not_lt_of_le hge)] at hdigits
  have hwrites := h0x.append hdigits
  rw [← List.append_assoc] at hwrites
  apply hwrites.formats hrun (fun h0 => hzero 0 h0 rfl) (numeral_ne_nil (by decide) haddr)
    (value_numeral (by decide) (by decide) addr)
  omega

/-- The place behind the prefix is not among the stores. -/
theorem not_formats_of_digit (hpos : 1 ≤ addr) (hone : addr < 16) (hroom : buffer + 11 < addressSpace) (m : Memory) :
    ¬ Formats m buffer addr := by
  rintro ⟨m'', ds, hrun', -, -, -, hwrote⟩
  have hlt : addr < addressSpace := Nat.lt_trans hone (by decide)
  obtain ⟨m₁, m', hrun, h0x, hdigits⟩ := addrToString_writes (Nat.ne_of_gt hpos) hlt hroom m
  rw [if_pos hone] at hdigits
  rw [hrun] at hrun'
  obtain rfl : m' = m'' := congrArg Prod.fst (Option.some.inj hrun')
  obtain ⟨new, hnew, hmem⟩ := hwrote 2 (by rw [List.length_append]; exact Nat.le_add_right 2 ds.length)
  obtain ⟨new₁, hnew₁, hmem₁⟩ := h0x.stores
  obtain ⟨new₂, hnew₂, hmem₂⟩ := hdigits.stores
  rw [hnew₂, hnew₁, ← List.append_assoc] at hnew
  rw [← List.append_cancel_right hnew, List.mem_append, hmem₂, hmem₁] at hmem
  have hlen : (ascii "0x").length = 2 := rfl
  omega

/-- Every address but one of a single digit is formatted, whatever the buffer held before. -/
theorem addrToString_formats_iff (hlt : addr < addressSpace) (hroom : buffer + 11 < addressSpace) (m : Memory) :
    Formats m buffer addr ↔ ¬ (1 ≤ addr ∧ addr < 16) := by
  by_cases hge : 16 ≤ addr
  · exact iff_of_true (formats_of_ge hlt hge hroom m) fun h => Nat.not_lt_of_le hge h.2
  · by_cases hpos : 1 ≤ addr
    · exact iff_of_false (not_formats_of_digit hpos (Nat.lt_of_not_le hge) hroom m)
        (not_not.mpr ⟨hpos, Nat.lt_of_not_le hge⟩)
    · obtain rfl : addr = 0 := by omega
      exact iff_of_true (formats_zero hroom m) fun h => hpos h.1

theorem addrToString_formats_iff_heap : Formats zero 0x9000 0x200000 ↔ ¬ (1 ≤ 0x200000 ∧ 0x200000 < 16) :=
  addrToString_formats_iff (by decide) (by decide) zero

/-- In a buffer that held letters, 5 comes out with one of them in front. -/
theorem not_formats_five : ¬ Formats ⟨fun _ => 0x41, []⟩ 0x9000 5 :=
  not_formats_of_digit (by decide) (by decide) (by decide) _

end Memory
end ShompOS
