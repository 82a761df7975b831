import Mathlib.Algebra.Order.Ring.Nat
import Mathlib.Algebra.Ring.Nat
import Mathlib.Data.Nat.Bitwise
import Mathlib.Tactic.Ring

/-! Tilings of an interval by aligned blocks of power-of-two size.

A set of blocks `B` (`B a s`: a block of `2 ^ s` bytes starts at `a`) tiles
`[lo, hi)` when every point lies in exactly one block and every block's distance
from `lo` is a multiple of its size. Two blocks of one size that together make
an aligned block of the next are *buddies*. In a tiling whose length is a
multiple of the largest size, the place of a block's buddy is always the start
of a block no larger than it (`Tiling.buddy_block`); that is what makes reading
the buddy's header safe. Tilings are closed under halving a block, joining two
buddies, and adding or removing a largest block at the end. -/
namespace ShompOS

structure Tiling (M lo hi : Nat) (B : Nat → Nat → Prop) : Prop where
  scale : ∀ {a s}, B a s → s ≤ M
  lower : ∀ {a s}, B a s → lo ≤ a
  aligned : ∀ {a s}, B a s → 2 ^ s ∣ a - lo
  upper : ∀ {a s}, B a s → a + 2 ^ s ≤ hi
  covers : ∀ x, lo ≤ x → x < hi → ∃ a s, B a s ∧ a ≤ x ∧ x < a + 2 ^ s
  apart : ∀ {a s b t}, B a s → B b t → a < b + 2 ^ t → b < a + 2 ^ s → a = b ∧ s = t
  ordered : lo ≤ hi
  whole : 2 ^ M ∣ hi - lo

/-- The place of the other half of the next larger aligned block. -/
def buddyOf (lo a s : Nat) : Nat :=
  if 2 ^ (s + 1) ∣ a - lo then a + 2 ^ s else a - 2 ^ s

/-! ### Multiples of powers of two -/

theorem two_pow_pos' (s : Nat) : 0 < 2 ^ s := Nat.two_pow_pos s

/-- Multiples of `n` less than `n` apart are equal. -/
theorem eq_of_dvd_of_lt {n x y : Nat} (hx : n ∣ x) (hy : n ∣ y) (h : x < y + n) (h' : y < x + n) :
    x = y := by
  rcases Nat.le_total x y with hle | hle
  · have := Nat.eq_zero_of_dvd_of_lt (Nat.dvd_sub hy hx) (by omega)
    omega
  · have := Nat.eq_zero_of_dvd_of_lt (Nat.dvd_sub hx hy) (by omega)
    omega

/-- A multiple of `2 ^ s` that is not one of `2 ^ (s + 1)` is an odd one. -/
theorem dvd_add_of_odd {s x : Nat} (h : 2 ^ s ∣ x) (hodd : ¬ 2 ^ (s + 1) ∣ x) :
    2 ^ (s + 1) ∣ x + 2 ^ s := by
  obtain ⟨k, rfl⟩ := h
  rcases Nat.even_or_odd' k with ⟨j, rfl | rfl⟩
  · exact absurd ⟨j, by ring⟩ hodd
  · exact ⟨j + 1, by ring⟩

theorem not_dvd_add {s x : Nat} (h : 2 ^ (s + 1) ∣ x) : ¬ 2 ^ (s + 1) ∣ x + 2 ^ s := by
  intro h'
  have hd : 2 ^ (s + 1) ∣ 2 ^ s := (Nat.dvd_add_right h).mp h'
  have := Nat.le_of_dvd (two_pow_pos' s) hd
  have := two_pow_pos' s
  omega

theorem dvd_sub_of_odd {s x : Nat} (h : 2 ^ s ∣ x) (hodd : ¬ 2 ^ (s + 1) ∣ x) :
    2 ^ s ≤ x ∧ 2 ^ (s + 1) ∣ x - 2 ^ s := by
  have hpos : x ≠ 0 := fun h0 => hodd (h0 ▸ Nat.dvd_zero _)
  have hle := Nat.le_of_dvd (Nat.pos_of_ne_zero hpos) h
  have hd := Nat.dvd_sub (dvd_add_of_odd h hodd) (Nat.dvd_refl (2 ^ (s + 1)))
  rw [pow_succ] at hd ⊢
  refine ⟨hle, ?_⟩
  have he : x + 2 ^ s - 2 ^ s * 2 = x - 2 ^ s := by omega
  rwa [he] at hd

/-- Flipping bit `s` of a multiple of `2 ^ s` moves it by `2 ^ s`, up or down. -/
theorem xor_two_pow {s x : Nat} (h : 2 ^ s ∣ x) :
    x ^^^ 2 ^ s = if 2 ^ (s + 1) ∣ x then x + 2 ^ s else x - 2 ^ s := by
  obtain ⟨k, rfl⟩ := h
  have hxor : 2 ^ s * k ^^^ 2 ^ s = 2 ^ s * (k ^^^ 1) := by
    have := Nat.shiftLeft_xor_distrib (a := k) (b := 1) (i := s)
    rw [Nat.shiftLeft_eq, Nat.shiftLeft_eq, Nat.shiftLeft_eq, one_mul] at this
    rw [mul_comm, ← this, mul_comm]
  have hiff : 2 ^ (s + 1) ∣ 2 ^ s * k ↔ 2 ∣ k := by
    rw [pow_succ]
    exact Nat.mul_dvd_mul_iff_left (two_pow_pos' s)
  rw [hxor]
  by_cases hk : 2 ∣ k
  · rw [if_pos (hiff.mpr hk), Nat.xor_one_of_even (even_iff_two_dvd.mpr hk), mul_add, mul_one]
  · rw [if_neg fun hn => hk (hiff.mp hn), Nat.xor_one_of_odd (by
      rwa [← Nat.not_even_iff_odd, even_iff_two_dvd]), Nat.mul_sub, mul_one]

namespace Tiling
variable {M lo hi : Nat} {B B' : Nat → Nat → Prop}

theorem congr (h : Tiling M lo hi B) (hB : ∀ a s, B' a s ↔ B a s) : Tiling M lo hi B' := by
  have he : B' = B := funext fun a => funext fun s => propext (hB a s)
  rwa [he]

theorem empty (M lo : Nat) : Tiling M lo lo fun _ _ => False where
  scale h := h.elim
  lower h := h.elim
  aligned h := h.elim
  upper h := h.elim
  covers x hx hx' := absurd hx' (by omega)
  apart h := h.elim
  ordered := Nat.le_refl lo
  whole := by simp

/-- Only one block starts at an address. -/
theorem scale_unique (h : Tiling M lo hi B) {a s t : Nat} (hs : B a s) (ht : B a t) : s = t :=
  (h.apart hs ht (by have := two_pow_pos' t; omega) (by have := two_pow_pos' s; omega)).2

/-- Two blocks with different starts do not meet. -/
theorem separate (h : Tiling M lo hi B) {a s b t : Nat} (ha : B a s) (hb : B b t) (hne : a ≠ b) :
    a + 2 ^ s ≤ b ∨ b + 2 ^ t ≤ a := by
  by_contra hc
  have := (h.apart ha hb (by omega) (by omega)).1
  exact hne this

/-! ### Buddies -/

/-- Where a block's buddy would be, a block starts, and it is no larger. -/
theorem buddy_block (h : Tiling M lo hi B) {a s : Nat} (ha : B a s) (hs : s < M) :
    ∃ t, t ≤ s ∧ B (buddyOf lo a s) t := by
  have hlo := h.lower ha
  have hhi := h.upper ha
  have hal := h.aligned ha
  have hps := two_pow_pos' s
  unfold buddyOf
  by_cases hev : 2 ^ (s + 1) ∣ a - lo
  · rw [if_pos hev]
    -- the end of the block is not the end of the interval: it is misaligned by half
    have hodd := not_dvd_add hev
    have hlt : a + 2 ^ s < hi := by
      rcases Nat.lt_or_eq_of_le hhi with hlt | he
      · exact hlt
      · refine absurd ?_ hodd
        have : hi - lo = a - lo + 2 ^ s := by omega
        rw [← this]
        exact (pow_dvd_pow 2 hs).trans h.whole
    obtain ⟨c, t, hc, hcx, hxc⟩ := h.covers (a + 2 ^ s) (by omega) hlt
    have hca : c = a + 2 ^ s := by
      by_contra hne
      have := h.apart hc ha (by omega) (by omega)
      rw [this.1, this.2] at hxc
      omega
    subst hca
    refine ⟨t, ?_, hc⟩
    by_contra hts
    apply hodd
    have := (pow_dvd_pow 2 (show s + 1 ≤ t by omega)).trans (h.aligned hc)
    have he : a + 2 ^ s - lo = a - lo + 2 ^ s := by omega
    rwa [he] at this
  · rw [if_neg hev]
    obtain ⟨hle, hd⟩ := dvd_sub_of_odd hal hev
    have hpow : 2 ^ (s + 1) = 2 * 2 ^ s := by ring
    obtain ⟨c, t, hc, hcx, hxc⟩ := h.covers (a - 2 ^ s) (by omega) (by omega)
    have hclo := h.lower hc
    have hcal := h.aligned hc
    have he : a - lo - 2 ^ s = a - 2 ^ s - lo := by omega
    rw [he] at hd
    have hca : c = a - 2 ^ s := by
      by_contra hne
      rcases Nat.lt_or_ge t (s + 1) with hts | hts
      · -- a block no larger than the pair starts where it is aligned
        have := eq_of_dvd_of_lt hcal ((pow_dvd_pow 2 hts.le).trans hd) (by omega) (by omega)
        omega
      · -- a larger one would contain the block itself
        have hct : 2 ^ (s + 1) ∣ c - lo + 2 ^ t :=
          Nat.dvd_add ((pow_dvd_pow 2 hts).trans hcal) (pow_dvd_pow 2 hts)
        have hroom : a - 2 ^ s - lo + 2 ^ (s + 1) ≤ c - lo + 2 ^ t := by
          by_contra hlt
          have := eq_of_dvd_of_lt hct hd (by omega) (by omega)
          omega
        have := h.apart hc ha (by omega) (by omega)
        omega
    subst hca
    refine ⟨t, ?_, hc⟩
    by_contra hts
    have hpt : 2 ^ (s + 1) ≤ 2 ^ t := Nat.pow_le_pow_right (by decide) (by omega)
    have := h.apart hc ha (by omega) (by omega)
    omega

theorem buddyOf_pair {a s : Nat} (hlo : lo ≤ a) (ha : 2 ^ s ∣ a - lo) :
    (2 ^ (s + 1) ∣ a - lo ∧ buddyOf lo a s = a + 2 ^ s) ∨
      (lo + 2 ^ s ≤ a ∧ 2 ^ (s + 1) ∣ a - 2 ^ s - lo ∧ buddyOf lo a s = a - 2 ^ s) := by
  unfold buddyOf
  by_cases hev : 2 ^ (s + 1) ∣ a - lo
  · exact Or.inl ⟨hev, if_pos hev⟩
  · obtain ⟨hle, hd⟩ := dvd_sub_of_odd ha hev
    have he : a - lo - 2 ^ s = a - 2 ^ s - lo := by omega
    exact Or.inr ⟨by omega, he ▸ hd, if_neg hev⟩

/-- A block's and its buddy's distances from the start differ in bit `s` alone. -/
theorem buddyOf_eq_xor {a s : Nat} (hlo : lo ≤ a) (ha : 2 ^ s ∣ a - lo) :
    buddyOf lo a s = lo + ((a - lo) ^^^ 2 ^ s) := by
  rw [xor_two_pow ha]
  unfold buddyOf
  by_cases hev : 2 ^ (s + 1) ∣ a - lo
  · rw [if_pos hev, if_pos hev]
    omega
  · have := (dvd_sub_of_odd ha hev).1
    rw [if_neg hev, if_neg hev]
    omega

/-- The buddy's buddy is the block. -/
theorem eq_buddyOf {a b s : Nat} (hlo : lo ≤ a) (ha : 2 ^ s ∣ a - lo) (hlo' : lo ≤ b)
    (hb : 2 ^ s ∣ b - lo) (h : b = buddyOf lo a s) : a = buddyOf lo b s := by
  rw [buddyOf_eq_xor hlo ha] at h
  rw [buddyOf_eq_xor hlo' hb, show b - lo = (a - lo) ^^^ 2 ^ s by omega, Nat.xor_assoc,
    Nat.xor_self, Nat.xor_zero]
  omega

/-- A tiling without a pair of equal buddies has only blocks of the largest size. -/
theorem scale_eq_of_no_buddies (h : Tiling M lo hi B)
    (hn : ∀ a s, s < M → B a s → ¬ B (buddyOf lo a s) s) {a s : Nat} (ha : B a s) : s = M := by
  induction s using Nat.strong_induction_on generalizing a with
  | _ s ih =>
    by_contra hne
    have hs : s < M := Nat.lt_of_le_of_ne (h.scale ha) hne
    obtain ⟨t, hts, ht⟩ := h.buddy_block ha hs
    rcases Nat.lt_or_eq_of_le hts with hlt | rfl
    · have := ih t hlt ht
      omega
    · exact hn a t hs ha ht

/-- A multiple of `n` below the end of a stretch that is one too leaves room for another `n`. -/
theorem add_le_of_dvd_of_lt {n x y : Nat} (hx : n ∣ x) (hy : n ∣ y) (h : x < y) : x + n ≤ y := by
  have := Nat.le_of_dvd (Nat.sub_pos_of_lt h) (Nat.dvd_sub hy hx)
  omega

/-- In an aligned stretch whose blocks have no equal buddies no block is smaller than it. -/
theorem not_smaller (h : Tiling M lo hi B) {F : Nat → Nat → Prop} (hn : ∀ a s, s < M → F a s → ¬ F (buddyOf lo a s) s)
    {c t : Nat} (hlo : lo ≤ c) (hct : 2 ^ t ∣ c - lo) (ht : t ≤ M) (hF : ∀ a s, B a s → c ≤ a → a < c + 2 ^ t → F a s)
    {a s : Nat} (ha : B a s) (hca : c ≤ a) (hac : a < c + 2 ^ t) : t ≤ s := by
  induction s using Nat.strong_induction_on generalizing a with
  | _ s ih =>
    by_contra hts
    have hst : s + 1 ≤ t := by omega
    have hlow := h.lower ha
    have hps := two_pow_pos' s
    have hpow : 2 ^ (s + 1) = 2 ^ s + 2 ^ s := by ring
    have hd := (pow_dvd_pow 2 hst).trans hct
    have hd' : 2 ^ (s + 1) ∣ c + 2 ^ t - lo := by
      rw [show c + 2 ^ t - lo = c - lo + 2 ^ t by omega]
      exact Nat.dvd_add hd (pow_dvd_pow 2 hst)
    -- the pair of `a` and its buddy is aligned, so it does not reach over the ends
    have hbuddy : c ≤ buddyOf lo a s ∧ buddyOf lo a s < c + 2 ^ t := by
      rcases buddyOf_pair hlow (h.aligned ha) with ⟨hev, hb⟩ | ⟨hle, hev, hb⟩
      · have := add_le_of_dvd_of_lt hev hd' (by omega)
        omega
      · have : ¬ a - 2 ^ s - lo < c - lo := fun hlt => by
          have := add_le_of_dvd_of_lt hev hd hlt
          omega
        omega
    obtain ⟨u, hus, hu⟩ := h.buddy_block ha (by omega)
    rcases Nat.lt_or_eq_of_le hus with hlt | rfl
    · have := ih u hlt hu hbuddy.1 hbuddy.2
      omega
    · exact hn a u (by omega) (hF a u ha hca hac) (hF _ u hu hbuddy.1 hbuddy.2)

/-! ### Changing a tiling -/

/-- Halving the block at `a`. -/
theorem split (h : Tiling M lo hi B) {a s : Nat} (ha : B a (s + 1)) :
    Tiling M lo hi fun x t => ((x = a ∨ x = a + 2 ^ s) ∧ t = s) ∨ (B x t ∧ x ≠ a) := by
  have hps := two_pow_pos' s
  have hpow : 2 ^ (s + 1) = 2 ^ s + 2 ^ s := by ring
  have hlo := h.lower ha
  have hhi := h.upper ha
  have hal := (pow_dvd_pow 2 (Nat.le_succ s)).trans (h.aligned ha)
  have hsM := h.scale ha
  -- a half and another block are as far apart as the whole was from it
  have hhalf : ∀ {x b t : Nat}, (x = a ∨ x = a + 2 ^ s) → B b t → b ≠ a →
      x < b + 2 ^ t → b < x + 2 ^ s → False := by
    intro x b t hx hb hne h1 h2
    rcases h.separate ha hb (Ne.symm hne) with hsep | hsep <;> omega
  constructor
  case scale =>
    rintro x t (⟨-, rfl⟩ | ⟨hx, -⟩)
    · omega
    · exact h.scale hx
  case lower =>
    rintro x t (⟨rfl | rfl, -⟩ | ⟨hx, -⟩)
    · exact hlo
    · omega
    · exact h.lower hx
  case aligned =>
    rintro x t (⟨rfl | rfl, rfl⟩ | ⟨hx, -⟩)
    · exact hal
    · rw [show a + 2 ^ t - lo = a - lo + 2 ^ t by omega]
      exact Nat.dvd_add hal (Nat.dvd_refl _)
    · exact h.aligned hx
  case upper =>
    rintro x t (⟨rfl | rfl, rfl⟩ | ⟨hx, -⟩)
    · omega
    · omega
    · exact h.upper hx
  case covers =>
    intro x hx hx'
    obtain ⟨b, t, hb, hbx, hxb⟩ := h.covers x hx hx'
    by_cases hba : b = a
    · subst hba
      obtain rfl := h.scale_unique ha hb
      rcases Nat.lt_or_ge x (b + 2 ^ s) with hlt | hge
      · exact ⟨b, s, Or.inl ⟨Or.inl rfl, rfl⟩, hbx, hlt⟩
      · exact ⟨b + 2 ^ s, s, Or.inl ⟨Or.inr rfl, rfl⟩, hge, by omega⟩
    · exact ⟨b, t, Or.inr ⟨hb, hba⟩, hbx, hxb⟩
  case apart =>
    rintro x t y u (⟨hx, rfl⟩ | ⟨hx, hxa⟩) (⟨hy, rfl⟩ | ⟨hy, hya⟩) h1 h2
    · exact ⟨by omega, rfl⟩
    · exact (hhalf hx hy hya h1 h2).elim
    · exact (hhalf hy hx hxa h2 h1).elim
    · exact h.apart hx hy h1 h2
  case ordered => exact h.ordered
  case whole => exact h.whole

/-- Joining the blocks at `a` and `a + 2 ^ s`. -/
theorem merge (h : Tiling M lo hi B) {a s : Nat} (ha : B a s) (hb : B (a + 2 ^ s) s)
    (hd : 2 ^ (s + 1) ∣ a - lo) (hs : s < M) :
    Tiling M lo hi fun x t => (x = a ∧ t = s + 1) ∨ (B x t ∧ x ≠ a ∧ x ≠ a + 2 ^ s) := by
  have hps := two_pow_pos' s
  have hpow : 2 ^ (s + 1) = 2 ^ s + 2 ^ s := by ring
  have hhi := h.upper hb
  have hwhole : ∀ {b t : Nat}, B b t → b ≠ a → b ≠ a + 2 ^ s →
      a < b + 2 ^ t → b < a + 2 ^ (s + 1) → False := by
    intro b t hx hne hne' h1 h2
    have hpt := two_pow_pos' t
    rcases h.separate ha hx (Ne.symm hne) with hsep | hsep
    · rcases h.separate hb hx (Ne.symm hne') with hsep' | hsep' <;> omega
    · omega
  constructor
  case scale =>
    rintro x t (⟨-, rfl⟩ | ⟨hx, -⟩)
    · omega
    · exact h.scale hx
  case lower =>
    rintro x t (⟨rfl, -⟩ | ⟨hx, -⟩)
    · exact h.lower ha
    · exact h.lower hx
  case aligned =>
    rintro x t (⟨rfl, rfl⟩ | ⟨hx, -⟩)
    · exact hd
    · exact h.aligned hx
  case upper =>
    rintro x t (⟨rfl, rfl⟩ | ⟨hx, -⟩)
    · omega
    · exact h.upper hx
  case covers =>
    intro x hx hx'
    obtain ⟨b, t, hb', hbx, hxb⟩ := h.covers x hx hx'
    by_cases hba : b = a
    · subst hba
      obtain rfl := h.scale_unique ha hb'
      exact ⟨b, s + 1, Or.inl ⟨rfl, rfl⟩, hbx, by omega⟩
    · by_cases hbs : b = a + 2 ^ s
      · subst hbs
        obtain rfl := h.scale_unique hb hb'
        exact ⟨a, s + 1, Or.inl ⟨rfl, rfl⟩, by omega, by omega⟩
      · exact ⟨b, t, Or.inr ⟨hb', hba, hbs⟩, hbx, hxb⟩
  case apart =>
    rintro x t y u (⟨rfl, rfl⟩ | ⟨hx, hxa, hxs⟩) (⟨rfl, rfl⟩ | ⟨hy, hya, hys⟩) h1 h2
    · exact ⟨rfl, rfl⟩
    · exact (hwhole hy hya hys h1 h2).elim
    · exact (hwhole hx hxa hxs h2 h1).elim
    · exact h.apart hx hy h1 h2
  case ordered => exact h.ordered
  case whole => exact h.whole

/-- One more largest block at the end. -/
theorem grow (h : Tiling M lo hi B) :
    Tiling M lo (hi + 2 ^ M) fun x t => (x = hi ∧ t = M) ∨ B x t := by
  have hp := two_pow_pos' M
  have hord := h.ordered
  have hsub : hi + 2 ^ M - lo = hi - lo + 2 ^ M := by omega
  constructor
  case scale =>
    rintro x t (⟨-, rfl⟩ | hx)
    · exact Nat.le_refl _
    · exact h.scale hx
  case lower =>
    rintro x t (⟨rfl, -⟩ | hx)
    · exact hord
    · exact h.lower hx
  case aligned =>
    rintro x t (⟨rfl, rfl⟩ | hx)
    · exact h.whole
    · exact h.aligned hx
  case upper =>
    rintro x t (⟨rfl, rfl⟩ | hx)
    · exact Nat.le_refl _
    · have := h.upper hx
      omega
  case covers =>
    intro x hx hx'
    rcases Nat.lt_or_ge x hi with hlt | hge
    · obtain ⟨b, t, hb, hbx, hxb⟩ := h.covers x hx hlt
      exact ⟨b, t, Or.inr hb, hbx, hxb⟩
    · exact ⟨hi, M, Or.inl ⟨rfl, rfl⟩, hge, hx'⟩
  case apart =>
    rintro x t y u (⟨rfl, rfl⟩ | hx) (⟨rfl, rfl⟩ | hy) h1 h2
    · exact ⟨rfl, rfl⟩
    · have := h.upper hy
      omega
    · have := h.upper hx
      omega
    · exact h.apart hx hy h1 h2
  case ordered => omega
  case whole =>
    rw [hsub]
    exact Nat.dvd_add h.whole (Nat.dvd_refl _)

/-- Without its last largest block. -/
theorem shrink (h : Tiling M lo (hi + 2 ^ M) B) (hB : B hi M) :
    Tiling M lo hi fun x t => B x t ∧ x ≠ hi := by
  have hp := two_pow_pos' M
  have hlo := h.lower hB
  constructor
  case scale => exact fun hx => h.scale hx.1
  case lower => exact fun hx => h.lower hx.1
  case aligned => exact fun hx => h.aligned hx.1
  case upper =>
    rintro x t ⟨hx, hne⟩
    have := h.upper hx
    have := two_pow_pos' t
    rcases h.separate hx hB hne with hsep | hsep <;> omega
  case covers =>
    intro x hx hx'
    obtain ⟨b, t, hb, hbx, hxb⟩ := h.covers x hx (by omega)
    exact ⟨b, t, ⟨hb, by omega⟩, hbx, hxb⟩
  case apart => exact fun hx hy h1 h2 => h.apart hx.1 hy.1 h1 h2
  case ordered => exact hlo
  case whole => exact h.aligned hB

/-! ### Walking a tiling from its start -/

/-- The blocks `bs` stand one after the other from `lo` to `hi`. -/
def Walk : Nat → List (Nat × Nat) → Nat → Prop
  | lo, [], hi => lo = hi
  | lo, (a, s) :: rest, hi => a = lo ∧ Walk (a + 2 ^ s) rest hi

theorem exists_walk_from (h : Tiling M lo hi B) (n x : Nat) (hn : hi - x ≤ n) (hx : lo ≤ x)
    (hx' : x ≤ hi) (hb : ∀ a s, B a s → a < x → a + 2 ^ s ≤ x) :
    ∃ bs, Walk x bs hi ∧ ∀ a s, (a, s) ∈ bs ↔ B a s ∧ x ≤ a := by
  induction n generalizing x with
  | zero =>
    obtain rfl : x = hi := by omega
    refine ⟨[], rfl, fun a s => ⟨fun hm => (List.not_mem_nil hm).elim, fun hm => ?_⟩⟩
    have := h.upper hm.1
    have := two_pow_pos' s
    omega
  | succ n ih =>
    rcases Nat.lt_or_eq_of_le hx' with hlt | rfl
    · obtain ⟨a, s, ha, hax, hxa⟩ := h.covers x hx hlt
      -- no block straddles `x`, so the one that contains it starts there
      obtain rfl : a = x := by
        by_contra hne
        have := hb a s ha (by omega)
        omega
      have hps := two_pow_pos' s
      have hnext : ∀ b t, B b t → b < a + 2 ^ s → b + 2 ^ t ≤ a + 2 ^ s := by
        intro b t hbt hlt'
        rcases Nat.lt_or_ge b a with hba | hba
        · have := hb b t hbt hba
          omega
        · have := h.apart ha hbt (by have := two_pow_pos' t; omega) hlt'
          rw [this.1, this.2]
      obtain ⟨bs, hw, hbs⟩ := ih (a + 2 ^ s) (by omega) (by omega) (h.upper ha) hnext
      refine ⟨(a, s) :: bs, ⟨rfl, hw⟩, fun b t => ?_⟩
      rw [List.mem_cons, hbs, Prod.mk.injEq]
      constructor
      · rintro (⟨rfl, rfl⟩ | ⟨hbt, hle⟩)
        · exact ⟨ha, Nat.le_refl _⟩
        · exact ⟨hbt, by omega⟩
      · rintro ⟨hbt, hle⟩
        rcases Nat.lt_or_ge b (a + 2 ^ s) with hlt' | hge
        · have := h.apart ha hbt (by have := two_pow_pos' t; omega) hlt'
          exact Or.inl ⟨this.1.symm, this.2.symm⟩
        · exact Or.inr ⟨hbt, hge⟩
    · refine ⟨[], rfl, fun a s => ⟨fun hm => (List.not_mem_nil hm).elim, fun hm => ?_⟩⟩
      have := h.upper hm.1
      have := two_pow_pos' s
      omega

/-- The blocks of a tiling, in order, reach from one end to the other. -/
theorem exists_walk (h : Tiling M lo hi B) :
    ∃ bs, Walk lo bs hi ∧ ∀ a s, (a, s) ∈ bs ↔ B a s := by
  obtain ⟨bs, hw, hbs⟩ := h.exists_walk_from (hi - lo) lo (Nat.le_refl _) (Nat.le_refl _) h.ordered
    fun a s ha hlt => absurd (h.lower ha) (by omega)
  exact ⟨bs, hw, fun a s => (hbs a s).trans ⟨fun hm => hm.1, fun ha => ⟨ha, h.lower ha⟩⟩⟩

end Tiling
end ShompOS
