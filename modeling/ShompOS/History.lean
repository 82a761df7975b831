import Mathlib.Data.List.Basic

/-! Arrays that are made and written over, and what is known of them.

A change makes an array with some contents, or writes a piece over it from a position
on, past its end if need be; what lies between the end and the position is then anything.
Of a list of changes the last one to reach an index says what is there (`lastAt`), and
the changes say how long the array is. An array is `Recorded` by changes if it is that
long and holds what they say; the rules say which changes keep that. -/
namespace ShompOS

variable {κ β : Type}

inductive Change (κ β : Type)
  | made (k : κ) (contents : List β)
  | wrote (k : κ) (position : Nat) (piece : List β)

namespace Change

/-- The array it is about. -/
def key : Change κ β → κ
  | .made k _ => k
  | .wrote k _ _ => k

variable [DecidableEq κ]

/-- What a change leaves at an index, if it reaches it: nothing known past the end of
what it makes. -/
def sets (k : κ) (i : Nat) : Change κ β → Option (Option β)
  | .made k' contents => if k' = k then some contents[i]? else none
  | .wrote k' position piece =>
    if k' = k ∧ position ≤ i ∧ i < position + piece.length then some piece[i - position]? else none

def lengthAfter (k : κ) (n : Nat) : Change κ β → Nat
  | .made k' contents => if k' = k then contents.length else n
  | .wrote k' position piece => if k' = k then max n (position + piece.length) else n

end Change

section History
variable [DecidableEq κ]

/-- What the last change to reach an index left there. -/
def lastAt (k : κ) (i : Nat) (cs : List (Change κ β)) : Option β := (cs.reverse.findSome? (Change.sets k i)).join

def lengthOf (k : κ) (cs : List (Change κ β)) : Nat := cs.foldl (Change.lengthAfter k) 0

structure Recorded (cs : List (Change κ β)) (k : κ) (xs : List β) : Prop where
  length : xs.length = lengthOf k cs
  bytes : ∀ i b, lastAt k i cs = some b → xs[i]? = some b

variable {cs : List (Change κ β)} {k : κ} {xs ys : List β} {c : Change κ β} {i position : Nat}

theorem lastAt_append (k : κ) (i : Nat) (cs : List (Change κ β)) (c : Change κ β) :
    lastAt k i (cs ++ [c]) = (c.sets k i).getD (lastAt k i cs) := by
  unfold lastAt
  rw [List.reverse_append, List.reverse_singleton, List.singleton_append, List.findSome?_cons]
  cases c.sets k i with
  | none => rfl
  | some b => rfl

theorem lengthOf_append (k : κ) (cs : List (Change κ β)) (c : Change κ β) :
    lengthOf k (cs ++ [c]) = c.lengthAfter k (lengthOf k cs) :=
  List.foldl_append

theorem Change.sets_of_ne (h : c.key ≠ k) (i : Nat) : c.sets k i = none := by
  cases c with
  | made k' contents => exact if_neg h
  | wrote k' position piece => exact if_neg fun he => h he.1

theorem Change.lengthAfter_of_ne (h : c.key ≠ k) (n : Nat) : c.lengthAfter k n = n := by
  cases c with
  | made k' contents => exact if_neg h
  | wrote k' position piece => exact if_neg h

/-- A change to another array. -/
theorem Recorded.other (h : Recorded cs k xs) (hc : c.key ≠ k) : Recorded (cs ++ [c]) k xs := by
  constructor
  · rw [lengthOf_append, Change.lengthAfter_of_ne hc, h.length]
  · intro i b hb
    rw [lastAt_append, Change.sets_of_ne hc] at hb
    exact h.bytes i b hb

/-- Whatever the changes before, an array that is made has what it is made of. -/
theorem recorded_made (cs : List (Change κ β)) (k : κ) (xs : List β) : Recorded (cs ++ [.made k xs]) k xs := by
  constructor
  · rw [lengthOf_append]
    exact (if_pos rfl).symm
  · intro i b hb
    have hsets : (Change.made k xs).sets k i = some xs[i]? := if_pos rfl
    rw [lastAt_append, hsets] at hb
    exact hb

/-- An array that is written over has the piece where it was written and is the same
elsewhere, as far as it went before. -/
theorem Recorded.wrote (h : Recorded cs k xs) {piece : List β}
    (hlength : ys.length = max xs.length (position + piece.length))
    (hpiece : ∀ i, i < piece.length → ys[position + i]? = piece[i]?)
    (hkept : ∀ i, i < xs.length → ¬ (position ≤ i ∧ i < position + piece.length) → ys[i]? = xs[i]?) :
    Recorded (cs ++ [.wrote k position piece]) k ys := by
  constructor
  · have hafter : (Change.wrote k position piece).lengthAfter k (lengthOf k cs) =
        max (lengthOf k cs) (position + piece.length) := if_pos rfl
    rw [lengthOf_append, hafter, hlength, h.length]
  · intro i b hb
    rw [lastAt_append] at hb
    by_cases hin : position ≤ i ∧ i < position + piece.length
    · have hsets : (Change.wrote k position piece).sets k i = some piece[i - position]? := if_pos ⟨rfl, hin⟩
      rw [hsets] at hb
      have hat := hpiece (i - position) (by omega)
      rw [Nat.add_sub_cancel' hin.1] at hat
      exact hat.trans hb
    · have hsets : (Change.wrote k position piece).sets k i = none := if_neg fun he => hin he.2
      rw [hsets] at hb
      have hold := h.bytes i b hb
      rw [hkept i (List.getElem?_eq_some_iff.mp hold).1 hin]
      exact hold

end History
end ShompOS
