import Mathlib.Data.List.TakeWhile
import Mathlib.Tactic.TypeStar

/-! Splitting a word at delimiters.

A token is a maximal non-empty stretch of a word without delimiters, with the
position where it starts (`Token`). `Splits i s sp` takes a word that starts at
position `i` apart as a program does that goes through it once: delimiters, a
token, the delimiter behind it, and so on. Every word splits (`exists_splits`),
and what it splits into are all its tokens, in order and each of them once
(`Splits.mem_iff`, `Splits.sorted`). -/
namespace ShompOS.Splitting
variable {α : Type*} {D : α → Prop} {s u tok : List α} {x : α}

/-- `tok` is a maximal stretch of `s` without delimiters, and starts at `k`. -/
structure Token (D : α → Prop) (s : List α) (k : Nat) (tok : List α) : Prop where
  nonempty : tok ≠ []
  chars : ∀ j c, tok[j]? = some c → s[k + j]? = some c
  free : ∀ c ∈ tok, ¬ D c
  left : ∀ j c, j + 1 = k → s[j]? = some c → D c
  right : ∀ c, s[k + tok.length]? = some c → D c

/-- A word from position `i` on, taken apart: the tokens with their positions. -/
inductive Splits (D : α → Prop) : (i : Nat) → (s : List α) → (sp : List (Nat × List α)) → Prop
  | done {i : Nat} {s : List α} (hs : ∀ x ∈ s, D x) : Splits D i s []
  | last {i : Nat} {pre tok : List α} (hpre : ∀ x ∈ pre, D x) (htok : ∀ x ∈ tok, ¬ D x) (hne : tok ≠ []) :
    Splits D i (pre ++ tok) [(i + pre.length, tok)]
  | more {i : Nat} {pre tok rest : List α} {x : α} {sp : List (Nat × List α)} (hpre : ∀ x ∈ pre, D x)
    (htok : ∀ x ∈ tok, ¬ D x) (hne : tok ≠ []) (hx : D x)
    (hrest : Splits D (i + pre.length + tok.length + 1) rest sp) :
    Splits D i (pre ++ (tok ++ x :: rest)) ((i + pre.length, tok) :: sp)

/-- A word is delimiters, or delimiters and a token and what follows. -/
theorem exists_front (D : α → Prop) (s : List α) :
    (∀ x ∈ s, D x) ∨ ∃ pre tok rest, s = pre ++ (tok ++ rest) ∧ (∀ x ∈ pre, D x) ∧ (∀ x ∈ tok, ¬ D x) ∧
      tok ≠ [] ∧ ∀ x ∈ rest.head?, D x := by
  classical
  induction s with
  | nil => exact .inl fun x hx => absurd hx List.not_mem_nil
  | cons y s ih =>
    by_cases hy : D y
    · cases ih with
      | inl hall => exact .inl (List.forall_mem_cons.mpr ⟨hy, hall⟩)
      | inr h =>
        obtain ⟨pre, tok, rest, rfl, hpre, h⟩ := h
        exact .inr ⟨y :: pre, tok, rest, rfl, List.forall_mem_cons.mpr ⟨hy, hpre⟩, h⟩
    · right
      refine ⟨[], (y :: s).takeWhile (¬ D ·), (y :: s).dropWhile (¬ D ·), List.takeWhile_append_dropWhile.symm,
        fun x hx => absurd hx List.not_mem_nil, fun x hx => ?_, ?_, fun x hx => ?_⟩
      · simpa using List.mem_takeWhile_imp hx
      · rw [List.takeWhile_cons_of_pos (by simpa using hy)]
        exact List.cons_ne_nil _ _
      · have hhead := List.head?_dropWhile_not (fun x => decide (¬ D x)) (y :: s)
        rw [hx] at hhead
        simpa using hhead

theorem exists_splits (D : α → Prop) (i : Nat) (s : List α) : ∃ sp, Splits D i s sp := by
  induction hn : s.length using Nat.strong_induction_on generalizing i s with
  | _ n ih =>
    cases exists_front D s with
    | inl hall => exact ⟨[], .done hall⟩
    | inr h =>
      obtain ⟨pre, tok, rest, rfl, hpre, htok, hne, hrest⟩ := h
      cases rest with
      | nil =>
        rw [List.append_nil]
        exact ⟨_, .last hpre htok hne⟩
      | cons x rest =>
        have hlt : rest.length < n := by
          rw [← hn, List.length_append, List.length_append, List.length_cons]
          omega
        obtain ⟨sp, hsp⟩ := ih _ hlt (i + pre.length + tok.length + 1) rest rfl
        exact ⟨_, .more hpre htok hne (hrest x rfl) hsp⟩

/-! ### Where the tokens are -/

theorem Token.length_pos {k : Nat} (h : Token D s k tok) : 0 < tok.length := List.length_pos_iff.mpr h.nonempty

theorem Token.char {k j : Nat} (h : Token D s k tok) (hj : j < tok.length) :
    ∃ c, s[k + j]? = some c ∧ c ∈ tok :=
  ⟨tok[j], h.chars j _ (List.getElem?_eq_getElem hj), List.getElem_mem hj⟩

theorem Token.end_le {k : Nat} (h : Token D s k tok) : k + tok.length ≤ s.length := by
  have hpos := h.length_pos
  obtain ⟨c, hc, -⟩ := h.char (Nat.sub_lt hpos Nat.one_pos)
  have := (List.getElem?_eq_some_iff.mp hc).1
  omega

/-- No position of a delimiter is in a token. -/
theorem Token.outside {k j : Nat} (h : Token D s k tok) {c : α} (hj : s[j]? = some c) (hc : D c) :
    j < k ∨ k + tok.length ≤ j := by
  by_contra hin
  obtain ⟨d, hd, hmem⟩ := h.char (show j - k < tok.length by omega)
  rw [show k + (j - k) = j by omega, hj] at hd
  exact h.free d hmem (Option.some.inj hd ▸ hc)

/-- A word cut at a delimiter has the tokens of the two parts. -/
theorem token_cut (hx : D x) (u rest : List α) (k : Nat) (tok : List α) :
    Token D (u ++ x :: rest) k tok ↔
      Token D u k tok ∨ ∃ k', k = u.length + 1 + k' ∧ Token D rest k' tok := by
  have hat : (u ++ x :: rest)[u.length]? = some x := by simp
  have hleft : ∀ j, j < u.length → (u ++ x :: rest)[j]? = u[j]? := fun j hj => List.getElem?_append_left hj
  have hright : ∀ j, (u ++ x :: rest)[u.length + 1 + j]? = rest[j]? := by
    intro j
    rw [List.getElem?_append_right (by omega), show u.length + 1 + j - u.length = j + 1 by omega,
      List.getElem?_cons_succ]
  constructor
  · intro h
    have hpos := h.length_pos
    cases h.outside hat hx with
    | inl hk =>
      obtain ⟨k', rfl⟩ := Nat.exists_eq_add_of_le (Nat.succ_le_of_lt hk)
      refine .inr ⟨k', rfl, h.nonempty, fun j c hj => ?_, h.free, fun j c hj hc => ?_, fun c hc => ?_⟩
      · rw [← hright, ← Nat.add_assoc]
        exact h.chars j c hj
      · exact h.left (u.length + 1 + j) c (by omega) ((hright j).trans hc)
      · apply h.right c
        rw [Nat.add_assoc]
        exact (hright _).trans hc
    | inr hk =>
      refine .inl ⟨h.nonempty, fun j c hj => ?_, h.free, fun j c hj hc => ?_, fun c hc => ?_⟩
      · have hlt := (List.getElem?_eq_some_iff.mp hj).1
        rw [← hleft _ (by omega)]
        exact h.chars j c hj
      · exact h.left j c hj ((hleft j (by omega)).trans hc)
      · have hlt := (List.getElem?_eq_some_iff.mp hc).1
        exact h.right c ((hleft _ hlt).trans hc)
  · rintro (h | ⟨k', rfl, h⟩)
    · have hend := h.end_le
      refine ⟨h.nonempty, fun j c hj => ?_, h.free, fun j c hj hc => ?_, fun c hc => ?_⟩
      · have hlt := (List.getElem?_eq_some_iff.mp hj).1
        rw [hleft _ (by omega)]
        exact h.chars j c hj
      · have hpos := h.length_pos
        exact h.left j c hj ((hleft j (by omega)).symm.trans hc)
      · by_cases hlt : k + tok.length < u.length
        · exact h.right c ((hleft _ hlt).symm.trans hc)
        · rw [show k + tok.length = u.length by omega, hat] at hc
          exact Option.some.inj hc ▸ hx
    · refine ⟨h.nonempty, fun j c hj => ?_, h.free, fun j c hj hc => ?_, fun c hc => ?_⟩
      · rw [Nat.add_assoc, hright]
        exact h.chars j c hj
      · by_cases hk' : k' = 0
        · rw [show j = u.length by omega, hat] at hc
          exact Option.some.inj hc ▸ hx
        · rw [show j = u.length + 1 + (k' - 1) by omega, hright] at hc
          exact h.left (k' - 1) c (by omega) hc
      · rw [Nat.add_assoc, hright] at hc
        exact h.right c hc

theorem not_token_of_delims (hs : ∀ x ∈ s, D x) (k : Nat) (tok : List α) : ¬ Token D s k tok := by
  intro h
  obtain ⟨c, hc, hmem⟩ := h.char h.length_pos
  exact h.free c hmem (hs c (List.mem_of_getElem? hc))

/-- A word without delimiters is its only token. -/
theorem token_iff_of_free {t : List α} (ht : ∀ x ∈ t, ¬ D x) (hne : t ≠ []) (k : Nat) :
    Token D t k tok ↔ k = 0 ∧ tok = t := by
  constructor
  · intro h
    have hpos := h.length_pos
    have hend := h.end_le
    have hk : k = 0 := by
      by_contra hk
      have hlt : k - 1 < t.length := by omega
      exact ht _ (List.getElem_mem hlt) (h.left (k - 1) _ (by omega) (List.getElem?_eq_getElem hlt))
    subst hk
    rw [Nat.zero_add] at hend
    have hall : t.length ≤ tok.length := by
      by_contra hlt
      rw [Nat.not_le] at hlt
      apply ht _ (List.getElem_mem hlt)
      apply h.right
      rw [Nat.zero_add]
      exact List.getElem?_eq_getElem hlt
    refine ⟨rfl, List.ext_getElem (Nat.le_antisymm hend hall) fun j hj hj' => ?_⟩
    have hchar := h.chars j _ (List.getElem?_eq_getElem hj)
    rw [Nat.zero_add, List.getElem?_eq_getElem hj'] at hchar
    exact (Option.some.inj hchar).symm
  · rintro ⟨rfl, rfl⟩
    refine ⟨hne, fun j c hj => ?_, ht, fun j c hj => (nomatch hj), fun c hc => ?_⟩
    · rw [Nat.zero_add]
      exact hj
    · rw [Nat.zero_add, List.getElem?_eq_none (Nat.le_refl _)] at hc
      cases hc

/-- Delimiters in front are no part of a token. -/
theorem token_append_iff {pre t : List α} (hpre : ∀ x ∈ pre, D x) (ht : ∀ x ∈ t, ¬ D x) (hne : t ≠ []) (k : Nat) :
    Token D (pre ++ t) k tok ↔ k = pre.length ∧ tok = t := by
  induction pre generalizing k with
  | nil => exact token_iff_of_free ht hne k
  | cons x pre ih =>
    have hcut := token_cut (hpre x (List.mem_cons_self ..)) [] (pre ++ t) k tok
    have hnil : ¬ Token D [] k tok := not_token_of_delims (fun x hx => absurd hx List.not_mem_nil) k tok
    rw [List.nil_append, or_iff_right hnil] at hcut
    rw [List.cons_append, hcut]
    constructor
    · rintro ⟨k', rfl, h⟩
      obtain ⟨rfl, rfl⟩ := (ih (fun y hy => hpre y (List.mem_cons_of_mem x hy)) k').mp h
      exact ⟨Nat.add_comm .., rfl⟩
    · rintro ⟨rfl, rfl⟩
      exact ⟨pre.length, Nat.add_comm .., (ih (fun y hy => hpre y (List.mem_cons_of_mem x hy)) _).mpr ⟨rfl, rfl⟩⟩

variable {i : Nat} {sp : List (Nat × List α)}

/-- A word is split into its tokens, all of them. -/
theorem Splits.mem_iff (h : Splits D i s sp) (j : Nat) (tok : List α) :
    (j, tok) ∈ sp ↔ ∃ k, j = i + k ∧ Token D s k tok := by
  induction h with
  | done hs =>
    exact iff_of_false List.not_mem_nil fun ⟨k, _, h⟩ => not_token_of_delims hs k tok h
  | @last i pre t hpre ht hne =>
    rw [List.mem_singleton, Prod.mk.injEq]
    constructor
    · rintro ⟨rfl, rfl⟩
      exact ⟨_, rfl, (token_append_iff hpre ht hne _).mpr ⟨rfl, rfl⟩⟩
    · rintro ⟨k, rfl, h⟩
      obtain ⟨rfl, rfl⟩ := (token_append_iff hpre ht hne k).mp h
      exact ⟨rfl, rfl⟩
  | @more i pre t rest x sp hpre ht hne hx hrest ih =>
    rw [List.mem_cons, Prod.mk.injEq, ih]
    constructor
    · rintro (⟨rfl, rfl⟩ | ⟨k, rfl, h⟩)
      · refine ⟨_, rfl, ?_⟩
        rw [← List.append_assoc, token_cut hx]
        exact .inl ((token_append_iff hpre ht hne _).mpr ⟨rfl, rfl⟩)
      · refine ⟨pre.length + t.length + 1 + k, by omega, ?_⟩
        rw [← List.append_assoc, token_cut hx, List.length_append]
        exact .inr ⟨k, rfl, h⟩
    · rintro ⟨k, rfl, h⟩
      rw [← List.append_assoc, token_cut hx, List.length_append] at h
      cases h with
      | inl h =>
        obtain ⟨rfl, rfl⟩ := (token_append_iff hpre ht hne k).mp h
        exact .inl ⟨rfl, rfl⟩
      | inr h =>
        obtain ⟨k', rfl, h⟩ := h
        exact .inr ⟨k', by omega, h⟩

/-- They are in order, and do not touch. -/
theorem Splits.sorted (h : Splits D i s sp) : sp.Pairwise fun p q => p.1 + p.2.length < q.1 := by
  induction h with
  | done hs => exact List.Pairwise.nil
  | last hpre ht hne => exact List.pairwise_singleton ..
  | more hpre ht hne hx hrest ih =>
    refine List.pairwise_cons.mpr ⟨fun q hq => ?_, ih⟩
    obtain ⟨k, hk, -⟩ := (hrest.mem_iff q.1 q.2).mp hq
    dsimp only
    omega

end ShompOS.Splitting
