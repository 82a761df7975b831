import Mathlib.Data.List.Nodup

/-! Self-terminated doubly linked chains.

A chain starts at a head and has no null pointer: the head is its own
predecessor and the last node its own successor, so "is this the end" is one
comparison on the node itself. `next` and `prev` are any two maps on any type of
nodes; the library says which chains two maps that differ in a few places have
in common, and what linking a node in behind the head (`Chain.push`) and taking
a node out of anywhere (`Chain.unlink`) do. -/
namespace ShompOS

variable {α : Type} {next prev next' prev' : α → α}

/-- From `a` the members follow one another, linked both ways, to a last node
that is its own successor. -/
def Linked (next prev : α → α) : α → List α → Prop
  | a, [] => next a = a
  | a, b :: rest => next a = b ∧ prev b = a ∧ Linked next prev b rest

structure Chain (next prev : α → α) (head : α) (members : List α) : Prop where
  nodup : (head :: members).Nodup
  front : prev head = head
  linked : Linked next prev head members

/-! ### Reading a chain -/

theorem Linked.congr {a : α} {xs : List α} (h : Linked next prev a xs)
    (hn : ∀ x ∈ a :: xs, next' x = next x) (hp : ∀ x ∈ xs, prev' x = prev x) :
    Linked next' prev' a xs := by
  induction xs generalizing a with
  | nil => exact (hn a (List.mem_cons_self ..)).trans h
  | cons b rest ih =>
    obtain ⟨hab, hba, hrest⟩ := h
    exact ⟨(hn a (List.mem_cons_self ..)).trans hab, (hp b (List.mem_cons_self ..)).trans hba,
      ih hrest (fun x hx => hn x (List.mem_cons_of_mem a hx))
        (fun x hx => hp x (List.mem_cons_of_mem b hx))⟩

theorem Chain.congr {head : α} {xs : List α} (h : Chain next prev head xs)
    (hn : ∀ x ∈ head :: xs, next' x = next x) (hp : ∀ x ∈ head :: xs, prev' x = prev x) :
    Chain next' prev' head xs :=
  ⟨h.nodup, (hp head (List.mem_cons_self ..)).trans h.front,
    h.linked.congr hn fun x hx => hp x (List.mem_cons_of_mem head hx)⟩

/-- A node is the end of its chain exactly when it is its own successor. -/
theorem Linked.end_iff {a : α} {xs : List α} (h : Linked next prev a xs) (ha : a ∉ xs) :
    next a = a ↔ xs = [] := by
  cases xs with
  | nil => exact ⟨fun _ => rfl, fun _ => h⟩
  | cons b rest =>
    refine ⟨fun he => ?_, fun he => by cases he⟩
    exact absurd (List.mem_cons.mpr (Or.inl (he.symm.trans h.1))) ha

theorem Chain.end_iff {head : α} {xs : List α} (h : Chain next prev head xs) :
    next head = head ↔ xs = [] :=
  h.linked.end_iff (List.nodup_cons.mp h.nodup).1

theorem Chain.head_not_mem {head : α} {xs : List α} (h : Chain next prev head xs) : head ∉ xs :=
  (List.nodup_cons.mp h.nodup).1

theorem Chain.first {head b : α} {rest : List α} (h : Chain next prev head (b :: rest)) :
    next head = b := h.linked.1

/-- The members are determined by the links. -/
theorem Linked.unique {a : α} {xs ys : List α} (hx : Linked next prev a xs)
    (hy : Linked next prev a ys) (hxs : (a :: xs).Nodup) (hys : (a :: ys).Nodup) : xs = ys := by
  induction xs generalizing a ys with
  | nil => exact ((hy.end_iff (List.nodup_cons.mp hys).1).mp hx).symm
  | cons b rest ih =>
    cases ys with
    | nil => exact absurd ((hx.end_iff (List.nodup_cons.mp hxs).1).mp hy) (by simp)
    | cons c rest' =>
      obtain rfl : b = c := hx.1.symm.trans hy.1
      rw [ih hx.2.2 hy.2.2 (List.nodup_cons.mp hxs).2 (List.nodup_cons.mp hys).2]

/-- What stands before and after a member. -/
theorem Linked.around {a b : α} {pre post : List α} (h : Linked next prev a (pre ++ b :: post)) :
    prev b ∈ a :: pre ∧ next b ∈ b :: post := by
  induction pre generalizing a with
  | nil =>
    obtain ⟨_, hb, hpost⟩ := h
    refine ⟨by simp [hb], ?_⟩
    cases post with
    | nil => exact List.mem_cons.mpr (Or.inl hpost)
    | cons c rest => rw [hpost.1]; simp
  | cons d pre ih =>
    have := ih h.2.2
    exact ⟨List.mem_cons_of_mem a this.1, this.2⟩

/-! ### Linking in and taking out -/

/-- A new node between the head and what followed it. -/
theorem Chain.push {head b : α} {xs : List α} (h : Chain next prev head xs) (hb : b ∉ head :: xs)
    (hhead : next' head = b) (hback : prev' b = head) (hfront : prev' head = prev head)
    (hend : next head = head → next' b = b) (hnext : next head ≠ head → next' b = next head)
    (hprev : next head ≠ head → prev' (next head) = b)
    (hn : ∀ x ∈ xs, next' x = next x)
    (hp : ∀ x ∈ xs, x ≠ next head → prev' x = prev x) : Chain next' prev' head (b :: xs) := by
  have hnodup := List.nodup_cons.mp h.nodup
  refine ⟨?_, hfront.trans h.front, hhead, hback, ?_⟩
  · simp only [List.mem_cons, not_or] at hb
    simp [List.nodup_cons, hnodup.1, hnodup.2, hb.2, Ne.symm hb.1]
  · cases xs with
    | nil => exact hend h.linked
    | cons c rest =>
      have hc : next head = c := h.first
      have hne : next head ≠ head := fun he => by simpa using h.end_iff.mp he
      refine ⟨(hnext hne).trans hc, hc ▸ hprev hne, h.linked.2.2.congr hn fun x hx => ?_⟩
      refine hp x (List.mem_cons_of_mem c hx) fun he => ?_
      rw [he, hc] at hx
      exact (List.nodup_cons.mp hnodup.2).1 hx

theorem Linked.unlink {a b : α} {pre post : List α} (h : Linked next prev a (pre ++ b :: post))
    (hd : (a :: (pre ++ b :: post)).Nodup)
    (hend : next b = b → next' (prev b) = prev b) (hnext : next b ≠ b → next' (prev b) = next b)
    (hprev : next b ≠ b → prev' (next b) = prev b)
    (hn : ∀ x ∈ a :: (pre ++ post), x ≠ prev b → next' x = next x)
    (hp : ∀ x ∈ pre ++ post, x ≠ next b → prev' x = prev x) :
    Linked next' prev' a (pre ++ post) := by
  induction pre generalizing a with
  | nil =>
    obtain ⟨_, hb, hpost⟩ := h
    simp only [List.nil_append, List.nodup_cons, List.mem_cons, not_or] at hd
    cases post with
    | nil =>
      have := hend hpost
      rwa [hb] at this
    | cons c rest =>
      obtain ⟨hbc, _, hrest⟩ := hpost
      have hne : next b ≠ b := fun he => hd.2.1 (List.mem_cons.mpr (Or.inl (he.symm.trans hbc)))
      refine ⟨by rw [← hb, hnext hne, hbc], by rw [← hbc, hprev hne, hb], hrest.congr ?_ ?_⟩
      · intro x hx
        refine hn x (List.mem_cons_of_mem a hx) fun he => ?_
        rw [hb] at he
        exact hd.1.2 (he ▸ hx)
      · intro x hx
        refine hp x (List.mem_cons_of_mem c hx) fun he => ?_
        rw [hbc] at he
        exact (List.nodup_cons.mp hd.2.2).1 (he ▸ hx)
  | cons d pre ih =>
    obtain ⟨had, hda, hrest⟩ := h
    obtain ⟨hbefore, hafter⟩ := hrest.around
    have hd' := List.nodup_cons.mp hd
    have hd'' := List.nodup_cons.mp hd'.2
    refine ⟨?_, ?_, ih hrest hd'.2 ?_ ?_⟩
    · rw [hn a (List.mem_cons_self ..) ?_, had]
      intro he
      apply hd'.1
      rw [he]
      exact List.mem_append_left (b :: post) hbefore
    · rw [hp d (List.mem_cons_self ..) ?_, hda]
      intro he
      apply hd''.1
      rw [he]
      exact List.mem_append_right pre hafter
    · exact fun x hx => hn x (List.mem_cons_of_mem a hx)
    · exact fun x hx => hp x (List.mem_cons_of_mem d hx)

/-- A member leaves: its neighbours are linked to each other, and if it was the
end, what stood before it is. -/
theorem Chain.unlink [DecidableEq α] {head b : α} {xs : List α} (h : Chain next prev head xs)
    (hb : b ∈ xs)
    (hend : next b = b → next' (prev b) = prev b) (hnext : next b ≠ b → next' (prev b) = next b)
    (hprev : next b ≠ b → prev' (next b) = prev b)
    (hn : ∀ x ∈ head :: xs, x ≠ b → x ≠ prev b → next' x = next x)
    (hp : ∀ x ∈ head :: xs, x ≠ b → x ≠ next b → prev' x = prev x) :
    Chain next' prev' head (xs.erase b) := by
  obtain ⟨pre, post, _, rfl, he⟩ := List.exists_erase_eq hb
  rw [he]
  have hhead : head ∉ pre ++ b :: post := h.head_not_mem
  have hsub : (pre ++ post).Sublist (pre ++ b :: post) :=
    (List.sublist_cons_self b post).append_left pre
  have hdist : ∀ x ∈ pre ++ post, x ≠ b := by
    have := (List.nodup_cons.mp h.nodup).2
    rw [List.nodup_middle, List.nodup_cons] at this
    exact fun x hx hxb => this.1 (hxb ▸ hx)
  have hafter := h.linked.around.2
  refine ⟨h.nodup.sublist (hsub.cons_cons head), ?_, h.linked.unlink h.nodup hend hnext hprev ?_ ?_⟩
  · refine (hp head (List.mem_cons_self ..) ?_ ?_).trans h.front
    · exact fun hb' => hhead (hb' ▸ hb)
    · exact fun hb' => hhead (List.mem_append_right pre (hb' ▸ hafter))
  · intro x hx
    rcases List.mem_cons.mp hx with rfl | hx'
    · exact hn x (List.mem_cons_self ..) fun hxb => hhead (hxb ▸ hb)
    · exact hn x (List.mem_cons_of_mem head (hsub.subset hx')) (hdist x hx')
  · exact fun x hx => hp x (List.mem_cons_of_mem head (hsub.subset hx)) (hdist x hx)

end ShompOS
