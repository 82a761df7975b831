import ShompOS.Heap.Pool
import Mathlib.Data.Nat.Log

/-! Requests to a pool: sequences of steps, one for each routine a client calls.

`allocate` takes the first free block of the smallest sufficient scale that has
one and splits it down; without one it grows the heap and hands out the new
block whole. `release` merges the block with free buddies as far as it goes,
gives the result back, and drops it if it is the last and largest. Each is
stated with what it does to the used blocks: one more, or one less, and no
other. -/
namespace ShompOS
namespace Pool

/-- The scale of the smallest block with room for a header and `n` bytes. -/
def requestScale (n : Nat) : Nat := max (Nat.clog 2 (n + headerSize)) minBlockScale

/-- The first scale from `s` on with a free block, looking at most `remaining` further. -/
def searchFit (P : Pool) : (remaining s : Nat) → Nat
  | 0, s => s
  | remaining + 1, s => if P.free s = [] then P.searchFit remaining (s + 1) else s

/-- Halves the used block at `a`, of scale `r + k`, down to scale `r`. -/
def splitDown (a r : Nat) : (k : Nat) → Pool → Pool
  | 0, P => P
  | k + 1, P => splitDown a r k (P.split a (r + k))

def allocate (P : Pool) (n : Nat) : Pool × Nat :=
  if n > 2 ^ maxBlockScale - headerSize ∨ n = 0 then (P, 0)
  else
    let r := requestScale n
    let t := P.searchFit (maxBlockScale - r) r
    match P.free t with
    | a :: _ => ((P.take a t).splitDown a r (t - r), a + headerSize)
    | [] =>
      if P.brk + 2 ^ maxBlockScale + 2 ^ maxBlockScale ≤ addressSpace then
        (P.grow.take P.brk maxBlockScale, P.brk + headerSize)
      else (P, 0)

/-- Merges the used block at `a`, of scale `s`, with its buddy while that is free. -/
def coalesce : (k : Nat) → Pool → (a s : Nat) → Pool × Nat × Nat
  | 0, P, a, s => (P, a, s)
  | k + 1, P, a, s =>
    let b := buddyOf heapLowerBound a s
    if b ∈ P.free s then coalesce k ((P.take b s).merge (min a b) s) (min a b) (s + 1)
    else (P, a, s)

/-- The used block at `a`, of scale `s`, is given back. -/
def release (P : Pool) (a s : Nat) : Pool :=
  let (P, a, s) := P.coalesce (maxBlockScale - s) a s
  let P := P.give a s
  if s = maxBlockScale ∧ P.brk = a + 2 ^ maxBlockScale then (P.take a s).drop a else P

/-- Grows until `addr` is inside the heap, by at most `rounds` blocks. -/
def growTo (addr : Nat) : (rounds : Nat) → Pool → Pool
  | 0, P => P
  | rounds + 1, P => if addr > P.brk then growTo addr rounds P.grow else P

/-- Drops last blocks that are free and of the largest scale until `addr` is not
inside the heap; `false` if another block is in the way. -/
def shrinkTo (addr : Nat) : (rounds : Nat) → Pool → Pool × Bool
  | 0, P => (P, true)
  | rounds + 1, P =>
    if addr < P.brk then
      let a := P.brk - 2 ^ maxBlockScale
      if a ∈ P.free maxBlockScale then
        shrinkTo addr rounds ((P.take a maxBlockScale).drop a)
      else (P, false)
    else (P, true)

/-- Moves the end of the heap to `addr` or past it; `false` if a used block is in the way. -/
def moveBrk (P : Pool) (addr rounds : Nat) : Pool × Bool :=
  if addr > P.brk then (P.growTo addr rounds, true) else P.shrinkTo addr rounds

variable {P : Pool}

/-- Dropping a block that was free leaves the used ones. -/
theorem drop_take_used (h : P.Valid) {a s : Nat} (ha : a ∈ P.free s) : ((P.take a s).drop a).used = P.used := by
  funext x
  by_cases hx : x = a
  · simp [drop, hx, h.not_used ha]
  · simp [drop, take, Function.update_of_ne hx]

/-! ### Scales of requests -/

theorem minBlockScale_le_requestScale (n : Nat) : minBlockScale ≤ requestScale n :=
  Nat.le_max_right _ _

/-- The request and a header fit. -/
theorem le_two_pow_requestScale (n : Nat) : n + headerSize ≤ 2 ^ requestScale n :=
  (Nat.le_pow_clog (by decide) _).trans (Nat.pow_le_pow_right (by decide) (Nat.le_max_left _ _))

theorem requestScale_le {n s : Nat} (hs : minBlockScale ≤ s) (h : n + headerSize ≤ 2 ^ s) :
    requestScale n ≤ s :=
  Nat.max_le.mpr ⟨Nat.clog_le_of_le_pow h, hs⟩

/-! ### Searching -/

theorem searchFit_range (P : Pool) (k s : Nat) : s ≤ P.searchFit k s ∧ P.searchFit k s ≤ s + k := by
  induction k generalizing s with
  | zero => exact ⟨Nat.le_refl _, Nat.le_refl _⟩
  | succ k ih =>
    unfold searchFit
    split
    · have := ih (s + 1)
      omega
    · omega

/-- Every list passed over is empty; if the one reached is too, there is nothing. -/
theorem searchFit_skips (P : Pool) (k s t : Nat) (ht : s ≤ t) (hlt : t < P.searchFit k s) :
    P.free t = [] := by
  induction k generalizing s with
  | zero =>
    simp only [searchFit] at hlt
    omega
  | succ k ih =>
    unfold searchFit at hlt
    split at hlt
    · next he =>
      rcases Nat.lt_or_eq_of_le ht with h | rfl
      · exact ih (s + 1) h hlt
      · exact he
    · omega

theorem searchFit_nil (P : Pool) (k s : Nat) (h : P.free (P.searchFit k s) = []) :
    P.searchFit k s = s + k := by
  induction k generalizing s with
  | zero => rfl
  | succ k ih =>
    unfold searchFit at h ⊢
    split
    · next he =>
      rw [if_pos he] at h
      rw [ih (s + 1) h]
      omega
    · next he =>
      rw [if_neg he] at h
      exact absurd h he

/-- It ends at the first scale whose list is not empty, or at the last. -/
theorem searchFit_eq (P : Pool) {k s t : Nat} (hst : s ≤ t) (htk : t ≤ s + k)
    (hskip : ∀ u, s ≤ u → u < t → P.free u = []) (hstop : t < s + k → P.free t ≠ []) : P.searchFit k s = t := by
  induction k generalizing s with
  | zero =>
    simp only [searchFit]
    omega
  | succ k ih =>
    unfold searchFit
    by_cases he : P.free s = []
    · rw [if_pos he]
      have hne : s ≠ t := fun h => hstop (by omega) (h ▸ he)
      exact ih (by omega) (by omega) (fun u h1 h2 => hskip u (by omega) h2) fun h => hstop (by omega)
    · rw [if_neg he]
      by_contra hne
      exact he (hskip s (Nat.le_refl s) (by omega))

/-! ### What a request for a block can come to -/

/-- The ways `allocate` goes: `found` with a free block of scale `t`, none being
free of the sufficient scales below it, and the others with none at all. -/
inductive Allocates (P : Pool) (n : Nat) : Pool × Nat → Prop
  | refused (hn : n > 2 ^ maxBlockScale - headerSize ∨ n = 0) : Allocates P n (P, 0)
  | found {a t : Nat} {rest : List Nat} (hn : n ≤ 2 ^ maxBlockScale - headerSize) (hpos : n ≠ 0)
      (hr : requestScale n ≤ t)
      (ht : t ≤ maxBlockScale) (hf : P.free t = a :: rest) (hskip : ∀ u, requestScale n ≤ u → u < t → P.free u = []) :
      Allocates P n ((P.take a t).splitDown a (requestScale n) (t - requestScale n), a + headerSize)
  | grown (hn : n ≤ 2 ^ maxBlockScale - headerSize) (hpos : n ≠ 0)
      (hnone : ∀ u, requestScale n ≤ u → u ≤ maxBlockScale → P.free u = [])
      (hroom : P.brk + 2 ^ maxBlockScale + 2 ^ maxBlockScale ≤ addressSpace) :
      Allocates P n (P.grow.take P.brk maxBlockScale, P.brk + headerSize)
  | full (hn : n ≤ 2 ^ maxBlockScale - headerSize) (hpos : n ≠ 0)
      (hnone : ∀ u, requestScale n ≤ u → u ≤ maxBlockScale → P.free u = [])
      (hroom : ¬ P.brk + 2 ^ maxBlockScale + 2 ^ maxBlockScale ≤ addressSpace) : Allocates P n (P, 0)

theorem allocates (P : Pool) (n : Nat) : P.Allocates n (P.allocate n) := by
  unfold allocate
  by_cases hbad : n > 2 ^ maxBlockScale - headerSize ∨ n = 0
  · rw [if_pos hbad]
    exact .refused hbad
  · have h9 : headerSize ≤ 2 ^ maxBlockScale := by decide
    have hr : requestScale n ≤ maxBlockScale := requestScale_le (by decide) (by omega)
    have hrange := P.searchFit_range (maxBlockScale - requestScale n) (requestScale n)
    have hskip := P.searchFit_skips (maxBlockScale - requestScale n) (requestScale n)
    have hnil := P.searchFit_nil (maxBlockScale - requestScale n) (requestScale n)
    rw [if_neg hbad]
    simp only
    generalize P.searchFit (maxBlockScale - requestScale n) (requestScale n) = t at *
    cases hf : P.free t with
    | cons a rest => exact .found (by omega) (by omega) hrange.1 (by omega) hf hskip
    | nil =>
      have hnone : ∀ u, requestScale n ≤ u → u ≤ maxBlockScale → P.free u = [] := by
        intro u hlo hhi
        by_cases hu : u = t
        · rw [hu, hf]
        · have := hnil hf
          exact hskip u hlo (by omega)
      dsimp only
      by_cases hroom : P.brk + 2 ^ maxBlockScale + 2 ^ maxBlockScale ≤ addressSpace
      · rw [if_pos hroom]
        exact .grown (by omega) (by omega) hnone hroom
      · rw [if_neg hroom]
        exact .full (by omega) (by omega) hnone hroom

/-- The sufficient scales are those of the blocks with room for the request and a header. -/
theorem requestScale_le_iff {n s : Nat} (hs : minBlockScale ≤ s) : requestScale n ≤ s ↔ n + headerSize ≤ 2 ^ s :=
  ⟨fun h => (le_two_pow_requestScale n).trans (Nat.pow_le_pow_right (by decide) h), requestScale_le hs⟩

theorem Valid.no_fit_iff (h : P.Valid) (n : Nat) :
    (∀ u, requestScale n ≤ u → u ≤ maxBlockScale → P.free u = []) ↔ ∀ a t, a ∈ P.free t → 2 ^ t < n + headerSize := by
  constructor
  · intro hnone a t ha
    by_contra hle
    have hb : P.Block a t := Or.inr ha
    have hr := (requestScale_le_iff (h.minScale hb)).mpr (Nat.le_of_not_lt hle)
    rw [hnone t hr (h.scale_le hb)] at ha
    exact List.not_mem_nil ha
  · intro hsmall u hu _
    apply List.eq_nil_iff_forall_not_mem.mpr
    intro a ha
    have := hsmall a u ha
    have := (requestScale_le_iff (h.minScale (Or.inr ha))).mp hu
    omega

/-! ### Splitting down -/

theorem splitDown_spec {a r k : Nat} (h : P.Valid) (ha : P.used a = some (r + k))
    (hr : minBlockScale ≤ r) :
    (P.splitDown a r k).Valid ∧ (P.splitDown a r k).used = Function.update P.used a (some r) ∧
      (P.splitDown a r k).brk = P.brk := by
  induction k generalizing P with
  | zero => exact ⟨h, by rw [← show P.used a = some r from ha, Function.update_eq_self]; rfl, rfl⟩
  | succ k ih =>
    have hv := split_valid h (s := r + k) ha (by omega)
    obtain ⟨h1, h2, h3⟩ := ih hv (by simp [split])
    exact ⟨h1, by rw [splitDown, h2]; simp [split], h3⟩

/-! ### Coalescing -/

/-- The buddy's buddy is the block: the lower of the two is the merged block's start. -/
theorem buddy_cases (h : P.Valid) {a s : Nat} (ha : P.Block a s) :
    (2 ^ (s + 1) ∣ a - heapLowerBound ∧ buddyOf heapLowerBound a s = a + 2 ^ s ∧
        min a (buddyOf heapLowerBound a s) = a) ∨
      (2 ^ (s + 1) ∣ a - 2 ^ s - heapLowerBound ∧ buddyOf heapLowerBound a s + 2 ^ s = a ∧
        min a (buddyOf heapLowerBound a s) = a - 2 ^ s) := by
  rcases Tiling.buddyOf_pair (h.tiling.lower ha) (h.tiling.aligned ha) with ⟨hd, hb⟩ | ⟨hle, hd, hb⟩
  · exact Or.inl ⟨hd, hb, by omega⟩
  · exact Or.inr ⟨hd, by omega, by omega⟩

/-- One merge: the buddy is taken and the two become one used block. -/
theorem merge_buddy (h : P.Valid) {a s : Nat} (ha : P.used a = some s)
    (hb : buddyOf heapLowerBound a s ∈ P.free s) (hs : s < maxBlockScale) :
    let b := buddyOf heapLowerBound a s
    let lo := min a b
    (P.take b s).used lo = some s ∧ (P.take b s).used (lo + 2 ^ s) = some s ∧
      ((P.take b s).merge lo s).Valid ∧
      ((P.take b s).merge lo s).used =
        Function.update (Function.update P.used a none) lo (some (s + 1)) := by
  intro b lo
  have hps := two_pow_pos' s
  have hv := take_valid h hb
  have hub : P.used b = none := h.not_used hb
  have hta : (P.take b s).used a = some s := by
    have hab : a ≠ b := fun he => by rw [← he, ha] at hub; cases hub
    simp [take, Function.update_of_ne hab, ha]
  have htb : (P.take b s).used b = some s := by simp [take]
  rcases buddy_cases h (Or.inl ha) with ⟨hd, hbe, hlo⟩ | ⟨hd, hbe, hlo⟩
  · have hlo' : lo = a := hlo
    have hbe' : b = a + 2 ^ s := hbe
    rw [hlo', ← hbe']
    refine ⟨hta, htb, merge_valid hv hta (hbe' ▸ htb) hd hs, ?_⟩
    funext x
    simp only [merge, take, ← hbe']
    by_cases hxa : x = a
    · simp [hxa]
    · by_cases hxb : x = b
      · have hba : b ≠ a := fun he => hxa (hxb.trans he)
        simp [hxb, Function.update_of_ne hba, hub]
      · simp [hxa, hxb]
  · have hlo' : lo = b := by
      have : lo = a - 2 ^ s := hlo
      omega
    have hbe' : b + 2 ^ s = a := hbe
    have hd' : 2 ^ (s + 1) ∣ b - heapLowerBound := by
      have : a - 2 ^ s = b := by omega
      rwa [this] at hd
    rw [hlo', hbe']
    refine ⟨htb, hta, merge_valid hv htb (hbe'.symm ▸ hta) hd' hs, ?_⟩
    funext x
    simp only [merge, take, hbe']
    by_cases hxb : x = b
    · simp [hxb]
    · by_cases hxa : x = a
      · have hab : a ≠ b := fun he => hxb (hxa.trans he)
        simp [hxa, Function.update_of_ne hab]
      · simp [hxa, hxb]

theorem update_none_lo (h : P.Valid) {a s : Nat}
    (hb : buddyOf heapLowerBound a s ∈ P.free s) :
    Function.update P.used a none (min a (buddyOf heapLowerBound a s)) = none := by
  by_cases he : min a (buddyOf heapLowerBound a s) = a
  · rw [he, Function.update_self]
  · have : min a (buddyOf heapLowerBound a s) = buddyOf heapLowerBound a s := by omega
    rw [Function.update_of_ne he, this, h.not_used hb]

/-- Coalescing trades the used block for one used block that may be larger, and
stops at the largest scale or at a buddy that is not free. -/
theorem coalesce_spec {k a s : Nat} (h : P.Valid) (ha : P.used a = some s)
    (hk : s + k = maxBlockScale) {P' : Pool} {a' s' : Nat} (he : P.coalesce k a s = (P', a', s')) :
    P'.Valid ∧ P'.used = Function.update (Function.update P.used a none) a' (some s') ∧
      Function.update P.used a none a' = none ∧ P'.brk = P.brk ∧ s ≤ s' ∧
      (s' < maxBlockScale → buddyOf heapLowerBound a' s' ∉ P'.free s') := by
  induction k generalizing P a s with
  | zero =>
    simp only [coalesce, Prod.mk.injEq] at he
    obtain ⟨rfl, rfl, rfl⟩ := he
    refine ⟨h, ?_, Function.update_self .., rfl, Nat.le_refl _, fun hlt => by omega⟩
    rw [Function.update_idem, ← ha, Function.update_eq_self]
  | succ k ih =>
    unfold coalesce at he
    by_cases hb : buddyOf heapLowerBound a s ∈ P.free s
    · simp only [if_pos hb] at he
      obtain ⟨_, _, hv, hused⟩ := merge_buddy h ha hb (by omega)
      have hnone := update_none_lo h hb
      obtain ⟨h1, h2, h3, h4, h5, h6⟩ := ih hv (by rw [hused]; simp) (by omega) he
      have hback := (congrArg (Function.update (Function.update P.used a none)
        (min a (buddyOf heapLowerBound a s))) hnone.symm).trans (Function.update_eq_self _ _)
      rw [hused, Function.update_idem, hback] at h2 h3
      exact ⟨h1, h2, h3, h4, by omega, h6⟩
    · simp only [if_neg hb, Prod.mk.injEq] at he
      obtain ⟨rfl, rfl, rfl⟩ := he
      refine ⟨h, ?_, Function.update_self .., rfl, Nat.le_refl _, fun _ => hb⟩
      rw [Function.update_idem, ← ha, Function.update_eq_self]

/-- The merged block contains the block it started from. -/
theorem coalesce_covers {k a s : Nat} (h : P.Valid) (ha : P.used a = some s) (hk : s + k = maxBlockScale) {P' : Pool}
    {a' s' : Nat} (he : P.coalesce k a s = (P', a', s')) : a' ≤ a ∧ a + 2 ^ s ≤ a' + 2 ^ s' := by
  induction k generalizing P a s with
  | zero =>
    simp only [coalesce, Prod.mk.injEq] at he
    obtain ⟨rfl, rfl, rfl⟩ := he
    exact ⟨Nat.le_refl _, Nat.le_refl _⟩
  | succ k ih =>
    unfold coalesce at he
    by_cases hb : buddyOf heapLowerBound a s ∈ P.free s
    · simp only [if_pos hb] at he
      obtain ⟨_, _, hv, hused⟩ := merge_buddy h ha hb (by omega)
      have hrest := ih hv (by rw [hused]; simp) (by omega) he
      have hps := two_pow_pos' s
      have hpow : 2 ^ (s + 1) = 2 ^ s + 2 ^ s := by ring
      rcases buddy_cases h (Or.inl ha) with ⟨-, -, hlo⟩ | ⟨-, hbe, -⟩
      · omega
      · omega
    · simp only [if_neg hb, Prod.mk.injEq] at he
      obtain ⟨rfl, rfl, rfl⟩ := he
      exact ⟨Nat.le_refl _, Nat.le_refl _⟩

end Pool
end ShompOS
