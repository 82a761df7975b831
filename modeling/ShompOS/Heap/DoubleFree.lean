import ShompOS.Heap.Views

/-! A pointer that is freed a second time.

`free` takes a block whose header is linked to itself, as the headers of used
blocks are, and refuses every other. A block that goes on a free list under its own
address is no longer linked to itself. But a block that is merged into one below it
keeps the header it had, in the middle of the other block, and a last block that is
given back to the end of the heap is linked to itself once more when it leaves its
list: those are taken a second time. -/
namespace ShompOS
open Layout Memory

namespace Pool
variable {P : Pool}

/-- The block of scale `s` at `a` is merged with blocks above it only, as far as
`u`, and is not given back to the end of the heap then. -/
def Stays (P : Pool) (a s : Nat) : Prop :=
  ∃ u, s ≤ u ∧ u ≤ maxBlockScale ∧ (∀ v, s ≤ v → v < u → 2 ^ (v + 1) ∣ a - heapLowerBound ∧ a + 2 ^ v ∈ P.free v) ∧
    (u < maxBlockScale → buddyOf heapLowerBound a u ∉ P.free u) ∧ (u = maxBlockScale → P.brk ≠ a + 2 ^ maxBlockScale)

/-- Merging never moves a block's start up. -/
theorem coalesce_low (P : Pool) (k a s : Nat) : (P.coalesce k a s).2.1 ≤ a := by
  induction k generalizing P a s with
  | zero => exact Nat.le_refl a
  | succ k ih =>
    rw [coalesce]
    split
    · exact (ih _ _ _).trans (Nat.min_le_left _ _)
    · exact Nat.le_refl a

/-- One merge with the block above leaves the lists of the larger scales. -/
theorem stays_merge {a s : Nat} (hs : s < maxBlockScale) (hd : 2 ^ (s + 1) ∣ a - heapLowerBound)
    (hb : a + 2 ^ s ∈ P.free s) :
    (((P.take (a + 2 ^ s) s).merge a s).Stays a (s + 1)) ↔ P.Stays a s := by
  have hbuddy : buddyOf heapLowerBound a s = a + 2 ^ s := if_pos hd
  have hsame : ∀ v, s + 1 ≤ v → ((P.take (a + 2 ^ s) s).merge a s).free v = P.free v := fun v hv =>
    Function.update_of_ne (by omega) _ _
  constructor
  · intro h
    obtain ⟨u, hsu, hu, hup, hstop, hlast⟩ := h
    refine ⟨u, by omega, hu, fun v hv hvu => ?_, fun hlt => hsame u hsu ▸ hstop hlt, hlast⟩
    by_cases hvs : v = s
    · exact hvs ▸ ⟨hd, hb⟩
    · exact hsame v (by omega) ▸ hup v (by omega) hvu
  · intro h
    obtain ⟨u, hsu, hu, hup, hstop, hlast⟩ := h
    have hne : u ≠ s := fun he => hstop (by omega) (he ▸ hbuddy ▸ hb)
    refine ⟨u, by omega, hu, fun v hv hvu => ?_, fun hlt => ?_, hlast⟩
    · rw [hsame v hv]
      exact hup v (by omega) hvu
    · rw [hsame u (by omega)]
      exact hstop hlt

/-- Which blocks stay where they are, by what merging them ends with. -/
theorem coalesce_stays_iff {k a s : Nat} (h : P.Valid) (ha : P.used a = some s) (hk : s + k = maxBlockScale) {P' : Pool}
    {a' s' : Nat} (he : P.coalesce k a s = (P', a', s')) :
    P.Stays a s ↔ a' = a ∧ ¬ (s' = maxBlockScale ∧ P.brk = a' + 2 ^ maxBlockScale) := by
  induction k generalizing P a s with
  | zero =>
    simp only [coalesce, Prod.mk.injEq] at he
    obtain ⟨rfl, rfl, rfl⟩ := he
    have hmax : s = maxBlockScale := hk
    constructor
    · intro hstays
      obtain ⟨u, hsu, hu, -, -, hlast⟩ := hstays
      exact ⟨rfl, fun hl => hlast (by omega) hl.2⟩
    · intro hl
      exact ⟨s, Nat.le_refl s, by omega, fun v _ _ => by omega, fun hlt => by omega, fun hs hbrk => hl.2 ⟨hs, hbrk⟩⟩
  | succ k ih =>
    have hs : s < maxBlockScale := by omega
    unfold coalesce at he
    by_cases hb : buddyOf heapLowerBound a s ∈ P.free s
    · simp only [if_pos hb] at he
      obtain ⟨-, -, hv, hused⟩ := merge_buddy h ha hb hs
      have hnext := ih hv (by rw [hused]; simp) (by omega) he
      rcases buddy_cases h (Or.inl ha) with ⟨hd, hbe, hlo⟩ | ⟨hd, hbe, hlo⟩
      · rw [hlo, hbe] at hnext
        rw [← stays_merge hs hd (hbe ▸ hb)]
        exact hnext
      · -- the block below takes it in
        have hodd : ¬ 2 ^ (s + 1) ∣ a - heapLowerBound := fun hd' => by
          have hps := two_pow_pos' s
          have hup : buddyOf heapLowerBound a s = a + 2 ^ s := if_pos hd'
          omega
        have hlow := coalesce_low ((P.take (buddyOf heapLowerBound a s) s).merge
          (min a (buddyOf heapLowerBound a s)) s) k
          (min a (buddyOf heapLowerBound a s)) (s + 1)
        rw [he] at hlow
        have hps := two_pow_pos' s
        constructor
        · intro hstays
          obtain ⟨u, hsu, hu, hup, hstop, -⟩ := hstays
          by_cases hus : u = s
          · exact absurd hb (hus ▸ hstop (by omega))
          · exact absurd (hup s (Nat.le_refl s) (by omega)).1 hodd
        · intro hl
          have := hl.1
          dsimp only at hlow
          omega
    · simp only [if_neg hb, Prod.mk.injEq] at he
      obtain ⟨rfl, rfl, rfl⟩ := he
      constructor
      · exact fun _ => ⟨rfl, fun hl => by omega⟩
      · exact fun _ => ⟨s, Nat.le_refl s, by omega, fun v _ _ => by omega, fun _ => hb, fun hs => by omega⟩

end Pool

/-! ### The header that is left -/

variable {L : Layout} {m m' : Memory} {P P' : Pool}

/-- The links of a header. -/
def HeaderByte (a x : Nat) : Prop := a ≤ x ∧ x < a + 8

/-- A place inside a block where nothing starts is apart from every header. -/
theorem avoids_headerByte (h : P.Valid) {a : Nat} (ha : Site a) (hin : ∃ b t, P.Block b t ∧ b < a ∧ a < b + 2 ^ t) :
    Avoids L (HeaderByte a) P := by
  obtain ⟨b, t, hb, hba, hab⟩ := hin
  have hbs := h.site hb
  apply h.avoids
  intro x hx
  have hapart := hbs.apart ha (by omega)
  have hroom : a + 16 ≤ b + 2 ^ t := by
    have h16 : 16 ∣ b + 2 ^ t - heapLowerBound := by
      rw [show b + 2 ^ t - heapLowerBound = b - heapLowerBound + 2 ^ t by have := hbs.lower; omega]
      exact Nat.dvd_add hbs.aligned (pow_dvd_pow 2 (h.minScale hb))
    obtain ⟨i, hi⟩ := ha.aligned
    obtain ⟨j, hj⟩ := h16
    have := ha.lower
    omega
  have h9 : headerSize = 9 := rfl
  exact ⟨b, t, hb, by have := hx.1; omega, by have := hx.2; omega⟩

theorem links_of_spares (L : Layout) {a : Nat} (ha : Site a) (h : Spares (HeaderByte a) m m') :
    m'.next a = m.next a ∧ m'.prev a = m.prev a :=
  links_congr (ha.node (L := L)) fun x h1 h2 => h.bytes x ⟨h1, h2⟩

/-- Where a block was that one below it has taken in, its header stays as that of a used block. -/
theorem Stands.coalesceUp_left (h : Stands L m P) {k a s : Nat} (ha : P.used a = some s) (hk : s + k = maxBlockScale)
    {a' s' : Nat} (he : P.coalesce k a s = (P', a', s')) (hm : Heap.coalesceUp k m a = (m', a')) (hne : a' ≠ a) :
    m'.next a = a ∧ m'.prev a = a ∧ Avoids L (HeaderByte a) P' := by
  induction k generalizing m P s with
  | zero =>
    simp only [Pool.coalesce, Prod.mk.injEq] at he
    exact absurd he.2.1.symm hne
  | succ k ih =>
    have hs : s < maxBlockScale := by omega
    have hsite := h.valid.site (Or.inl ha)
    unfold Pool.coalesce at he
    by_cases hb : buddyOf heapLowerBound a s ∈ P.free s
    · simp only [if_pos hb] at he
      obtain ⟨hround, hmerge⟩ := h.coalesceUp_merge ha hs hb k
      obtain ⟨hlo, hhi, hv, hused⟩ := Pool.merge_buddy h.valid ha hb hs
      rw [hround] at hm
      rcases Pool.buddy_cases h.valid (Or.inl ha) with ⟨hd, hbe, hlow⟩ | ⟨hd, hbe, hlow⟩
      · rw [hlow] at he hm hmerge hused
        exact ih hmerge (by rw [hused]; simp) (by omega) he hm
      · -- from here on the header is in the middle of a block
        have hps := two_pow_pos' s
        have hta : (P.take (buddyOf heapLowerBound a s) s).used a = some s := by
          have hab : a ≠ buddyOf heapLowerBound a s := by omega
          simp [Pool.take, Function.update_of_ne hab, ha]
        have hlinks := ((h.take hb).laid.used hta).2.2
        have hmu : ((P.take (buddyOf heapLowerBound a s) s).merge (min a (buddyOf heapLowerBound a s)) s).used
            (min a (buddyOf heapLowerBound a s)) = some (s + 1) := by
          rw [hused, Function.update_self]
        have hlosite := hmerge.valid.site (Or.inl hmu)
        have hin : ∃ b t, ((P.take (buddyOf heapLowerBound a s) s).merge
          (min a (buddyOf heapLowerBound a s)) s).Block b t ∧
            b < a ∧ a < b + 2 ^ t := by
          refine ⟨min a (buddyOf heapLowerBound a s), s + 1, Or.inl hmu, by omega, ?_⟩
          rw [pow_succ]
          omega
        obtain ⟨m₁, h1, -, h3⟩ := hmerge.coalesceUp (R := HeaderByte a) hmu (by omega) he
        obtain ⟨rfl, -⟩ := Prod.mk.inj (h1.symm.trans hm)
        obtain ⟨hA, hsp⟩ := h3 (avoids_headerByte hmerge.valid hsite hin)
        obtain ⟨hn, hp⟩ := links_of_spares L hsite hsp
        rw [hn, hp, next_setScale _ _ hlosite hsite.node (L := L), prev_setScale _ _ hlosite hsite.node (L := L)]
        exact ⟨hlinks.1, hlinks.2, hA⟩
    · simp only [if_neg hb, Prod.mk.injEq] at he
      exact absurd he.2.1.symm hne

/-- `free` refuses exactly the blocks whose headers are not linked to themselves. -/
theorem Heap.free_refuses_iff (h : Heap) {a : Nat} (hblock : wrap (a + headerSize + (addressSpace - headerSize)) = a) :
    h.free L (a + headerSize) = some (h, 1) ↔ h.mem.next a ≠ a ∨ h.mem.prev a ≠ a := by
  have h9 : 0 < headerSize := by decide
  have hone : ¬ (0 : Nat) = 1 := Nat.zero_ne_one
  unfold Heap.free
  rw [if_neg (by omega)]
  simp only [hblock]
  by_cases hlinks : h.mem.next a ≠ a ∨ h.mem.prev a ≠ a
  · rw [if_pos hlinks]
    exact ⟨fun _ => hlinks, fun _ => rfl⟩
  · rw [if_neg hlinks]
    refine ⟨fun hret => ?_, fun hl => absurd hl hlinks⟩
    split at hret
    · obtain ⟨x, -, hx⟩ := Option.map_eq_some_iff.mp hret
      exact absurd (Prod.mk.inj hx).2 hone
    · exact absurd (Prod.mk.inj (Option.some.inj hret)).2 hone

namespace Represents
variable {h h₁ : Heap} {a s : Nat}

/-- A block that stays is on a list, and its predecessor there is not itself. -/
theorem free_listed (hr : Represents L h P) (ha : P.used a = some s) (hstays : P.Stays a s)
    (hcall : h.free L (a + headerSize) = some (h₁, 0)) : h₁.mem.prev a ≠ a := by
  have hle := hr.stands.valid.scale_le (Or.inl ha)
  rcases hc : P.coalesce (maxBlockScale - s) a s with ⟨P', a', s'⟩
  obtain ⟨m', -, hst, hfree⟩ := hr.free_eq ha hc
  obtain ⟨rfl, hlast⟩ := (Pool.coalesce_stays_iff hr.stands.valid ha (by omega) hc).mp hstays
  have hused : P'.used a' = some s' := by
    rw [(Pool.coalesce_spec hr.stands.valid ha (by omega) hc).2.1, Function.update_self]
  have hgive := hst.give hused
  rw [if_neg hlast, hcall] at hfree
  obtain ⟨rfl, -⟩ := Prod.mk.inj (Option.some.inj hfree)
  exact (hgive.laid.neighbours hgive.valid.separate (by simp [Pool.give] : a' ∈ (P'.give a' s').free s')).2.2

/-- The header of any other block is linked to itself after it is freed. -/
theorem free_left (hr : Represents L h P) (ha : P.used a = some s) (hstays : ¬ P.Stays a s)
    (hcall : h.free L (a + headerSize) = some (h₁, 0)) : h₁.mem.next a = a ∧ h₁.mem.prev a = a := by
  have hle := hr.stands.valid.scale_le (Or.inl ha)
  have hsite := hr.stands.valid.site (Or.inl ha)
  rcases hc : P.coalesce (maxBlockScale - s) a s with ⟨P', a', s'⟩
  obtain ⟨m', hm, hst, hfree⟩ := hr.free_eq ha hc
  rw [Pool.coalesce_stays_iff hr.stands.valid ha (by omega) hc] at hstays
  have hused : P'.used a' = some s' := by
    rw [(Pool.coalesce_spec hr.stands.valid ha (by omega) hc).2.1, Function.update_self]
  have hgive := hst.give hused
  have hin : a' ∈ (P'.give a' s').free s' := by simp [Pool.give]
  rw [hcall] at hfree
  by_cases hne : a' = a
  · -- the heap's last block, taken off its list again
    have hlast : s' = maxBlockScale ∧ P.brk = a' + 2 ^ maxBlockScale := by
      by_contra hn
      exact hstays ⟨hne, hn⟩
    rw [if_pos hlast] at hfree
    obtain ⟨rfl, -⟩ := Prod.mk.inj (Option.some.inj hfree)
    rw [hne] at hin hgive ⊢
    exact ((hgive.take hin).laid.used (by simp [Pool.take] : ((P'.give a s').take a s').used a = some s')).2.2
  · obtain ⟨hn, hp, hA⟩ := hr.stands.coalesceUp_left ha (by omega) hc hm hne
    have hsp := hst.give_spares hused hA
    have hA' := hA.give hst.valid hused
    split at hfree
    · obtain ⟨rfl, -⟩ := Prod.mk.inj (Option.some.inj hfree)
      obtain ⟨hn', hp'⟩ := links_of_spares L hsite (hsp.trans (hgive.take_spares hin hA'))
      exact ⟨hn'.trans hn, hp'.trans hp⟩
    · obtain ⟨rfl, -⟩ := Prod.mk.inj (Option.some.inj hfree)
      obtain ⟨hn', hp'⟩ := links_of_spares L hsite hsp
      exact ⟨hn'.trans hn, hp'.trans hp⟩

theorem free_twice_iff (hr : Represents L h P) (ha : P.used a = some s)
    (hcall : h.free L (a + headerSize) = some (h₁, 0)) :
    h₁.free L (a + headerSize) = some (h₁, 1) ↔ P.Stays a s := by
  rw [Heap.free_refuses_iff h₁ (hr.stands.block_of_data ha)]
  by_cases hstays : P.Stays a s
  · exact ⟨fun _ => hstays, fun _ => Or.inr (hr.free_listed ha hstays hcall)⟩
  · obtain ⟨hn, hp⟩ := hr.free_left ha hstays hcall
    exact ⟨fun hl => absurd hl (by simp [hn, hp]), fun h => absurd h hstays⟩

end Represents

/-- The block is merged with free blocks above it only, each of its own scale, until it has no
free buddy, and is then not a last block of the largest scale. -/
def Heap.StaysListed (h : Heap) (a s : Nat) : Prop :=
  ∃ u, s ≤ u ∧ u ≤ maxBlockScale ∧
    (∀ v, s ≤ v → v < u → 2 ^ (v + 1) ∣ a - heapLowerBound ∧ h.FreeBlock (a + 2 ^ v) v) ∧
    (u < maxBlockScale → ¬ h.FreeBlock (buddyOf heapLowerBound a u) u) ∧
    (u = maxBlockScale → h.currentBrk ≠ a + 2 ^ maxBlockScale)

theorem Represents.staysListed_iff {h : Heap} (hr : Represents L h P) (a s : Nat) : h.StaysListed a s ↔
    P.Stays a s := by
  unfold Heap.StaysListed Pool.Stays
  simp only [hr.freeBlock_iff, hr.brk]

namespace Session
variable {s : Session}

/-- A second `free` of a pointer is refused if and only if the first left its block on a list. -/
theorem reached_free_twice_iff (h : Reached L s) {p n : Nat} (hp : (p, n) ∈ s.live) {h₁ : Heap}
    (hcall : s.heap.free L p = some (h₁, 0)) :
    h₁.free L p = some (h₁, 1) ↔ s.heap.StaysListed (p - headerSize) (s.heap.mem.scale (p - headerSize)) := by
  obtain ⟨P, hg⟩ := good_of_reached h
  obtain ⟨a, t, rfl, ha, -⟩ := hg.held hp
  rw [Nat.add_sub_cancel, hg.represents.stands.scale_eq (Or.inl ha), hg.represents.staysListed_iff]
  exact hg.represents.free_twice_iff ha hcall

theorem reached_free_twice_iff_listed : ∃ s : Session, ∃ p n h₁, (p, n) ∈ s.live ∧
    s.heap.free kernelImage p = some (h₁, 0) ∧
    h₁.free kernelImage p = some (h₁, 1) := by
  obtain ⟨s, hs, hg, -⟩ := exists_reached kernelImage [.allocate 1, .allocate 1] rfl
  have ha : ((Pool.initial.allocate 1).1.allocate 1).1.used heapLowerBound = some minBlockScale := by decide +kernel
  obtain ⟨n, hlive⟩ := hg.used ha
  obtain ⟨h₁, hcall, -⟩ := hg.represents.free (R := fun _ => False) ha
  refine ⟨s, _, n, h₁, hlive, hcall, (reached_free_twice_iff hs hlive hcall).mpr ?_⟩
  rw [Nat.add_sub_cancel, hg.represents.stands.scale_eq (Or.inl ha), hg.represents.staysListed_iff]
  exact ⟨minBlockScale, by decide, by decide, fun v _ _ => by omega, fun _ => by decide +kernel, fun h => by cases h⟩

/-- With its buddy in use a block stays where it was put, and is refused. -/
example : ((Heap.initHeap kernelImage Memory.zero heapLowerBound).bind fun h => (h.allocate kernelImage 1).bind fun x =>
    (x.1.allocate kernelImage 1).bind fun y => (y.1.free kernelImage x.2).bind fun z =>
      (z.1.free kernelImage x.2).map Prod.snd) = some 1 := by decide +kernel

/-- The only block there is goes back to the end of the heap, and is taken a second time. -/
theorem released_block_freed_twice : ¬ ∀ s p n h₁, Reached kernelImage s → (p, n) ∈ s.live →
    s.heap.free kernelImage p = some (h₁, 0) → h₁.free kernelImage p = some (h₁, 1) := by
  intro hall
  obtain ⟨s, hs, hg, -⟩ := exists_reached kernelImage [.allocate 1] rfl
  have ha : (Pool.initial.allocate 1).1.used heapLowerBound = some minBlockScale := by decide +kernel
  have hfree : ∀ u, minBlockScale ≤ u → u < maxBlockScale →
      buddyOf heapLowerBound heapLowerBound u ∈ (Pool.initial.allocate 1).1.free u := by decide +kernel
  have hbrk : (Pool.initial.allocate 1).1.brk = heapLowerBound + 2 ^ maxBlockScale := by decide +kernel
  obtain ⟨n, hlive⟩ := hg.used ha
  obtain ⟨h₁, hcall, -⟩ := hg.represents.free (R := fun _ => False) ha
  obtain ⟨u, hlo, hhi, -, hstop, hlast⟩ := (hg.represents.free_twice_iff ha hcall).mp (hall s _ n h₁ hs hlive hcall)
  by_cases hu : u < maxBlockScale
  · exact hstop hu (hfree u hlo hu)
  · exact hlast (Nat.le_antisymm hhi (Nat.le_of_not_lt hu)) hbrk

end Session
end ShompOS
