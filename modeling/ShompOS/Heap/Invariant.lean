import ShompOS.Heap.Session

/-! What holds of the heap's memory in every session a run reaches.

The blocks are read off the headers: the first is at `HEAP_LOWER_BOUND` and each
next one starts where the one before it ends (`Blocks`). `WellFormed` is the
representation invariant in these terms, with the members of each free list; the
three results are that every reached session has it, that what clients hold is
theirs alone and stays untouched, and that free buddies are merged. -/
namespace ShompOS
open Layout Memory

/-- The headers from `a` on lead through the blocks `bs` to `hi`. -/
def Blocks (m : Memory) : Nat → List Nat → Nat → Prop
  | a, [], hi => a = hi
  | a, b :: rest, hi => b = a ∧ Blocks m (a + 2 ^ m.scale a) rest hi

instance (m : Memory) : (a : Nat) → (bs : List Nat) → (hi : Nat) → Decidable (Blocks m a bs hi)
  | a, [], hi => inferInstanceAs (Decidable (a = hi))
  | a, b :: rest, hi =>
    have := instDecidableBlocks m (a + 2 ^ m.scale a) rest hi
    inferInstanceAs (Decidable (b = a ∧ _))

theorem Blocks.le {m : Memory} {a hi : Nat} {bs : List Nat} (h : Blocks m a bs hi) : a ≤ hi := by
  induction bs generalizing a with
  | nil => exact Nat.le_of_eq h
  | cons b rest ih => exact (Nat.le_add_right _ _).trans (ih h.2)

/-- The headers determine the blocks. -/
theorem Blocks.unique {m : Memory} {a hi : Nat} {bs cs : List Nat} (hb : Blocks m a bs hi)
    (hc : Blocks m a cs hi) : bs = cs := by
  have hps := two_pow_pos' (m.scale a)
  induction bs generalizing a cs with
  | nil =>
    cases cs with
    | nil => rfl
    | cons c rest =>
      have hle := hc.2.le
      have he : a = hi := hb
      omega
  | cons b rest ih =>
    cases cs with
    | nil =>
      have hle := hb.2.le
      have he : a = hi := hc
      omega
    | cons c rest' =>
      rw [hb.1, hc.1, ih hb.2 hc.2 (two_pow_pos' _)]

structure WellFormed (L : Layout) (h : Heap) (blocks : List Nat) (list : Nat → List Nat) : Prop where
  tiles : Blocks h.mem heapLowerBound blocks h.currentBrk
  scale : ∀ a ∈ blocks, minBlockScale ≤ h.mem.scale a ∧ h.mem.scale a ≤ maxBlockScale
  aligned : ∀ a ∈ blocks, 2 ^ h.mem.scale a ∣ a - heapLowerBound
  chain : ∀ s, minBlockScale ≤ s → s ≤ maxBlockScale →
    Chain h.mem.next h.mem.prev (L.list s) (list s)
  members : ∀ s, minBlockScale ≤ s → s ≤ maxBlockScale →
    ∀ a ∈ list s, a ∈ blocks ∧ h.mem.isFree a = 1 ∧ h.mem.scale a = s
  free : ∀ a ∈ blocks, h.mem.isFree a = 1 →
    ∀ s, minBlockScale ≤ s → s ≤ maxBlockScale → (list s).count a = if s = h.mem.scale a then 1 else 0
  used : ∀ a ∈ blocks, h.mem.isFree a = 0 →
    (∀ s, minBlockScale ≤ s → s ≤ maxBlockScale → a ∉ list s) ∧ h.mem.next a = a ∧ h.mem.prev a = a

variable {L : Layout} {P : Pool}

theorem Stands.scale_eq {m : Memory} (h : Stands L m P) {a s : Nat} (ha : P.Block a s) :
    m.scale a = s := by
  rcases ha with ha | ha
  · exact (h.laid.used ha).2.1
  · exact (h.laid.free ha).2

/-- A walk over the pool's blocks is a walk over the headers. -/
theorem Stands.blocks_of_walk {m : Memory} (h : Stands L m P) {lo hi : Nat} {bs : List (Nat × Nat)}
    (hw : Tiling.Walk lo bs hi) (hbs : ∀ a s, (a, s) ∈ bs → P.Block a s) :
    Blocks m lo (bs.map Prod.fst) hi := by
  induction bs generalizing lo with
  | nil => exact hw
  | cons b rest ih =>
    obtain ⟨a, s⟩ := b
    obtain ⟨rfl, hrest⟩ := hw
    refine ⟨rfl, ?_⟩
    rw [h.scale_eq (hbs a s (List.mem_cons_self ..))]
    exact ih hrest fun b t hb => hbs b t (List.mem_cons_of_mem _ hb)

/-- The blocks of a represented pool, read off the headers. -/
theorem Represents.blocks {h : Heap} (hr : Represents L h P) :
    ∃ bs, Blocks h.mem heapLowerBound bs h.currentBrk ∧ ∀ a, a ∈ bs ↔ P.Block a (h.mem.scale a) := by
  obtain ⟨bs, hw, hbs⟩ := hr.stands.valid.tiling.exists_walk
  refine ⟨bs.map Prod.fst, ?_, fun a => ⟨fun ha => ?_, fun ha => ?_⟩⟩
  · rw [hr.brk]
    exact hr.stands.blocks_of_walk hw fun a s ha => (hbs a s).mp ha
  · obtain ⟨⟨b, s⟩, hb, rfl⟩ := List.mem_map.mp ha
    have hblock := (hbs b s).mp hb
    rwa [hr.stands.scale_eq hblock]
  · exact List.mem_map.mpr ⟨(a, _), (hbs _ _).mpr ha, rfl⟩

/-- A block's free bit says which of the two it is. -/
theorem Represents.block_cases {h : Heap} (hr : Represents L h P) {a : Nat}
    (ha : P.Block a (h.mem.scale a)) :
    (h.mem.isFree a = 0 ∧ P.used a = some (h.mem.scale a)) ∨
      (h.mem.isFree a = 1 ∧ a ∈ P.free (h.mem.scale a)) := by
  rcases ha with ha | ha
  · exact Or.inl ⟨(hr.stands.laid.used ha).1, ha⟩
  · exact Or.inr ⟨(hr.stands.laid.free ha).1, ha⟩

/-- The headers lead to a block at `a` that is not free. -/
def Heap.AllocatedBlock (h : Heap) (a : Nat) : Prop :=
  ∃ blocks, Blocks h.mem heapLowerBound blocks h.currentBrk ∧ a ∈ blocks ∧ h.mem.isFree a = 0

theorem Represents.allocatedBlock_iff {h : Heap} (hr : Represents L h P) (a : Nat) :
    h.AllocatedBlock a ↔ ∃ t, P.used a = some t := by
  obtain ⟨bs, hbs, hmem⟩ := hr.blocks
  constructor
  · rintro ⟨blocks, hblocks, ha, hzero⟩
    rw [hblocks.unique hbs] at ha
    rcases hr.block_cases ((hmem a).mp ha) with ⟨-, hused⟩ | ⟨hone, -⟩
    · exact ⟨_, hused⟩
    · omega
  · rintro ⟨t, ht⟩
    have hscale := hr.stands.scale_eq (Or.inl ht)
    exact ⟨bs, hbs, (hmem a).mpr (hscale.symm ▸ Or.inl ht), (hr.stands.laid.used ht).1⟩

theorem Represents.wellFormed {h : Heap} (hr : Represents L h P) :
    ∃ bs, WellFormed L h bs P.free ∧ ∀ a, a ∈ bs ↔ P.Block a (h.mem.scale a) := by
  obtain ⟨bs, hw, hbs⟩ := hr.blocks
  have hv := hr.stands.valid
  refine ⟨bs, ⟨hw, fun a ha => ?_, fun a ha => ?_, hr.stands.laid.chain, fun s _ _ a ha => ?_,
    fun a ha hfree s _ _ => ?_, fun a ha hused => ?_⟩, hbs⟩
  · have hb := (hbs a).mp ha
    exact ⟨hv.minScale hb, hv.scale_le hb⟩
  · exact hv.tiling.aligned ((hbs a).mp ha)
  · have hh := hr.stands.laid.free ha
    exact ⟨(hbs a).mpr (hh.2.symm ▸ Or.inr ha), hh⟩
  · rcases hr.block_cases ((hbs a).mp ha) with ⟨h0, -⟩ | ⟨-, hin⟩
    · rw [h0] at hfree
      cases hfree
    · split
      · next hs => exact List.count_eq_one_of_mem (hv.nodup s) (hs ▸ hin)
      · next hs =>
        exact List.count_eq_zero_of_not_mem fun hm =>
          hs (hv.scale_unique (Or.inr hm) (Or.inr hin))
  · rcases hr.block_cases ((hbs a).mp ha) with ⟨-, hin⟩ | ⟨h1, -⟩
    · exact ⟨fun s _ _ => hv.exclusive hin, (hr.stands.laid.used hin).2.2⟩
    · rw [h1] at hused
      cases hused

namespace Session
variable {s : Session}

/-- The representation invariant of the heap, in every session: each call that is
permitted returns, and the heap it leaves is well formed. -/
theorem reached_wellFormed (h : Reached L s) :
    (∃ blocks list, WellFormed L s.heap blocks list) ∧
      ∀ c, s.Permits c → ∃ s' blocks list, s.call L c = some s' ∧ WellFormed L s'.heap blocks list := by
  obtain ⟨P, hP⟩ := good_of_reached h
  obtain ⟨bs, hbs, -⟩ := hP.represents.wellFormed
  refine ⟨⟨bs, P.free, hbs⟩, fun c hc => ?_⟩
  obtain ⟨s', P', h1, h2⟩ := hP.step hc
  obtain ⟨bs', hbs', -⟩ := h2.represents.wellFormed
  exact ⟨s', bs', P'.free, h1, hbs'⟩

theorem reached_wellFormed_zero :
    ∃ s : Session, s.live = [(heapLowerBound + 9, 24)] ∧
      ∃ blocks list, WellFormed kernelImage s.heap blocks list := by
  obtain ⟨s, hs, -, hlive⟩ := exists_reached kernelImage [.allocate 24] rfl
  exact ⟨s, hlive, (reached_wellFormed hs).1⟩

/-- What a client holds lies inside the heap. -/
theorem Good.range (h : s.Good L P) {p n : Nat} (hp : (p, n) ∈ s.live) :
    heapLowerBound ≤ p ∧ p + n ≤ s.heap.currentBrk := by
  obtain ⟨a, t, rfl, ha, hle⟩ := h.held hp
  have hlo := h.represents.stands.valid.tiling.lower (Or.inl ha)
  have hup := h.represents.stands.valid.tiling.upper (Or.inl ha)
  rw [h.represents.brk]
  omega

/-- Two pointers held are to different blocks. -/
theorem Good.disjoint (h : s.Good L P) {p n q k : Nat} (hp : (p, n) ∈ s.live) (hq : (q, k) ∈ s.live)
    (hne : p ≠ q) : p + n ≤ q ∨ q + k ≤ p := by
  obtain ⟨a, t, rfl, ha, hle⟩ := h.held hp
  obtain ⟨b, u, rfl, hb, hle'⟩ := h.held hq
  have := h.represents.stands.valid.tiling.separate (Or.inl ha) (Or.inl hb) (by omega)
  omega

theorem Good.headers (h : s.Good L P) {p n : Nat} (hp : (p, n) ∈ s.live) {a u : Nat}
    (ha : P.Block a u) : p + n ≤ a ∨ a + headerSize ≤ p := by
  obtain ⟨b, t, rfl, hb, hle⟩ := h.held hp
  by_cases hab : a = b
  · exact Or.inr (by omega)
  · have h9 : headerSize ≤ 16 := by decide
    have h16 := h.represents.stands.valid.sixteen_le ha
    have := h.represents.stands.valid.tiling.separate ha (Or.inl hb) hab
    omega

/-- A call about another pointer leaves the bytes of this one alone. -/
theorem Good.spares (h : s.Good L P) {p n : Nat} (hp : (p, n) ∈ s.live) {c : Call} (hc : s.Permits c)
    (hfree : c ≠ .free p) (hstore : ∀ i v, c ≠ .store p i v) :
    ∃ s' P', s.call L c = some s' ∧ s'.Good L P' ∧ (p, n) ∈ s'.live ∧
      Spares (fun x => p ≤ x ∧ x < p + n) s.heap.mem s'.heap.mem := by
  obtain ⟨a, t, rfl, ha, hle⟩ := h.held hp
  have hK : Keeps (fun b u => b = a ∧ u = t) P := fun {b u} hb => by rw [hb.1, hb.2]; exact ha
  have hin : ∀ x, (a + headerSize ≤ x ∧ x < a + headerSize + n) →
      Payload (fun b u => b = a ∧ u = t) x := fun x hx => ⟨a, t, ⟨rfl, rfl⟩, hx.1, by omega⟩
  cases c with
  | allocate k =>
    obtain ⟨s', h1, h2, h3, h4⟩ := h.allocate (K := fun b u => b = a ∧ u = t) k
    exact ⟨s', _, h1, h2, h3 hp, (h4 hK).mono hin⟩
  | free q =>
    obtain ⟨k, hk⟩ := hc
    obtain ⟨b, u, rfl, hb, -⟩ := h.held hk
    have hab : a ≠ b := fun he => hfree (by rw [he])
    obtain ⟨s', h1, h2, h3, h4⟩ := h.free (K := fun b u => b = a ∧ u = t) hb
    refine ⟨s', _, h1, h2, ?_, (h4 hK).mono hin⟩
    rw [h3]
    exact List.mem_filter.mpr ⟨hp, by simpa using hab⟩
  | brk addr =>
    obtain ⟨s', h1, h2, h3, h4⟩ := h.brk (K := fun b u => b = a ∧ u = t) hc.1 hc.2
    exact ⟨s', _, h1, h2, h3 ▸ hp, (h4 hK).mono hin⟩
  | store q i v =>
    obtain ⟨k, hk, hi⟩ := hc
    have hne : a + headerSize ≠ q := fun he => hstore i v (by rw [he])
    have hdis := h.disjoint hp hk hne
    obtain ⟨s', h1, h2, h3, h4⟩ := h.store hk hi v
    refine ⟨s', _, h1, h2, h3 ▸ hp, ?_⟩
    rw [h4]
    exact spares_store8 _ v (by omega)

/-- What a client holds lies inside the heap, apart from every header and from
what any other client holds, and no call of another's writes to it. -/
theorem reached_live (h : Reached L s) {p n : Nat} (hp : (p, n) ∈ s.live) :
    (∃ blocks, Blocks s.heap.mem heapLowerBound blocks s.heap.currentBrk ∧
      ∀ a ∈ blocks, p + n ≤ a ∨ a + headerSize ≤ p) ∧
    heapLowerBound ≤ p ∧ p + n ≤ s.heap.currentBrk ∧
    (∀ q k, (q, k) ∈ s.live → p ≠ q → p + n ≤ q ∨ q + k ≤ p) ∧
    ∀ c, s.Permits c → c ≠ .free p → (∀ i v, c ≠ .store p i v) →
      ∃ s', s.call L c = some s' ∧ (p, n) ∈ s'.live ∧ p + n ≤ s'.heap.currentBrk ∧
        Spares (fun x => p ≤ x ∧ x < p + n) s.heap.mem s'.heap.mem := by
  obtain ⟨P, hP⟩ := good_of_reached h
  obtain ⟨bs, hbs, hmem⟩ := hP.represents.blocks
  refine ⟨⟨bs, hbs, fun a ha => hP.headers hp ((hmem a).mp ha)⟩, (hP.range hp).1, (hP.range hp).2,
    fun q k hq hne => hP.disjoint hp hq hne, fun c hc hfree hstore => ?_⟩
  obtain ⟨s', P', h1, h2, h3, h4⟩ := hP.spares hp hc hfree hstore
  exact ⟨s', h1, h3, (h2.range h3).2, h4⟩

theorem reached_live_two : ∃ s : Session, s.live = [(heapLowerBound + 137, 100), (heapLowerBound + 9, 24)] ∧
    heapLowerBound + 237 ≤ s.heap.currentBrk ∧
    ∃ s', s.call kernelImage (.free (heapLowerBound + 137)) = some s' ∧ (heapLowerBound + 9, 24) ∈ s'.live ∧
      Spares (fun x => heapLowerBound + 9 ≤ x ∧ x < heapLowerBound + 33) s.heap.mem s'.heap.mem := by
  obtain ⟨s, hs, -, hlive⟩ := exists_reached kernelImage [.allocate 24, .allocate 100] rfl
  have hp : (heapLowerBound + 9, 24) ∈ s.live := hlive ▸ List.mem_cons_of_mem _ (List.mem_singleton_self _)
  have hq : (heapLowerBound + 137, 100) ∈ s.live := hlive ▸ List.mem_cons_self ..
  obtain ⟨-, -, -, -, hcall⟩ := reached_live hs hp
  obtain ⟨s', hfree, hin, -, hsp⟩ := hcall (.free (heapLowerBound + 137)) ⟨100, hq⟩
    (fun he => absurd (Call.free.inj he) (by decide)) (fun i v he => by cases he)
  exact ⟨s, hlive, (reached_live hs hq).2.2.1, s', hfree, hin, hsp⟩

/-- No two free blocks of one scale below the largest are buddies; with nothing
held, only free blocks of the largest scale are left. -/
theorem reached_merged (h : Reached L s) :
    ∃ blocks, Blocks s.heap.mem heapLowerBound blocks s.heap.currentBrk ∧
      (∀ a ∈ blocks, ∀ b ∈ blocks, s.heap.mem.isFree a = 1 → s.heap.mem.isFree b = 1 →
        s.heap.mem.scale a = s.heap.mem.scale b → s.heap.mem.scale a < maxBlockScale →
        (a - heapLowerBound) ^^^ (b - heapLowerBound) ≠ 2 ^ s.heap.mem.scale a) ∧
      (s.live = [] → ∀ a ∈ blocks, s.heap.mem.isFree a = 1 ∧ s.heap.mem.scale a = maxBlockScale) := by
  obtain ⟨P, hP⟩ := good_of_reached h
  obtain ⟨bs, hbs, hmem⟩ := hP.represents.blocks
  have hv := hP.represents.stands.valid
  have hfree : ∀ {a}, a ∈ bs → s.heap.mem.isFree a = 1 → a ∈ P.free (s.heap.mem.scale a) :=
    fun {a} ha h1 => by
      rcases hP.represents.block_cases ((hmem a).mp ha) with ⟨h0, -⟩ | ⟨-, hin⟩
      · rw [h0] at h1
        cases h1
      · exact hin
  refine ⟨bs, hbs, fun a ha b hb hfa hfb hs hlt hxor => ?_, fun hlive a ha => ?_⟩
  · have hablock := (hmem a).mp ha
    have hb' := hfree hb hfb
    rw [← hs] at hb'
    have hlo := hv.tiling.lower hablock
    have hlo' := hv.tiling.lower (Or.inr hb')
    have hbuddy : b = buddyOf heapLowerBound a (s.heap.mem.scale a) := by
      rw [Tiling.buddyOf_eq_xor hlo (hv.tiling.aligned hablock), ← hxor, ← Nat.xor_assoc,
        Nat.xor_self, Nat.zero_xor]
      omega
    exact hP.merged a _ hlt (hfree ha hfa) (hbuddy ▸ hb')
  · have hnone : ∀ x, P.used x = none := fun x => by
      cases hu : P.used x with
      | none => rfl
      | some t =>
        obtain ⟨k, hk⟩ := hP.used hu
        rw [hlive] at hk
        exact (List.not_mem_nil hk).elim
    have hablock := (hmem a).mp ha
    refine ⟨?_, hP.merged.scale_eq hv hnone hablock⟩
    rcases hP.represents.block_cases hablock with ⟨-, hu⟩ | ⟨h1, -⟩
    · rw [hnone] at hu
      cases hu
    · exact h1

theorem reached_merged_freed : ∃ s : Session, s.live = [] ∧
    s.heap.currentBrk = heapLowerBound + 2 ^ maxBlockScale ∧
    ∃ blocks, Blocks s.heap.mem heapLowerBound blocks s.heap.currentBrk ∧
      ∀ a ∈ blocks, s.heap.mem.isFree a = 1 ∧ s.heap.mem.scale a = maxBlockScale := by
  obtain ⟨s, hs, hg, hlive⟩ := exists_reached kernelImage [.allocate 1, .allocate 1, .allocate 32759,
    .free (heapLowerBound + 9), .free (heapLowerBound + 25), .free (heapLowerBound + 2 ^ maxBlockScale + 9)] rfl
  obtain ⟨bs, hbs, -, hall⟩ := reached_merged hs
  refine ⟨s, hlive, ?_, bs, hbs, hall hlive⟩
  rw [hg.represents.brk]
  decide +kernel

end Session
end ShompOS
