import ShompOS.Run
import ShompOS.Heap.Merged
import ShompOS.Heap.Routines

/-! Whole runs of the heap and its clients.

A `Session` is the heap with the pointers its clients hold: what `allocate` has
returned and nobody has freed since, each with the size that was asked for. The
clients call `allocate` with anything, `free` with a pointer they hold and `brk`
with an address that leaves the last block of the address space alone, and write
to the bytes they were given. `Good` is what holds in every session a run
reaches; the theorems at the end read it back in terms of memory. -/
namespace ShompOS
open Layout Memory

inductive Call
  | allocate (requestSize : Nat)
  | free (data : Nat)
  | brk (addr : Nat)
  /-- A client writes its `i`-th byte. -/
  | store (data i v : Nat)

structure Session where
  heap : Heap
  /-- The pointers held, with the sizes they were asked for with. -/
  live : List (Nat × Nat)

namespace Session
variable (L : Layout)

def holds (s : Session) (p : Nat) : Prop := ∃ n, (p, n) ∈ s.live

/-- What a client may call. -/
def Permits (s : Session) : Call → Prop
  | .allocate _ => True
  | .free p => s.holds p
  | .brk addr => heapLowerBound ≤ addr ∧ addr ≤ 0xFFFF8000
  | .store p i _ => ∃ n, (p, n) ∈ s.live ∧ i < n

/-- A call and what its client holds after it; `none` if the call does not return. -/
def call (s : Session) : Call → Option Session
  | .allocate n =>
    (s.heap.allocate L n).map fun (h, p) => ⟨h, if p = 0 then s.live else (p, n) :: s.live⟩
  | .free p =>
    (s.heap.free L p).map fun (h, ret) =>
      ⟨h, if ret = 0 then s.live.filter fun x => x.1 ≠ p else s.live⟩
  | .brk addr => (s.heap.brk L addr).map fun (h, _) => ⟨h, s.live⟩
  | .store p i v => some ⟨⟨s.heap.mem.store8 (wrap (p + i)) v, s.heap.currentBrk⟩, s.live⟩

/-- After `init_heap` on whatever the memory held, with nothing handed out yet. -/
def Booted (s : Session) : Prop :=
  s.live = [] ∧ ∃ m, Heap.initHeap L m heapLowerBound = some s.heap

def Step (s : Session) (c : Call) (s' : Session) : Prop := s.Permits c ∧ s.call L c = some s'

/-- The sessions runs reach. -/
def Reached (s : Session) : Prop := ∃ tr, Run (Booted L) (Step L) tr s

/-! ### The invariant -/

/-- The heap represents a valid pool without free buddies, whose used blocks are
the ones the clients hold, each large enough. -/
structure Good (s : Session) (P : Pool) : Prop where
  represents : Represents L s.heap P
  merged : P.Merged
  held : ∀ {p n}, (p, n) ∈ s.live → ∃ a t, p = a + headerSize ∧ P.used a = some t ∧ n + headerSize ≤ 2 ^ t
  used : ∀ {a t}, P.used a = some t → s.holds (a + headerSize)
  distinct : (s.live.map Prod.fst).Nodup

variable {L} {s s' : Session} {P : Pool}

theorem Good.booted (h : Booted L s) : s.Good L Pool.initial := by
  obtain ⟨hlive, m, hm⟩ := h
  obtain ⟨h', h1, h2⟩ := represents_initHeap L m
  rw [hm, Option.some.injEq] at h1
  have hmerged : Pool.bare.Merged := fun a t _ ha => by simp [Pool.bare] at ha
  refine ⟨h1 ▸ h2, hmerged.grow, ?_, ?_, ?_⟩
  · simp [hlive]
  · simp [Pool.initial, Pool.bare, Pool.grow]
  · simp [hlive]

end Session

/-! ### Bytes the allocator does not read -/

section Bytes
variable {L : Layout} {m m' : Memory} {P : Pool}

theorem links_congr {q : Nat} (hq : L.Node q) (h : ∀ x, q ≤ x → x < q + 8 → m'.byte x = m.byte x) :
    m'.next q = m.next q ∧ m'.prev q = m.prev q := by
  have hup := hq.upper
  unfold next prev
  rw [wrap_eq (by omega)]
  exact ⟨load32_congr (by omega) fun x h1 h2 => h x h1 (by omega),
    load32_congr (by omega) fun x h1 h2 => h x (by omega) (by omega)⟩

theorem flags_congr {q : Nat} (hq : Site q) (h : m'.byte (q + 8) = m.byte (q + 8)) :
    m'.isFree q = m.isFree q ∧ m'.scale q = m.scale q := by
  have hup := hq.upper
  unfold isFree scale
  rw [wrap_eq (by omega), load8_congr h]
  exact ⟨rfl, rfl⟩

/-- A pool stands in any memory with the same list heads and the same headers. -/
theorem Laid.congr (hm : Laid L m P) (hP : P.Separate) (hlist : ∀ x, L.ListByte x → m'.byte x = m.byte x)
    (hhead : ∀ a s, P.Block a s → ∀ x, a ≤ x → x < a + 9 → m'.byte x = m.byte x) : Laid L m' P := by
  have hnode : ∀ {q s}, q ∈ L.list s :: P.free s → s ≤ maxBlockScale →
      m'.next q = m.next q ∧ m'.prev q = m.prev q := fun {q s} hq hs => by
    refine links_congr (hP.node hq hs) fun x h1 h2 => ?_
    rcases List.mem_cons.mp hq with rfl | hq
    · unfold Layout.list at h1 h2
      exact hlist x ⟨by omega, by omega⟩
    · exact hhead q s (Or.inr hq) x h1 (by omega)
  refine ⟨fun s hmin hs => (hm.chain s hmin hs).congr (fun q hq => (hnode hq hs).1)
    fun q hq => (hnode hq hs).2, fun {a s} ha => ?_, fun {a s} ha => ?_⟩
  · obtain ⟨h1, h2⟩ := flags_congr (hP.site (Or.inr ha))
      (hhead a s (Or.inr ha) (a + 8) (by omega) (by omega))
    rw [h1, h2]
    exact hm.free ha
  · have hsite := hP.site (Or.inl ha)
    obtain ⟨h1, h2⟩ := flags_congr hsite (hhead a s (Or.inl ha) (a + 8) (by omega) (by omega))
    obtain ⟨h3, h4⟩ := links_congr (hsite.node (L := L)) fun x hx hx' =>
      hhead a s (Or.inl ha) x hx (by omega)
    rw [h1, h2, h3, h4]
    exact hm.used ha

/-- What avoids the headers is nothing to the allocator. -/
theorem Stands.congr (h : Stands L m P) {R : Nat → Prop} (hA : Avoids L R P)
    (hm : ∀ x, ¬ R x → m'.byte x = m.byte x) : Stands L m' P := by
  refine ⟨h.valid, h.laid.congr h.valid.separate (fun y hy => hm y fun hR => ?_) fun b t hb y h1 h2 =>
    hm y fun hR => ?_⟩
  · exact (hA y hR).1 hy
  · exact hA.header hb y h1 h2 hR

/-- Writing into a used block's payload. -/
theorem Stands.congr_payload (h : Stands L m P) {a s : Nat} (ha : P.used a = some s)
    (hm : ∀ x, ¬ (a + headerSize ≤ x ∧ x < a + 2 ^ s) → m'.byte x = m.byte x) : Stands L m' P :=
  h.congr (h.valid.avoids fun _ hx => ⟨a, s, Or.inl ha, hx⟩) hm

theorem Stands.store8 (h : Stands L m P) {a s x v : Nat} (ha : P.used a = some s)
    (hlo : a + headerSize ≤ x) (hhi : x < a + 2 ^ s) : Stands L (m.store8 x v) P := by
  refine h.congr_payload ha fun y hy => if_neg fun he => hy ?_
  rw [he]
  exact ⟨hlo, hhi⟩

end Bytes

namespace Session
variable {L : Layout} {s s' : Session} {P : Pool} {K : Nat → Nat → Prop}

/-! ### One call -/

theorem Good.allocate (h : s.Good L P) (n : Nat) :
    ∃ s', s.call L (.allocate n) = some s' ∧ s'.Good L (P.allocate n).1 ∧ s.live ⊆ s'.live ∧
      (Keeps K P → Spares (Payload K) s.heap.mem s'.heap.mem) := by
  obtain ⟨h', hcall, hrep, hsp⟩ := h.represents.allocate (R := Payload K) n
  obtain ⟨-, -, hres⟩ := Pool.allocate_spec h.represents.stands.valid n
  have hkeep : Keeps K P → Spares (Payload K) s.heap.mem h'.mem := fun hK =>
    (hsp (Keeps.avoids (fun hb => Pool.used_allocate h.represents.stands.valid n (hK hb)) hrep.stands.valid)).2
  have hmerged := h.merged.allocate h.represents.stands.valid n
  simp only [call, hcall, Option.map_some]
  have hsub : s.live ⊆ if (P.allocate n).2 = 0 then s.live else ((P.allocate n).2, n) :: s.live := by
    split
    · exact List.Subset.refl _
    · exact List.subset_cons_self _ _
  refine ⟨_, rfl, ?_, hsub, hkeep⟩
  rcases hres with ⟨h0, hsame⟩ | ⟨a, t, hp, hnone, hfit, hused⟩
  · simp only [h0, if_true]
    rw [hsame] at hrep ⊢
    exact ⟨hrep, h.merged, h.held, h.used, h.distinct⟩
  · have h9 : 0 < headerSize := by decide
    have hfresh : ¬ s.holds (a + headerSize) := by
      rintro ⟨k, hk⟩
      obtain ⟨b, u, hb, hu, -⟩ := h.held hk
      rw [show b = a by omega, hnone] at hu
      cases hu
    simp only [if_neg (show ¬ (P.allocate n).2 = 0 by omega)]
    refine ⟨hrep, hmerged, fun {q k} hq => ?_, fun {b u} hb => ?_, ?_⟩
    · rcases List.mem_cons.mp hq with he | hq
      · obtain ⟨rfl, rfl⟩ := Prod.mk.inj he
        exact ⟨a, t, hp, by rw [hused, Function.update_self], hfit⟩
      · obtain ⟨b, u, hb, hu, hle⟩ := h.held hq
        have hne : b ≠ a := fun he => by rw [he, hnone] at hu; cases hu
        exact ⟨b, u, hb, by rw [hused, Function.update_of_ne hne, hu], hle⟩
    · by_cases hba : b = a
      · exact ⟨n, by rw [hba, ← hp]; exact List.mem_cons_self ..⟩
      · rw [hused, Function.update_of_ne hba] at hb
        obtain ⟨k, hk⟩ := h.used hb
        exact ⟨k, List.mem_cons_of_mem _ hk⟩
    · refine List.nodup_cons.mpr ⟨fun hm => hfresh ?_, h.distinct⟩
      obtain ⟨⟨q, k⟩, hq, he⟩ := List.mem_map.mp hm
      exact ⟨k, by rw [← hp, ← show q = (P.allocate n).2 from he]; exact hq⟩

theorem Good.free (h : s.Good L P) {a t : Nat} (ha : P.used a = some t) :
    ∃ s', s.call L (.free (a + headerSize)) = some s' ∧ s'.Good L (P.release a t) ∧
      s'.live = s.live.filter (fun x => x.1 ≠ a + headerSize) ∧
      (Keeps K P → Spares (Payload K) s.heap.mem s'.heap.mem) := by
  obtain ⟨h', hcall, hrep, hsp⟩ := h.represents.free (R := Payload K) ha
  obtain ⟨-, hused⟩ := Pool.release_spec h.represents.stands.valid ha
  have hmerged := h.merged.release h.represents.stands.valid ha
  simp only [call, hcall, Option.map_some]
  refine ⟨_, rfl, ⟨hrep, hmerged, fun {q k} hq => ?_, fun {b u} hb => ?_, ?_⟩, rfl,
    fun hK => hsp (hK.avoids h.represents.stands.valid)⟩
  · obtain ⟨hq, hne⟩ := List.mem_filter.mp hq
    obtain ⟨b, u, rfl, hu, hle⟩ := h.held hq
    have hba : b ≠ a := fun he => by simp [he] at hne
    exact ⟨b, u, rfl, by rw [hused, Function.update_of_ne hba, hu], hle⟩
  · have hba : b ≠ a := fun he => by rw [he, hused, Function.update_self] at hb; cases hb
    rw [hused, Function.update_of_ne hba] at hb
    obtain ⟨k, hk⟩ := h.used hb
    exact ⟨k, List.mem_filter.mpr ⟨hk, by simpa using hba⟩⟩
  · exact h.distinct.sublist ((List.filter_sublist).map Prod.fst)

theorem Good.brk (h : s.Good L P) {addr : Nat} (hlo : heapLowerBound ≤ addr) (hhi : addr ≤ 0xFFFF8000) :
    ∃ s', s.call L (.brk addr) = some s' ∧ s'.Good L (P.moveBrk addr Heap.brkRounds).1 ∧
      s'.live = s.live ∧ (Keeps K P → Spares (Payload K) s.heap.mem s'.heap.mem) := by
  have hroom : addr + 2 ^ maxBlockScale ≤ addressSpace := by
    have : 0xFFFF8000 + 2 ^ maxBlockScale ≤ addressSpace := by decide
    omega
  obtain ⟨h', hcall, hrep, hused, hsp⟩ := h.represents.moveBrk (R := Payload K) hlo hroom
  simp only [call, hcall, Option.map_some]
  refine ⟨_, rfl, ⟨hrep, h.merged.moveBrk addr _, fun {q k} hq => ?_, fun {b u} hb => ?_, h.distinct⟩,
    rfl, fun hK => hsp (hK.avoids h.represents.stands.valid) (Keeps.avoids ?_ hrep.stands.valid)⟩
  · rw [hused]
    exact h.held hq
  · rw [hused] at hb
    exact h.used hb
  · intro b u hb
    rw [hused]
    exact hK hb

theorem Good.store (h : s.Good L P) {p n i : Nat} (hp : (p, n) ∈ s.live) (hi : i < n) (v : Nat) :
    ∃ s', s.call L (.store p i v) = some s' ∧ s'.Good L P ∧ s'.live = s.live ∧
      s'.heap.mem = s.heap.mem.store8 (p + i) v := by
  obtain ⟨a, t, rfl, ha, hle⟩ := h.held hp
  have hup := h.represents.stands.valid.tiling.upper (Or.inl ha)
  have htop := h.represents.stands.valid.top
  have hpM := two_pow_pos' maxBlockScale
  simp only [call]
  rw [wrap_eq (by omega)]
  exact ⟨_, rfl, ⟨⟨h.represents.stands.store8 ha (by omega) (by omega), h.represents.brk⟩, h.merged,
    h.held, h.used, h.distinct⟩, rfl, rfl⟩

/-! ### Runs -/

theorem Good.step (h : s.Good L P) {c : Call} (hc : s.Permits c) :
    ∃ s' P', s.call L c = some s' ∧ s'.Good L P' := by
  cases c with
  | allocate n =>
    obtain ⟨s', h1, h2, -⟩ := h.allocate (K := fun _ _ => False) n
    exact ⟨s', _, h1, h2⟩
  | free p =>
    obtain ⟨n, hn⟩ := hc
    obtain ⟨a, t, rfl, ha, -⟩ := h.held hn
    obtain ⟨s', h1, h2, -⟩ := h.free (K := fun _ _ => False) ha
    exact ⟨s', _, h1, h2⟩
  | brk addr =>
    obtain ⟨s', h1, h2, -⟩ := h.brk (K := fun _ _ => False) hc.1 hc.2
    exact ⟨s', _, h1, h2⟩
  | store p i v =>
    obtain ⟨n, hn, hi⟩ := hc
    obtain ⟨s', h1, h2, -⟩ := h.store hn hi v
    exact ⟨s', _, h1, h2⟩

/-- A call as the pool and the list of what is held see it, if a client may make it. -/
def follow : Pool × List (Nat × Nat) → Call → Option (Pool × List (Nat × Nat))
  | (P, live), .allocate n =>
    some ((P.allocate n).1, if (P.allocate n).2 = 0 then live else ((P.allocate n).2, n) :: live)
  | (P, live), .free p =>
    if headerSize ≤ p then
      (P.used (p - headerSize)).map fun t => (P.release (p - headerSize) t, live.filter fun x => x.1 ≠ p)
    else none
  | (P, live), .brk addr =>
    if heapLowerBound ≤ addr ∧ addr ≤ 0xFFFF8000 then some ((P.moveBrk addr Heap.brkRounds).1, live) else none
  | _, .store _ _ _ => none

theorem Good.follow {x : Pool × List (Nat × Nat)} {c : Call} (h : s.Good L P)
    (hc : Session.follow (P, s.live) c = some x) : ∃ s', Step L s c s' ∧ s'.Good L x.1 ∧ s'.live = x.2 := by
  cases c with
  | allocate n =>
    cases hc
    obtain ⟨s', hcall, hgood, -⟩ := h.allocate (K := fun _ _ => False) n
    refine ⟨s', ⟨trivial, hcall⟩, hgood, ?_⟩
    obtain ⟨h', hserved, -⟩ := h.represents.allocate (R := fun _ => False) n
    rw [call, hserved, Option.map_some, Option.some.injEq] at hcall
    rw [← hcall]
  | free p =>
    simp only [Session.follow] at hc
    split at hc
    · next hp =>
      obtain ⟨t, ht, rfl⟩ := Option.map_eq_some_iff.mp hc
      obtain ⟨s', hcall, hgood, hlive, -⟩ := h.free (K := fun _ _ => False) ht
      have hheld := h.used ht
      rw [Nat.sub_add_cancel hp] at hcall hheld hlive
      exact ⟨s', ⟨hheld, hcall⟩, hgood, hlive⟩
    · cases hc
  | brk addr =>
    simp only [Session.follow] at hc
    split at hc
    · next haddr =>
      cases hc
      obtain ⟨s', hcall, hgood, hlive, -⟩ := h.brk (K := fun _ _ => False) haddr.1 haddr.2
      exact ⟨s', ⟨haddr, hcall⟩, hgood, hlive⟩
    · cases hc
  | store p i v => cases hc

/-- What the pool can follow from the start is what some heap and its clients do. -/
theorem exists_reached (L : Layout) (calls : List Call) {live : List (Nat × Nat)}
    (hcalls : calls.foldlM follow (Pool.initial, []) = some (P, live)) :
    ∃ s, Reached L s ∧ s.Good L P ∧ s.live = live := by
  obtain ⟨h, hinit, -⟩ := represents_initHeap L Memory.zero
  have hbooted : Booted L ⟨h, []⟩ := ⟨rfl, Memory.zero, hinit⟩
  have hall : ∀ (cs : List Call) (s : Session) (x : Pool × List (Nat × Nat)), Reached L s → s.Good L x.1 →
      s.live = x.2 → cs.foldlM follow x = some (P, live) → ∃ s, Reached L s ∧ s.Good L P ∧ s.live = live := by
    intro cs
    induction cs with
    | nil =>
      intro s x hs hg hlive hcs
      cases hcs
      exact ⟨s, hs, hg, hlive⟩
    | cons c cs ih =>
      intro s x hs hg hlive hcs
      rw [List.foldlM_cons] at hcs
      obtain ⟨y, hc, hrest⟩ := Option.bind_eq_some_iff.mp hcs
      rw [show x = (x.1, s.live) from Prod.ext rfl hlive.symm] at hc
      obtain ⟨s', hstep, hg', hlive'⟩ := hg.follow hc
      obtain ⟨tr, hrun⟩ := hs
      exact ih s' y ⟨_, hrun.next hstep⟩ hg' hlive' hrest
  exact hall calls _ _ ⟨[], Run.start hbooted⟩ (Good.booted hbooted) rfl hcalls

theorem good_of_reached (h : Reached L s) : ∃ P, s.Good L P := by
  obtain ⟨tr, hrun⟩ := h
  refine hrun.invariant (I := fun s => ∃ P, s.Good L P) (fun s hs => ⟨_, Good.booted hs⟩) fun s c s' ⟨P, hP⟩ hstep => ?_
  obtain ⟨s'', P', h1, h2⟩ := hP.step hstep.1
  rw [hstep.2, Option.some.injEq] at h1
  exact ⟨P', h1 ▸ h2⟩

end Session
end ShompOS
