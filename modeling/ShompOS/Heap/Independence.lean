import ShompOS.Heap.Invariant

/-! What the allocator does is decided by the calls on it.

The memory the heap was set up in, where the list heads stand and what clients
write into their bytes are nothing to `allocate`, `free` and `brk`: a `Ledger`
goes through the calls with the abstract pool alone, every session follows the
ledger of its own calls, and the ledger passes over the stores. Two runs with the
same calls therefore hand out the same addresses and leave the same blocks. -/
namespace ShompOS
open Layout

/-- A call on the allocator, and not a client's store. -/
def Call.onHeap : Call → Bool
  | .store _ _ _ => false
  | _ => true

/-- The pool behind a session, with the pointers held. -/
structure Ledger where
  pool : Pool
  live : List (Nat × Nat)

namespace Ledger

def initial : Ledger := ⟨Pool.initial, []⟩

def allocate (l : Ledger) (n : Nat) : Ledger :=
  ⟨(l.pool.allocate n).1, if (l.pool.allocate n).2 = 0 then l.live else ((l.pool.allocate n).2, n) :: l.live⟩

/-- `p` is the pointer, the block's header stands in front of it. -/
def free (l : Ledger) (p : Nat) : Ledger :=
  ⟨(l.pool.used (p - headerSize)).elim l.pool (l.pool.release (p - headerSize)), l.live.filter fun x => x.1 ≠ p⟩

def call (l : Ledger) : Call → Ledger
  | .allocate n => l.allocate n
  | .free p => l.free p
  | .brk addr => ⟨(l.pool.moveBrk addr Heap.brkRounds).1, l.live⟩
  | .store _ _ _ => l

theorem call_of_not_onHeap (l : Ledger) {c : Call} (hc : c.onHeap = false) : l.call c = l := by
  cases c with
  | store p i v => rfl
  | allocate n => cases hc
  | free p => cases hc
  | brk addr => cases hc

/-- The stores can be left out. -/
theorem foldl_filter_onHeap (l : Ledger) (cs : List Call) : (cs.filter Call.onHeap).foldl call l = cs.foldl call l := by
  induction cs generalizing l with
  | nil => rfl
  | cons c cs ih =>
    cases hc : c.onHeap with
    | true => rw [List.filter_cons_of_pos hc, List.foldl_cons, List.foldl_cons, ih]
    | false => rw [List.filter_cons_of_neg (Bool.not_eq_true _ ▸ hc), List.foldl_cons, l.call_of_not_onHeap hc, ih]

end Ledger

/-! ### One pool in two memories -/

/-- The two memories show the same heap: the same blocks, with the same headers, in
the same order on each free list. -/
def SameHeap (L L' : Layout) (h h' : Heap) : Prop :=
  h.currentBrk = h'.currentBrk ∧ ∃ blocks list, WellFormed L h blocks list ∧ WellFormed L' h' blocks list ∧
    ∀ a ∈ blocks, h.mem.isFree a = h'.mem.isFree a ∧ h.mem.scale a = h'.mem.scale a

section Represents
variable {L L' : Layout} {h h' : Heap} {P : Pool}

theorem Represents.same_header (hr : Represents L h P) (hr' : Represents L' h' P) {a : Nat}
    (ha : P.Block a (h.mem.scale a)) : h.mem.isFree a = h'.mem.isFree a ∧ h.mem.scale a = h'.mem.scale a := by
  refine ⟨?_, (hr'.stands.scale_eq ha).symm⟩
  rcases hr.block_cases ha with ⟨h0, hu⟩ | ⟨h1, hf⟩
  · rw [h0, (hr'.stands.laid.used hu).1]
  · rw [h1, (hr'.stands.laid.free hf).1]

/-- One walk over the pool's blocks is a walk over the headers of both. -/
theorem Represents.same_blocks (hr : Represents L h P) (hr' : Represents L' h' P) {bs bs' : List Nat}
    (hb : Blocks h.mem heapLowerBound bs h.currentBrk) (hb' : Blocks h'.mem heapLowerBound bs' h'.currentBrk) :
    bs = bs' := by
  obtain ⟨ws, hw, hws⟩ := hr.stands.valid.tiling.exists_walk
  have hwalk := hr.stands.blocks_of_walk hw fun a s => (hws a s).mp
  have hwalk' := hr'.stands.blocks_of_walk hw fun a s => (hws a s).mp
  rw [← hr.brk] at hwalk
  rw [← hr'.brk] at hwalk'
  exact (hb.unique hwalk).trans (hb'.unique hwalk').symm

theorem Represents.sameHeap (hr : Represents L h P) (hr' : Represents L' h' P) : SameHeap L L' h h' := by
  obtain ⟨bs, hwf, hmem⟩ := hr.wellFormed
  obtain ⟨bs', hwf', -⟩ := hr'.wellFormed
  obtain rfl := hr.same_blocks hr' hwf.tiles hwf'.tiles
  exact ⟨hr.brk.trans hr'.brk.symm, bs, P.free, hwf, hwf', fun a ha => hr.same_header hr' ((hmem a).mp ha)⟩

end Represents

namespace Session
variable {L L' : Layout} {s s' : Session} {l : Ledger}

/-- The session's heap stands for the ledger's pool, and both hold the same. -/
structure Follows (L : Layout) (s : Session) (l : Ledger) : Prop where
  good : s.Good L l.pool
  live : s.live = l.live

theorem Follows.booted (h : Booted L s) : s.Follows L Ledger.initial := ⟨Good.booted h, h.1⟩

theorem Follows.allocate (h : s.Follows L l) {n : Nat} (hcall : s.call L (.allocate n) = some s') :
    s'.Follows L (l.allocate n) := by
  obtain ⟨t, htcall, hgood, -, -⟩ := h.good.allocate (K := fun _ _ => False) n
  obtain ⟨h', hheap, -, -⟩ := h.good.represents.allocate (R := fun _ => False) n
  rw [hcall, Option.some.injEq] at htcall
  subst htcall
  refine ⟨hgood, ?_⟩
  simp only [call, hheap, Option.map_some, Option.some.injEq] at hcall
  rw [← hcall, h.live]
  rfl

theorem Follows.free (h : s.Follows L l) {p : Nat} (hp : s.holds p) (hcall : s.call L (.free p) = some s') :
    s'.Follows L (l.free p) := by
  obtain ⟨n, hn⟩ := hp
  obtain ⟨a, t, rfl, ha, -⟩ := h.good.held hn
  obtain ⟨s'', hcall', hgood, hlive, -⟩ := h.good.free (K := fun _ _ => False) ha
  rw [hcall, Option.some.injEq] at hcall'
  subst hcall'
  refine ⟨?_, ?_⟩
  · simpa only [Ledger.free, Nat.add_sub_cancel, ha, Option.elim_some] using hgood
  · rw [hlive, h.live]
    rfl

theorem Follows.step (h : s.Follows L l) {c : Call} (hstep : Step L s c s') : s'.Follows L (l.call c) := by
  obtain ⟨hc, hcall⟩ := hstep
  cases c with
  | allocate n => exact h.allocate hcall
  | free p => exact h.free hc hcall
  | brk addr =>
    obtain ⟨t, htcall, hgood, hlive, -⟩ := h.good.brk (K := fun _ _ => False) hc.1 hc.2
    rw [hcall, Option.some.injEq] at htcall
    subst htcall
    exact ⟨hgood, hlive.trans h.live⟩
  | store p i v =>
    obtain ⟨n, hn, hi⟩ := hc
    obtain ⟨t, htcall, hgood, hlive, -⟩ := h.good.store hn hi v
    rw [hcall, Option.some.injEq] at htcall
    subst htcall
    exact ⟨hgood, hlive.trans h.live⟩

/-- The calls of a run, without the clients' stores. -/
def heapCalls (tr : List (Session × Call)) : List Call := (tr.map Prod.snd).filter Call.onHeap

/-- Every run follows the ledger of its calls. -/
theorem run_follows {tr : List (Session × Call)} (h : Run (Booted L) (Step L) tr s) :
    s.Follows L ((heapCalls tr).foldl Ledger.call Ledger.initial) := by
  rw [heapCalls, Ledger.foldl_filter_onHeap, List.foldl_map]
  exact h.follows (fun s hs => Follows.booted hs) fun s l c s' hl hstep => hl.step hstep

/-- Whatever the memory held before, wherever the list heads stand and whatever the
clients write: the same calls hand out the same pointers, leave the same blocks and
get the same answers. -/
theorem run_independent {tr tr' : List (Session × Call)} (h : Run (Booted L) (Step L) tr s)
    (h' : Run (Booted L') (Step L') tr' s') (hcalls : heapCalls tr = heapCalls tr') :
    s.live = s'.live ∧ SameHeap L L' s.heap s'.heap ∧
      (∀ n, ∃ p, (s.heap.allocate L n).map Prod.snd = some p ∧ (s'.heap.allocate L' n).map Prod.snd = some p) ∧
      ∀ addr, heapLowerBound ≤ addr → addr ≤ 0xFFFF8000 →
        ∃ ret, (s.heap.brk L addr).map Prod.snd = some ret ∧ (s'.heap.brk L' addr).map Prod.snd = some ret := by
  have hf := run_follows h
  have hf' := run_follows h'
  rw [← hcalls] at hf'
  have hr := hf.good.represents
  have hr' := hf'.good.represents
  refine ⟨hf.live.trans hf'.live.symm, hr.sameHeap hr', fun n => ?_, fun addr hlo hhi => ?_⟩
  · obtain ⟨t, ht, -⟩ := hr.allocate (R := fun _ => False) n
    obtain ⟨t', ht', -⟩ := hr'.allocate (R := fun _ => False) n
    rw [ht, ht']
    exact ⟨_, rfl, rfl⟩
  · have hroom : addr + 2 ^ maxBlockScale ≤ addressSpace := by
      have : 0xFFFF8000 + 2 ^ maxBlockScale ≤ addressSpace := by decide
      omega
    obtain ⟨t, ht, -⟩ := hr.moveBrk (R := fun _ => False) hlo hroom
    obtain ⟨t', ht', -⟩ := hr'.moveBrk (R := fun _ => False) hlo hroom
    rw [ht, ht']
    exact ⟨_, rfl, rfl⟩

/-- A call that is permitted can be made. -/
theorem run_call {tr : List (Session × Call)} (h : Run (Booted L) (Step L) tr s) {c : Call} (hc : s.Permits c) :
    ∃ s', Run (Booted L) (Step L) (tr ++ [(s, c)]) s' := by
  obtain ⟨s', -, hcall, -⟩ := (run_follows h).good.step hc
  exact ⟨s', h.next ⟨hc, hcall⟩⟩

theorem run_boot (L : Layout) (m : Memory) : ∃ s, Run (Booted L) (Step L) [] s := by
  obtain ⟨h, hinit, -⟩ := represents_initHeap L m
  exact ⟨⟨h, []⟩, Run.start ⟨rfl, m, hinit⟩⟩

/-- One client writes into its bytes and the other does not. -/
theorem run_independent_written :
    ∃ s s' : Session, s.live = [(heapLowerBound + 9, 24)] ∧ s.live = s'.live ∧
      SameHeap kernelImage kernelImage s.heap s'.heap := by
  obtain ⟨_, hboot⟩ := run_boot kernelImage Memory.zero
  obtain ⟨s, hs⟩ := run_call hboot (c := .allocate 24) trivial
  obtain ⟨_, hboot'⟩ := run_boot kernelImage ⟨fun _ => 0x41, []⟩
  obtain ⟨t, ht⟩ := run_call hboot' (c := .allocate 24) trivial
  have hlive : s.live = [(heapLowerBound + 9, 24)] := (run_follows hs).live
  have hheld : (heapLowerBound + 9, 24) ∈ t.live := by
    rw [(run_follows ht).live]
    exact List.mem_singleton_self _
  obtain ⟨s', hs'⟩ := run_call ht (c := .store (heapLowerBound + 9) 3 0x42) ⟨24, hheld, by decide⟩
  obtain ⟨h1, h2, -⟩ := run_independent hs hs' rfl
  exact ⟨s, s', hlive, h1, h2⟩

end Session
end ShompOS
