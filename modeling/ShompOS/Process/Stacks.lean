import ShompOS.Process.Events
import ShompOS.Process.Machine
import ShompOS.Heap.Invariant

/-! The stack the processor is on.

Every saved stack pointer, and the one in use, is on the boot stack or in an
allocated block that a process was created with (`OnStack`). Creating a process,
switching and the keyboard's commands keep it so: a stack is never among what the
keyboard frees. The one step that does not is the `free` in `kill_process`, which
frees the stack it is running on; until the switch that follows, the processor is
on a block of a free list. -/
namespace ShompOS
open Layout Memory

/-- Given a block with room for what `init_process` writes, that is where it writes. -/
theorem Represents.initProcess {L : Layout} {C : Code} {P : Pool} {k k' : Kernel} {entryPoint pid a t : Nat}
    (hr : Represents L k.heap P) (ha : P.used a = some t) (hroom : 56 + headerSize ≤ 2 ^ t)
    (h : k.initProcess C entryPoint (a + headerSize) = some (k', pid)) :
    Represents L k'.heap P ∧
      (∀ x, ¬ (a + headerSize ≤ x ∧ x < a + 2 ^ t) → k'.heap.mem.byte x = k.heap.mem.byte x) ∧
      (∀ i, k.Live i → k'.procTable i = k.procTable i) ∧
      ∀ i, k'.Live i → k.Live i ∨ (k'.procTable i).context.esp = a + 2 ^ t - 56 := by
  obtain ⟨hheap, hold, hnew⟩ := Kernel.initProcess_frame h
  have hst := hr.stands
  have hup := hst.valid.tiling.upper (Or.inl ha)
  have htop := hst.valid.top
  have hpM := two_pow_pos' maxBlockScale
  have h9 : headerSize = 9 := rfl
  rw [hst.block_of_data ha, hst.scale_eq (Or.inl ha),
    wrap_sub (a := a + 2 ^ t) (c := 4) (by omega) (by omega)] at hheap hnew
  rw [wrap_sub (a := a + 2 ^ t - 4) (c := 0x34) (by omega) (by omega)] at hnew
  have hbytes : ∀ x, ¬ (a + headerSize ≤ x ∧ x < a + 2 ^ t) → k'.heap.mem.byte x = k.heap.mem.byte x := by
    intro x hx
    rw [hheap]
    refine (Kernel.spares_storeDown _ _ ?_ (by omega)).bytes x ?_
    · show 4 * 14 ≤ _
      omega
    · show x < a + 2 ^ t - 4 + 4 - 4 * 14 ∨ _
      omega
  refine ⟨⟨hst.congr_payload ha hbytes, ?_⟩, hbytes, hold, fun i hi => (hnew i hi).imp_right fun he => ?_⟩
  · rw [hheap]
    exact hr.brk
  · rw [he]
    omega

namespace Machine
open Kernel
variable {L : Layout} {C : Code} {s s' : Machine} {P P' : Pool}

/-- `x` is on the boot stack, or in an allocated block of `stackBottoms`. -/
def OnStack (stackBottoms : List Nat) (P : Pool) (x : Nat) : Prop :=
  x < heapLowerBound ∨
    ∃ a t, P.used a = some t ∧ a + headerSize ∈ stackBottoms ∧ a + headerSize ≤ x ∧ x < a + 2 ^ t

theorem OnStack.mono {l l' : List Nat} {x : Nat} (h : OnStack l P x) (hl : l ⊆ l')
    (hused : ∀ a t, P.used a = some t → a + headerSize ∈ l → P'.used a = some t) : OnStack l' P' x := by
  rcases h with h | ⟨a, t, hat, hmem, hlo, hhi⟩
  · exact Or.inl h
  · exact Or.inr ⟨a, t, hused a t hat hmem, hl hmem, hlo, hhi⟩

structure Sound (L : Layout) (s : Machine) (P : Pool) : Prop where
  good : s.session.Good L P
  held : ∀ p ∈ s.stackBottoms, s.session.holds p
  esp : OnStack s.stackBottoms P s.esp
  saved : ∀ i, s.kernel.Live i → OnStack s.stackBottoms P (s.kernel.procTable i).context.esp
  backstop : s.phase ≠ .running → s.kernel.getProcess 0 ≠ none

theorem Sound.booted (h : Booted L s) : s.Sound L Pool.initial := by
  refine ⟨Session.Good.booted ⟨h.live, h.heap⟩, fun p hp => ?_, Or.inl h.esp, fun i hi => ?_, fun hp => ?_⟩
  · rw [h.stackBottoms] at hp
    exact (List.not_mem_nil hp).elim
  · unfold Live at hi
    rw [h.loaded.procTable] at hi
    exact absurd rfl hi
  · exact absurd h.phase hp

/-! ### The steps -/

theorem Sound.allocate (h : s.Sound L P) (n : Nat) :
    ∃ s', s.handle L C (.allocate n) = some s' ∧ s'.Sound L (P.allocate n).1 := by
  obtain ⟨t, hcall, hgood, hsub, -⟩ := h.good.allocate (K := fun _ _ => False) n
  have hused : ∀ a t, P.used a = some t → (P.allocate n).1.used a = some t :=
    fun a t ha => Pool.used_allocate h.good.represents.stands.valid n ha
  refine ⟨s.withSession t, by rw [handle, hcall, Option.map_some], hgood, fun p hp => ?_, ?_, fun i hi => ?_,
    h.backstop⟩
  · obtain ⟨k, hk⟩ := h.held p hp
    exact ⟨k, hsub hk⟩
  · exact h.esp.mono (List.Subset.refl _) fun a t ha _ => hused a t ha
  · exact (h.saved i hi).mono (List.Subset.refl _) fun a t ha _ => hused a t ha

/-- What is freed is not a stack. -/
theorem Sound.free (h : s.Sound L P) {p : Nat} (hp : ∃ x ∈ s.live, x.1 = p) (hns : p ∉ s.stackBottoms) :
    ∃ s' P', s.handle L C (.free p) = some s' ∧ s'.Sound L P' := by
  obtain ⟨⟨q, n⟩, hq, rfl⟩ := hp
  obtain ⟨a, t, rfl, ha, -⟩ := h.good.held hq
  obtain ⟨u, hcall, hgood, hlive, -⟩ := h.good.free (K := fun _ _ => False) ha
  have hused : ∀ b w, P.used b = some w → b + headerSize ∈ s.stackBottoms →
      (P.release a t).used b = some w := by
    intro b w hb hmem
    have hba : b ≠ a := fun he => hns (he ▸ hmem)
    rw [(Pool.release_spec h.good.represents.stands.valid ha).2, Function.update_of_ne hba, hb]
  refine ⟨s.withSession u, _, by rw [handle, hcall, Option.map_some], hgood, fun p hp => ?_, ?_, fun i hi => ?_,
    h.backstop⟩
  · obtain ⟨k, hk⟩ := h.held p hp
    refine ⟨k, ?_⟩
    show (p, k) ∈ u.live
    rw [hlive]
    have hne : p ≠ a + headerSize := fun he => hns (he ▸ hp)
    exact List.mem_filter.mpr ⟨hk, by simpa using hne⟩
  · exact h.esp.mono (List.Subset.refl _) hused
  · exact (h.saved i hi).mono (List.Subset.refl _) hused

/-- The words `init_process` writes are inside the stack's block, and so is the
stack pointer it saves. -/
theorem Sound.initProcess (h : s.Sound L P) {entryPoint p : Nat}
    (hp : ∃ x ∈ s.live, x.1 = p ∧ 56 ≤ x.2) (hs : s.handle L C (.initProcess entryPoint p) = some s') :
    s'.Sound L P := by
  obtain ⟨⟨q, n⟩, hq, rfl, hn⟩ := hp
  obtain ⟨a, t, rfl, ha, hle⟩ := h.good.held hq
  rw [handle, Option.map_eq_some_iff] at hs
  obtain ⟨⟨k, pid⟩, hinit, rfl⟩ := hs
  have hn' : 56 ≤ n := hn
  have hrep : Represents L s.kernel.heap P := h.good.represents
  obtain ⟨hrep', -, hold, hnew⟩ := hrep.initProcess ha (by omega) hinit
  have hsub : s.stackBottoms ⊆ (a + headerSize) :: s.stackBottoms := List.subset_cons_self _ _
  refine ⟨⟨hrep', h.good.merged, h.good.held, h.good.used, h.good.distinct⟩, fun b hb => ?_,
    h.esp.mono hsub fun b u hb _ => hb, fun i hi => ?_, fun hphase => ?_⟩
  · rcases List.mem_cons.mp hb with rfl | hb
    · exact ⟨n, hq⟩
    · exact h.held b hb
  · rcases hnew i hi with hlive | hfresh
    · rw [show k.procTable i = s.kernel.procTable i from hold i hlive]
      exact (h.saved i hlive).mono hsub fun b u hb _ => hb
    · rw [show (k.procTable i).context.esp = a + 2 ^ t - 56 from hfresh]
      exact Or.inr ⟨a, t, ha, List.mem_cons_self .., by omega, by omega⟩
  · apply getProcess_ne_none_of (h.backstop hphase)
    intro i hi hpid
    unfold Live
    rw [hold i hi]
    exact ⟨hi, hpid⟩

theorem Sound.block_end (h : s.Sound L P) {p x : Nat} (hp : s.session.holds p) (hx : s.InBlock p x) :
    ∃ a t, p = a + headerSize ∧ P.used a = some t ∧ a + headerSize ≤ x ∧ x < a + 2 ^ t := by
  obtain ⟨n, hn⟩ := hp
  obtain ⟨a, t, rfl, ha, -⟩ := h.good.held hn
  obtain ⟨hlo, hhi⟩ := hx
  have hscale : s.kernel.heap.mem.scale a = t := h.good.represents.stands.scale_eq (Or.inl ha)
  rw [Nat.add_sub_cancel, hscale] at hhi
  exact ⟨a, t, rfl, ha, hlo, hhi⟩

theorem Sound.store (h : s.Sound L P) {p x : Nat} (hp : ∃ y ∈ s.live, y.1 = p) (hx : s.InBlock p x) (v : Nat) :
    ∃ s', s.handle L C (.store p x v) = some s' ∧ s'.Sound L P := by
  obtain ⟨⟨q, n⟩, hq, rfl⟩ := hp
  obtain ⟨a, t, rfl, ha, hlo, hhi⟩ := h.block_end ⟨n, hq⟩ hx
  have hst := h.good.represents.stands.store8 (v := v) ha hlo hhi
  exact ⟨_, rfl, ⟨⟨hst, h.good.represents.brk⟩, h.good.merged, h.good.held, h.good.used, h.good.distinct⟩,
    h.held, h.esp, h.saved, h.backstop⟩

theorem Sound.run (h : s.Sound L P) {esp : Nat} (hsame : s.SameStack s.esp esp) :
    ({s with esp := esp} : Machine).Sound L P := by
  refine ⟨h.good, h.held, ?_, h.saved, h.backstop⟩
  rcases hsame with ⟨-, hlow⟩ | ⟨p, hp, -, hin⟩
  · exact Or.inl hlow
  · obtain ⟨a, t, rfl, ha, hlo, hhi⟩ := h.block_end (h.held p hp) hin
    exact Or.inr ⟨a, t, ha, hp, hlo, hhi⟩

/-- Marking a process as stopped does not lose the backstop, nor a saved stack pointer. -/
theorem Sound.stop (h : s.Sound L P) (hb : s.kernel.getProcess 0 ≠ none) (hpid : s.exitPid ≠ 0) :
    s.stop.Sound L P := by
  unfold Machine.stop
  cases hg : s.kernel.getProcess s.exitPid with
  | none => exact ⟨h.good, h.held, h.esp, h.saved, fun _ => hb⟩
  | some i =>
    have htable := s.kernel.modify_procTable (some i) (fun p => {p with status := .stopped})
    refine ⟨h.good, h.held, h.esp, fun j hj => ?_, fun _ => ?_⟩
    · unfold Live at hj
      dsimp only at hj ⊢
      rw [htable] at hj ⊢
      split at hj
      · exact absurd rfl hj
      · next hij =>
        rw [if_neg hij]
        exact h.saved j hj
    · apply getProcess_ne_none_of hb
      intro j hj hj0
      have hij : i ≠ j := fun he => hpid (by rw [← (getProcess_eq_some hg).2, he, hj0])
      unfold Live
      rw [htable, if_neg fun he => hij (Option.some.inj he)]
      exact ⟨hj, hj0⟩

/-- With the backstop there, the scheduler switches to a live process, unless it is
the one running. -/
theorem schedule_eq (s : Machine) (hb : s.kernel.getProcess 0 ≠ none) :
    s.schedule = {s with kernel := s.kernel.queued} ∨
      ∃ j, s.kernel.queued.Live j ∧
        s.kernel.queued.getProcess s.kernel.nextProcess ≠ s.kernel.queued.getProcess s.kernel.queued.activePid ∧
        s.schedule =
          {s with
            kernel := (s.kernel.queued.switchProcess s.kernel.nextProcess s.esp).1
            esp := (s.kernel.queued.procTable j).context.esp
            phase := .running} := by
  obtain ⟨-, -, -, hfound⟩ := exists_nextProcess hb
  obtain ⟨j, hj⟩ := Option.ne_none_iff_exists'.mp hfound
  unfold schedule
  rw [switchProcessFromQueue_eq]
  by_cases hne : s.kernel.nextProcess ≠ s.kernel.queued.activePid
  · have hdiff : s.kernel.queued.getProcess s.kernel.nextProcess ≠
        s.kernel.queued.getProcess s.kernel.queued.activePid := by
      intro he
      rw [hj] at he
      exact hne ((getProcess_eq_some hj).2.symm.trans (getProcess_eq_some he.symm).2)
    rw [if_pos hne]
    refine Or.inr ⟨j, (getProcess_eq_some hj).1, hdiff, ?_⟩
    dsimp only
    rw [switchProcess_loads s.esp hdiff hj]
  · rw [if_neg hne]
    exact Or.inl rfl

/-- The scheduler saves the stack pointer in use and loads a saved one. -/
theorem Sound.schedule (h : s.Sound L P) (hb : s.kernel.getProcess 0 ≠ none) : s.schedule.Sound L P := by
  have hsaved : ∀ i, s.kernel.queued.Live i →
      OnStack s.stackBottoms P (s.kernel.queued.procTable i).context.esp := by
    intro i hi
    rw [queued_procTable]
    exact h.saved i ((s.kernel.queued_live i).mp hi)
  have hheap : s.kernel.queued.heap = s.kernel.heap := s.kernel.queued_rest.1
  have hgood : ∀ k : Kernel, k.heap = s.kernel.heap → (⟨k.heap, s.live⟩ : Session).Good L P := by
    intro k hk
    rw [hk]
    exact h.good
  rcases schedule_eq s hb with he | ⟨j, hj, hdiff, he⟩
  · rw [he]
    refine ⟨hgood _ hheap, h.held, h.esp, hsaved, fun _ => ?_⟩
    apply getProcess_ne_none_of hb
    intro i hi hi0
    dsimp only
    rw [queued_procTable]
    exact ⟨(s.kernel.queued_live i).mpr hi, hi0⟩
  · rw [he]
    have hq := s.kernel.queued.switchProcess_sameQueue s.kernel.nextProcess s.esp
    refine ⟨hgood _ (hq.heap.trans hheap), h.held, hsaved j hj, fun i hi => ?_, fun hp => absurd rfl hp⟩
    dsimp only at hi ⊢
    rw [switchProcess_context s.esp hdiff]
    split
    · exact h.esp
    · exact hsaved i ((hq.live i).mp hi)

/-- Every step but the `free` in `kill_process` can be taken and keeps it. -/
theorem Sound.step (h : s.Sound L P) {e : Event} (hs : Step L C s e s') (he : e ≠ .release) :
    ∃ P', s'.Sound L P' := by
  obtain ⟨hpermit, hs⟩ := hs
  cases e with
  | allocate n =>
    obtain ⟨t, ht, hsound⟩ := h.allocate (C := C) n
    rw [ht] at hs
    exact ⟨_, Option.some.inj hs ▸ hsound⟩
  | free p =>
    obtain ⟨t, P', ht, hsound⟩ := h.free (C := C) hpermit.1 hpermit.2
    rw [ht] at hs
    exact ⟨P', Option.some.inj hs ▸ hsound⟩
  | initProcess entryPoint p => exact ⟨P, h.initProcess hpermit.1 hs⟩
  | store p x v =>
    obtain ⟨t, ht, hsound⟩ := h.store (C := C) hpermit.1 hpermit.2 v
    rw [ht] at hs
    exact ⟨P, Option.some.inj hs ▸ hsound⟩
  | run esp =>
    rw [← Option.some.inj hs]
    exact ⟨P, h.run hpermit⟩
  | tick =>
    rw [← Option.some.inj hs]
    exact ⟨P, h.schedule hpermit⟩
  | exit =>
    rw [← Option.some.inj hs]
    exact ⟨P, h.stop hpermit.2.1 hpermit.2.2.2.2⟩
  | release => exact absurd rfl he
  | leave =>
    rw [← Option.some.inj hs]
    exact ⟨P, h.schedule (h.backstop (by rw [hpermit.1]; decide))⟩

/-! ### What memory says -/

/-- The block the stack pointer is in, if it is in the heap, is allocated: its
header says so, it is in no free list, and it is below the end of the heap. -/
def StackAllocated (L : Layout) (s : Machine) : Prop :=
  heapLowerBound ≤ s.esp →
    ∃ blocks list, WellFormed L s.kernel.heap blocks list ∧
      ∃ a ∈ blocks, a + headerSize ≤ s.esp ∧ s.esp < a + 2 ^ s.kernel.heap.mem.scale a ∧
        s.kernel.heap.mem.isFree a = 0 ∧
        (∀ scale, minBlockScale ≤ scale → scale ≤ maxBlockScale → a ∉ list scale) ∧
        a + 2 ^ s.kernel.heap.mem.scale a ≤ s.kernel.heap.currentBrk

theorem Sound.stackAllocated (h : s.Sound L P) : s.StackAllocated L := by
  intro hlow
  rcases h.esp with hesp | ⟨a, t, ha, -, hlo, hhi⟩
  · omega
  · have hrep : Represents L s.kernel.heap P := h.good.represents
    obtain ⟨bs, hwf, hmem⟩ := hrep.wellFormed
    have hscale : s.kernel.heap.mem.scale a = t := hrep.stands.scale_eq (Or.inl ha)
    have hin : a ∈ bs := (hmem a).mpr (hscale.symm ▸ Or.inl ha)
    have hzero := (hrep.stands.laid.used ha).1
    refine ⟨bs, P.free, hwf, a, hin, hlo, hscale.symm ▸ hhi, hzero, (hwf.used a hin hzero).1, ?_⟩
    rw [hscale, hrep.brk]
    exact hrep.stands.valid.tiling.upper (Or.inl ha)

/-- The headers determine the blocks, so it is enough to look at each of them. -/
theorem not_stackAllocated {bs : List Nat} (hlow : heapLowerBound ≤ s.esp)
    (hbs : Blocks s.kernel.heap.mem heapLowerBound bs s.kernel.heap.currentBrk)
    (hno : ∀ a ∈ bs, s.kernel.heap.mem.isFree a = 0 →
      ¬ (a + headerSize ≤ s.esp ∧ s.esp < a + 2 ^ s.kernel.heap.mem.scale a)) : ¬ s.StackAllocated L := by
  intro h
  obtain ⟨blocks, list, hwf, a, ha, hlo, hhi, hzero, -⟩ := h hlow
  rw [hwf.tiles.unique hbs] at ha
  exact hno a ha hzero ⟨hlo, hhi⟩

/-- `kill_process` frees the stack it is running on. -/
theorem Sound.release (h : s.Sound L P) {i : Fin maxProcess} (hphase : s.phase = .stopped i)
    (hheld : (s.kernel.procTable i).context.stackBottom ∈ s.stackBottoms)
    (hin : s.InBlock (s.kernel.procTable i).context.stackBottom s.esp) (hs : Step L C s .release s') :
    ¬ s'.StackAllocated L := by
  obtain ⟨a, t, hp, ha, hlo, hhi⟩ := h.block_end (h.held _ hheld) hin
  obtain ⟨u, hcall, hgood, -, -⟩ := h.good.free (K := fun _ _ => False) ha
  have hs' : s.freeStack L = some s' := hs.2
  unfold freeStack at hs'
  rw [hphase] at hs'
  dsimp only at hs'
  rw [hp, hcall, Option.map_some] at hs'
  cases hs'
  have hrep : Represents L u.heap (P.release a t) := hgood.represents
  obtain ⟨bs, hbs, hmem⟩ := hrep.blocks
  have hlower := h.good.represents.stands.valid.tiling.lower (Or.inl ha)
  have hlow : heapLowerBound ≤ s.esp := by omega
  refine not_stackAllocated ?_ hbs ?_
  · exact hlow
  intro b hb hzero hesp
  have hesp' : b + headerSize ≤ s.esp ∧ s.esp < b + 2 ^ u.heap.mem.scale b := hesp
  -- an allocated block is one from before that is not the one freed
  rcases hrep.block_cases ((hmem b).mp hb) with ⟨-, hused⟩ | ⟨hone, -⟩
  · rw [(Pool.release_spec h.good.represents.stands.valid ha).2] at hused
    have hba : b ≠ a := fun he => by rw [he, Function.update_self] at hused; cases hused
    rw [Function.update_of_ne hba] at hused
    have hsep := h.good.represents.stands.valid.tiling.separate (Or.inl hused) (Or.inl ha) hba
    omega
  · have hone' : u.heap.mem.isFree b = 1 := hone
    have hzero' : u.heap.mem.isFree b = 0 := hzero
    omega

/-! ### Runs -/

abbrev Runs (L : Layout) (C : Code) : List (Machine × Event) → Machine → Prop := Run (Booted L) (Step L C)

/-- In a run in which no process gets as far as freeing its stack, the processor is
always on an allocated block, or on the boot stack; and the process that does free
its stack is on it. -/
theorem running_stack_allocated {tr : List (Machine × Event)} (h : Runs L C tr s)
    (hno : ∀ x ∈ tr, x.2 ≠ .release) :
    (s.StackAllocated L ∧ ∀ x ∈ tr, x.1.StackAllocated L) ∧
      ∀ i s', s.phase = .stopped i → (s.kernel.procTable i).context.stackBottom ∈ s.stackBottoms →
        s.InBlock (s.kernel.procTable i).context.stackBottom s.esp → Step L C s .release s' →
          ¬ s'.StackAllocated L := by
  obtain ⟨⟨P, hP⟩, hall⟩ := h.invariant_of (I := fun s => ∃ P, s.Sound L P) (C := fun _ e => e ≠ .release)
    (fun s hs => ⟨_, Sound.booted hs⟩) (fun s e s' ⟨P, hP⟩ he hs => hP.step hs he) hno
  refine ⟨⟨hP.stackAllocated, fun x hx => ?_⟩, fun i s' hphase hheld hin hs => hP.release hphase hheld hin hs⟩
  obtain ⟨P', hP'⟩ := hall x hx
  exact hP'.stackAllocated

/-! ### One process that returns -/

/-- The states a list of events leads through, as far as they are permitted. -/
def exec (L : Layout) (C : Code) (s : Machine) : List Event → Option Machine
  | [] => some s
  | e :: rest => if s.Permits C e then (s.handle L C e).bind fun s => exec L C s rest else none

theorem runs_exec {tr : List (Machine × Event)} (h : Runs L C tr s) {es : List Event}
    (he : exec L C s es = some s') : ∃ tr', Runs L C tr' s' ∧ tr'.map Prod.snd = tr.map Prod.snd ++ es := by
  induction es generalizing tr s with
  | nil => exact ⟨tr, Option.some.inj he ▸ h, (List.append_nil _).symm⟩
  | cons e rest ih =>
    unfold exec at he
    by_cases hp : s.Permits C e
    · rw [if_pos hp, Option.bind_eq_some_iff] at he
      obtain ⟨t, ht, hrest⟩ := he
      obtain ⟨tr', hrun, htr⟩ := ih (h.next ⟨hp, ht⟩) hrest
      exact ⟨tr', hrun, by rw [htr, List.map_append, List.append_assoc]; rfl⟩
    · rw [if_neg hp] at he
      cases he

/-- The kernel set up on memory that is all zero. -/
def atBoot : Machine where
  kernel := {atLoad with heap := ((Heap.initHeap kernelImage Memory.zero heapLowerBound).getD atLoad.heap)}
  live := []
  stackBottoms := []
  esp := 0
  phase := .running

theorem booted_atBoot : Booted kernelImage atBoot := by
  obtain ⟨h, hinit, -⟩ := represents_initHeap kernelImage Memory.zero
  refine ⟨⟨rfl, rfl, rfl⟩, ⟨Memory.zero, ?_⟩, rfl, rfl, by decide, rfl⟩
  unfold atBoot
  rw [hinit, Option.getD_some]

/-- The backstop and a process are created, each on 500 bytes, and the clock ticks. -/
def startUp : List Event :=
  [.allocate 500, .initProcess 0 (heapLowerBound + 9), .allocate 500, .initProcess 0 (heapLowerBound + 521), .tick]

/-- The process returns. -/
def returning : List Event := startUp ++ [.run (heapLowerBound + 1012), .exit, .release]

theorem running_stack_allocated_tick :
    ∃ s : Machine, s.esp = heapLowerBound + 968 ∧ s.StackAllocated kernelImage := by
  have hexec : (exec kernelImage ⟨0x100000, 0x100010⟩ atBoot startUp).any
      (fun s => s.esp = heapLowerBound + 968) = true := by decide +kernel
  obtain ⟨s, hs, hesp⟩ := (Option.any_eq_true _ _).mp hexec
  obtain ⟨tr, hrun, htr⟩ := runs_exec (Run.start booted_atBoot) hs
  have hno : ∀ e ∈ startUp, e ≠ .release := by decide
  refine ⟨s, of_decide_eq_true hesp, (running_stack_allocated hrun fun x hx => ?_).1.1⟩
  apply hno
  rw [← List.nil_append startUp, ← show tr.map Prod.snd = [] ++ startUp from htr]
  exact List.mem_map_of_mem hx

/-- The heap after the process has freed its stack: the stack pointer is in the
second block, which is free. -/
theorem exit_exposes_stack : ∃ tr s, Runs kernelImage ⟨0x100000, 0x100010⟩ tr s ∧
    tr.map Prod.snd = returning ∧ ¬ s.StackAllocated kernelImage := by
  have hexec : (exec kernelImage ⟨0x100000, 0x100010⟩ atBoot returning).any (fun s =>
      heapLowerBound ≤ s.esp ∧
      Blocks s.kernel.heap.mem heapLowerBound
        ([0, 512, 1024, 2048, 4096, 8192, 16384].map (heapLowerBound + ·)) s.kernel.heap.currentBrk ∧
      ∀ a ∈ [0, 512, 1024, 2048, 4096, 8192, 16384].map (heapLowerBound + ·),
        s.kernel.heap.mem.isFree a = 0 →
          ¬ (a + headerSize ≤ s.esp ∧ s.esp < a + 2 ^ s.kernel.heap.mem.scale a)) = true := by
    decide +kernel
  obtain ⟨s, hs, hfinal⟩ := (Option.any_eq_true _ _).mp hexec
  obtain ⟨hlow, hbs, hno⟩ := of_decide_eq_true hfinal
  obtain ⟨tr, hrun, htr⟩ := runs_exec (Run.start booted_atBoot) hs
  exact ⟨tr, s, hrun, htr, not_stackAllocated hlow hbs hno⟩

end Machine
end ShompOS
