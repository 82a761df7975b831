import ShompOS.Elf.Segments
import ShompOS.Process.Stacks
import Mathlib.Data.Finset.Max

/-! What `init_elf` makes of a program's segments.

A byte of the space that the loader does not write is as the last owner of the
block left it, so the image is right if it is right for every content of free
memory (`Alike`). It is exactly if there is one segment and the loader takes
nothing below it: with a second one, the topmost segment ends above all that is
written, since every segment is copied to the start. -/
namespace ShompOS
open Memory Layout Elf

variable {L : Layout} {C : Code} {P : Pool} {data n : Nat}

/-- A used block holds the `n` bytes at `data`. -/
def FileAt (P : Pool) (data n : Nat) : Prop :=
  ∃ a t, data = a + headerSize ∧ P.used a = some t ∧ n + headerSize ≤ 2 ^ t

/-- The headers are those of a program all of whose segments can be copied. -/
theorem WellFormedElf.sized {m : Memory} (hwf : WellFormedElf m data n) : ∀ h ∈ pHeaders m data, Sized h := by
  intro h hh
  refine ⟨fun hl => (hwf.segment h hh hl).2.1, fun ht => ?_⟩
  by_cases hl : h.Load
  · exact (hwf.segment h hh hl).2.2.2
  · have hzero : h.pMemsz = 0 := Nat.eq_zero_of_not_pos fun hpos => ht ⟨hl, hpos⟩
    obtain ⟨i, -, rfl⟩ := List.mem_map.mp hh
    rw [hzero]
    exact load32_lt m _

theorem WellFormedElf.fits {m : Memory} (hwf : WellFormedElf m data n) {room : Nat}
    (hroom : (span (pHeaders m data)).1 ≤ room) : ∀ h ∈ pHeaders m data, Fits n room h := by
  intro h hh
  refine ⟨fun hl => (hwf.segment h hh hl).2.2.1, fun ht => ?_⟩
  have hspan := spanned_span _ hwf.sized
  by_cases hl : h.Load
  · have hlow := hspan.low h hh ht
    have hcover := hspan.cover h hh hl
    omega
  · have hzero : h.pMemsz = 0 := Nat.eq_zero_of_not_pos fun hpos => ht ⟨hl, hpos⟩
    omega

/-- What is in the space, `room` bytes, when the process starts. -/
structure Placed (data : Nat) (headers : List Elf32Phdr) (textSpace room : Nat) (m m' : Memory) : Prop where
  spared : ∀ top, (∀ h ∈ headers, ¬ h.Skipped → h.pMemsz ≤ top) →
    ∀ x, textSpace + top ≤ x → x < textSpace + room → m'.byte x = m.byte x
  image : ∀ h ∈ headers, h.Load → (∀ g ∈ headers, g.Load → g = h) → ∀ j, j < h.pMemsz →
    m'.byte (textSpace + j) = if j < h.pFilesz then m.byte (data + h.pOffset + j) else 0

/-- Two used blocks do not meet. -/
theorem Pool.Valid.used_apart (h : P.Valid) {a b s t x : Nat} (ha : P.used a = some s)
    (hb : P.used b = some t) (hab : a ≠ b) (hlo : a + headerSize ≤ x) (hhi : x < a + 2 ^ s) :
    ¬ (b + headerSize ≤ x ∧ x < b + 2 ^ t) := by
  have hsep := h.tiling.separate (Or.inl ha) (Or.inl hb) hab
  omega

/-- Asking for the program's space leaves the file alone; the space is apart from
it and as it was before. -/
theorem Represents.textSpace {h : Heap} (hr : Represents L h P) (hf : FileAt P data n) (size : Nat) :
    ∃ h₁, h.allocate L size = some (h₁, (P.allocate size).2) ∧ Represents L h₁ (P.allocate size).1 ∧
      SameFile data n h.mem h₁.mem ∧
      ((P.allocate size).2 = 0 ∨ ∃ a t, (P.allocate size).2 = a + headerSize ∧ P.used a = none ∧
        (P.allocate size).1.used a = some t ∧ size + headerSize ≤ 2 ^ t ∧
        Apart data n (a + headerSize) (2 ^ t - headerSize) ∧
        ∀ x, a + headerSize ≤ x → x < a + 2 ^ t → h₁.mem.byte x = h.mem.byte x) := by
  obtain ⟨af, tf, rfl, haf, hfn⟩ := hf
  have haf₁ := Pool.used_allocate hr.stands.valid size haf
  obtain ⟨hv₁, -, ⟨hzero, -⟩ | ⟨a, t, hp, hnone, hfit, hused⟩⟩ := Pool.allocate_spec hr.stands.valid size
  · obtain ⟨h₁, hcall, hrep, hsp⟩ := hr.allocate (R := Payload fun b u => b = af ∧ u = tf) size
    have hbytes := (hsp (Keeps.avoids (by rintro _ _ ⟨rfl, rfl⟩; exact haf₁) hv₁)).2.bytes
    exact ⟨h₁, hcall, hrep, fun x h1 h2 => hbytes x ⟨af, tf, ⟨rfl, rfl⟩, h1, by omega⟩, Or.inl hzero⟩
  have ha : (P.allocate size).1.used a = some t := by rw [hused, Function.update_self]
  have hne : af ≠ a := fun he => by rw [he, hnone] at haf; cases haf
  -- the bytes that matter: the file and the space
  obtain ⟨h₁, hcall, hrep, hsp⟩ := hr.allocate (R := Payload fun b u => (b = af ∧ u = tf) ∨ b = a ∧ u = t) size
  have hK : Keeps (fun b u => (b = af ∧ u = tf) ∨ b = a ∧ u = t) (P.allocate size).1 := by
    rintro b u (⟨rfl, rfl⟩ | ⟨rfl, rfl⟩)
    · exact haf₁
    · exact ha
  have hbytes := (hsp (hK.avoids hv₁)).2.bytes
  have hfup := hv₁.tiling.upper (Or.inl haf₁)
  have haup := hv₁.tiling.upper (Or.inl ha)
  have hsep := hv₁.tiling.separate (Or.inl haf₁) (Or.inl ha) hne
  have htop := hv₁.top
  have hpM := two_pow_pos' maxBlockScale
  have h9 : headerSize = 9 := rfl
  exact ⟨h₁, hcall, hrep, fun x h1 h2 => hbytes x ⟨af, tf, Or.inl ⟨rfl, rfl⟩, h1, by omega⟩,
    Or.inr ⟨a, t, hp, hnone, ha, hfit, ⟨by omega, by omega, by omega⟩,
      fun x h1 h2 => hbytes x ⟨a, t, Or.inr ⟨rfl, rfl⟩, h1, h2⟩⟩⟩

/-- The loader comes through if its two blocks are to be had and no count of bytes
to clear wraps, and then the space holds what the second loop put there. -/
theorem initElf_spec {k : Kernel} (hr : Represents L k.heap P) (hf : FileAt P data n)
    (hwf : WellFormedElf k.heap.mem data n) {size minVaddr : Nat}
    (hspan : span (pHeaders k.heap.mem data) = (size, minVaddr)) :
    ((∃ k₁ pid textSpace v, k.initElf L C data = some (k₁, .started pid textSpace v)) ↔
      (P.allocate size).2 ≠ 0 ∧ ((P.allocate size).1.allocate stackSizeDefault).2 ≠ 0 ∧
        ∀ h ∈ pHeaders k.heap.mem data, Clears h) ∧
    ∀ k₁ pid textSpace v, k.initElf L C data = some (k₁, .started pid textSpace v) →
      textSpace = (P.allocate size).2 ∧ v = minVaddr ∧
        ∃ a t, textSpace = a + headerSize ∧ P.used a = none ∧ (P.allocate size).1.used a = some t ∧
          size + headerSize ≤ 2 ^ t ∧
          Placed data (pHeaders k.heap.mem data) textSpace (2 ^ t - headerSize) k.heap.mem k₁.heap.mem := by
  have hread : ¬ isReadable k.heap.mem data ≠ 0 := not_not.mpr hwf.readable
  have hv₁ := (Pool.allocate_spec hr.stands.valid size).1
  unfold Kernel.initElf
  rw [if_neg hread, hspan]
  dsimp only
  obtain ⟨h₁, hcall, hrep₁, hfile₁, hzero | ⟨a, t, hp, hnone, ha, hfit, hS, hspace₁⟩⟩ := hr.textSpace hf size
  · -- no space
    rw [hcall, Option.bind_some]
    dsimp only
    rw [if_pos hzero]
    exact ⟨⟨fun ⟨_, _, _, _, h⟩ => (nomatch h), fun h => absurd hzero h.1⟩, fun _ _ _ _ h => nomatch h⟩
  have hfileA := hS.file
  have h9 : headerSize = 9 := rfl
  have hwf₁ := hwf.congr hfile₁ (by omega)
  have hheaders := (pHeaders_congr hfile₁ hwf.header (by omega) hwf.table).1
  have hroom : (span (pHeaders h₁.mem data)).1 ≤ 2 ^ t - headerSize := by
    rw [hheaders, hspan]
    dsimp only
    omega
  have hfits := hwf₁.fits hroom
  obtain ⟨hloops, hcopied⟩ := copySegments_spec hS hwf₁.header hwf₁.table hfits
  rw [hheaders] at hloops hcopied hfits
  rw [hcall, Option.bind_some]
  dsimp only
  rw [hp, if_neg (by omega)]
  cases hloop : copySegments h₁.mem data (a + headerSize) with
  | none =>
    rw [hloop] at hloops
    refine ⟨⟨fun ⟨_, _, _, _, h⟩ => (nomatch h), fun h => ?_⟩, fun _ _ _ _ h => nomatch h⟩
    obtain ⟨m, hm⟩ := hloops.mpr h.2.2
    cases hm
  | some m₂ =>
    have hclear := hloops.mp ⟨m₂, hloop⟩
    have hc := hcopied m₂ hloop
    have hrep₂ : Represents L ⟨m₂, h₁.currentBrk⟩ (P.allocate size).1 := by
      refine ⟨hrep₁.stands.congr_payload ha fun x hx => ?_, hrep₁.brk⟩
      exact hc.spared (2 ^ t - headerSize) (fun h hh ht => (hfits h hh).2 ht) x (by omega)
    obtain ⟨h₂, hcall₂, hrep₃, hsp₂⟩ :=
      hrep₂.allocate (R := Payload fun b u => b = a ∧ u = t) stackSizeDefault
    rw [Option.bind_some, hcall₂, Option.bind_some]
    dsimp only
    obtain ⟨hv₂, -, ⟨hzero, -⟩ | ⟨b, u, hp₂, hnone₂, hfit₂, hused₂⟩⟩ := Pool.allocate_spec hv₁ stackSizeDefault
    · -- no stack
      rw [if_pos hzero]
      refine ⟨⟨fun ⟨_, _, _, _, h⟩ => ?_, fun h => absurd hzero h.2.1⟩, fun _ _ _ _ h => ?_⟩ <;>
      · rw [Option.map_eq_some_iff] at h
        obtain ⟨_, -, h⟩ := h
        cases h
    have hb : ((P.allocate size).1.allocate stackSizeDefault).1.used b = some u := by
      rw [hused₂, Function.update_self]
    have ha₂ := Pool.used_allocate hv₁ stackSizeDefault ha
    have hba : b ≠ a := fun he => by rw [he, ha] at hnone₂; cases hnone₂
    have hbytes₂ := (hsp₂ (Keeps.avoids (by rintro _ _ ⟨rfl, rfl⟩; exact ha₂) hv₂)).2.bytes
    rw [hp₂, if_neg (by omega)]
    obtain ⟨k', pid, hinit⟩ := Kernel.initProcess_returns C {k with heap := h₂}
      (wrap (a + headerSize + (h₂.mem.ehdr data).eEntry + (addressSpace - minVaddr))) (b + headerSize)
    have h1000 : stackSizeDefault = 1000 := rfl
    have hrep₄ : Represents L ({k with heap := h₂} : Kernel).heap _ := hrep₃
    have hbytes₃ := (hrep₄.initProcess hb (by omega) hinit).2.1
    rw [hinit, Option.map_some]
    refine ⟨⟨fun _ => ⟨by omega, by omega, hclear⟩, fun _ => ⟨_, _, _, _, rfl⟩⟩, fun _ _ _ _ h => ?_⟩
    cases h
    -- the space is as the second loop left it
    have hspace : ∀ x, a + headerSize ≤ x → x < a + 2 ^ t → k'.heap.mem.byte x = m₂.byte x := by
      intro x hlo hhi
      rw [hbytes₃ x (hv₂.used_apart ha₂ hb hba.symm hlo hhi)]
      exact hbytes₂ x ⟨a, t, ⟨rfl, rfl⟩, hlo, hhi⟩
    refine ⟨rfl, rfl, a, t, rfl, hnone, ha, hfit, fun top htop x h1 h2 => ?_, fun h hh hl hone j hj => ?_⟩
    · rw [hspace x (by omega) (by omega), hc.spared top htop x (by omega)]
      exact hspace₁ x (by omega) (by omega)
    · have hroom' := (hfits h hh).2 hl.taken
      have hoff := (hfits h hh).1 hl
      rw [hspace _ (by omega) (by omega), hc.image h hh hl hone j hj]
      split
      · exact hfile₁ _ (by omega) (by omega)
      · rfl

def Elf.ElfOutcome.isStarted : ElfOutcome → Bool
  | .error => false
  | .started _ _ _ => true

theorem Elf.ElfOutcome.isStarted_iff {o : ElfOutcome} :
    o.isStarted = true ↔ ∃ pid textSpace minVaddr, o = .started pid textSpace minVaddr := by
  cases o with
  | error => exact ⟨fun h => Bool.noConfusion h, fun ⟨_, _, _, h⟩ => nomatch h⟩
  | started pid textSpace minVaddr => exact ⟨fun _ => ⟨_, _, _, rfl⟩, fun _ => rfl⟩

/-! ### Free memory -/

/-- A byte that is neither the allocator's nor any owner's. -/
def Pool.FreeByte (P : Pool) (x : Nat) : Prop :=
  (heapLowerBound ≤ x ∧ ∀ a s, P.Block a s → x < a ∨ a + headerSize ≤ x) ∧
    ∀ a s, P.used a = some s → ¬ (a ≤ x ∧ x < a + 2 ^ s)

/-- Two heaps that differ at most in what free memory holds. -/
def Alike (P : Pool) (h h' : Heap) : Prop :=
  h'.currentBrk = h.currentBrk ∧ ∀ x, ¬ P.FreeByte x → h'.mem.byte x = h.mem.byte x

theorem Alike.represents {h h' : Heap} (hr : Represents L h P) (ha : Alike P h h') : Represents L h' P :=
  ⟨hr.stands.congr (fun _ hx => ⟨ListByte.not_of_le hx.1.1, hx.1.2⟩) ha.2, ha.1.trans hr.brk⟩

theorem Alike.sameFile {h h' : Heap} (ha : Alike P h h') (hf : FileAt P data n) :
    SameFile data n h.mem h'.mem := by
  obtain ⟨a, t, rfl, hat, hn⟩ := hf
  intro x h1 h2
  exact ha.2 x fun hx => hx.2 a t hat ⟨by omega, by omega⟩

/-- Free memory can hold anything. -/
theorem Alike.exists_byte_ne {x : Nat} (hx : P.FreeByte x) (h : Heap) (w : UInt8) :
    ∃ h', Alike P h h' ∧ h'.mem.byte x ≠ w := by
  obtain ⟨b, hb⟩ : ∃ b, b ≠ w := by
    by_cases hw : w = 0
    · exact ⟨1, hw ▸ by decide⟩
    · exact ⟨0, fun he => hw he.symm⟩
  refine ⟨⟨⟨Function.update h.mem.byte x b, h.mem.stores⟩, h.currentBrk⟩, ⟨rfl, fun y hy => ?_⟩, ?_⟩
  · apply Function.update_of_ne
    rintro rfl
    exact hy hx
  · show Function.update h.mem.byte x b x ≠ w
    rw [Function.update_self]
    exact hb

/-- The payload of a block is free memory before the block is given out. -/
theorem Represents.freeByte {h : Heap} (hr : Represents L h P) {size a t x : Nat} (hnone : P.used a = none)
    (ha : (P.allocate size).1.used a = some t) (hlo : a + headerSize ≤ x) (hhi : x < a + 2 ^ t) :
    P.FreeByte x := by
  have hv := hr.stands.valid
  have hv' := (Pool.allocate_spec hv size).1
  have hafter : Avoids L (fun y => y = x) (P.allocate size).1 := by
    apply hv'.avoids
    rintro y rfl
    exact ⟨a, t, Or.inl ha, hlo, hhi⟩
  obtain ⟨h', hcall, hrep, hsp⟩ := hr.allocate (R := fun y => y = x) size
  have hlower := hv'.tiling.lower (Or.inl ha)
  refine ⟨⟨by omega, ((hsp hafter).1 x rfl).2⟩, fun b s hb hx => ?_⟩
  have hba : b ≠ a := fun he => by rw [he, hnone] at hb; cases hb
  have := hv'.tiling.separate (Or.inl (Pool.used_allocate hv size hb)) (Or.inl ha) hba
  omega

theorem FileAt.upper {h : Heap} (hr : Represents L h P) (hf : FileAt P data n) : data + n ≤ addressSpace := by
  obtain ⟨a, t, rfl, hat, hn⟩ := hf
  have hup := hr.stands.valid.tiling.upper (Or.inl hat)
  have htop := hr.stands.valid.top
  have hpM := two_pow_pos' maxBlockScale
  omega

/-! ### When the image is right -/

/-- Every byte of every segment is at its own offset from the lowest address. -/
def ImageRight (headers : List Elf32Phdr) (data textSpace minVaddr : Nat) (m m' : Memory) : Prop :=
  ∀ h ∈ headers, h.Load → ∀ j, j < h.pMemsz →
    m'.byte (textSpace + (h.pVaddr - minVaddr) + j) = if j < h.pFilesz then m.byte (data + h.pOffset + j) else 0

/-- One segment, and no empty entry below it: the loops take those too. -/
def OneSegment (headers : List Elf32Phdr) : Prop :=
  ∃ h, headers.filter (fun g => g.Load) = [h] ∧ ∀ g ∈ headers, g.pMemsz = 0 → h.pVaddr ≤ g.pVaddr

instance (headers : List Elf32Phdr) : Decidable (OneSegment headers) :=
  match hf : headers.filter (fun g => g.Load) with
  | [h] => decidable_of_iff (∀ g ∈ headers, g.pMemsz = 0 → h.pVaddr ≤ g.pVaddr)
      ⟨fun hz => ⟨h, hf, hz⟩, fun ⟨_, hg, hz⟩ => by rw [hf] at hg; cases hg; exact hz⟩
  | [] => isFalse fun ⟨_, hg, _⟩ => by rw [hf] at hg; cases hg
  | _ :: _ :: _ => isFalse fun ⟨_, hg, _⟩ => by rw [hf] at hg; cases hg

section Headers
variable {m : Memory} {size v : Nat}

theorem WellFormedElf.disjoint_of_ne (hwf : WellFormedElf m data n) {h g : Elf32Phdr}
    (hh : h ∈ pHeaders m data) (hg : g ∈ pHeaders m data) (hne : h ≠ g) (hl : h.Load) (hgl : g.Load) :
    h.pVaddr + h.pMemsz ≤ g.pVaddr ∨ g.pVaddr + g.pMemsz ≤ h.pVaddr := by
  have hsymm : Std.Symm fun h g : Elf32Phdr => h.Load → g.Load →
      h.pVaddr + h.pMemsz ≤ g.pVaddr ∨ g.pVaddr + g.pMemsz ≤ h.pVaddr :=
    ⟨fun _ _ hr h1 h2 => (hr h2 h1).symm⟩
  exact hwf.disjoint.forall hh hg hne hl hgl

/-- A lone segment above nothing is at the base. -/
theorem Spanned.base (hwf : WellFormedElf m data n) (hspan : Spanned (pHeaders m data) size v)
    {h : Elf32Phdr} (hh : h ∈ pHeaders m data) (hl : h.Load)
    (hone : ∀ g ∈ pHeaders m data, g.Load → g = h)
    (hzero : ∀ g ∈ pHeaders m data, g.pMemsz = 0 → h.pVaddr ≤ g.pVaddr) : v = h.pVaddr := by
  have hlow := hspan.low h hh hl.taken
  obtain ⟨-, hpos, -, hend⟩ := hwf.segment h hh hl
  rcases hspan.attained with he | ⟨g, hg, htaken, he⟩
  · omega
  · by_cases hgl : g.Load
    · rw [← he, hone g hg hgl]
    · have hgz : g.pMemsz = 0 := Nat.eq_zero_of_not_pos fun hgp => htaken ⟨hgl, hgp⟩
      have := hzero g hg hgz
      omega

/-- With a segment above the base, the topmost segment ends above the size of any. -/
theorem Spanned.topmost (hwf : WellFormedElf m data n) (hspan : Spanned (pHeaders m data) size v)
    {l : Elf32Phdr} (hl : l ∈ pHeaders m data) (hload : l.Load) (habove : v < l.pVaddr) :
    ∃ h ∈ pHeaders m data, h.Load ∧
      ∀ g ∈ pHeaders m data, ¬ g.Skipped → g.pMemsz ≤ h.pVaddr - v + (h.pMemsz - 1) := by
  have hmem : ∀ g, g ∈ ((pHeaders m data).filter (fun g => g.Load)).toFinset ↔ g ∈ pHeaders m data ∧ g.Load := by
    intro g
    rw [List.mem_toFinset, List.mem_filter, decide_eq_true_iff]
  obtain ⟨h, hh, hmax⟩ := Finset.exists_max_image ((pHeaders m data).filter (fun g => g.Load)).toFinset
    (fun g => g.pVaddr + g.pMemsz) ⟨l, (hmem l).mpr ⟨hl, hload⟩⟩
  obtain ⟨hin, hhl⟩ := (hmem h).mp hh
  refine ⟨h, hin, hhl, fun g hg htaken => ?_⟩
  have hpos := (hwf.segment h hin hhl).2.1
  -- the topmost segment is not at the base either
  have hup : v < h.pVaddr := by
    by_cases he : l = h
    · rw [← he]
      exact habove
    · have hlpos := (hwf.segment l hl hload).2.1
      have hle := hmax l ((hmem l).mpr ⟨hl, hload⟩)
      have := hwf.disjoint_of_ne hl hin he hload hhl
      omega
  by_cases hgl : g.Load
  · by_cases he : g = h
    · rw [he]
      omega
    · have hgpos := (hwf.segment g hg hgl).2.1
      have hle := hmax g ((hmem g).mpr ⟨hg, hgl⟩)
      have hlow := hspan.low g hg htaken
      have := hwf.disjoint_of_ne hg hin he hgl hhl
      omega
  · rw [Nat.eq_zero_of_not_pos fun hgp => htaken ⟨hgl, hgp⟩]
    exact Nat.zero_le _

/-- Segments that all lie at the base are one. -/
theorem Spanned.oneSegment (hwf : WellFormedElf m data n) (hspan : Spanned (pHeaders m data) size v)
    (hbase : ∀ h ∈ pHeaders m data, h.Load → h.pVaddr = v) : OneSegment (pHeaders m data) := by
  obtain ⟨l, hl, hload⟩ := hwf.load
  have hin : ∀ g, g ∈ (pHeaders m data).filter (fun g => g.Load) → g ∈ pHeaders m data ∧ g.Load := by
    intro g hg
    rw [List.mem_filter, decide_eq_true_iff] at hg
    exact hg
  have hdis := hwf.disjoint.filter (fun g => g.Load)
  cases hf : (pHeaders m data).filter (fun g => g.Load) with
  | nil =>
    have hmem : l ∈ (pHeaders m data).filter (fun g => g.Load) := List.mem_filter.mpr ⟨hl, decide_eq_true hload⟩
    rw [hf] at hmem
    exact (List.not_mem_nil hmem).elim
  | cons h rest =>
    rw [hf] at hin hdis
    obtain ⟨hh, hhl⟩ := hin h (List.mem_cons_self ..)
    cases rest with
    | nil =>
      refine ⟨h, hf, fun g hg hz => ?_⟩
      rw [hbase h hh hhl]
      exact hspan.low g hg fun hs => by have := hs.2; omega
    | cons g rest =>
      obtain ⟨hg, hgl⟩ := hin g (List.mem_cons_of_mem _ (List.mem_cons_self ..))
      have hhpos := (hwf.segment h hh hhl).2.1
      have hgpos := (hwf.segment g hg hgl).2.1
      have := (List.pairwise_cons.mp hdis).1 g (List.mem_cons_self ..) hhl hgl
      have := hbase h hh hhl
      have := hbase g hg hgl
      omega

end Headers

/-- If the loader succeeds, the image is right whatever free memory holds exactly
if there is one segment and no empty entry below it. -/
theorem initElf_image_iff {k : Kernel} (hr : Represents L k.heap P) (hf : FileAt P data n)
    (hwf : WellFormedElf k.heap.mem data n)
    (hok : ∃ k' pid textSpace minVaddr, k.initElf L C data = some (k', .started pid textSpace minVaddr)) :
    (∀ h', Alike P k.heap h' → ∀ k' pid textSpace minVaddr,
      ({k with heap := h'} : Kernel).initElf L C data = some (k', .started pid textSpace minVaddr) →
        ImageRight (pHeaders h'.mem data) data textSpace minVaddr h'.mem k'.heap.mem) ↔
      OneSegment (pHeaders k.heap.mem data) := by
  obtain ⟨size, v, hspan⟩ : ∃ size v, span (pHeaders k.heap.mem data) = (size, v) := ⟨_, _, rfl⟩
  have hspanned := spanned_span _ hwf.sized
  rw [hspan] at hspanned
  dsimp only at hspanned
  have hA := hf.upper hr
  -- the same holds of the loader whatever free memory holds
  have hspec : ∀ h', Alike P k.heap h' →
      pHeaders h'.mem data = pHeaders k.heap.mem data ∧ WellFormedElf h'.mem data n ∧
      Represents L h' P := fun h' ha =>
    ⟨(pHeaders_congr (ha.sameFile hf) hwf.header hA hwf.table).1, hwf.congr (ha.sameFile hf) hA,
      ha.represents hr⟩
  constructor
  · intro hright
    refine hspanned.oneSegment hwf fun l hl hload => ?_
    by_contra hne
    have hlow := hspanned.low l hl hload.taken
    obtain ⟨h, hh, hhl, hsizes⟩ := hspanned.topmost hwf hl hload (by omega)
    have hpos := (hwf.segment h hh hhl).2.1
    have hcover := hspanned.cover h hh hhl
    have hhlow := hspanned.low h hh hhl.taken
    obtain ⟨hiff, hruns⟩ := initElf_spec (C := C) hr hf hwf hspan
    obtain ⟨k', pid, textSpace, v', hrun⟩ := hok
    obtain ⟨htext, -, a, t, hta, hnone, ha, hfit, -⟩ := hruns _ _ _ _ hrun
    have h9 : headerSize = 9 := rfl
    -- its last byte is free memory, and no segment is copied there
    have hfree := hr.freeByte (x := textSpace + (h.pVaddr - v + (h.pMemsz - 1))) hnone ha (by omega) (by omega)
    generalize hx : textSpace + (h.pVaddr - v + (h.pMemsz - 1)) = x at hfree
    obtain ⟨h', halike, hb⟩ := Alike.exists_byte_ne hfree k.heap (if h.pMemsz - 1 < h.pFilesz then
      k.heap.mem.byte (data + h.pOffset + (h.pMemsz - 1)) else 0)
    obtain ⟨hheaders, hwf', hr'⟩ := hspec _ halike
    have hspan' := hspan
    rw [← hheaders] at hspan'
    obtain ⟨hiff', hruns'⟩ := initElf_spec (C := C) (k := {k with heap := h'}) hr' hf hwf' hspan'
    dsimp only at hiff' hruns'
    rw [hheaders] at hiff'
    obtain ⟨k₁, pid₁, textSpace₁, v₁, hrun₁⟩ := hiff'.mpr (hiff.mp ⟨k', pid, textSpace, v', hrun⟩)
    obtain ⟨htext₁, rfl, a₁, t₁, hta₁, -, -, hfit₁, hplaced⟩ := hruns' _ _ _ _ hrun₁
    have hspace : textSpace₁ = textSpace := htext₁.trans htext.symm
    rw [hspace] at hta₁ hplaced hrun₁
    have hwrong := hright _ halike _ _ _ _ hrun₁ h (hheaders.symm ▸ hh) hhl (h.pMemsz - 1) (by omega)
    rw [hheaders] at hplaced
    rw [Nat.add_assoc, hx, hplaced.spared _ hsizes x (by omega) (by omega)] at hwrong
    apply hb
    rw [hwrong]
    have hoff := (hwf.segment h hh hhl).2.2.1
    split
    · exact halike.sameFile hf _ (by omega) (by omega)
    · rfl
  · rintro ⟨h, hfilter, hzero⟩ h' ha k' pid textSpace minVaddr hrun
    have hone : ∀ g, g ∈ pHeaders k.heap.mem data ∧ g.Load ↔ g = h := by
      intro g
      rw [← List.mem_singleton, ← hfilter, List.mem_filter, decide_eq_true_iff]
    obtain ⟨hh, hl⟩ := (hone h).mpr rfl
    obtain ⟨hheaders, hwf', hr'⟩ := hspec h' ha
    have hspan' := hspan
    rw [← hheaders] at hspan'
    obtain ⟨-, rfl, a, t, rfl, -, -, -, hplaced⟩ :=
      (initElf_spec (k := {k with heap := h'}) hr' hf hwf' hspan').2 _ _ _ _ hrun
    have hbase := hspanned.base hwf hh hl (fun g hg hgl => (hone g).mp ⟨hg, hgl⟩) hzero
    intro g hg hgl j hj
    rw [hheaders] at hg hplaced
    rw [(hone g).mp ⟨hg, hgl⟩] at hj ⊢
    rw [hbase, Nat.sub_self, Nat.add_zero]
    exact hplaced.image h hh hl (fun g hg hgl => (hone g).mp ⟨hg, hgl⟩) j hj

/-! ### Two programs -/

namespace Elf

def half (v : Nat) : List UInt8 := [.ofNat v, .ofNat (v / 2 ^ 8)]

def word (v : Nat) : List UInt8 := half v ++ half (v / 2 ^ 16)

def programHeader (offset vaddr filesz memsz : Nat) : List UInt8 :=
  word programTypeLoad ++ word offset ++ word vaddr ++ word vaddr ++ word filesz ++ word memsz ++ word 7 ++ word 4

def elfHeader (entry phnum : Nat) : List UInt8 :=
  [0x7F, 0x45, 0x4C, 0x46, .ofNat elfclass32, .ofNat eLittleEndian, 1, 0, 0, 0, 0, 0, 0, 0, 0, 0] ++
    half eTypeExec ++ half eMachine386 ++ word 1 ++ word entry ++ word 52 ++ word 0 ++ word 0 ++
    half 52 ++ half 32 ++ half phnum ++ half 0 ++ half 0 ++ half 0

/-- Four bytes of code, and four of data that is all zero. -/
def oneSegment : List UInt8 :=
  elfHeader 0x1000 1 ++ programHeader 84 0x1000 4 8 ++ word 0xC3C3C3C3

/-- Four bytes of code, and four of data 16 bytes above. -/
def twoSegments : List UInt8 :=
  elfHeader 0x1000 2 ++ programHeader 116 0x1000 4 4 ++ programHeader 120 0x1010 4 4 ++
    word 0xC3C3C3C3 ++ word 0x44434241

end Elf

def Memory.put (m : Memory) (data : Nat) (file : List UInt8) : Memory :=
  ⟨fun x => if data ≤ x ∧ x < data + file.length then file.getD (x - data) 0 else m.byte x, m.stores⟩

/-- A kernel that holds a file, and where. -/
def holding (file : List UInt8) : Kernel × Nat :=
  ((Heap.initHeap kernelImage Memory.zero heapLowerBound).bind fun h => h.allocate kernelImage file.length).elim
    (Kernel.atLoad, 0) fun (h, data) => ({Kernel.atLoad with heap := ⟨h.mem.put data file, h.currentBrk⟩}, data)

theorem represents_holding (file : List UInt8) (hdata : (holding file).2 ≠ 0) :
    ∃ P, Represents kernelImage (holding file).1.heap P ∧ FileAt P (holding file).2 file.length := by
  obtain ⟨h, hinit, hr⟩ := represents_initHeap kernelImage Memory.zero
  obtain ⟨h', hcall, hr', -⟩ := hr.allocate (R := fun _ => False) file.length
  have he : holding file =
      ({Kernel.atLoad with heap := ⟨h'.mem.put (Pool.initial.allocate file.length).2 file, h'.currentBrk⟩},
        (Pool.initial.allocate file.length).2) := by
    unfold holding
    rw [hinit, Option.bind_some, hcall]
    rfl
  rw [he] at hdata ⊢
  obtain ⟨-, -, ⟨hzero, -⟩ | ⟨a, t, hp, -, hfit, hused⟩⟩ := Pool.allocate_spec hr.stands.valid file.length
  · exact absurd hzero hdata
  · have ha : (Pool.initial.allocate file.length).1.used a = some t := by rw [hused, Function.update_self]
    refine ⟨_, ⟨hr'.stands.congr_payload ha fun x hx => if_neg ?_, hr'.brk⟩, a, t, hp, ha, hfit⟩
    rw [hp]
    omega

theorem wellFormed_oneSegment :
    WellFormedElf (holding oneSegment).1.heap.mem (holding oneSegment).2 oneSegment.length :=
  ⟨by decide +kernel, by decide, by decide +kernel, by decide +kernel, by decide +kernel, by decide +kernel,
    by decide +kernel, by decide +kernel⟩

/-- The image of the first is right, and stays so whatever free memory holds. -/
theorem initElf_image_iff_oneSegment : ∃ (k : Kernel) (data : Nat), OneSegment (pHeaders k.heap.mem data) ∧ ∃ P,
    ∀ h', Alike P k.heap h' → ∀ k' pid textSpace minVaddr,
      ({k with heap := h'} : Kernel).initElf kernelImage ⟨0x100000, 0x100010⟩ data =
          some (k', .started pid textSpace minVaddr) →
        ImageRight (pHeaders h'.mem data) data textSpace minVaddr h'.mem k'.heap.mem := by
  obtain ⟨P, hr, hf⟩ := represents_holding oneSegment (by decide +kernel)
  have hone : OneSegment (pHeaders (holding oneSegment).1.heap.mem (holding oneSegment).2) := by decide +kernel
  refine ⟨_, _, hone, P, (initElf_image_iff hr hf wellFormed_oneSegment ?_).mpr hone⟩
  have hrun : ((holding oneSegment).1.initElf kernelImage ⟨0x100000, 0x100010⟩ (holding oneSegment).2).any
      (fun r => r.2.isStarted) = true := by decide +kernel
  obtain ⟨⟨k', out⟩, hrun, hstarted⟩ := (Option.any_eq_true _ _).mp hrun
  obtain ⟨pid, textSpace, minVaddr, rfl⟩ := ElfOutcome.isStarted_iff.mp hstarted
  exact ⟨_, _, _, _, hrun⟩

theorem wellFormed_twoSegments :
    WellFormedElf (holding twoSegments).1.heap.mem (holding twoSegments).2 twoSegments.length :=
  ⟨by decide +kernel, by decide +kernel, by decide +kernel, by decide +kernel, by decide +kernel, by decide +kernel,
    by decide +kernel, by decide +kernel⟩

/-- The second segment's first byte is not where the code expects it. -/
theorem second_segment_misplaced : ∃ (k : Kernel) (P : Pool) (data n : Nat), Represents kernelImage k.heap P ∧
    FileAt P data n ∧
    WellFormedElf k.heap.mem data n ∧ ∃ (k' : Kernel) (pid textSpace minVaddr : Nat),
      k.initElf kernelImage ⟨0x100000, 0x100010⟩ data = some (k', .started pid textSpace minVaddr) ∧
        ¬ ImageRight (pHeaders k.heap.mem data) data textSpace minVaddr k.heap.mem k'.heap.mem := by
  obtain ⟨P, hr, hf⟩ := represents_holding twoSegments (by decide +kernel)
  refine ⟨_, P, _, _, hr, hf, wellFormed_twoSegments, ?_⟩
  have hrun : ((holding twoSegments).1.initElf kernelImage ⟨0x100000, 0x100010⟩ (holding twoSegments).2).any
      (fun (k', out) => match out with
        | .error => false
        | .started _ textSpace minVaddr =>
          decide (k'.heap.mem.byte (textSpace + (0x1010 - minVaddr) + 0) ≠ 0x41)) = true := by decide +kernel
  obtain ⟨⟨k', out⟩, hrun, hbyte⟩ := (Option.any_eq_true _ _).mp hrun
  cases out with
  | error => exact Bool.noConfusion hbyte
  | started pid textSpace minVaddr =>
    refine ⟨k', pid, textSpace, minVaddr, hrun, fun hright => of_decide_eq_true hbyte ?_⟩
    have hmem : (⟨programTypeLoad, 120, 0x1010, 4, 4⟩ : Elf32Phdr) ∈
        pHeaders (holding twoSegments).1.heap.mem (holding twoSegments).2 := by decide +kernel
    have hfile : (holding twoSegments).1.heap.mem.byte ((holding twoSegments).2 + 120 + 0) = 0x41 := by
      decide +kernel
    have hwant := hright _ hmem rfl 0 (Nat.succ_pos 3)
    dsimp only at hwant
    rw [if_pos (Nat.succ_pos 3), hfile] at hwant
    exact hwant

end ShompOS
