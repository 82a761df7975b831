import ShompOS.Elf.Loader
import Mathlib.Data.List.Induction

/-! The two loops of the ELF loader.

The first finds a base and a span that hold every segment (`Spanned`). The second
copies each segment to the start of the space, whatever its address (`Copied`): it
writes nothing above the largest segment's size, and of several segments leaves
the last one. Neither writes to the file they read the headers from. -/
namespace ShompOS
open Memory Elf

/-! ### Reading the file -/

/-- `m'` has the same `n` bytes at `data`. -/
def SameFile (data n : Nat) (m m' : Memory) : Prop :=
  ∀ x, data ≤ x → x < data + n → m'.byte x = m.byte x

theorem SameFile.trans {data n : Nat} {m₁ m₂ m₃ : Memory} (h : SameFile data n m₁ m₂)
    (h' : SameFile data n m₂ m₃) : SameFile data n m₁ m₃ :=
  fun x h1 h2 => (h' x h1 h2).trans (h x h1 h2)

theorem ehdr_congr {data n : Nat} {m m' : Memory} (h : SameFile data n m m') (hn : 52 ≤ n)
    (hA : data + n ≤ addressSpace) :
    (∀ i, i < 16 → (m'.ehdr data).eIdent i = (m.ehdr data).eIdent i) ∧
      (m'.ehdr data).eType = (m.ehdr data).eType ∧ (m'.ehdr data).eMachine = (m.ehdr data).eMachine ∧
      (m'.ehdr data).eEntry = (m.ehdr data).eEntry ∧ (m'.ehdr data).ePhoff = (m.ehdr data).ePhoff ∧
      (m'.ehdr data).ePhentsize = (m.ehdr data).ePhentsize ∧
      (m'.ehdr data).ePhnum = (m.ehdr data).ePhnum := by
  have h16 : ∀ d, d + 2 ≤ 52 → m'.load16 (wrap (data + d)) = m.load16 (wrap (data + d)) := by
    intro d hd
    rw [wrap_eq (by omega)]
    exact load16_congr (by omega) fun x h1 h2 => h x (by omega) (by omega)
  have h32 : ∀ d, d + 4 ≤ 52 → m'.load32 (wrap (data + d)) = m.load32 (wrap (data + d)) := by
    intro d hd
    rw [wrap_eq (by omega)]
    exact load32_congr (by omega) fun x h1 h2 => h x (by omega) (by omega)
  refine ⟨fun i hi => ?_, h16 16 (by omega), h16 18 (by omega), h32 24 (by omega), h32 28 (by omega),
    h16 42 (by omega), h16 44 (by omega)⟩
  show m'.load8 (wrap (data + i)) = m.load8 (wrap (data + i))
  rw [wrap_eq (by omega)]
  exact load8_congr (h _ (by omega) (by omega))

theorem phdr_congr {data n a : Nat} {m m' : Memory} (h : SameFile data n m m') (hlo : data ≤ a)
    (hhi : a + 32 ≤ data + n) (hA : data + n ≤ addressSpace) : m'.phdr a = m.phdr a := by
  have h32 : ∀ d, d + 4 ≤ 32 → m'.load32 (wrap (a + d)) = m.load32 (wrap (a + d)) := by
    intro d hd
    rw [wrap_eq (by omega)]
    exact load32_congr (by omega) fun x h1 h2 => h x (by omega) (by omega)
  have h0 : m'.load32 a = m.load32 a :=
    load32_congr (by omega) fun x h1 h2 => h x (by omega) (by omega)
  unfold Memory.phdr
  rw [h0, h32 4 (by omega), h32 8 (by omega), h32 16 (by omega), h32 20 (by omega)]

/-- A 32-bit little-endian executable of `n` bytes at `data`. -/
structure WellFormedElf (m : Memory) (data n : Nat) : Prop where
  readable : isReadable m data = 0
  header : 52 ≤ n
  phentsize : (m.ehdr data).ePhentsize = 32
  table : (m.ehdr data).ePhoff + 32 * (m.ehdr data).ePhnum ≤ n
  load : ∃ h ∈ pHeaders m data, h.Load
  segment : ∀ h ∈ pHeaders m data, h.Load → h.pFilesz ≤ h.pMemsz ∧ 0 < h.pMemsz ∧
    h.pOffset + h.pFilesz ≤ n ∧ h.pVaddr + h.pMemsz < addressSpace
  disjoint : (pHeaders m data).Pairwise fun h g => h.Load → g.Load →
    h.pVaddr + h.pMemsz ≤ g.pVaddr ∨ g.pVaddr + g.pMemsz ≤ h.pVaddr
  extent : ∀ h ∈ pHeaders m data, ∀ g ∈ pHeaders m data, h.Load → g.Load →
    h.pVaddr + h.pMemsz ≤ g.pVaddr + 32759

section File
variable {m m' : Memory} {data n : Nat}

theorem pHeader_range (hA : data + n ≤ addressSpace)
    (htable : (m.ehdr data).ePhoff + 32 * (m.ehdr data).ePhnum ≤ n) {i : Nat}
    (hi : i < (m.ehdr data).ePhnum) :
    data ≤ pHeader m data i ∧ pHeader m data i + 32 ≤ data + n := by
  unfold pHeader
  rw [wrap_eq (by omega)]
  omega

theorem pHeaders_congr (h : SameFile data n m m') (hn : 52 ≤ n) (hA : data + n ≤ addressSpace)
    (htable : (m.ehdr data).ePhoff + 32 * (m.ehdr data).ePhnum ≤ n) :
    pHeaders m' data = pHeaders m data ∧
      ∀ i, i < (m.ehdr data).ePhnum → m'.phdr (pHeader m' data i) = m.phdr (pHeader m data i) := by
  obtain ⟨-, -, -, -, hoff, -, hnum⟩ := ehdr_congr h hn hA
  have hround : ∀ i, i < (m.ehdr data).ePhnum → m'.phdr (pHeader m' data i) = m.phdr (pHeader m data i) := by
    intro i hi
    obtain ⟨hlo, hhi⟩ := pHeader_range hA htable hi
    have hsame : pHeader m' data i = pHeader m data i := by
      unfold pHeader
      rw [hoff]
    rw [hsame]
    exact phdr_congr h hlo hhi hA
  refine ⟨?_, hround⟩
  unfold pHeaders
  rw [hnum]
  exact List.map_congr_left fun i hi => hround i (List.mem_range.mp hi)

theorem isReadable_congr (h : SameFile data n m m') (hn : 52 ≤ n) (hA : data + n ≤ addressSpace) :
    isReadable m' data = isReadable m data := by
  obtain ⟨hident, htype, hmachine, -⟩ := ehdr_congr h hn hA
  unfold isReadable
  simp only [hident 0 (by omega), hident 1 (by omega), hident 2 (by omega), hident 3 (by omega),
    hident 4 (by omega), hident 5 (by omega), htype, hmachine]

theorem WellFormedElf.congr (hwf : WellFormedElf m data n) (h : SameFile data n m m')
    (hA : data + n ≤ addressSpace) : WellFormedElf m' data n := by
  obtain ⟨-, -, -, -, hoff, hentsize, hnum⟩ := ehdr_congr h hwf.header hA
  have hheaders := (pHeaders_congr h hwf.header hA hwf.table).1
  refine ⟨?_, hwf.header, ?_, ?_, ?_, ?_, ?_, ?_⟩
  · rw [isReadable_congr h hwf.header hA]
    exact hwf.readable
  · rw [hentsize]
    exact hwf.phentsize
  · rw [hoff, hnum]
    exact hwf.table
  · rw [hheaders]
    exact hwf.load
  · rw [hheaders]
    exact hwf.segment
  · rw [hheaders]
    exact hwf.disjoint
  · rw [hheaders]
    exact hwf.extent

end File

/-! ### The first loop -/

/-- Every header a loop takes ends at a 32-bit address, and segments are not empty. -/
def Sized (header : Elf32Phdr) : Prop :=
  (header.Load → 0 < header.pMemsz) ∧ (¬ header.Skipped → header.pVaddr + header.pMemsz < addressSpace)

instance (header : Elf32Phdr) : Decidable (Sized header) :=
  inferInstanceAs (Decidable
    ((header.Load → 0 < header.pMemsz) ∧ (¬ header.Skipped → header.pVaddr + header.pMemsz < addressSpace)))

/-- `size` and `min_vaddr` after the headers `hs`. -/
structure Spanned (hs : List Elf32Phdr) (size minVaddr : Nat) : Prop where
  low : ∀ h ∈ hs, ¬ h.Skipped → minVaddr ≤ h.pVaddr
  cover : ∀ h ∈ hs, h.Load → h.pVaddr + h.pMemsz ≤ minVaddr + size
  top : minVaddr + size < addressSpace
  attained : minVaddr = addressSpace - 1 ∨ ∃ h ∈ hs, ¬ h.Skipped ∧ h.pVaddr = minVaddr

theorem Elf32Phdr.Load.taken {h : Elf32Phdr} (hl : h.Load) : ¬ h.Skipped := fun hs => hs.1 hl

/-- The span can only grow, and its base only go down. -/
theorem Spanned.extend {hs : List Elf32Phdr} {size minVaddr size' minVaddr' : Nat} {h : Elf32Phdr}
    (hst : Spanned hs size minVaddr) (hlow : minVaddr' ≤ minVaddr) (hh : minVaddr' ≤ h.pVaddr)
    (hcover : ∀ g ∈ hs, g.Load → g.pVaddr + g.pMemsz ≤ minVaddr' + size')
    (hend : h.pVaddr + h.pMemsz ≤ minVaddr' + size') (htop : minVaddr' + size' < addressSpace)
    (hat : minVaddr' = minVaddr ∨ ¬ h.Skipped ∧ h.pVaddr = minVaddr') :
    Spanned (hs ++ [h]) size' minVaddr' := by
  refine ⟨fun g hg hgt => ?_, fun g hg hgl => ?_, htop, ?_⟩
  · rcases List.mem_append.mp hg with hg | hg
    · exact hlow.trans (hst.low g hg hgt)
    · rw [List.mem_singleton.mp hg]
      exact hh
  · rcases List.mem_append.mp hg with hg | hg
    · exact hcover g hg hgl
    · rw [List.mem_singleton.mp hg]
      exact hend
  · rcases hat with he | hat
    · rw [he]
      apply hst.attained.imp_right
      rintro ⟨g, hg, hgs⟩
      exact ⟨g, List.mem_append_left _ hg, hgs⟩
    · exact Or.inr ⟨h, List.mem_append_right _ (List.mem_singleton_self h), hat⟩

theorem Spanned.round {hs : List Elf32Phdr} {size minVaddr : Nat} {h : Elf32Phdr}
    (hst : Spanned hs size minVaddr) (hsized : ∀ g ∈ hs ++ [h], Sized g) :
    Spanned (hs ++ [h]) (spanRound (size, minVaddr) h).1 (spanRound (size, minVaddr) h).2 := by
  have htop := hst.top
  unfold spanRound
  dsimp only
  by_cases hskip : h.Skipped
  · rw [if_pos hskip]
    refine ⟨fun g hg hgt => ?_, fun g hg hgl => ?_, htop, ?_⟩
    · rcases List.mem_append.mp hg with hg | hg
      · exact hst.low g hg hgt
      · rw [List.mem_singleton.mp hg] at hgt
        exact absurd hskip hgt
    · rcases List.mem_append.mp hg with hg | hg
      · exact hst.cover g hg hgl
      · rw [List.mem_singleton.mp hg] at hgl
        exact absurd hskip hgl.taken
    · apply hst.attained.imp_right
      rintro ⟨g, hg, hgs⟩
      exact ⟨g, List.mem_append_left _ hg, hgs⟩
  · rw [if_neg hskip]
    have hbound := (hsized h (List.mem_append_right _ (List.mem_singleton_self h))).2 hskip
    -- what the first part makes of the two
    obtain ⟨size₁, min₁, he, hle, hhle, hcover, htop₁, hat⟩ : ∃ size₁ min₁,
        (if h.pVaddr < minVaddr then
          (if size > 0 then wrap (size + (minVaddr - h.pVaddr)) else h.pMemsz, h.pVaddr)
          else (size, minVaddr)) = (size₁, min₁) ∧ min₁ ≤ minVaddr ∧ min₁ ≤ h.pVaddr ∧
        (∀ g ∈ hs, g.Load → g.pVaddr + g.pMemsz ≤ min₁ + size₁) ∧ min₁ + size₁ < addressSpace ∧
        (min₁ = minVaddr ∨ ¬ h.Skipped ∧ h.pVaddr = min₁) := by
      by_cases hlt : h.pVaddr < minVaddr
      · rw [if_pos hlt]
        by_cases hpos : size > 0
        · rw [if_pos hpos, wrap_eq (by omega)]
          refine ⟨_, _, rfl, by omega, by omega, fun g hg hgl => ?_, by omega, Or.inr ⟨hskip, rfl⟩⟩
          have := hst.cover g hg hgl
          omega
        · rw [if_neg hpos]
          refine ⟨_, _, rfl, by omega, by omega, fun g hg hgl => ?_, by omega, Or.inr ⟨hskip, rfl⟩⟩
          -- a span of 0 holds no segment
          have hpos' := (hsized g (List.mem_append_left _ hg)).1 hgl
          have hlow := hst.low g hg hgl.taken
          have := hst.cover g hg hgl
          omega
      · rw [if_neg hlt]
        exact ⟨_, _, rfl, by omega, by omega, hst.cover, htop, Or.inl rfl⟩
    rw [he]
    dsimp only
    rw [wrap_eq hbound, wrap_eq htop₁]
    by_cases hgt : h.pVaddr + h.pMemsz > min₁ + size₁
    · rw [if_pos hgt, wrap_sub (by omega) (by omega)]
      refine hst.extend hle hhle (fun g hg hgl => ?_) (by omega) (by omega) hat
      have := hcover g hg hgl
      omega
    · rw [if_neg hgt]
      exact hst.extend hle hhle hcover (by omega) htop₁ hat

theorem spanned_span (hs : List Elf32Phdr) (hsized : ∀ h ∈ hs, Sized h) :
    Spanned hs (span hs).1 (span hs).2 := by
  induction hs using List.reverseRecOn with
  | nil =>
    have hA : addressSpace - 1 < addressSpace := by decide
    exact ⟨fun h hh => (List.not_mem_nil hh).elim, fun h hh => (List.not_mem_nil hh).elim, hA, Or.inl rfl⟩
  | append_singleton hs h ih =>
    have hfront := ih fun g hg => hsized g (List.mem_append_left _ hg)
    unfold span at hfront ⊢
    rw [List.foldl_append]
    exact hfront.round hsized

/-! ### The second loop -/

/-- The space for the program is apart from the file. -/
structure Apart (data n textSpace room : Nat) : Prop where
  apart : textSpace + room ≤ data ∨ data + n ≤ textSpace
  text : textSpace + room < addressSpace
  file : data + n < addressSpace

/-- A segment lies in the file and fits into the space. -/
def Fits (n room : Nat) (header : Elf32Phdr) : Prop :=
  (header.Load → header.pOffset + header.pFilesz ≤ n) ∧ (¬ header.Skipped → header.pMemsz ≤ room)

/-- Its count of bytes to clear does not wrap. -/
def Clears (header : Elf32Phdr) : Prop := ¬ header.Skipped → header.pFilesz ≤ header.pMemsz

section Copy
variable {m m' : Memory} {data n textSpace room : Nat}

/-- A segment is copied to the start of the space. -/
theorem copyRound_spec (hS : Apart data n textSpace room) {i : Nat}
    (hskip : ¬ (m.phdr (pHeader m data i)).Skipped)
    (hle : (m.phdr (pHeader m data i)).pFilesz ≤ (m.phdr (pHeader m data i)).pMemsz)
    (hfit : Fits n room (m.phdr (pHeader m data i))) :
    ∃ m', copyRound data textSpace m i = some m' ∧ ∀ x, m'.byte x =
      if textSpace ≤ x ∧ x < textSpace + (m.phdr (pHeader m data i)).pMemsz then
        if x - textSpace < (m.phdr (pHeader m data i)).pFilesz then
          m.byte (data + (m.phdr (pHeader m data i)).pOffset + (x - textSpace))
        else 0
      else m.byte x := by
  unfold copyRound
  dsimp only
  generalize m.phdr (pHeader m data i) = h at *
  have hroom := hfit.2 hskip
  have htext := hS.text
  have hfile := hS.file
  have hapart := hS.apart
  have hrest : wrap (textSpace + h.pFilesz) = textSpace + h.pFilesz := wrap_eq (by omega)
  rw [if_neg hskip, if_neg (by omega), hrest]
  refine ⟨_, rfl, fun x => ?_⟩
  -- the range copied from: nothing is, unless it is a segment
  have hsrc : (memcpy h.pFilesz m textSpace (wrap (data + h.pOffset))).byte x =
      if textSpace ≤ x ∧ x < textSpace + h.pFilesz then m.byte (data + h.pOffset + (x - textSpace))
      else m.byte x := by
    by_cases hl : h.Load
    · have hoff := hfit.1 hl
      rw [wrap_eq (by omega), memcpy_byte _ _ (by omega) (by omega) (by omega)]
    · have hzero : h.pFilesz = 0 := by
        have hm : ¬ h.pMemsz > 0 := fun hpos => hskip ⟨hl, hpos⟩
        omega
      rw [hzero, if_neg (by omega)]
      rfl
  rw [memset_byte _ _ _ (by omega), hsrc]
  by_cases hcopied : textSpace ≤ x ∧ x < textSpace + h.pFilesz
  · rw [if_neg (by omega), if_pos hcopied, if_pos (by omega), if_pos (by omega)]
  · by_cases hcleared : textSpace + h.pFilesz ≤ x ∧ x < textSpace + h.pFilesz + (h.pMemsz - h.pFilesz)
    · rw [if_pos hcleared, if_pos (by omega), if_neg (by omega)]
      rfl
    · rw [if_neg hcleared, if_neg hcopied, if_neg (by omega)]

/-- The memory after the headers `hs`: the file is as it was, nothing is written
above the largest segment's size, and if there is one segment, it is there. -/
structure Copied (data n textSpace : Nat) (hs : List Elf32Phdr) (m m' : Memory) : Prop where
  file : SameFile data n m m'
  spared : ∀ top, (∀ h ∈ hs, ¬ h.Skipped → h.pMemsz ≤ top) →
    ∀ x, ¬ (textSpace ≤ x ∧ x < textSpace + top) → m'.byte x = m.byte x
  image : ∀ h ∈ hs, h.Load → (∀ g ∈ hs, g.Load → g = h) → ∀ j, j < h.pMemsz →
    m'.byte (textSpace + j) = if j < h.pFilesz then m.byte (data + h.pOffset + j) else 0

theorem Copied.nil : Copied data n textSpace [] m m :=
  ⟨fun _ _ _ => rfl, fun _ _ _ _ => rfl, fun _ h => (List.not_mem_nil h).elim⟩

theorem Copied.skip {hs : List Elf32Phdr} {h : Elf32Phdr} (hc : Copied data n textSpace hs m m')
    (hskip : h.Skipped) : Copied data n textSpace (hs ++ [h]) m m' := by
  refine ⟨hc.file, fun top htop => hc.spared top fun g hg => htop g (List.mem_append_left _ hg),
    fun g hg hl hone => hc.image g ?_ hl fun g' hg' => hone g' (List.mem_append_left _ hg')⟩
  rcases List.mem_append.mp hg with hg | hg
  · exact hg
  · rw [List.mem_singleton.mp hg] at hl
    exact absurd hskip hl.taken

theorem Copied.round (hS : Apart data n textSpace room) {hs : List Elf32Phdr} {h : Elf32Phdr}
    {m'' : Memory} (hc : Copied data n textSpace hs m m') (hskip : ¬ h.Skipped) (hfit : Fits n room h)
    (hm : ∀ x, m''.byte x =
      if textSpace ≤ x ∧ x < textSpace + h.pMemsz then
        if x - textSpace < h.pFilesz then m'.byte (data + h.pOffset + (x - textSpace)) else 0
      else m'.byte x) : Copied data n textSpace (hs ++ [h]) m m'' := by
  have hroom := hfit.2 hskip
  have hapart := hS.apart
  refine ⟨fun x h1 h2 => ?_, fun top htop x hx => ?_, fun g hg hl hone j hj => ?_⟩
  · rw [hm, if_neg (by omega)]
    exact hc.file x h1 h2
  · have hsz := htop h (List.mem_append_right _ (List.mem_singleton_self h)) hskip
    rw [hm, if_neg (by omega)]
    exact hc.spared top (fun g hg => htop g (List.mem_append_left _ hg)) x hx
  · by_cases hload : h.Load
    · have hsame := hone h (List.mem_append_right _ (List.mem_singleton_self h)) hload
      have hoff := hfit.1 hload
      rw [← hsame] at hj ⊢
      rw [hm, if_pos (by omega), Nat.add_sub_cancel_left]
      split
      · exact hc.file _ (by omega) (by omega)
      · rfl
    · have hzero : ¬ h.pMemsz > 0 := fun hpos => hskip ⟨hload, hpos⟩
      rw [hm, if_neg (by omega)]
      refine hc.image g ?_ hl (fun g' hg' => hone g' (List.mem_append_left _ hg')) j hj
      rcases List.mem_append.mp hg with hg | hg
      · exact hg
      · rw [List.mem_singleton.mp hg] at hl
        exact absurd hl hload

/-- A round comes through unless its count of bytes to clear wraps. -/
theorem Copied.copyRound (hS : Apart data n textSpace room) {hs : List Elf32Phdr} {i : Nat}
    (hc : Copied data n textSpace hs m m') (hfit : Fits n room (m'.phdr (pHeader m' data i))) :
    ((∃ m'', Elf.copyRound data textSpace m' i = some m'') ↔ Clears (m'.phdr (pHeader m' data i))) ∧
      ∀ m'', Elf.copyRound data textSpace m' i = some m'' →
        Copied data n textSpace (hs ++ [m'.phdr (pHeader m' data i)]) m m'' := by
  by_cases hskip : (m'.phdr (pHeader m' data i)).Skipped
  · have hround : Elf.copyRound data textSpace m' i = some m' := if_pos hskip
    refine ⟨⟨fun _ hs => absurd hskip hs, fun _ => ⟨m', hround⟩⟩, fun m'' hm => ?_⟩
    rw [hround] at hm
    cases hm
    exact hc.skip hskip
  · by_cases hle : (m'.phdr (pHeader m' data i)).pFilesz ≤ (m'.phdr (pHeader m' data i)).pMemsz
    · obtain ⟨m₂, hround, hbytes⟩ := copyRound_spec hS hskip hle hfit
      refine ⟨⟨fun _ _ => hle, fun _ => ⟨m₂, hround⟩⟩, fun m'' hm => ?_⟩
      rw [hround] at hm
      cases hm
      exact hc.round hS hskip hfit hbytes
    · have hround : Elf.copyRound data textSpace m' i = none := by
        unfold Elf.copyRound
        dsimp only
        rw [if_neg hskip, if_pos (by omega)]
      rw [hround]
      exact ⟨⟨fun ⟨_, hm⟩ => (nomatch hm), fun hall => absurd (hall hskip) hle⟩, fun _ hm => nomatch hm⟩

/-- The loop ends if no count of bytes to clear wraps, and leaves what the rounds leave. -/
theorem copySegments_spec (hS : Apart data n textSpace room) (hn : 52 ≤ n)
    (htable : (m.ehdr data).ePhoff + 32 * (m.ehdr data).ePhnum ≤ n)
    (hfit : ∀ h ∈ pHeaders m data, Fits n room h) :
    ((∃ m', copySegments m data textSpace = some m') ↔ ∀ h ∈ pHeaders m data, Clears h) ∧
      ∀ m', copySegments m data textSpace = some m' → Copied data n textSpace (pHeaders m data) m m' := by
  have hfile := hS.file
  have hrounds : ∀ k, k ≤ (m.ehdr data).ePhnum →
      ((∃ m', (List.range k).foldlM (Elf.copyRound data textSpace) m = some m') ↔
        ∀ h ∈ (List.range k).map fun i => m.phdr (pHeader m data i), Clears h) ∧
      ∀ m', (List.range k).foldlM (Elf.copyRound data textSpace) m = some m' →
        Copied data n textSpace ((List.range k).map fun i => m.phdr (pHeader m data i)) m m' := by
    intro k
    induction k with
    | zero =>
      intro _
      refine ⟨⟨fun _ h hh => (List.not_mem_nil hh).elim, fun _ => ⟨m, rfl⟩⟩, fun m' hm => ?_⟩
      cases hm
      exact Copied.nil
    | succ k ih =>
      intro hk
      obtain ⟨hiff, hcopied⟩ := ih (by omega)
      have hfitk := hfit (m.phdr (pHeader m data k)) (List.mem_map.mpr ⟨k, List.mem_range.mpr (by omega), rfl⟩)
      rw [List.range_succ, List.map_append, List.map_singleton, List.foldlM_append, List.forall_mem_append,
        List.forall_mem_singleton, ← hiff]
      cases hpre : (List.range k).foldlM (Elf.copyRound data textSpace) m with
      | none => exact ⟨⟨fun ⟨_, hm⟩ => (nomatch hm), fun ⟨⟨_, hm⟩, _⟩ => (nomatch hm)⟩, fun _ hm => nomatch hm⟩
      | some m₁ =>
        have hc := hcopied m₁ hpre
        -- the header is read from the memory the rounds before it have written to
        have hread := (pHeaders_congr hc.file hn (by omega) htable).2 k (by omega)
        rw [← hread] at hfitk ⊢
        obtain ⟨hone, hnext⟩ := hc.copyRound hS hfitk
        have hlast : (some m₁ >>= fun m => [k].foldlM (Elf.copyRound data textSpace) m) =
            Elf.copyRound data textSpace m₁ k := by
          show (Elf.copyRound data textSpace m₁ k).bind some = _
          cases Elf.copyRound data textSpace m₁ k <;> rfl
        rw [hlast]
        exact ⟨hone.trans ⟨fun h => ⟨⟨m₁, rfl⟩, h⟩, fun h => h.2⟩, hnext⟩
  exact hrounds _ (Nat.le_refl _)

end Copy

end ShompOS
