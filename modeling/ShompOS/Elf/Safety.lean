import ShompOS.Elf.Lifetime
import ShompOS.Heap.Fit

/-! Where `init_elf` reads and where it writes.

Nothing in the loader looks at the size of the file. What it reads is therefore
written down next to it, function by function: the addresses, in order, of the
bytes of the file that the code loads, in the memory as it is when it loads them.
What it writes is read off the memory's trace of stores. For a file whose headers
say nothing that its size or the space computed from them does not allow
(`Bounded`), all reads are in the file and all writes in the program's block. -/
namespace ShompOS
open Layout Memory Elf

variable {L : Layout} {C : Code} {P : Pool} {data n : Nat}

namespace Elf

/-- The `len` bytes at `a`. -/
def cells (a len : Nat) : List Nat := (List.range len).map fun i => wrap (a + i)

/-- A field that `is_readable` compares. -/
structure Check where
  offset : Nat
  len : Nat
  passes : Bool

/-- What `is_readable` compares, in its order. -/
def checks (elfHeader : Elf32Ehdr) : List Check :=
  [⟨0, 1, elfHeader.eIdent 0 = 0x7F⟩, ⟨1, 1, elfHeader.eIdent 1 = 0x45⟩, ⟨2, 1, elfHeader.eIdent 2 = 0x4C⟩,
    ⟨3, 1, elfHeader.eIdent 3 = 0x46⟩, ⟨4, 1, elfHeader.eIdent 4 = elfclass32⟩,
    ⟨5, 1, elfHeader.eIdent 5 = eLittleEndian⟩, ⟨16, 2, elfHeader.eType = eTypeExec⟩,
    ⟨18, 2, elfHeader.eMachine = eMachine386 ∨ elfHeader.eMachine = eMachineNone⟩]

/-- The first comparison that fails is the last one made. -/
def made : List Check → List Check
  | [] => []
  | c :: rest => if c.passes then c :: made rest else [c]

def isReadableReads (m : Memory) (data : Nat) : List Nat :=
  (made (checks (m.ehdr data))).flatMap fun c => cells (data + c.offset) c.len

/-- Both loops ask for the type, and for the size of what is not to be loaded. -/
def skippedReads (m : Memory) (p : Nat) : List Nat :=
  cells p 4 ++ if (m.phdr p).Load then [] else cells (p + 20) 4

def spanRoundReads (m : Memory) (p : Nat) : List Nat :=
  skippedReads m p ++ if (m.phdr p).Skipped then [] else cells (p + 8) 4 ++ cells (p + 20) 4

def spanReads (m : Memory) (data : Nat) : List Nat :=
  cells (data + 44) 2 ++
    (List.range (m.ehdr data).ePhnum).flatMap fun i => spanRoundReads m (pHeader m data i) ++ cells (data + 44) 2

def copyRoundReads (m : Memory) (data p : Nat) : List Nat :=
  skippedReads m p ++ if (m.phdr p).Skipped then [] else
    cells (p + 4) 4 ++ cells (p + 16) 4 ++ cells (wrap (data + (m.phdr p).pOffset)) (m.phdr p).pFilesz ++
      cells (p + 20) 4

/-- The second loop's, from the entries `is` on. -/
def copyReads (data textSpace : Nat) : List Nat → Memory → List Nat
  | [], _ => cells (data + 44) 2
  | i :: is, m =>
    cells (data + 44) 2 ++ copyRoundReads m data (pHeader m data i) ++
      (copyRound data textSpace m i).elim [] (copyReads data textSpace is)

end Elf

/-- The bytes of the file that `init_elf` reads. -/
def Kernel.initElfReads (L : Layout) (k : Kernel) (data : Nat) : List Nat :=
  isReadableReads k.heap.mem data ++
    if isReadable k.heap.mem data ≠ 0 then []
    else
      cells (data + 28) 4 ++ spanReads k.heap.mem data ++
        (k.heap.allocate L (span (pHeaders k.heap.mem data)).1).elim [] fun (h, textSpace) =>
          if textSpace = 0 then []
          else
            copyReads data textSpace (List.range (h.mem.ehdr data).ePhnum) h.mem ++
              (copySegments h.mem data textSpace).elim [] fun m =>
                (Heap.allocate L ⟨m, h.currentBrk⟩ stackSizeDefault).elim [] fun (_, stackSpace) =>
                  if stackSpace = 0 then [] else cells (data + 24) 4

/-! ### Lists of addresses -/

/-- All of `cs` are in the `n` bytes at `data`. -/
def Within (data n : Nat) (cs : List Nat) : Prop := ∀ x ∈ cs, data ≤ x ∧ x < data + n

theorem within_nil : Within data n [] := fun _ h => (List.not_mem_nil h).elim

theorem Within.append {cs ds : List Nat} (hc : Within data n cs) (hd : Within data n ds) :
    Within data n (cs ++ ds) := by
  intro x hx
  cases List.mem_append.mp hx with
  | inl hx => exact hc x hx
  | inr hx => exact hd x hx

theorem Within.ite {p : Prop} [Decidable p] {cs ds : List Nat} (hc : p → Within data n cs)
    (hd : ¬ p → Within data n ds) : Within data n (if p then cs else ds) := by
  by_cases hp : p
  · rw [if_pos hp]
    exact hc hp
  · rw [if_neg hp]
    exact hd hp

theorem within_flatMap {α : Type} {xs : List α} {f : α → List Nat} (h : ∀ a ∈ xs, Within data n (f a)) :
    Within data n (xs.flatMap f) := by
  intro x hx
  obtain ⟨a, ha, hxa⟩ := List.mem_flatMap.mp hx
  exact h a ha x hxa

theorem within_cells {a len : Nat} (hA : data + n ≤ addressSpace) (hlo : data ≤ a) (hhi : a + len ≤ data + n) :
    Within data n (cells a len) := by
  intro x hx
  obtain ⟨i, hi, rfl⟩ := List.mem_map.mp hx
  have hlt := List.mem_range.mp hi
  rw [wrap_eq (by omega)]
  omega

/-! ### What a read depends on -/

/-- A file is readable if every comparison passes. -/
theorem isReadable_eq_zero_iff (m : Memory) (data : Nat) :
    isReadable m data = 0 ↔ ∀ c ∈ checks (m.ehdr data), c.passes = true := by
  unfold isReadable checks
  simp only [List.forall_mem_cons, List.not_mem_nil, false_imp_iff, implies_true, and_true, decide_eq_true_iff]
  split
  · exact ⟨fun hz => absurd hz (by decide), fun hall => by omega⟩
  split
  · exact ⟨fun hz => absurd hz (by decide), fun hall => by omega⟩
  split
  · exact ⟨fun hz => absurd hz (by decide), fun hall => by omega⟩
  split
  · exact ⟨fun hz => absurd hz (by decide), fun hall => by omega⟩
  split
  · exact ⟨fun hz => absurd hz (by decide), fun hall => by omega⟩
  · exact ⟨fun _ => by omega, fun _ => rfl⟩

theorem made_subset (cs : List Check) : ∀ c ∈ made cs, c ∈ cs := by
  induction cs with
  | nil => exact fun c hc => hc
  | cons d rest ih =>
    intro c hc
    unfold made at hc
    split at hc
    · cases List.mem_cons.mp hc with
      | inl he => exact he ▸ List.mem_cons_self ..
      | inr hc => exact List.mem_cons_of_mem _ (ih c hc)
    · rw [List.mem_singleton.mp hc]
      exact List.mem_cons_self ..

/-- No comparison is made of what lies behind one that fails. -/
theorem made_upto {cs : List Check} (hsorted : cs.Pairwise fun c d => c.offset + c.len ≤ d.offset + d.len)
    {d : Check} (hd : d ∈ cs) (hfail : d.passes = false) :
    ∀ c ∈ made cs, c.offset + c.len ≤ d.offset + d.len := by
  induction cs with
  | nil => exact (List.not_mem_nil hd).elim
  | cons e rest ih =>
    obtain ⟨hfirst, hrest⟩ := List.pairwise_cons.mp hsorted
    intro c hc
    unfold made at hc
    cases List.mem_cons.mp hd with
    | inl he =>
      rw [← he, hfail, if_neg Bool.false_ne_true] at hc
      rw [List.mem_singleton.mp hc]
    | inr hd =>
      split at hc
      · cases List.mem_cons.mp hc with
        | inl he => exact he ▸ hfirst d hd
        | inr hc => exact ih hrest hd c hc
      · rw [List.mem_singleton.mp hc]
        exact hfirst d hd

theorem checks_sorted (elfHeader : Elf32Ehdr) :
    (checks elfHeader).Pairwise fun c d => c.offset + c.len ≤ d.offset + d.len := by
  unfold checks
  simp only [List.pairwise_cons, List.forall_mem_cons, List.not_mem_nil, false_imp_iff, implies_true, and_true,
    List.Pairwise.nil]
  omega

theorem checks_le (elfHeader : Elf32Ehdr) : ∀ c ∈ checks elfHeader, c.offset + c.len ≤ 20 := by
  unfold checks
  simp only [List.forall_mem_cons, List.not_mem_nil, false_imp_iff, implies_true, and_true]
  omega

/-! ### Files within bounds -/

/-- What the loader trusts a file of `n` bytes with. -/
structure Bounded (m : Memory) (data n : Nat) : Prop where
  /-- What `is_readable` looks at is there, or it stops at something that is. -/
  checked : 20 ≤ n ∨ ∃ c ∈ checks (m.ehdr data), c.passes = false ∧ c.offset + c.len ≤ n
  header : isReadable m data = 0 → 52 ≤ n
  table : isReadable m data = 0 → (m.ehdr data).ePhoff + 32 * (m.ehdr data).ePhnum ≤ n
  cleared : isReadable m data = 0 → ∀ h ∈ pHeaders m data, ¬ h.Skipped → h.pFilesz ≤ h.pMemsz
  spanned : isReadable m data = 0 → ∀ h ∈ pHeaders m data, ¬ h.Skipped → h.pMemsz ≤ (span (pHeaders m data)).1
  segment : isReadable m data = 0 → ∀ h ∈ pHeaders m data, ¬ h.Skipped → 0 < h.pFilesz →
    h.pOffset + h.pFilesz ≤ n

/-! ### The span -/

/-- A round only widens the span, and to at least the size of what it takes. -/
theorem spanRound_ge {size minVaddr : Nat} {h : Elf32Phdr} (htop : minVaddr + size < addressSpace)
    (hend : ¬ h.Skipped → h.pVaddr + h.pMemsz < addressSpace) :
    size ≤ (spanRound (size, minVaddr) h).1 ∧ (¬ h.Skipped → h.pMemsz ≤ (spanRound (size, minVaddr) h).1) ∧
      (spanRound (size, minVaddr) h).2 + (spanRound (size, minVaddr) h).1 < addressSpace := by
  unfold spanRound
  dsimp only
  by_cases hskip : h.Skipped
  · rw [if_pos hskip]
    exact ⟨Nat.le_refl _, fun hn => absurd hskip hn, htop⟩
  · rw [if_neg hskip]
    have hbound := hend hskip
    -- what the first part makes of the two
    obtain ⟨size₁, min₁, he, hsize, hle, htop₁⟩ : ∃ size₁ min₁,
        (if h.pVaddr < minVaddr then
          (if size > 0 then wrap (size + (minVaddr - h.pVaddr)) else h.pMemsz, h.pVaddr)
          else (size, minVaddr)) = (size₁, min₁) ∧ size ≤ size₁ ∧ min₁ ≤ h.pVaddr ∧
        min₁ + size₁ < addressSpace := by
      by_cases hlt : h.pVaddr < minVaddr
      · rw [if_pos hlt]
        by_cases hpos : size > 0
        · rw [if_pos hpos, wrap_eq (by omega)]
          exact ⟨_, _, rfl, by omega, Nat.le_refl _, by omega⟩
        · rw [if_neg hpos]
          exact ⟨_, _, rfl, by omega, Nat.le_refl _, hbound⟩
      · rw [if_neg hlt]
        exact ⟨_, _, rfl, Nat.le_refl _, by omega, htop⟩
    rw [he]
    dsimp only
    rw [wrap_eq hbound, wrap_eq htop₁]
    by_cases hgt : h.pVaddr + h.pMemsz > min₁ + size₁
    · rw [if_pos hgt, wrap_sub (by omega) (by omega)]
      dsimp only
      exact ⟨by omega, fun _ => by omega, by omega⟩
    · rw [if_neg hgt]
      exact ⟨hsize, fun _ => by omega, htop₁⟩

/-- If no end of a segment wraps, the span has room for each. -/
theorem span_ge (hs : List Elf32Phdr) (hend : ∀ h ∈ hs, ¬ h.Skipped → h.pVaddr + h.pMemsz < addressSpace) :
    (∀ h ∈ hs, ¬ h.Skipped → h.pMemsz ≤ (span hs).1) ∧ (span hs).2 + (span hs).1 < addressSpace := by
  induction hs using List.reverseRecOn with
  | nil =>
    have hA : addressSpace - 1 + 0 < addressSpace := by decide
    exact ⟨fun h hh => (List.not_mem_nil hh).elim, hA⟩
  | append_singleton hs h ih =>
    obtain ⟨hall, htop⟩ := ih fun g hg => hend g (List.mem_append_left _ hg)
    unfold span at hall htop ⊢
    rw [List.foldl_append]
    obtain ⟨hgrow, hholds, htop'⟩ := spanRound_ge htop (hend h (List.mem_append_right _ (List.mem_singleton_self h)))
    refine ⟨fun g hg ht => ?_, htop'⟩
    cases List.mem_append.mp hg with
    | inl hg => exact (hall g hg ht).trans hgrow
    | inr hg =>
      rw [List.mem_singleton.mp hg] at ht ⊢
      exact hholds ht

/-- Headers that do not wrap are enough for the size of the span. -/
theorem Bounded.of_ends {m : Memory}
    (checked : 20 ≤ n ∨ ∃ c ∈ checks (m.ehdr data), c.passes = false ∧ c.offset + c.len ≤ n)
    (header : isReadable m data = 0 → 52 ≤ n)
    (table : isReadable m data = 0 → (m.ehdr data).ePhoff + 32 * (m.ehdr data).ePhnum ≤ n)
    (segment : isReadable m data = 0 → ∀ h ∈ pHeaders m data, ¬ h.Skipped → h.pFilesz ≤ h.pMemsz ∧
      h.pOffset + h.pFilesz ≤ n ∧ h.pVaddr + h.pMemsz < addressSpace) : Bounded m data n where
  checked := checked
  header := header
  table := table
  cleared hz h hh ht := (segment hz h hh ht).1
  spanned hz := (span_ge _ fun h hh ht => (segment hz h hh ht).2.2).1
  segment hz h hh ht _ := (segment hz h hh ht).2.1

/-! ### Reads -/

section Reads
variable {m m' : Memory}

theorem within_isReadableReads (hA : data + n ≤ addressSpace)
    (h : 20 ≤ n ∨ ∃ c ∈ checks (m.ehdr data), c.passes = false ∧ c.offset + c.len ≤ n) :
    Within data n (isReadableReads m data) := by
  apply within_flatMap
  intro c hc
  have hle : c.offset + c.len ≤ n := by
    cases h with
    | inl h => exact (checks_le _ c (made_subset _ c hc)).trans h
    | inr h =>
      obtain ⟨d, hd, hfail, hdn⟩ := h
      exact (made_upto (checks_sorted _) hd hfail c hc).trans hdn
  exact within_cells hA (Nat.le_add_right _ _) (by omega)

theorem within_skippedReads {p : Nat} (hA : data + n ≤ addressSpace) (hlo : data ≤ p) (hhi : p + 32 ≤ data + n) :
    Within data n (skippedReads m p) := by
  apply (within_cells hA hlo (by omega)).append
  exact Within.ite (fun _ => within_nil) fun _ => within_cells hA (by omega) (by omega)

theorem within_spanReads (hA : data + n ≤ addressSpace) (hn : 52 ≤ n)
    (htable : (m.ehdr data).ePhoff + 32 * (m.ehdr data).ePhnum ≤ n) : Within data n (spanReads m data) := by
  have hphnum : Within data n (cells (data + 44) 2) := within_cells hA (by omega) (by omega)
  apply hphnum.append
  apply within_flatMap
  intro i hi
  obtain ⟨hlo, hhi⟩ := pHeader_range hA htable (List.mem_range.mp hi)
  refine Within.append ((within_skippedReads hA hlo hhi).append (Within.ite (fun _ => within_nil) fun _ => ?_)) hphnum
  exact (within_cells hA (by omega) (by omega)).append (within_cells hA (by omega) (by omega))

theorem within_copyRoundReads {p : Nat} (hA : data + n ≤ addressSpace) (hlo : data ≤ p) (hhi : p + 32 ≤ data + n)
    (hseg : ¬ (m.phdr p).Skipped → 0 < (m.phdr p).pFilesz → (m.phdr p).pOffset + (m.phdr p).pFilesz ≤ n) :
    Within data n (copyRoundReads m data p) := by
  apply (within_skippedReads hA hlo hhi).append
  refine Within.ite (fun _ => within_nil) fun ht => ?_
  have hfile : Within data n (cells (wrap (data + (m.phdr p).pOffset)) (m.phdr p).pFilesz) := by
    by_cases hpos : 0 < (m.phdr p).pFilesz
    · have hoff := hseg ht hpos
      rw [wrap_eq (by omega)]
      exact within_cells hA (by omega) (by omega)
    · rw [Nat.eq_zero_of_not_pos hpos]
      exact within_nil
  exact (((within_cells hA (by omega) (by omega)).append (within_cells hA (by omega) (by omega))).append hfile).append
    (within_cells hA (by omega) (by omega))

/-! ### Writes -/

theorem memcpy_spares {R : Nat → Prop} (count : Nat) (m : Memory) {dest : Nat} (src : Nat)
    (hd : dest + count < addressSpace) (hR : ∀ x, dest ≤ x → x < dest + count → ¬ R x) :
    Spares R m (memcpy count m dest src) := by
  induction count generalizing m dest src with
  | zero => exact Spares.refl _ _
  | succ count ih =>
    unfold memcpy
    rw [wrap_eq (by omega)]
    exact (spares_store8 m _ (hR dest (Nat.le_refl _) (by omega))).trans
      (ih _ _ (by omega) fun x h1 h2 => hR x (by omega) (by omega))

theorem memset_spares {R : Nat → Prop} (count : Nat) (m : Memory) {dest : Nat} (c : Nat)
    (hd : dest + count < addressSpace) (hR : ∀ x, dest ≤ x → x < dest + count → ¬ R x) :
    Spares R m (memset count m dest c) := by
  induction count generalizing m dest with
  | zero => exact Spares.refl _ _
  | succ count ih =>
    unfold memset
    rw [wrap_eq (by omega)]
    exact (spares_store8 m _ (hR dest (Nat.le_refl _) (by omega))).trans
      (ih _ (by omega) fun x h1 h2 => hR x (by omega) (by omega))

/-- Not in the `room` bytes from `textSpace` on. -/
def Outside (textSpace room x : Nat) : Prop := ¬ (textSpace ≤ x ∧ x < textSpace + room)

variable {textSpace room : Nat}

theorem copyRound_spares (htext : textSpace + room < addressSpace) {i : Nat}
    (hle : ¬ (m.phdr (pHeader m data i)).Skipped →
      (m.phdr (pHeader m data i)).pFilesz ≤ (m.phdr (pHeader m data i)).pMemsz)
    (hroom : ¬ (m.phdr (pHeader m data i)).Skipped → (m.phdr (pHeader m data i)).pMemsz ≤ room) :
    ∃ m', copyRound data textSpace m i = some m' ∧ Spares (Outside textSpace room) m m' := by
  unfold copyRound
  dsimp only
  generalize m.phdr (pHeader m data i) = h at *
  by_cases hskip : h.Skipped
  · rw [if_pos hskip]
    exact ⟨m, rfl, Spares.refl _ _⟩
  · have := hle hskip
    have := hroom hskip
    rw [if_neg hskip, if_neg (by omega), wrap_eq (a := textSpace + h.pFilesz) (by omega)]
    have hcopied : Spares (Outside textSpace room) m (memcpy h.pFilesz m textSpace (wrap (data + h.pOffset))) :=
      memcpy_spares _ _ _ (by omega) fun x h1 h2 hx => hx ⟨h1, by omega⟩
    refine ⟨_, rfl, hcopied.trans ?_⟩
    exact memset_spares _ _ _ (by omega) fun x h1 h2 hx => hx ⟨by omega, by omega⟩

/-- The rounds for the entries `is` read in the file and write in the space. -/
theorem copyReads_within (hS : Apart data n textSpace room) (hn : 52 ≤ n)
    (htable : (m.ehdr data).ePhoff + 32 * (m.ehdr data).ePhnum ≤ n)
    (hcleared : ∀ h ∈ pHeaders m data, ¬ h.Skipped → h.pFilesz ≤ h.pMemsz)
    (hroom : ∀ h ∈ pHeaders m data, ¬ h.Skipped → h.pMemsz ≤ room)
    (hseg : ∀ h ∈ pHeaders m data, ¬ h.Skipped → 0 < h.pFilesz → h.pOffset + h.pFilesz ≤ n)
    {is : List Nat} (his : ∀ i ∈ is, i < (m.ehdr data).ePhnum) (hfile : SameFile data n m m') :
    Within data n (copyReads data textSpace is m') ∧
      ∃ m'', is.foldlM (copyRound data textSpace) m' = some m'' ∧ Spares (Outside textSpace room) m' m'' := by
  have hA : data + n ≤ addressSpace := hS.file.le
  have hphnum : Within data n (cells (data + 44) 2) := within_cells hA (by omega) (by omega)
  induction is generalizing m' with
  | nil => exact ⟨hphnum, m', rfl, Spares.refl _ _⟩
  | cons i is ih =>
    have hi := his i (List.mem_cons_self ..)
    have hread := (pHeaders_congr hfile hn hA htable).2 i hi
    have hmem : m'.phdr (pHeader m' data i) ∈ pHeaders m data :=
      List.mem_map.mpr ⟨i, List.mem_range.mpr hi, hread.symm⟩
    obtain ⟨-, -, -, -, hoff, -, hnum⟩ := ehdr_congr hfile hn hA
    obtain ⟨hlo, hhi⟩ := pHeader_range (m := m') hA (by rw [hoff, hnum]; exact htable) (hnum.symm ▸ hi)
    obtain ⟨m₁, hround, hsp⟩ := copyRound_spares hS.text (hcleared _ hmem) (hroom _ hmem)
    -- the file is not in the space
    have hapart := hS.apart
    have hfile₁ : SameFile data n m m₁ :=
      hfile.trans fun x h1 h2 => hsp.bytes x fun hx => by omega
    obtain ⟨hreads, m₂, hrest, hsp'⟩ := ih (fun j hj => his j (List.mem_cons_of_mem _ hj)) hfile₁
    refine ⟨?_, m₂, ?_, hsp.trans hsp'⟩
    · unfold copyReads
      rw [hround]
      exact (hphnum.append (within_copyRoundReads hA hlo hhi (hseg _ hmem))).append hreads
    · rw [List.foldlM_cons, hround]
      exact hrest

end Reads

/-- A file that is not readable is refused before anything is written, and so is one
for whose program there is no memory; if there is none for its stack the block that it
was loaded into is given back, and else it is started. A file within bounds is read
nowhere but where it lies, and what its loading writes is in the block it was given. -/
theorem initElf_within_bounds {k : Kernel} (hr : Represents L k.heap P) (hf : FileAt P data n)
    (hb : Bounded k.heap.mem data n) :
    (isReadable k.heap.mem data = 0 ↔ ∀ c ∈ checks (k.heap.mem.ehdr data), c.passes = true) ∧
      (∃ r, k.initElf L C data = some r) ∧ Within data n (k.initElfReads L data) ∧
      (isReadable k.heap.mem data ≠ 0 → k.initElf L C data = some (k, .error)) ∧
      (isReadable k.heap.mem data = 0 → ∃ h₁ textSpace,
        k.heap.allocate L (span (pHeaders k.heap.mem data)).1 = some (h₁, textSpace) ∧
        (textSpace = 0 → h₁ = k.heap ∧ k.initElf L C data = some (k, .error)) ∧
        (textSpace ≠ 0 → h₁.AllocatedBlock (textSpace - headerSize) ∧
          ∃ m₂, copySegments h₁.mem data textSpace = some m₂ ∧
            Spares (Outside textSpace (2 ^ h₁.mem.scale (textSpace - headerSize) - headerSize)) h₁.mem m₂ ∧
            ∃ h₂ stackSpace, Heap.allocate L ⟨m₂, h₁.currentBrk⟩ stackSizeDefault = some (h₂, stackSpace) ∧
              (stackSpace = 0 → ∃ h₃, h₂.free L textSpace = some (h₃, 0) ∧
                k.initElf L C data = some ({k with heap := h₃}, .error)) ∧
              (stackSpace ≠ 0 → ∃ k' pid, k.initElf L C data =
                some (k', .started pid textSpace (span (pHeaders k.heap.mem data)).2)))) := by
  have hA := hf.upper hr
  have hchecked := within_isReadableReads hA hb.checked
  refine ⟨isReadable_eq_zero_iff k.heap.mem data, ?_⟩
  unfold Kernel.initElf Kernel.initElfReads
  by_cases hz : isReadable k.heap.mem data ≠ 0
  · rw [if_pos hz, if_pos hz, List.append_nil]
    exact ⟨⟨_, rfl⟩, hchecked, fun _ => rfl, fun h => absurd h hz⟩
  rw [if_neg hz, if_neg hz]
  rw [not_not] at hz
  have hn := hb.header hz
  have htable := hb.table hz
  have hspan := within_spanReads hA hn htable
  have hphoff : Within data n (cells (data + 28) 4) := within_cells hA (by omega) (by omega)
  generalize hsize : span (pHeaders k.heap.mem data) = sp at *
  obtain ⟨size, minVaddr⟩ := sp
  dsimp only
  obtain ⟨h₁, hcall, hrep₁, hfile₁, hzero | ⟨a, t, hp, -, ha, hfit, hS, -⟩⟩ := hr.textSpace hf size
  · obtain ⟨h', p, hcall', -, hsame, -⟩ := hr.null_iff size
    obtain ⟨rfl, rfl⟩ := Prod.mk.inj (Option.some.inj (hcall.symm.trans hcall'))
    obtain rfl := hsame hzero
    rw [hcall, Option.bind_some, Option.elim_some]
    dsimp only
    rw [if_pos hzero, if_pos hzero]
    refine ⟨⟨_, rfl⟩, hchecked.append ((hphoff.append hspan).append within_nil), fun h => absurd hz h,
      fun _ => ⟨_, _, rfl, fun _ => ⟨rfl, rfl⟩, fun h => absurd hzero h⟩⟩
  have h9 : headerSize = 9 := rfl
  have htext : (P.allocate size).2 ≠ 0 := by omega
  have hheaders := (pHeaders_congr hfile₁ hn hA htable).1
  obtain ⟨-, -, -, -, hoff, -, hnum⟩ := ehdr_congr hfile₁ hn hA
  have hmemsz := hb.spanned hz
  rw [hsize] at hmemsz
  dsimp only at hmemsz
  obtain ⟨hcopy, m₂, hcopied, hsp⟩ := copyReads_within (m := h₁.mem) hS hn
    (by rw [hoff, hnum]; exact htable)
    (hheaders ▸ hb.cleared hz) (fun h hh ht => by have := hmemsz h (hheaders ▸ hh) ht; omega)
    (hheaders ▸ hb.segment hz) (fun i hi => List.mem_range.mp hi)
    (show SameFile data n h₁.mem h₁.mem from fun _ _ _ => rfl)
  have hcopied' : copySegments h₁.mem data (a + headerSize) = some m₂ := hcopied
  have hrep₂ : Represents L ⟨m₂, h₁.currentBrk⟩ (P.allocate size).1 :=
    ⟨hrep₁.stands.congr_payload ha fun x hx => hsp.bytes x fun ⟨h1, h2⟩ => hx ⟨h1, by omega⟩, hrep₁.brk⟩
  obtain ⟨h₂, hcall₂, hrep₃, -⟩ := hrep₂.allocate (R := fun _ => False) stackSizeDefault
  have hentry : Within data n (cells (data + 24) 4) := within_cells hA (by omega) (by omega)
  rw [hcall, Option.bind_some, Option.elim_some]
  dsimp only
  rw [if_neg htext, if_neg htext, hp, hcopied', Option.bind_some, Option.elim_some, hcall₂, Option.bind_some,
    Option.elim_some]
  dsimp only
  have hreads : Within data n (copyReads data (a + headerSize) (List.range (h₁.mem.ehdr data).ePhnum) h₁.mem ++
      if ((P.allocate size).1.allocate stackSizeDefault).2 = 0 then [] else cells (data + 24) 4) :=
    hcopy.append (Within.ite (fun _ => within_nil) fun _ => hentry)
  -- what comes last returns, whether there is a stack or not
  obtain ⟨h₃, hfree, -, -⟩ := hrep₃.free (R := fun _ => False) (Pool.used_allocate hrep₁.stands.valid _ ha)
  obtain ⟨k', pid, hinit⟩ := Kernel.initProcess_returns C {k with heap := h₂}
    (wrap (a + headerSize + (h₂.mem.ehdr data).eEntry + (addressSpace - minVaddr)))
    ((P.allocate size).1.allocate stackSizeDefault).2
  refine ⟨?_, hchecked.append ((hphoff.append hspan).append hreads), fun h => absurd hz h,
    fun _ => ⟨h₁, _, rfl, fun h => absurd h (hp ▸ htext), fun _ => ?_⟩⟩
  · split
    · rw [hfree]
      exact ⟨_, rfl⟩
    · rw [hinit]
      exact ⟨_, rfl⟩
  · rw [Nat.add_sub_cancel, hrep₁.stands.scale_eq (Or.inl ha)]
    refine ⟨(hrep₁.allocatedBlock_iff a).mpr ⟨t, ha⟩, m₂, hcopied', hsp, h₂, _, hcall₂, fun hstack => ?_,
      fun hstack => ?_⟩
    · refine ⟨h₃, hfree, ?_⟩
      rw [if_pos hstack, hfree, Option.map_some]
    · refine ⟨k', pid, ?_⟩
      rw [if_neg hstack, hinit, Option.map_some]

theorem bounded_oneSegment :
    Bounded (holding oneSegment).1.heap.mem (holding oneSegment).2 oneSegment.length :=
  .of_ends (Or.inl (by decide)) (fun _ => by decide) (fun _ => by decide +kernel) fun _ => by decide +kernel

theorem initElf_within_bounds_oneSegment : ∃ (k : Kernel) (data : Nat) (h₁ : Heap) (textSpace : Nat) (m₂ : Memory),
    Within data oneSegment.length (k.initElfReads kernelImage data) ∧
      copySegments h₁.mem data textSpace = some m₂ ∧ h₁.AllocatedBlock (textSpace - headerSize) ∧
      Spares (Outside textSpace (2 ^ h₁.mem.scale (textSpace - headerSize) - headerSize)) h₁.mem m₂ := by
  obtain ⟨P, hr, hf⟩ := represents_holding oneSegment (by decide +kernel)
  obtain ⟨-, -, hreads, -, hreadable⟩ := initElf_within_bounds (C := ⟨0x100000, 0x100010⟩) hr hf bounded_oneSegment
  obtain ⟨h₁, textSpace, hcall, -, hloads⟩ := hreadable wellFormed_oneSegment.readable
  have hroom : ((holding oneSegment).1.heap.allocate kernelImage
      (span (pHeaders (holding oneSegment).1.heap.mem (holding oneSegment).2)).1).any (fun r => r.2 ≠ 0) = true := by
    decide +kernel
  rw [hcall, Option.any_some, decide_eq_true_iff] at hroom
  obtain ⟨hblock, m₂, hcopied, hsp, -⟩ := hloads hroom
  exact ⟨_, _, h₁, textSpace, m₂, hreads, hcopied, hblock, hsp⟩

/-- A header and one entry, whose four bytes would be where the file ends. -/
def Elf.overrun : List UInt8 := elfHeader 0x1000 1 ++ programHeader 84 0x1000 4 4

/-- It is started, with what lies behind the file. -/
theorem overrun_started : ∃ (k : Kernel) (P : Pool) (data : Nat), Represents kernelImage k.heap P ∧
    FileAt P data overrun.length ∧
    (∃ k' pid textSpace minVaddr,
      k.initElf kernelImage ⟨0x100000, 0x100010⟩ data = some (k', .started pid textSpace minVaddr)) ∧
    ∃ x ∈ k.initElfReads kernelImage data, data + overrun.length ≤ x := by
  obtain ⟨P, hr, hf⟩ := represents_holding overrun (by decide +kernel)
  have hrun : ((holding overrun).1.initElf kernelImage ⟨0x100000, 0x100010⟩ (holding overrun).2).any
      (fun r => r.2.isStarted) = true := by decide +kernel
  obtain ⟨⟨k', out⟩, hrun, hstarted⟩ := (Option.any_eq_true _ _).mp hrun
  obtain ⟨pid, textSpace, minVaddr, rfl⟩ := ElfOutcome.isStarted_iff.mp hstarted
  exact ⟨_, P, _, hr, hf, ⟨_, _, _, _, hrun⟩, (holding overrun).2 + overrun.length, by decide +kernel, Nat.le_refl _⟩

end ShompOS
