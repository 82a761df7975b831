import ShompOS.Heap.Address
import ShompOS.Heap.Invariant

/-! The report on the heap (`print_free_counts`, `heap.c`).

It follows every free list to its end and counts, which returns only where the list
has an end; in a session a run reaches the members of a list are exactly the free
blocks of its scale, so what is counted is what a walk over the headers would find.
A count is shown as one character, and stands for itself only below ten. -/
namespace ShompOS
open Layout Memory Numeral

namespace Memory

/-- The `while` loop of `print_free_counts`. -/
def countFree (m : Memory) : (fuel count curr : Nat) → Option Nat
  | 0, _, _ => none
  | fuel + 1, count, curr =>
    if m.next curr ≠ curr then countFree m fuel (wrap (count + 1)) (m.next curr) else some count

/-- What `terminal_writestring` sends of the string at `data`. -/
def sendString (m : Memory) (data : Nat) : Option (List UInt8) :=
  (m.strlen data).map fun len => (List.range len).map fun i => m.byte (wrap (data + i))

end Memory

/-- What it sends of a string of this one character. -/
def sendChar (c : UInt8) : List UInt8 := if c = 0 then [] else [c]

/-- `c`, which holds the character of a count. -/
def countChar (count : Nat) : UInt8 := .ofNat (count + 48)

/-- `c2`, which holds the character of a scale. -/
def scaleChar (i : Nat) : UInt8 := .ofNat (if i ≥ 10 then i + 0x41 - 10 else i + 0x30)

/-- What one round of the `for` loop prints. -/
def countLine (count i : Nat) : List UInt8 :=
  sendChar (countChar count) ++ ascii " free blocks of scale " ++ sendChar (scaleChar i) ++ ascii "\n"

namespace Heap
variable (L : Layout)

/-- The `for` loop of `print_free_counts`, over the scales from `i` on. -/
def printCounts (m : Memory) : (rounds i : Nat) → Option (List UInt8)
  | 0, _ => some []
  | rounds + 1, i =>
    (countFree m addressSpace 0 (L.list i)).bind fun count =>
      (printCounts m rounds (i + 1)).map fun text => countLine count i ++ text

/-- `print_free_counts`, with what the terminal is sent; `buf` is on the stack. -/
def printFreeCounts (h : Heap) (buf : Nat) : Option (Heap × List UInt8) :=
  (printCounts L h.mem (maxBlockScale + 1 - minBlockScale) minBlockScale).bind fun counts =>
    (h.mem.addrToString buf h.currentBrk).bind fun r =>
      (r.1.sendString buf).map fun addr =>
        (⟨r.1, h.currentBrk⟩, ascii "free_block counts:\n" ++ counts ++ ascii "brk at " ++ addr ++ ascii "\n")

end Heap

/-! ### Strings that are sent -/

section Strings
variable {m : Memory} {a : Nat} {text : List UInt8}

theorem sendString_eq (h : IsStr m a text) : m.sendString a = some text := by
  unfold sendString
  rw [strlen_eq h, Option.map_some, Option.some.injEq]
  apply List.ext_getElem
  · simp
  · intro i hi hi'
    have hroom := h.room
    have hchar := h.chars i text[i] (List.getElem?_eq_getElem hi')
    simp only [List.getElem_map, List.getElem_range]
    rw [wrap_eq (by omega), hchar]

/-- A count below ten is shown as its digit. -/
theorem value_sendChar_of_lt {count : Nat} (h : count < 10) : value 10 (sendChar (countChar count)) = some count := by
  have hall : ∀ d : Fin 10, value 10 (sendChar (countChar d)) = some d.val := by decide
  exact hall ⟨count, h⟩

/-- No character stands for more than nine. -/
theorem value_sendChar_lt {c : UInt8} {v : Nat} (h : value 10 (sendChar c) = some v) : v < 10 := by
  unfold sendChar at h
  split at h
  · obtain rfl : (0 : Nat) = v := Option.some.inj h
    decide
  · simp only [value, List.foldlM_cons, List.foldlM_nil, valueStep] at h
    obtain ⟨w, hstep, hw⟩ := Option.bind_eq_some_iff.mp h
    obtain ⟨d, -, hd⟩ := Option.bind_eq_some_iff.mp hstep
    obtain rfl : w = v := Option.some.inj hw
    split at hd
    · have := Option.some.inj hd
      omega
    · exact (Option.some_ne_none _ hd.symm).elim

theorem value_sendChar_iff (count : Nat) : value 10 (sendChar (countChar count)) = some count ↔ count < 10 :=
  ⟨value_sendChar_lt, value_sendChar_of_lt⟩

end Strings

/-! ### What is counted -/

section Counting
variable {m : Memory}

theorem countFree_eq {fuel a : Nat} {xs : List Nat} (h : Linked m.next m.prev a xs) (hd : (a :: xs).Nodup)
    (hf : xs.length < fuel) (count : Nat) (hc : count + xs.length < addressSpace) :
    m.countFree fuel count a = some (count + xs.length) := by
  induction xs generalizing fuel a count with
  | nil =>
    obtain ⟨fuel, rfl⟩ : ∃ k, fuel = k + 1 := Nat.exists_eq_add_one_of_ne_zero (Nat.ne_of_gt hf)
    have hend : m.next a = a := h
    unfold countFree
    rw [if_neg (not_not.mpr hend)]
    rfl
  | cons b xs ih =>
    obtain ⟨fuel, rfl⟩ : ∃ k, fuel = k + 1 := Nat.exists_eq_add_one_of_ne_zero (by omega)
    rw [List.length_cons] at hf hc
    obtain ⟨hab, -, hrest⟩ := h
    have hne : m.next a ≠ a := fun he =>
      (List.nodup_cons.mp hd).1 (List.mem_cons.mpr (Or.inl (he.symm.trans hab)))
    unfold countFree
    rw [if_pos hne, hab, wrap_eq (by omega), ih hrest (List.nodup_cons.mp hd).2 (by omega) (count + 1) (by omega),
      List.length_cons]
    congr 1
    omega

/-- The headers lead upwards, from one block to the next. -/
theorem Blocks.pairwise {a hi : Nat} {bs : List Nat} (h : Blocks m a bs hi) :
    (∀ b ∈ bs, a ≤ b) ∧ bs.Pairwise (· < ·) := by
  induction bs generalizing a with
  | nil => exact ⟨fun b hb => (List.not_mem_nil hb).elim, List.Pairwise.nil⟩
  | cons c rest ih =>
    obtain ⟨rfl, hrest⟩ := h
    obtain ⟨hle, hpair⟩ := ih hrest
    have hpos := two_pow_pos' (m.scale c)
    have hlt : ∀ b ∈ rest, c < b := fun b hb => by
      have := hle b hb
      omega
    refine ⟨fun b hb => ?_, List.pairwise_cons.mpr ⟨hlt, hpair⟩⟩
    rcases List.mem_cons.mp hb with rfl | hb
    · exact Nat.le_refl _
    · exact Nat.le_of_lt (hlt b hb)

theorem Blocks.nodup {a hi : Nat} {bs : List Nat} (h : Blocks m a bs hi) : bs.Nodup :=
  h.pairwise.2.imp Nat.ne_of_lt

/-- The blocks fill what they lead through. -/
theorem Blocks.sum {a hi : Nat} {bs : List Nat} (h : Blocks m a bs hi) :
    a + (bs.map fun b => 2 ^ m.scale b).sum = hi := by
  induction bs generalizing a with
  | nil => exact h
  | cons c rest ih =>
    obtain ⟨rfl, hrest⟩ := h
    rw [List.map_cons, List.sum_cons, ← Nat.add_assoc, ih hrest]

theorem Blocks.length_le {a hi : Nat} {bs : List Nat} (h : Blocks m a bs hi) : bs.length + a ≤ hi := by
  induction bs generalizing a with
  | nil => exact Nat.le_of_eq ((Nat.zero_add a).trans h)
  | cons c rest ih =>
    have := ih h.2
    have := two_pow_pos' (m.scale a)
    rw [List.length_cons]
    omega

/-- The free blocks of a scale, found by a walk over the headers. -/
def freeBlocks (m : Memory) (blocks : List Nat) (i : Nat) : List Nat :=
  blocks.filter fun a => m.isFree a = 1 ∧ m.scale a = i

theorem WellFormed.perm_freeBlocks {L : Layout} {h : Heap} {blocks : List Nat} {list : Nat → List Nat}
    (hw : WellFormed L h blocks list) {i : Nat} (hmin : minBlockScale ≤ i) (hmax : i ≤ maxBlockScale) :
    (list i).Perm (freeBlocks h.mem blocks i) := by
  have hnodup := (List.nodup_cons.mp (hw.chain i hmin hmax).nodup).2
  refine (List.perm_ext_iff_of_nodup hnodup (hw.tiles.nodup.filter _)).mpr fun a => ?_
  simp only [List.mem_filter, decide_eq_true_eq]
  constructor
  · exact hw.members i hmin hmax a
  · intro h
    have hcount := hw.free a h.1 h.2.1 i hmin hmax
    rw [if_pos h.2.2.symm] at hcount
    exact List.count_pos_iff.mp (by omega)

/-- The loop returns, with the number of free blocks. -/
theorem WellFormed.countFree {L : Layout} {h : Heap} {blocks : List Nat} {list : Nat → List Nat}
    (hw : WellFormed L h blocks list) (hbrk : h.currentBrk < addressSpace) {i : Nat} (hmin : minBlockScale ≤ i)
    (hmax : i ≤ maxBlockScale) :
    h.mem.countFree addressSpace 0 (L.list i) = some (freeBlocks h.mem blocks i).length := by
  have hlen := (hw.perm_freeBlocks hmin hmax).length_eq
  have hall := List.length_filter_le (fun a => h.mem.isFree a = 1 ∧ h.mem.scale a = i) blocks
  have hblocks := hw.tiles.length_le
  have hchain := hw.chain i hmin hmax
  have hfew : (list i).length < addressSpace := by
    rw [hlen]
    unfold freeBlocks
    omega
  rw [← hlen]
  exact (countFree_eq hchain.linked hchain.nodup hfew 0 (by omega)).trans (congrArg some (Nat.zero_add _))

theorem WellFormed.printCounts {L : Layout} {h : Heap} {blocks : List Nat} {list : Nat → List Nat}
    (hw : WellFormed L h blocks list) (hbrk : h.currentBrk < addressSpace) {rounds i : Nat} (hmin : minBlockScale ≤ i)
    (hmax : i + rounds ≤ maxBlockScale + 1) :
    Heap.printCounts L h.mem rounds i = some ((List.range' i rounds).flatMap fun j =>
      countLine (freeBlocks h.mem blocks j).length j) := by
  induction rounds generalizing i with
  | zero => rfl
  | succ rounds ih =>
    unfold Heap.printCounts
    rw [hw.countFree hbrk hmin (by omega), Option.bind_some, ih (by omega) (by omega)]
    rfl

end Counting

/-! ### The report -/

/-- What is printed of a heap with these blocks. -/
def freeCounts (m : Memory) (blocks : List Nat) (currentBrk : Nat) : List UInt8 :=
  ascii "free_block counts:\n" ++
    ((List.range' minBlockScale (maxBlockScale + 1 - minBlockScale)).flatMap fun i =>
      countLine (freeBlocks m blocks i).length i) ++
    ascii "brk at " ++ (ascii "0x" ++ numeral 16 currentBrk) ++ ascii "\n"

theorem addrToString_isStr {m : Memory} {buffer addr : Nat} (hlt : addr < addressSpace) (hge : 16 ≤ addr)
    (hroom : buffer + 11 < addressSpace) :
    ∃ m', m.addrToString buffer addr = some (m', buffer) ∧ IsStr m' buffer (ascii "0x" ++ numeral 16 addr) ∧
      ∀ x, ¬ (buffer ≤ x ∧ x < buffer + 11) → m'.byte x = m.byte x := by
  have hzero : ∀ c ∈ numeral 16 addr, c ≠ 0 := forall_mem_numeral (by decide) fun d hd => digitChar_ne_terminator hd
  have hmax : (numeral 16 addr).length ≤ 8 := (length_numeral_le_iff (by decide) 8).mpr hlt
  obtain ⟨m₁, m', hrun, h0x, hdigits⟩ := addrToString_writes (by omega) hlt hroom m
  rw [if_neg (Nat.not_lt_of_le hge)] at hdigits
  have hwrites := h0x.append hdigits
  rw [← List.append_assoc] at hwrites
  have hlen : (ascii "0x" ++ numeral 16 addr).length = (numeral 16 addr).length + 2 := by
    rw [List.length_append, Nat.add_comm]
    rfl
  refine ⟨m', hrun, hwrites.isStr ?_ (by omega), fun x hx => hwrites.others x fun hin => hx ?_⟩
  · rw [List.mem_append, not_or]
    exact ⟨by decide, fun h0 => hzero 0 h0 rfl⟩
  · rw [List.length_append, List.length_singleton, hlen] at hin
    omega

namespace Session
variable {L : Layout} {s : Session}

/-- In every session the report returns and writes to its buffer only; it gives the
end of the heap and, for each scale, the number of its free blocks, which can be
read where it is below ten. The blocks among which it counts fill the heap. -/
theorem reached_printFreeCounts (h : Reached L s) {buf : Nat} (hbuf : buf + 18 ≤ addressSpace) :
    ∃ blocks h', Blocks s.heap.mem heapLowerBound blocks s.heap.currentBrk ∧
      heapLowerBound + (blocks.map fun a => 2 ^ s.heap.mem.scale a).sum = s.heap.currentBrk ∧
      s.heap.printFreeCounts L buf = some (h', freeCounts s.heap.mem blocks s.heap.currentBrk) ∧
      (∀ x, ¬ (buf ≤ x ∧ x < buf + 18) → h'.mem.byte x = s.heap.mem.byte x) ∧
      ∀ i, value 10 (sendChar (countChar (freeBlocks s.heap.mem blocks i).length)) =
          some (freeBlocks s.heap.mem blocks i).length ↔ (freeBlocks s.heap.mem blocks i).length < 10 := by
  obtain ⟨P, hP⟩ := good_of_reached h
  obtain ⟨blocks, hw, -⟩ := hP.represents.wellFormed
  have htop := hP.represents.stands.valid.top
  have hbig := two_pow_pos' maxBlockScale
  have hbrk : s.heap.currentBrk < addressSpace := by
    rw [hP.represents.brk]
    omega
  have hge : 16 ≤ s.heap.currentBrk := (show 16 ≤ heapLowerBound by decide).trans hw.tiles.le
  obtain ⟨m', hrun, hstr, hothers⟩ := addrToString_isStr (m := s.heap.mem) hbrk hge
    (show buf + 11 < addressSpace by omega)
  refine ⟨blocks, ⟨m', s.heap.currentBrk⟩, hw.tiles, hw.tiles.sum, ?_, fun x hx => hothers x fun hin => hx ?_,
    fun i => value_sendChar_iff _⟩
  · unfold Heap.printFreeCounts
    rw [hw.printCounts hbrk (Nat.le_refl _) (by decide), Option.bind_some, hrun, Option.bind_some,
      sendString_eq hstr]
    rfl
  · omega

theorem reached_printFreeCounts_held :
    ∃ (s : Session) (blocks : List Nat) (h' : Heap), s.live = [(heapLowerBound + 9, 24)] ∧
      s.heap.printFreeCounts kernelImage 0x200000 =
        some (h', freeCounts s.heap.mem blocks s.heap.currentBrk) := by
  obtain ⟨s, hs, -, hlive⟩ := exists_reached kernelImage [.allocate 24] rfl
  obtain ⟨blocks, h', -, -, hprint, -, -⟩ := reached_printFreeCounts hs (show 0x200000 + 18 ≤ addressSpace by decide)
  exact ⟨s, blocks, h', hlive, hprint⟩

/-- The first block is split until 32 bytes are left, which leaves a block of each scale above. -/
example : (Heap.initHeap kernelImage Memory.zero heapLowerBound).bind (fun h =>
    (h.allocate kernelImage 24).bind fun x => Heap.printCounts kernelImage x.1.mem 12 minBlockScale) =
    some ((List.range 12).flatMap fun i => countLine (if 2 ≤ i ∧ i ≤ 10 then 1 else 0) (i + minBlockScale)) := by
  decide +kernel

end Session
end ShompOS
