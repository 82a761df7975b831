import ShompOS.Memory

/-! The heap's data in memory (`heap.h`).

A block starts with a packed nine-byte `block_header`: a `list_header` (`next`
and `prev`, four bytes each) and one byte with `is_free` in bit 0 and `scale` in
the other seven. The heads of the free lists are bare `list_header`s in the
array `free_list`, indexed by scale, which the linker places below the heap.
`Layout.Node` says which addresses can be nodes of a free list; fields of two
different nodes never share a byte, and the rest of the file is what follows
from that about reading one field after writing another. -/
namespace ShompOS

abbrev heapLowerBound : Nat := 0x4000000
abbrev maxBlockScale : Nat := 0x0F
abbrev minBlockScale : Nat := 0x04
/-- `sizeof(block_header)` -/
abbrev headerSize : Nat := 9

/-- Where the kernel image is linked, as far as the heap depends on it. -/
structure Layout where
  /-- The address of `free_list`. -/
  freeList : Nat
  pos : 0 < freeList
  below : freeList + 8 * (maxBlockScale + 1) ≤ heapLowerBound

namespace Memory

def next (m : Memory) (p : Nat) : Nat := m.load32 p
def prev (m : Memory) (p : Nat) : Nat := m.load32 (wrap (p + 4))
def isFree (m : Memory) (p : Nat) : Nat := m.load8 (wrap (p + 8)) % 2
def scale (m : Memory) (p : Nat) : Nat := m.load8 (wrap (p + 8)) / 2

def setNext (m : Memory) (p v : Nat) : Memory := m.store32 p v
def setPrev (m : Memory) (p v : Nat) : Memory := m.store32 (wrap (p + 4)) v
def setIsFree (m : Memory) (p v : Nat) : Memory := m.store8 (wrap (p + 8)) (v % 2 + 2 * m.scale p)
def setScale (m : Memory) (p v : Nat) : Memory :=
  m.store8 (wrap (p + 8)) (m.isFree p + 2 * (v % 2 ^ 7))

theorem next_lt (m : Memory) (p : Nat) : m.next p < addressSpace := m.load32_lt p
theorem prev_lt (m : Memory) (p : Nat) : m.prev p < addressSpace := m.load32_lt _

end Memory

namespace Layout

/-- The kernel is linked from 2M on; here `free_list` is one megabyte into it. -/
def kernelImage : Layout := ⟨0x300000, by decide, by decide⟩

variable (L : Layout)

/-- `&free_list[scale]` -/
def list (scale : Nat) : Nat := L.freeList + 8 * scale

/-- Where a block can start. -/
structure Site (p : Nat) : Prop where
  lower : heapLowerBound ≤ p
  aligned : 16 ∣ p - heapLowerBound
  upper : p + 16 ≤ addressSpace

/-- What can be a node of a free list: a list head or a block. -/
def Node (p : Nat) : Prop := (∃ s, s ≤ maxBlockScale ∧ p = L.list s) ∨ Site p

/-- The bytes of the array `free_list`. -/
def ListByte (x : Nat) : Prop := L.freeList ≤ x ∧ x < L.freeList + 8 * (maxBlockScale + 1)

variable {L}

theorem list_lt {s : Nat} (hs : s ≤ maxBlockScale) : L.list s + 8 ≤ heapLowerBound := by
  have := L.below
  unfold list
  omega

/-- The heap is above the array. -/
theorem ListByte.not_of_le {x : Nat} (h : heapLowerBound ≤ x) : ¬ L.ListByte x := by
  intro hx
  have := hx.2
  have := L.below
  omega

theorem node_list {s : Nat} (hs : s ≤ maxBlockScale) : L.Node (L.list s) := Or.inl ⟨s, hs, rfl⟩

theorem Site.node {p : Nat} (h : Site p) : L.Node p := Or.inr h

theorem list_injective {s t : Nat} (h : L.list s = L.list t) : s = t := by
  unfold list at h
  omega

theorem list_ne_site {s p : Nat} (hs : s ≤ maxBlockScale) (hp : Site p) : L.list s ≠ p := by
  have := list_lt (L := L) hs
  have := hp.lower
  omega

theorem Node.upper {p : Nat} (h : L.Node p) : p + 8 ≤ addressSpace := by
  rcases h with ⟨s, hs, rfl⟩ | hp
  · have := list_lt (L := L) hs
    have : heapLowerBound ≤ addressSpace := by decide
    omega
  · have := hp.upper
    omega

theorem Site.ne_zero {p : Nat} (h : Site p) : p ≠ 0 := by
  have := h.lower
  have : 0 < heapLowerBound := by decide
  omega

/-- Two blocks start at least sixteen bytes apart. -/
theorem Site.apart {p q : Nat} (hp : Site p) (hq : Site q) (hne : p ≠ q) :
    p + 16 ≤ q ∨ q + 16 ≤ p := by
  obtain ⟨i, hi⟩ := hp.aligned
  obtain ⟨j, hj⟩ := hq.aligned
  have := hp.lower
  have := hq.lower
  omega

/-- A block's header and another node's links do not meet. -/
theorem Site.apart_node {p q : Nat} (hp : Site p) (hq : L.Node q) (hne : p ≠ q) :
    p + 9 ≤ q ∨ q + 8 ≤ p := by
  rcases hq with ⟨s, hs, rfl⟩ | hq
  · have := list_lt (L := L) hs
    have := hp.lower
    omega
  · have := hp.apart hq hne
    omega

theorem Node.apart {p q : Nat} (hp : L.Node p) (hq : L.Node q) (hne : p ≠ q) :
    p + 8 ≤ q ∨ q + 8 ≤ p := by
  rcases hp with ⟨s, hs, rfl⟩ | hp
  · rcases hq with ⟨t, ht, rfl⟩ | hq
    · have hst : s ≠ t := fun h => hne (h ▸ rfl)
      unfold list
      omega
    · have := hq.apart_node (L := L) (node_list hs) (Ne.symm hne)
      omega
  · have := hp.apart_node hq hne
    omega

end Layout

/-! ### Reading a field after writing one -/

namespace Memory
variable {L : Layout} {p q : Nat} (m : Memory) (v : Nat)
open Layout

theorem next_setNext (hp : L.Node p) (hq : L.Node q) (hv : v < addressSpace) :
    (m.setNext p v).next q = if q = p then v else m.next q := by
  have hpu := hp.upper
  have hqu := hq.upper
  unfold setNext next
  split
  · next h =>
    subst h
    exact load32_store32 m (by omega) hv
  · next h =>
    have := hq.apart hp h
    exact load32_store32_ne m (by omega) (by omega) (by omega)

theorem prev_setNext (hp : L.Node p) (hq : L.Node q) : (m.setNext p v).prev q = m.prev q := by
  have hpu := hp.upper
  have hqu := hq.upper
  unfold setNext prev
  rw [wrap_eq (by omega)]
  refine load32_store32_ne m (by omega) (by omega) ?_
  by_cases h : q = p
  · omega
  · have := hq.apart hp h
    omega

theorem next_setPrev (hp : L.Node p) (hq : L.Node q) : (m.setPrev p v).next q = m.next q := by
  have hpu := hp.upper
  have hqu := hq.upper
  unfold setPrev next
  rw [wrap_eq (by omega)]
  refine load32_store32_ne m (by omega) (by omega) ?_
  by_cases h : q = p
  · omega
  · have := hq.apart hp h
    omega

theorem prev_setPrev (hp : L.Node p) (hq : L.Node q) (hv : v < addressSpace) :
    (m.setPrev p v).prev q = if q = p then v else m.prev q := by
  have hpu := hp.upper
  have hqu := hq.upper
  unfold setPrev prev
  rw [wrap_eq (by omega), wrap_eq (by omega)]
  split
  · next h =>
    subst h
    exact load32_store32 m (by omega) hv
  · next h =>
    have := hq.apart hp h
    exact load32_store32_ne m (by omega) (by omega) (by omega)

/-- The links are written without the header's last byte. -/
theorem flags_setNext (hp : L.Node p) (hq : Site q) :
    (m.setNext p v).load8 (wrap (q + 8)) = m.load8 (wrap (q + 8)) := by
  have hpu := hp.upper
  have hqu := hq.upper
  unfold setNext
  rw [wrap_eq (by omega)]
  refine load8_store32_ne m (by omega) ?_
  by_cases h : q = p
  · omega
  · have := hq.apart_node hp h
    omega

theorem flags_setPrev (hp : L.Node p) (hq : Site q) :
    (m.setPrev p v).load8 (wrap (q + 8)) = m.load8 (wrap (q + 8)) := by
  have hpu := hp.upper
  have hqu := hq.upper
  unfold setPrev
  rw [wrap_eq (by omega), wrap_eq (by omega)]
  refine load8_store32_ne m (by omega) ?_
  by_cases h : q = p
  · omega
  · have := hq.apart_node hp h
    omega

theorem isFree_setNext (hp : L.Node p) (hq : Site q) :
    (m.setNext p v).isFree q = m.isFree q := by rw [isFree, flags_setNext m v hp hq, isFree]

theorem isFree_setPrev (hp : L.Node p) (hq : Site q) :
    (m.setPrev p v).isFree q = m.isFree q := by rw [isFree, flags_setPrev m v hp hq, isFree]

theorem scale_setNext (hp : L.Node p) (hq : Site q) :
    (m.setNext p v).scale q = m.scale q := by rw [scale, flags_setNext m v hp hq, scale]

theorem scale_setPrev (hp : L.Node p) (hq : Site q) :
    (m.setPrev p v).scale q = m.scale q := by rw [scale, flags_setPrev m v hp hq, scale]

/-- A store to a header's last byte leaves every link alone. -/
theorem links_flags (hp : Site p) (hq : L.Node q) :
    (m.store8 (wrap (p + 8)) v).next q = m.next q ∧ (m.store8 (wrap (p + 8)) v).prev q = m.prev q := by
  have hpu := hp.upper
  have hqu := hq.upper
  have hsep : p + 8 < q ∨ q + 8 ≤ p + 8 := by
    by_cases h : p = q
    · omega
    · have := hp.apart_node hq h
      omega
  unfold next prev
  rw [wrap_eq (by omega), wrap_eq (by omega)]
  exact ⟨load32_store8_ne m (by omega) (by omega), load32_store8_ne m (by omega) (by omega)⟩

theorem next_setIsFree (hp : Site p) (hq : L.Node q) : (m.setIsFree p v).next q = m.next q :=
  (links_flags m _ hp hq).1

theorem prev_setIsFree (hp : Site p) (hq : L.Node q) : (m.setIsFree p v).prev q = m.prev q :=
  (links_flags m _ hp hq).2

theorem next_setScale (hp : Site p) (hq : L.Node q) : (m.setScale p v).next q = m.next q :=
  (links_flags m _ hp hq).1

theorem prev_setScale (hp : Site p) (hq : L.Node q) : (m.setScale p v).prev q = m.prev q :=
  (links_flags m _ hp hq).2

theorem scale_lt (m : Memory) (p : Nat) : m.scale p < 2 ^ 7 := by
  have := m.load8_lt (wrap (p + 8))
  unfold scale
  omega

theorem flags_store8 (hp : Site p) (hq : Site q) :
    (m.store8 (wrap (p + 8)) v).load8 (wrap (q + 8)) =
      if q = p then v % 2 ^ 8 else m.load8 (wrap (q + 8)) := by
  have hpu := hp.upper
  have hqu := hq.upper
  rw [wrap_eq (by omega), wrap_eq (by omega), load8_store8]
  by_cases h : q = p
  · rw [if_pos h, if_pos (by omega)]
  · rw [if_neg h, if_neg (by omega)]

theorem isFree_setIsFree (hp : Site p) (hq : Site q) :
    (m.setIsFree p v).isFree q = if q = p then v % 2 else m.isFree q := by
  have := m.scale_lt p
  unfold setIsFree isFree
  rw [flags_store8 m _ hp hq]
  split
  · omega
  · rfl

theorem scale_setIsFree (hp : Site p) (hq : Site q) : (m.setIsFree p v).scale q = m.scale q := by
  have := m.scale_lt p
  unfold setIsFree
  rw [scale, flags_store8 m _ hp hq]
  split
  · next h =>
    subst h
    omega
  · rfl

theorem isFree_setScale (hp : Site p) (hq : Site q) : (m.setScale p v).isFree q = m.isFree q := by
  have : m.isFree p < 2 := Nat.mod_lt _ (by decide)
  unfold setScale
  rw [isFree, flags_store8 m _ hp hq]
  split
  · next h =>
    subst h
    omega
  · rfl

theorem scale_setScale (hp : Site p) (hq : Site q) (hv : v < 2 ^ 7) :
    (m.setScale p v).scale q = if q = p then v else m.scale q := by
  have : m.isFree p < 2 := Nat.mod_lt _ (by decide)
  unfold setScale scale
  rw [flags_store8 m _ hp hq]
  split
  · omega
  · rfl

/-! ### Which bytes a field is -/

variable {R : Nat → Prop}

theorem spares_setNext (hp : L.Node p) (h : ∀ x, p ≤ x → x < p + 8 → ¬ R x) :
    Spares R m (m.setNext p v) := by
  have := hp.upper
  exact spares_store32 m v (by omega) fun x h1 h2 => h x h1 (by omega)

theorem spares_setPrev (hp : L.Node p) (h : ∀ x, p ≤ x → x < p + 8 → ¬ R x) :
    Spares R m (m.setPrev p v) := by
  have := hp.upper
  unfold setPrev
  rw [wrap_eq (by omega)]
  exact spares_store32 m v (by omega) fun x h1 h2 => h x (by omega) (by omega)

theorem spares_setIsFree (hp : Site p) (h : ∀ x, p ≤ x → x < p + 9 → ¬ R x) :
    Spares R m (m.setIsFree p v) := by
  have := hp.upper
  unfold setIsFree
  rw [wrap_eq (by omega)]
  exact spares_store8 m _ (h _ (by omega) (by omega))

theorem spares_setScale (hp : Site p) (h : ∀ x, p ≤ x → x < p + 9 → ¬ R x) :
    Spares R m (m.setScale p v) := by
  have := hp.upper
  unfold setScale
  rw [wrap_eq (by omega)]
  exact spares_store8 m _ (h _ (by omega) (by omega))

end Memory
end ShompOS
