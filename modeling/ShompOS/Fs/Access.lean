import ShompOS.Fs.Parts

/-! Reading, writing and moving through a descriptor.

A write past the end of a file moves the file to a new block (`FileNode.write`); a
read copies into the caller's memory. Both work on two records, the file's and the
descriptor's; the rest of the cells is a frame. -/
namespace ShompOS
open Memory

variable {L : Layout} {S : Nat → UInt8} {P : Pool} {s : Ramfs} {f : FileNode} {e : OpenFd} {i : Fin maxFds}
  {F G : List Cell}
  {fd : Int} {buf : Nat} {held : List (Nat × Nat)}

namespace FileNode
variable {gap bytes : List UInt8}

/-- No memory for the longer file. -/
theorem write_full (hlong : e.start f + bytes.length > f.contents.length)
    (hzero : (P.allocate (e.start f + bytes.length)).2 = 0) :
    f.write P e gap bytes = (P, f, {e with position := e.start f}, -1) := by
  unfold write
  dsimp only
  rw [if_pos hlong, if_pos hzero]

theorem write_moved (hlong : e.start f + bytes.length > f.contents.length)
    (hne : (P.allocate (e.start f + bytes.length)).2 ≠ 0) :
    f.write P e gap bytes = ((P.allocate (e.start f + bytes.length)).1.freed f.data,
      {f with data := (P.allocate (e.start f + bytes.length)).2, contents := overwritten f.contents gap bytes (e.start f)},
      {e with position := e.start f + bytes.length}, (bytes.length : Int)) := by
  unfold write
  dsimp only
  rw [if_pos hlong, if_neg hne]

theorem write_inside (hshort : ¬ e.start f + bytes.length > f.contents.length) :
    f.write P e gap bytes = (P, {f with contents := overwritten f.contents gap bytes (e.start f)},
      {e with position := e.start f + bytes.length}, (bytes.length : Int)) := by
  unfold write
  dsimp only
  rw [if_neg hshort]

/-- A write changes no address and no name. -/
theorem write_same (f : FileNode) (P : Pool) (e : OpenFd) (gap bytes : List UInt8) :
    (f.write P e gap bytes).2.1.addr = f.addr ∧ (f.write P e gap bytes).2.1.text = f.text ∧
      (f.write P e gap bytes).2.2.1.addr = e.addr ∧ (f.write P e gap bytes).2.2.1.file = e.file := by
  unfold write
  dsimp only
  split
  · split <;> exact ⟨rfl, rfl, rfl, rfl⟩
  · exact ⟨rfl, rfl, rfl, rfl⟩

end FileNode

/-- The copy of a file that is made for a write past its end. -/
theorem overwritten_copy {contents junk bytes : List UInt8} {position : Nat}
    (hlen : junk.length = position + bytes.length) (hlong : contents.length ≤ junk.length) :
    ∃ gap, gap.length = position - contents.length ∧
      (contents ++ junk.drop contents.length).take position ++ bytes ++
        (contents ++ junk.drop contents.length).drop (position + bytes.length) =
      overwritten contents gap bytes position := by
  refine ⟨(junk.drop contents.length).take (position - contents.length), ?_, ?_⟩
  · rw [List.length_take, List.length_drop]
    omega
  · have hall : (contents ++ junk.drop contents.length).length = position + bytes.length := by
      rw [List.length_append, List.length_drop]
      omega
    unfold overwritten
    rw [List.drop_eq_nil_of_le (Nat.le_of_eq hall), List.drop_eq_nil_of_le (i := position + bytes.length) (by omega),
      List.take_append, List.take_append, List.take_take, Nat.min_self]

theorem length_overwritten {contents gap bytes : List UInt8} {position : Nat}
    (hgap : gap.length = position - contents.length) :
    (overwritten contents gap bytes position).length = max contents.length (position + bytes.length) := by
  unfold overwritten
  simp only [List.length_append, List.length_take, List.length_drop]
  omega

theorem toSigned_eq {v : Nat} (h : v < 2 ^ 31) : toSigned v = v := if_pos h

/-- The last part of a write, once the file is long enough. -/
theorem Owns.writeBytes {h : Heap} {file data fdEntry position : Nat} {w₀ w₂ u₀ u₁ u₃ : Nat} {old bytes : List UInt8}
    (ho : Owns L S P h ((file, .words [w₀, data, w₂]) :: (data, .bytes old) ::
      (fdEntry, .words [u₀, u₁, position, u₃]) :: G)) (hF : F ⊆ G) (hbuf : LentBytes L F h.mem buf bytes)
    (hlen : position + bytes.length ≤ old.length) :
    Owns L S P ((h.memcpy (wrap (h.word file RamfsFile.data + h.word fdEntry RamfsFd.position)) buf bytes.length).setWord
        fdEntry RamfsFd.position
        (wrap ((h.memcpy (wrap (h.word file RamfsFile.data + h.word fdEntry RamfsFd.position)) buf bytes.length).word
          fdEntry RamfsFd.position + bytes.length)))
      ((file, .words [w₀, data, w₂]) :: (data, .bytes
        (old.take position ++ bytes ++ old.drop (position + bytes.length))) ::
        (fdEntry, .words [u₀, u₁, position + bytes.length, u₃]) :: G) := by
  have hpM := two_pow_pos' maxBlockScale
  have hdata := ho.bounds (List.mem_of_getElem? (i := 1) rfl)
  rw [Contents.size_bytes] at hdata
  rw [ho.word_eq (List.mem_of_getElem? (i := 0) rfl) (i := RamfsFile.data) rfl,
    ho.word_eq (List.mem_of_getElem? (i := 2) rfl) (i := RamfsFd.position) rfl, wrap_eq (by omega)]
  have hout : ∀ c ∈ F, c.1 ≠ data := fun c hc =>
    (ho.perm (List.Perm.swap ..)).fresh c (List.mem_append_right [_, _] (hF hc))
  have ho₁ := ho.memcpyBytes 1 rfl (d := position) hlen hbuf.bytes hbuf.room fun j hj =>
    ho.lent_outside (List.Subset.trans hF (fun c hc => List.mem_append_right [_, _, _] hc)) (hbuf.lent j hj)
      (List.mem_of_getElem? (i := 1) rfl) hout
  rw [ho₁.word_eq (List.mem_of_getElem? (i := 2) rfl) (i := RamfsFd.position) rfl, wrap_eq (by omega)]
  exact ho₁.setWord 2 rfl (i := RamfsFd.position) (v := position + bytes.length) (Nat.le_add_left 3 1) (by omega)

namespace Ramfs

/-- With `O_APPEND` a write begins at the end. -/
def toStart (h : Heap) (fdEntry : Nat) : Heap :=
  if h.word fdEntry RamfsFd.flags &&& oAppend ≠ 0 then
    h.setWord fdEntry RamfsFd.position (h.word (h.word fdEntry RamfsFd.file) RamfsFile.size)
  else h

/-- The part of `ramfs_write` that makes a file longer. With the heap come the addresses
that the copy of the old data stores to, and whether there was memory. -/
def lengthen (L : Layout) (h : Heap) (file newSize : Nat) : Option (Heap × List Nat × Bool) :=
  if newSize > h.word file RamfsFile.size then
    (h.allocate L newSize).bind fun (h, newData) =>
      if newData = 0 then some (h, [], false)
      else
        let oldData := h.word file RamfsFile.data
        let size := h.word file RamfsFile.size
        let copied :=
          if oldData ≠ 0 then ((h.memcpy newData oldData size).free L oldData).map fun r =>
            (r.1, memcpyStores size newData)
          else some (h, [])
        copied.map fun (h, stored) =>
          let h := h.setWord file RamfsFile.data newData
          (h.setWord file RamfsFile.size newSize, stored, true)
  else some (h, [], true)

/-- The part that writes the new data. -/
def putData (h : Heap) (fdEntry file buf count : Nat) : Heap :=
  let h := h.memcpy (wrap (h.word file RamfsFile.data + h.word fdEntry RamfsFd.position)) buf count
  h.setWord fdEntry RamfsFd.position (wrap (h.word fdEntry RamfsFd.position + count))

/-- These are the parts of `ramfs_write`. -/
theorem ramfsWrite_eq {fdEntry count : Nat} (hfd : s.fdEntry fd = some fdEntry)
    (hterm : ¬ (fd = stdoutFileno ∨ fd = stderrFileno))
    (hmode : s.heap.word fdEntry RamfsFd.flags &&& (oWronly ||| oRdwr) ≠ 0)
    (hfile : s.heap.word fdEntry RamfsFd.file ≠ 0) :
    s.ramfsWrite L fd buf count = (lengthen L (toStart s.heap fdEntry) (s.heap.word fdEntry RamfsFd.file)
      (wrap ((toStart s.heap fdEntry).word fdEntry RamfsFd.position + count))).map fun (h, _, ok) =>
        if ok then ({s with heap := putData h fdEntry (s.heap.word fdEntry RamfsFd.file) buf count}, toSigned count)
        else ({s with heap := h}, -1) := by
  unfold ramfsWrite
  rw [hfd]
  dsimp only
  rw [if_neg hterm, if_neg hmode, if_neg hfile]
  change ((if _ then _ else _ : Option (Heap × Bool)).map _) = _
  unfold lengthen
  rw [show (if s.heap.word fdEntry RamfsFd.flags &&& oAppend ≠ 0 then s.heap.setWord fdEntry RamfsFd.position
    (s.heap.word (s.heap.word fdEntry RamfsFd.file) RamfsFile.size) else s.heap) = toStart s.heap fdEntry from rfl]
  split
  · rw [Option.map_bind, Option.map_bind]
    congr 1
    funext ⟨h, newData⟩
    dsimp only [Function.comp_apply]
    split
    · rfl
    · split
      · rw [Option.map_map, Option.map_map, Option.map_map, Option.map_map]
        rfl
      · rfl
  · rfl

end Ramfs

theorem Owns.toStart (ho : Owns L S P s.heap (f.cells ++ (e.cells i ++ G))) (hfile : e.file = f.addr) :
    Owns L S P (Ramfs.toStart s.heap e.addr) (f.cells ++ (({e with position := e.start f} : OpenFd).cells i ++ G)) := by
  have hpM := two_pow_pos' maxBlockScale
  have hfb := ho.bounds (List.mem_of_getElem? (i := 2) rfl)
  rw [Contents.size_bytes] at hfb
  have hptr := (ho.word_eq (List.mem_of_getElem? (i := 3) rfl) (i := RamfsFd.file) rfl).trans hfile
  unfold Ramfs.toStart OpenFd.start
  rw [ho.word_eq (List.mem_of_getElem? (i := 3) rfl) (i := RamfsFd.flags) rfl, hptr,
    ho.word_eq (List.mem_of_getElem? (i := 0) rfl) (i := RamfsFile.size) rfl]
  by_cases ha : e.flags &&& oAppend ≠ 0
  · rw [if_pos ha, if_pos ha]
    exact ho.setWord 3 rfl (i := RamfsFd.position) (v := f.contents.length) (Nat.le_add_left 3 1) (by omega)
  · rw [if_neg ha, if_neg ha]
    exact ho

/-- A file's record and data with a longer block. -/
theorem Owns.lengthen {h : Heap} {file name data newSize : Nat} {old : List UInt8}
    (ho : Owns L S P h ((file, .words [name, data, old.length]) :: (data, .bytes old) :: G))
    (hlong : newSize > old.length) (hroom : newSize < addressSpace) :
    ((P.allocate newSize).2 = 0 → ∃ h', Ramfs.lengthen L h file newSize = some (h', [], false) ∧
      Owns L S P h' ((file, .words [name, data, old.length]) :: (data, .bytes old) :: G)) ∧
    ((P.allocate newSize).2 ≠ 0 → ∃ (h' : Heap) (junk : List UInt8), junk.length = newSize ∧
      Ramfs.lengthen L h file newSize = some (h', memcpyStores old.length (P.allocate newSize).2, true) ∧
      Owns L S ((P.allocate newSize).1.freed data) h' ((file, .words [name, (P.allocate newSize).2, newSize]) ::
        ((P.allocate newSize).2, .bytes (old ++ junk.drop old.length)) :: G)) := by
  obtain ⟨h₁, hcall₁, hzero₁, hnew₁⟩ := ho.allocate newSize
  unfold Ramfs.lengthen
  rw [ho.word_eq (List.mem_of_getElem? (i := 0) rfl) (i := RamfsFile.size) rfl, if_pos hlong, hcall₁, Option.bind_some]
  dsimp only
  constructor
  · intro hzero
    rw [if_pos hzero]
    exact ⟨h₁, rfl, (hzero₁ hzero).2⟩
  · intro hzero
    obtain ⟨junk, hjunk, ho₁⟩ := Owns.exists_bytes (hnew₁ hzero) (Nat.le_refl _)
    generalize P.allocate newSize = r₁ at *
    obtain ⟨P₁, newData⟩ := r₁
    dsimp only at *
    rw [if_neg hzero]
    have hpM := two_pow_pos' maxBlockScale
    have hnew := ho₁.bounds (List.mem_cons_self ..)
    have hold := ho₁.bounds (List.mem_of_getElem? (i := 2) rfl)
    rw [Contents.size_bytes] at hnew hold
    have hold0 := ho₁.ne_zero (List.mem_of_getElem? (i := 2) rfl)
    have hne : newData ≠ data := fun he => ho₁.fresh _ (List.mem_of_getElem? (i := 1) rfl) he.symm
    have hsep := ho₁.apart (List.mem_of_getElem? (i := 0) rfl) (List.mem_of_getElem? (i := 2) rfl) hne
    rw [Contents.size_bytes, Contents.size_bytes] at hsep
    rw [ho₁.word_eq (List.mem_of_getElem? (i := 1) rfl) (i := RamfsFile.data) rfl,
      ho₁.word_eq (List.mem_of_getElem? (i := 1) rfl) (i := RamfsFile.size) rfl, if_pos hold0]
    have ho₂ := ho₁.memcpyBytes 0 rfl (d := 0) (by omega)
      (fun j b hj => ho₁.byte_eq (List.mem_of_getElem? (i := 2) rfl) hj) (by omega) fun j hj => by omega
    rw [Nat.zero_add, List.take_zero, List.nil_append, Nat.add_zero] at ho₂
    obtain ⟨h₃, hfree, ho₃⟩ := ho₂.free 2 rfl
    rw [hfree]
    have ho₄ := ho₃.setWord 1 rfl (i := RamfsFile.data) (v := newData) (Nat.le_add_left 2 1) (by omega)
    have ho₅ := ho₄.setWord 1 rfl (i := RamfsFile.size) (v := newSize) (Nat.le_refl 3) hroom
    exact ⟨_, junk, hjunk, rfl, ho₅.perm (List.Perm.swap ..)⟩

theorem Ramfs.lengthen_short {h : Heap} {file newSize : Nat} (hshort : ¬ newSize > h.word file RamfsFile.size) :
    Ramfs.lengthen L h file newSize = some (h, [], true) := if_neg hshort

/-- The records of an open file, those that a write changes first. -/
theorem open_front (f : FileNode) (e : OpenFd) (i : Fin maxFds) (G : List Cell) :
    (f.cells ++ (e.cells i ++ G)).Perm
      ((f.addr, .words [f.name, f.data, f.contents.length]) :: (f.data, .bytes f.contents) ::
        (e.addr, .words [i, e.file, e.position, e.flags]) :: (f.name, .bytes (f.text ++ [0])) :: G) := by
  simp only [FileNode.cells, OpenFd.cells]
  rw [← Multiset.coe_eq_coe]
  simp only [← Multiset.cons_coe, ← Multiset.singleton_add, List.cons_append, List.nil_append]
  abel

theorem Owns.ramfsWrite (ho : Owns L S P s.heap (f.cells ++ (e.cells i ++ G))) (hfd : s.fdEntry fd = some e.addr)
    (hterm : ¬ (fd = stdoutFileno ∨ fd = stderrFileno)) (hmode : e.flags &&& (oWronly ||| oRdwr) ≠ 0)
    (hfile : e.file = f.addr) {bytes : List UInt8} (hF : F ⊆ G) (hbuf : LentBytes L F s.heap.mem buf bytes)
    (hroom : e.start f + bytes.length < addressSpace) :
    ∃ h' gap, gap.length = e.start f - f.contents.length ∧
      s.ramfsWrite L fd buf bytes.length = some ({s with heap := h'}, (f.write P e gap bytes).2.2.2) ∧
      Owns L S (f.write P e gap bytes).1 h' ((f.write P e gap bytes).2.1.cells ++
        ((f.write P e gap bytes).2.2.1.cells i ++ G)) := by
  have hM : 2 ^ maxBlockScale < 2 ^ 31 := by decide
  have hptr := ho.word_eq (List.mem_of_getElem? (i := 3) rfl) (i := RamfsFd.file) rfl
  rw [Ramfs.ramfsWrite_eq hfd hterm ((ho.word_eq (List.mem_of_getElem? (i := 3) rfl)
    (i := RamfsFd.flags) rfl).symm ▸ hmode)
    (by rw [hptr, hfile]; exact ho.ne_zero (List.mem_of_getElem? (i := 0) rfl)), hptr, hfile]
  have ho₀ := Owns.toStart ho hfile
  rw [ho₀.word_eq (List.mem_of_getElem? (i := 3) rfl) (i := RamfsFd.position) rfl, wrap_eq hroom]
  have hfront : Owns L S P (Ramfs.toStart s.heap e.addr) ((f.addr, .words [f.name, f.data, f.contents.length]) ::
      (f.data, .bytes f.contents) :: (e.addr, .words [i, e.file, e.start f, e.flags]) ::
        (f.name, .bytes (f.text ++ [0])) :: G) :=
    ho₀.perm (open_front f {e with position := e.start f} i G)
  have hbuf₀ := hbuf.congr ho ho₀ (List.Subset.trans hF (fun c hc => List.mem_append_right [_, _, _, _] hc))
    (List.Subset.trans hF (fun c hc => List.mem_append_right [_, _, _, _] hc))
  have hfb := ho₀.bounds (List.mem_of_getElem? (i := 2) rfl)
  rw [Contents.size_bytes] at hfb
  by_cases hlong : e.start f + bytes.length > f.contents.length
  · obtain ⟨hfull, hmoved⟩ := hfront.lengthen hlong hroom
    by_cases hzero : (P.allocate (e.start f + bytes.length)).2 = 0
    · obtain ⟨h₁, hcall₁, ho₁⟩ := hfull hzero
      refine ⟨h₁, List.replicate (e.start f - f.contents.length) 0, List.length_replicate, ?_⟩
      rw [FileNode.write_full hlong hzero, hcall₁]
      exact ⟨rfl, ho₁.perm (open_front f {e with position := e.start f} i G).symm⟩
    obtain ⟨h₁, junk, hjunk, hcall₁, ho₁⟩ := hmoved hzero
    obtain ⟨gap, hgap, hover⟩ := overwritten_copy hjunk (show f.contents.length ≤ junk.length by omega)
    have hnew := ho₁.bounds (List.mem_of_getElem? (i := 1) rfl)
    rw [Contents.size_bytes, List.length_append, List.length_drop] at hnew
    have hbuf₁ := hbuf₀.congr hfront ho₁ (List.Subset.trans hF (fun c hc => List.mem_append_right [_, _, _, _] hc))
      (List.Subset.trans hF (fun c hc => List.mem_append_right [_, _, _, _] hc))
    have ho₂ := ho₁.writeBytes (List.subset_cons_of_subset _ hF) hbuf₁
      (by rw [List.length_append, List.length_drop]; omega)
    rw [hover] at ho₂
    rw [hcall₁]
    simp only [FileNode.write_moved hlong hzero]
    refine ⟨_, gap, hgap, ?_, ho₂.perm ?_⟩
    · rw [Option.map_some]
      dsimp only
      rw [if_pos rfl, toSigned_eq (by omega)]
      rfl
    · refine .trans (.of_eq ?_) (open_front {f with data := _, contents := _} {e with position := _} i G).symm
      simp only [length_overwritten hgap]
      rw [Nat.max_eq_right (by omega)]
  · rw [Ramfs.lengthen_short (by rw [hfront.word_eq (List.mem_of_getElem? (i := 0) rfl) (i := RamfsFile.size) rfl]; exact hlong)]
    have ho₁ := hfront.writeBytes (List.subset_cons_of_subset _ hF) hbuf₀ (by omega)
    have hgap : ([] : List UInt8).length = e.start f - f.contents.length := by
      rw [List.length_nil]
      omega
    have hover : f.contents.take (e.start f) ++ bytes ++ f.contents.drop (e.start f + bytes.length) =
        overwritten f.contents [] bytes (e.start f) := by
      unfold overwritten
      rw [List.append_nil]
    rw [hover] at ho₁
    simp only [FileNode.write_inside hlong]
    refine ⟨_, [], hgap, ?_, ho₁.perm ?_⟩
    · rw [Option.map_some]
      dsimp only
      rw [if_pos rfl, toSigned_eq (by omega)]
      rfl
    · refine .trans (.of_eq ?_) (open_front {f with contents := _} {e with position := _} i G).symm
      simp only [length_overwritten hgap]
      rw [Nat.max_eq_left (by omega)]

/-! ### ramfs_read -/

theorem OpenFd.readCount_le (e : OpenFd) (f : FileNode) (count : Nat) : e.readCount f count ≤ count := by
  unfold readCount
  dsimp only
  split <;> omega

/-- With the position past what was read. -/
def OpenFd.afterRead (e : OpenFd) (f : FileNode) (count : Nat) : OpenFd :=
  {e with position := wrap (e.position + e.readCount f count)}

theorem Settled.ramfsRead (hs : Settled L held P s.heap (f.cells ++ (e.cells i ++ G)))
    (hfd : s.fdEntry fd = some e.addr)
    (hstdin : fd ≠ stdinFileno) (hmode : ¬ (e.flags &&& oRdonly = 0 ∧ e.flags &&& oRdwr = 0)) (hfile : e.file = f.addr)
    {count : Nat} (hbuf : ∀ j, j < count → Callers L held (buf + j)) (hroom : buf + count < addressSpace)
    (keyboard : Ramfs → Option Ramfs) :
    ∃ h', s.ramfsRead keyboard fd buf count = some ({s with heap := h'}, toSigned (e.readCount f count)) ∧
      Settled L held P h' (f.cells ++ ((e.afterRead f count).cells i ++ G)) ∧
      (∀ x, Callers L held x → ¬ (buf ≤ x ∧ x < buf + e.readCount f count) → h'.mem.byte x = s.heap.mem.byte x) ∧
      (e.position + e.readCount f count ≤ f.contents.length → ∀ j, j < e.readCount f count →
        f.contents[e.position + j]? = some (h'.mem.byte (buf + j))) := by
  have ho : Owns L s.heap.mem.byte P s.heap (f.cells ++ (e.cells i ++ G) ++ heldCells held s.heap.mem) := hs
  have hflags := ho.word_eq (List.mem_of_getElem? (i := 3) rfl) (i := RamfsFd.flags) rfl
  have hptr := ho.word_eq (List.mem_of_getElem? (i := 3) rfl) (i := RamfsFd.file) rfl
  have hpos := ho.word_eq (List.mem_of_getElem? (i := 3) rfl) (i := RamfsFd.position) rfl
  have hsize := ho.word_eq (List.mem_of_getElem? (i := 0) rfl) (i := RamfsFile.size) rfl
  have hdata := ho.word_eq (List.mem_of_getElem? (i := 0) rfl) (i := RamfsFile.data) rfl
  have hf0 := ho.ne_zero (List.mem_of_getElem? (i := 0) rfl)
  have hle := e.readCount_le f count
  unfold Ramfs.ramfsRead
  rw [hfd]
  dsimp only
  rw [if_neg hstdin, hflags, hptr, hfile, if_neg hmode, if_neg hf0, hsize, hpos, hdata]
  have hcount : (if count > wrap (f.contents.length + (addressSpace - e.position)) then
      wrap (f.contents.length + (addressSpace - e.position)) else count) = e.readCount f count := rfl
  rw [hcount]
  generalize hn : e.readCount f count = n at *
  have hout : ∀ x, ¬ (buf ≤ x ∧ x < buf + n) →
      (Memory.memcpy n s.heap.mem buf (wrap (f.data + e.position))).byte x = s.heap.mem.byte x :=
    fun x hx => memcpy_outside _ _ _ (by omega) hx
  -- the bytes go into the caller's memory, and then the position moves
  have hs₁ := hs.store (m := Memory.memcpy n s.heap.mem buf (wrap (f.data + e.position))) fun x hx =>
    hout x fun hin => by
    apply hx
    obtain ⟨j, rfl⟩ := Nat.exists_eq_add_of_le hin.1
    exact hbuf j (by omega)
  have ho₁ : Owns L _ P _ (f.cells ++ (e.cells i ++ G) ++ heldCells held _) := hs₁
  have hpos₁ := ho₁.word_eq (List.mem_of_getElem? (i := 3) rfl) (i := RamfsFd.position) rfl
  have ho₂ := ho₁.setWord 3 rfl (i := RamfsFd.position) (v := wrap (e.position + n)) (Nat.le_add_left 3 1)
    (Nat.mod_lt _ (show 0 < addressSpace by decide))
  have hmove : s.heap.memcpy buf (wrap (f.data + e.position)) n =
      ⟨Memory.memcpy n s.heap.mem buf (wrap (f.data + e.position)), s.heap.currentBrk⟩ := rfl
  rw [hmove, hpos₁]
  have hafter : e.afterRead f count = {e with position := wrap (e.position + n)} := by
    unfold OpenFd.afterRead
    rw [hn]
  rw [hafter]
  have hkept : ∀ x, Callers L held x → (Heap.setWord _ e.addr RamfsFd.position
    (wrap (e.position + n))).mem.byte x = _ :=
    fun x hx => hs₁.callers_eq (C := f.cells ++
      (({e with position := wrap (e.position + n)} : OpenFd).cells i ++ G)) ho₂ hx
  refine ⟨_, rfl, Owns.settled (C := f.cells ++
    (({e with position := wrap (e.position + n)} : OpenFd).cells i ++ G)) ho₂,
    fun x hx hnot => (hkept x hx).trans (hout x hnot), fun hin j hj => ?_⟩
  rw [hkept _ (hbuf j (by omega))]
  dsimp only
  have hb := ho.bounds (List.mem_of_getElem? (i := 2) rfl)
  rw [Contents.size_bytes] at hb
  have hpM := two_pow_pos' maxBlockScale
  -- the caller's memory is not in the file
  have hfirst := hs.outside (hbuf 0 (by omega)) (List.mem_of_getElem? (i := 2) rfl)
  rw [Contents.size_bytes] at hfirst
  dsimp only at hfirst
  have hlt : e.position + j < f.contents.length := by omega
  have hbyte := ho.byte_eq (List.mem_of_getElem? (i := 2) rfl) (List.getElem?_eq_getElem hlt)
  rw [wrap_eq (by omega), memcpy_byte _ _ (by omega) (by omega) (by omega), if_pos (by omega),
    List.getElem?_eq_getElem hlt,
    ← hbyte]
  congr 2
  omega

/-! ### ramfs_seek and ramfs_close -/

/-- Where a seek leads; `none` is refused. -/
def OpenFd.seekTo (e : OpenFd) (f : FileNode) (offset origin : Int) : Option Int :=
  let newPosition : Option Int :=
    if origin = seekSet then some offset
    else if origin = seekCur then some (toSigned (toUnsigned (e.position + offset)))
    else if origin = seekEnd then some (toSigned (toUnsigned (f.contents.length + offset)))
    else none
  newPosition.filter fun p => 0 ≤ p

/-- After a seek. -/
def OpenFd.afterSeek (e : OpenFd) (f : FileNode) (offset origin : Int) : OpenFd :=
  {e with position := (e.seekTo f offset origin).elim e.position toUnsigned}

theorem toUnsigned_lt (v : Int) : toUnsigned v < addressSpace := by
  unfold toUnsigned
  have hpos : (0 : Int) < addressSpace := by decide
  have h1 := Int.emod_nonneg v (Int.ne_of_gt hpos)
  have h2 := Int.emod_lt_of_pos v hpos
  omega

theorem Owns.ramfsSeek (ho : Owns L S P s.heap (f.cells ++ (e.cells i ++ G))) (hfd : s.fdEntry fd = some e.addr)
    (hfile : e.file = f.addr) (offset origin : Int) :
    ∃ h', s.ramfsSeek fd offset origin = ({s with heap := h'}, (e.seekTo f offset origin).getD (-1)) ∧
      Owns L S P h' (f.cells ++ ((e.afterSeek f offset origin).cells i ++ G)) := by
  have hptr := (ho.word_eq (List.mem_of_getElem? (i := 3) rfl) (i := RamfsFd.file) rfl).trans hfile
  have hpos := ho.word_eq (List.mem_of_getElem? (i := 3) rfl) (i := RamfsFd.position) rfl
  have hsize := ho.word_eq (List.mem_of_getElem? (i := 0) rfl) (i := RamfsFile.size) rfl
  unfold Ramfs.ramfsSeek OpenFd.afterSeek OpenFd.seekTo
  rw [hfd]
  dsimp only
  rw [hptr, hpos, hsize]
  have hmove : ∀ p : Int, ∃ h', (if p < 0 then (s, (-1 : Int))
      else ({s with heap := s.heap.setWord e.addr RamfsFd.position (toUnsigned p)}, p)) =
        ({s with heap := h'}, ((some p).filter fun p => 0 ≤ p).getD (-1)) ∧
      Owns L S P h' (f.cells ++ (({e with position := ((some p).filter fun p => 0 ≤ p).elim e.position toUnsigned} :
        OpenFd).cells i ++ G)) := by
    intro p
    by_cases hp : p < 0
    · rw [if_pos hp, Option.filter_some, if_neg (by simpa using hp)]
      exact ⟨s.heap, rfl, ho⟩
    · rw [if_neg hp, Option.filter_some, if_pos (by simpa using hp)]
      exact ⟨_, rfl, ho.setWord 3 rfl (i := RamfsFd.position) (v := toUnsigned p) (Nat.le_add_left 3 1)
        (toUnsigned_lt p)⟩
  by_cases h1 : origin = seekSet
  · rw [if_pos h1, if_pos h1]
    exact hmove offset
  rw [if_neg h1, if_neg h1]
  by_cases h2 : origin = seekCur
  · rw [if_pos h2, if_pos h2]
    exact hmove _
  rw [if_neg h2, if_neg h2]
  by_cases h3 : origin = seekEnd
  · rw [if_pos h3, if_pos h3]
    exact hmove _
  rw [if_neg h3, if_neg h3]
  exact ⟨s.heap, rfl, ho⟩

end ShompOS
