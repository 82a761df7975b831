import ShompOS.FakeLibc.String
import ShompOS.Heap.Session

/-! The heap as its clients see it: cells.

A cell is a pointer that `allocate` returned and what its owner keeps there, words
or bytes. `Owns L S P h cs`: the used blocks of the pool are exactly those of the
cells `cs`, each cell's contents are in memory, and memory below the heap holds
`S`. The rules say what each operation on memory does to the list of cells; the
cells it does not name are untouched, wherever they are. A cell is named by its
place in the list, so that a rule's premise is closed by computing the list. -/
namespace ShompOS
open Memory

namespace Memory

/-- The `i`-th word of a record or an array of words at `p`. -/
def word (m : Memory) (p i : Nat) : Nat := m.load32 (wrap (p + 4 * i))

def setWord (m : Memory) (p i v : Nat) : Memory := m.store32 (wrap (p + 4 * i)) v

/-- A word is read from its four bytes, wherever they are. -/
theorem load32_shift {m m' : Memory} {a b : Nat} (ha : a + 4 ≤ addressSpace) (hb : b + 4 ≤ addressSpace)
    (h : ∀ i, i < 4 → m'.byte (a + i) = m.byte (b + i)) : m'.load32 a = m.load32 b := by
  have hbyte : ∀ i, i < 4 → m'.load8 (wrap (a + i)) = m.load8 (wrap (b + i)) := by
    intro i hi
    rw [wrap_eq (by omega), wrap_eq (by omega), load8, load8, h i hi]
  have h0 : m'.load8 (wrap a) = m.load8 (wrap b) := hbyte 0 (by decide)
  simp only [load32, h0, hbyte 1 (by decide), hbyte 2 (by decide), hbyte 3 (by decide)]

end Memory

namespace Heap

def word (h : Heap) (p i : Nat) : Nat := h.mem.word p i

def setWord (h : Heap) (p i v : Nat) : Heap := ⟨h.mem.setWord p i v, h.currentBrk⟩

def setByte (h : Heap) (a v : Nat) : Heap := ⟨h.mem.store8 a v, h.currentBrk⟩

def memcpy (h : Heap) (dest src n : Nat) : Heap := ⟨Memory.memcpy n h.mem dest src, h.currentBrk⟩

def memmove (h : Heap) (dest src n : Nat) : Heap := ⟨Memory.memmove n h.mem dest src, h.currentBrk⟩

end Heap

/-- What a client keeps in a block. -/
inductive Contents
  | words (ws : List Nat)
  | bytes (bs : List UInt8)

abbrev Cell : Type := Nat × Contents

namespace Contents

def size : Contents → Nat
  | words ws => 4 * ws.length
  | bytes bs => bs.length

@[simp] theorem size_words (ws : List Nat) : (words ws).size = 4 * ws.length := rfl

@[simp] theorem size_bytes (bs : List UInt8) : (bytes bs).size = bs.length := rfl

def At (m : Memory) (p : Nat) : Contents → Prop
  | words ws => ∀ i w, ws[i]? = some w → m.load32 (p + 4 * i) = w
  | bytes bs => ∀ i b, bs[i]? = some b → m.byte (p + i) = b

variable {m m' : Memory} {p : Nat}

theorem At.congr {o : Contents} (h : o.At m p) (hA : p + o.size ≤ addressSpace)
    (hm : ∀ x, p ≤ x → x < p + o.size → m'.byte x = m.byte x) : o.At m' p := by
  cases o with
  | words ws =>
    intro i w hi
    have hlt := (List.getElem?_eq_some_iff.mp hi).1
    rw [size_words] at hA hm
    rw [load32_congr (by omega) fun x h1 h2 => hm x (by omega) (by omega)]
    exact h i w hi
  | bytes bs =>
    intro i b hi
    have hlt := (List.getElem?_eq_some_iff.mp hi).1
    rw [size_bytes] at hA hm
    rw [hm _ (by omega) (by omega)]
    exact h i b hi

/-- Whatever is in memory can be read as words. -/
theorem exists_words (m : Memory) (p k : Nat) : ∃ ws, ws.length = k ∧ (words ws).At m p := by
  refine ⟨(List.range k).map fun i => m.load32 (p + 4 * i), by simp, fun i w hi => ?_⟩
  obtain ⟨hlt, rfl⟩ := List.getElem?_eq_some_iff.mp hi
  rw [List.getElem_map, List.getElem_range]

theorem exists_bytes (m : Memory) (p k : Nat) : ∃ bs, bs.length = k ∧ (bytes bs).At m p := by
  refine ⟨(List.range k).map fun i => m.byte (p + i), by simp, fun i b hi => ?_⟩
  obtain ⟨hlt, rfl⟩ := List.getElem?_eq_some_iff.mp hi
  rw [List.getElem_map, List.getElem_range]

end Contents

/-- Memory that is neither the heap's nor the allocator's. -/
def Layout.Static (L : Layout) (x : Nat) : Prop := x < heapLowerBound ∧ ¬ L.ListByte x

/-- The pool after `free(p)`. -/
def Pool.freed (P : Pool) (p : Nat) : Pool := (P.used (p - headerSize)).elim P (P.release (p - headerSize))

structure Owns (L : Layout) (S : Nat → UInt8) (P : Pool) (h : Heap) (cs : List Cell) : Prop where
  represents : Represents L h P
  block : ∀ c ∈ cs, ∃ a t, c.1 = a + headerSize ∧ P.used a = some t ∧ c.2.size + headerSize ≤ 2 ^ t
  used : ∀ a t, P.used a = some t → ∃ c ∈ cs, c.1 = a + headerSize
  nodup : (cs.map Prod.fst).Nodup
  contents : ∀ c ∈ cs, c.2.At h.mem c.1
  static : ∀ x, L.Static x → h.mem.byte x = S x

namespace Owns
variable {L : Layout} {S : Nat → UInt8} {P : Pool} {h : Heap} {cs cs' : List Cell} {p : Nat} {o : Contents}

theorem perm (ho : Owns L S P h cs) (hp : cs.Perm cs') : Owns L S P h cs' := by
  refine ⟨ho.represents, fun c hc => ho.block c (hp.mem_iff.mpr hc), fun a t ha => ?_,
    (hp.map Prod.fst).nodup_iff.mp ho.nodup, fun c hc => ho.contents c (hp.mem_iff.mpr hc), ho.static⟩
  obtain ⟨c, hc, he⟩ := ho.used a t ha
  exact ⟨c, hp.mem_iff.mp hc, he⟩

/-! ### Where the cells are -/

theorem bounds (ho : Owns L S P h cs) (hc : (p, o) ∈ cs) :
    heapLowerBound + headerSize ≤ p ∧ p + o.size + 2 ^ maxBlockScale ≤ addressSpace ∧
      o.size + headerSize ≤ 2 ^ maxBlockScale := by
  obtain ⟨a, t, hp, ha, hsize⟩ := ho.block _ hc
  dsimp only at hp hsize
  have hv := ho.represents.stands.valid
  have hlo := hv.tiling.lower (Or.inl ha)
  have hup := hv.tiling.upper (Or.inl ha)
  have htop := hv.top
  have hscale := Nat.pow_le_pow_right (n := 2) (by decide) (hv.scale_le (Or.inl ha))
  omega

/-- No cell is at address 0. -/
theorem ne_zero (ho : Owns L S P h cs) (hc : (p, o) ∈ cs) : p ≠ 0 := by
  have := (ho.bounds hc).1
  have h9 : headerSize = 9 := rfl
  omega

theorem wrap_lt (ho : Owns L S P h cs) (hc : (p, o) ∈ cs) {i : Nat} (hi : i ≤ o.size) : wrap (p + i) = p + i := by
  have hup := (ho.bounds hc).2.1
  have hpM := two_pow_pos' maxBlockScale
  exact wrap_eq (by omega)

/-- The blocks of two cells do not meet. -/
theorem apart (ho : Owns L S P h cs) {q : Nat} {r : Contents} (hc : (p, o) ∈ cs) (hd : (q, r) ∈ cs) (hne : p ≠ q) :
    p + o.size < q ∨ q + r.size < p := by
  obtain ⟨a, t, hp, ha, hsize⟩ := ho.block _ hc
  obtain ⟨b, u, hq, hb, hsize'⟩ := ho.block _ hd
  dsimp only at hp hsize hq hsize'
  have hsep := ho.represents.stands.valid.tiling.separate (Or.inl ha) (Or.inl hb) fun he => hne (by omega)
  have h9 : headerSize = 9 := rfl
  omega

/-- Two places in the list are two pointers. -/
theorem ne_of_getElem? (ho : Owns L S P h cs) {i j : Nat} {c d : Cell} (hi : cs[i]? = some c) (hj : cs[j]? = some d)
    (hij : i ≠ j) : c.1 ≠ d.1 := by
  intro he
  obtain ⟨hi', rfl⟩ := List.getElem?_eq_some_iff.mp hi
  obtain ⟨hj', rfl⟩ := List.getElem?_eq_some_iff.mp hj
  apply hij
  have hi'' : i < (cs.map Prod.fst).length := by simpa using hi'
  have hj'' : j < (cs.map Prod.fst).length := by simpa using hj'
  exact (@List.Nodup.getElem_inj_iff _ _ ho.nodup i hi'' j hj'').mp (by simpa using he)

/-- The first cell's pointer is no other cell's. -/
theorem fresh (ho : Owns L S P h ((p, o) :: cs)) : ∀ c ∈ cs, c.1 ≠ p := by
  intro c hc he
  have hnodup := ho.nodup
  rw [List.map_cons, List.nodup_cons] at hnodup
  exact hnodup.1 (List.mem_map.mpr ⟨c, hc, he⟩)

/-! ### allocate and free -/

/-- What `allocate` and `free` spare: static memory and the blocks in use. -/
def Spared (L : Layout) (P : Pool) (x : Nat) : Prop := L.Static x ∨ Payload (fun a t => P.used a = some t) x

theorem spared_avoids {P' : Pool} (hv : P'.Valid) (hP : ∀ a t, P.used a = some t → P'.used a = some t) :
    Avoids L (Spared L P) P' := by
  intro x hx
  cases hx with
  | inl hs =>
    have hlow := hs.1
    refine ⟨hs.2, fun a t ha => ?_⟩
    have := hv.tiling.lower ha
    omega
  | inr hx =>
    refine hv.avoids (R := fun y => y = x) (fun y hy => ?_) x rfl
    obtain ⟨a, t, ha, h1, h2⟩ := hx
    exact ⟨a, t, Or.inl (hP a t ha), hy ▸ h1, hy ▸ h2⟩

/-- A cell's bytes are in its block. -/
theorem spared (ho : Owns L S P h cs) (hc : (p, o) ∈ cs) {x : Nat} (hlo : p ≤ x) (hhi : x < p + o.size) :
    Spared L P x := by
  obtain ⟨a, t, hp, ha, hsize⟩ := ho.block _ hc
  dsimp only at hp hsize
  exact Or.inr ⟨a, t, ha, by omega, by omega⟩

theorem contents_of_spares (ho : Owns L S P h cs) {m : Memory} (hsp : Spares (Spared L P) h.mem m)
    (hc : (p, o) ∈ cs) : o.At m p := by
  have hup := (ho.bounds hc).2.1
  have hpM := two_pow_pos' maxBlockScale
  exact (ho.contents _ hc).congr (by dsimp only; omega) fun x h1 h2 => hsp.bytes x (ho.spared hc h1 h2)

/-- Without memory to be had the cells are as before; with it there is one more. -/
theorem allocate (ho : Owns L S P h cs) (n : Nat) :
    ∃ h', h.allocate L n = some (h', (P.allocate n).2) ∧
      ((P.allocate n).2 = 0 → (P.allocate n).1 = P ∧ Owns L S P h' cs) ∧
      ((P.allocate n).2 ≠ 0 → ∀ o : Contents, o.size ≤ n → o.At h'.mem (P.allocate n).2 →
        Owns L S (P.allocate n).1 h' (((P.allocate n).2, o) :: cs)) := by
  have hv := ho.represents.stands.valid
  obtain ⟨h', hcall, hrep, hsp⟩ := ho.represents.allocate (R := Spared L P) n
  have hsp := (hsp (spared_avoids hrep.stands.valid fun a t ha => Pool.used_allocate hv n ha)).2
  have hstatic : ∀ x, L.Static x → h'.mem.byte x = S x := fun x hx =>
    (hsp.bytes x (Or.inl hx)).trans (ho.static x hx)
  have hcontents : ∀ c ∈ cs, c.2.At h'.mem c.1 := fun c hc => ho.contents_of_spares hsp hc
  refine ⟨h', hcall, fun hz => ?_, fun hne o hsize hat => ?_⟩
  · have hsame : (P.allocate n).1 = P := by
      obtain ⟨-, -, ⟨-, hsame⟩ | ⟨a, t, hp, -⟩⟩ := Pool.allocate_spec hv n
      · exact hsame
      · have h9 : headerSize = 9 := rfl
        omega
    rw [hsame] at hrep
    exact ⟨hsame, hrep, ho.block, ho.used, ho.nodup, hcontents, hstatic⟩
  · obtain ⟨-, -, ⟨hz, -⟩ | ⟨a, t, hp, hnone, hfit, hused⟩⟩ := Pool.allocate_spec hv n
    · exact absurd hz hne
    have hnew : ∀ c ∈ cs, c.1 ≠ a + headerSize := by
      intro c hc he
      obtain ⟨b, u, hb, hbu, -⟩ := ho.block c hc
      rw [show b = a by omega, hnone] at hbu
      cases hbu
    refine ⟨hrep, fun c hc => ?_, fun b u hb => ?_, ?_, fun c hc => ?_, hstatic⟩
    · cases List.mem_cons.mp hc with
      | inl he =>
        rw [he]
        refine ⟨a, t, hp, by rw [hused, Function.update_self], ?_⟩
        dsimp only
        omega
      | inr hc =>
        obtain ⟨b, u, hb, hbu, hle⟩ := ho.block c hc
        exact ⟨b, u, hb, Pool.used_allocate hv n hbu, hle⟩
    · by_cases hba : b = a
      · exact ⟨_, List.mem_cons_self .., hba ▸ hp⟩
      · rw [hused, Function.update_of_ne hba] at hb
        obtain ⟨c, hc, he⟩ := ho.used b u hb
        exact ⟨c, List.mem_cons_of_mem _ hc, he⟩
    · refine List.nodup_cons.mpr ⟨fun hm => ?_, ho.nodup⟩
      obtain ⟨c, hc, he⟩ := List.mem_map.mp hm
      exact hnew c hc (he.trans hp)
    · cases List.mem_cons.mp hc with
      | inl he =>
        rw [he]
        exact hat
      | inr hc => exact hcontents c hc

/-- A fresh cell of words, of whatever was there before. -/
theorem exists_words {k : Nat} (hnew : ∀ o : Contents, o.size ≤ 4 * k → o.At h.mem p → Owns L S P h ((p, o) :: cs)) :
    ∃ ws, ws.length = k ∧ Owns L S P h ((p, .words ws) :: cs) := by
  obtain ⟨ws, hlen, hat⟩ := Contents.exists_words h.mem p k
  exact ⟨ws, hlen, hnew _ (Nat.le_of_eq (by rw [Contents.size_words, hlen])) hat⟩

theorem exists_bytes {n k : Nat} (hnew : ∀ o : Contents, o.size ≤ n → o.At h.mem p → Owns L S P h ((p, o) :: cs))
    (hk : k ≤ n) : ∃ bs, bs.length = k ∧ Owns L S P h ((p, .bytes bs) :: cs) := by
  obtain ⟨bs, hlen, hat⟩ := Contents.exists_bytes h.mem p k
  exact ⟨bs, hlen, hnew _ (by rw [Contents.size_bytes, hlen]; exact hk) hat⟩

/-- A cell is freed by its pointer. -/
theorem free (ho : Owns L S P h cs) (i : Nat) (hi : cs[i]? = some (p, o)) :
    ∃ h', h.free L p = some (h', 0) ∧ Owns L S (P.freed p) h' (cs.eraseIdx i) := by
  have hmem := List.mem_of_getElem? hi
  obtain ⟨a, t, hp, ha, hsize⟩ := ho.block _ hmem
  dsimp only at hp
  obtain ⟨h', hcall, hrep, hsp⟩ := ho.represents.free (R := Spared L P) ha
  have hsp := hsp (spared_avoids ho.represents.stands.valid fun _ _ h => h)
  have hused := (Pool.release_spec ho.represents.stands.valid ha).2
  have hfreed : P.freed p = P.release a t := by
    unfold Pool.freed
    rw [hp, Nat.add_sub_cancel, ha]
    rfl
  have hsub : ∀ c ∈ cs.eraseIdx i, c ∈ cs := fun c hc => List.mem_of_mem_eraseIdx hc
  have hlt := (List.getElem?_eq_some_iff.mp hi).1
  -- the other cells have other pointers
  have hother : ∀ c ∈ cs.eraseIdx i, c.1 ≠ p := by
    intro c hc
    obtain ⟨j, hj, hji⟩ := List.mem_eraseIdx_iff_getElem?.mp hc
    exact ho.ne_of_getElem? hji hi hj
  refine ⟨h', hp ▸ hcall, hfreed ▸ hrep, fun c hc => ?_, fun b u hb => ?_, ?_, fun c hc => ?_,
    fun x hx => (hsp.bytes x (Or.inl hx)).trans (ho.static x hx)⟩
  · obtain ⟨b, u, hb, hbu, hle⟩ := ho.block c (hsub c hc)
    have hba : b ≠ a := fun he => hother c hc (by rw [hb, he, hp])
    exact ⟨b, u, hb, by rw [hfreed, hused, Function.update_of_ne hba, hbu], hle⟩
  · rw [hfreed, hused] at hb
    have hba : b ≠ a := fun he => by rw [he, Function.update_self] at hb; cases hb
    rw [Function.update_of_ne hba] at hb
    obtain ⟨c, hc, he⟩ := ho.used b u hb
    refine ⟨c, ?_, he⟩
    obtain ⟨j, hj⟩ := List.getElem?_of_mem hc
    refine List.mem_eraseIdx_iff_getElem?.mpr ⟨j, fun hji => hba ?_, hj⟩
    rw [hji, hi, Option.some.injEq] at hj
    rw [← hj] at he
    dsimp only at he
    omega
  · exact ho.nodup.sublist ((List.eraseIdx_sublist ..).map Prod.fst)
  · exact ho.contents_of_spares hsp (hsub c hc)

/-! ### Reading and writing cells -/

/-- A store into a cell, of whatever then is in it. -/
theorem update (ho : Owns L S P h cs) (i : Nat) (hi : cs[i]? = some (p, o)) {m : Memory} {r : Contents}
    (hsize : r.size ≤ o.size) (hm : ∀ x, ¬ (p ≤ x ∧ x < p + o.size) → m.byte x = h.mem.byte x) (hat : r.At m p) :
    Owns L S P ⟨m, h.currentBrk⟩ (cs.set i (p, r)) := by
  have hmem := List.mem_of_getElem? hi
  have hlt := (List.getElem?_eq_some_iff.mp hi).1
  obtain ⟨a, t, hp, ha, hle⟩ := ho.block _ hmem
  dsimp only at hp hle
  have hset : ∀ c ∈ cs.set i (p, r), c = (p, r) ∨ c ∈ cs ∧ c.1 ≠ p := by
    intro c hc
    obtain ⟨j, hj⟩ := List.getElem?_of_mem hc
    by_cases hij : i = j
    · rw [← hij, List.getElem?_set_self hlt, Option.some.injEq] at hj
      exact Or.inl hj.symm
    · rw [List.getElem?_set_ne hij] at hj
      exact Or.inr ⟨List.mem_of_getElem? hj, ho.ne_of_getElem? hj hi (Ne.symm hij)⟩
  have hmap : (cs.set i (p, r)).map Prod.fst = cs.map Prod.fst := by
    rw [List.map_set]
    apply List.ext_getElem?
    intro j
    by_cases hij : i = j
    · rw [← hij, List.getElem?_set_self (by simpa using hlt), List.getElem?_map, hi]
      rfl
    · rw [List.getElem?_set_ne hij]
  refine ⟨⟨ho.represents.stands.congr_payload ha fun x hx => hm x (by omega), ho.represents.brk⟩,
    fun c hc => ?_, fun b u hb => ?_, hmap ▸ ho.nodup, fun c hc => ?_, fun x hx => ?_⟩
  · cases hset c hc with
    | inl he =>
      rw [he]
      refine ⟨a, t, hp, ha, ?_⟩
      dsimp only
      omega
    | inr hc => exact ho.block c hc.1
  · obtain ⟨c, hc, he⟩ := ho.used b u hb
    have hin : c.1 ∈ (cs.set i (p, r)).map Prod.fst := hmap ▸ List.mem_map_of_mem hc
    obtain ⟨d, hd, hde⟩ := List.mem_map.mp hin
    exact ⟨d, hd, hde.trans he⟩
  · cases hset c hc with
    | inl he =>
      rw [he]
      exact hat
    | inr hc =>
      have hup := (ho.bounds hc.1).2.1
      have hpM := two_pow_pos' maxBlockScale
      have hsep := ho.apart hc.1 hmem hc.2
      exact (ho.contents c hc.1).congr (by omega) fun x h1 h2 => hm x (by omega)
  · have hlow := hx.1
    have hlo := (ho.bounds hmem).1
    exact (hm x (by omega)).trans (ho.static x hx)

/-- A cell's block can be taken to hold less, or the same read otherwise. -/
theorem view (ho : Owns L S P h cs) (i : Nat) (hi : cs[i]? = some (p, o)) {r : Contents} (hsize : r.size ≤ o.size)
    (hat : r.At h.mem p) : Owns L S P h (cs.set i (p, r)) :=
  ho.update i hi hsize (fun _ _ => rfl) hat

theorem word_eq (ho : Owns L S P h cs) {ws : List Nat} (hc : (p, .words ws) ∈ cs) {i w : Nat}
    (hi : ws[i]? = some w) : h.word p i = w := by
  have hlt := (List.getElem?_eq_some_iff.mp hi).1
  unfold Heap.word Memory.word
  rw [ho.wrap_lt hc (by rw [Contents.size_words]; omega)]
  exact ho.contents _ hc i w hi

theorem byte_eq (ho : Owns L S P h cs) {bs : List UInt8} (hc : (p, .bytes bs) ∈ cs) {i : Nat} {b : UInt8}
    (hi : bs[i]? = some b) : h.mem.byte (p + i) = b :=
  ho.contents _ hc i b hi

theorem setWord (ho : Owns L S P h cs) (k : Nat) {ws : List Nat} (hk : cs[k]? = some (p, .words ws)) {i v : Nat}
    (hi : i < ws.length) (hv : v < addressSpace) :
    Owns L S P (h.setWord p i v) (cs.set k (p, .words (ws.set i v))) := by
  have hc := List.mem_of_getElem? hk
  have hup := (ho.bounds hc).2.1
  have hpM := two_pow_pos' maxBlockScale
  rw [Contents.size_words] at hup
  have haddr : wrap (p + 4 * i) = p + 4 * i := wrap_eq (by omega)
  have hstore : h.mem.setWord p i v = h.mem.store32 (p + 4 * i) v := by
    unfold Memory.setWord
    rw [haddr]
  refine ho.update k hk (by simp) (fun x hx => ?_) fun j w hj => ?_
  · rw [hstore]
    refine (spares_store32 (R := fun y => y = x) h.mem v (by omega) fun y h1 h2 he => hx ?_).bytes x rfl
    rw [Contents.size_words]
    omega
  · rw [hstore]
    by_cases hij : i = j
    · rw [← hij, List.getElem?_set_self hi, Option.some.injEq] at hj
      rw [← hij, load32_store32 _ (by omega) hv]
      exact hj
    · rw [List.getElem?_set_ne hij] at hj
      have hlt := (List.getElem?_eq_some_iff.mp hj).1
      rw [load32_store32_ne _ (by omega) (by omega) (by omega)]
      exact ho.contents _ hc j w hj

theorem setByte (ho : Owns L S P h cs) (k : Nat) {bs : List UInt8} (hk : cs[k]? = some (p, .bytes bs)) {i v : Nat}
    (hi : i < bs.length) :
    Owns L S P (h.setByte (wrap (p + i)) v) (cs.set k (p, .bytes (bs.set i (.ofNat v)))) := by
  have hc := List.mem_of_getElem? hk
  rw [ho.wrap_lt hc (by rw [Contents.size_bytes]; omega)]
  refine ho.update k hk (by simp) (fun x hx => ?_) fun j b hj => ?_
  · rw [byte_store8, if_neg]
    rw [Contents.size_bytes] at hx
    omega
  · rw [byte_store8]
    by_cases hij : i = j
    · rw [← hij, List.getElem?_set_self hi, Option.some.injEq] at hj
      rw [← hij, if_pos rfl]
      exact hj
    · rw [List.getElem?_set_ne hij] at hj
      rw [if_neg (by omega)]
      exact ho.contents _ hc j b hj

/-- Bytes copied into a cell from elsewhere. -/
theorem memcpyBytes (ho : Owns L S P h cs) (k : Nat) {bs src : List UInt8} (hk : cs[k]? = some (p, .bytes bs))
    {d a : Nat} (hd : d + src.length ≤ bs.length) (hsrc : ∀ i b, src[i]? = some b → h.mem.byte (a + i) = b)
    (ha : a + src.length < addressSpace) (hsep : ∀ i, i < src.length → a + i < p ∨ p + bs.length ≤ a + i) :
    Owns L S P (h.memcpy (p + d) a src.length)
      (cs.set k (p, .bytes (bs.take d ++ src ++ bs.drop (d + src.length)))) := by
  have hc := List.mem_of_getElem? hk
  have hup := (ho.bounds hc).2.1
  have hpM := two_pow_pos' maxBlockScale
  rw [Contents.size_bytes] at hup
  have hbyte : ∀ x, (Memory.memcpy src.length h.mem (p + d) a).byte x =
      if p + d ≤ x ∧ x < p + d + src.length then h.mem.byte (a + (x - (p + d))) else h.mem.byte x := by
    intro x
    by_cases hzero : src.length = 0
    · rw [hzero, if_neg (by omega)]
      rfl
    · have hfirst := hsep 0 (by omega)
      have hlast := hsep (p - a)
      exact memcpy_byte _ _ (by omega) ha (by omega) x
  refine ho.update k hk (by simp only [Contents.size_bytes, List.length_append, List.length_take, List.length_drop]; omega)
    (fun x hx => ?_) fun j b hj => ?_
  · rw [Contents.size_bytes] at hx
    rw [hbyte, if_neg (by omega)]
  · rw [hbyte]
    rw [List.append_assoc, List.getElem?_append, List.length_take] at hj
    by_cases hlo : j < d
    · rw [if_pos (by omega), List.getElem?_take_of_lt hlo] at hj
      rw [if_neg (by omega)]
      exact ho.contents _ hc j b hj
    · rw [if_neg (by omega), List.getElem?_append] at hj
      by_cases hin : j - d < src.length
      · rw [if_pos (by omega)] at hj
        rw [if_pos (by omega), show a + (p + j - (p + d)) = a + (j - d) by omega]
        apply hsrc
        rw [← hj]
        congr 1
        omega
      · rw [if_neg (by omega), List.getElem?_drop] at hj
        rw [if_neg (by omega)]
        apply ho.contents _ hc j b
        rw [← hj]
        congr 1
        omega

/-- Words copied to the front of a cell from another. -/
theorem memcpyWords (ho : Owns L S P h cs) (k : Nat) {q : Nat} {ws vs : List Nat}
    (hk : cs[k]? = some (p, .words ws)) (hq : (q, .words vs) ∈ cs) (hne : p ≠ q) (hle : vs.length ≤ ws.length) :
    Owns L S P (h.memcpy p q (4 * vs.length))
      (cs.set k (p, .words (vs ++ ws.drop vs.length))) := by
  have hc := List.mem_of_getElem? hk
  have hup := (ho.bounds hc).2.1
  have hup' := (ho.bounds hq).2.1
  have hpM := two_pow_pos' maxBlockScale
  have hsep := ho.apart hc hq hne
  simp only [Contents.size_words] at hup hup' hsep
  have hbyte := @memcpy_byte (4 * vs.length) h.mem p q (by omega) (by omega) (by omega)
  refine ho.update k hk (by simp only [Contents.size_words, List.length_append, List.length_drop]; omega)
    (fun x hx => ?_) fun j w hj => ?_
  · rw [Contents.size_words] at hx
    rw [hbyte, if_neg (by omega)]
  · rw [List.getElem?_append] at hj
    by_cases hin : j < vs.length
    · rw [if_pos hin] at hj
      rw [← ho.contents _ hq j w hj]
      refine load32_shift (by omega) (by dsimp only; omega) fun i hi => ?_
      dsimp only
      rw [hbyte, if_pos (by omega)]
      congr 1
      omega
    · rw [if_neg hin, List.getElem?_drop] at hj
      have hlt := (List.getElem?_eq_some_iff.mp hj).1
      have hold := ho.contents _ hc j w (by rw [← hj]; congr 1; omega)
      dsimp only at hold
      rw [← hold]
      refine load32_shift (by omega) (by omega) fun i hi => ?_
      rw [hbyte, if_neg (by omega)]

/-- The words of a cell from the one after the `i`-th on, moved one place down. -/
theorem memmoveWords (ho : Owns L S P h cs) (k : Nat) {ws : List Nat} (hk : cs[k]? = some (p, .words ws)) {i : Nat}
    (hi : i + 1 < ws.length) :
    Owns L S P (h.memmove (p + 4 * i) (p + 4 * (i + 1)) (4 * (ws.length - i - 1)))
      (cs.set k (p, .words (ws.eraseIdx i))) := by
  have hc := List.mem_of_getElem? hk
  have hup := (ho.bounds hc).2.1
  have hpM := two_pow_pos' maxBlockScale
  simp only [Contents.size_words] at hup
  have hbyte := @memmove_byte (4 * (ws.length - i - 1)) h.mem (p + 4 * i) (p + 4 * (i + 1)) (by omega) (by omega)
  unfold Heap.memmove
  refine ho.update k hk (by simp only [Contents.size_words, List.length_eraseIdx]; split <;> omega)
    (fun x hx => ?_) fun j w hj => ?_
  · rw [Contents.size_words] at hx
    rw [hbyte, if_neg (by omega)]
  · rw [List.getElem?_eraseIdx] at hj
    by_cases hlo : j < i
    · rw [if_pos hlo] at hj
      rw [← ho.contents _ hc j w hj]
      refine load32_shift (by omega) (by dsimp only; omega) fun b hb => ?_
      rw [hbyte, if_neg (by omega)]
    · rw [if_neg hlo] at hj
      have hlt := (List.getElem?_eq_some_iff.mp hj).1
      rw [← ho.contents _ hc (j + 1) w hj]
      refine load32_shift (by omega) (by dsimp only; omega) fun b hb => ?_
      dsimp only
      rw [hbyte, if_pos (by omega)]
      congr 1
      omega

end Owns

/-! ### Memory that callers pass pointers to -/

/-- Bytes that callers may pass pointers to: static ones, and those in the cells `cs`. -/
def Lent (L : Layout) (cs : List Cell) (x : Nat) : Prop :=
  L.Static x ∨ ∃ p bs, (p, .bytes bs) ∈ cs ∧ p ≤ x ∧ x < p + bs.length

namespace Owns
variable {L : Layout} {S : Nat → UInt8} {P P' : Pool} {h h' : Heap} {cs cs' F : List Cell} {x : Nat}

/-- They stay what they are as long as the cells do. -/
theorem lent_eq (ho : Owns L S P h cs) (ho' : Owns L S P' h' cs') (hF : F ⊆ cs) (hF' : F ⊆ cs')
    (hx : Lent L F x) : h'.mem.byte x = h.mem.byte x := by
  rcases hx with hs | ⟨p, bs, hc, hlo, hhi⟩
  · exact (ho'.static x hs).trans (ho.static x hs).symm
  · obtain ⟨i, rfl⟩ := Nat.exists_eq_add_of_le hlo
    have hi : bs[i]? = some bs[i] := List.getElem?_eq_getElem (by omega)
    exact (ho'.byte_eq (hF' hc) hi).trans (ho.byte_eq (hF hc) hi).symm

/-- They are not in any other cell. -/
theorem lent_outside (ho : Owns L S P h cs) (hF : F ⊆ cs) (hx : Lent L F x) {p : Nat} {o : Contents}
    (hc : (p, o) ∈ cs) (hp : ∀ c ∈ F, c.1 ≠ p) : x < p ∨ p + o.size ≤ x := by
  rcases hx with hs | ⟨q, bs, hq, hlo, hhi⟩
  · have hlow := hs.1
    have := (ho.bounds hc).1
    omega
  · have hsep := ho.apart (hF hq) hc (hp _ hq)
    rw [Contents.size_bytes] at hsep
    omega

end Owns
end ShompOS
