import ShompOS.Fs.Executables

/-! The two loops of `ramfs_pwd`.

Both go up the same parent pointers. The first counts a byte more than a name has
for each directory, the second puts a slash in front of each name but the root's,
which is its own slash: what it writes ends one byte above where the buffer
begins. -/
namespace ShompOS
open Memory

namespace Memory
variable {m m' : Memory} {a lo hi dir ptr : Nat} {pre text suffix : List UInt8} {texts : List (List UInt8)}

/-- `n` bytes that are not between `lo` and `hi`. -/
def Beside (lo hi a n : Nat) : Prop := a + n ≤ lo ∨ hi ≤ a

/-- From `dir` on the parent pointers lead to the root, past names outside of a buffer. -/
def Upward (m : Memory) (lo hi : Nat) : Nat → List (List UInt8) → Prop
  | dir, [] => dir = 0
  | dir, text :: texts =>
    dir ≠ 0 ∧ dir + RamfsDir.bytes ≤ addressSpace ∧ Beside lo hi dir RamfsDir.bytes ∧
      IsStr m (m.word dir RamfsDir.name) text ∧ Beside lo hi (m.word dir RamfsDir.name) (text.length + 1) ∧
      Upward m lo hi (m.word dir RamfsDir.parent) texts

/-- What the names come to, with a byte for each. -/
def pathSize (texts : List (List UInt8)) : Nat := (texts.map fun text => text.length + 1).sum

/-- What the second loop writes. -/
def pathUp : List (List UInt8) → List UInt8
  | [] => []
  | [root] => root
  | text :: above :: texts => pathUp (above :: texts) ++ 0x2F :: text

theorem pathSize_cons (text : List UInt8) (texts : List (List UInt8)) :
    pathSize (text :: texts) = text.length + 1 + pathSize texts := rfl

theorem length_pathUp (text : List UInt8) (texts : List (List UInt8)) :
    (pathUp (text :: texts)).length + 1 = pathSize (text :: texts) := by
  induction texts generalizing text with
  | nil => rfl
  | cons above texts ih =>
    have hih := ih above
    rw [pathSize_cons]
    unfold pathUp
    rw [List.length_append, List.length_cons]
    omega

/-! ### Memory that changes in the buffer -/

theorem word_congr {i : Nat} (hroom : a + 4 * i + 4 ≤ addressSpace) (h : Beside lo hi (a + 4 * i) 4)
    (hm : ∀ x, ¬ (lo ≤ x ∧ x < hi) → m'.byte x = m.byte x) : m'.word a i = m.word a i := by
  unfold word
  unfold Beside at h
  rw [wrap_eq (by omega)]
  exact load32_congr hroom fun x h1 h2 => hm x (by omega)

theorem Upward.congr (h : m.Upward lo hi dir texts) (hm : ∀ x, ¬ (lo ≤ x ∧ x < hi) → m'.byte x = m.byte x) :
    m'.Upward lo hi dir texts := by
  induction texts generalizing dir with
  | nil => exact h
  | cons text texts ih =>
    obtain ⟨hne, hroom, hdir, hstr, hname, hup⟩ := h
    have hwords : RamfsDir.name = 0 ∧ RamfsDir.parent = 1 ∧ RamfsDir.bytes = 24 := ⟨rfl, rfl, rfl⟩
    have h0 : m'.word dir RamfsDir.name = m.word dir RamfsDir.name :=
      word_congr (by omega) (by unfold Beside at *; omega) hm
    have h1 : m'.word dir RamfsDir.parent = m.word dir RamfsDir.parent :=
      word_congr (by omega) (by unfold Beside at *; omega) hm
    unfold Upward
    rw [h0, h1]
    refine ⟨hne, hroom, hdir, hstr.congr fun x hx1 hx2 => hm x ?_, hname, ih hup⟩
    unfold Beside at hname
    omega

/-- The root is where the names end. -/
theorem Upward.eq_nil_iff (h : m.Upward lo hi dir texts) : dir = 0 ↔ texts = [] := by
  cases texts with
  | nil => exact ⟨fun _ => rfl, fun _ => h⟩
  | cons text texts => exact ⟨fun h0 => absurd h0 h.1, nofun⟩

/-- A string goes on in front. -/
theorem IsStr.prepend (h : IsStr m (a + pre.length) suffix) (hpre : ∀ i c, pre[i]? = some c → m.byte (a + i) = c)
    (h0 : 0 ∉ pre) : IsStr m a (pre ++ suffix) := by
  have hroom := h.room
  refine ⟨fun i c hi => ?_, ?_, fun hmem => ?_, ?_⟩
  · by_cases hlt : i < pre.length
    · rw [List.getElem?_append_left hlt] at hi
      exact hpre i c hi
    · rw [List.getElem?_append_right (Nat.le_of_not_lt hlt)] at hi
      have := h.chars _ c hi
      rwa [show a + pre.length + (i - pre.length) = a + i by omega] at this
  · rw [List.length_append, ← Nat.add_assoc]
    exact h.stop
  · cases List.mem_append.mp hmem with
    | inl hmem => exact h0 hmem
    | inr hmem => exact h.text hmem
  · rw [List.length_append]
    omega

/-- Whatever stands in front of a string, it is the end of one. -/
theorem IsStr.exists_here (h : IsStr m (a + 1) text) : ∃ here, IsStr m a here := by
  have hroom := h.room
  by_cases hb : m.byte a = 0
  · exact ⟨[], fun i c hi => (nomatch hi), hb, List.not_mem_nil, by
      rw [List.length_nil]
      omega⟩
  · refine ⟨[m.byte a] ++ text, IsStr.prepend h (fun i c hi => ?_) fun hmem => hb (List.mem_singleton.mp hmem).symm⟩
    cases i with
    | zero => exact Option.some.inj hi
    | succ i => cases hi

theorem spares_memcpy {A : Nat → Prop} (n : Nat) (m : Memory) {dest : Nat} (src : Nat) (hd : dest + n < addressSpace)
    (h : ∀ x, dest ≤ x → x < dest + n → ¬ A x) : Spares A m (memcpy n m dest src) := by
  induction n generalizing m dest src with
  | zero => exact Spares.refl A m
  | succ n ih =>
    unfold memcpy
    rw [wrap_eq (a := dest + 1) (by omega)]
    exact (spares_store8 m _ (h dest (Nat.le_refl _) (by omega))).trans
      (ih _ _ (by omega) fun x h1 h2 => h x (by omega) (by omega))

/-! ### The loops -/

theorem pathLength_eq (h : m.Upward lo hi dir texts) {fuel len : Nat} (hfuel : texts.length < fuel)
    (hsize : len + pathSize texts < addressSpace) : m.pathLength fuel dir len = some (len + pathSize texts) := by
  induction texts generalizing fuel dir len with
  | nil =>
    obtain ⟨fuel, rfl⟩ := Nat.exists_eq_succ_of_ne_zero (Nat.ne_zero_of_lt hfuel)
    exact if_pos h
  | cons text texts ih =>
    obtain ⟨fuel, rfl⟩ := Nat.exists_eq_succ_of_ne_zero (Nat.ne_zero_of_lt hfuel)
    obtain ⟨hne, -, -, hstr, -, hup⟩ := h
    rw [List.length_cons] at hfuel
    rw [pathSize_cons] at hsize ⊢
    unfold pathLength
    rw [if_neg hne, strlen_eq hstr, Option.bind_some, wrap_eq (by omega), ih hup (by omega) (by omega)]
    congr 1
    omega

/-- One name, behind which the path is already. -/
theorem fillName (hstr : IsStr m a text) (hname : Beside lo hi a (text.length + 1)) (hlo : lo + text.length ≤ ptr)
    (hsuffix : IsStr m ptr suffix) (hhi : ptr + suffix.length < hi) :
    IsStr (memcpy text.length m (ptr - text.length) a) (ptr - text.length) (text ++ suffix) ∧
      Spares (fun x => ¬ (ptr - text.length ≤ x ∧ x < ptr)) m (memcpy text.length m (ptr - text.length) a) := by
  have hroom := hstr.room
  have hroom' := hsuffix.room
  unfold Beside at hname
  have hdest : ptr - text.length + text.length < addressSpace := by omega
  have hsrc : a + text.length < addressSpace := by omega
  have hbyte := memcpy_byte text.length m hdest hsrc (by omega)
  refine ⟨IsStr.prepend ?_ (fun i c hi => ?_) hstr.text, spares_memcpy _ _ _ (by omega) fun x h1 h2 =>
    not_not.mpr (by omega)⟩
  · rw [Nat.sub_add_cancel (by omega)]
    exact hsuffix.congr fun x h1 h2 => (hbyte x).trans (if_neg (by omega))
  · have hlt := (List.getElem?_eq_some_iff.mp hi).1
    rw [hbyte, if_pos (by omega), Nat.add_sub_cancel_left]
    exact hstr.chars i c hi

/-- The path is written from its end to its beginning, and nothing else is. -/
theorem fillPath_eq (h : m.Upward lo hi dir texts) {fuel : Nat} (hfuel : texts.length < fuel)
    (hlo : lo + (pathUp texts).length ≤ ptr) (hsuffix : IsStr m ptr suffix) (hhi : ptr + suffix.length < hi) :
    ∃ m', fillPath fuel m dir ptr = some m' ∧ IsStr m' (ptr - (pathUp texts).length) (pathUp texts ++ suffix) ∧
      Spares (fun x => ¬ (ptr - (pathUp texts).length ≤ x ∧ x < ptr)) m m' := by
  induction texts generalizing fuel m dir ptr suffix with
  | nil =>
    obtain ⟨fuel, rfl⟩ := Nat.exists_eq_succ_of_ne_zero (Nat.ne_zero_of_lt hfuel)
    exact ⟨m, if_pos h, hsuffix, Spares.refl _ m⟩
  | cons text texts ih =>
    obtain ⟨fuel, rfl⟩ := Nat.exists_eq_succ_of_ne_zero (Nat.ne_zero_of_lt hfuel)
    have hup := h
    obtain ⟨hne, -, -, hstr, hname, -⟩ := h
    rw [List.length_cons] at hfuel
    have hroom := hsuffix.room
    have hlen : text.length ≤ (pathUp (text :: texts)).length := by
      cases texts with
      | nil => exact Nat.le_refl _
      | cons above texts =>
        unfold pathUp
        rw [List.length_append, List.length_cons]
        omega
    obtain ⟨hstr₁, hspares₁⟩ := fillName hstr hname (by omega) hsuffix hhi
    have hup₁ := hup.congr fun x hx => hspares₁.bytes x (show ¬ (_ ∧ _) by omega)
    obtain ⟨-, -, -, -, -, habove⟩ := hup₁
    unfold fillPath
    rw [if_neg hne, strlen_eq hstr, Option.bind_some]
    dsimp only
    rw [wrap_sub (a := ptr) (c := text.length) (by omega) (by omega)]
    cases texts with
    | nil =>
      rw [if_neg (not_not.mpr (habove.eq_nil_iff.mpr rfl))]
      obtain ⟨fuel, rfl⟩ := Nat.exists_eq_succ_of_ne_zero (Nat.ne_zero_of_lt (Nat.lt_of_succ_lt_succ hfuel))
      exact ⟨_, if_pos habove, hstr₁, hspares₁⟩
    | cons above texts =>
      have hsize : (pathUp (text :: above :: texts)).length = (pathUp (above :: texts)).length + (text.length + 1) :=
        List.length_append
      generalize memcpy text.length m (ptr - text.length) (m.word dir RamfsDir.name) = m₁ at *
      rw [if_pos fun h0 => (nomatch habove.eq_nil_iff.mp h0), wrap_sub (a := ptr - text.length) (c := 1)
        (by omega) (by omega)]
      -- the slash
      have hspares₂ : Spares (fun x => ¬ (ptr - text.length - 1 ≤ x ∧ x < ptr)) m
        (m₁.store8 (ptr - text.length - 1) 0x2F) :=
        (hspares₁.mono fun x hx => by omega).trans (spares_store8 _ _ (not_not.mpr (by omega)))
      have hup₂ := hup.congr fun x hx => hspares₂.bytes x (show ¬ (_ ∧ _) by omega)
      obtain ⟨-, -, -, -, -, habove₂⟩ := hup₂
      have hslash : IsStr (m₁.store8 (ptr - text.length - 1) 0x2F) (ptr - text.length - 1)
        ([0x2F] ++ (text ++ suffix)) := by
        refine IsStr.prepend ?_ (fun i c hi => ?_) (by decide)
        · rw [List.length_singleton, Nat.sub_add_cancel (by omega)]
          exact hstr₁.congr fun x h1 h2 => (byte_store8 ..).trans (if_neg (by omega))
        · cases i with
          | zero =>
            cases hi
            exact (byte_store8 ..).trans (if_pos rfl)
          | succ i => cases hi
      have hlong : ([0x2F] ++ (text ++ suffix)).length = text.length + suffix.length + 1 := by
        simp
      obtain ⟨m', hfill, hpath, hspares⟩ := ih habove₂ (Nat.lt_of_succ_lt_succ hfuel) (by omega) hslash (by omega)
      have hfrom : ptr - text.length - 1 - (pathUp (above :: texts)).length =
        ptr - (pathUp (text :: above :: texts)).length := by
        omega
      rw [hfrom] at hpath hspares
      refine ⟨m', hfill, ?_, (hspares₂.mono fun x hx => by omega).trans (hspares.mono fun x hx => by omega)⟩
      unfold pathUp
      rw [List.append_assoc]
      exact hpath

end Memory
end ShompOS
