import Mathlib.Data.List.Basic
import Mathlib.Logic.Function.Basic

/-! Trees of files and directories, grown in a store.

A `FileTree` is what is in a directory, in order. In a store every directory has an
address, its files with what is in them, and the addresses of its subdirectories. A tree
is grown below a directory by adding one entry after another, each behind those that are
there; an entry may get lost, and a directory with all that would be in it. The store
shows the tree afterwards exactly if nothing was lost. -/
namespace ShompOS

inductive FileTree (ν γ : Type*)
  | empty
  | file (name : ν) (contents : γ) (rest : FileTree ν γ)
  | dir (name : ν) (sub rest : FileTree ν γ)

namespace FileTree
variable {κ ν τ γ : Type*}

/-- The same tree with other names. -/
def map (f : ν → τ) : FileTree ν γ → FileTree τ γ
  | empty => empty
  | file name contents rest => file (f name) contents (rest.map f)
  | dir name sub rest => dir (f name) (sub.map f) (rest.map f)

/-- The files that are in the directory itself. -/
def fileCount : FileTree ν γ → Nat
  | empty => 0
  | file _ _ rest => rest.fileCount + 1
  | dir _ _ rest => rest.fileCount

def dirCount : FileTree ν γ → Nat
  | empty => 0
  | file _ _ rest => rest.dirCount
  | dir _ _ rest => rest.dirCount + 1

/-! ### Stores -/

structure Node (κ ν γ : Type*) where
  /-- A directory may have lost its name. -/
  name : Option ν
  parent : κ
  files : List (ν × γ)
  subs : List κ

/-- Nothing is `none`. -/
abbrev Store (κ ν γ : Type*) := κ → Option (Node κ ν γ)

/-- The directory at `a` has the entries of the tree from its `i`-th file and its `j`-th
subdirectory on, and no others behind those. -/
def Shows (F : Store κ ν γ) : FileTree ν γ → κ → Nat → Nat → Prop
  | empty, a, i, j => ∃ n, F a = some n ∧ n.files.length = i ∧ n.subs.length = j
  | file name contents rest, a, i, j =>
    (∃ n, F a = some n ∧ n.files[i]? = some (name, contents)) ∧ Shows F rest a (i + 1) j
  | dir name sub rest, a, i, j =>
    (∃ n b m, F a = some n ∧ n.subs[j]? = some b ∧ F b = some m ∧ m.name = some name ∧ m.parent = a ∧
      Shows F sub b 0 0) ∧ Shows F rest a i (j + 1)

/-- What is shown below an address depends on nothing else. -/
theorem shows_congr {F F' : Store κ ν γ} {S : κ → Prop} (hsame : ∀ a, S a → F' a = F a)
    (hclosed : ∀ a n, S a → F a = some n → ∀ b ∈ n.subs, S b) {t : FileTree ν γ} {a : κ} {i j : Nat} (ha : S a) :
    Shows F' t a i j ↔ Shows F t a i j := by
  induction t generalizing a i j with
  | empty =>
    unfold Shows
    rw [hsame a ha]
  | file name contents rest ih =>
    unfold Shows
    rw [hsame a ha, ih ha]
  | dir name sub rest ihs ihr =>
    unfold Shows
    rw [hsame a ha, ihr ha]
    apply and_congr_left
    intro _
    apply exists_congr
    intro n
    apply exists_congr
    intro b
    apply exists_congr
    intro m
    apply and_congr_right
    intro hn
    apply and_congr_right
    intro hb
    have hSb : S b := hclosed a n ha hn b (List.mem_of_getElem? hb)
    rw [hsame b hSb, ihs hSb]

/-- What is shown says how much there is. -/
theorem Shows.length {F : Store κ ν γ} {t : FileTree ν γ} {a : κ} {i j : Nat} {n : Node κ ν γ} (h : Shows F t a i j)
    (hn : F a = some n) : n.files.length = i + t.fileCount ∧ n.subs.length = j + t.dirCount := by
  induction t generalizing i j with
  | empty =>
    obtain ⟨m, hm, hi, hj⟩ := h
    obtain rfl := Option.some.inj (hn.symm.trans hm)
    exact ⟨hi, hj⟩
  | file name contents rest ih =>
    obtain ⟨hi, hj⟩ := ih h.2
    exact ⟨by unfold fileCount; omega, hj⟩
  | dir name sub rest ihs ihr =>
    obtain ⟨hi, hj⟩ := ihr h.2
    exact ⟨hi, by unfold dirCount; omega⟩

/-! ### Later stores -/

/-- Every directory is still there with the entries it had first, and a subdirectory that it
has got was not there before. -/
structure Store.Later (F F' : Store κ ν γ) : Prop where
  kept : ∀ a n, F a = some n → ∃ n', F' a = some n' ∧ n'.name = n.name ∧ n'.parent = n.parent ∧ n.files <+: n'.files ∧
    n.subs <+: n'.subs
  fresh : ∀ a n', F' a = some n' → ∀ b ∈ n'.subs, (∃ n, F a = some n ∧ b ∈ n.subs) ∨ (F b = none ∧ F' b ≠ none)

namespace Store
variable {F F₁ F' : Store κ ν γ} {a b new : κ} {n : Node κ ν γ}

theorem Later.refl (F : Store κ ν γ) : F.Later F :=
  ⟨fun _ n hn => ⟨n, hn, rfl, rfl, List.prefix_rfl, List.prefix_rfl⟩, fun _ n hn _ hb => Or.inl ⟨n, hn, hb⟩⟩

theorem Later.ne_none (h : F.Later F') (ha : F a ≠ none) : F' a ≠ none := by
  obtain ⟨n, hn⟩ := Option.ne_none_iff_exists'.mp ha
  obtain ⟨n', hn', -⟩ := h.kept a n hn
  rw [hn']
  exact Option.some_ne_none n'

theorem Later.trans (h : F.Later F₁) (h' : F₁.Later F') : F.Later F' := by
  constructor
  · intro a n hn
    obtain ⟨n₁, hn₁, hname₁, hparent₁, hfiles₁, hsubs₁⟩ := h.kept a n hn
    obtain ⟨n', hn', hname', hparent', hfiles', hsubs'⟩ := h'.kept a n₁ hn₁
    exact ⟨n', hn', hname'.trans hname₁, hparent'.trans hparent₁, hfiles₁.trans hfiles', hsubs₁.trans hsubs'⟩
  · intro a n' hn' b hb
    cases h'.fresh a n' hn' b hb with
    | inl hold =>
      obtain ⟨n₁, hn₁, hb₁⟩ := hold
      apply (h.fresh a n₁ hn₁ b hb₁).imp_right
      exact fun hnew => ⟨hnew.1, h'.ne_none hnew.2⟩
    | inr hnew =>
      refine Or.inr ⟨?_, hnew.2⟩
      by_contra hne
      exact h.ne_none hne hnew.1

variable [DecidableEq κ]

/-- One more file in a directory. -/
def addFile (F : Store κ ν γ) (a : κ) (n : Node κ ν γ) (name : ν) (contents : γ) : Store κ ν γ :=
  Function.update F a (some {n with files := n.files ++ [(name, contents)]})

/-- One more directory below one, at an address where there was nothing. -/
def addDir (F : Store κ ν γ) (a : κ) (n : Node κ ν γ) (new : κ) (name : Option ν) : Store κ ν γ :=
  Function.update (Function.update F new (some ⟨name, a, [], []⟩)) a (some {n with subs := n.subs ++ [new]})

@[simp] theorem addFile_self (F : Store κ ν γ) (a : κ) (n : Node κ ν γ) (name : ν) (contents : γ) :
    F.addFile a n name contents a = some {n with files := n.files ++ [(name, contents)]} :=
  Function.update_self ..

theorem addFile_of_ne (h : b ≠ a) (name : ν) (contents : γ) : F.addFile a n name contents b = F b :=
  Function.update_of_ne h ..

@[simp] theorem addDir_self (F : Store κ ν γ) (a : κ) (n : Node κ ν γ) (new : κ) (name : Option ν) :
    F.addDir a n new name a = some {n with subs := n.subs ++ [new]} :=
  Function.update_self ..

theorem addDir_new (h : new ≠ a) (name : Option ν) : F.addDir a n new name new = some ⟨name, a, [], []⟩ :=
  (Function.update_of_ne h ..).trans (Function.update_self ..)

theorem addDir_of_ne (h : b ≠ a) (h' : b ≠ new) (name : Option ν) : F.addDir a n new name b = F b :=
  (Function.update_of_ne h ..).trans (Function.update_of_ne h' ..)

theorem later_addFile (hn : F a = some n) (name : ν) (contents : γ) : F.Later (F.addFile a n name contents) := by
  constructor
  · intro b m hm
    by_cases hba : b = a
    · rw [hba, hn] at hm
      cases hm
      rw [hba, addFile_self]
      exact ⟨_, rfl, rfl, rfl, List.prefix_append _ _, List.prefix_rfl⟩
    · rw [addFile_of_ne hba]
      exact ⟨m, hm, rfl, rfl, List.prefix_rfl, List.prefix_rfl⟩
  · intro b m' hm' c hc
    by_cases hba : b = a
    · rw [hba, addFile_self] at hm'
      cases hm'
      exact Or.inl ⟨n, hba ▸ hn, hc⟩
    · rw [addFile_of_ne hba] at hm'
      exact Or.inl ⟨m', hm', hc⟩

theorem later_addDir (hn : F a = some n) (hnew : F new = none) (name : Option ν) :
    F.Later (F.addDir a n new name) := by
  have hne : ∀ {b m}, F b = some m → b ≠ new := by
    intro b m hm hb
    rw [hb, hnew] at hm
    cases hm
  constructor
  · intro b m hm
    by_cases hba : b = a
    · rw [hba, hn] at hm
      cases hm
      rw [hba, addDir_self]
      exact ⟨_, rfl, rfl, rfl, List.prefix_rfl, List.prefix_append _ _⟩
    · rw [addDir_of_ne hba (hne hm)]
      exact ⟨m, hm, rfl, rfl, List.prefix_rfl, List.prefix_rfl⟩
  · intro b m' hm' c hc
    by_cases hba : b = a
    · rw [hba, addDir_self] at hm'
      cases hm'
      cases List.mem_append.mp hc with
      | inl hc => exact Or.inl ⟨n, hba ▸ hn, hc⟩
      | inr hc =>
        rw [List.mem_singleton.mp hc, addDir_new (hne hn).symm]
        exact Or.inr ⟨hnew, Option.some_ne_none _⟩
    · by_cases hbn : b = new
      · rw [hbn, addDir_new (hne hn).symm] at hm'
        cases hm'
        cases hc
      · rw [addDir_of_ne hba hbn] at hm'
        exact Or.inl ⟨m', hm', hc⟩

end Store

/-! ### Growing a tree -/

theorem getElem?_of_appended {α : Type*} {xs ys : List α} {x : α} (h : xs ++ [x] <+: ys) : ys[xs.length]? = some x := by
  obtain ⟨zs, rfl⟩ := h
  rw [List.append_assoc, List.getElem?_append_right (Nat.le_refl _), Nat.sub_self]
  rfl

section Growing
variable [DecidableEq κ]

/-- The entries of a tree are added to the directory at `a`; `kept` says that none got lost,
and no directory its name. -/
inductive Grown : Store κ ν γ → κ → FileTree ν γ → Store κ ν γ → (kept : Prop) → Prop
  | empty {F : Store κ ν γ} {a : κ} : Grown F a .empty F True
  | file {F F' : Store κ ν γ} {a : κ} {n : Node κ ν γ} {name : ν} {contents : γ} {rest : FileTree ν γ} {kept : Prop} :
      F a = some n → Grown (F.addFile a n name contents) a rest F' kept → Grown F a (.file name contents rest) F' kept
  | fileLost {F F' : Store κ ν γ} {a : κ} {name : ν} {contents : γ} {rest : FileTree ν γ} {kept : Prop} :
      Grown F a rest F' kept → Grown F a (.file name contents rest) F' False
  | dir {F F₁ F' : Store κ ν γ} {a new : κ} {n : Node κ ν γ} {name : ν} {name' : Option ν} {sub rest : FileTree ν γ}
      {keptSub keptRest : Prop} : F a = some n → F new = none →
      Grown (F.addDir a n new name') new sub F₁ keptSub → Grown F₁ a rest F' keptRest →
      Grown F a (.dir name sub rest) F' (name' = some name ∧ keptSub ∧ keptRest)
  | dirLost {F F' : Store κ ν γ} {a : κ} {name : ν} {sub rest : FileTree ν γ} {kept : Prop} :
      Grown F a rest F' kept → Grown F a (.dir name sub rest) F' False

variable {F F' : Store κ ν γ} {a : κ} {t : FileTree ν γ} {kept : Prop} {n : Node κ ν γ}

theorem Grown.later (h : Grown F a t F' kept) : F.Later F' := by
  induction h with
  | empty => exact Store.Later.refl _
  | file hn _ ih => exact (Store.later_addFile hn _ _).trans ih
  | fileLost _ ih => exact ih
  | dir hn hnew _ _ ihs ihr => exact ((Store.later_addDir hn hnew _).trans ihs).trans ihr
  | dirLost _ ih => exact ih

/-- No other directory that was there is different. -/
theorem Grown.others (h : Grown F a t F' kept) {b : κ} (hb : b ≠ a) (hsome : F b ≠ none) : F' b = F b := by
  induction h with
  | empty => rfl
  | @file F F' a n name contents rest _ hn _ ih =>
    have hsame : F.addFile a n name contents b = F b := Store.addFile_of_ne hb name contents
    rw [ih hb (hsame.symm ▸ hsome), hsame]
  | fileLost _ ih => exact ih hb hsome
  | @dir F F₁ F' a new n name name' sub rest _ _ hn hnew hsub hrest ihs ihr =>
    have hbn : b ≠ new := fun he => hsome (he ▸ hnew)
    have hsame : F.addDir a n new name' b = F b := Store.addDir_of_ne hb hbn _
    have hsub' : F₁ b = F b := (ihs hbn (hsame ▸ hsome)).trans hsame
    rw [ihr hb (hsub' ▸ hsome), hsub']
  | dirLost _ ih => exact ih hb hsome

/-- The directory that a new one is in stays the same while that is grown. -/
theorem Grown.above {F₁ : Store κ ν γ} {new : κ} {name' : Option ν} (h : Grown (F.addDir a n new name') new t F₁ kept)
    (hn : F a = some n) (hnew : F new = none) : a ≠ new ∧ F₁ a = some {n with subs := n.subs ++ [new]} := by
  have hne : a ≠ new := by
    intro he
    rw [he, hnew] at hn
    cases hn
  refine ⟨hne, ?_⟩
  rw [h.others hne (by simp), Store.addDir_self]

/-- There are not more entries than in the tree. -/
theorem Grown.length_le (h : Grown F a t F' kept) (hn : F a = some n) :
    ∃ n', F' a = some n' ∧ n'.files.length ≤ n.files.length + t.fileCount ∧
      n'.subs.length ≤ n.subs.length + t.dirCount := by
  induction h generalizing n with
  | empty => exact ⟨n, hn, Nat.le_refl _, Nat.le_refl _⟩
  | file hm _ ih =>
    cases hn.symm.trans hm
    obtain ⟨n', hn', hfiles, hsubs⟩ := ih (Store.addFile_self ..)
    rw [List.length_append, List.length_singleton] at hfiles
    exact ⟨n', hn', by unfold fileCount; omega, hsubs⟩
  | fileLost _ ih =>
    obtain ⟨n', hn', hfiles, hsubs⟩ := ih hn
    exact ⟨n', hn', by unfold fileCount; omega, hsubs⟩
  | @dir F F₁ F' a new m name name' sub rest _ _ hm hnew hsub hrest ihs ihr =>
    cases hn.symm.trans hm
    obtain ⟨n', hn', hfiles, hsubs⟩ := ihr (hsub.above hm hnew).2
    rw [List.length_append, List.length_singleton] at hsubs
    exact ⟨n', hn', hfiles, by unfold dirCount; omega⟩
  | dirLost _ ih =>
    obtain ⟨n', hn', hfiles, hsubs⟩ := ih hn
    exact ⟨n', hn', hfiles, by unfold dirCount; omega⟩

/-- What is below a new directory stays as it is while others are grown: all of it is new. -/
theorem Grown.shows_new {F₁ : Store κ ν γ} {new : κ} (h : Grown F₁ a t F' kept) (hlater : F.Later F₁) (ha : F a ≠ none)
    (hnew : F new = none) (hnew₁ : F₁ new ≠ none) {sub : FileTree ν γ} {i j : Nat} :
    Shows F' sub new i j ↔ Shows F₁ sub new i j := by
  apply shows_congr (S := fun b => F b = none ∧ F₁ b ≠ none)
  · intro b hb
    exact h.others (fun he => ha (he ▸ hb.1)) hb.2
  · intro b m hb hm c hc
    apply (hlater.fresh b m hm c hc).resolve_left
    intro hold
    obtain ⟨m', hm', -⟩ := hold
    rw [hb.1] at hm'
    cases hm'
  · exact ⟨hnew, hnew₁⟩

/-- The store shows the tree behind what was there first, exactly if nothing was lost. -/
theorem Grown.shows_iff (h : Grown F a t F' kept) (hn : F a = some n) :
    Shows F' t a n.files.length n.subs.length ↔ kept := by
  induction h generalizing n with
  | empty => exact iff_of_true ⟨n, hn, rfl, rfl⟩ trivial
  | @file F F' a m name contents rest _ hm hrest ih =>
    cases hn.symm.trans hm
    have hrest_iff := ih (Store.addFile_self ..)
    rw [List.length_append, List.length_singleton] at hrest_iff
    obtain ⟨n', hn', -, -, hfiles, -⟩ := hrest.later.kept a _ (Store.addFile_self ..)
    have hentry := getElem?_of_appended hfiles
    unfold Shows
    rw [hrest_iff]
    exact and_iff_right ⟨n', hn', hentry⟩
  | @fileLost F F' a name contents rest _ hrest _ =>
    apply iff_of_false _ not_false
    intro hshows
    obtain ⟨n', hn', hle, -⟩ := hrest.length_le hn
    have hlen := (hshows.length hn').1
    unfold fileCount at hlen
    omega
  | @dir F F₁ F' a new m name name' sub rest keptSub keptRest hm hnew hsub hrest ihs ihr =>
    cases hn.symm.trans hm
    obtain ⟨hne, ha⟩ := hsub.above hm hnew
    have hrest_iff := ihr ha
    rw [List.length_append, List.length_singleton] at hrest_iff
    -- the new directory, after what belongs into it and after the rest
    obtain ⟨n₁, hn₁, hname, hparent, -⟩ := hsub.later.kept new _ (Store.addDir_new hne.symm name')
    have hn₁' : F' new = some n₁ := (hrest.others hne.symm (by simp [hn₁])).trans hn₁
    obtain ⟨n', hn', -, -, -, hsubs⟩ := hrest.later.kept a _ ha
    have hentry := getElem?_of_appended hsubs
    have hlater := (Store.later_addDir hn hnew name').trans hsub.later
    have hsub_iff : Shows F' sub new 0 0 ↔ Shows F₁ sub new 0 0 :=
      hrest.shows_new hlater (by simp [hn]) hnew (by simp [hn₁])
    have hempty := ihs (Store.addDir_new hne.symm name')
    unfold Shows
    rw [hrest_iff, ← and_assoc]
    apply and_congr_left
    intro _
    constructor
    · intro hshows
      obtain ⟨m', b, m, hm', hb, hm, hmname, -, hbelow⟩ := hshows
      cases hn'.symm.trans hm'
      cases hentry.symm.trans hb
      cases hn₁'.symm.trans hm
      exact ⟨hname.symm.trans hmname, hempty.mp (hsub_iff.mp hbelow)⟩
    · intro hkept
      exact ⟨n', new, n₁, hn', hentry, hn₁', hname.trans hkept.1, hparent, hsub_iff.mpr (hempty.mpr hkept.2)⟩
  | @dirLost F F' a name sub rest _ hrest _ =>
    apply iff_of_false _ not_false
    intro hshows
    obtain ⟨n', hn', -, hle⟩ := hrest.length_le hn
    have hlen := (hshows.length hn').2
    unfold dirCount at hlen
    omega

end Growing
end FileTree
end ShompOS
