import ShompOS.Mnt.Lines

/-! Which paths get along.

`sed` and `ld` keep letters, digits and '_' and make a '_' of everything else, so that two
paths become the same identifier if they differ only in which of '/', '.' and '_' stand
where. Two such files share an object, and of the two only the later one is in the image;
two such directories share a variable, and the C file does not compile. -/
namespace ShompOS
open Memory

/-! ### Paths that become one identifier -/

/-- Any of these becomes a '_'. -/
def isMark (c : UInt8) : Bool := c == 0x2F || c == 0x2E || c == 0x5F

/-- The paths differ at most in which marks stand where. -/
def PathsAlike (p q : List UInt8) : Prop := List.Forall₂ (fun c d => c = d ∨ (isMark c ∧ isMark d)) p q

theorem isAlnum_not_isMark {c : UInt8} (h : isAlnum c) : ¬ isMark c := by
  intro hmark
  simp only [isMark, Bool.or_eq_true, beq_iff_eq] at hmark
  rcases hmark with (rfl | rfl) | rfl <;> exact absurd h (by decide)

theorem isMark_of_not_isAlnum {c : UInt8} (h : isPathChar c) (hc : ¬ isAlnum c) : isMark c := by
  unfold isPathChar isNameChar at h
  simp only [hc, Bool.false_or, Bool.or_eq_true, beq_iff_eq] at h
  rcases h with (rfl | rfl) | rfl <;> rfl

theorem IsPath.sed_eq_iff {p q : List UInt8} (hp : IsPath p) (hq : IsPath q) : sed p = sed q ↔ PathsAlike p q := by
  rw [← hp.ldSymbol_eq, ← hq.ldSymbol_eq]
  have hpc := hp.chars
  have hqc := hq.chars
  clear hp hq
  unfold ldSymbol PathsAlike
  induction p generalizing q with
  | nil =>
    cases q with
    | nil => simp
    | cons d q => simp
  | cons c p ih =>
    cases q with
    | nil => simp
    | cons d q =>
      have hrest := ih (q := q) (fun x hx => hpc x (List.mem_cons_of_mem _ hx))
        fun x hx => hqc x (List.mem_cons_of_mem _ hx)
      have hc := hpc c (List.mem_cons_self ..)
      have hd := hqc d (List.mem_cons_self ..)
      rw [List.map_cons, List.map_cons, List.cons.injEq, List.forall₂_cons]
      apply and_congr _ hrest
      by_cases hC : isAlnum c
      · have hCm := isAlnum_not_isMark hC
        by_cases hD : isAlnum d
        · simp [hC, hD, hCm]
        · have hne : c ≠ d := fun he => hD (he ▸ hC)
          have hmark : c ≠ 0x5F := fun he => hCm (he ▸ rfl)
          simp [hC, hD, hCm, hne, hmark]
      · have hCm := isMark_of_not_isAlnum hc hC
        by_cases hD : isAlnum d
        · have hDm := isAlnum_not_isMark hD
          have hne : c ≠ d := fun he => hC (he ▸ hD)
          have hmark : (0x5F : UInt8) ≠ d := fun he => hDm (he ▸ rfl)
          simp [hC, hD, hDm, hne, hmark]
        · simp [hC, hD, hCm, isMark_of_not_isAlnum hd hD]

theorem sed_nodup_iff {paths : List (List UInt8)} (h : ∀ p ∈ paths, IsPath p) :
    (paths.map sed).Nodup ↔ paths.Pairwise fun p q => ¬ PathsAlike p q := by
  unfold List.Nodup
  rw [List.pairwise_map]
  apply List.Pairwise.iff_of_mem
  intro p q hp hq
  exact not_congr ((h p hp).sed_eq_iff (h q hq))

/-! ### Variables -/

namespace HostDir

theorem files_isPath (t : HostDir) {path : List UInt8} (h : IsPath path) : ∀ f ∈ files t path, IsPath f.1 := by
  induction t generalizing path with
  | empty => nofun
  | file name contents rest ih =>
    intro f hf
    cases List.mem_cons.mp hf with
    | inl he =>
      rw [he]
      exact h.below name
    | inr hf => exact ih h f hf
  | dir name sub rest ihs ihr =>
    intro f hf
    cases List.mem_append.mp hf with
    | inl hf => exact ihs (h.below name) f hf
    | inr hf => exact ihr h f hf

/-- Directories are below their parents. -/
theorem dirs_isPath (t : HostDir) {path : List UInt8} (h : IsPath path) :
    ∀ p ∈ dirs t path, IsPath p ∧ path.length < p.length := by
  induction t generalizing path with
  | empty => nofun
  | file name contents rest ih => exact ih h
  | dir name sub rest ihs ihr =>
    intro p hp
    cases List.mem_cons.mp hp with
    | inl he =>
      rw [he]
      exact ⟨h.below name, name.below_length path⟩
    | inr hp =>
      cases List.mem_append.mp hp with
      | inl hp =>
        obtain ⟨hpath, hlt⟩ := ihs (h.below name) p hp
        exact ⟨hpath, Nat.lt_trans (name.below_length path) hlt⟩
      | inr hp => exact ihr h p hp

/-- The variables of the directories, the last one first. -/
def scope (t : HostDir) (path : List UInt8) : List (List UInt8) := ((dirs t path).map sed).reverse

theorem scope_dir (name : FileName) (sub rest : HostDir) (path : List UInt8) (outer : List (List UInt8)) :
    scope (.dir name sub rest) path ++ outer =
      scope rest path ++ (scope sub (name.below path) ++ sed (name.below path) :: outer) := by
  simp [scope, dirs]

theorem inScope_createFile {externs outer : List (List UInt8)} {dir name data stop start : List UInt8}
    {lines : List CLine} : InScope externs outer (.createFile dir name data stop start :: lines) ↔
      dir ∈ outer ∧ IsLiteral name ∧ data ∈ externs ∧ stop ∈ externs ∧ start ∈ externs ∧ InScope externs outer lines :=
  Iff.rfl

theorem inScope_createDir {externs outer : List (List UInt8)} {new dir name : List UInt8} {lines : List CLine} :
    InScope externs outer (.createDir new dir name :: lines) ↔
      dir ∈ outer ∧ IsLiteral name ∧ IsIdentifier new ∧ new ∉ outer ∧ InScope externs (new :: outer) lines :=
  Iff.rfl

/-- The statements compile if no variable is declared twice. -/
theorem inScope_body {externs : List (List UInt8)} (t : HostDir) {path : List UInt8} (h : IsPath path)
    (hexterns : ∀ f ∈ files t path, startSymbol (sed f.1) ∈ externs ∧ endSymbol (sed f.1) ∈ externs)
    (outer : List (List UInt8)) (hdir : sed path ∈ outer) (houter : outer.Nodup) (lines : List CLine) :
    InScope externs outer (body t path ++ lines) ↔
      (scope t path ++ outer).Nodup ∧ InScope externs (scope t path ++ outer) lines := by
  induction t generalizing path outer lines with
  | empty => exact (and_iff_right houter).symm
  | file name contents rest ih =>
    obtain ⟨hstart, hend⟩ := hexterns _ (List.mem_cons_self ..)
    have hrest := ih h (fun f hf => hexterns f (List.mem_cons_of_mem _ hf)) outer hdir houter lines
    unfold body
    rw [List.cons_append, inScope_createFile, hrest, and_iff_right hdir, and_iff_right name.isLiteral,
      and_iff_right hstart, and_iff_right hend, and_iff_right hstart]
    rfl
  | dir name sub rest ihs ihr =>
    rw [scope_dir]
    unfold body
    rw [List.cons_append, List.append_assoc, inScope_createDir, and_iff_right hdir, and_iff_right name.isLiteral,
      and_iff_right (h.below name).isIdentifier]
    have hsub := fun hfresh => ihs (h.below name) (fun f hf => hexterns f (List.mem_append_left _ hf))
      (sed (name.below path) :: outer) (List.mem_cons_self ..)
      (List.nodup_cons.mpr ⟨hfresh, houter⟩) (body rest path ++ lines)
    have hrest := fun hnodup => ihr h (fun f hf => hexterns f (List.mem_append_right _ hf))
      (scope sub (name.below path) ++ sed (name.below path) :: outer)
      (List.mem_append_right _ (List.mem_cons_of_mem _ hdir)) hnodup lines
    constructor
    · intro hscope
      obtain ⟨hfresh, hscope⟩ := hscope
      obtain ⟨hnodup, hscope⟩ := (hsub hfresh).mp hscope
      exact (hrest hnodup).mp hscope
    · intro hscope
      have hnodup := hscope.1.of_append_right
      have hfresh := (List.nodup_cons.mp hnodup.of_append_right).1
      exact ⟨hfresh, (hsub hfresh).mpr ⟨hnodup, (hrest hnodup).mpr hscope⟩⟩

end HostDir

theorem mntSetup_compiles_iff (t : HostDir) {path : List UInt8} (h : IsPath path) :
    (mntSetup path t).Compiles ↔ ((HostDir.dirs t path).map sed).Nodup := by
  have hexterns : ∀ f ∈ HostDir.files t path,
      startSymbol (sed f.1) ∈ (HostDir.files t path).flatMap (fun f => [endSymbol (sed f.1), startSymbol (sed f.1)]) ∧
      endSymbol (sed f.1) ∈ (HostDir.files t path).flatMap fun f => [endSymbol (sed f.1), startSymbol (sed f.1)] := by
    intro f hf
    exact ⟨List.mem_flatMap.mpr ⟨f, hf, by simp⟩, List.mem_flatMap.mpr ⟨f, hf, by simp⟩⟩
  have hidentifier : ∀ symbol ∈ (HostDir.files t path).flatMap
      (fun f => [endSymbol (sed f.1), startSymbol (sed f.1)]), IsIdentifier symbol := by
    intro symbol hsymbol
    obtain ⟨f, hf, hsymbol⟩ := List.mem_flatMap.mp hsymbol
    have hpath := HostDir.files_isPath t h f hf
    simp only [List.mem_cons, List.not_mem_nil, or_false] at hsymbol
    rcases hsymbol with rfl | rfl
    · exact hpath.symbol_isIdentifier (by decide)
    · exact hpath.symbol_isIdentifier (by decide)
  have hbody := HostDir.inScope_body t h hexterns [sed path] (List.mem_singleton_self (sed path))
    (List.nodup_singleton _)
    [.return0]
  -- the parameter is no variable: it is shorter than all of them
  have hparam : (HostDir.scope t path ++ [sed path]).Nodup ↔ ((HostDir.dirs t path).map sed).Nodup := by
    unfold HostDir.scope
    rw [List.nodup_append, List.nodup_reverse]
    apply and_iff_left_of_imp
    intro _
    refine ⟨List.nodup_singleton _, fun x hx y hy => ?_⟩
    rw [List.mem_reverse] at hx
    obtain ⟨p, hp, rfl⟩ := List.mem_map.mp hx
    rw [List.mem_singleton.mp hy]
    intro he
    have hlen := congrArg List.length he
    rw [sed_length, sed_length] at hlen
    have hlt := (HostDir.dirs_isPath t h p hp).2
    omega
  rw [mntSetup_eq t h]
  unfold Generated.Compiles
  rw [← hparam]
  constructor
  · intro hcompiles
    obtain ⟨-, param, lines, hlines, -, hscope⟩ := hcompiles
    cases hlines
    exact (hbody.mp hscope).1
  · intro hnodup
    exact ⟨hidentifier, _, _, rfl, h.isIdentifier, hbody.mpr ⟨hnodup, rfl⟩⟩

/-! ### Objects -/

theorem objects_subset (runs : List LdRun) : objects runs ⊆ runs := by
  induction runs with
  | nil => exact List.Subset.refl _
  | cons run runs ih =>
    unfold objects
    split
    · exact fun x hx => List.mem_cons_of_mem _ (ih hx)
    · exact List.cons_subset_cons _ ih

/-- No two objects have one name. -/
theorem objects_nodup (runs : List LdRun) : ((objects runs).map LdRun.out).Nodup := by
  induction runs with
  | nil => exact List.nodup_nil
  | cons run runs ih =>
    unfold objects
    split
    · exact ih
    · next hout =>
      rw [List.map_cons]
      exact List.nodup_cons.mpr ⟨fun hin => hout (List.map_subset _ (objects_subset runs) hin), ih⟩

/-- Whatever `ld` has made is there, or what it made later under the same name. -/
theorem exists_object {runs : List LdRun} {run : LdRun} (h : run ∈ runs) : ∃ o ∈ objects runs, o.out = run.out := by
  induction runs generalizing run with
  | nil => cases h
  | cons first runs ih =>
    unfold objects
    by_cases hout : first.out ∈ runs.map LdRun.out
    · rw [if_pos hout]
      cases List.mem_cons.mp h with
      | inl he =>
        obtain ⟨later, hlater, hsame⟩ := List.mem_map.mp hout
        obtain ⟨o, ho, heq⟩ := ih hlater
        exact ⟨o, ho, heq.trans (hsame.trans (he ▸ rfl))⟩
      | inr h => exact ih h
    · rw [if_neg hout]
      cases List.mem_cons.mp h with
      | inl he => exact ⟨first, List.mem_cons_self .., he ▸ rfl⟩
      | inr h =>
        obtain ⟨o, ho, heq⟩ := ih h
        exact ⟨o, List.mem_cons_of_mem _ ho, heq⟩

theorem objects_of_nodup {runs : List LdRun} (h : (runs.map LdRun.out).Nodup) : objects runs = runs := by
  induction runs with
  | nil => rfl
  | cons run runs ih =>
    rw [List.map_cons] at h
    obtain ⟨hout, h⟩ := List.nodup_cons.mp h
    unfold objects
    rw [if_neg hout, ih h]

namespace HostDir

theorem mem_ldRuns {t : HostDir} {path : List UInt8} {run : LdRun} (h : run ∈ ldRuns t path) :
    (run.input, run.contents) ∈ files t path ∧ run.out = sed run.input ++ ascii ".o" := by
  obtain ⟨f, hf, rfl⟩ := List.mem_map.mp h
  exact ⟨hf, rfl⟩

/-- Two files have one object exactly if they have the same symbols. -/
theorem ldRuns_out_nodup_iff (t : HostDir) {path : List UInt8} (h : IsPath path) :
    ((ldRuns t path).map LdRun.out).Nodup ↔ ((files t path).map fun f => f.1).Pairwise fun p q => ¬ PathsAlike p q := by
  have hout : (ldRuns t path).map LdRun.out = (((files t path).map fun f => f.1).map sed).map (· ++ ascii ".o") := by
    simp [ldRuns]
  rw [hout, List.nodup_map_iff (List.append_left_injective _), sed_nodup_iff]
  intro p hp
  obtain ⟨f, hf, rfl⟩ := List.mem_map.mp hp
  exact files_isPath t h f hf

theorem ldRuns_symbol_nodup_iff (t : HostDir) {path : List UInt8} (h : IsPath path) :
    ((ldRuns t path).map fun run => ldSymbol run.input).Nodup ↔
      ((files t path).map fun f => f.1).Pairwise fun p q => ¬ PathsAlike p q := by
  have hsymbol : (ldRuns t path).map (fun run => ldSymbol run.input) = ((files t path).map fun f => f.1).map sed := by
    unfold ldRuns
    rw [List.map_map, List.map_map]
    apply List.map_congr_left
    intro f hf
    exact (files_isPath t h f hf).ldSymbol_eq
  rw [hsymbol, sed_nodup_iff]
  intro p hp
  obtain ⟨f, hf, rfl⟩ := List.mem_map.mp hp
  exact files_isPath t h f hf

end HostDir

/-- What is generated can be linked, whether objects have been overwritten or not. -/
theorem mntSetup_links (t : HostDir) {path : List UInt8} (h : IsPath path) : (mntSetup path t).Links := by
  rw [mntSetup_eq t h]
  have hsymbol : ∀ run ∈ objects (HostDir.ldRuns t path),
      run.out = ldSymbol run.input ++ ascii ".o" := by
    intro run hrun
    obtain ⟨hfile, hout⟩ := HostDir.mem_ldRuns (objects_subset _ hrun)
    rw [(HostDir.files_isPath t h _ hfile).ldSymbol_eq]
    exact hout
  constructor
  · have hnodup := objects_nodup (HostDir.ldRuns t path)
    have hout : (objects (HostDir.ldRuns t path)).map LdRun.out =
        ((objects (HostDir.ldRuns t path)).map fun run => ldSymbol run.input).map (· ++ ascii ".o") := by
      rw [List.map_map]
      exact List.map_congr_left hsymbol
    rw [hout] at hnodup
    exact hnodup.of_map _
  · intro symbol hin
    obtain ⟨f, hf, hin⟩ := List.mem_flatMap.mp hin
    have hrun : (⟨sed f.1 ++ ascii ".o", f.1, f.2⟩ : LdRun) ∈ HostDir.ldRuns t path :=
      List.mem_map_of_mem (f := fun f : List UInt8 × List UInt8 => (⟨sed f.1 ++ ascii ".o", f.1, f.2⟩ : LdRun)) hf
    obtain ⟨o, ho, hout⟩ := exists_object hrun
    have hsame : ldSymbol o.input = sed f.1 := by
      rw [hsymbol o ho] at hout
      exact List.append_cancel_right hout
    refine ⟨o, ho, ?_⟩
    rw [hsame]
    simp only [List.mem_cons, List.not_mem_nil, or_false] at hin
    exact hin.symm

end ShompOS
