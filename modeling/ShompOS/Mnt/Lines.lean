import ShompOS.Mnt.Generator

/-! What is generated, line by line.

The lines of the temporary file are taken apart by the `awk` scripts as `check_dir` has
put them together, since no name has a blank in it: the C file has a statement for every
entry of the tree, in the order of the tree, and declares the symbols of every file. -/
namespace ShompOS
open Memory

/-! ### Fields and records -/

theorem tokens_first {c : UInt8} {tok rest : List UInt8} (htok : c ∉ tok) (hne : tok ≠ [])
    (hrest : ∀ x ∈ rest.head?, x = c) : tokens c (tok ++ rest) = tok :: tokens c rest :=
  @tokens_append c [] tok rest nofun (fun _ hx he => htok (he ▸ hx)) hne hrest

/-- Pieces that each end with the delimiter are its tokens. -/
theorem tokens_terminated {c : UInt8} {pieces : List (List UInt8)} (h : ∀ p ∈ pieces, p ≠ [] ∧ c ∉ p) :
    tokens c (pieces.flatMap (· ++ [c])) = pieces := by
  induction pieces with
  | nil =>
    unfold tokens
    rfl
  | cons p pieces ih =>
    obtain ⟨hne, hfree⟩ := h p (List.mem_cons_self ..)
    rw [List.flatMap_cons, List.append_assoc, List.singleton_append, tokens_first hfree hne (by simp), tokens_cons,
      ih fun q hq => h q (List.mem_cons_of_mem _ hq)]

/-- A line of the temporary file. -/
def record (fields : List (List UInt8)) : List UInt8 := fields.flatMap (· ++ [0x20])

theorem field_record {fields : List (List UInt8)} (h : ∀ f ∈ fields, f ≠ [] ∧ 0x20 ∉ f) (n : Nat) :
    field (record fields) n = (fields[n - 1]?).getD [] := by
  unfold field record
  rw [tokens_terminated h]

/-! ### Paths -/

def isPathChar (c : UInt8) : Bool := isNameChar c || c == 0x2F

/-- A path below `./mnt`. -/
structure IsPath (path : List UInt8) : Prop where
  relative : path.head? = some 0x2E
  chars : ∀ c ∈ path, isPathChar c

theorem isPath_mntDir : IsPath mntDir := ⟨by decide, List.all_eq_true.mp (by decide)⟩

theorem IsPath.below {path : List UInt8} (h : IsPath path) (name : FileName) : IsPath (name.below path) := by
  constructor
  · unfold FileName.below
    rw [List.head?_append, h.relative]
    rfl
  · intro c hc
    cases List.mem_append.mp hc with
    | inl hc => exact h.chars c hc
    | inr hc =>
      cases List.mem_cons.mp hc with
      | inl hc =>
        rw [hc]
        rfl
      | inr hc =>
        unfold isPathChar
        rw [name.chars c hc, Bool.true_or]

theorem FileName.below_length (name : FileName) (path : List UInt8) : path.length < (name.below path).length := by
  simp [below]

theorem FileName.slash_not_mem (name : FileName) : (0x2F : UInt8) ∉ name.text := fun h =>
  absurd (name.chars _ h) (by decide)

theorem basename_below (name : FileName) (path : List UInt8) : basename (name.below path) = name.text := by
  have hword : ∀ c ∈ name.text.reverse, decide (c ≠ 0x2F) = true := by
    intro c hc
    rw [List.mem_reverse] at hc
    exact decide_eq_true fun he => name.slash_not_mem (he ▸ hc)
  unfold basename FileName.below
  rw [List.reverse_append, List.reverse_cons, List.append_assoc, List.takeWhile_append_of_pos hword,
    List.singleton_append, List.takeWhile_cons_of_neg (by simp), List.append_nil, List.reverse_reverse]

/-! ### Symbols -/

theorem sed_length (path : List UInt8) : (sed path).length = path.length := List.length_map ..

/-- On the characters of a path, `sed` and `ld` agree. -/
theorem IsPath.ldSymbol_eq {path : List UInt8} (h : IsPath path) : ldSymbol path = sed path := by
  apply List.map_congr_left
  intro c hc
  have hchar := h.chars c hc
  unfold isPathChar isNameChar at hchar
  by_cases hA : isAlnum c
  · have hne : ¬ (c = 0x20 ∨ c = 0x2F ∨ c = 0x5C ∨ c = 0x2E) := by
      rintro (rfl | rfl | rfl | rfl) <;> exact absurd hA (by decide)
    rw [if_pos hA, if_neg hne]
  · simp only [hA, Bool.false_or, Bool.or_eq_true, beq_iff_eq] at hchar
    rw [if_neg hA]
    rcases hchar with (rfl | rfl) | rfl <;> rfl

theorem IsPath.sed_chars {path : List UInt8} (h : IsPath path) : ∀ c ∈ sed path, isIdentifierChar c := by
  rw [← h.ldSymbol_eq]
  intro c hc
  obtain ⟨x, -, rfl⟩ := List.mem_map.mp hc
  by_cases hA : isAlnum x
  · unfold isIdentifierChar
    rw [if_pos hA, hA, Bool.true_or]
  · rw [if_neg hA]
    rfl

theorem IsPath.sed_head {path : List UInt8} (h : IsPath path) : (sed path).head? = some 0x5F := by
  unfold sed
  rw [List.head?_map, h.relative]
  rfl

theorem IsPath.isIdentifier {path : List UInt8} (h : IsPath path) : IsIdentifier (sed path) :=
  ⟨h.sed_chars, 0x5F, h.sed_head, by decide⟩

theorem IsPath.symbol_isIdentifier {path suffix : List UInt8} (h : IsPath path)
    (hsuffix : suffix.all isIdentifierChar = true) : IsIdentifier (ascii "_binary_" ++ sed path ++ suffix) := by
  refine ⟨fun c hc => ?_, 0x5F, rfl, by decide⟩
  cases List.mem_append.mp hc with
  | inl hc =>
    cases List.mem_append.mp hc with
    | inl hc => exact List.all_eq_true.mp (by decide : (ascii "_binary_").all isIdentifierChar = true) c hc
    | inr hc => exact h.sed_chars c hc
  | inr hc => exact List.all_eq_true.mp hsuffix c hc

/-- What can stand in a field of the temporary file. -/
def IsField (text : List UInt8) : Prop := text ≠ [] ∧ 0x20 ∉ text ∧ 0x0A ∉ text

theorem IsPath.sed_isField {path : List UInt8} (h : IsPath path) : IsField (sed path) := by
  refine ⟨fun hnil => ?_, fun hc => ?_, fun hc => ?_⟩
  · have hhead := h.sed_head
    rw [hnil] at hhead
    cases hhead
  · exact absurd (h.sed_chars _ hc) (by decide)
  · exact absurd (h.sed_chars _ hc) (by decide)

theorem FileName.isField (name : FileName) : IsField name.text :=
  ⟨name.ne_nil, fun hc => absurd (name.chars _ hc) (by decide), fun hc => absurd (name.chars _ hc) (by decide)⟩

theorem FileName.isLiteral (name : FileName) : IsLiteral name.text := by
  intro c hc
  have hchar := name.chars c hc
  refine ⟨fun he => ?_, fun he => ?_, fun he => ?_⟩ <;> exact absurd (he ▸ hchar) (by decide)

/-! ### The lines of the temporary file -/

namespace HostDir

/-- The fields of the lines for all that is below a directory. -/
def entries : HostDir → (path : List UInt8) → List (List (List UInt8))
  | .empty, _ => []
  | .file name _ rest, path => [ascii "f", sed path, name.text, sed (name.below path)] :: entries rest path
  | .dir name sub rest, path =>
    [ascii "d", sed path, name.text, sed (name.below path)] :: (entries sub (name.below path) ++ entries rest path)

def ldRuns (t : HostDir) (path : List UInt8) : List LdRun :=
  (files t path).map fun f => ⟨sed f.1 ++ ascii ".o", f.1, f.2⟩

end HostDir

theorem Setup.line_eq (s : Setup) (type parentSymbol path : List UInt8) (name : FileName) :
    s.line type parentSymbol (name.below path) =
      ⟨s.tempfile ++ (record [type, parentSymbol, name.text, sed (name.below path)] ++ [0x0A]), s.ldRuns⟩ := by
  unfold line ech newline record
  rw [basename_below]
  simp

/-- What `check_dir` adds. -/
theorem checkDir_eq (t : HostDir) (path : List UInt8) (s : Setup) :
    checkDir t path s = ⟨s.tempfile ++ ((HostDir.entries t path).map record).flatMap (· ++ [0x0A]),
      s.ldRuns ++ HostDir.ldRuns t path⟩ := by
  induction t generalizing path s with
  | empty => simp [checkDir, HostDir.entries, HostDir.ldRuns, HostDir.files]
  | file name contents rest ih =>
    unfold checkDir
    dsimp only
    rw [ih, Setup.line_eq]
    simp [Setup.ld, HostDir.entries, HostDir.ldRuns, HostDir.files]
  | dir name sub rest ihs ihr =>
    unfold checkDir
    dsimp only
    rw [ihr, ihs, Setup.line_eq]
    simp [HostDir.entries, HostDir.ldRuns, HostDir.files]

theorem HostDir.entries_isField (t : HostDir) {path : List UInt8} (h : IsPath path) :
    ∀ fields ∈ HostDir.entries t path, fields ≠ [] ∧ ∀ f ∈ fields, IsField f := by
  have hentry : ∀ type, IsField type → ∀ {path : List UInt8}, IsPath path → ∀ name : FileName,
      ∀ f ∈ [type, sed path, name.text, sed (name.below path)], IsField f := by
    intro type htype path h name f hf
    simp only [List.mem_cons, List.not_mem_nil, or_false] at hf
    rcases hf with rfl | rfl | rfl | rfl
    · exact htype
    · exact h.sed_isField
    · exact name.isField
    · exact (h.below name).sed_isField
  induction t generalizing path with
  | empty => nofun
  | file name contents rest ih =>
    intro fields hfields
    cases List.mem_cons.mp hfields with
    | inl he =>
      rw [he]
      exact ⟨List.cons_ne_nil _ _, hentry _ ⟨by decide, by decide, by decide⟩ h name⟩
    | inr hfields => exact ih h fields hfields
  | dir name sub rest ihs ihr =>
    intro fields hfields
    cases List.mem_cons.mp hfields with
    | inl he =>
      rw [he]
      exact ⟨List.cons_ne_nil _ _, hentry _ ⟨by decide, by decide, by decide⟩ h name⟩
    | inr hfields =>
      cases List.mem_append.mp hfields with
      | inl hfields => exact ihs (h.below name) fields hfields
      | inr hfields => exact ihr h fields hfields

theorem HostDir.field_entries (t : HostDir) {path : List UInt8} (h : IsPath path) :
    ∀ fields ∈ HostDir.entries t path, ∀ n, field (record fields) n = (fields[n - 1]?).getD [] := by
  intro fields hfields n
  apply field_record
  intro f hf
  obtain ⟨hne, hblank, -⟩ := (HostDir.entries_isField t h fields hfields).2 f hf
  exact ⟨hne, hblank⟩

theorem record_isRecord {fields : List (List UInt8)} (hne : fields ≠ []) (h : ∀ f ∈ fields, IsField f) :
    record fields ≠ [] ∧ 0x0A ∉ record fields := by
  constructor
  · cases fields with
    | nil => exact absurd rfl hne
    | cons f fields =>
      unfold record
      rw [List.flatMap_cons, List.append_assoc]
      exact List.append_ne_nil_of_left_ne_nil (h f (List.mem_cons_self ..)).1 _
  · intro hc
    obtain ⟨f, hf, hc⟩ := List.mem_flatMap.mp hc
    cases List.mem_append.mp hc with
    | inl hc => exact (h f hf).2.2 hc
    | inr hc => exact absurd hc (by decide)

/-- The records of the whole temporary file: the first has the symbol of `MNT_DIR`. -/
theorem records_tempfile (t : HostDir) {path : List UInt8} (h : IsPath path) :
    records (checkDir t path ⟨sed path ++ [0x0A], []⟩).tempfile = sed path :: (HostDir.entries t path).map record := by
  have hall : ∀ r ∈ sed path :: (HostDir.entries t path).map record, r ≠ [] ∧ (0x0A : UInt8) ∉ r := by
    intro r hr
    cases List.mem_cons.mp hr with
    | inl hr =>
      rw [hr]
      exact ⟨h.sed_isField.1, h.sed_isField.2.2⟩
    | inr hr =>
      obtain ⟨fields, hfields, rfl⟩ := List.mem_map.mp hr
      obtain ⟨hne, hf⟩ := HostDir.entries_isField t h fields hfields
      exact record_isRecord hne hf
  rw [checkDir_eq]
  unfold records
  exact tokens_terminated hall

/-! ### What the scripts make of them -/

/-- The statements for all that is below a directory. -/
def HostDir.body : HostDir → (path : List UInt8) → List CLine
  | .empty, _ => []
  | .file name _ rest, path =>
    .createFile (sed path) name.text (startSymbol (sed (name.below path))) (endSymbol (sed (name.below path)))
      (startSymbol (sed (name.below path))) :: body rest path
  | .dir name sub rest, path =>
    .createDir (sed (name.below path)) (sed path) name.text :: (body sub (name.below path) ++ body rest path)

theorem mntSetup2Rules_header {path : List UInt8} (h : IsPath path) :
    mntSetup2Rules (sed path) = [.initMnt (sed path)] := by
  have hfield : field (sed path) 1 = sed path := by
    have hword : tokens 0x20 (sed path ++ []) = sed path :: tokens 0x20 [] :=
      tokens_first h.sed_isField.2.1 h.sed_isField.1 nofun
    rw [List.append_nil] at hword
    unfold field
    rw [hword]
    rfl
  unfold mntSetup2Rules
  rw [h.sed_head, hfield]
  rfl

theorem mntSetup2Rules_entries (t : HostDir) {path : List UInt8} (h : IsPath path) :
    ((HostDir.entries t path).map record).flatMap mntSetup2Rules = HostDir.body t path := by
  induction t generalizing path with
  | empty => rfl
  | file name contents rest ih =>
    have hhere := HostDir.field_entries (.file name contents rest) h _ (List.mem_cons_self ..)
    have hrest := ih h
    unfold HostDir.entries HostDir.body
    rw [List.map_cons, List.flatMap_cons, hrest]
    unfold mntSetup2Rules
    simp only [hhere]
    rfl
  | dir name sub rest ihs ihr =>
    have hhere := HostDir.field_entries (.dir name sub rest) h _ (List.mem_cons_self ..)
    have hsub := ihs (h.below name)
    have hrest := ihr h
    unfold HostDir.entries HostDir.body
    rw [List.map_cons, List.flatMap_cons, List.map_append, List.flatMap_append, hsub, hrest]
    unfold mntSetup2Rules
    simp only [hhere]
    rfl

/-- The symbols of every file are declared, and no others. -/
theorem mntSetup1_entries (t : HostDir) {path : List UInt8} (h : IsPath path) :
    ((HostDir.entries t path).map record).flatMap (fun record =>
      if record.head? = some 0x66 then [endSymbol (field record 4), startSymbol (field record 4)] else []) =
      (HostDir.files t path).flatMap fun f => [endSymbol (sed f.1), startSymbol (sed f.1)] := by
  induction t generalizing path with
  | empty => rfl
  | file name contents rest ih =>
    have hhere := HostDir.field_entries (.file name contents rest) h _ (List.mem_cons_self ..)
    have hrest := ih h
    unfold HostDir.entries HostDir.files
    rw [List.map_cons, List.flatMap_cons, List.flatMap_cons, hrest]
    simp only [hhere]
    rfl
  | dir name sub rest ihs ihr =>
    have hsub := ihs (h.below name)
    have hrest := ihr h
    unfold HostDir.entries HostDir.files
    rw [List.map_cons, List.flatMap_cons, List.map_append, List.flatMap_append, List.flatMap_append, hsub, hrest]
    rfl

/-- The C file and the runs of `ld`, from the tree. -/
theorem mntSetup_eq (t : HostDir) {path : List UInt8} (h : IsPath path) :
    mntSetup path t = ⟨(HostDir.files t path).flatMap fun f => [endSymbol (sed f.1), startSymbol (sed f.1)],
      .initMnt (sed path) :: (HostDir.body t path ++ [.return0]), HostDir.ldRuns t path⟩ := by
  have hfirst : ¬ (sed path).head? = some 0x66 := by
    rw [h.sed_head]
    decide
  unfold mntSetup mntSetup1 mntSetup2
  dsimp only
  rw [records_tempfile t h, List.flatMap_cons, List.flatMap_cons, if_neg hfirst, mntSetup2Rules_header h,
    mntSetup1_entries t h, mntSetup2Rules_entries t h, checkDir_eq]
  rfl

end ShompOS
