import ShompOS.FakeLibc.Text
import ShompOS.Shell.Keyboard
import ShompOS.Shell.Quotes

/-! The command line cut into arguments (`parse_command`, `kernel.c`).

One pass over the buffer: quotes and the spaces outside them become 0, and a pointer
to the start of what lies between is stored in `argv`. What decides whether a space or
the end closes a token is `was_space`, and it does not tell a word from a quoted section
that has its pointer already; a quote that opens forgets the word in front of it. So
`argv` has the line's tokens if and only if the line is regular, and more elements than
`execute_command` provides if the line has too many. -/
namespace ShompOS
open Memory Line

/-- The variables of `parse_command`. `argv` has the elements stored so far, in order. -/
structure Parse where
  cmdBuffer : Memory
  argv : List Nat
  token : Nat
  inQuotes : Bool
  wasSpace : Bool

namespace Parse

/-- One round of the loop, at `&cmd_buffer[i]`. -/
def round (p : Parse) (i : Nat) : Parse :=
  if p.cmdBuffer.byte i = quote then
    let inQuotes := !p.inQuotes
    { cmdBuffer := p.cmdBuffer.store8 i 0
      argv := if inQuotes = false ∧ p.token ≠ i then p.argv ++ [p.token] else p.argv
      token := wrap (i + 1)
      inQuotes := inQuotes
      wasSpace := p.wasSpace }
  else if p.cmdBuffer.byte i = space ∧ p.inQuotes = false then
    { cmdBuffer := p.cmdBuffer.store8 i 0
      argv := if p.wasSpace = false then p.argv ++ [p.token] else p.argv
      token := wrap (i + 1)
      inQuotes := p.inQuotes
      wasSpace := true }
  else if p.wasSpace then {p with token := i, wasSpace := false}
  else p

def loop : (fuel i : Nat) → Parse → Option Parse
  | 0, _, _ => none
  | fuel + 1, i, p => if p.cmdBuffer.byte i = 0 then some p else loop fuel (wrap (i + 1)) (p.round i)

end Parse

/-- `parse_command`: the memory and the elements of `argv`, `argc` in number. -/
def parseCommand (m : Memory) (cmdBuffer : Nat) : Option (Memory × List Nat) :=
  (Parse.loop addressSpace cmdBuffer ⟨m, [], cmdBuffer, false, true⟩).bind fun p =>
    if p.wasSpace then some (p.cmdBuffer, p.argv)
    else (p.cmdBuffer.strlen cmdBuffer).map fun len =>
      (p.cmdBuffer, if p.token ≠ wrap (cmdBuffer + len) then p.argv ++ [p.token] else p.argv)

/-- The elements of the array that `execute_command` provides. -/
def maxArgs : Nat := 16

namespace Parse

/-! ### The pass over a list -/

/-- The texts stored in the rest of the pass, where `cur` has been read behind `token`. -/
def scan : (inQuotes wasSpace : Bool) → (cur rest : List UInt8) → List (List UInt8)
  | _, wasSpace, cur, [] => if wasSpace then [] else [cur]
  | q, wasSpace, cur, c :: rest =>
    if c = quote then (if q then nonEmpty [cur] else []) ++ scan (!q) wasSpace [] rest
    else if c = space ∧ q = false then (if wasSpace then [] else [cur]) ++ scan q true [] rest
    else scan q false (cur ++ [c]) rest

/-- What is stored and not empty is among the tokens. -/
theorem scan_sublist (q wasSpace : Bool) (cur rest : List UInt8) :
    (nonEmpty (scan q wasSpace cur rest)).Sublist (gather q cur rest) := by
  induction rest generalizing q wasSpace cur with
  | nil =>
    unfold scan gather
    cases wasSpace with
    | true => exact List.nil_sublist _
    | false => exact List.Sublist.refl _
  | cons c rest ih =>
    unfold scan gather
    by_cases hquote : c = quote
    · rw [if_pos hquote, if_pos hquote, nonEmpty_append]
      apply List.Sublist.append _ (ih _ _ _)
      cases q with
      | true =>
        have htwice : nonEmpty (nonEmpty [cur]) = nonEmpty [cur] := nonEmpty_eq_self (nil_not_mem_nonEmpty _)
        rw [if_pos rfl, htwice]
      | false => exact List.nil_sublist _
    · rw [if_neg hquote, if_neg hquote]
      by_cases hspace : c = space ∧ q = false
      · rw [if_pos hspace, if_pos hspace, nonEmpty_append]
        apply List.Sublist.append _ (ih _ _ _)
        cases wasSpace with
        | true => exact List.nil_sublist _
        | false => exact List.Sublist.refl _
      · rw [if_neg hspace, if_neg hspace]
        exact ih _ _ _

/-- The pass stores the tokens and nothing else if and only if each character agrees. -/
theorem scan_eq_iff {q wasSpace : Bool} {cur rest : List UInt8} (hcur : cur ≠ [] → wasSpace = false) :
    scan q wasSpace cur rest = gather q cur rest ↔ RegularFrom q wasSpace cur rest := by
  induction rest generalizing q wasSpace cur with
  | nil =>
    unfold scan gather RegularFrom
    by_cases hnil : cur = []
    · cases wasSpace with
      | true => simp [hnil, nonEmpty]
      | false => simp [hnil, nonEmpty]
    · simp [hcur hnil, hnil, nonEmpty]
  | cons c rest ih =>
    have hnone : ∀ q, [] ∉ gather q [] rest := fun q => nil_not_mem_gather q [] rest
    unfold scan gather RegularFrom
    by_cases hquote : c = quote
    · rw [if_pos hquote, if_pos hquote, if_pos hquote]
      have hnext : scan (!q) wasSpace [] rest = gather (!q) [] rest ↔ RegularFrom (!q) wasSpace [] rest :=
        ih fun h => absurd rfl h
      cases q with
      | true => simpa using hnext
      | false =>
        by_cases hnil : cur = []
        · simpa [hnil, nonEmpty] using hnext
        · -- the word is lost: what is stored is shorter by it
          refine iff_of_false (fun he => ?_) fun h => hnil (h.1 rfl)
          have hsub := scan_sublist true wasSpace [] rest
          rw [nonEmpty_of_ne hnil] at he
          simp only [Bool.not_false, Bool.false_eq_true, if_false, List.nil_append, List.singleton_append] at he
          have hself : nonEmpty (scan true wasSpace [] rest) = scan true wasSpace [] rest :=
            nonEmpty_eq_self (he ▸ fun h => (List.mem_cons.mp h).elim (fun h => hnil h.symm) (hnone true))
          rw [hself, he] at hsub
          exact absurd hsub.length_le (by simp)
    · rw [if_neg hquote, if_neg hquote, if_neg hquote]
      by_cases hspace : c = space ∧ q = false
      · rw [if_pos hspace, if_pos hspace, if_pos hspace]
        have hnext : scan q true [] rest = gather q [] rest ↔ RegularFrom q true [] rest := ih fun h => absurd rfl h
        by_cases hnil : cur = []
        · cases wasSpace with
          | true => simpa [hnil, nonEmpty] using hnext
          | false =>
            -- an empty text is stored
            refine iff_of_false (fun he => ?_) fun h => absurd (h.1 hnil) (by simp)
            rw [hnil, nonEmpty_nil, List.nil_append] at he
            exact hnone q (he ▸ List.mem_cons_self ..)
        · simpa [hcur hnil, hnil, nonEmpty] using hnext
      · rw [if_neg hspace, if_neg hspace, if_neg hspace]
        exact ih fun _ => rfl

/-! ### The pass over the buffer -/

/-- At `&cmd_buffer[i]`: what is left of the line, what has been read behind `token`, and the texts stored. -/
structure At (cmdBuffer : Nat) (p : Parse) (i : Nat) (cur rest : List UInt8) (out : List (List UInt8)) : Prop where
  line : IsStr p.cmdBuffer i rest
  start : cmdBuffer ≤ p.token
  token : p.token + cur.length = i
  chars : ∀ k c, cur[k]? = some c → p.cmdBuffer.byte (p.token + k) = c
  text : 0 ∉ cur
  fresh : p.wasSpace = true → cur = []
  stored : List.Forall₂ (fun t s => IsStr p.cmdBuffer t s ∧ t + s.length < i) p.argv out
  /-- What `strlen` measures ends before the token, or nothing has been cut yet. -/
  first : ∃ s, IsStr p.cmdBuffer cmdBuffer s ∧
    (cmdBuffer + s.length < p.token ∨ cmdBuffer + s.length = i + rest.length ∧ (p.wasSpace = true ∨ cur ≠ []))

variable {cmdBuffer i : Nat} {p : Parse} {c : UInt8} {cur rest : List UInt8} {out : List (List UInt8)}

/-- Writing a 0 ends the token and what `strlen` measures, and leaves the rest of the line. -/
theorem At.cut (h : At cmdBuffer p i cur (c :: rest) out) :
    IsStr (p.cmdBuffer.store8 i 0) (i + 1) rest ∧ IsStr (p.cmdBuffer.store8 i 0) p.token cur ∧
      List.Forall₂ (fun t s => IsStr (p.cmdBuffer.store8 i 0) t s ∧ t + s.length < i + 1) p.argv out ∧
      ∃ s, IsStr (p.cmdBuffer.store8 i 0) cmdBuffer s ∧ cmdBuffer + s.length < i + 1 := by
  have hroom := h.line.room
  have htoken := h.token
  have hstart := h.start
  rw [List.length_cons] at hroom
  have hbyte : ∀ x, x ≠ i → (p.cmdBuffer.store8 i 0).byte x = p.cmdBuffer.byte x :=
    fun x hx => by rw [byte_store8, if_neg hx]
  refine ⟨h.line.tail.congr fun x h1 _ => hbyte x (by omega), ⟨fun k d hk => ?_, ?_, h.text, by omega⟩, ?_, ?_⟩
  · have hlt := (List.getElem?_eq_some_iff.mp hk).1
    rw [hbyte _ (by omega)]
    exact h.chars k d hk
  · rw [htoken, byte_store8, if_pos rfl]
    rfl
  · refine h.stored.imp fun t s hs => ⟨hs.1.congr fun x _ h2 => hbyte x ?_, ?_⟩
    · have := hs.2
      omega
    · exact Nat.lt_succ_of_lt hs.2
  · obtain ⟨s, hs, hend⟩ := h.first
    rcases hend with hlt | ⟨hend, -⟩
    · exact ⟨s, hs.congr fun x _ h2 => hbyte x (by omega), by omega⟩
    · -- the first 0 is the one written now
      rw [List.length_cons] at hend
      have hk : i - cmdBuffer < s.length := by omega
      have hsplit : s = s.take (i - cmdBuffer) ++ s.get ⟨i - cmdBuffer, hk⟩ :: s.drop (i - cmdBuffer + 1) := by
        rw [List.get_eq_getElem, ← List.drop_eq_getElem_cons hk, List.take_append_drop]
      have hlen : (s.take (i - cmdBuffer)).length = i - cmdBuffer := by
        rw [List.length_take]
        omega
      rw [hsplit] at hs
      have hcut := hs.cut.1
      rw [hlen, show cmdBuffer + (i - cmdBuffer) = i by omega] at hcut
      exact ⟨_, hcut, by omega⟩

/-- A pointer stored after the cut. -/
theorem At.push (h : At cmdBuffer p i cur (c :: rest) out) :
    List.Forall₂ (fun t s => IsStr (p.cmdBuffer.store8 i 0) t s ∧ t + s.length < i + 1) (p.argv ++ [p.token])
      (out ++ [cur]) := by
  obtain ⟨-, htoken, hstored, -⟩ := h.cut
  have hlast := h.token
  exact List.rel_append hstored (List.Forall₂.cons ⟨htoken, by omega⟩ List.Forall₂.nil)

/-- Behind the cut nothing has been read yet. -/
theorem At.next (h : At cmdBuffer p i cur (c :: rest) out) {argv : List Nat} {out' : List (List UInt8)}
    (q wasSpace : Bool)
    (hstored : List.Forall₂ (fun t s => IsStr (p.cmdBuffer.store8 i 0) t s ∧ t + s.length < i + 1) argv out') :
    At cmdBuffer ⟨p.cmdBuffer.store8 i 0, argv, wrap (i + 1), q, wasSpace⟩ (i + 1) [] rest out' := by
  obtain ⟨hrest, -, -, s, hs, hend⟩ := h.cut
  have hstart := h.start
  have htoken := h.token
  rw [h.line.step]
  exact ⟨hrest, by dsimp only; omega, rfl, (fun _ _ hk => by cases hk), List.not_mem_nil, fun _ => rfl, hstored, s, hs, Or.inl hend⟩

/-- Another character is read. -/
theorem At.read (h : At cmdBuffer p i cur (c :: rest) out) {token : Nat} (htoken : token + cur.length = i) :
    At cmdBuffer {p with token := token, wasSpace := false} (i + 1) (cur ++ [c]) rest out := by
  obtain rfl : token = p.token := by
    have := h.token
    omega
  obtain ⟨s, hs, hend⟩ := h.first
  have hlen : (cur ++ [c]).length = cur.length + 1 := List.length_append
  refine ⟨h.line.tail, h.start, by rw [hlen, ← htoken]; rfl, fun k d hk => ?_, fun h0 => ?_, (fun hf => by cases hf), ?_, s, hs, ?_⟩
  · by_cases hlt : k < cur.length
    · rw [List.getElem?_append_left hlt] at hk
      exact h.chars k d hk
    · have hle := (List.getElem?_eq_some_iff.mp hk).1
      obtain rfl : k = cur.length := by omega
      rw [List.getElem?_concat_length, Option.some.injEq] at hk
      rw [htoken, h.line.head.1, hk]
  · cases List.mem_append.mp h0 with
    | inl h0 => exact h.text h0
    | inr h0 => exact h.line.head.2 (List.mem_singleton.mp h0).symm
  · exact h.stored.imp fun t s hs => ⟨hs.1, Nat.lt_succ_of_lt hs.2⟩
  · rw [List.length_cons] at hend
    exact hend.imp_right fun hend => ⟨by omega, Or.inr (by simp)⟩

/-- One round reads one character of the line. -/
theorem At.round (h : At cmdBuffer p i cur (c :: rest) out) :
    ∃ cur' out', At cmdBuffer (p.round i) (i + 1) cur' rest (out ++ out') ∧
    scan p.inQuotes p.wasSpace cur (c :: rest) = out' ++ scan (p.round i).inQuotes (p.round i).wasSpace cur' rest := by
  have hbyte := h.line.head.1
  have hfresh := h.fresh
  have htoken := h.token
  obtain ⟨-, -, hstored, -⟩ := h.cut
  have hpush := h.push
  unfold Parse.round
  rw [hbyte, scan]
  by_cases hquote : c = quote
  · rw [if_pos hquote, if_pos hquote]
    have hnil : p.token ≠ i ↔ cur ≠ [] := by
      rw [← List.length_pos_iff]
      omega
    refine ⟨[], if p.inQuotes then nonEmpty [cur] else [], h.next _ _ ?_, rfl⟩
    cases hq : p.inQuotes with
    | false => simpa using hstored
    | true =>
      by_cases hcur : cur = []
      · simpa [hcur, nonEmpty_nil, mt hnil.mp (not_not.mpr hcur)] using hstored
      · simpa [nonEmpty_of_ne hcur, hnil.mpr hcur] using hpush
  · rw [if_neg hquote, if_neg hquote]
    by_cases hspace : c = space ∧ p.inQuotes = false
    · rw [if_pos hspace, if_pos hspace]
      refine ⟨[], if p.wasSpace then [] else [cur], h.next _ _ ?_, rfl⟩
      cases hw : p.wasSpace with
      | true => simpa using hstored
      | false => simpa using hpush
    · rw [if_neg hspace, if_neg hspace]
      refine ⟨cur ++ [c], [], ?_, ?_⟩
      · rw [List.append_nil]
        cases hw : p.wasSpace with
        | true =>
          rw [if_pos rfl]
          apply h.read
          rw [hfresh hw]
          rfl
        | false =>
          have hread := h.read htoken
          rw [← hw] at hread
          exact hread
      · cases hw : p.wasSpace with
        | true => rfl
        | false =>
          rw [if_neg Bool.false_ne_true, hw]
          rfl

theorem At.loop (h : At cmdBuffer p i cur rest out) (fuel : Nat) (hfuel : rest.length < fuel) :
    ∃ p' cur' out', Parse.loop fuel i p = some p' ∧ At cmdBuffer p' (i + rest.length) cur' [] out' ∧
      out' ++ (if p'.wasSpace then [] else [cur']) = out ++ scan p.inQuotes p.wasSpace cur rest := by
  induction rest generalizing fuel i p cur out with
  | nil =>
    obtain ⟨fuel, rfl⟩ := Nat.exists_eq_succ_of_ne_zero (Nat.ne_zero_of_lt hfuel)
    refine ⟨p, cur, out, ?_, h, rfl⟩
    rw [Parse.loop, if_pos h.line.stop_nil]
  | cons c rest ih =>
    obtain ⟨fuel, rfl⟩ := Nat.exists_eq_succ_of_ne_zero (Nat.ne_zero_of_lt hfuel)
    obtain ⟨cur', out', hnext, hscan⟩ := h.round
    obtain ⟨p', cur'', out'', hloop, hend, hall⟩ := ih hnext fuel (Nat.lt_of_succ_lt_succ hfuel)
    refine ⟨p', cur'', out'', ?_, ?_, ?_⟩
    · rw [Parse.loop, if_neg fun h0 => h.line.head.2 (h.line.head.1.symm.trans h0), h.line.step]
      exact hloop
    · rw [List.length_cons, show i + (rest.length + 1) = i + 1 + rest.length by omega]
      exact hend
    · rw [hall, hscan, List.append_assoc]

end Parse

open Parse

/-- What `parse_command` stores. -/
theorem parseCommand_scan {m : Memory} {cmdBuffer : Nat} {line : List UInt8} (hline : IsStr m cmdBuffer line) :
    ∃ m' argv, parseCommand m cmdBuffer = some (m', argv) ∧ List.Forall₂ (IsStr m') argv (scan false true [] line) := by
  have hroom := hline.room
  have hstart : At cmdBuffer ⟨m, [], cmdBuffer, false, true⟩ cmdBuffer [] line [] :=
    ⟨hline, Nat.le_refl _, rfl, (fun _ _ hk => by cases hk), List.not_mem_nil, fun _ => rfl,
      List.Forall₂.nil, line, hline,
      Or.inr ⟨rfl, Or.inl rfl⟩⟩
  obtain ⟨p, cur, out, hloop, hend, hall⟩ := hstart.loop addressSpace (by omega)
  have hstored := hend.stored.imp fun t s hs => hs.1
  unfold parseCommand
  rw [hloop, Option.bind_some]
  rw [List.nil_append] at hall
  rw [← hall]
  cases hw : p.wasSpace with
  | true =>
    rw [if_pos rfl, if_pos rfl, List.append_nil]
    exact ⟨_, _, rfl, hstored⟩
  | false =>
    rw [if_neg Bool.false_ne_true, if_neg Bool.false_ne_true]
    obtain ⟨s, hs, hfirst⟩ := hend.first
    have htoken := hend.token
    have hsroom := hs.room
    -- a token that is not empty does not start where the buffer now ends
    have hne : p.token ≠ wrap (cmdBuffer + s.length) := by
      rw [wrap_eq (by omega)]
      rcases hfirst with hlt | ⟨heq, hread⟩
      · omega
      · have hcur : cur ≠ [] := hread.resolve_left (by rw [hw]; exact Bool.false_ne_true)
        have hpos := List.length_pos_iff.mpr hcur
        rw [List.length_nil] at heq
        omega
    have hlast : IsStr p.cmdBuffer p.token cur :=
      ⟨hend.chars, by rw [htoken]; exact hend.line.stop_nil, hend.text, by have := hend.line.room; rw [htoken]; exact this⟩
    rw [strlen_eq hs, Option.map_some, if_pos hne]
    exact ⟨_, _, rfl, List.rel_append hstored (List.Forall₂.cons hlast List.Forall₂.nil)⟩

/-- `argv` has exactly the tokens of the line, and no element behind the array is stored to, if and only if
the line is regular and has no more tokens than the array has elements. -/
theorem parseCommand_iff {m : Memory} {cmdBuffer : Nat} {line : List UInt8} (hline : IsStr m cmdBuffer line)
    (heven : Even (line.count quote)) :
    ∃ m' argv, parseCommand m cmdBuffer = some (m', argv) ∧
      (List.Forall₂ (IsStr m') argv (Line.tokens line) ∧ argv.length ≤ maxArgs ↔
        Line.Regular line ∧ (Line.tokens line).length ≤ maxArgs) := by
  obtain ⟨m', argv, hparse, hscan⟩ := parseCommand_scan hline
  refine ⟨m', argv, hparse, ?_⟩
  have hregular : scan false true [] line = Line.tokens line ↔ Line.Regular line := by
    rw [tokens_eq, scan_eq_iff fun h => absurd rfl h, regular_iff heven]
  rw [← hregular]
  constructor
  · intro h
    obtain ⟨hargv, hlen⟩ := h
    have hunique : Relator.RightUnique (IsStr m') := fun _ _ _ hs ht => hs.unique ht
    exact ⟨hunique.forall₂ hscan hargv, hargv.length_eq ▸ hlen⟩
  · intro h
    obtain ⟨hsame, hlen⟩ := h
    rw [hsame] at hscan
    exact ⟨hscan, hscan.length_eq.symm ▸ hlen⟩

theorem parseCommand_iff_quoted : ∃ m m' argv, parseCommand m 0x300000 = some (m', argv) ∧
    List.Forall₂ (IsStr m') argv [ascii "cat", ascii "a b", ascii "c"] := by
  have hline : IsStr (ofText 0x300000 (ascii "cat \"a b\"c")) 0x300000 (ascii "cat \"a b\"c") :=
    isStr_ofText (by decide) (by decide)
  obtain ⟨m', argv, hparse, hiff⟩ := parseCommand_iff hline (by decide)
  have hregular : Line.Regular (ascii "cat \"a b\"c") :=
    ⟨[⟨[], ascii "cat"⟩, ⟨[ascii "a b"], ascii "c"⟩], by
      simp only [List.forall_mem_cons]
      exact ⟨⟨⟨by simp, by decide⟩, by simp [Line.Stretch.Closed]⟩,
        ⟨⟨by decide, by decide⟩, fun h => by cases h⟩, by simp⟩, by decide⟩
  exact ⟨_, m', argv, hparse, (hiff.mpr ⟨hregular, by decide +kernel⟩).1⟩

/-- Behind a quoted section at the end of the line an empty argument is stored. -/
theorem quoted_word_stores_empty : ¬ ∀ m cmdBuffer line, IsStr m cmdBuffer line → line.length ≤ Shell.cmdMaxLen - 1 →
    Even (line.count quote) → ∃ m' argv, parseCommand m cmdBuffer = some (m', argv) ∧
      List.Forall₂ (IsStr m') argv (Line.tokens line) ∧ argv.length ≤ maxArgs := by
  intro hall
  have hline : IsStr (ofText 0x300000 (ascii "\"a\"")) 0x300000 (ascii "\"a\"") :=
    isStr_ofText (by decide) (by decide)
  obtain ⟨m', argv, hparse, htokens, -⟩ := hall _ _ _ hline (by decide) (by decide)
  obtain ⟨m'', argv', hparse', hscan⟩ := parseCommand_scan hline
  obtain ⟨rfl, rfl⟩ := Prod.mk.inj (Option.some.inj (hparse.symm.trans hparse'))
  have hlen := htokens.length_eq.symm.trans hscan.length_eq
  revert hlen
  decide +kernel

end ShompOS
