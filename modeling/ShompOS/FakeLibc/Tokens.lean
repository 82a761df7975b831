import ShompOS.FakeLibc.Text
import ShompOS.Splitting

/-! Going through a string with `strtok` (`string.c`).

The first call names the string, the others go on from the static variable. What
they return are the tokens of the string, and `NULL` from then on; the string is
changed only where a delimiter ends a token, and what an earlier string left in the
static variable is never looked at. -/
namespace ShompOS
namespace Memory
open Splitting

/-- `n` calls of `strtok`, the first of them with `str`: what they return. -/
def strtokCalls (delim : Nat) : (n : Nat) → (m : Memory) → (last str : Nat) → Option (Memory × Nat × List Nat)
  | 0, m, last, _ => some (m, last, [])
  | n + 1, m, last, str =>
    (m.strtok last str delim).bind fun (m, last, token) =>
      (strtokCalls delim n m last 0).map fun (m, last, tokens) => (m, last, token :: tokens)

/-- What `n` calls return where the tokens of the string at `a` are those of `sp`. -/
def returned (a : Nat) (sp : List (Nat × List UInt8)) (n : Nat) : List Nat :=
  (List.range n).map fun j => (sp[j]?).elim 0 fun p => a + p.1

variable {m : Memory} {a i delim last str : Nat} {ds t : List UInt8} {sp : List (Nat × List UInt8)}

theorem returned_nil (a n : Nat) : returned a [] n = List.replicate n 0 := by
  have hzero : returned a [] n = (List.range n).map fun _ => 0 := List.map_congr_left fun j _ => rfl
  rw [hzero, List.map_const', List.length_range]

theorem returned_cons (a : Nat) (p : Nat × List UInt8) (sp : List (Nat × List UInt8)) (n : Nat) :
    returned a (p :: sp) (n + 1) = (a + p.1) :: returned a sp n := by
  unfold returned
  rw [List.range_succ_eq_map, List.map_cons, List.map_map]
  rfl

/-- The calls from the second on begin where the first has ended. -/
theorem strtokCalls_succ {m₁ m' : Memory} {last₁ last' token : Nat} {tokens : List Nat} {n : Nat}
    (hcall : m.strtok last str delim = some (m₁, last₁, token))
    (hrest : strtokCalls delim n m₁ last₁ 0 = some (m', last', tokens)) :
    strtokCalls delim (n + 1) m last str = some (m', last', token :: tokens) := by
  rw [strtokCalls, hcall, Option.bind_some]
  dsimp only
  rw [hrest, Option.map_some]

/-- Behind the last token there is nothing to go on from. -/
theorem strtokCalls_finished (delim n : Nat) (m : Memory) :
    strtokCalls delim n m 0 0 = some (m, 0, List.replicate n 0) := by
  induction n with
  | zero => rfl
  | succ n ih =>
    have hnone : m.strtok 0 0 delim = some (m, 0, 0) := if_pos ⟨rfl, rfl⟩
    exact strtokCalls_succ hnone ih

/-- The calls go through what the string at `a` is from position `i` on. -/
structure GoesThrough (m : Memory) (delim a i : Nat) (ds t : List UInt8) (sp : List (Nat × List UInt8))
    (last str n : Nat) (m' : Memory) (last' : Nat) : Prop where
  run : strtokCalls delim n m last str = some (m', last', returned a sp n)
  strings : ∀ j p, j < n → sp[j]? = some p → IsStr m' (a + p.1) p.2
  spares : Spares (fun x => ¬ (a + i ≤ x ∧ x < a + i + t.length ∧ m.byte x ∈ ds)) m m'

theorem strtokCalls_splits (h : Splits (· ∈ ds) i t sp) (hd : IsStr m delim ds) (hpos : delim ≠ 0)
    (hs : IsStr m (a + i) t) (hat : (if str ≠ 0 then str else last) = a + i) (hne : a + i ≠ 0)
    (hsep : delim + ds.length < a + i ∨ a + i + t.length < delim) (n : Nat) :
    ∃ m' last', GoesThrough m delim a i ds t sp last str n m' last' := by
  induction h generalizing m last str n with
  | @done i t hall =>
    refine ⟨m, if n = 0 then last else 0, ?_, fun j p hj hp => (nomatch hp), .refl _ m⟩
    cases n with
    | zero => rfl
    | succ n =>
      rw [returned_nil]
      exact strtokCalls_succ (strtok_end hd hpos hs hat hne hall) (strtokCalls_finished delim n m)
  | @last i pre tok hpre htok htok_ne =>
    refine ⟨m, if n = 0 then last else 0, ?_, fun j p hj hp => ?_, .refl _ m⟩
    · cases n with
      | zero => rfl
      | succ n =>
        have hs' := hs
        rw [← List.append_nil tok] at hs'
        have hcall := strtok_token hd hpos hs' hat hne hpre htok htok_ne fun x hx => (nomatch hx)
        rw [if_pos rfl, Nat.add_assoc] at hcall
        rw [returned_cons, returned_nil]
        exact strtokCalls_succ hcall (strtokCalls_finished delim n m)
    · obtain rfl : j = 0 := by
        have := (List.getElem?_eq_some_iff.mp hp).1
        simpa using this
      obtain rfl := Option.some.inj hp
      rw [← Nat.add_assoc]
      exact hs.append_right
  | @more i pre tok rest x sp hpre htok htok_ne hx hrest ih =>
    cases n with
    | zero => exact ⟨m, last, rfl, fun j p hj => absurd hj (Nat.not_lt_zero j), .refl _ m⟩
    | succ n =>
      have hcall := strtok_token hd hpos hs hat hne hpre htok htok_ne fun y hy => Option.some.inj hy ▸ hx
      rw [if_neg (List.cons_ne_nil x rest)] at hcall
      have hlen : (pre ++ (tok ++ x :: rest)).length = pre.length + tok.length + rest.length + 1 := by
        simp only [List.length_append, List.length_cons]
        omega
      rw [hlen] at hsep
      obtain ⟨b, hb⟩ : ∃ b, b = a + i + pre.length + tok.length := ⟨_, rfl⟩
      have hnext : b + 1 = a + (i + pre.length + tok.length + 1) := by omega
      rw [← hb] at hcall
      obtain ⟨htoken, hrest'⟩ := hs.append_right.cut
      rw [← hb] at htoken hrest'
      have hd' : IsStr (m.store8 b 0) delim ds := hd.congr fun y h1 h2 => by
        rw [byte_store8, if_neg (by omega)]
      obtain ⟨m', last', hrun, hstrings, hspares⟩ := ih hd' (hnext ▸ hrest')
        (show (if 0 ≠ 0 then 0 else b + 1) = _ from hnext) (by omega) (by omega) n
      have hkept : ∀ y, y ≤ b → m'.byte y = (m.store8 b 0).byte y := fun y hy => hspares.bytes y fun h => by omega
      refine ⟨m', last', ?_, fun j p hj hp => ?_, ?_⟩
      · rw [returned_cons, ← Nat.add_assoc]
        exact strtokCalls_succ hcall hrun
      · cases j with
        | zero =>
          obtain rfl := Option.some.inj hp
          rw [← Nat.add_assoc]
          exact htoken.congr fun y _ hy => hkept y (by omega)
        | succ j => exact hstrings j p (Nat.lt_of_succ_lt_succ hj) hp
      · have hdelim : m.byte b = x := hb ▸ hs.append_right.append_right.head.1
        have hstored : a + i ≤ b ∧ b < a + i + (pre ++ (tok ++ x :: rest)).length ∧ m.byte b ∈ ds :=
          ⟨by omega, by omega, hdelim ▸ hx⟩
        refine (spares_store8 m 0 (not_not.mpr hstored)).trans (hspares.mono fun y hy hin => hy ?_)
        have hbyte : (m.store8 b 0).byte y = m.byte y := by
          rw [byte_store8, if_neg (by omega)]
        exact ⟨by omega, by omega, hbyte ▸ hin.2.2⟩

/-- However the calls are counted, they return the tokens of the string in order, each of them a string of
its own from then on, and `NULL` behind the last, whatever the static variable held before. -/
theorem strtok_tokens {s : List UInt8} (hs : IsStr m a s) (ha : a ≠ 0) (hd : IsStr m delim ds) (hpos : delim ≠ 0)
    (hsep : delim + ds.length < a ∨ a + s.length < delim) :
    ∃ sp : List (Nat × List UInt8), (sp.Pairwise fun p q => p.1 + p.2.length < q.1) ∧
      (∀ k tok, (k, tok) ∈ sp ↔ Token (· ∈ ds) s k tok) ∧
      ∀ last n, ∃ m' last' tokens, strtokCalls delim n m last a = some (m', last', tokens) ∧
        tokens.length = n ∧ (∀ j, j < n → tokens[j]? = some ((sp[j]?).elim 0 fun p => a + p.1)) ∧
        (∀ j p, j < n → sp[j]? = some p → IsStr m' (a + p.1) p.2) ∧
        Spares (fun x => ¬ (a ≤ x ∧ x < a + s.length ∧ m.byte x ∈ ds)) m m' := by
  obtain ⟨sp, hsp⟩ := exists_splits (· ∈ ds) 0 s
  refine ⟨sp, hsp.sorted, fun k tok => ?_, fun last n => ?_⟩
  · rw [hsp.mem_iff]
    constructor
    · rintro ⟨k', rfl, h⟩
      rwa [Nat.zero_add]
    · exact fun h => ⟨k, (Nat.zero_add k).symm, h⟩
  · obtain ⟨m', last', hrun, hstrings, hspares⟩ := strtokCalls_splits hsp hd hpos hs (if_pos ha) ha hsep n
    refine ⟨m', last', _, hrun, ?_, fun j hj => ?_, hstrings, hspares⟩
    · exact (List.length_map _).trans List.length_range
    · unfold returned
      rw [List.getElem?_map, List.getElem?_range hj, Option.map_some]

/-- A memory with a string and, elsewhere, a delimiter. -/
def ofLine (text : List UInt8) : Memory := (ofText 4096 text).store8 8192 0x20

theorem strtok_tokens_spaces : ∃ m' last' tokens,
    strtokCalls 8192 3 (ofLine (ascii "  ls -l ")) 0 4096 = some (m', last', tokens) ∧ tokens.length = 3 := by
  have hline : IsStr (ofLine (ascii "  ls -l ")) 4096 (ascii "  ls -l ") := by
    have htext : IsStr (ofText 4096 (ascii "  ls -l ")) 4096 (ascii "  ls -l ") := isStr_ofText (by decide) (by decide)
    have hlen : (ascii "  ls -l ").length = 8 := rfl
    exact htext.congr fun x h1 h2 => if_neg (by omega)
  have hdelim : IsStr (ofLine (ascii "  ls -l ")) 8192 [0x20] := by
    apply IsStr.of_getD _ (by decide) (by decide)
    intro i hi
    have hcases : i = 0 ∨ i = 1 := by
      rw [List.length_singleton] at hi
      omega
    cases hcases with
    | inl h => subst h; rfl
    | inr h => subst h; rfl
  obtain ⟨sp, -, -, hcalls⟩ := strtok_tokens hline (by decide) hdelim (by decide) (.inr (by decide))
  obtain ⟨m', last', tokens, hrun, hlen, -⟩ := hcalls 0 3
  exact ⟨m', last', tokens, hrun, hlen⟩

end Memory
end ShompOS
