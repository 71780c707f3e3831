import Recurrence.Proofs.Expression.Misreading
import Recurrence.Proofs.Expression.Parsing
import Recurrence.Proofs.Text.Scanning

/-!
The place of a syntax error. If a text is not made of words, it is the first place where there is
none. Otherwise it is the first word with which the words of no expression begin, or the end of the
text if it only leaves off too early.
-/
namespace Recurrence

/-- All of a text before the place is cut into words, and no word begins there. -/
def NoWordAt (cs : List Char) (err : SyntaxError) : Prop :=
  ∃ before c after words, cs = before ++ c :: after ∧ err.position = String.utf8Len before ∧
    CutTo err.position (c :: after) 0 cs words ∧ Lexeme.Absent c after err.expected

theorem noWordAt_of_scan {cs : List Char} {err : SyntaxError}
    (h : Token.scan 0 0 cs = .error err) : NoWordAt cs err := by
  obtain ⟨c, after, words, hcut, habsent⟩ := CutTo.of_scan h
  obtain ⟨before, hcs, hposition⟩ := hcut.bytes
  exact ⟨before, c, after, words, hcs, hposition.trans (Nat.zero_add _), hcut, habsent⟩

namespace Expression

/-- The words of some text that is an expression begin with these. -/
def Viable (xs : List Lexeme) : Prop :=
  ∃ (s : String) (e : Expression) (tokens : List Token), parse s = .ok e ∧
    Token.ofText s.toList = .ok tokens ∧ xs <+: tokens.map (·.lexeme)

variable {cs : List Char} {tokens : List Token}

theorem ofText_of_read {e : Expression} (h : Token.ofText cs = .ok tokens)
    (hread : read (tokens.map (·.lexeme)) = .ok e) : ofText cs = .ok e := by
  rw [ofText, h]
  simp only [bind, Except.bind, hread]
  rfl

theorem read_of_ofText {e : Expression} (h : Token.ofText cs = .ok tokens)
    (he : ofText cs = .ok e) : read (tokens.map (·.lexeme)) = .ok e := by
  cases hread : read (tokens.map (·.lexeme)) with
  | error f =>
      rw [ofText, h] at he
      simp only [bind, Except.bind, hread] at he
      split at he <;> contradiction
  | ok e' =>
      cases (ofText_of_read h hread).symm.trans he
      rfl

/-- The place of the first word that was not taken, or else the end of the text. -/
theorem ofText_of_misread {f : Failure} {taken : List Lexeme} (h : Token.ofText cs = .ok tokens)
    (hread : read (tokens.map (·.lexeme)) = .error f)
    (htaken : tokens.map (·.lexeme) = taken ++ f.unread) : ofText cs =
      .error ⟨(tokens[taken.length]?.map (·.start)).getD (trimEnd cs).length, f.expected⟩ := by
  have hlength : tokens.length - f.unread.length = taken.length := by
    rw [← List.length_map (f := (·.lexeme)), htaken, List.length_append, Nat.add_sub_cancel]
  rw [ofText, h]
  simp only [bind, Except.bind, hread, hlength]
  rw [← List.head?_drop]
  cases tokens.drop taken.length with
  | nil => rfl
  | cons t rest => rfl

theorem writable_of_ofText (h : Token.ofText cs = .ok tokens) :
    ∀ x ∈ tokens.map (·.lexeme), x.Writable := by
  obtain ⟨_, _, _, _, _, _, hcut⟩ := Cut.of_ofText h
  exact hcut.spelled.writable

/-- Some words are the beginning of an expression if and only if some words with a spelling can be
added to them so that an expression is read. -/
theorem viable_iff {xs : List Lexeme} :
    Viable xs ↔ ∃ ys, (∀ x ∈ xs ++ ys, x.Writable) ∧ Reads read (xs ++ ys) := by
  constructor
  · intro h
    obtain ⟨s, e, tokens, hparse, htokens, ys, hys⟩ := h
    refine ⟨ys, ?_, e, ?_⟩
    · exact hys ▸ writable_of_ofText htokens
    · exact hys ▸ read_of_ofText htokens hparse
  · intro h
    obtain ⟨ys, hwritable, e, hread⟩ := h
    obtain ⟨hcanonical, hwords⟩ := read_eq_ok_iff.mp hread
    rw [hwords] at hwritable
    have hspelled : Surrounded (Spelled e.lexemes) e.text :=
      ⟨[], e.text, [], by simp, nofun, nofun, spelled_of_writable hwritable⟩
    obtain ⟨hne, hfirst, hlast, hapart⟩ := e.lexemes_apart
    obtain ⟨tokens, htokens, hlexemes⟩ :=
      (ofText_lexemes_iff hne hfirst hlast e.text).mpr ⟨hapart, hspelled⟩
    refine ⟨String.ofList e.text, e, tokens, ?_, ?_, ys, ?_⟩
    · rw [parse, String.toList_ofList]
      exact ofText_eq_ok_iff.mpr ⟨hcanonical, hspelled⟩
    · rw [String.toList_ofList, htokens]
    · rw [hlexemes, hwords]

/-- The place of the first word with which the words no longer begin an expression, or the end of
the text if all of them begin one. -/
def FirstOffence (tokens : List Token) (stop position : Nat) : Prop :=
  ∃ k, Viable ((tokens.take k).map (·.lexeme)) ∧
    ((∃ t, tokens[k]? = some t ∧ ¬ Viable ((tokens.take (k + 1)).map (·.lexeme)) ∧
        position = t.start) ∨
      (k = tokens.length ∧ position = stop))

theorem firstOffence_of_ofText {err : SyntaxError} (h : Token.ofText cs = .ok tokens)
    (herror : ofText cs = .error err) :
    FirstOffence tokens (String.utf8Len (trimEnd cs)) err.position := by
  cases hread : read (tokens.map (·.lexeme)) with
  | ok e => cases (ofText_of_read h hread).symm.trans herror
  | error f =>
      obtain ⟨taken, htaken, hmisread⟩ := failsFirst_read _ f hread
      have hwritable := writable_of_ofText h
      rw [htaken, List.forall_mem_append] at hwritable
      cases (ofText_of_misread h hread htaken).symm.trans herror
      have htake : (tokens.take taken.length).map (·.lexeme) = taken := by
        rw [List.map_take, htaken, List.take_left]
      refine ⟨taken.length, ?_, ?_⟩
      · obtain ⟨ys, hys, hreads⟩ := hmisread.viable
        rw [htake]
        exact viable_iff.mpr ⟨ys, List.forall_mem_append.mpr ⟨hwritable.1, hys⟩, hreads⟩
      · cases hnext : tokens[taken.length]? with
        | none =>
            refine .inr ⟨?_, (Token.utf8Len_trimEnd h).symm⟩
            have hlength := congrArg List.length htaken
            rw [List.length_map, List.length_append] at hlength
            rw [List.getElem?_eq_none_iff] at hnext
            omega
        | some t =>
            refine .inl ⟨t, rfl, ?_, rfl⟩
            rw [List.take_add_one, hnext, List.map_append, htake, viable_iff]
            intro hviable
            obtain ⟨ys, -, hreads⟩ := hviable
            have hhead : f.unread.head? = some t.lexeme := by
              have hdrop : (tokens.map (·.lexeme)).drop taken.length = f.unread := by
                rw [htaken, List.drop_left]
              rw [← hdrop, List.head?_drop, List.getElem?_map, hnext, Option.map_some]
            exact hmisread.offending t.lexeme hhead ys (by simpa using hreads)

theorem FirstOffence.exists_before {position : Nat} (h : Token.ofText cs = .ok tokens)
    (hfirst : FirstOffence tokens (String.utf8Len (trimEnd cs)) position) :
    ∃ before after, cs = before ++ after ∧ position = String.utf8Len before := by
  obtain ⟨k, -, ⟨t, ht, -, rfl⟩ | ⟨-, rfl⟩⟩ := hfirst
  · obtain ⟨before, as, after, hcs, -, hstart, -⟩ := Token.mem_ofText h (List.mem_of_getElem? ht)
    exact ⟨before, as ++ after, by rw [hcs, List.append_assoc], hstart⟩
  · obtain ⟨back, hcs, -⟩ := exists_trimEnd_append cs
    exact ⟨trimEnd cs, back, hcs, rfl⟩

/-- A text that is not parsed is wrong at the place that is reported: before it there are only
words, and none comes next, or the words before it begin an expression, and with the next word they
do not. -/
theorem parse_error_position {s : String} {err : SyntaxError} (h : parse s = .error err) :
    ((¬ ∃ words, Cut 0 s.toList words) → NoWordAt s.toList err) ∧
    ((∃ words, Cut 0 s.toList words) → ∃ tokens, Token.ofText s.toList = .ok tokens ∧
      (∀ t ∈ tokens, ∃ before as after, s.toList = before ++ as ++ after ∧ t.lexeme.Spells as ∧
        t.start = String.utf8Len before ∧ t.stop = t.start + String.utf8Len as) ∧
      FirstOffence tokens (String.utf8Len (trimEnd s.toList)) err.position) ∧
    String.Pos.Raw.IsValid s ⟨err.position⟩ ∧ err.position ≤ s.utf8ByteSize := by
  have hvalid {before after : List Char} (hs : s.toList = before ++ after)
      (hposition : err.position = String.utf8Len before) :
      String.Pos.Raw.IsValid s ⟨err.position⟩ ∧ err.position ≤ s.utf8ByteSize := by
    rw [hposition]
    exact ⟨isValid_utf8Len hs, (isValid_utf8Len hs).le_rawEndPos⟩
  rw [← Token.exists_ofText_iff]
  cases htokens : Token.ofText s.toList with
  | error err' =>
      rw [parse, ofText, htokens] at h
      cases h
      have hnone := noWordAt_of_scan (Token.ofText_eq_error_iff.mp htokens)
      obtain ⟨before, c, after, words, hs, hposition, -⟩ := id hnone
      exact ⟨fun _ => hnone, by simp, hvalid hs hposition⟩
  | ok tokens =>
      have hfirst := firstOffence_of_ofText htokens h
      obtain ⟨before, after, hs, hposition⟩ := hfirst.exists_before htokens
      refine ⟨by simp, fun _ => ⟨tokens, rfl, ?_, hfirst⟩, hvalid hs hposition⟩
      intro t ht
      exact Token.mem_ofText htokens ht

/-- A dash after the sign for the last day, and a number that is too great after such an error. -/
theorem parse_error_position_lastRange :
    (∃ tokens, Token.ofText "0 12 L-3".toList = .ok tokens ∧
      FirstOffence tokens (String.utf8Len (trimEnd "0 12 L-3".toList)) 6) ∧
    NoWordAt "L-3 4294967296".toList ⟨4, .smallNumber⟩ := by
  refine ⟨?_, ?_⟩
  · have htokens : Token.ofText "0 12 L-3".toList = .ok [⟨.number 0, 0, 1⟩, ⟨.space, 1, 2⟩,
        ⟨.number 12, 2, 4⟩, ⟨.space, 4, 5⟩, ⟨.last, 5, 6⟩, ⟨.dash, 6, 7⟩, ⟨.number 3, 7, 8⟩] := by
      decide +kernel
    have herror : parse "0 12 L-3" = .error ⟨6, .separator⟩ := by decide +kernel
    obtain ⟨tokens, h, -, hfirst⟩ :=
      (parse_error_position herror).2.1 (Token.exists_ofText_iff.mp ⟨_, htokens⟩)
    exact ⟨tokens, h, hfirst⟩
  · have htokens : Token.ofText "L-3 4294967296".toList = .error ⟨4, .smallNumber⟩ := by
      decide +kernel
    have herror : parse "L-3 4294967296" = .error ⟨4, .smallNumber⟩ := by decide +kernel
    apply (parse_error_position herror).1
    rw [← Token.exists_ofText_iff, htokens]
    exact fun ⟨_, h⟩ => nomatch h

end Expression

end Recurrence
