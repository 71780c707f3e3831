import Mathlib.Data.String.Basic
import Recurrence.Proofs.Text.Lexing

/-!
Where cutting a text into words comes to an end. All words before the place are cut as in a text
that is wholly made of words, no word begins there, and the place does not depend on the blanks
around the text. Words are ASCII, so that the place is an offset in bytes as well.
-/
namespace Recurrence

theorem takeWhile_append_of_stop {p : Char → Bool} {as bs : List Char}
    (h : (∀ a ∈ as, p a = true) → ∀ b ∈ bs.head?, p b = false) :
    (as ++ bs).takeWhile p = as.takeWhile p := by
  induction as with
  | nil => simpa using takeWhile_append_eq (List.forall_mem_nil _) (h (List.forall_mem_nil _))
  | cons a as ih =>
      cases ha : p a with
      | false => simp [ha]
      | true => simp [ha, ih fun has => h (List.forall_mem_cons.mpr ⟨ha, has⟩)]

theorem utf8Len_of_ascii {cs : List Char} (h : ∀ c ∈ cs, c.utf8Size = 1) :
    String.utf8Len cs = cs.length := by
  induction cs with
  | nil => rfl
  | cons c cs ih =>
      obtain ⟨hc, hcs⟩ := List.forall_mem_cons.mp h
      rw [String.utf8Len_cons, hc, ih hcs, List.length_cons]

theorem isValid_utf8Len {s : String} {before after : List Char} (h : s.toList = before ++ after) :
    String.Pos.Raw.IsValid s ⟨String.utf8Len before⟩ := by
  rw [String.Pos.Raw.isValid_iff_exists_take_toList]
  refine ⟨before.length, ?_⟩
  rw [h, List.take_left, String.utf8ByteSize_ofList]

theorem utf8Size_of_le {c d : Char} (h : c.val ≤ d.val) (hd : d.utf8Size = 1) : c.utf8Size = 1 := by
  rw [Char.utf8Size_eq_one_iff] at hd ⊢
  exact UInt32.le_trans h hd

theorem utf8Size_of_isBlank {c : Char} (h : isBlank c = true) : c.utf8Size = 1 := by
  simp only [isBlank, Bool.or_eq_true, decide_eq_true_eq] at h
  rcases h with (((rfl | rfl) | rfl) | rfl) | rfl <;> rfl

theorem utf8Size_of_isUpper_toUpper {c : Char} (h : c.toUpper.isUpper = true) :
    c.utf8Size = 1 := by
  by_cases hlower : 'a'.val ≤ c.val ∧ c.val ≤ 'z'.val
  · exact utf8Size_of_le (d := 'z') hlower.2 rfl
  · have hupper : c.toUpper = c := dif_neg hlower
    rw [hupper] at h
    have hletter : 'A'.val ≤ c.val ∧ c.val ≤ 'Z'.val := of_decide_eq_true h
    exact utf8Size_of_le (d := 'Z') hletter.2 rfl

theorem Name.read?_append_blanks {table : List (List Char)} [Distinct table] (c : Char)
    (cs : List Char) {back : List Char} (hback : ∀ d ∈ back, isBlank d = true) :
    read? table (c :: (cs ++ back).take 2) = read? table (c :: cs.take 2) := by
  by_cases hlength : 2 ≤ cs.length
  · rw [List.take_append_of_le_length hlength]
  have hshort : read? table (c :: cs.take 2) = none := by
    rw [read?_eq_none_iff]
    intro hmem
    have hthree := (Distinct.entry _ hmem).1
    simp only [List.length_map, List.length_cons, List.length_take] at hthree
    omega
  cases back with
  | nil => rw [List.append_nil]
  | cons b back =>
      rw [hshort, read?_eq_none_iff]
      intro hmem
      have hb : b ∈ c :: (cs ++ b :: back).take 2 := by
        rw [List.take_append]
        obtain ⟨k, hk⟩ := Nat.exists_eq_add_of_lt (Nat.lt_of_not_le hlength)
        simp [show 2 - cs.length = k + 1 by omega]
      have hupper := List.all_eq_true.mp (Distinct.entry _ hmem).2.1 _ (List.mem_map_of_mem hb)
      have hblank := hback b List.mem_cons_self
      rw [(plain_of_isUpper_toUpper hupper).2] at hblank
      contradiction

namespace Lexeme

/-- Every character of a word is one byte long. -/
theorem Spells.ascii {x : Lexeme} {cs : List Char} (h : x.Spells cs) :
    ∀ c ∈ cs, c.utf8Size = 1 := by
  intro c hc
  cases x with
  | number n =>
      have hdigit := h.digits c hc
      simp only [Char.isDigit, Bool.and_eq_true, decide_eq_true_eq] at hdigit
      exact utf8Size_of_le (d := '9') hdigit.2 rfl
  | space => exact utf8Size_of_isBlank (h.blank c hc)
  | month name | weekday name =>
      have hcs : cs = name.text := h
      exact utf8Size_of_isUpper_toUpper (name.isUpper_toUpper c (hcs ▸ hc))
  | comma | dash | star | question | slash | last | workday | hash =>
      rw [h] at hc
      cases List.mem_singleton.mp hc
      rfl

/-- No word begins at the front of the text `c :: cs`, and what is expected there. -/
inductive Absent (c : Char) (cs : List Char) : Expectation → Prop
  | smallNumber (hdigit : c.isDigit = true)
      (hlarge : maxNumber < Nat.ofDigitChars 10 (c :: cs.takeWhile Char.isDigit) 0) :
      Absent c cs .smallNumber
  | lexeme (hblank : isBlank c = false) (hdigit : c.isDigit = false)
      (hmonth : (c :: cs.take 2).map Char.toUpper ∉ monthNames)
      (hweekday : (c :: cs.take 2).map Char.toUpper ∉ weekdayNames)
      (hsymbol : c ∉ [',', '-', '*', '?', '/', 'L', 'W', '#']) : Absent c cs .lexeme

theorem ofSymbol?_eq_none_iff {c : Char} :
    ofSymbol? c = none ↔ c ∉ [',', '-', '*', '?', '/', 'L', 'W', '#'] := by
  unfold ofSymbol?
  split <;> simp_all

theorem front_eq_error_iff {c : Char} {cs : List Char} {expected : Expectation} :
    front c cs = .error expected ↔ Absent c cs expected := by
  constructor
  · intro h
    by_cases hblank : isBlank c = true
    · rw [front, if_pos hblank] at h
      contradiction
    · by_cases hdigit : c.isDigit = true
      · rw [front, if_neg hblank, if_pos hdigit] at h
        simp only at h
        split at h
        · contradiction
        · next hlarge =>
            cases h
            exact .smallNumber hdigit (Nat.lt_of_not_le hlarge)
      · rw [front, if_neg hblank, if_neg hdigit] at h
        split at h
        · contradiction
        · contradiction
        · next hmonth hweekday =>
            split at h
            · contradiction
            · next hsymbol =>
                cases h
                exact .lexeme (Bool.eq_false_iff.mpr hblank) (Bool.eq_false_iff.mpr hdigit)
                  (Name.read?_eq_none_iff.mp hmonth) (Name.read?_eq_none_iff.mp hweekday)
                  (ofSymbol?_eq_none_iff.mp hsymbol)
  · intro h
    cases h with
    | smallNumber hdigit hlarge =>
        have hblank : ¬ isBlank c = true := by
          intro hblank
          rw [isDigit_of_isBlank hblank] at hdigit
          contradiction
        simp only [front, if_neg hblank, if_pos hdigit, if_neg (Nat.not_le.mpr hlarge)]
    | lexeme hblank hdigit hmonth hweekday hsymbol =>
        simp only [front, hblank, hdigit, Bool.false_eq_true, if_false,
          Name.read?_eq_none_iff.mpr hmonth, Name.read?_eq_none_iff.mpr hweekday,
          ofSymbol?_eq_none_iff.mpr hsymbol]

/-- Blanks at the end of a text change nothing at its front. -/
theorem front_append_blanks {c : Char} {cs back : List Char}
    (hback : ∀ d ∈ back, isBlank d = true)
    (hlast : ∀ d ∈ (c :: cs).getLast?, isBlank d = false) : front c (cs ++ back) = front c cs := by
  have hdigits : (cs ++ back).takeWhile Char.isDigit = cs.takeWhile Char.isDigit :=
    takeWhile_append_of_stop fun _ b hb => isDigit_of_isBlank (hback b (List.mem_of_mem_head? hb))
  by_cases hblank : isBlank c = true
  · have hblanks : (cs ++ back).takeWhile isBlank = cs.takeWhile isBlank := by
      apply takeWhile_append_of_stop
      intro hcs
      have hlast' := hlast _ (List.getLast?_eq_some_getLast (List.cons_ne_nil c cs))
      have hall : ∀ d ∈ c :: cs, isBlank d = true := List.forall_mem_cons.mpr ⟨hblank, hcs⟩
      rw [hall _ (List.getLast_mem _)] at hlast'
      contradiction
    rw [front, front, if_pos hblank, if_pos hblank, hblanks]
  · rw [front, front, if_neg hblank, if_neg hblank, hdigits,
      Name.read?_append_blanks c cs hback, Name.read?_append_blanks c cs hback]

end Lexeme

namespace Token

theorem scan_blanks {cs : List Char} (h : ∀ c ∈ cs, isBlank c = true) (start taken : Nat) :
    ∃ tokens, scan start taken cs = .ok tokens := by
  induction cs generalizing start taken with
  | nil => exact ⟨[], by rw [scan]⟩
  | cons c cs ih =>
      obtain ⟨hc, hcs⟩ := List.forall_mem_cons.mp h
      cases taken with
      | zero =>
          obtain ⟨tokens, htokens⟩ := ih hcs (start + 1) (cs.takeWhile isBlank).length
          rw [scan, Lexeme.front, if_pos hc]
          simp only [htokens]
          exact ⟨_, rfl⟩
      | succ taken => exact ih hcs (start + 1) taken

theorem scan_append_blanks {cs back : List Char} (hback : ∀ c ∈ back, isBlank c = true)
    (hlast : ∀ c ∈ cs.getLast?, isBlank c = false) (start taken : Nat) {err : SyntaxError} :
    scan start taken (cs ++ back) = .error err ↔ scan start taken cs = .error err := by
  induction cs generalizing start taken with
  | nil =>
      obtain ⟨tokens, htokens⟩ := scan_blanks hback start taken
      rw [List.nil_append, htokens, scan]
      simp
  | cons c cs ih =>
      have hlast' : ∀ d ∈ cs.getLast?, isBlank d = false := by
        intro d hd
        exact hlast d (by rw [List.getLast?_cons, Option.mem_def.mp hd]; rfl)
      cases taken with
      | zero =>
          rw [List.cons_append, scan, scan, Lexeme.front_append_blanks hback hlast]
          cases Lexeme.front c cs with
          | error expected => rfl
          | ok found => simp only [bind_pure_eq_error, ih hlast']
      | succ taken => exact ih hlast' (start + 1) taken

theorem scan_append_front {front cs : List Char} (hfront : ∀ c ∈ front, isBlank c = true)
    (hfirst : ∀ c ∈ cs.head?, isBlank c = false) {err : SyntaxError} :
    scan 0 0 (front ++ cs) = .error err ↔ scan 0 front.length (front ++ cs) = .error err := by
  cases front with
  | nil => rfl
  | cons c front =>
      obtain ⟨hc, hrest⟩ := List.forall_mem_cons.mp hfront
      rw [List.cons_append, List.length_cons, scan, scan, Lexeme.front, if_pos hc,
        takeWhile_append_eq hrest hfirst]
      exact bind_pure_eq_error

/-- The blanks around a text do not matter to whether and where words cannot be cut off. -/
theorem ofText_eq_error_iff {cs : List Char} {err : SyntaxError} :
    ofText cs = .error err ↔ scan 0 0 cs = .error err := by
  obtain ⟨back, hcs, hback, hlast⟩ := exists_trimEnd_append cs
  obtain ⟨body, hbody, hfirst⟩ := exists_takeWhile_append isBlank (trimEnd cs)
  have hfront : ∀ c ∈ (trimEnd cs).takeWhile isBlank, isBlank c = true :=
    fun c hc => List.mem_takeWhile_imp hc
  have hleading : scan 0 0 _ = .error err ↔ _ := scan_append_front hfront hfirst
  rw [← hbody] at hleading
  conv_rhs => rw [hcs]
  rw [scan_append_blanks hback hlast, hleading, ofText]

end Token

theorem Cut.ascii {start : Nat} {cs : List Char} {tokens : List Token} (h : Cut start cs tokens) :
    ∀ c ∈ cs, c.utf8Size = 1 := by
  induction h with
  | nil => exact nofun
  | cons hx _ _ ih => exact List.forall_mem_append.mpr ⟨hx.ascii, ih⟩

theorem Cut.mem {start : Nat} {cs : List Char} {tokens : List Token} (h : Cut start cs tokens)
    {t : Token} (ht : t ∈ tokens) : ∃ before as after, cs = before ++ as ++ after ∧
      t.lexeme.Spells as ∧ t.start = start + before.length ∧ t.stop = t.start + as.length := by
  induction h with
  | nil => contradiction
  | @cons start x as bs tokens hx _ _ ih =>
      cases ht with
      | head => exact ⟨[], as, bs, rfl, hx, rfl, rfl⟩
      | tail _ ht =>
          obtain ⟨before, word, after, rfl, hword, hstart, hstop⟩ := ih ht
          refine ⟨as ++ before, word, after, by simp only [List.append_assoc], hword, ?_, hstop⟩
          rw [hstart, List.length_append, Nat.add_assoc]

namespace Token

/-- A text has words if and only if it is made of words and blanks. -/
theorem exists_ofText_iff {cs : List Char} :
    (∃ tokens, ofText cs = .ok tokens) ↔ ∃ words, Cut 0 cs words := by
  have herror {err : SyntaxError} : ofText cs = .error err ↔ scan 0 0 cs = .error err :=
    ofText_eq_error_iff
  simp only [← scan_eq_ok_iff]
  cases hwords : ofText cs with
  | error err => simp [herror.mp hwords]
  | ok tokens =>
      cases hscan : scan 0 0 cs with
      | error err => cases hwords.symm.trans (herror.mpr hscan)
      | ok words => exact ⟨fun _ => ⟨words, rfl⟩, fun _ => ⟨tokens, rfl⟩⟩

variable {cs : List Char} {tokens : List Token}

theorem ascii_of_ofText (h : ofText cs = .ok tokens) : ∀ c ∈ cs, c.utf8Size = 1 := by
  obtain ⟨words, hcut⟩ := exists_ofText_iff.mp ⟨tokens, h⟩
  exact hcut.ascii

/-- A token is placed where its word is spelled. -/
theorem mem_ofText (h : ofText cs = .ok tokens) {t : Token} (ht : t ∈ tokens) :
    ∃ before as after, cs = before ++ as ++ after ∧ t.lexeme.Spells as ∧
      t.start = String.utf8Len before ∧ t.stop = t.start + String.utf8Len as := by
  obtain ⟨front, body, back, hcs, -, -, hcut⟩ := Cut.of_ofText h
  obtain ⟨before, as, after, rfl, hword, hstart, hstop⟩ := hcut.mem ht
  have hascii := ascii_of_ofText h
  simp only [hcs, List.forall_mem_append] at hascii
  obtain ⟨⟨hfront, ⟨hbefore, has⟩, -⟩, -⟩ := hascii
  refine ⟨front ++ before, as, after ++ back, by simp only [hcs, List.append_assoc], hword, ?_, ?_⟩
  · rw [String.utf8Len_append, utf8Len_of_ascii hfront, utf8Len_of_ascii hbefore, hstart]
  · rw [utf8Len_of_ascii has, hstop]

theorem utf8Len_trimEnd (h : ofText cs = .ok tokens) :
    String.utf8Len (trimEnd cs) = (trimEnd cs).length := by
  obtain ⟨back, hcs, -⟩ := exists_trimEnd_append cs
  apply utf8Len_of_ascii
  intro c hc
  exact ascii_of_ofText h c (hcs ▸ List.mem_append_left back hc)

end Token

/-- A text that begins at the byte `start`, with words cut off that do not go on. They end before
the byte `stop`, and `rest` is what is left. -/
inductive CutTo (stop : Nat) (rest : List Char) : Nat → List Char → List Token → Prop
  | here : CutTo stop rest stop rest []
  | cons {start x as bs tokens} (h : x.Spells as) (hstop : x.Stops bs)
      (hrest : CutTo stop rest (start + as.length) bs tokens) :
      CutTo stop rest start (as ++ bs) (⟨x, start, start + as.length⟩ :: tokens)

theorem CutTo.bytes {stop start : Nat} {rest cs : List Char} {tokens : List Token}
    (h : CutTo stop rest start cs tokens) :
    ∃ before, cs = before ++ rest ∧ stop = start + String.utf8Len before := by
  induction h with
  | here => exact ⟨[], rfl, rfl⟩
  | @cons start x as bs tokens hx _ _ ih =>
      obtain ⟨before, rfl, rfl⟩ := ih
      refine ⟨as ++ before, (List.append_assoc ..).symm, ?_⟩
      rw [String.utf8Len_append, utf8Len_of_ascii hx.ascii, Nat.add_assoc]

theorem CutTo.of_scan {start : Nat} {cs : List Char} {err : SyntaxError}
    (h : Token.scan start 0 cs = .error err) : ∃ c rest tokens,
      CutTo err.position (c :: rest) start cs tokens ∧ Lexeme.Absent c rest err.expected := by
  match cs with
  | [] => contradiction
  | c :: cs =>
      rw [Token.scan] at h
      split at h
      · next expected hfront =>
          cases h
          exact ⟨c, cs, [], .here, Lexeme.front_eq_error_iff.mp hfront⟩
      · next x more hfront =>
          obtain ⟨as, bs, hcs, rfl, hx, hstop⟩ := Lexeme.front_eq_ok_iff.mp hfront
          rw [bind_pure_eq_error, hcs, Token.scan_taken, List.drop_left] at h
          have hlength : start + 1 + as.length = start + (c :: as).length := by
            rw [List.length_cons]
            omega
          rw [hlength] at h
          obtain ⟨d, rest, tokens, hcut, habsent⟩ := of_scan h
          rw [hcs]
          exact ⟨d, rest, _, .cons hx hstop hcut, habsent⟩
termination_by cs.length
decreasing_by
  rw [hcs, List.length_cons, List.length_append]
  omega

end Recurrence
