import Mathlib.Data.List.SplitBy
import Recurrence.Proofs.Text.Lexing

/-!
The normal form of a text: no blanks around it, one space for each run of blanks within, and no
needless zeros in front of its numbers. It is defined by runs of characters, without regard to
words. Whatever the spellings of words that do not merge, their text is the normal form.
-/
namespace Recurrence

/-- Whether two neighbouring characters belong to one run, of blanks or of digits. -/
def sameRun (c d : Char) : Bool := (isBlank c && isBlank d) || (c.isDigit && d.isDigit)

/-- A run of digits without the zeros in front. One zero is left of a run of zeros. -/
def dropZeros (cs : List Char) : List Char :=
  match cs.dropWhile (· = '0') with
  | [] => ['0']
  | ds => ds

/-- A run in normal form. A character that is neither a blank nor a digit is a run of its own. -/
def writeRun : List Char → List Char
  | [] => []
  | c :: cs => if isBlank c then [' '] else if c.isDigit then dropZeros (c :: cs) else c :: cs

def writeRuns (cs : List Char) : List Char := (cs.splitBy sameRun).flatMap writeRun

def normalForm (cs : List Char) : List Char := writeRuns (trimEnd (cs.dropWhile isBlank))

theorem digitChar_of_isDigit {c : Char} (h : c.isDigit = true) :
    c.toNat - '0'.toNat < 10 ∧ Nat.digitChar (c.toNat - '0'.toNat) = c := by
  obtain ⟨hlow, hhigh⟩ := Char.isDigit_iff_toNat.mp h
  have hzero : '0'.toNat = 48 := rfl
  have hnine : '9'.toNat = 57 := rfl
  have hlt : c.toNat - '0'.toNat < 10 := by omega
  refine ⟨hlt, ?_⟩
  apply Char.toNat_inj.mp
  rw [Nat.toNat_digitChar_of_lt_ten hlt]
  omega

/-- Digits after those of a number that is not zero are written as they are. -/
theorem toDigits_ofDigitChars {cs : List Char} (h : ∀ c ∈ cs, c.isDigit = true) {n : Nat}
    (hn : 0 < n) :
    Nat.toDigits 10 (Nat.ofDigitChars 10 cs n) = Nat.toDigits 10 n ++ cs := by
  induction cs generalizing n with
  | nil => rw [Nat.ofDigitChars_nil, List.append_nil]
  | cons c cs ih =>
      obtain ⟨hc, hcs⟩ := List.forall_mem_cons.mp h
      obtain ⟨hlt, hchar⟩ := digitChar_of_isDigit hc
      rw [Nat.ofDigitChars_cons, ih hcs (by omega),
        ← Nat.toDigits_append_toDigits (by decide) hn hlt, Nat.toDigits_of_lt_base hlt, hchar,
        List.append_assoc, List.singleton_append]

/-- Digits without the zeros in front are those with which their number is written. -/
theorem dropZeros_eq_toDigits {cs : List Char} (h : ∀ c ∈ cs, c.isDigit = true) :
    dropZeros cs = Nat.toDigits 10 (Nat.ofDigitChars 10 cs 0) := by
  induction cs with
  | nil => rfl
  | cons c cs ih =>
      obtain ⟨hc, hcs⟩ := List.forall_mem_cons.mp h
      by_cases hzero : c = '0'
      · subst hzero
        exact ih hcs
      · obtain ⟨hlt, hchar⟩ := digitChar_of_isDigit hc
        have hpos : 0 < c.toNat - '0'.toNat := by
          by_contra hle
          rw [Nat.eq_zero_of_not_pos hle] at hchar
          exact hzero hchar.symm
        rw [Nat.ofDigitChars_cons, Nat.mul_zero, Nat.zero_add, toDigits_ofDigitChars hcs hpos,
          Nat.toDigits_of_lt_base hlt, hchar]
        simp [dropZeros, hzero]

theorem writeRuns_append {as bs : List Char}
    (h : ∀ c ∈ as.getLast?, ∀ d ∈ bs.head?, sameRun c d = false) :
    writeRuns (as ++ bs) = writeRuns as ++ writeRuns bs := by
  rw [writeRuns, List.splitBy_append h, List.flatMap_append]
  rfl

theorem writeRuns_of_sameRun {c : Char} {cs : List Char}
    (h : ∀ a ∈ c :: cs, ∀ b ∈ c :: cs, sameRun a b = true) :
    writeRuns (c :: cs) = writeRun (c :: cs) := by
  have hchain : (c :: cs).IsChain fun a b => sameRun a b = true :=
    (List.pairwise_of_forall_mem_list h).isChain
  rw [writeRuns, List.splitBy_of_isChain (List.cons_ne_nil c cs) hchain, List.flatMap_singleton]

/-- Characters that are neither blanks nor digits stay as they are. -/
theorem writeRuns_plain {cs : List Char} (h : ∀ c ∈ cs, c.isDigit = false ∧ isBlank c = false) :
    writeRuns cs = cs := by
  induction cs with
  | nil => rfl
  | cons c cs ih =>
      obtain ⟨⟨hdigit, hblank⟩, hcs⟩ := List.forall_mem_cons.mp h
      have hfirst : writeRuns [c] = [c] := by
        simp [writeRuns, List.splitBy, List.splitBy.loop, writeRun, hdigit, hblank]
      have happend : writeRuns ([c] ++ cs) = writeRuns [c] ++ writeRuns cs := by
        apply writeRuns_append
        intro b hb d _
        cases hb
        simp [sameRun, hdigit, hblank]
      rw [hfirst, ih hcs] at happend
      exact happend

theorem Lexeme.Spells.writeRuns_eq {x : Lexeme} {cs : List Char} (h : x.Spells cs) :
    writeRuns cs = x.text := by
  obtain ⟨c, cs, rfl⟩ := List.exists_cons_of_ne_nil h.ne_nil
  cases x with
  | number n =>
      have hc := h.digits c List.mem_cons_self
      have hblank : ¬ isBlank c = true := by
        intro hblank
        rw [isDigit_of_isBlank hblank] at hc
        contradiction
      rw [writeRuns_of_sameRun, writeRun, if_neg hblank, if_pos hc, dropZeros_eq_toDigits h.digits,
        h.value, text]
      intro a ha b hb
      simp [sameRun, h.digits a ha, h.digits b hb]
  | space =>
      rw [writeRuns_of_sameRun, writeRun, if_pos (h.blank c List.mem_cons_self), text]
      intro a ha b hb
      simp [sameRun, h.blank a ha, h.blank b hb]
  | month _ | weekday _ | comma | dash | star | question | slash | last | workday | hash =>
      rw [writeRuns_plain (h.plain (by simp) (by simp))]
      exact h

/-- No run goes on from one word into the next one, if these stay apart. -/
theorem Lexeme.Apart.sameRun_eq_false {x y : Lexeme} (hapart : x.Apart y) {as bs : List Char}
    (hx : x.Spells as) (hy : y.Spells bs) {c d : Char} (hc : c ∈ as) (hd : d ∈ bs) :
    sameRun c d = false := by
  rw [← Bool.not_eq_true, sameRun, Bool.or_eq_true, Bool.and_eq_true, Bool.and_eq_true,
    hx.isBlank_iff hc, hy.isBlank_iff hd, hx.isDigit_iff hc, hy.isDigit_iff hd]
  intro h
  obtain ⟨rfl, rfl⟩ | ⟨⟨m, rfl⟩, n, rfl⟩ := h
  · exact hapart
  · exact hapart

/-- Words that stay apart are written in normal form, one after the other. -/
theorem Spelled.writeRuns_eq {xs : List Lexeme} {cs : List Char} (h : Spelled xs cs)
    (hapart : xs.IsChain Lexeme.Apart) : writeRuns cs = Lexeme.join xs := by
  induction h with
  | nil => rfl
  | @cons x xs as bs hx hxs ih =>
      rw [List.isChain_cons] at hapart
      rw [writeRuns_append, hx.writeRuns_eq, ih hapart.2]
      · rfl
      · intro c hc d hd
        cases hxs with
        | nil => contradiction
        | @cons y ys cs ds hy _ =>
            rw [List.head?_append_of_ne_nil _ hy.ne_nil] at hd
            exact (hapart.1 y rfl).sameRun_eq_false hx hy (List.mem_of_getLast? hc)
              (List.mem_of_head? hd)

/-- The blanks around some words do not count. -/
theorem Surrounded.normalForm_eq {xs : List Lexeme} {cs : List Char}
    (h : Surrounded (Spelled xs) cs) (hne : xs ≠ []) (hfirst : xs.head? ≠ some .space)
    (hlast : xs.getLast? ≠ some .space) (hapart : xs.IsChain Lexeme.Apart) :
    normalForm cs = Lexeme.join xs := by
  obtain ⟨front, body, back, rfl, hfront, hback, hspelled⟩ := h
  have hstart : (front ++ body ++ back).dropWhile isBlank = body ++ back := by
    rw [List.append_assoc]
    apply dropWhile_append_eq hfront
    rw [List.head?_append_of_ne_nil _ (hspelled.ne_nil hne)]
    exact hspelled.isBlank_head hfirst
  rw [normalForm, hstart, trimEnd_append hback (hspelled.isBlank_getLast hlast),
    hspelled.writeRuns_eq hapart]

example : normalForm "\t 007  */00 ".toList = "7 */0".toList := by decide

end Recurrence
