import Mathlib.Data.List.Chain
import Recurrence.Text

/-!
The spellings of words. A number may have zeros before it and a blank may be any run of blanks;
every other word has one spelling, and a name is a table entry in capital or small letters. The
first character of a spelling tells numbers and blanks from other words.
-/
namespace Recurrence

/-- Digits, zeros in front included, that write a number which an expression may hold. -/
structure Numeral (n : Nat) (cs : List Char) : Prop where
  ne_nil : cs ≠ []
  digits : ∀ c ∈ cs, c.isDigit = true
  value : Nat.ofDigitChars 10 cs 0 = n
  le : n ≤ maxNumber

/-- One blank or more. -/
structure Blanks (cs : List Char) : Prop where
  ne_nil : cs ≠ []
  blank : ∀ c ∈ cs, isBlank c = true

/-- The letters of a name are those of the table entry of its number, capital or small. -/
structure Name.SpelledBy {table : List (List Char)} (name : Name table) (cs : List Char) :
    Prop where
  text : name.text = cs
  entry : ∃ k, name.number = k + 1 ∧ table[k]? = some (cs.map Char.toUpper)

def Lexeme.Spells : Lexeme → List Char → Prop
  | number n, cs => Numeral n cs
  | space, cs => Blanks cs
  | x, cs => cs = x.text

/-- Two words side by side that stay two words when they are spelled. -/
def Lexeme.Apart : Lexeme → Lexeme → Prop
  | number _, number _ => False
  | space, space => False
  | _, _ => True

/-- Words without blanks that stay apart. -/
structure Solid (xs : List Lexeme) : Prop where
  ne_nil : xs ≠ []
  space_not_mem : .space ∉ xs
  apart : xs.IsChain Lexeme.Apart

/-- The text of some words, each in one of its spellings. -/
inductive Spelled : List Lexeme → List Char → Prop
  | nil : Spelled [] []
  | cons {x xs as bs} (h : x.Spells as) (hs : Spelled xs bs) : Spelled (x :: xs) (as ++ bs)

/-- Blanks, none or more, on both sides of a text that has a property. -/
def Surrounded (P : List Char → Prop) (cs : List Char) : Prop :=
  ∃ front body back, cs = front ++ body ++ back ∧ (∀ c ∈ front, isBlank c = true) ∧
    (∀ c ∈ back, isBlank c = true) ∧ P body

theorem surrounded_and_iff {C : Prop} {P : List Char → Prop} {cs : List Char} :
    Surrounded (fun body => C ∧ P body) cs ↔ C ∧ Surrounded P cs := by
  constructor
  · intro h
    obtain ⟨front, body, back, hcs, hfront, hback, hC, hbody⟩ := h
    exact ⟨hC, front, body, back, hcs, hfront, hback, hbody⟩
  · intro h
    obtain ⟨hC, front, body, back, hcs, hfront, hback, hbody⟩ := h
    exact ⟨front, body, back, hcs, hfront, hback, hC, hbody⟩

/-- What sets the names of a table apart from signs: they have three letters, and none begins with
`L`. A name that begins with `W` goes on with `ED`, and none begins with `E`. -/
class Distinct (table : List (List Char)) : Prop where
  entry : ∀ letters ∈ table, letters.length = 3 ∧ letters.all Char.isUpper = true ∧
    letters.head? ≠ some 'E' ∧ letters.head? ≠ some 'L' ∧
    (letters.head? = some 'W' → letters.tail = ['E', 'D'])

instance : Distinct monthNames := ⟨by decide⟩

instance : Distinct weekdayNames := ⟨by decide⟩

/-- A letter is neither a digit nor a blank. -/
theorem plain_of_isUpper_toUpper {c : Char} (h : c.toUpper.isUpper = true) :
    c.isDigit = false ∧ isBlank c = false := by
  refine ⟨?_, ?_⟩
  · by_contra hdigit
    have hupper : c.toUpper = c := by
      apply dif_neg
      intro hlower
      simp only [Bool.not_eq_false, Char.isDigit, Bool.and_eq_true, decide_eq_true_eq] at hdigit
      exact absurd (UInt32.le_trans hlower.1 hdigit.2) (by decide)
    rw [hupper] at h
    have hletter : 'A'.val ≤ c.val ∧ c.val ≤ 'Z'.val := of_decide_eq_true h
    simp only [Bool.not_eq_false, Char.isDigit, Bool.and_eq_true, decide_eq_true_eq] at hdigit
    exact absurd (UInt32.le_trans hletter.1 hdigit.2) (by decide)
  · by_contra hblank
    simp only [isBlank, Bool.not_eq_false, Bool.or_eq_true, decide_eq_true_eq] at hblank
    rcases hblank with (((rfl | rfl) | rfl) | rfl) | rfl
    all_goals contradiction

theorem isDigit_of_isBlank {c : Char} (h : isBlank c = true) : c.isDigit = false := by
  simp only [isBlank, Bool.or_eq_true, decide_eq_true_eq] at h
  rcases h with (((rfl | rfl) | rfl) | rfl) | rfl <;> decide

namespace Name

variable {table : List (List Char)}

theorem entry_of_number (name : Name table) :
    ∃ k, name.number = k + 1 ∧ table[k]? = some (name.text.map Char.toUpper) := by
  obtain ⟨k, hk, hnumber⟩ := Option.map_eq_some_iff.mp name.number_eq
  obtain ⟨hlt, hentry, -⟩ := List.findIdx?_eq_some_iff_getElem.mp hk
  refine ⟨k, hnumber.symm, ?_⟩
  rw [List.getElem?_eq_getElem hlt, of_decide_eq_true hentry]

theorem number_bounds (name : Name table) : 1 ≤ name.number ∧ name.number ≤ table.length := by
  obtain ⟨k, hk, hentry⟩ := name.entry_of_number
  have hlt := (List.getElem?_eq_some_iff.mp hentry).1
  omega

theorem spelledBy_iff {name : Name table} {cs : List Char} :
    name.SpelledBy cs ↔ name.text = cs := by
  constructor
  · intro h
    exact h.text
  · intro h
    subst h
    exact ⟨rfl, name.entry_of_number⟩

theorem upper_mem (name : Name table) : name.text.map Char.toUpper ∈ table := by
  obtain ⟨k, -, hk⟩ := name.entry_of_number
  exact List.mem_of_getElem? hk

theorem isUpper_toUpper [Distinct table] (name : Name table) :
    ∀ c ∈ name.text, c.toUpper.isUpper = true := by
  intro c hc
  have hupper := List.all_eq_true.mp (Distinct.entry _ name.upper_mem).2.1
  exact hupper _ (List.mem_map_of_mem hc)

/-- The three letters of a name, as far as they matter to signs of one letter. -/
theorem exists_text [Distinct table] (name : Name table) : ∃ a b c, name.text = [a, b, c] ∧
    a.toUpper ≠ 'E' ∧ a.toUpper ≠ 'L' ∧
      (a.toUpper = 'W' → [b, c].map Char.toUpper = ['E', 'D']) := by
  obtain ⟨hlength, -, hE, hL, hW⟩ := Distinct.entry _ name.upper_mem
  rw [List.length_map] at hlength
  obtain ⟨a, b, c, htext⟩ := List.length_eq_three.mp hlength
  rw [htext] at hE hL hW
  refine ⟨a, b, c, htext, ?_, ?_, ?_⟩
  · intro h
    exact hE (congrArg some h)
  · intro h
    exact hL (congrArg some h)
  · intro h
    exact hW (congrArg some h)

theorem length_of_text [Distinct table] (name : Name table) {c : Char} {cs : List Char}
    (h : name.text = c :: cs) : cs.length = 2 := by
  obtain ⟨a, b, d, hletters, -⟩ := name.exists_text
  obtain ⟨-, rfl⟩ := List.cons.inj (h.symm.trans hletters)
  rfl

theorem plain [Distinct table] (name : Name table) {c : Char} {cs : List Char}
    (h : name.text = c :: cs) : c.isDigit = false ∧ isBlank c = false :=
  plain_of_isUpper_toUpper (name.isUpper_toUpper c (h ▸ List.mem_cons_self))

theorem read?_eq_some_iff {text : List Char} {name : Name table} :
    read? table text = some name ↔ name.text = text := by
  constructor
  · intro h
    exact text_of_read? h
  · intro h
    rw [← h, read?_text]

theorem read?_eq_none_iff {text : List Char} :
    read? table text = none ↔ text.map Char.toUpper ∉ table := by
  constructor
  · intro h hmem
    unfold read? at h
    split at h
    · contradiction
    · next hnumber =>
        rw [numberIn, Option.map_eq_none_iff, List.findIdx?_eq_none_iff] at hnumber
        exact absurd (hnumber _ hmem) (by simp)
  · intro h
    rw [Option.eq_none_iff_forall_ne_some]
    intro name hname
    rw [← read?_eq_some_iff.mp hname] at h
    exact h name.upper_mem

/-- No name of a day of the week is one of a month. -/
theorem read?_month_eq_none (name : WeekdayName) : read? monthNames name.text = none := by
  have hdisjoint : ∀ letters ∈ weekdayNames, letters ∉ monthNames := by decide
  exact read?_eq_none_iff.mpr (hdisjoint _ name.upper_mem)

end Name

namespace Lexeme

theorem Spells.ne_nil {x : Lexeme} {cs : List Char} (h : x.Spells cs) : cs ≠ [] := by
  cases x with
  | number n => exact h.1
  | space => exact h.1
  | month name | weekday name =>
      obtain ⟨a, b, c, htext, -⟩ := name.exists_text
      rw [h, text, htext]
      exact List.cons_ne_nil _ _
  | comma | dash | star | question | slash | last | workday | hash =>
      rw [h]
      exact List.cons_ne_nil _ _

/-- A word that is neither a number nor a blank has no digits or blanks in it. -/
theorem Spells.plain {x : Lexeme} {cs : List Char} (h : x.Spells cs) (hnumber : ∀ n, x ≠ number n)
    (hspace : x ≠ space) : ∀ c ∈ cs, c.isDigit = false ∧ isBlank c = false := by
  cases x with
  | number n => exact absurd rfl (hnumber n)
  | space => exact absurd rfl hspace
  | month name | weekday name =>
      intro c hc
      have hcs : cs = name.text := h
      exact plain_of_isUpper_toUpper (name.isUpper_toUpper c (hcs ▸ hc))
  | comma | dash | star | question | slash | last | workday | hash =>
      intro c hc
      rw [h] at hc
      cases List.mem_singleton.mp hc
      exact ⟨rfl, rfl⟩

theorem Spells.isDigit_iff {x : Lexeme} {c : Char} {cs : List Char} (h : x.Spells cs)
    (hc : c ∈ cs) : c.isDigit = true ↔ ∃ n, x = number n := by
  constructor
  · intro hdigit
    by_contra hnumber
    by_cases hspace : x = space
    · subst hspace
      rw [isDigit_of_isBlank (h.blank c hc)] at hdigit
      contradiction
    · rw [(h.plain (fun n hn => hnumber ⟨n, hn⟩) hspace c hc).1] at hdigit
      contradiction
  · intro hx
    obtain ⟨n, rfl⟩ := hx
    exact h.digits c hc

theorem Spells.isBlank_iff {x : Lexeme} {c : Char} {cs : List Char} (h : x.Spells cs)
    (hc : c ∈ cs) : isBlank c = true ↔ x = space := by
  constructor
  · intro hblank
    by_contra hspace
    by_cases hnumber : ∃ n, x = number n
    · obtain ⟨n, rfl⟩ := hnumber
      have hdigit := h.digits c hc
      rw [isDigit_of_isBlank hblank] at hdigit
      contradiction
    · rw [(h.plain (fun n hn => hnumber ⟨n, hn⟩) hspace c hc).2] at hblank
      contradiction
  · intro hx
    subst hx
    exact h.blank c hc

/-- No word begins like the second letter of a name that begins like the sign for working days. -/
theorem Spells.toUpper_ne {x : Lexeme} {c : Char} {cs : List Char} (h : x.Spells (c :: cs)) :
    c.toUpper ≠ 'E' := by
  cases x with
  | number n =>
      intro hc
      have hdigit := h.digits c List.mem_cons_self
      rw [(plain_of_isUpper_toUpper (hc ▸ rfl)).1] at hdigit
      contradiction
  | space =>
      intro hc
      have hblank := h.blank c List.mem_cons_self
      rw [(plain_of_isUpper_toUpper (hc ▸ rfl)).2] at hblank
      contradiction
  | month name | weekday name =>
      obtain ⟨a, b, d, htext, hE, -⟩ := name.exists_text
      obtain ⟨rfl, -⟩ := List.cons.inj (h.trans htext)
      exact hE
  | comma | dash | star | question | slash | last | workday | hash =>
      obtain ⟨rfl, -⟩ := List.cons.inj h
      decide

end Lexeme

theorem Spelled.append {xs ys : List Lexeme} {as bs : List Char} (hxs : Spelled xs as)
    (hys : Spelled ys bs) : Spelled (xs ++ ys) (as ++ bs) := by
  induction hxs with
  | nil => exact hys
  | cons h _ ih =>
      rw [List.append_assoc]
      exact .cons h ih

theorem spelled_append_iff {xs ys : List Lexeme} {cs : List Char} :
    Spelled (xs ++ ys) cs ↔ ∃ as bs, cs = as ++ bs ∧ Spelled xs as ∧ Spelled ys bs := by
  constructor
  · intro h
    induction xs generalizing cs with
    | nil => exact ⟨[], cs, rfl, .nil, h⟩
    | cons x xs ih =>
        cases h with
        | @cons _ _ as rest hx hrest =>
            obtain ⟨bs, ds, rfl, hbs, hds⟩ := ih hrest
            exact ⟨as ++ bs, ds, (List.append_assoc ..).symm, .cons hx hbs, hds⟩
  · intro h
    obtain ⟨as, bs, rfl, has, hbs⟩ := h
    exact has.append hbs

theorem spelled_cons_iff {x : Lexeme} {xs : List Lexeme} {cs : List Char} :
    Spelled (x :: xs) cs ↔ ∃ as bs, cs = as ++ bs ∧ x.Spells as ∧ Spelled xs bs := by
  constructor
  · intro h
    cases h with
    | cons hx hxs => exact ⟨_, _, rfl, hx, hxs⟩
  · intro h
    obtain ⟨as, bs, rfl, hx, hxs⟩ := h
    exact .cons hx hxs

theorem spelled_nil_iff {cs : List Char} : Spelled [] cs ↔ cs = [] := by
  constructor
  · intro h
    cases h
    rfl
  · intro h
    subst h
    exact .nil

theorem spelled_singleton_iff {x : Lexeme} {cs : List Char} : Spelled [x] cs ↔ x.Spells cs := by
  rw [spelled_cons_iff]
  simp only [spelled_nil_iff, exists_eq_right_right, List.append_nil, exists_eq_left']

theorem Spelled.ne_nil {xs : List Lexeme} {cs : List Char} (h : Spelled xs cs) (hxs : xs ≠ []) :
    cs ≠ [] := by
  cases h with
  | nil => contradiction
  | cons hx _ =>
      intro hnil
      exact hx.ne_nil (List.append_eq_nil_iff.mp hnil).1

theorem Spelled.isBlank_head {xs : List Lexeme} {cs : List Char} (h : Spelled xs cs)
    (hfirst : xs.head? ≠ some .space) : ∀ c ∈ cs.head?, isBlank c = false := by
  cases h with
  | nil => exact nofun
  | @cons x xs as bs hx _ =>
      obtain ⟨c, as, rfl⟩ := List.exists_cons_of_ne_nil hx.ne_nil
      intro d hd
      cases hd
      rw [← Bool.not_eq_true, hx.isBlank_iff List.mem_cons_self]
      intro hspace
      exact hfirst (congrArg some hspace)

theorem Spelled.isBlank_getLast {xs : List Lexeme} {cs : List Char} (h : Spelled xs cs)
    (hlast : xs.getLast? ≠ some .space) : ∀ c ∈ cs.getLast?, isBlank c = false := by
  cases List.eq_nil_or_concat' xs with
  | inl hnil =>
      rw [hnil, spelled_nil_iff] at h
      subst h
      exact nofun
  | inr hconcat =>
      obtain ⟨ys, y, rfl⟩ := hconcat
      obtain ⟨as, bs, rfl, -, hbs⟩ := spelled_append_iff.mp h
      rw [spelled_singleton_iff] at hbs
      intro c hc
      rw [List.getLast?_append_of_ne_nil _ hbs.ne_nil] at hc
      rw [← Bool.not_eq_true, hbs.isBlank_iff (List.mem_of_getLast? hc)]
      intro hspace
      rw [List.getLast?_concat] at hlast
      exact hlast (congrArg some hspace)

theorem mem_intercalate {x s : Lexeme} {xss : List (List Lexeme)} (h : x ∈ [s].intercalate xss) :
    x = s ∨ ∃ xs ∈ xss, x ∈ xs := by
  induction xss with
  | nil => contradiction
  | cons xs xss ih =>
      cases xss with
      | nil =>
          rw [List.intercalate_singleton] at h
          exact .inr ⟨xs, List.mem_cons_self, h⟩
      | cons ys xss =>
          rw [List.intercalate_cons_cons, List.mem_append, List.mem_append, List.mem_singleton] at h
          obtain (h | h) | h := h
          · exact .inr ⟨xs, List.mem_cons_self, h⟩
          · exact .inl h
          · obtain hs | ⟨zs, hzs, hx⟩ := ih h
            · exact .inl hs
            · exact .inr ⟨zs, List.mem_cons_of_mem xs hzs, hx⟩

theorem head?_intercalate {s : Lexeme} {xs : List Lexeme} (hne : xs ≠ [])
    (xss : List (List Lexeme)) : ([s].intercalate (xs :: xss)).head? = xs.head? := by
  cases xss with
  | nil => rw [List.intercalate_singleton]
  | cons ys xss =>
      rw [List.intercalate_cons_cons, List.append_assoc, List.head?_append_of_ne_nil _ hne]

theorem getLast?_intercalate {s : Lexeme} (xss : List (List Lexeme)) {xs : List Lexeme}
    (hne : xs ≠ []) : ([s].intercalate (xss ++ [xs])).getLast? = xs.getLast? := by
  induction xss with
  | nil => rw [List.nil_append, List.intercalate_singleton]
  | cons ys xss ih =>
      have hrest : xss ++ [xs] ≠ [] := List.append_ne_nil_of_right_ne_nil _ (List.cons_ne_nil _ _)
      rw [List.cons_append, List.intercalate_cons_of_ne_nil hrest, List.getLast?_append, ih]
      cases hlast : xs.getLast? with
      | none => exact absurd (List.getLast?_eq_none_iff.mp hlast) hne
      | some x => rfl

theorem Solid.head?_ne {xs : List Lexeme} (h : Solid xs) : xs.head? ≠ some .space := by
  intro hhead
  exact h.space_not_mem (List.mem_of_head? hhead)

theorem Solid.getLast?_ne {xs : List Lexeme} (h : Solid xs) : xs.getLast? ≠ some .space := by
  intro hlast
  exact h.space_not_mem (List.mem_of_getLast? hlast)

/-- Words that stay apart also do so with a word between that merges with none of them. -/
theorem isChain_intercalate {s : Lexeme} {xss : List (List Lexeme)} (h : ∀ xs ∈ xss, Solid xs)
    (hs : ∀ x, x ≠ .space → x.Apart s ∧ s.Apart x) :
    ([s].intercalate xss).IsChain Lexeme.Apart := by
  induction xss with
  | nil => exact .nil
  | cons xs xss ih =>
      obtain ⟨hxs, h⟩ := List.forall_mem_cons.mp h
      cases xss with
      | nil =>
          rw [List.intercalate_singleton]
          exact hxs.apart
      | cons ys xss =>
          have hys := h ys List.mem_cons_self
          rw [List.intercalate_cons_cons, List.append_assoc, List.singleton_append,
            List.isChain_append, List.isChain_cons, head?_intercalate hys.ne_nil]
          refine ⟨hxs.apart, ⟨?_, ih h⟩, ?_⟩
          · intro y hy
            exact (hs y fun hspace => hys.head?_ne (hspace ▸ hy)).2
          · intro x hx y hy
            cases hy
            exact (hs x fun hspace => hxs.getLast?_ne (hspace ▸ hx)).1

theorem numeral_toDigits {n : Nat} (h : n ≤ maxNumber) : Numeral n (Nat.toDigits 10 n) where
  ne_nil := Nat.toDigits_ne_nil
  digits _ hc := Nat.isDigit_of_mem_toDigits (by decide) (by decide) hc
  value := Nat.ofDigitChars_ten_toDigits
  le := h

namespace Lexeme

/-- Words that have a spelling: all but the numbers that are too great. -/
def Writable (x : Lexeme) : Prop := ∃ cs, x.Spells cs

theorem Spells.spells_text {x : Lexeme} {cs : List Char} (h : x.Spells cs) :
    x.Spells x.text := by
  cases x with
  | number n => exact numeral_toDigits h.le
  | space => exact ⟨List.cons_ne_nil _ _, List.forall_mem_singleton.mpr rfl⟩
  | month _ | weekday _ | comma | dash | star | question | slash | last | workday | hash => rfl

theorem writable_number {n : Nat} (h : n ≤ maxNumber) : (number n).Writable :=
  ⟨_, numeral_toDigits h⟩

theorem writable_month (name : MonthName) : (month name).Writable := ⟨name.text, rfl⟩

theorem writable_weekday (name : WeekdayName) : (weekday name).Writable := ⟨name.text, rfl⟩

theorem writable_star : star.Writable := ⟨['*'], rfl⟩

theorem writable_space : space.Writable :=
  ⟨[' '], List.cons_ne_nil _ _, List.forall_mem_singleton.mpr rfl⟩

end Lexeme

theorem Spelled.writable {xs : List Lexeme} {cs : List Char} (h : Spelled xs cs) :
    ∀ x ∈ xs, x.Writable := by
  induction h with
  | nil => exact nofun
  | cons hx _ ih => exact List.forall_mem_cons.mpr ⟨⟨_, hx⟩, ih⟩

theorem spelled_of_writable {xs : List Lexeme} (h : ∀ x ∈ xs, x.Writable) :
    Spelled xs (Lexeme.join xs) := by
  induction xs with
  | nil => exact .nil
  | cons x xs ih =>
      obtain ⟨⟨cs, hx⟩, hxs⟩ := List.forall_mem_cons.mp h
      exact .cons hx.spells_text (ih hxs)

/-- Words that have a spelling at all are spelled by their text. -/
theorem Spelled.spelled_join {xs : List Lexeme} {cs : List Char} (h : Spelled xs cs) :
    Spelled xs (Lexeme.join xs) := spelled_of_writable h.writable

end Recurrence
