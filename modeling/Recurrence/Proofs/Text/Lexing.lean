import Mathlib.Data.List.TakeWhile
import Recurrence.Parser
import Recurrence.Proofs.Text.Spelling

/-!
Cutting a text into words. Words are cut off from the left, each as long as it can be, so that two
numbers or two blanks never stand side by side. Any other words may, and spellings of words that do
not merge are cut into the same words again.
-/
namespace Recurrence

theorem takeWhile_append_eq {p : Char → Bool} {as bs : List Char} (has : ∀ c ∈ as, p c = true)
    (hbs : ∀ c ∈ bs.head?, p c = false) : (as ++ bs).takeWhile p = as := by
  rw [List.takeWhile_append_of_pos has]
  cases bs with
  | nil => rw [List.takeWhile_nil, List.append_nil]
  | cons b bs =>
      have hb : ¬ p b = true := Bool.eq_false_iff.mp (hbs b rfl)
      rw [List.takeWhile_cons_of_neg hb, List.append_nil]

theorem exists_takeWhile_append (p : Char → Bool) (cs : List Char) :
    ∃ bs, cs = cs.takeWhile p ++ bs ∧ ∀ c ∈ bs.head?, p c = false := by
  refine ⟨cs.dropWhile p, List.takeWhile_append_dropWhile.symm, ?_⟩
  intro c hc
  have hnot := List.head?_dropWhile_not p cs
  rw [hc] at hnot
  exact hnot

namespace Lexeme

/-- Nothing at the front of the text after a word belongs to it, too. -/
def Stops : Lexeme → List Char → Prop
  | number _, cs => ∀ c ∈ cs.head?, c.isDigit = false
  | space, cs => ∀ c ∈ cs.head?, isBlank c = false
  | workday, cs => (cs.take 2).map Char.toUpper ≠ ['E', 'D']
  | _, _ => True

theorem spells_of_ofSymbol? {c : Char} {x : Lexeme} (h : ofSymbol? c = some x) : x.Spells [c] := by
  unfold ofSymbol? at h
  split at h <;> cases h <;> rfl

theorem ofSymbol?_plain {c : Char} {x : Lexeme} (h : ofSymbol? c = some x) :
    c.isDigit = false ∧ isBlank c = false := by
  unfold ofSymbol? at h
  split at h <;> cases h <;> decide

/-- A sign that does not go on as a name does is not the first letter of a name. -/
theorem read?_eq_none_of_ofSymbol? {table : List (List Char)} [Distinct table] {c : Char}
    {cs : List Char} {x : Lexeme} (h : ofSymbol? c = some x) (hstop : x.Stops cs) :
    Name.read? table (c :: cs.take 2) = none := by
  rw [Name.read?_eq_none_iff]
  intro hmem
  obtain ⟨-, hupper, -, hL, hW⟩ := Distinct.entry _ hmem
  have hc := List.all_eq_true.mp hupper c.toUpper List.mem_cons_self
  unfold ofSymbol? at h
  split at h <;> cases h
  case h_6 => exact hL rfl
  case h_7 => exact hstop (hW rfl)
  all_goals contradiction

theorem stops_of_read?_eq_none {c : Char} {cs : List Char} {x : Lexeme} (h : ofSymbol? c = some x)
    (hnone : Name.read? weekdayNames (c :: cs.take 2) = none) : x.Stops cs := by
  unfold ofSymbol? at h
  split at h <;> cases h
  case h_7 =>
    intro hED
    apply Name.read?_eq_none_iff.mp hnone
    rw [List.map_cons, hED]
    decide
  all_goals exact trivial

theorem front_of_ofSymbol? {c : Char} {cs : List Char} {x : Lexeme} (h : ofSymbol? c = some x)
    (hstop : x.Stops cs) : front c cs = .ok (x, 0) := by
  obtain ⟨hdigit, hblank⟩ := ofSymbol?_plain h
  simp only [front, hdigit, hblank, Bool.false_eq_true, if_false, h,
    read?_eq_none_of_ofSymbol? h hstop]

theorem exists_of_read? {table : List (List Char)} [Distinct table] {name : Name table} {c : Char}
    {cs : List Char} (h : Name.read? table (c :: cs.take 2) = some name) :
    ∃ as bs, cs = as ++ bs ∧ as.length = 2 ∧ c :: as = name.text := by
  have htext := Name.read?_eq_some_iff.mp h
  exact ⟨_, _, (List.take_append_drop 2 cs).symm, name.length_of_text htext, htext.symm⟩

/-- Names and signs at the front of a text. -/
theorem front_sound_plain {c : Char} {cs : List Char} {x : Lexeme} {k : Nat}
    (hblank : ¬ isBlank c = true) (hdigit : ¬ c.isDigit = true) (h : front c cs = .ok (x, k)) :
    ∃ as bs, cs = as ++ bs ∧ as.length = k ∧ x.Spells (c :: as) ∧ x.Stops bs := by
  rw [front, if_neg hblank, if_neg hdigit] at h
  cases hmonth : Name.read? monthNames (c :: cs.take 2) with
  | some name =>
      rw [hmonth] at h
      cases h
      obtain ⟨as, bs, hcs, hlength, htext⟩ := exists_of_read? hmonth
      exact ⟨as, bs, hcs, hlength, htext, trivial⟩
  | none =>
      cases hweekday : Name.read? weekdayNames (c :: cs.take 2) with
      | some name =>
          rw [hmonth, hweekday] at h
          cases h
          obtain ⟨as, bs, hcs, hlength, htext⟩ := exists_of_read? hweekday
          exact ⟨as, bs, hcs, hlength, htext, trivial⟩
      | none =>
          rw [hmonth, hweekday] at h
          cases hsymbol : ofSymbol? c with
          | none =>
              rw [hsymbol] at h
              contradiction
          | some symbol =>
              rw [hsymbol] at h
              cases h
              exact ⟨[], cs, rfl, rfl, spells_of_ofSymbol? hsymbol,
                stops_of_read?_eq_none hsymbol hweekday⟩

theorem front_sound {c : Char} {cs : List Char} {x : Lexeme} {k : Nat}
    (h : front c cs = .ok (x, k)) :
    ∃ as bs, cs = as ++ bs ∧ as.length = k ∧ x.Spells (c :: as) ∧ x.Stops bs := by
  by_cases hblank : isBlank c = true
  · rw [front, if_pos hblank] at h
    cases h
    obtain ⟨bs, hcs, hbs⟩ := exists_takeWhile_append isBlank cs
    refine ⟨_, bs, hcs, rfl, ⟨List.cons_ne_nil _ _, ?_⟩, hbs⟩
    exact List.forall_mem_cons.mpr ⟨hblank, fun d hd => List.mem_takeWhile_imp hd⟩
  · by_cases hdigit : c.isDigit = true
    · rw [front, if_neg hblank, if_pos hdigit] at h
      simp only at h
      split at h
      · next hle =>
          cases h
          obtain ⟨bs, hcs, hbs⟩ := exists_takeWhile_append Char.isDigit cs
          refine ⟨_, bs, hcs, rfl, ⟨List.cons_ne_nil _ _, ?_, rfl, hle⟩, hbs⟩
          exact List.forall_mem_cons.mpr ⟨hdigit, fun d hd => List.mem_takeWhile_imp hd⟩
      · contradiction
    · exact front_sound_plain hblank hdigit h

theorem front_complete {c : Char} {as bs : List Char} {x : Lexeme} (h : x.Spells (c :: as))
    (hstop : x.Stops bs) : front c (as ++ bs) = .ok (x, as.length) := by
  cases x with
  | number n =>
      have hdigit := h.digits c List.mem_cons_self
      have hblank : ¬ isBlank c = true := by
        rw [Spells.isBlank_iff (x := number n) h List.mem_cons_self]
        exact Lexeme.noConfusion
      have hdigits := takeWhile_append_eq (fun d hd => h.digits d (List.mem_cons_of_mem c hd)) hstop
      simp only [front, if_neg hblank, if_pos hdigit, hdigits, h.value, if_pos h.le]
  | space =>
      have hblanks := takeWhile_append_eq (fun d hd => h.blank d (List.mem_cons_of_mem c hd)) hstop
      rw [front, if_pos (h.blank c List.mem_cons_self), hblanks]
  | month name =>
      have htext : name.text = c :: as := h.symm
      have hlength := name.length_of_text htext
      have htake : (as ++ bs).take 2 = as := by rw [← hlength, List.take_left]
      obtain ⟨hdigit, hblank⟩ := name.plain htext
      simp only [front, hdigit, hblank, Bool.false_eq_true, if_false, htake,
        Name.read?_eq_some_iff.mpr htext, hlength]
  | weekday name =>
      have htext : name.text = c :: as := h.symm
      have hlength := name.length_of_text htext
      have htake : (as ++ bs).take 2 = as := by rw [← hlength, List.take_left]
      have hmonth := name.read?_month_eq_none
      rw [htext] at hmonth
      obtain ⟨hdigit, hblank⟩ := name.plain htext
      simp only [front, hdigit, hblank, Bool.false_eq_true, if_false, htake, hmonth,
        Name.read?_eq_some_iff.mpr htext, hlength]
  | comma | dash | star | question | slash | last | workday | hash =>
      obtain ⟨rfl, rfl⟩ := List.cons.inj h
      exact front_of_ofSymbol? rfl hstop

/-- The word at the front of a text is one that is spelled there and does not go on. -/
theorem front_eq_ok_iff {c : Char} {cs : List Char} {x : Lexeme} {k : Nat} :
    front c cs = .ok (x, k) ↔
      ∃ as bs, cs = as ++ bs ∧ as.length = k ∧ x.Spells (c :: as) ∧ x.Stops bs := by
  constructor
  · intro h
    exact front_sound h
  · intro h
    obtain ⟨as, bs, rfl, rfl, hx, hstop⟩ := h
    exact front_complete hx hstop

end Lexeme

/-- A text that begins at the byte `start`, cut into words that do not go on. -/
inductive Cut : Nat → List Char → List Token → Prop
  | nil {start} : Cut start [] []
  | cons {start x as bs tokens} (h : x.Spells as) (hstop : x.Stops bs)
      (hrest : Cut (start + as.length) bs tokens) :
      Cut start (as ++ bs) (⟨x, start, start + as.length⟩ :: tokens)

theorem Cut.of_scan {start : Nat} {cs : List Char} {tokens : List Token}
    (h : Token.scan start 0 cs = .ok tokens) : Cut start cs tokens := by
  match cs with
  | [] =>
      cases h
      exact .nil
  | c :: cs =>
      rw [Token.scan] at h
      split at h
      · contradiction
      · next x more hfront =>
          obtain ⟨rest, hrest, hcons⟩ := bind_eq_ok.mp h
          cases hcons
          obtain ⟨as, bs, hcs, rfl, hx, hstop⟩ := Lexeme.front_eq_ok_iff.mp hfront
          rw [hcs, Token.scan_taken, List.drop_left] at hrest
          have hlength : start + 1 + as.length = start + (c :: as).length := by
            rw [List.length_cons]
            omega
          rw [hlength] at hrest ⊢
          rw [hcs]
          exact .cons hx hstop (of_scan hrest)
termination_by cs.length
decreasing_by
  rw [hcs, List.length_cons, List.length_append]
  omega

theorem Token.scan_append {start : Nat} {x : Lexeme} {as bs : List Char} (hx : x.Spells as)
    (hstop : x.Stops bs) : scan start 0 (as ++ bs) = do
      let tokens ← scan (start + as.length) 0 bs
      return ⟨x, start, start + as.length⟩ :: tokens := by
  obtain ⟨c, as, rfl⟩ := List.exists_cons_of_ne_nil hx.ne_nil
  have hlength : start + 1 + as.length = start + (c :: as).length := by
    rw [List.length_cons]
    omega
  rw [List.cons_append, scan, Lexeme.front_complete hx hstop]
  simp only [scan_taken _ as.length, List.drop_left, hlength]

theorem Cut.scan {start : Nat} {cs : List Char} {tokens : List Token} (h : Cut start cs tokens) :
    Token.scan start 0 cs = .ok tokens := by
  induction h with
  | nil => rfl
  | cons hx hstop _ ih =>
      rw [Token.scan_append hx hstop, ih]
      rfl

theorem scan_eq_ok_iff {start : Nat} {cs : List Char} {tokens : List Token} :
    Token.scan start 0 cs = .ok tokens ↔ Cut start cs tokens := by
  constructor
  · intro h
    exact .of_scan h
  · intro h
    exact h.scan

theorem Lexeme.stops_iff_apart {x y : Lexeme} {as bs : List Char} (h : y.Spells as) :
    x.Stops (as ++ bs) ↔ x.Apart y := by
  obtain ⟨c, as, rfl⟩ := List.exists_cons_of_ne_nil h.ne_nil
  cases x with
  | number n =>
      have hdigit := h.isDigit_iff List.mem_cons_self
      simp only [Stops, List.cons_append, List.head?_cons, Option.mem_some_iff, forall_eq']
      rw [← Bool.not_eq_true, hdigit]
      cases y <;> simp [Apart]
  | space =>
      have hblank := h.isBlank_iff List.mem_cons_self
      simp only [Stops, List.cons_append, List.head?_cons, Option.mem_some_iff, forall_eq']
      rw [← Bool.not_eq_true, hblank]
      cases y <;> simp [Apart]
  | workday =>
      refine ⟨fun _ => trivial, ?_⟩
      intro _ hED
      exact h.toUpper_ne (List.cons.inj hED).1
  | month _ | weekday _ | comma | dash | star | question | slash | last | hash =>
      exact ⟨fun _ => trivial, fun _ => trivial⟩

theorem Cut.spelled {start : Nat} {cs : List Char} {tokens : List Token} (h : Cut start cs tokens) :
    Spelled (tokens.map (·.lexeme)) cs := by
  induction h with
  | nil => exact .nil
  | cons hx _ _ ih => exact .cons hx ih

theorem Cut.apart {start : Nat} {cs : List Char} {tokens : List Token} (h : Cut start cs tokens) :
    (tokens.map (·.lexeme)).IsChain Lexeme.Apart := by
  induction h with
  | nil => exact .nil
  | cons _ hstop hrest ih =>
      rw [List.map_cons, List.isChain_cons]
      refine ⟨?_, ih⟩
      intro y hy
      cases hrest with
      | nil => contradiction
      | cons hnext _ _ =>
          cases hy
          exact (Lexeme.stops_iff_apart hnext).mp hstop

theorem Lexeme.stops_nil (x : Lexeme) : x.Stops [] := by
  cases x <;> simp [Stops]

/-- A word stops at words that are cut after it if it stays apart from the first of them. -/
theorem Cut.stops {start : Nat} {cs : List Char} {tokens : List Token} (h : Cut start cs tokens)
    {x : Lexeme} (hapart : ∀ y ∈ (tokens.map (·.lexeme)).head?, x.Apart y) : x.Stops cs := by
  cases h with
  | nil => exact x.stops_nil
  | cons hnext _ _ => exact (Lexeme.stops_iff_apart hnext).mpr (hapart _ rfl)

/-- Words that do not merge are cut from each of their spellings. -/
theorem Spelled.exists_cut {xs : List Lexeme} {cs : List Char} (h : Spelled xs cs)
    (hapart : xs.IsChain Lexeme.Apart) (start : Nat) :
    ∃ tokens, Cut start cs tokens ∧ tokens.map (·.lexeme) = xs := by
  induction h generalizing start with
  | nil => exact ⟨[], .nil, rfl⟩
  | @cons x xs as bs hx hxs ih =>
      rw [List.isChain_cons] at hapart
      obtain ⟨tokens, hcut, rfl⟩ := ih hapart.2 (start + as.length)
      exact ⟨_, .cons hx (hcut.stops hapart.1) hcut, rfl⟩

theorem dropWhile_append_eq {p : Char → Bool} {as bs : List Char} (has : ∀ c ∈ as, p c = true)
    (hbs : ∀ c ∈ bs.head?, p c = false) : (as ++ bs).dropWhile p = bs := by
  have h := List.takeWhile_append_dropWhile (p := p) (l := as ++ bs)
  rw [takeWhile_append_eq has hbs] at h
  exact List.append_cancel_left h

theorem exists_trimEnd_append (cs : List Char) :
    ∃ back, cs = trimEnd cs ++ back ∧ (∀ c ∈ back, isBlank c = true) ∧
      ∀ c ∈ (trimEnd cs).getLast?, isBlank c = false := by
  refine ⟨(cs.reverse.takeWhile isBlank).reverse, ?_, ?_, ?_⟩
  · rw [trimEnd, ← List.reverse_append, List.takeWhile_append_dropWhile, List.reverse_reverse]
  · intro c hc
    exact List.mem_takeWhile_imp (List.mem_reverse.mp hc)
  · intro c hc
    have hnot := List.head?_dropWhile_not isBlank cs.reverse
    rw [trimEnd, List.getLast?_reverse] at hc
    rw [hc] at hnot
    exact hnot

/-- The words of a text are sought between its outer blanks. -/
theorem Token.ofText_eq_scan {cs front body : List Char} (h : trimEnd cs = front ++ body)
    (hfront : ∀ c ∈ front, isBlank c = true) (hfirst : ∀ c ∈ body.head?, isBlank c = false) :
    ofText cs = scan front.length 0 body := by
  rw [ofText, h]
  simp only [takeWhile_append_eq hfront hfirst]
  rw [scan_taken, List.drop_left, Nat.zero_add]

/-- The words of a text are cut from what lies between its outer blanks. -/
theorem Cut.of_ofText {cs : List Char} {tokens : List Token} (h : Token.ofText cs = .ok tokens) :
    ∃ front body back, cs = front ++ body ++ back ∧ (∀ c ∈ front, isBlank c = true) ∧
      (∀ c ∈ back, isBlank c = true) ∧ Cut front.length body tokens := by
  obtain ⟨back, hcs, hback, -⟩ := exists_trimEnd_append cs
  obtain ⟨body, hbody, hfirst⟩ := exists_takeWhile_append isBlank (trimEnd cs)
  have hfront : ∀ c ∈ (trimEnd cs).takeWhile isBlank, isBlank c = true :=
    fun c hc => List.mem_takeWhile_imp hc
  rw [Token.ofText_eq_scan hbody hfront hfirst] at h
  refine ⟨_, body, back, ?_, hfront, hback, .of_scan h⟩
  rw [← hbody, ← hcs]

theorem trimEnd_append {as back : List Char} (hback : ∀ c ∈ back, isBlank c = true)
    (hlast : ∀ c ∈ as.getLast?, isBlank c = false) : trimEnd (as ++ back) = as := by
  rw [trimEnd, List.reverse_append, dropWhile_append_eq, List.reverse_reverse]
  · intro c hc
    exact hback c (List.mem_reverse.mp hc)
  · intro c hc
    rw [List.head?_reverse] at hc
    exact hlast c hc

/-- Outer blanks do nothing but move the words of a text. -/
theorem Token.ofText_append {front body back : List Char} (hfront : ∀ c ∈ front, isBlank c = true)
    (hback : ∀ c ∈ back, isBlank c = true) (hne : body ≠ [])
    (hfirst : ∀ c ∈ body.head?, isBlank c = false)
    (hlast : ∀ c ∈ body.getLast?, isBlank c = false) :
    ofText (front ++ body ++ back) = scan front.length 0 body := by
  have htrim : trimEnd (front ++ body ++ back) = front ++ body := by
    apply trimEnd_append hback
    rw [List.getLast?_append_of_ne_nil _ hne]
    exact hlast
  exact ofText_eq_scan htrim hfront hfirst

/-- A text consists of some words, which neither begin nor end with a blank, if and only if it is a
spelling of them with or without blanks around and no two of them merge. -/
theorem ofText_lexemes_iff {xs : List Lexeme} (hne : xs ≠ []) (hfirst : xs.head? ≠ some .space)
    (hlast : xs.getLast? ≠ some .space) (cs : List Char) :
    (∃ tokens, Token.ofText cs = .ok tokens ∧ tokens.map (·.lexeme) = xs) ↔
      xs.IsChain Lexeme.Apart ∧ Surrounded (Spelled xs) cs := by
  constructor
  · intro h
    obtain ⟨tokens, htokens, rfl⟩ := h
    obtain ⟨front, body, back, hcs, hfront, hback, hcut⟩ := Cut.of_ofText htokens
    exact ⟨hcut.apart, front, body, back, hcs, hfront, hback, hcut.spelled⟩
  · intro h
    obtain ⟨hapart, front, body, back, rfl, hfront, hback, hspelled⟩ := h
    obtain ⟨tokens, hcut, hlexemes⟩ := hspelled.exists_cut hapart front.length
    refine ⟨tokens, ?_, hlexemes⟩
    rw [Token.ofText_append hfront hback (hspelled.ne_nil hne) (hspelled.isBlank_head hfirst)
      (hspelled.isBlank_getLast hlast)]
    exact hcut.scan

end Recurrence
