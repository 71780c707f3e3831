import Mathlib
import Recurrence.Proofs.Text.Scanning

/-!
Capital and small letters. Names are read in both, so that a text with some letters of its names in
the other case consists of the same words but for these letters. The signs `L` and `W` are capital
letters only, and no word begins with a small one that stands in the place of such a sign.
-/
namespace Recurrence

/-- A character that is not a letter is of one case only. -/
theorem eq_of_toUpper_eq {c d : Char} (h : d.toUpper = c.toUpper) (hc : c.isAlpha = false) :
    d = c := by
  have hd : d.isAlpha = false := by
    rw [← Char.isAlpha_toUpper_eq_isAlpha, h, Char.isAlpha_toUpper_eq_isAlpha, hc]
  have hupper {a : Char} (ha : a.isAlpha = false) : a.toUpper = a := by
    apply Char.toUpper_eq_of_not_isLower
    rw [Bool.not_eq_true]
    exact (Bool.or_eq_false_iff.mp ha).2
  rw [← hupper hd, h, hupper hc]

theorem eq_toLower_of_toUpper_eq {c d : Char} (h : d.toUpper = c.toUpper)
    (hc : c.isUpper = true) (hne : d ≠ c) : d = c.toLower := by
  have hd : ¬ d.isUpper = true := by
    intro hd
    apply hne
    rw [Char.toUpper_eq_of_not_isLower (Char.not_isLower_of_isUpper hd),
      Char.toUpper_eq_of_not_isLower (Char.not_isLower_of_isUpper hc)] at h
    exact h
  rw [← Char.toLower_eq_of_not_isUpper hd, ← Char.toLower_toUpper_eq_toLower, h,
    Char.toLower_toUpper_eq_toLower]

/-- A letter of either case is neither a digit nor a blank. -/
theorem plain_of_toUpper_eq {c d : Char} (h : d.toUpper = c.toUpper) :
    d.isDigit = c.isDigit ∧ isBlank d = isBlank c := by
  cases hc : c.isAlpha with
  | false =>
      rw [eq_of_toUpper_eq h hc]
      exact ⟨rfl, rfl⟩
  | true =>
      have hupper : c.toUpper.isUpper = true := by rw [Char.isUpper_toUpper_eq_isAlpha, hc]
      obtain ⟨hdigit, hblank⟩ := plain_of_isUpper_toUpper hupper
      obtain ⟨hdigit', hblank'⟩ := plain_of_isUpper_toUpper (h ▸ hupper)
      rw [hdigit, hblank, hdigit', hblank']
      exact ⟨rfl, rfl⟩

theorem map_toUpper_map_toUpper (cs : List Char) :
    (cs.map Char.toUpper).map Char.toUpper = cs.map Char.toUpper := by
  rw [List.map_map]
  exact List.map_congr_left fun c _ => Char.toUpper_toUpper_eq_toUpper c

namespace Name

variable {table : List (List Char)}

/-- A name can be written in any case. -/
def recased (name : Name table) (cs : List Char)
    (h : cs.map Char.toUpper = name.text.map Char.toUpper) : Name table where
  text := cs
  number := name.number
  number_eq := by rw [← name.number_eq, numberIn, numberIn, h]

def capital (name : Name table) : Name table :=
  name.recased (name.text.map Char.toUpper) (map_toUpper_map_toUpper _)

theorem capital_recased (name : Name table) {cs : List Char}
    (h : cs.map Char.toUpper = name.text.map Char.toUpper) :
    (name.recased cs h).capital = name.capital := text_injective h

theorem number_eq_of_capital_eq {m n : Name table} (h : m.capital = n.capital) :
    m.number = n.number := by
  change m.capital.number = n.capital.number
  rw [h]

end Name

namespace Lexeme

/-- The same word with the letters of a name in capitals. -/
def capital : Lexeme → Lexeme
  | month name => month name.capital
  | weekday name => weekday name.capital
  | x => x

def isName : Lexeme → Bool
  | month _ => true
  | weekday _ => true
  | _ => false

/-- The signs that are letters. -/
def isLetter : Lexeme → Bool
  | last => true
  | workday => true
  | _ => false

theorem map_toUpper_text_capital (x : Lexeme) :
    x.capital.text.map Char.toUpper = x.text.map Char.toUpper := by
  cases x with
  | month name | weekday name => exact map_toUpper_map_toUpper name.text
  | number _ | space | comma | dash | star | question | slash | last | workday | hash => rfl

theorem map_toUpper_join {xs ys : List Lexeme} (h : xs.map capital = ys.map capital) :
    (join xs).map Char.toUpper = (join ys).map Char.toUpper := by
  have hcapital (zs : List Lexeme) : (join zs).map Char.toUpper =
      (zs.map capital).flatMap fun z => z.text.map Char.toUpper := by
    rw [join, List.map_flatMap, List.flatMap_map]
    simp only [map_toUpper_text_capital]
  rw [hcapital, hcapital, h]

theorem capital_of_isName {x : Lexeme} (h : x.isName = false) : x.capital = x := by
  cases x with
  | month _ | weekday _ => contradiction
  | number _ | space | comma | dash | star | question | slash | last | workday | hash => rfl

theorem isName_capital (x : Lexeme) : x.capital.isName = x.isName := by
  cases x <;> rfl

theorem eq_of_capital_eq {x y : Lexeme} (h : x.capital = y.capital) (hy : y.isName = false) :
    x = y := by
  have hx : x.isName = false := by rw [← isName_capital, h, isName_capital, hy]
  rw [← capital_of_isName hx, h, capital_of_isName hy]

theorem eq_of_map_capital_eq {xs ys : List Lexeme} (h : xs.map capital = ys.map capital)
    (hys : ∀ y ∈ ys, y.isName = false) : xs = ys := by
  induction ys generalizing xs with
  | nil => exact List.map_eq_nil_iff.mp h
  | cons y ys ih =>
      obtain ⟨x, xs, rfl, hx, hxs⟩ := List.map_eq_cons_iff.mp h
      obtain ⟨hy, hys⟩ := List.forall_mem_cons.mp hys
      rw [eq_of_capital_eq hx hy, ih hxs hys]

theorem exists_month {x : Lexeme} {name : MonthName} (h : x.capital = (month name).capital) :
    ∃ name', x = month name' ∧ name'.number = name.number := by
  cases x with
  | month name' => exact ⟨name', rfl, Name.number_eq_of_capital_eq (month.inj h)⟩
  | number _ | weekday _ | space | comma | dash | star | question | slash | last | workday
  | hash => contradiction

theorem exists_weekday {x : Lexeme} {name : WeekdayName}
    (h : x.capital = (weekday name).capital) :
    ∃ name', x = weekday name' ∧ name'.number = name.number := by
  cases x with
  | weekday name' => exact ⟨name', rfl, Name.number_eq_of_capital_eq (weekday.inj h)⟩
  | number _ | month _ | space | comma | dash | star | question | slash | last | workday
  | hash => contradiction

theorem exists_range {x y : Lexeme} {xs : List Lexeme}
    (h : xs.map capital = [x, dash, y].map capital) :
    ∃ x' y', xs = [x', dash, y'] ∧ x'.capital = x.capital ∧ y'.capital = y.capital := by
  obtain ⟨x', _, rfl, hx, h⟩ := List.map_eq_cons_iff.mp h
  obtain ⟨d, _, rfl, hd, h⟩ := List.map_eq_cons_iff.mp h
  obtain ⟨y', rfl, hy⟩ := List.map_eq_singleton_iff.mp h
  rw [eq_of_capital_eq hd rfl]
  exact ⟨x', y', rfl, hx, hy⟩

/-- A word that is no name stands between the same words. -/
theorem exists_intercalate {s : Lexeme} (hs : s.isName = false) {xs : List Lexeme}
    {yss : List (List Lexeme)} (h : xs.map capital = ([s].intercalate yss).map capital) :
    ∃ xss, xs = [s].intercalate xss ∧
      List.Forall₂ (fun xs ys => xs.map capital = ys.map capital) xss yss := by
  induction yss generalizing xs with
  | nil => exact ⟨[], List.map_eq_nil_iff.mp h, .nil⟩
  | cons ys yss ih =>
      cases yss with
      | nil =>
          rw [List.intercalate_singleton] at h
          exact ⟨[xs], List.intercalate_singleton.symm, .cons h .nil⟩
      | cons zs yss =>
          rw [List.intercalate_cons_cons, List.map_append, List.map_append,
            List.map_eq_append_iff] at h
          obtain ⟨front, rest, rfl, hfront, hrest⟩ := h
          rw [List.map_eq_append_iff] at hfront
          obtain ⟨as, sign, rfl, has, hsign⟩ := hfront
          obtain ⟨xss, rfl, hxss⟩ := ih hrest
          have hsign : sign = [s] := eq_of_map_capital_eq hsign (List.forall_mem_singleton.mpr hs)
          refine ⟨as :: xss, ?_, .cons has hxss⟩
          cases hxss with
          | cons _ _ => rw [List.intercalate_cons_cons, hsign]

/-- Where a word ends does not depend on the case of the letters after it. -/
theorem Stops.of_toUpper_eq {x : Lexeme} {cs cs' : List Char} (h : x.Stops cs)
    (hupper : cs'.map Char.toUpper = cs.map Char.toUpper) : x.Stops cs' := by
  have hhead : ∀ d ∈ cs'.head?, ∃ c ∈ cs.head?, d.toUpper = c.toUpper := by
    intro d hd
    have hmem : d.toUpper ∈ (cs'.map Char.toUpper).head? := by
      rw [List.head?_map]
      exact Option.mem_map_of_mem _ hd
    rw [hupper, List.head?_map] at hmem
    obtain ⟨c, hc, hdc⟩ := Option.mem_map.mp hmem
    exact ⟨c, hc, hdc.symm⟩
  cases x with
  | number _ =>
      intro d hd
      obtain ⟨c, hc, hdc⟩ := hhead d hd
      rw [(plain_of_toUpper_eq hdc).1, h c hc]
  | space =>
      intro d hd
      obtain ⟨c, hc, hdc⟩ := hhead d hd
      rw [(plain_of_toUpper_eq hdc).2, h c hc]
  | workday =>
      rw [Stops, List.map_take] at h ⊢
      rw [hupper]
      exact h
  | month _ | weekday _ | comma | dash | star | question | slash | last | hash => trivial

/-- A name is spelled in either case, and every other word as it is. -/
theorem Spells.exists_of_toUpper_eq {x : Lexeme} {as as' : List Char} (h : x.Spells as)
    (hupper : as'.map Char.toUpper = as.map Char.toUpper) (hname : as' ≠ as → x.isName = true) :
    ∃ y : Lexeme, y.Spells as' ∧ y.capital = x.capital := by
  by_cases hsame : as' = as
  · exact ⟨x, hsame ▸ h, rfl⟩
  · have hx := hname hsame
    cases x with
    | month name =>
        cases h
        exact ⟨month (name.recased as' hupper), rfl, congrArg month (name.capital_recased hupper)⟩
    | weekday name =>
        cases h
        exact ⟨weekday (name.recased as' hupper), rfl,
          congrArg weekday (name.capital_recased hupper)⟩
    | number _ | space | comma | dash | star | question | slash | last | workday | hash =>
        contradiction

theorem exists_of_isLetter {x : Lexeme} {cs : List Char} (h : x.Spells cs)
    (hletter : x.isLetter = true) :
    ∃ c, cs = [c] ∧ ofSymbol? c = some x ∧ (c = 'L' ∨ c = 'W') := by
  cases x with
  | last => exact ⟨'L', h, rfl, .inl rfl⟩
  | workday => exact ⟨'W', h, rfl, .inr rfl⟩
  | number _ | month _ | weekday _ | space | comma | dash | star | question | slash | hash =>
      contradiction

/-- A sign that is a letter is no word as a small letter. -/
theorem absent_toLower {c : Char} {cs : List Char} {x : Lexeme} (h : ofSymbol? c = some x)
    (hletter : x.isLetter = true) (hstop : x.Stops cs) : Absent c.toLower cs .lexeme := by
  have hupper : (c.toLower :: cs.take 2).map Char.toUpper = (c :: cs.take 2).map Char.toUpper := by
    rw [List.map_cons, List.map_cons, Char.toUpper_toLower_eq_toUpper]
  have hnone {table : List (List Char)} [Distinct table] :
      (c.toLower :: cs.take 2).map Char.toUpper ∉ table := by
    rw [hupper]
    exact Name.read?_eq_none_iff.mp (read?_eq_none_of_ofSymbol? h hstop)
  unfold ofSymbol? at h
  split at h <;> cases h
  case h_6 => exact .lexeme rfl rfl hnone hnone (by decide)
  case h_7 => exact .lexeme rfl rfl hnone hnone (by decide)
  all_goals contradiction

end Lexeme

/-- A text that begins at the byte `start` with letters of its words of a kind in the other case.
All its characters are ASCII, so that places in the text are offsets in bytes. -/
structure Recased (kind : Lexeme → Bool) (start : Nat) (tokens : List Token)
    (cs cs' : List Char) : Prop where
  upper : cs'.map Char.toUpper = cs.map Char.toUpper
  elsewhere : ∀ i < cs.length, cs'[i]? ≠ cs[i]? →
    ∃ t ∈ tokens, kind t.lexeme = true ∧ t.start ≤ start + i ∧ start + i < t.stop

namespace Recased

variable {kind : Lexeme → Bool} {start : Nat} {tokens : List Token} {cs cs' : List Char}

instance : Decidable (Recased kind start tokens cs cs') :=
  decidable_of_iff (cs'.map Char.toUpper = cs.map Char.toUpper ∧ ∀ i < cs.length,
      cs'[i]? ≠ cs[i]? →
        ∃ t ∈ tokens, kind t.lexeme = true ∧ t.start ≤ start + i ∧ start + i < t.stop)
    ⟨fun h => ⟨h.1, h.2⟩, fun h => ⟨h.upper, h.elsewhere⟩⟩

theorem length_eq (h : Recased kind start tokens cs cs') : cs'.length = cs.length := by
  have hlength := congrArg List.length h.upper
  rw [List.length_map, List.length_map] at hlength
  exact hlength

theorem isBlank_getLast (h : Recased kind start tokens cs cs')
    (hlast : ∀ c ∈ cs.getLast?, isBlank c = false) : ∀ c ∈ cs'.getLast?, isBlank c = false := by
  rw [← List.head?_reverse] at hlast ⊢
  apply Lexeme.Stops.of_toUpper_eq (x := .space) hlast
  rw [List.map_reverse, h.upper, List.map_reverse]

theorem exists_append {as bs : List Char} (h : Recased kind start tokens (as ++ bs) cs') :
    ∃ as' bs', cs' = as' ++ bs' ∧ Recased kind start tokens as as' ∧
      Recased kind (start + as.length) tokens bs bs' := by
  have hupper := h.upper
  rw [List.map_append, List.map_eq_append_iff] at hupper
  obtain ⟨as', bs', rfl, has, hbs⟩ := hupper
  have hlength : as'.length = as.length := by
    rw [← List.length_map (f := Char.toUpper), has, List.length_map]
  refine ⟨as', bs', rfl, ⟨has, ?_⟩, ⟨hbs, ?_⟩⟩
  · intro i hi hne
    apply h.elsewhere i (by rw [List.length_append]; omega)
    rw [List.getElem?_append_left (hlength ▸ hi), List.getElem?_append_left hi]
    exact hne
  · intro i hi hne
    rw [Nat.add_assoc]
    apply h.elsewhere (as.length + i) (by rw [List.length_append]; omega)
    rw [List.getElem?_append_right (by omega), List.getElem?_append_right (by omega), hlength,
      Nat.add_sub_cancel_left]
    exact hne

/-- Nothing changes where no word of the kind is. -/
theorem eq_of_outside (h : Recased kind start tokens cs cs')
    (hout : ∀ t ∈ tokens, kind t.lexeme = true → t.stop ≤ start ∨ start + cs.length ≤ t.start) :
    cs' = cs := by
  apply List.ext_getElem?
  intro i
  by_cases hi : i < cs.length
  · by_contra hne
    obtain ⟨t, ht, hkind, hstart, hstop⟩ := h.elsewhere i hi hne
    have hplace := hout t ht hkind
    omega
  · have hlength := h.length_eq
    rw [List.getElem?_eq_none (by omega), List.getElem?_eq_none (by omega)]

theorem tail {t : Token} (h : Recased kind start (t :: tokens) cs cs') (hstop : t.stop ≤ start) :
    Recased kind start tokens cs cs' where
  upper := h.upper
  elsewhere i hi hne := by
    obtain ⟨u, hu, hkind, hplace⟩ := h.elsewhere i hi hne
    cases hu with
    | head => omega
    | tail _ hu => exact ⟨u, hu, hkind, hplace⟩

/-- The first word and those after it, of which only words of the kind change. -/
theorem exists_cons {x : Lexeme} {as bs : List Char} (hcut : Cut (start + as.length) bs tokens)
    (h : Recased kind start (⟨x, start, start + as.length⟩ :: tokens) (as ++ bs) cs') :
    ∃ as' bs', cs' = as' ++ bs' ∧ as'.map Char.toUpper = as.map Char.toUpper ∧
      (as' ≠ as → kind x = true) ∧ Recased kind (start + as.length) tokens bs bs' := by
  obtain ⟨as', bs', hcs', has, hbs⟩ := h.exists_append
  refine ⟨as', bs', hcs', has.upper, ?_, hbs.tail (Nat.le_refl _)⟩
  intro hne
  by_contra hkind
  apply hne
  apply has.eq_of_outside
  intro t ht hkind'
  cases ht with
  | head => contradiction
  | tail _ ht =>
      obtain ⟨_, _, _, _, _, hstart, _⟩ := hcut.mem ht
      omega

/-- The blanks around the words do not change. -/
theorem exists_body {front body back : List Char} (hcut : Cut front.length body tokens)
    (h : Recased kind 0 tokens (front ++ body ++ back) cs') :
    ∃ body', cs' = front ++ body' ++ back ∧ Recased kind front.length tokens body body' := by
  obtain ⟨rest, back', rfl, hrest, hback⟩ := h.exists_append
  obtain ⟨front', body', rfl, hfront, hbody⟩ := hrest.exists_append
  have hfront : front' = front := by
    apply hfront.eq_of_outside
    intro t ht _
    obtain ⟨_, _, _, _, _, hstart, _⟩ := hcut.mem ht
    omega
  have hback : back' = back := by
    apply hback.eq_of_outside
    intro t ht _
    obtain ⟨_, _, _, hcs, _, hstart, hstop⟩ := hcut.mem ht
    simp only [hcs, List.length_append]
    omega
  rw [hfront, hback]
  rw [Nat.zero_add] at hbody
  exact ⟨body', rfl, hbody⟩

end Recased

/-- With its names in the other case, a text spells the same words but for the letters of names. -/
theorem Cut.exists_spelled {start : Nat} {cs cs' : List Char} {tokens : List Token}
    (h : Cut start cs tokens) (hrecased : Recased Lexeme.isName start tokens cs cs') :
    ∃ xs, Spelled xs cs' ∧
      xs.map Lexeme.capital = (tokens.map (·.lexeme)).map Lexeme.capital := by
  induction h generalizing cs' with
  | nil =>
      rw [List.map_eq_nil_iff.mp hrecased.upper]
      exact ⟨[], .nil, rfl⟩
  | cons hx _ hrest ih =>
      obtain ⟨as', bs', rfl, hupper, hname, htail⟩ := hrecased.exists_cons hrest
      obtain ⟨y, hy, hcapital⟩ := hx.exists_of_toUpper_eq hupper hname
      obtain ⟨xs, hxs, hcapitals⟩ := ih htail
      refine ⟨y :: xs, .cons hy hxs, ?_⟩
      rw [List.map_cons, hcapital, hcapitals]
      rfl

/-- At the first small letter in the place of a sign, no word begins. -/
theorem Cut.scan_of_letter {start : Nat} {cs cs' : List Char} {tokens : List Token}
    (h : Cut start cs tokens) (hrecased : Recased Lexeme.isLetter start tokens cs cs')
    (hne : cs' ≠ cs) : ∃ before c after after', cs = before ++ c :: after ∧
      cs' = before ++ c.toLower :: after' ∧ (c = 'L' ∨ c = 'W') ∧
      Token.scan start 0 cs' = .error ⟨start + before.length, .lexeme⟩ := by
  induction h generalizing cs' with
  | nil => exact absurd (List.map_eq_nil_iff.mp hrecased.upper) hne
  | @cons start x as bs tokens hx hstop hrest ih =>
      obtain ⟨as', bs', rfl, hupper, hletter, htail⟩ := hrecased.exists_cons hrest
      have hstop' := hstop.of_toUpper_eq htail.upper
      by_cases hsame : as' = as
      · subst hsame
        obtain ⟨before, c, after, after', rfl, rfl, hc, hscan⟩ :=
          ih htail fun heq => hne (by rw [heq])
        refine ⟨as' ++ before, c, after, after', by simp only [List.append_assoc],
          by simp only [List.append_assoc], hc, ?_⟩
        rw [Token.scan_append hx hstop', hscan, List.length_append, ← Nat.add_assoc]
        rfl
      · obtain ⟨c, rfl, hsymbol, hc⟩ := Lexeme.exists_of_isLetter hx (hletter hsame)
        obtain ⟨d, rfl, hd⟩ := List.map_eq_singleton_iff.mp hupper
        have hcapital : c.isUpper = true := by rcases hc with rfl | rfl <;> rfl
        have hsmall : d = c.toLower := by
          apply eq_toLower_of_toUpper_eq hd hcapital
          intro heq
          exact hsame (by rw [heq])
        subst hsmall
        have habsent := Lexeme.absent_toLower hsymbol (hletter hsame) hstop'
        refine ⟨[], c, bs, bs', rfl, rfl, hc, ?_⟩
        rw [List.singleton_append, Token.scan, Lexeme.front_eq_error_iff.mpr habsent]
        rfl

end Recurrence
