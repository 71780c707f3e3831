import Recurrence.Proofs.Text.Scanning

/-!
The bytes that words cover. The words of a text lie side by side from the end of its leading blanks
to the beginning of its trailing ones, each on the bytes of one of its spellings, and no number or
blank is cut in two. No other words lie on a text like that.
-/
namespace Recurrence

/-- Two beginnings of a text that end at the same byte. -/
theorem eq_of_utf8Len_eq {as bs cs : List Char} (has : as <+: cs) (hbs : bs <+: cs)
    (h : String.utf8Len as = String.utf8Len bs) : as = bs := by
  obtain ⟨rest, rfl⟩ | ⟨rest, rfl⟩ := List.prefix_or_prefix_of_prefix has hbs
  all_goals
    rw [String.utf8Len_append] at h
    have hrest : rest = [] := String.utf8Len_eq_zero.mp (by omega)
    rw [hrest, List.append_nil]

namespace Token

/-- The part of a text that a token covers. -/
def slice (t : Token) (s : String) : String := String.Pos.Raw.extract s ⟨t.start⟩ ⟨t.stop⟩

/-- A token covers a part of a text that spells its word, from one place between characters to a
later one. -/
structure Within (t : Token) (s : String) : Prop where
  nonempty : t.start < t.stop
  isValid_start : String.Pos.Raw.IsValid s ⟨t.start⟩
  isValid_stop : String.Pos.Raw.IsValid s ⟨t.stop⟩
  spells : t.lexeme.Spells (t.slice s).toList
  month : ∀ name, t.lexeme = .month name → name.SpelledBy (t.slice s).toList
  weekday : ∀ name, t.lexeme = .weekday name → name.SpelledBy (t.slice s).toList

/-- Tokens cover a text without its outer blanks, each from where the one before it stops, and no
two of them could be one. -/
structure Tiles (tokens : List Token) (s : String) : Prop where
  within : ∀ t ∈ tokens, t.Within s
  contiguous : tokens.IsChain fun t u => t.stop = u.start
  apart : (tokens.map (·.lexeme)).IsChain Lexeme.Apart
  first : ∀ t ∈ tokens.head?, t.start = String.utf8Len (s.toList.takeWhile isBlank)
  last : ∀ t ∈ tokens.getLast?, t.stop = String.utf8Len (trimEnd s.toList)
  nil_iff : tokens = [] ↔ ∀ c ∈ s.toList, isBlank c = true

variable {s : String} {tokens : List Token}

theorem slice_eq {t : Token} {before as after : List Char} (hs : s.toList = before ++ as ++ after)
    (hstart : t.start = String.utf8Len before) (hstop : t.stop = t.start + String.utf8Len as) :
    t.slice s = String.ofList as := by
  rw [slice, hstop, hstart, ← String.ofList_toList (s := s), hs]
  exact String.extract_of_valid before as after

/-- The words of a text lie within it. -/
theorem within_of_ofText (h : ofText s.toList = .ok tokens) {t : Token} (ht : t ∈ tokens) :
    t.Within s := by
  obtain ⟨before, as, after, hs, hspells, hstart, hstop⟩ := mem_ofText h ht
  have hslice : (t.slice s).toList = as := by rw [slice_eq hs hstart hstop, String.toList_ofList]
  have hpos : String.utf8Len as ≠ 0 := mt String.utf8Len_eq_zero.mp hspells.ne_nil
  have hname {table : List (List Char)} {name : Name table} (htext : as = name.text) :
      name.SpelledBy (t.slice s).toList := by
    rw [hslice, Name.spelledBy_iff, htext]
  refine ⟨by omega, ?_, ?_, hslice ▸ hspells, ?_, ?_⟩
  · rw [List.append_assoc] at hs
    exact hstart ▸ isValid_utf8Len hs
  · rw [hstop, hstart, ← String.utf8Len_append]
    exact isValid_utf8Len hs
  · intro name hmonth
    rw [hmonth] at hspells
    exact hname hspells
  · intro name hweekday
    rw [hweekday] at hspells
    exact hname hspells

end Token

namespace Cut

variable {start : Nat} {cs : List Char} {tokens : List Token}

theorem eq_nil_iff (h : Cut start cs tokens) : tokens = [] ↔ cs = [] := by
  cases h with
  | nil => exact ⟨fun _ => rfl, fun _ => rfl⟩
  | cons hx _ _ => simp [hx.ne_nil]

theorem start_of_head? (h : Cut start cs tokens) : ∀ t ∈ tokens.head?, t.start = start := by
  cases h with
  | nil => exact nofun
  | cons _ _ _ =>
      intro t ht
      cases ht
      rfl

theorem contiguous (h : Cut start cs tokens) : tokens.IsChain fun t u => t.stop = u.start := by
  induction h with
  | nil => exact .nil
  | cons _ _ hrest ih =>
      rw [List.isChain_cons]
      exact ⟨fun u hu => (hrest.start_of_head? u hu).symm, ih⟩

theorem stop_of_getLast? (h : Cut start cs tokens) :
    ∀ t ∈ tokens.getLast?, t.stop = start + cs.length := by
  induction h with
  | nil => exact nofun
  | @cons start x as bs tokens _ _ hrest ih =>
      intro t ht
      rw [List.length_append, ← Nat.add_assoc]
      cases hlast : tokens.getLast? with
      | none =>
          have hnil := List.getLast?_eq_none_iff.mp hlast
          rw [hrest.eq_nil_iff.mp hnil]
          rw [hnil] at ht
          cases ht
          rfl
      | some u =>
          rw [List.getLast?_cons, hlast] at ht
          cases ht
          exact ih u hlast

end Cut

theorem trimEnd_eq_nil_iff {cs : List Char} : trimEnd cs = [] ↔ ∀ c ∈ cs, isBlank c = true := by
  rw [trimEnd, List.reverse_eq_nil_iff, List.dropWhile_eq_nil_iff]
  simp only [List.mem_reverse]

theorem isPrefix_trimEnd (cs : List Char) : trimEnd cs <+: cs := by
  obtain ⟨back, hcs, -⟩ := exists_trimEnd_append cs
  exact ⟨back, hcs.symm⟩

/-- The blanks at the beginning of a text are not those at its end, unless it is blank. -/
theorem takeWhile_trimEnd {cs : List Char} (h : trimEnd cs ≠ []) :
    (trimEnd cs).takeWhile isBlank = cs.takeWhile isBlank := by
  obtain ⟨back, hcs, -, hlast⟩ := exists_trimEnd_append cs
  conv_rhs => rw [hcs]
  symm
  apply takeWhile_append_of_stop
  intro hall
  have hblank := hlast _ (List.getLast?_eq_some_getLast h)
  rw [hall _ (List.getLast_mem h)] at hblank
  contradiction

theorem utf8Len_takeWhile_isBlank (cs : List Char) :
    String.utf8Len (cs.takeWhile isBlank) = (cs.takeWhile isBlank).length :=
  utf8Len_of_ascii fun _ hc => utf8Size_of_isBlank (List.mem_takeWhile_imp hc)

/-- Nothing is left between the outer blanks of a text only if it is blank. -/
theorem body_eq_nil_iff {cs front body : List Char} (h : trimEnd cs = front ++ body)
    (hfront : ∀ c ∈ front, isBlank c = true) : body = [] ↔ ∀ c ∈ cs, isBlank c = true := by
  constructor
  · intro hnil
    rw [hnil, List.append_nil] at h
    obtain ⟨back, hcs, hback, -⟩ := exists_trimEnd_append cs
    rw [hcs, h]
    exact List.forall_mem_append.mpr ⟨hfront, hback⟩
  · intro hblank
    rw [trimEnd_eq_nil_iff.mpr hblank] at h
    exact (List.append_eq_nil_iff.mp h.symm).2

namespace Token

theorem tiles_of_ofText {s : String} {tokens : List Token} (h : ofText s.toList = .ok tokens) :
    Tiles tokens s := by
  obtain ⟨body, hbody, hfirst⟩ := exists_takeWhile_append isBlank (trimEnd s.toList)
  have hfront : ∀ c ∈ (trimEnd s.toList).takeWhile isBlank, isBlank c = true :=
    fun c hc => List.mem_takeWhile_imp hc
  have hcut := scan_eq_ok_iff.mp (ofText_eq_scan hbody hfront hfirst ▸ h)
  have hnil : tokens = [] ↔ trimEnd s.toList = [] := by
    rw [hcut.eq_nil_iff, body_eq_nil_iff hbody hfront, trimEnd_eq_nil_iff]
  refine ⟨fun t ht => within_of_ofText h ht, hcut.contiguous, hcut.apart, ?_, ?_, ?_⟩
  · intro t ht
    have hne : trimEnd s.toList ≠ [] := mt hnil.mpr (List.ne_nil_of_mem (List.mem_of_head? ht))
    rw [hcut.start_of_head? t ht, takeWhile_trimEnd hne, utf8Len_takeWhile_isBlank]
  · intro t ht
    rw [hcut.stop_of_getLast? t ht, utf8Len_trimEnd h, ← List.length_append, ← hbody]
  · rw [hnil, trimEnd_eq_nil_iff]

/-- Where a token begins and ends in its text, and what lies in between. -/
theorem Within.exists_slice {t : Token} {s : String} (h : t.Within s) : ∃ before as,
    before ++ as <+: s.toList ∧ t.start = String.utf8Len before ∧
      t.stop = t.start + as.length ∧ t.lexeme.Spells as := by
  obtain ⟨i, hstart⟩ := String.Pos.Raw.isValid_iff_exists_take_toList.mp h.isValid_start
  obtain ⟨j, hstop⟩ := String.Pos.Raw.isValid_iff_exists_take_toList.mp h.isValid_stop
  rw [String.utf8ByteSize_ofList] at hstart hstop
  have hnonempty := h.nonempty
  obtain hij | hji := List.prefix_or_prefix_of_prefix (List.take_prefix i s.toList)
    (List.take_prefix j s.toList)
  · obtain ⟨as, has⟩ := hij
    rw [← has, String.utf8Len_append, ← hstart] at hstop
    have htake : s.toList.take i ++ as <+: s.toList := has ▸ List.take_prefix j s.toList
    obtain ⟨after, hs⟩ := id htake
    have hspells := h.spells
    rw [slice_eq hs.symm hstart hstop, String.toList_ofList] at hspells
    exact ⟨_, as, htake, hstart, utf8Len_of_ascii hspells.ascii ▸ hstop, hspells⟩
  · have hle := String.utf8Len_le_of_prefix hji
    simp only at hstart hstop
    omega

/-- Tokens that lie side by side in a text are cut from a part of it. By induction on the tokens,
which leads from the end of each of them to the next one. -/
theorem exists_cut_of_within {s : String} {tokens : List Token} (h : ∀ t ∈ tokens, t.Within s)
    (hcontiguous : tokens.IsChain fun t u => t.stop = u.start)
    (hapart : (tokens.map (·.lexeme)).IsChain Lexeme.Apart) {before : List Char}
    (hbefore : before <+: s.toList) (hfirst : ∀ t ∈ tokens.head?, t.start = String.utf8Len before) :
    ∃ body, before ++ body <+: s.toList ∧ Cut (String.utf8Len before) body tokens := by
  induction tokens generalizing before with
  | nil => exact ⟨[], by simpa using hbefore, .nil⟩
  | cons t tokens ih =>
      obtain ⟨ht, htokens⟩ := List.forall_mem_cons.mp h
      rw [List.isChain_cons] at hcontiguous
      rw [List.map_cons, List.isChain_cons] at hapart
      obtain ⟨before', as, has, hstart, hstop, hspells⟩ := ht.exists_slice
      have hsame : before' = before := eq_of_utf8Len_eq
        ((List.prefix_append before' as).trans has) hbefore (hstart.symm.trans (hfirst t rfl))
      subst hsame
      have hnext : String.utf8Len (before' ++ as) = t.stop := by
        rw [String.utf8Len_append, utf8Len_of_ascii hspells.ascii, hstop, hstart]
      obtain ⟨bs, hbs, hcut⟩ := ih htokens hcontiguous.2 hapart.2 has
        (fun u hu => by rw [hnext, hcontiguous.1 u hu])
      have ht : t = ⟨t.lexeme, t.start, t.start + as.length⟩ := by rw [← hstop]
      refine ⟨as ++ bs, by rwa [← List.append_assoc], ?_⟩
      rw [hnext, hstop] at hcut
      rw [← hstart, ht]
      exact .cons hspells (hcut.stops hapart.1) hcut

theorem ofText_of_tiles {s : String} {tokens : List Token} (h : Tiles tokens s) :
    ofText s.toList = .ok tokens := by
  by_cases hnil : tokens = []
  · have htrim := trimEnd_eq_nil_iff.mpr (h.nil_iff.mp hnil)
    rw [hnil, ofText, htrim]
    rfl
  · have hne : trimEnd s.toList ≠ [] := mt (h.nil_iff.mpr ∘ trimEnd_eq_nil_iff.mp) hnil
    obtain ⟨rest, hrest, hfirst⟩ := exists_takeWhile_append isBlank (trimEnd s.toList)
    rw [takeWhile_trimEnd hne] at hrest
    obtain ⟨body, hbody, hcut⟩ := exists_cut_of_within h.within h.contiguous h.apart
      (List.takeWhile_prefix isBlank) h.first
    have hlast := List.getLast?_eq_some_getLast hnil
    have hstop := hcut.stop_of_getLast? _ hlast
    rw [h.last _ hlast, ← utf8Len_of_ascii hcut.ascii, ← String.utf8Len_append] at hstop
    have hsplit := eq_of_utf8Len_eq (isPrefix_trimEnd s.toList) hbody hstop
    have hfront : ∀ c ∈ s.toList.takeWhile isBlank, isBlank c = true :=
      fun c hc => List.mem_takeWhile_imp hc
    rw [← List.append_cancel_left (hsplit.symm.trans hrest)] at hfirst
    rw [utf8Len_takeWhile_isBlank] at hcut
    rw [ofText_eq_scan hsplit hfront hfirst]
    exact hcut.scan

/-- The words of a text are those that tile it. -/
theorem ofText_eq_ok_iff_tiles (s : String) (tokens : List Token) :
    ofText s.toList = .ok tokens ↔ Tiles tokens s := by
  constructor
  · intro h
    exact tiles_of_ofText h
  · intro h
    exact ofText_of_tiles h

example : ofText "  10   JAN ".toList =
    .ok [⟨.number 10, 2, 4⟩, ⟨.space, 4, 7⟩, ⟨.month ⟨['J', 'A', 'N'], 1, by decide⟩, 7, 10⟩] := by
  decide +kernel

end Token

end Recurrence
