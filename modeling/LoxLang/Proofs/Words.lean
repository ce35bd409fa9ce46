import LoxLang.Source.Token
import LoxLang.Number
import Mathlib.Data.List.TakeWhile

/-!
# The words that are read

A word is read against the terminals that can stand at its place, so its kind depends on the place;
its spelling does not.

* `IsNumeral`: digits of any script, and perhaps a point and more digits.
* `Terminal.Matches`: the patterns of the terminals.
* `Token.Read`: a token that is a word of some text, read against some terminals.

Results: `lexeme_matches` — a word matches the pattern of its terminal and stands at the beginning
of the text; `lexeme_spelling` — reserved words and symbols are spelled as they should be, and a
number is a numeral; `Number.read?_isSome` — every numeral stands for a double.
-/

set_option autoImplicit false

namespace LoxLang

open Text (isDigit isBlank isNumberBlank toAsciiDigit joinGroups)

/-- Digits of any script, and perhaps a point and more digits. -/
def IsNumeral (cs : List Char) : Prop :=
  ∃ whole fraction, whole ≠ [] ∧
    (∀ c ∈ whole, isDigit c = true) ∧
      (∀ c ∈ fraction, isDigit c = true) ∧ (cs = whole ∨ cs = whole ++ '.' :: fraction)

/-! ## Digits -/

namespace Text

theorem digit?_block {c : Char} {d : Nat} (h : digit? c = some d) :
    d < 10 ∧ ∃ first ∈ digitBlocks, c.toNat = first + d := by
  unfold digit? at h
  obtain ⟨first, hfind, rfl⟩ := Option.map_eq_some_iff.1 h
  have hmem := List.mem_of_find?_eq_some hfind
  have hrange := List.find?_some hfind
  simp only [Bool.and_eq_true, decide_eq_true_eq] at hrange
  exact ⟨by omega, first, hmem, by omega⟩

/-- Whether a code point is blank. -/
def isBlankCode (n : Nat) : Bool :=
  (9 ≤ n && n ≤ 13) || (28 ≤ n && n ≤ 32) || n == 0x85 || n == 0xA0 || n == 0x1680 ||
    (0x2000 ≤ n && n ≤ 0x200A) || n == 0x2028 || n == 0x2029 || n == 0x202F || n == 0x205F ||
    n == 0x3000

theorem isBlankCode_digit :
    ∀ first ∈ digitBlocks, ∀ d < 10, isBlankCode (first + d) = false := by
  decide +kernel

theorem isNumberBlank_digit {c : Char} (h : isDigit c = true) : isNumberBlank c = false := by
  obtain ⟨d, hd⟩ := Option.isSome_iff_exists.1 h
  obtain ⟨hlt, first, hmem, hcode⟩ := digit?_block hd
  have hblank : isBlank c = false := by
    rw [show isBlank c = isBlankCode c.toNat from rfl, hcode]
    exact isBlankCode_digit first hmem d hlt
  simp [isNumberBlank, hblank]

theorem isDigit_digitChar : ∀ d < 10, d.digitChar.isDigit = true := by decide

theorem isDigit_toAsciiDigit {c : Char} (h : isDigit c = true) :
    (toAsciiDigit c).isDigit = true := by
  obtain ⟨d, hd⟩ := Option.isSome_iff_exists.1 h
  rw [toAsciiDigit, hd]
  exact isDigit_digitChar d (digit?_block hd).1

theorem toAsciiDigit_point : toAsciiDigit '.' = '.' := by decide +kernel

theorem joinGroups_eq (afterDigit : Bool) {cs : List Char} (h : ∀ c ∈ cs, c ≠ '_') :
    joinGroups afterDigit cs = some cs := by
  induction cs generalizing afterDigit with
  | nil => rfl
  | cons c cs ih =>
    have hc := h c List.mem_cons_self
    have hcs := ih c.isDigit fun c' hc' => h c' (List.mem_cons_of_mem _ hc')
    unfold joinGroups
    split
    · rename_i heq
      cases heq
    · rename_i heq
      cases heq
      exact absurd rfl hc
    · rename_i heq
      cases heq
      rw [if_neg hc, hcs]
      rfl

theorem trim_eq {p : Char → Bool} {cs : List Char} (h : ∀ c ∈ cs, p c = false) :
    trim p cs = cs := by
  have keep : ∀ ds : List Char, (∀ c ∈ ds, p c = false) → ds.dropWhile p = ds := by
    intro ds hds
    cases ds with
    | nil => rfl
    | cons d ds => simp [hds d List.mem_cons_self]
  unfold trim
  rw [keep cs h, keep cs.reverse fun c hc => h c (List.mem_reverse.1 hc), List.reverse_reverse]

end Text

/-! ## Numerals -/

namespace Number

/-- Digits with no more than a point among them are a decimal. -/
theorem readDecimal?_isSome {whole fraction : List Char} (hne : whole ≠ [])
    (hwhole : ∀ c ∈ whole, c.isDigit = true)
    (hfraction : ∀ c ∈ fraction, c.isDigit = true) :
    (readDecimal? whole).isSome = true ∧
      (readDecimal? (whole ++ '.' :: fraction)).isSome = true := by
  have take : whole.takeWhile Char.isDigit = whole := List.takeWhile_eq_self_iff.2 hwhole
  have drop : whole.dropWhile Char.isDigit = [] := List.dropWhile_eq_nil_iff.2 hwhole
  have drop' : fraction.dropWhile Char.isDigit = [] := List.dropWhile_eq_nil_iff.2 hfraction
  constructor
  · simp [readDecimal?, take, drop, hne]
  · have point : ('.' : Char).isDigit = false := by decide
    simp [readDecimal?, List.takeWhile_append_of_pos hwhole,
      List.dropWhile_append_of_pos hwhole, point, drop', hne]

theorem readUnsigned?_isSome {cs : List Char} (negative : Bool)
    (h : (readDecimal? cs).isSome = true) :
    (readUnsigned? negative cs).isSome = true := by
  unfold readUnsigned?
  simp only
  split
  · rfl
  · split
    · rfl
    · simp [h]

theorem splitSign_digit {cs : List Char} (h : ∀ c ∈ cs.head?, c.isDigit = true) :
    splitSign cs = (false, cs) := by
  unfold splitSign
  split
  · exact absurd (h '-' rfl) (by decide)
  · exact absurd (h '+' rfl) (by decide)
  · rfl

/-- **Every numeral stands for a double.** -/
theorem read?_isSome {cs : List Char} (h : IsNumeral cs) :
    (read? (String.ofList cs)).isSome = true := by
  obtain ⟨whole, fraction, hne, hwhole, hfraction, hcs⟩ := h
  have chars : ∀ c ∈ cs, isDigit c = true ∨ c = '.' := by
    intro c hc
    rcases hcs with rfl | rfl
    · exact .inl (hwhole c hc)
    · rcases List.mem_append.1 hc with hc | hc
      · exact .inl (hwhole c hc)
      · rcases List.mem_cons.1 hc with rfl | hc
        · exact .inr rfl
        · exact .inl (hfraction c hc)
  have trimmed : Text.trim isNumberBlank cs = cs := by
    refine Text.trim_eq fun c hc => ?_
    rcases chars c hc with h | rfl
    · exact Text.isNumberBlank_digit h
    · decide
  have joined : joinGroups false (cs.map toAsciiDigit) = some (cs.map toAsciiDigit) := by
    refine Text.joinGroups_eq _ fun c hc => ?_
    obtain ⟨c', hc', rfl⟩ := List.mem_map.1 hc
    rcases chars c' hc' with h | rfl
    · have digit := Text.isDigit_toAsciiDigit h
      intro hunderscore
      rw [hunderscore] at digit
      exact absurd digit (by decide)
    · rw [Text.toAsciiDigit_point]
      decide
  have digits : ∀ ds : List Char, (∀ c ∈ ds, isDigit c = true) →
      ∀ c ∈ ds.map toAsciiDigit, c.isDigit = true := by
    intro ds hds c hc
    obtain ⟨c', hc', rfl⟩ := List.mem_map.1 hc
    exact Text.isDigit_toAsciiDigit (hds c' hc')
  have decimals :=
    readDecimal?_isSome (fun h => hne (List.map_eq_nil_iff.1 h)) (digits whole hwhole)
      (digits fraction hfraction)
  have decimal : (readDecimal? (cs.map toAsciiDigit)).isSome = true := by
    rcases hcs with rfl | rfl
    · exact decimals.1
    · rw [List.map_append, List.map_cons, Text.toAsciiDigit_point]
      exact decimals.2
  have unsigned : splitSign (cs.map toAsciiDigit) = (false, cs.map toAsciiDigit) := by
    refine splitSign_digit fun c hc => digits whole hwhole c ?_
    obtain ⟨d, ds, rfl⟩ := List.exists_cons_of_ne_nil hne
    rcases hcs with rfl | rfl <;> simp_all
  unfold read?
  rw [String.toList_ofList, trimmed, joined]
  show (readUnsigned? (splitSign (cs.map toAsciiDigit)).1
    (splitSign (cs.map toAsciiDigit)).2).isSome = true
  rw [unsigned]
  exact readUnsigned?_isSome false decimal

end Number

/-! ## Patterns -/

/-- The pattern of a terminal: a fixed spelling, or a description of the words. -/
def Terminal.Matches : Terminal → List Char → Prop
  | .keyword k, text => text = k.text.toList
  | .symbol m, text => text = m.text.toList
  | .identifier, text => ∃ c rest, text = c :: rest ∧ Source.isNameStart c = true ∧
    ∀ d ∈ rest, Source.isNameChar d = true
  | .number, text => ∃ whole, whole ≠ [] ∧ (∀ c ∈ whole, isDigit c = true) ∧
    (text = whole ∨ ∃ fraction, fraction ≠ [] ∧ (∀ c ∈ fraction, isDigit c = true) ∧
      text = whole ++ '.' :: fraction)
  | .string, text => ∃ inside, '"' ∉ inside ∧ text = '"' :: (inside ++ ['"'])

namespace Source

theorem identifier_matches {c : Char} {rest : List Char} (h : isNameStart c = true) :
    Terminal.identifier.Matches ((c :: rest).takeWhile isNameChar) := by
  refine ⟨c, rest.takeWhile isNameChar, ?_, h, fun d hd => List.mem_takeWhile_imp hd⟩
  rw [List.takeWhile_cons_of_pos (isNameChar_of_start h)]

theorem word?_matches {admits : Terminal → Bool} {c : Char} {rest text : List Char}
    {kind : Terminal} (hc : isNameStart c = true)
    (h : word? admits (c :: rest) = some (kind, text)) :
    kind.Matches text ∧ text <+: c :: rest := by
  have name := @identifier_matches c rest hc
  have at' : (c :: rest).takeWhile isNameChar <+: c :: rest := List.takeWhile_prefix isNameChar
  unfold word? at h
  split at h
  · simp only at h
    split at h
    · rename_i k hk
      cases h
      refine ⟨?_, at'⟩
      split
      · have spelled := List.find?_some hk
        rw [Terminal.Matches, beq_iff_eq.1 spelled, String.toList_ofList]
      · exact name
    · cases h
      exact ⟨name, at'⟩
  · obtain ⟨k, hfind, hk⟩ := Option.map_eq_some_iff.1 h
    cases hk
    have found := List.find?_some hfind
    simp only [Bool.and_eq_true, List.isPrefixOf_iff_prefix] at found
    exact ⟨rfl, found.2⟩

theorem number?_matches {admits : Terminal → Bool} {c : Char} {rest text : List Char}
    {kind : Terminal} (hc : isDigit c = true) (h : number? admits (c :: rest) = some (kind, text)) :
    kind.Matches text ∧ text <+: c :: rest := by
  have hne : (c :: rest).takeWhile isDigit ≠ [] := by simp [hc]
  have hwhole : ∀ d ∈ (c :: rest).takeWhile isDigit, isDigit d = true :=
    fun d hd => List.mem_takeWhile_imp hd
  unfold number? at h
  split at h
  · simp only at h
    split at h
    · rename_i more hmore
      cases h
      have split_at := List.takeWhile_append_dropWhile (p := isDigit) (l := c :: rest)
      rw [hmore] at split_at
      by_cases none : (more.takeWhile isDigit).isEmpty = true
      · rw [if_pos none]
        exact ⟨⟨_, hne, hwhole, .inl rfl⟩, List.takeWhile_prefix isDigit⟩
      · rw [if_neg none]
        have hfraction : more.takeWhile isDigit ≠ [] := fun h => none (by rw [h]; rfl)
        refine ⟨⟨_, hne, hwhole,
          .inr ⟨_, hfraction, fun d hd => List.mem_takeWhile_imp hd, rfl⟩⟩, ?_⟩
        refine ⟨more.dropWhile isDigit, ?_⟩
        rw [List.append_assoc, List.cons_append, List.takeWhile_append_dropWhile]
        exact split_at
    · cases h
      exact ⟨⟨_, hne, hwhole, .inl rfl⟩, List.takeWhile_prefix isDigit⟩
  · cases h

theorem string?_matches {admits : Terminal → Bool} {rest text : List Char} {kind : Terminal}
    (h : string? admits ('"' :: rest) = some (kind, text)) :
    kind.Matches text ∧ text <+: '"' :: rest := by
  unfold string? at h
  simp only [List.drop_succ_cons, List.drop_zero] at h
  split at h
  · rename_i closed
    cases h
    simp only [Bool.and_eq_true, beq_iff_eq] at closed
    have inside : '"' ∉ rest.takeWhile (· != '"') := by
      intro hmem
      have := List.mem_takeWhile_imp hmem
      simp at this
    refine ⟨⟨_, inside, rfl⟩, List.cons_prefix_cons.2 ⟨rfl, ?_⟩⟩
    -- the quotation mark after the inside is the one that closes the string
    obtain ⟨after, hafter⟩ : ∃ after, rest.drop (rest.takeWhile (· != '"')).length =
      '"' :: after :=
      List.head?_eq_some_iff.1 closed.2
    refine ⟨after, ?_⟩
    rw [List.append_assoc, List.singleton_append, ← hafter]
    exact List.prefix_iff_eq_append.1 (List.takeWhile_prefix _)
  · cases h

/-- **A word matches the pattern of its terminal**, and stands at the beginning of the text. -/
theorem lexeme_matches {admits : Terminal → Bool} {cs text : List Char} {kind : Terminal}
    (h : lexeme? admits cs = some (kind, text)) : kind.Matches text ∧ text <+: cs := by
  unfold lexeme? at h
  split at h
  · cases h
  · split at h
    · exact word?_matches ‹_› h
    · split at h
      · exact number?_matches ‹_› h
      · split at h
        · rename_i hquote
          subst hquote
          exact string?_matches h
        · obtain ⟨m, hfind, hm⟩ := Option.map_eq_some_iff.1 h
          cases hm
          have found := List.find?_some hfind
          simp only [Bool.and_eq_true, List.isPrefixOf_iff_prefix] at found
          exact ⟨rfl, found.2⟩

/-! ## Spelling -/

/-- How the words of a kind are spelled, as far as the kind says so. -/
def Spells : Terminal → List Char → Prop
  | .keyword k, text => String.ofList text = k.text
  | .symbol m, text => String.ofList text = m.text
  | .number, text => IsNumeral text
  | _, _ => True

/-- **Words are spelled as their kind says.** -/
theorem lexeme_spelling {admits : Terminal → Bool} {cs text : List Char} {kind : Terminal}
    (h : lexeme? admits cs = some (kind, text)) : Spells kind text := by
  have found := (lexeme_matches h).1
  cases kind with
  | keyword k =>
    rw [show text = k.text.toList from found]
    exact String.ofList_toList
  | symbol m =>
    rw [show text = m.text.toList from found]
    exact String.ofList_toList
  | number =>
    obtain ⟨whole, hne, hwhole, rfl | ⟨fraction, -, hfraction, rfl⟩⟩ := found
    · exact ⟨_, [], hne, hwhole, by simp, .inl rfl⟩
    · exact ⟨whole, fraction, hne, hwhole, hfraction, .inr rfl⟩
  | identifier | string => trivial

end Source

/-- A word of some text, read against some terminals. -/
def Token.Read (t : Token) : Prop :=
  ∃ admits cs, Source.lexeme? admits cs = some (t.kind, t.text.toList)

namespace Token.Read

variable {t : Token} (h : t.Read)
include h

theorem spells : Source.Spells t.kind t.text.toList := by
  obtain ⟨admits, cs, h⟩ := h
  exact Source.lexeme_spelling h

theorem keyword {k : Keyword} (hk : t.kind = .keyword k) : t.text = k.text := by
  have spelled := h.spells
  rw [hk] at spelled
  simpa [Source.Spells] using spelled

theorem symbol {m : Symbol} (hm : t.kind = .symbol m) : t.text = m.text := by
  have spelled := h.spells
  rw [hm] at spelled
  simpa [Source.Spells] using spelled

theorem number (hn : t.kind = .number) : (Number.read? t.text).isSome = true := by
  have spelled := h.spells
  rw [hn] at spelled
  simpa using Number.read?_isSome spelled

end Token.Read

end LoxLang
