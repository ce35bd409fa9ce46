import LoxLang.Proofs.Completeness
import LoxLang.Proofs.Language

/-!
# Words that do not depend on their place

When all terminals are allowed everywhere, a text is cut into the longest words that match one of
them, and a reserved word is never a name. The reader allows only the terminals that can stand next,
and may cut another word then; but where the first way leads to a program, both ways cut the same
words.

* `Foremost`: the word at the beginning of a text when all terminals are allowed.
* `Lexed`: a text that consists of such words, with gaps between them.

Results: `lexeme_of_matches` — where some terminal matches, a word is read, and no match is
longer; `foremost_iff` — what is read when all terminals are allowed is the foremost word;
`lexeme_of_admits` — a foremost word that can stand next is also read then; `readFrom_lexed` — a
text of foremost words that the reader takes is read as these words; `ordinary_words_read` — the
whole statement.
-/

set_option autoImplicit false

namespace LoxLang

open Text (isDigit isBlank)

namespace Source

/-! ## Characters that words begin with -/

/-- Whether a code point may begin a name. -/
def isNameStartCode (n : Nat) : Bool := (65 ≤ n && n ≤ 90) || (97 ≤ n && n ≤ 122) || n == 95

theorem isNameStartCode_of_start {c : Char} (h : isNameStart c = true) :
    isNameStartCode c.toNat = true := by
  simp only [isNameStart, Char.isAlpha, Char.isUpper, Char.isLower, Bool.or_eq_true,
    Bool.and_eq_true, decide_eq_true_eq, UInt32.le_iff_toNat_le, ge_iff_le, beq_iff_eq] at h
  simp only [isNameStartCode, Bool.or_eq_true, Bool.and_eq_true, decide_eq_true_eq,
    beq_iff_eq, Char.toNat]
  rcases h with (h | h) | h
  · exact .inl (.inl h)
  · exact .inl (.inr h)
  · subst h
    exact .inr rfl

theorem isNameStartCode_digit :
    ∀ first ∈ Text.digitBlocks, ∀ d < 10, isNameStartCode (first + d) = false := by
  decide +kernel

/-- No digit begins a name. -/
theorem isNameStart_digit {c : Char} (h : isDigit c = true) : isNameStart c = false := by
  obtain ⟨d, hd⟩ := Option.isSome_iff_exists.1 h
  obtain ⟨hlt, first, hmem, hcode⟩ := Text.digit?_block hd
  refine Bool.eq_false_iff.2 fun hstart => ?_
  have code := isNameStartCode_of_start hstart
  rw [hcode, isNameStartCode_digit first hmem d hlt] at code
  cases code

theorem isBlank_nameStart {c : Char} (h : isNameStart c = true) : isBlank c = false := by
  have code := isNameStartCode_of_start h
  rw [show isBlank c = Text.isBlankCode c.toNat from rfl]
  simp only [isNameStartCode, Bool.or_eq_true, Bool.and_eq_true, decide_eq_true_eq,
    beq_iff_eq] at code
  simp only [Text.isBlankCode, Bool.or_eq_false_iff, Bool.and_eq_false_imp, decide_eq_true_eq,
    decide_eq_false_iff_not, beq_eq_false_iff_ne]
  omega

theorem isBlank_digit {c : Char} (h : isDigit c = true) : isBlank c = false := by
  obtain ⟨d, hd⟩ := Option.isSome_iff_exists.1 h
  obtain ⟨hlt, first, hmem, hcode⟩ := Text.digit?_block hd
  rw [show isBlank c = Text.isBlankCode c.toNat from rfl, hcode]
  exact Text.isBlankCode_digit first hmem d hlt

theorem isDigit_point : isDigit '.' = false := by decide +kernel

theorem isDigit_quote : isDigit '"' = false := by decide +kernel

theorem Keyword.mem_all (k : Keyword) : k ∈ Keyword.all := by cases k <;> decide

theorem Symbol.mem_all (m : Symbol) : m ∈ Symbol.all := by cases m <;> decide

/-- A reserved word is made of the characters of names. -/
theorem keyword_isName (k : Keyword) :
    (∃ c rest, k.text.toList = c :: rest ∧ isNameStart c = true) ∧
      ∀ c ∈ k.text.toList, isNameChar c = true := by
  have checked : (k.text.toList.head?.any isNameStart && k.text.toList.all isNameChar) = true := by
    cases k <;> decide
  rw [Bool.and_eq_true, Option.any_eq_true, List.all_eq_true] at checked
  obtain ⟨⟨c, hc, hstart⟩, chars⟩ := checked
  obtain ⟨rest, hrest⟩ := List.head?_eq_some_iff.1 hc
  exact ⟨⟨c, rest, hrest, hstart⟩, chars⟩

/-- Whether a character begins neither a name nor a number nor a string, and is not blank. -/
def isSymbolStart (c : Char) : Bool := !isNameStart c && !isDigit c && c != '"' && !isBlank c

theorem isSymbolStart_iff {c : Char} : isSymbolStart c = true ↔
    isNameStart c = false ∧ isDigit c = false ∧ c ≠ '"' ∧ isBlank c = false := by
  simp [isSymbolStart, and_assoc]

theorem symbol_start (m : Symbol) :
    ∃ c rest, m.text.toList = c :: rest ∧ isSymbolStart c = true := by
  have checked : m.text.toList.head?.any isSymbolStart = true := by cases m <;> decide +kernel
  rw [Option.any_eq_true] at checked
  obtain ⟨c, hc, start⟩ := checked
  obtain ⟨rest, hrest⟩ := List.head?_eq_some_iff.1 hc
  exact ⟨c, rest, hrest, start⟩

/-- Whether a word of a terminal may begin with a character. -/
def opens : Terminal → Char → Bool
  | .keyword _, c => isNameStart c
  | .identifier, c => isNameStart c
  | .number, c => isDigit c
  | .string, c => c == '"'
  | .symbol _, c => isSymbolStart c

theorem matches_start {kind : Terminal} {text : List Char} (spelled : kind.Matches text) :
    ∃ c rest, text = c :: rest ∧ opens kind c = true := by
  cases kind with
  | keyword k =>
    obtain ⟨⟨c, rest, htext, hc⟩, -⟩ := keyword_isName k
    exact ⟨c, rest, (show text = k.text.toList from spelled).trans htext, hc⟩
  | symbol m =>
    obtain ⟨c, rest, htext, hc⟩ := symbol_start m
    exact ⟨c, rest, (show text = m.text.toList from spelled).trans htext, hc⟩
  | identifier =>
    obtain ⟨c, rest, htext, hc, -⟩ := spelled
    exact ⟨c, rest, htext, hc⟩
  | number =>
    obtain ⟨whole, hne, hwhole, htext⟩ := spelled
    obtain ⟨c, rest, rfl⟩ := List.exists_cons_of_ne_nil hne
    have hc := hwhole c List.mem_cons_self
    rcases htext with rfl | ⟨fraction, -, -, rfl⟩ <;> exact ⟨c, _, rfl, hc⟩
  | string =>
    obtain ⟨inside, -, rfl⟩ := spelled
    exact ⟨_, _, rfl, rfl⟩

/-- No word begins with a blank. -/
theorem isBlank_of_opens {kind : Terminal} {c : Char} (h : opens kind c = true) :
    isBlank c = false := by
  cases kind with
  | keyword | identifier => exact isBlank_nameStart h
  | symbol => exact (isSymbolStart_iff.1 h).2.2.2
  | number => exact isBlank_digit h
  | string =>
    rw [beq_iff_eq.1 h]
    decide

/-- No reserved word begins with another one. -/
theorem keyword_of_prefix {k k' : Keyword} (h : k'.text.toList <+: k.text.toList) : k' = k := by
  have all :
      ∀ a ∈ Keyword.all, ∀ b ∈ Keyword.all, b.text.toList.isPrefixOf a.text.toList =
        true → b = a := by
    decide
  exact all k (Keyword.mem_all k) k' (Keyword.mem_all k') (List.isPrefixOf_iff_prefix.2 h)

theorem ofText?_text (k : Keyword) : Keyword.ofText? k.text = some k := by cases k <;> decide

/-- No two symbols are spelled alike. -/
theorem symbol_of_text {m m' : Symbol} (h : m.text.toList = m'.text.toList) : m = m' := by
  have all : ∀ a ∈ Symbol.all, ∀ b ∈ Symbol.all, a.text.toList = b.text.toList →
      a = b := by decide
  exact all m (Symbol.mem_all m) m' (Symbol.mem_all m') h

/-- The longer symbols come first. -/
theorem symbol_sorted :
    Symbol.all.Pairwise fun a b => b.text.toList.length ≤ a.text.toList.length := by
  decide

/-! ## The longest word -/

theorem prefix_takeWhile {f : Char → Bool} {word cs : List Char} (h : word <+: cs)
    (chars : ∀ c ∈ word, f c = true) : word <+: cs.takeWhile f := by
  obtain ⟨rest, rfl⟩ := h
  rw [List.takeWhile_append_of_pos chars]
  exact List.prefix_append _ _

/-- A word that matches a terminal is outdone by the one that is read when all terminals are
allowed: this one is no shorter. If both are the same text, then they are of the same kind, or one
is a reserved word and the other a name. -/
def Outdone (cs : List Char) (other : Terminal) (word : List Char) : Prop :=
  ∃ kind text, lexeme? (fun _ => true) cs = some (kind, text) ∧ word.length ≤ text.length ∧
    (word = text → other = kind ∨ ∃ k, other = .identifier ∧ kind = .keyword k)

/-- A text that begins with a name. -/
theorem lexeme_name {c : Char} {rest : List Char} (hc : isNameStart c = true) :
    lexeme? (fun _ => true) (c :: rest) =
      some (match Keyword.ofText? (String.ofList ((c :: rest).takeWhile isNameChar)) with
        | some k => .keyword k
        | none => .identifier, (c :: rest).takeWhile isNameChar) := by
  simp only [lexeme?, hc, word?, if_true]
  cases Keyword.ofText? (String.ofList ((c :: rest).takeWhile isNameChar)) <;> rfl

theorem outdone_keyword {cs : List Char} (k : Keyword) (h : k.text.toList <+: cs) :
    Outdone cs (.keyword k) k.text.toList := by
  obtain ⟨⟨c, rest, htext, hc⟩, chars⟩ := keyword_isName k
  obtain ⟨more, rfl⟩ : ∃ more, cs = c :: more := by
    obtain ⟨after, rfl⟩ := h
    exact ⟨rest ++ after, by rw [htext]; rfl⟩
  refine ⟨_, _, lexeme_name hc, (prefix_takeWhile h chars).length_le, fun same => .inl ?_⟩
  rw [← same, String.ofList_toList, ofText?_text]

theorem outdone_identifier {cs word : List Char} (spelled : Terminal.identifier.Matches word)
    (h : word <+: cs) :
    Outdone cs .identifier word := by
  obtain ⟨c, rest, rfl, hc, hrest⟩ := spelled
  obtain ⟨after, rfl⟩ := h
  have chars : ∀ d ∈ c :: rest, isNameChar d = true :=
    List.forall_mem_cons.2 ⟨isNameChar_of_start hc, hrest⟩
  refine ⟨_, _, lexeme_name hc, (prefix_takeWhile (List.prefix_append _ _) chars).length_le,
    fun _ => ?_⟩
  split
  · exact .inr ⟨_, rfl, rfl⟩
  · exact .inl rfl

/-- The number at the beginning of a text has all the digits before a point. -/
theorem number?_whole (cs : List Char) :
    ∃ text, number? (fun _ => true) cs = some (.number, text) ∧
      cs.takeWhile isDigit <+: text := by
  unfold number?
  rw [if_pos rfl]
  simp only
  split
  · refine ⟨_, rfl, ?_⟩
    split
    · exact List.prefix_rfl
    · exact List.prefix_append _ _
  · exact ⟨_, rfl, List.prefix_rfl⟩

/-- It also has all the digits after a point. -/
theorem number?_fraction {whole fraction : List Char} (rest : List Char)
    (hwhole : ∀ c ∈ whole, isDigit c = true) (hne : fraction ≠ [])
    (hfraction : ∀ c ∈ fraction, isDigit c = true) :
    number? (fun _ => true) (whole ++ '.' :: (fraction ++ rest)) =
      some (.number, whole ++ '.' :: (fraction ++ rest.takeWhile isDigit)) := by
  simp [number?, List.takeWhile_append_of_pos hwhole, List.dropWhile_append_of_pos hwhole,
    isDigit_point, List.takeWhile_append_of_pos hfraction, hne]

theorem lexeme_number {c : Char} {rest : List Char} (admits : Terminal → Bool)
    (hc : isDigit c = true) :
    lexeme? admits (c :: rest) = number? admits (c :: rest) := by
  simp [lexeme?, isNameStart_digit hc, hc]

theorem outdone_number {cs word : List Char} (spelled : Terminal.number.Matches word)
    (h : word <+: cs) :
    Outdone cs .number word := by
  obtain ⟨whole, hne, hwhole, hword⟩ := spelled
  obtain ⟨c, rest, rfl⟩ := List.exists_cons_of_ne_nil hne
  have hc := hwhole c List.mem_cons_self
  obtain ⟨after, rfl⟩ := h
  rcases hword with rfl | ⟨fraction, hfraction, digits, rfl⟩
  · obtain ⟨text, hnumber, whole⟩ := number?_whole (c :: rest ++ after)
    refine ⟨_, text, (lexeme_number _ hc).trans hnumber, ?_, fun _ => .inl rfl⟩
    exact ((prefix_takeWhile (List.prefix_append _ _) hwhole).trans whole).length_le
  · have hnumber := (lexeme_number _ hc).trans (number?_fraction after hwhole hfraction digits)
    refine ⟨.number, c :: rest ++ '.' :: (fraction ++ after.takeWhile isDigit), ?_, ?_,
      fun _ => .inl rfl⟩
    · rw [List.append_assoc]
      exact hnumber
    · rw [← List.cons_append, ← List.append_assoc]
      exact (List.prefix_append _ _).length_le

theorem lexeme_string {rest : List Char} (admits : Terminal → Bool) :
    lexeme? admits ('"' :: rest) = string? admits ('"' :: rest) := by
  have hname : isNameStart '"' = false := by decide
  simp [lexeme?, hname, isDigit_quote]

theorem outdone_string {cs word : List Char} (spelled : Terminal.string.Matches word)
    (h : word <+: cs) :
    Outdone cs .string word := by
  obtain ⟨inside, hinside, rfl⟩ := spelled
  obtain ⟨after, rfl⟩ := h
  have chars : ∀ c ∈ inside, (c != '"') = true := by
    intro c hc
    rw [bne_iff_ne]
    rintro rfl
    exact hinside hc
  refine ⟨.string, _, ?_, Nat.le_refl _, fun _ => .inl rfl⟩
  rw [List.cons_append, lexeme_string]
  simp [string?, List.takeWhile_append_of_pos chars]

theorem lexeme_symbol {c : Char} {rest : List Char} (admits : Terminal → Bool)
    (hc : isSymbolStart c = true) :
    lexeme? admits (c :: rest) = symbol? admits (c :: rest) := by
  obtain ⟨hname, hdigit, hquote, -⟩ := isSymbolStart_iff.1 hc
  simp [lexeme?, hname, hdigit, hquote]

theorem outdone_symbol {cs : List Char} (m : Symbol) (h : m.text.toList <+: cs) :
    Outdone cs (.symbol m) m.text.toList := by
  obtain ⟨c, rest, htext, hc⟩ := symbol_start m
  obtain ⟨more, rfl⟩ : ∃ more, cs = c :: more := by
    obtain ⟨after, rfl⟩ := h
    exact ⟨rest ++ after, by rw [htext]; rfl⟩
  have stands := List.isPrefixOf_iff_prefix.2 h
  obtain ⟨m', hfind⟩ : ∃ m', Symbol.all.find?
    (fun m => m.text.toList.isPrefixOf (c :: more)) = some m' :=
    Option.isSome_iff_exists.1 (List.find?_isSome.2 ⟨m, Symbol.mem_all m, stands⟩)
  refine ⟨.symbol m', m'.text.toList, ?_, ?_, fun same => .inl ?_⟩
  · rw [lexeme_symbol _ hc]
    simp [symbol?, hfind]
  · -- the symbols before the one that is found do not stand here
    obtain ⟨-, before, after, hall, hbefore⟩ := List.find?_eq_some_iff_append.1 hfind
    have sorted := symbol_sorted
    have mem := Symbol.mem_all m
    rw [hall] at sorted mem
    rcases List.mem_append.1 mem with mem | mem
    · have absent := hbefore m mem
      rw [stands] at absent
      cases absent
    · rcases List.mem_cons.1 mem with rfl | mem
      · exact Nat.le_refl _
      · exact List.rel_of_pairwise_cons (List.pairwise_append.1 sorted).2.1 mem
  · rw [symbol_of_text same]

/-- **Where some terminal matches, a word is read, and no match is longer.** -/
theorem lexeme_of_matches {cs word : List Char} {other : Terminal} (spelled : other.Matches word)
    (h : word <+: cs) : Outdone cs other word := by
  cases other with
  | keyword k =>
    rw [show word = k.text.toList from spelled] at h ⊢
    exact outdone_keyword k h
  | symbol m =>
    rw [show word = m.text.toList from spelled] at h ⊢
    exact outdone_symbol m h
  | identifier => exact outdone_identifier spelled h
  | number => exact outdone_number spelled h
  | string => exact outdone_string spelled h

/-! ## The foremost word -/

/-- The word at the beginning of a text when all terminals are allowed: it matches the pattern of a
terminal, no match is longer, and a reserved word is not a name. -/
structure Foremost (cs : List Char) (kind : Terminal) (text : List Char) : Prop where
  spelled : kind.Matches text
  begins : text <+: cs
  longest : ∀ other word, Terminal.Matches other word → word <+: cs →
    word.length ≤ text.length
  reserved : kind = .identifier → ∀ k : Keyword, k.text.toList ≠ text

/-- **What is read when all terminals are allowed is the foremost word.** -/
theorem foremost_iff {cs text : List Char} {kind : Terminal} :
    Foremost cs kind text ↔ lexeme? (fun _ => true) cs = some (kind, text) := by
  constructor
  · intro h
    obtain ⟨kind', text', hlex, long, same⟩ := lexeme_of_matches h.spelled h.begins
    obtain ⟨spelled', begins'⟩ := lexeme_matches hlex
    have within : text' <+: text :=
      List.prefix_of_prefix_length_le begins' h.begins (h.longest kind' text' spelled' begins')
    obtain rfl : text' = text := within.eq_of_length_le long
    rcases same rfl with rfl | ⟨k, rfl, rfl⟩
    · exact hlex
    · exact absurd (Eq.symm spelled') (h.reserved rfl k)
  · intro hlex
    obtain ⟨spelled, begins⟩ := lexeme_matches hlex
    refine ⟨spelled, begins, fun other word hother hword => ?_, ?_⟩
    · obtain ⟨kind', text', hlex', long, -⟩ := lexeme_of_matches hother hword
      rw [hlex] at hlex'
      cases hlex'
      exact long
    · rintro rfl k rfl
      obtain ⟨kind', text', hlex', -, same⟩ := outdone_keyword k begins
      rw [hlex] at hlex'
      cases hlex'
      rcases same rfl with h | ⟨k', h, -⟩ <;> cases h

/-! ## Words that can stand next -/

variable {admits : Terminal → Bool} {cs text : List Char} {kind : Terminal}

theorem word?_of_admits (h : word? (fun _ => true) cs = some (kind, text))
    (hkind : admits kind = true) :
    word? admits cs = some (kind, text) := by
  simp only [word?, if_true] at h
  by_cases hname : admits .identifier = true
  · simp only [word?, hname, if_true]
    split at h <;> cases h
    · rw [if_pos hkind]
    · rfl
  · split at h
    · rename_i k hk
      cases h
      -- of the reserved words only this one begins as the text does
      have spelled : k.text.toList = cs.takeWhile isNameChar := by
        have found := List.find?_some hk
        rw [beq_iff_eq.1 found, String.toList_ofList]
      have begins : k.text.toList <+: cs := spelled ▸ List.takeWhile_prefix _
      have stands := Bool.and_eq_true_iff.2 ⟨hkind, List.isPrefixOf_iff_prefix.2 begins⟩
      obtain ⟨k', hfind⟩ : ∃ k', Keyword.all.find?
          (fun k => admits (.keyword k) && k.text.toList.isPrefixOf cs) = some k' :=
        Option.isSome_iff_exists.1 (List.find?_isSome.2 ⟨k, Keyword.mem_all k, stands⟩)
      have found := List.find?_some hfind
      rw [Bool.and_eq_true, List.isPrefixOf_iff_prefix] at found
      have within := prefix_takeWhile found.2 (keyword_isName k').2
      rw [← spelled] at within
      simp only [word?, hname, Bool.false_eq_true, if_false]
      rw [hfind, keyword_of_prefix within, ← spelled]
      rfl
    · cases h
      exact absurd hkind hname

theorem symbol?_of_admits (h : symbol? (fun _ => true) cs = some (kind, text))
    (hkind : admits kind = true) :
    symbol? admits cs = some (kind, text) := by
  obtain ⟨m, hfind, hm⟩ := Option.map_eq_some_iff.1 h
  cases hm
  obtain ⟨stands, before, after, hall, hbefore⟩ := List.find?_eq_some_iff_append.1 hfind
  have hfind' : Symbol.all.find? (fun m => admits (.symbol m) && m.text.toList.isPrefixOf cs) =
      some m := by
    refine List.find?_eq_some_iff_append.2 ⟨?_, before, after, hall, fun m' hm' => ?_⟩
    · rw [hkind]
      exact stands
    · have absent := hbefore m' hm'
      rw [Bool.true_and, Bool.not_eq_true'] at absent
      rw [absent, Bool.and_false]
      rfl
  rw [symbol?, hfind']
  rfl

theorem number?_of_admits (h : number? (fun _ => true) cs = some (kind, text))
    (hkind : admits kind = true) :
    number? admits cs = some (kind, text) := by
  obtain ⟨text', hnumber, -⟩ := number?_whole cs
  rw [h] at hnumber
  cases hnumber
  rw [← h, number?, number?, if_pos hkind, if_pos rfl]

theorem string?_of_admits (h : string? (fun _ => true) cs = some (kind, text))
    (hkind : admits kind = true) :
    string? admits cs = some (kind, text) := by
  unfold string? at h ⊢
  simp only at h ⊢
  split at h
  · rename_i closed
    cases h
    rw [Bool.true_and] at closed
    rw [hkind, closed]
    rfl
  · cases h

/-- **A foremost word that can stand next is read**, whatever else can stand there. -/
theorem lexeme_of_admits (h : lexeme? (fun _ => true) cs = some (kind, text))
    (hkind : admits kind = true) :
    lexeme? admits cs = some (kind, text) := by
  cases cs with
  | nil => cases h
  | cons c rest =>
    simp only [lexeme?] at h ⊢
    split at h
    · rw [if_pos ‹_›]
      exact word?_of_admits h hkind
    · rw [if_neg ‹_›]
      split at h
      · rw [if_pos ‹_›]
        exact number?_of_admits h hkind
      · rw [if_neg ‹_›]
        split at h
        · rw [if_pos ‹_›]
          exact string?_of_admits h hkind
        · rw [if_neg ‹_›]
          exact symbol?_of_admits h hkind

theorem word?_admitted (h : word? admits cs = some (kind, text)) : admits kind = true := by
  unfold word? at h
  split at h
  · rename_i hname
    simp only at h
    split at h <;> cases h
    · split <;> assumption
    · exact hname
  · obtain ⟨k, hfind, hk⟩ := Option.map_eq_some_iff.1 h
    cases hk
    have found := List.find?_some hfind
    exact (Bool.and_eq_true_iff.1 found).1

theorem number?_admitted (h : number? admits cs = some (kind, text)) : admits kind = true := by
  unfold number? at h
  split at h
  · rename_i hnumber
    simp only at h
    split at h <;> cases h <;> exact hnumber
  · cases h

theorem string?_admitted (h : string? admits cs = some (kind, text)) : admits kind = true := by
  unfold string? at h
  simp only at h
  split at h
  · rename_i closed
    cases h
    exact (Bool.and_eq_true_iff.1 closed).1
  · cases h

theorem symbol?_admitted (h : symbol? admits cs = some (kind, text)) : admits kind = true := by
  obtain ⟨m, hfind, hm⟩ := Option.map_eq_some_iff.1 h
  cases hm
  have found := List.find?_some hfind
  exact (Bool.and_eq_true_iff.1 found).1

/-- A word that is read can stand next. -/
theorem lexeme_admitted (h : lexeme? admits cs = some (kind, text)) : admits kind = true := by
  cases cs with
  | nil => cases h
  | cons c rest =>
    simp only [lexeme?] at h
    split at h
    · exact word?_admitted h
    · split at h
      · exact number?_admitted h
      · split at h
        · exact string?_admitted h
        · exact symbol?_admitted h

/-! ## Gaps -/

/-- Inside a comment a line is skipped. -/
theorem skip_line {inside : List Char} (h : '\n' ∉ inside) (p : Position) (cs : List Char) :
    skip true p (inside ++ cs) = skip true (p.advanceBy inside) cs := by
  induction inside generalizing p with
  | nil => rfl
  | cons c inside ih =>
    have hc : (c != '\n') = true := bne_iff_ne.2 fun heq => h (heq ▸ List.mem_cons_self)
    rw [List.cons_append, skip, if_pos rfl, hc]
    exact ih (fun hmem => h (List.mem_cons_of_mem _ hmem)) _

theorem skip_slashes (p : Position) (cs : List Char) :
    skip false p ('/' :: '/' :: cs) = skip true (p.advanceBy ['/', '/']) cs := by
  simp [skip, Position.advanceBy, show isBlank '/' = false by decide]

/-- **A gap is skipped.** A comment without an end of line may only be at the end of the text. -/
theorem skip_append_gap {last : Bool} {gap : List Char} (h : Gap last gap) (rest : List Char)
    (hlast : last = true → rest = []) (p : Position) :
    skip false p (gap ++ rest) = skip false (p.advanceBy gap) rest := by
  induction h generalizing p with
  | none => rfl
  | blank hc _ ih =>
    rw [List.cons_append, skip, if_neg Bool.false_ne_true, if_pos hc]
    exact ih _
  | @comment inside gap hinside _ ih =>
    have line := skip_line hinside (p.advanceBy ['/', '/']) ('\n' :: (gap ++ rest))
    simp only [List.cons_append, List.append_assoc, skip_slashes, line, skip, if_true]
    rw [show ('\n' != '\n') = false from rfl, ih]
    simp [Position.advanceBy]
  | @lastComment inside hlast' hinside =>
    obtain rfl := hlast hlast'
    simp only [List.cons_append, skip_slashes, skip_line hinside]
    simp [skip, Position.advanceBy]

/-- Nothing is skipped where there is neither a blank nor a comment. -/
theorem skip_stays (p : Position) {c : Char} {rest : List Char} (hblank : isBlank c = false)
    (hcomment : ¬ ['/', '/'] <+: c :: rest) : skip false p (c :: rest) = (p, c :: rest) := by
  rw [skip, if_neg Bool.false_ne_true, if_neg (by simp [hblank]), if_neg]
  intro hslash
  simp only [Bool.and_eq_true, decide_eq_true_eq, beq_iff_eq] at hslash
  obtain ⟨rfl, hnext⟩ := hslash
  obtain ⟨more, hmore⟩ := List.head?_eq_some_iff.1 hnext
  exact hcomment ⟨more, by rw [hmore]; rfl⟩

/-- At a word nothing is skipped, unless it is a comment. -/
theorem skip_word (p : Position) (spelled : kind.Matches text) (begins : text <+: cs)
    (hcomment : ¬ ['/', '/'] <+: cs) : skip false p cs = (p, cs) := by
  obtain ⟨c, word, rfl, hc⟩ := matches_start spelled
  obtain ⟨after, rfl⟩ := begins
  exact skip_stays p (isBlank_of_opens hc) hcomment

/-! ## Texts of foremost words -/

/-- A text that consists of the given words when all terminals are allowed everywhere: between gaps
there are foremost words, but two slashes always begin a comment. -/
inductive Lexed : Position → List Char → List Token → Prop
  | finish {p : Position} {cs : List Char} (h : Gap true cs) : Lexed p cs []
  | word {p : Position} {cs gap rest : List Char} {t : Token} {ts : List Token} (h : Gap false gap)
    (hcs : cs = gap ++ rest) (hcomment : ¬ ['/', '/'] <+: rest)
    (first : Foremost rest t.kind t.text.toList) (start : t.start = p.advanceBy gap)
    (stop : t.stop = t.start.advanceBy t.text.toList)
    (more : Lexed t.stop (rest.drop t.text.toList.length) ts) : Lexed p cs (t :: ts)

/-- The word that is read when all terminals are allowed, before the words after it. -/
theorem Lexed.tokenAt {p : Position} {gap rest : List Char} {ts : List Token} (h : Gap false gap)
    (hcomment : ¬ ['/', '/'] <+: rest) (first : Foremost rest kind text)
    (more : Lexed ((p.advanceBy gap).advanceBy text) (rest.drop text.length) ts) :
    Lexed p (gap ++ rest) (Source.tokenAt (p.advanceBy gap) kind text :: ts) := by
  have spelled : (Source.tokenAt (p.advanceBy gap) kind text).text.toList = text :=
    String.toList_ofList
  refine .word h rfl hcomment ?_ rfl ?_ ?_
  · rw [spelled]
    exact first
  · rw [spelled]
    rfl
  · rw [spelled]
    exact more

theorem readFrom_finish {r : Reader} {last p q : Position} {cs : List Char} {tree : Node}
    (hskip : skip false p cs = (q, [])) (hfinish : r.finish? = some tree) :
    readFrom r last p cs = .ok tree := by
  unfold readFrom
  split
  · rw [hfinish]
  · rename_i heq
    rw [hskip] at heq
    cases heq

theorem readFrom_word {r r' : Reader} {last p q : Position} {cs rest text : List Char} {c : Char}
    {kind : Terminal} (hskip : skip false p cs = (q, c :: rest))
    (hlex : lexeme? r.expecting.admits (c :: rest) = some (kind, text))
    (hstep : r.step? (tokenAt q kind text) = some r') :
    readFrom r last p cs =
      readFrom r' q (tokenAt q kind text).stop ((c :: rest).drop text.length) := by
  rw [readFrom]
  split
  · rename_i heq
    rw [hskip] at heq
    cases heq
  · rename_i heq
    rw [hskip] at heq
    cases heq
    split
    · rename_i hnone
      rw [hlex] at hnone
      cases hnone
    · rename_i hsome
      rw [hlex] at hsome
      cases hsome
      simp only [hstep]

theorem tokenAt_eq {t : Token} (stop : t.stop = t.start.advanceBy t.text.toList) :
    tokenAt t.start t.kind t.text.toList = t := by
  rw [tokenAt, ← stop, String.ofList_toList]

/-- **A text of foremost words that the reader takes is read as these words.** -/
theorem readFrom_lexed {r r' : Reader} {ts : List Token} {tree : Node} (reads : Reads r ts r')
    (hfinish : r'.finish? = some tree) {last p : Position} {cs : List Char}
    (lexed : Lexed p cs ts) :
    readFrom r last p cs = .ok tree ∧ tokensFrom r p cs = ts := by
  induction reads generalizing last p cs with
  | done =>
    cases lexed with
    | finish h =>
      have hskip := skip_append_gap h [] (fun _ => rfl) p
      rw [List.append_nil] at hskip
      exact ⟨readFrom_finish hskip hfinish, tokensFrom_finish hskip⟩
  | @word r r₁ _ t ts admitted step _ ih =>
    cases lexed with
    | @word _ _ gap rest _ _ h hcs hcomment first start stop more =>
      have hskip : skip false p cs = (t.start, rest) := by
        rw [hcs, skip_append_gap h rest nofun, ← start,
          skip_word t.start first.spelled first.begins hcomment]
      have hlex := lexeme_of_admits (foremost_iff.1 first) admitted
      obtain ⟨c, rest', rfl⟩ : ∃ c rest', rest = c :: rest' := by
        cases rest with
        | nil => cases hlex
        | cons c rest' => exact ⟨c, rest', rfl⟩
      have hstep : r.step? (tokenAt t.start t.kind t.text.toList) = some r₁ := by
        rw [tokenAt_eq stop, step]
      rw [readFrom_word hskip hlex hstep, tokensFrom_word hskip hlex hstep, tokenAt_eq stop]
      obtain ⟨hread, htokens⟩ := ih hfinish more
      exact ⟨hread, by rw [htokens]⟩

end Source

open Source

/-- **Where words that do not depend on their place make a program, the reader reads these words.**
If a text consists of foremost words whose kinds are generated by the grammar, then the words that
can stand next are these, and their tree is read; it is the only one that is derived from them. -/
theorem ordinary_words_read (source : String) (ts : List Token)
    (lexed : Lexed .first source.toList ts) (program : Generates .program (ts.map Token.kind)) :
    tokensRead source = ts ∧ ∃ tree, parseRaw source = .ok tree ∧
      ∀ other, Derives .program ts [other] ↔ other = tree := by
  obtain ⟨tree, derived⟩ := formed_of_derives rfl program.derives ts rfl
  obtain ⟨r, reads, hfinish⟩ := derived.program_read
  obtain ⟨read, words⟩ := readFrom_lexed reads hfinish lexed
  refine ⟨words, tree, read, fun other => ⟨derived.program_unique, ?_⟩⟩
  rintro rfl
  exact derived

/-- Without a blank before it, a reserved word after a number is read as such in both ways. -/
theorem ordinary_words_read_or :
    (tokensRead "1or 2;").map Token.text = ["1", "or", "2", ";"] ∧
      ∃ tree, parseRaw "1or 2;" = .ok tree := by
  have lexed : Lexed .first ['1', 'o', 'r', ' ', '2', ';']
      [tokenAt ⟨1, 1⟩ .number ['1'], tokenAt ⟨1, 2⟩ (.keyword .orWord) ['o', 'r'],
        tokenAt ⟨1, 5⟩ .number ['2'], tokenAt ⟨1, 6⟩ (.symbol .semicolon) [';']] :=
    .tokenAt .none (by decide) (foremost_iff.2 (by cbv)) <|
    .tokenAt .none (by decide) (foremost_iff.2 (by cbv)) <|
    .tokenAt (.blank (c := ' ') (by decide) .none) (by decide) (foremost_iff.2 (by cbv)) <|
    .tokenAt .none (by decide) (foremost_iff.2 (by cbv)) <| .finish .none
  have number : Generates (.level 9) [.number] := .operand (by decide)
  have both : Generates (.level 1) ([.number] ++ .keyword .orWord :: [.number]) :=
    (number.level_le (by decide)).binary (by decide) (number.level_le (by decide))
  have program := Generates.program (.oneMore .noItems (.ofStatement (.ofExpressionStmt
    (.expressionStmt both.nextLevel))))
  obtain ⟨words, tree, read, -⟩ := ordinary_words_read "1or 2;" _ lexed program
  exact ⟨by rw [words]; rfl, tree, read⟩

end LoxLang
