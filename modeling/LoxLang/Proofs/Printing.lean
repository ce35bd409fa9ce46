import LoxLang.Proofs.Lexing
import LoxLang.Proofs.Relocation

/-!
# Writing a tree

A tree of the grammar says which words it was made of, punctuation and plain reserved words
included. The words with single blanks between them are a text, and reading this text gives the tree
again, up to positions.

* `Node.words`: the words of a tree; `Node.written`: the text that they make.
* `Token.Spelled`: a word that matches the pattern of its terminal and is not a reserved word as a
  name.

Results: `Derives.words_eq` — the words of a tree are those that it is derived from;
`foremost_before_blank` — a word that is spelled as its terminal says is the foremost word before
a blank; `lexed_spaced` — words with blanks between them are a text of foremost words;
`written_program_read` — a tree that is written is read again.
-/

set_option autoImplicit false

namespace LoxLang

open Text (isDigit isBlank)

/-! ## The words of a tree -/

/-- A word and the words that follow it, if there are any. -/
def led (word : String) (words : List String) : List String :=
  if words.isEmpty then [] else word :: words

/-- Words with commas between them. -/
def commaSeparated (parts : List (List String)) : List String :=
  [Symbol.comma.text].intercalate parts

/-- The words of a tree with a given label whose parts have the given words. -/
def Label.words : Label → List (List String) → List String
  | .functionDecl, [name, params, body] => Keyword.funWord.text ::
      (name ++ Symbol.leftParen.text :: (params ++ Symbol.rightParen.text :: body))
  | .parameters, names => commaSeparated names
  | .variableDecl, [name, value] =>
    Keyword.varWord.text :: (name ++ (led Symbol.equal.text value ++ [Symbol.semicolon.text]))
  | .expressionStmt, [value] => value ++ [Symbol.semicolon.text]
  | .printStmt, [value] => Keyword.printWord.text :: (value ++ [Symbol.semicolon.text])
  | .returnStmt, [value] => Keyword.returnWord.text :: (value ++ [Symbol.semicolon.text])
  | .ifStmt, [test, yes, no] => Keyword.ifWord.text :: Symbol.leftParen.text ::
      (test ++ Symbol.rightParen.text :: (yes ++ led Keyword.elseWord.text no))
  | .whileStmt, [test, body] => Keyword.whileWord.text :: Symbol.leftParen.text ::
      (test ++ Symbol.rightParen.text :: body)
  | .forStmt, [init, test, step, body] => Keyword.forWord.text :: Symbol.leftParen.text ::
      (init ++ (test ++ Symbol.semicolon.text :: (step ++ Symbol.rightParen.text :: body)))
  | .forClause, [] => [Symbol.semicolon.text]
  | .block, items => Symbol.leftBrace.text :: (items.flatten ++ [Symbol.rightBrace.text])
  | .assign, [name, value] => name ++ Symbol.equal.text :: value
  | .call, [callee, args] => callee ++ Symbol.leftParen.text :: (args ++ [Symbol.rightParen.text])
  | .arguments, args => commaSeparated args
  | .trueLit, _ => [Keyword.trueWord.text]
  | .falseLit, _ => [Keyword.falseWord.text]
  | .nilLit, _ => [Keyword.nilWord.text]
  | .grouping, [inner] => Symbol.leftParen.text :: (inner ++ [Symbol.rightParen.text])
  | _, parts => parts.flatten

namespace Node

mutual

/-- The words of a tree. -/
def words : Node → List String
  | .tree label parts _ => label.words (wordsAll parts)
  | .word _ text _ => [text]
  | _ => []

/-- The words of several trees. -/
def wordsAll : List Node → List (List String)
  | [] => []
  | node :: rest => node.words :: wordsAll rest

end

/-- A tree as a text: its words with single blanks between them. -/
def written (n : Node) : String := " ".intercalate n.words

theorem wordsAll_eq (ns : List Node) : wordsAll ns = ns.map words := by
  induction ns with
  | nil => rfl
  | cons n ns ih => simp [wordsAll, ih]

end Node

/-- A word that is spelled as its kind says; a name is no reserved word. -/
structure Token.Spelled (t : Token) : Prop where
  spelled : t.kind.Matches t.text.toList
  unreserved : t.kind = .identifier → Keyword.ofText? t.text = none

namespace Token.Spelled

variable {t : Token} (h : t.Spelled)
include h

theorem keyword {k : Keyword} (hk : t.kind = .keyword k) : t.text = k.text := by
  have spelled := h.spelled
  rw [hk] at spelled
  exact String.toList_inj.1 spelled

theorem symbol {m : Symbol} (hm : t.kind = .symbol m) : t.text = m.text := by
  have spelled := h.spelled
  rw [hm] at spelled
  exact String.toList_inj.1 spelled

end Token.Spelled

namespace Source

/-- The words of a phrase whose nodes have the given words. -/
def Phrase.words : Phrase → List (List String) → List String
  | .names, parts => commaSeparated parts
  | .expressions, parts => commaSeparated parts
  | .initializer, parts => led Symbol.equal.text parts.flatten
  | .elsePart, parts => led Keyword.elseWord.text parts.flatten
  | .optional p, parts => p.words parts
  | _, parts => parts.flatten

@[simp] theorem words_phraseNode (label : Label) (ts : List Token) (parts : List Node) :
    (phraseNode label ts parts).words = label.words (parts.map Node.words) := by
  rw [phraseNode, Node.words, Node.wordsAll_eq]

@[simp] theorem words_node (t : Token) : t.node.words = [t.text] := by rw [Token.node, Node.words]

theorem commaSeparated_snoc {parts : List (List String)} (part : List String) (h : parts ≠ []) :
    commaSeparated (parts ++ [part]) = commaSeparated parts ++ Symbol.comma.text :: part := by
  induction parts with
  | nil => exact absurd rfl h
  | cons first rest ih =>
    cases rest with
    | nil => simp [commaSeparated]
    | cons second rest =>
      have inner := ih (List.cons_ne_nil _ _)
      simp only [commaSeparated, List.cons_append, List.intercalate_cons_cons] at inner ⊢
      rw [inner]
      simp

theorem Phrase.words_absent (p : Phrase) : p.words [[]] = [] := by
  induction p with
  | optional p ih => exact ih
  | _ => rfl

theorem led_eq {word : String} {ts : List Token} (h : ts ≠ []) :
    led word (ts.map Token.text) = word :: ts.map Token.text := by
  simp [led, h]

theorem Derives.nodes_ne_nil {p : Phrase} {ts : List Token} {ns : List Node} (h : Derives p ts ns)
    (hp : p = .names ∨ p = .expressions) : ns ≠ [] := by
  rcases hp with rfl | rfl <;> cases h <;> simp

/-- **The words of a tree are those that it is derived from.** -/
theorem Derives.words_eq {p : Phrase} {ts : List Token} {ns : List Node} (h : Derives p ts ns)
    (spelled : ∀ t ∈ ts, t.Spelled) : p.words (ns.map Node.words) = ts.map Token.text := by
  induction h with
  | program _ ih => simpa [Phrase.words, Label.words] using ih spelled
  | noItems => rfl
  | oneMore _ _ words ihs ih =>
    subst words
    simp only [List.forall_mem_append] at spelled
    have items := ihs spelled.1
    have item := ih spelled.2
    simp only [Phrase.words, List.map_cons, List.map_nil, List.flatten_singleton] at items item
    simp [Phrase.words, items, item]
  | functionDecl hstart hname hleft _ hright _ words ihp ihb =>
    subst words
    simp only [List.forall_mem_cons, List.forall_mem_append] at spelled
    obtain ⟨sstart, -, sleft, sps, sright, sbs⟩ := spelled
    have params := ihp sps
    have body := ihb sbs
    simp only [Phrase.words, List.map_cons, List.map_nil, List.flatten_singleton] at params body
    simp [Phrase.words, Label.words, params, body, sstart.keyword hstart, sleft.symbol hleft,
      sright.symbol hright]
  | ofVariableDecl _ ih | ofStatement _ ih | ofExpressionStmt _ ih | ofBlock _ ih | nextLevel _ ih
  | present _ ih => exact ih spelled
  | argument _ ih => simpa [Phrase.words, commaSeparated] using ih spelled
  | parameters _ ih | arguments _ ih => simpa [Phrase.words, Label.words] using ih spelled
  | name => simp [Phrase.words, commaSeparated]
  | nextName names hcomma ht words ih =>
    subst words
    simp only [List.forall_mem_cons, List.forall_mem_append] at spelled
    obtain ⟨sus, scomma, -⟩ := spelled
    have first := ih sus
    have some : List.map Node.words _ ≠ [] :=
      List.map_eq_nil_iff.not.2 (names.nodes_ne_nil (.inl rfl))
    simp only [Phrase.words] at first
    simp [Phrase.words, commaSeparated_snoc _ some, first, scomma.symbol hcomma]
  | nextArgument items hcomma _ words ihs ih =>
    subst words
    simp only [List.forall_mem_cons, List.forall_mem_append] at spelled
    obtain ⟨sus, scomma, svs⟩ := spelled
    have first := ihs sus
    have item := ih svs
    have some : List.map Node.words _ ≠ [] :=
      List.map_eq_nil_iff.not.2 (items.nodes_ne_nil (.inr rfl))
    simp only [Phrase.words, List.map_cons, List.map_nil, List.flatten_singleton] at first item
    simp [Phrase.words, commaSeparated_snoc _ some, first, item, scomma.symbol hcomma]
  | variableDecl hstart hname _ hstop words ih =>
    subst words
    simp only [List.forall_mem_cons, List.forall_mem_append] at spelled
    obtain ⟨sstart, -, svs, sstop, -⟩ := spelled
    have value := ih svs
    simp only [Phrase.words, List.map_cons, List.map_nil, List.flatten_singleton] at value
    simp [Phrase.words, Label.words, value, sstart.keyword hstart, sstop.symbol hstop]
  | initializer hequal expr words ih =>
    subst words
    simp only [List.forall_mem_cons] at spelled
    have value := ih spelled.2
    simp only [Phrase.words, List.map_cons, List.map_nil, List.flatten_singleton] at value
    simp [Phrase.words, value, led_eq (expr.ne_nil rfl), spelled.1.symbol hequal]
  | elsePart hstart branch words ih =>
    subst words
    simp only [List.forall_mem_cons] at spelled
    have no := ih spelled.2
    simp only [Phrase.words, List.map_cons, List.map_nil, List.flatten_singleton] at no
    simp [Phrase.words, no, led_eq (branch.ne_nil rfl), spelled.1.keyword hstart]
  | expressionStmt _ hstop words ih =>
    subst words
    simp only [List.forall_mem_cons, List.forall_mem_append] at spelled
    have value := ih spelled.1
    simp only [Phrase.words, List.map_cons, List.map_nil, List.flatten_singleton] at value
    simp [Phrase.words, Label.words, value, spelled.2.1.symbol hstop]
  | printStmt hstart _ hstop words ih =>
    subst words
    simp only [List.forall_mem_cons, List.forall_mem_append] at spelled
    obtain ⟨sstart, svs, sstop, -⟩ := spelled
    have value := ih svs
    simp only [Phrase.words, List.map_cons, List.map_nil, List.flatten_singleton] at value
    simp [Phrase.words, Label.words, value, sstart.keyword hstart, sstop.symbol hstop]
  | returnStmt hstart _ hstop words ih =>
    subst words
    simp only [List.forall_mem_cons, List.forall_mem_append] at spelled
    obtain ⟨sstart, svs, sstop, -⟩ := spelled
    have value := ih svs
    simp only [Phrase.words, List.map_cons, List.map_nil, List.flatten_singleton] at value
    simp [Phrase.words, Label.words, value, sstart.keyword hstart, sstop.symbol hstop]
  | ifStmt hstart hleft _ hright _ _ _ words iht ihy ihn =>
    subst words
    simp only [List.forall_mem_cons, List.forall_mem_append] at spelled
    obtain ⟨sstart, sleft, ses, sright, sys, sos⟩ := spelled
    have test := iht ses
    have yes := ihy sys
    have no := ihn sos
    simp only [Phrase.words, List.map_cons, List.map_nil, List.flatten_singleton] at test yes no
    simp [Phrase.words, Label.words, test, yes, no, sstart.keyword hstart, sleft.symbol hleft,
      sright.symbol hright]
  | whileStmt hstart hleft _ hright _ words iht ihb =>
    subst words
    simp only [List.forall_mem_cons, List.forall_mem_append] at spelled
    obtain ⟨sstart, sleft, ses, sright, sbs⟩ := spelled
    have test := iht ses
    have body := ihb sbs
    simp only [Phrase.words, List.map_cons, List.map_nil, List.flatten_singleton] at test body
    simp [Phrase.words, Label.words, test, body, sstart.keyword hstart, sleft.symbol hleft,
      sright.symbol hright]
  | forStmt hstart hleft _ _ hstop _ hright _ words ihi iht ihs ihb =>
    subst words
    simp only [List.forall_mem_cons, List.forall_mem_append] at spelled
    obtain ⟨sstart, sleft, scs, ses, sstop, sss, sright, sbs⟩ := spelled
    have init := ihi scs
    have test := iht ses
    have step := ihs sss
    have body := ihb sbs
    simp only [Phrase.words, List.map_cons, List.map_nil,
      List.flatten_singleton] at init test step body
    simp [Phrase.words, Label.words, init, test, step, body, sstart.keyword hstart,
      sleft.symbol hleft, sstop.symbol hstop, sright.symbol hright]
  | variableClause _ ih | expressionClause _ ih =>
    simpa [Phrase.words, Label.words] using ih spelled
  | emptyClause ht =>
    simp only [List.forall_mem_singleton] at spelled
    simp [Phrase.words, Label.words, spelled.symbol ht]
  | block hstart _ hstop words ih =>
    subst words
    simp only [List.forall_mem_cons, List.forall_mem_append] at spelled
    obtain ⟨sstart, sus, sstop, -⟩ := spelled
    have items := ih sus
    simp only [Phrase.words] at items
    simp [Phrase.words, Label.words, items, sstart.symbol hstart, sstop.symbol hstop]
  | assign hname hequal _ words ih =>
    subst words
    simp only [List.forall_mem_cons] at spelled
    obtain ⟨-, sequal, svs⟩ := spelled
    have value := ih svs
    simp only [Phrase.words, List.map_cons, List.map_nil, List.flatten_singleton] at value
    simp [Phrase.words, Label.words, value, sequal.symbol hequal]
  | @binary i _ _ _ _ _ _ _ hop _ words ihl ihr =>
    subst words
    simp only [List.forall_mem_cons, List.forall_mem_append] at spelled
    obtain ⟨sls, -, srs⟩ := spelled
    have left := ihl sls
    have right := ihr srs
    simp only [Phrase.words, List.map_cons, List.map_nil, List.flatten_singleton] at left right
    have label : (operatorLabel i).words = List.flatten := by
      unfold operatorLabel
      split <;> rfl
    simp [Phrase.words, label, left, right]
  | unary hop _ words ih =>
    subst words
    simp only [List.forall_mem_cons] at spelled
    have operand := ih spelled.2
    simp only [Phrase.words, List.map_cons, List.map_nil, List.flatten_singleton] at operand
    simp [Phrase.words, Label.words, operand]
  | call _ hleft _ hright words ihc iha =>
    subst words
    simp only [List.forall_mem_cons, List.forall_mem_append] at spelled
    obtain ⟨scs, sleft, sas, sright, -⟩ := spelled
    have callee := ihc scs
    have args := iha sas
    simp only [Phrase.words, List.map_cons, List.map_nil, List.flatten_singleton] at callee args
    simp [Phrase.words, Label.words, callee, args, sleft.symbol hleft, sright.symbol hright]
  | constant => simp [Phrase.words]
  | trueLit ht | falseLit ht | nilLit ht =>
    simp only [List.forall_mem_singleton] at spelled
    simp [Phrase.words, Label.words, spelled.keyword ht]
  | reference => simp [Phrase.words, Label.words]
  | grouping hleft _ hright words ih =>
    subst words
    simp only [List.forall_mem_cons, List.forall_mem_append] at spelled
    obtain ⟨sleft, ses, sright, -⟩ := spelled
    have inner := ih ses
    simp only [Phrase.words, List.map_cons, List.map_nil, List.flatten_singleton] at inner
    simp [Phrase.words, Label.words, inner, sleft.symbol hleft, sright.symbol hright]
  | missing => exact Phrase.words_absent _

/-! ## Words before blanks -/

variable {kind : Terminal} {text rest : List Char}

theorem isBlank_nameChar {c : Char} (h : isNameChar c = true) : isBlank c = false := by
  simp only [isNameChar, Bool.or_eq_true, Char.isAlphanum, beq_iff_eq] at h
  rcases h with (h | h) | rfl
  · exact isBlank_nameStart (by simp [isNameStart, h])
  · rw [show isBlank c = Text.isBlankCode c.toNat from rfl]
    simp only [Char.isDigit, Bool.and_eq_true, decide_eq_true_eq, UInt32.le_iff_toNat_le,
      ge_iff_le] at h
    simp only [Text.isBlankCode, Char.toNat, Bool.or_eq_false_iff, Bool.and_eq_false_imp,
      decide_eq_true_eq, decide_eq_false_iff_not, beq_eq_false_iff_ne]
    have low : 48 ≤ c.val.toNat := h.1
    have high : c.val.toNat ≤ 57 := h.2
    omega
  · decide

/-- Only strings have blanks in them. -/
theorem matches_unblank (spelled : kind.Matches text) (hkind : kind ≠ .string) :
    ∀ c ∈ text, isBlank c = false := by
  intro c hc
  cases kind with
  | keyword k =>
    rw [show text = k.text.toList from spelled] at hc
    exact isBlank_nameChar ((keyword_isName k).2 c hc)
  | symbol m =>
    rw [show text = m.text.toList from spelled] at hc
    have checked : m.text.toList.all (fun c => !isBlank c) = true := by cases m <;> decide
    simpa using List.all_eq_true.1 checked c hc
  | identifier =>
    obtain ⟨d, more, rfl, hd, hmore⟩ := spelled
    rcases List.mem_cons.1 hc with rfl | hc
    · exact isBlank_nameStart hd
    · exact isBlank_nameChar (hmore c hc)
  | number =>
    obtain ⟨whole, -, hwhole, rfl | ⟨fraction, -, hfraction, rfl⟩⟩ := spelled
    · exact isBlank_digit (hwhole c hc)
    · rcases List.mem_append.1 hc with hc | hc
      · exact isBlank_digit (hwhole c hc)
      · rcases List.mem_cons.1 hc with rfl | hc
        · decide
        · exact isBlank_digit (hfraction c hc)
  | string => exact absurd rfl hkind

/-- A word that begins with a quotation mark is a string. -/
theorem string_of_opens (h : opens kind '"' = true) : kind = .string := by
  have name : isNameStart '"' = false := by decide
  cases kind with
  | keyword | identifier => exact absurd h (by simp [opens, name])
  | number => exact absurd h (by simp [opens, isDigit_quote])
  | symbol => exact absurd rfl (isSymbolStart_iff.1 h).2.2.1
  | string => rfl

/-- A word that begins with a slash has no other character. -/
theorem matches_slash {word : List Char} (spelled : kind.Matches ('/' :: word)) : word = [] := by
  obtain ⟨c, more, htext, hc⟩ := matches_start spelled
  cases htext
  have name : isNameStart '/' = false := by decide
  have digit : isDigit '/' = false := by decide +kernel
  cases kind with
  | keyword | identifier => exact absurd hc (by simp [opens, name])
  | number => exact absurd hc (by simp [opens, digit])
  | string => exact absurd hc (by decide)
  | symbol m =>
    have checked : m.text.toList.head? = some '/' → m.text.toList.tail = [] := by
      cases m <;> decide
    rw [← show '/' :: word = m.text.toList from spelled] at checked
    exact checked rfl

/-- No string begins with another one. -/
theorem string_not_longer {word : List Char} (spelled : Terminal.string.Matches text)
    (spelled' : Terminal.string.Matches word) (h : text <+: word) :
    word.length ≤ text.length := by
  obtain ⟨inside, -, rfl⟩ := spelled
  obtain ⟨inside', hinside', rfl⟩ := spelled'
  have within := (List.cons_prefix_cons.1 h).2
  rcases List.prefix_concat_iff.1 within with same | within
  · rw [same]
  · exact absurd (within.subset (by simp)) hinside'

/-- **Before a blank, a word that is spelled as its terminal says is the foremost word.** -/
theorem foremost_before_blank (spelled : kind.Matches text)
    (unreserved : kind = .identifier → ∀ k : Keyword, k.text.toList ≠ text)
    (hrest : ∀ c ∈ rest.head?, isBlank c = true) : Foremost (text ++ rest) kind text := by
  refine ⟨spelled, List.prefix_append _ _, fun other word hother hword => ?_, unreserved⟩
  by_contra long
  have within : text <+: word :=
    List.prefix_of_prefix_length_le (List.prefix_append _ _) hword (Nat.le_of_not_le long)
  by_cases hstring : other = .string
  · -- then the word is a string too
    subst hstring
    obtain ⟨c, more, rfl, hc⟩ := matches_start spelled
    obtain ⟨d, more', rfl, hd⟩ := matches_start hother
    obtain rfl : d = '"' := beq_iff_eq.1 hd
    obtain ⟨rfl, -⟩ := List.cons_prefix_cons.1 within
    obtain rfl := string_of_opens hc
    exact long (string_not_longer spelled hother within)
  · -- a longer word would have the blank in it
    obtain ⟨after, rfl⟩ := within
    cases after with
    | nil => exact long (by simp)
    | cons c after =>
      obtain ⟨more, rfl⟩ := (List.prefix_append_right_inj text).1 hword
      have unblank := matches_unblank hother hstring c (by simp)
      rw [hrest c rfl] at unblank
      cases unblank

/-! ## Words with blanks between them -/

theorem unreserved_of_ofText? {s : String} (h : Keyword.ofText? s = none) (k : Keyword) :
    k.text.toList ≠ s.toList := by
  intro same
  rw [← String.toList_inj.1 same, ofText?_text] at h
  cases h

/-- A word that is spelled right and what comes after it, if that is nothing or begins with a
blank. -/
theorem lexed_spelled {t : Token} (spelled : t.Spelled) {p : Position} {gap : List Char}
    {us : List Token} (h : Gap false gap) (hrest : ∀ c ∈ rest.head?, isBlank c = true)
    (more : Lexed ((p.advanceBy gap).advanceBy t.text.toList) rest us) :
    Lexed p (gap ++ (t.text.toList ++ rest))
      (tokenAt (p.advanceBy gap) t.kind t.text.toList :: us) := by
  refine .tokenAt h ?_ (foremost_before_blank spelled.spelled ?_ hrest) ?_
  · intro hcomment
    obtain ⟨c, word, htext, -⟩ := matches_start spelled.spelled
    have matched := spelled.spelled
    rw [htext] at hcomment matched
    obtain ⟨rfl, hnext⟩ := List.cons_prefix_cons.1 hcomment
    obtain rfl := matches_slash matched
    obtain ⟨after, rfl⟩ := hnext
    exact absurd (hrest '/' rfl) (by decide)
  · exact fun hkind => unreserved_of_ofText? (spelled.unreserved hkind)
  · rw [List.drop_left]
    exact more

/-- **Words with blanks between them are a text of foremost words.** -/
theorem lexed_spaced {t : Token} {ts : List Token} (spelled : ∀ u ∈ t :: ts, u.Spelled)
    (p : Position) {gap : List Char} (h : Gap false gap) :
    ∃ us, Lexed p (gap ++ [' '].intercalate ((t :: ts).map fun u => u.text.toList)) us ∧
      us.map Token.unplaced = (t :: ts).map Token.unplaced := by
  induction ts generalizing t p gap with
  | nil =>
    refine ⟨[tokenAt (p.advanceBy gap) t.kind t.text.toList],
      ?_, by simp [Token.unplaced, tokenAt]⟩
    have lexed := lexed_spelled (spelled t List.mem_cons_self) (p := p) h (by simp) (.finish .none)
    rw [List.append_nil] at lexed
    simpa using lexed
  | cons u ts ih =>
    obtain ⟨us, lexed, same⟩ := @ih u (fun v hv => spelled v (List.mem_cons_of_mem _ hv))
      ((p.advanceBy gap).advanceBy t.text.toList) [' '] (.blank (by decide) .none)
    refine ⟨tokenAt (p.advanceBy gap) t.kind t.text.toList :: us, ?_, ?_⟩
    · have blank :
          ∀ c ∈ (' ' :: [' '].intercalate ((u :: ts).map fun u => u.text.toList)).head?,
            isBlank c = true := by
        intro c hc
        cases hc
        decide
      simpa using lexed_spelled (spelled t List.mem_cons_self) (p := p) h blank lexed
    · rw [List.map_cons, List.map_cons, same]
      simp [Token.unplaced, tokenAt]

end Source

open Source

/-- **A tree that is written is read again.** For every tree that the grammar derives from words
that are spelled as their kinds say, reading the words of the tree with single blanks between them
succeeds and gives the tree up to positions; and the form that is run is the one of this tree. -/
theorem written_program_read (ts : List Token) (tree : Node) (h : Derives .program ts [tree])
    (spelled : ∀ t ∈ ts, t.Spelled) :
    (∃ read, parseRaw tree.written = .ok read ∧ read.Coincides tree) ∧
      ∃ program, parse tree.written = .ok program ∧ program.Coincides tree.lower := by
  obtain ⟨us, lexed, same⟩ : ∃ us, Lexed .first tree.written.toList us ∧
      us.map Token.unplaced = ts.map Token.unplaced := by
    have words := h.words_eq spelled
    simp only [Phrase.words, List.map_cons, List.map_nil, List.flatten_singleton] at words
    rw [Node.written, words, String.toList_intercalate, List.map_map]
    cases ts with
    | nil => exact ⟨[], .finish .none, rfl⟩
    | cons t ts => exact lexed_spaced spelled .first .none
  have kinds : us.map Token.kind = ts.map Token.kind := by
    have first := congrArg (List.map Prod.fst) same
    rwa [List.map_map, List.map_map] at first
  have generated := h.generates rfl
  rw [← kinds] at generated
  obtain ⟨read, derived⟩ := formed_of_derives rfl generated.derives us rfl
  obtain ⟨r, reads, hfinish⟩ := derived.program_read
  obtain ⟨raw, -⟩ := readFrom_lexed reads hfinish lexed
  have coincides : read.Coincides tree := h.coincides derived same.symm
  refine ⟨⟨read, raw, coincides⟩, read.lower, ?_, coincides.lower⟩
  rw [parse, show parseRaw tree.written = _ from raw]
  rfl

/-- An assignment, with words that stand at one place. -/
theorem written_program_read_assign :
    ∃ tree : Node, tree.written = "a = nil ;" ∧
      (∃ read, parseRaw tree.written = .ok read ∧ read.Coincides tree) ∧
        ∃ program, parse tree.written = .ok program ∧ program.Coincides tree.lower := by
  let name : Token := ⟨.identifier, "a", .first, .first⟩
  let equal : Token := ⟨.symbol .equal, "=", .first, .first⟩
  let value : Token := ⟨.keyword .nilWord, "nil", .first, .first⟩
  let stop : Token := ⟨.symbol .semicolon, ";", .first, .first⟩
  have literal : Derives (.level 0) [value] [phraseNode .nilLit [value] []] :=
    Derives.level_le (.nilLit rfl) (Nat.zero_le 9)
  have assigned : Derives (.level 0) [name, equal, value]
      [phraseNode .assign [name, equal, value] [name.node, phraseNode .nilLit [value] []]] :=
    .assign rfl rfl literal rfl
  have statement : Derives .expressionStmt [name, equal, value, stop] [_] :=
    .expressionStmt assigned rfl rfl
  have program :=
    Derives.program (.oneMore .noItems (.ofStatement (.ofExpressionStmt statement)) rfl)
  have spelled : ∀ t ∈ [name, equal, value, stop], t.Spelled := by
    simp only [List.forall_mem_cons, List.not_mem_nil, false_implies, implies_true, and_true]
    refine ⟨⟨⟨'a', [], ?_, by decide, by simp⟩, by decide⟩, ⟨rfl, nofun⟩,
      ⟨rfl, nofun⟩, ⟨rfl, nofun⟩⟩
    show "a".toList = ['a']
    decide
  exact ⟨_, by cbv, written_program_read _ _ program spelled⟩

end LoxLang
