import LoxLang.Proofs.Scanning

/-!
# Reserved words as names

A word is cut from the text with the terminals in mind that can stand at its place. Where a reserved
word cannot stand but a name can, it is a name: so variables, functions and parameters may be called
like reserved words, and a word such as `or` is a name at the beginning of an expression. This
happens nowhere else: a word that is spelled like a reserved word is a name exactly if no program
goes on with the reserved word there.

Results: `lexeme_reserved` — what is read where a reserved word is spelled;
`reserved_words_declared` — every reserved word can be declared; `reserved_words_as_names` —
where reserved words are names.
-/

set_option autoImplicit false

namespace LoxLang

namespace Source

/-- The reader before the words that are left, and the words before it. -/
theorem Scans.split {r r' : Reader} {p : Position} {cs : List Char} {us ts : List Token}
    (h : Scans r p cs (us ++ ts) r') :
    ∃ r₁ q ds, Reads r us r₁ ∧ Scans r₁ q ds ts r' := by
  induction us generalizing r p cs with
  | nil => exact ⟨r, p, cs, .done, h⟩
  | cons u us ih =>
    cases h with
    | word _ _ _ lexeme step more =>
      obtain ⟨r₁, q, ds, reads, rest⟩ := ih more
      exact ⟨r₁, q, ds, .word (lexeme_admitted lexeme) step reads, rest⟩

/-- What is spelled like a reserved word is this reserved word or a name. -/
theorem matches_reserved {kind : Terminal} {k : Keyword} (h : kind.Matches k.text.toList) :
    kind = .keyword k ∨ kind = .identifier := by
  obtain ⟨⟨c, rest, htext, start⟩, -⟩ := keyword_isName k
  obtain ⟨c', rest', htext', hc⟩ := matches_start h
  obtain ⟨rfl, -⟩ := List.cons.inj (htext.symm.trans htext')
  cases kind with
  | keyword k' =>
    have same : k.text.toList = k'.text.toList := h
    exact .inl (congrArg Terminal.keyword (Eq.symm <| keyword_of_prefix (same ▸ List.prefix_rfl)))
  | identifier => exact .inr rfl
  | number =>
    rw [isNameStart_digit hc] at start
    cases start
  | string =>
    rw [beq_iff_eq.1 hc] at start
    exact absurd start (by decide)
  | symbol m =>
    rw [(isSymbolStart_iff.1 hc).1] at start
    cases start

/-- Where a reserved word can stand, no name is spelled like it. -/
theorem lexeme_reserved {admits : Terminal → Bool} {cs : List Char} {k : Keyword}
    (h : lexeme? admits cs = some (.identifier, k.text.toList)) : admits (.keyword k) = false := by
  have named := lexeme_admitted h
  obtain ⟨⟨c, rest, hname, hc, -⟩, begins⟩ := lexeme_matches h
  obtain ⟨more, rfl⟩ := begins
  rw [hname, List.cons_append, lexeme?, if_pos hc, ← List.cons_append, ← hname] at h
  simp only [word?, named, if_true] at h
  have longest : (k.text.toList ++ more).takeWhile isNameChar = k.text.toList := by
    split at h <;> exact (Prod.mk.inj (Option.some.inj h)).2
  rw [longest, String.ofList_toList, ofText?_text] at h
  by_contra admitted
  rw [Bool.not_eq_false] at admitted
  simp [admitted] at h

end Source

open Source

/-- **A word that is spelled like a reserved word is a name exactly if no program goes on with the
reserved word there.** -/
theorem token_reserved {source : String} {tree : Node} (h : parseRaw source = .ok tree)
    {us vs : List Token}
    {t : Token} {k : Keyword} (words : tokensRead source = us ++ t :: vs)
    (spelled : t.text = k.text) :
    (t.kind = .keyword k ∨ t.kind = .identifier) ∧
      (t.kind = .identifier ↔ ¬ Viable (us.map Token.kind ++ [.keyword k])) := by
  obtain ⟨r', scans, -⟩ := scans_of_readFrom h
  rw [show tokensFrom .init .first source.toList = us ++ t :: vs from words] at scans
  obtain ⟨r, q, ds, reads, rest⟩ := scans.split
  cases rest with
  | @word _ r₁ _ _ start gap text after kind _ _ _ _ lexeme step _ =>
    obtain rfl : text = k.text.toList := by
      rw [← show String.ofList text = k.text from spelled, String.toList_ofList]
    have kinds := matches_reserved (lexeme_matches lexeme).1
    refine ⟨kinds, fun hkind => ?_, fun impossible => ?_⟩
    · -- if the reserved word could stand here, it would have been read
      rintro ⟨more, program⟩
      rw [List.append_assoc] at program
      obtain ⟨admitted, -⟩ :=
        @Reads.takes r us ⟨.keyword k, "", .first, .first⟩ more reads program
      cases (show kind = .identifier from hkind)
      rw [lexeme_reserved lexeme] at admitted
      cases admitted
    · rcases kinds with rfl | hkind
      · have taken := reads.append (.single (lexeme_admitted lexeme) step)
        refine absurd (taken.took Reader.init_took).viable ?_
        simpa [tokenAt] using impossible
      · exact hkind

/-- **Every reserved word can be declared**: where the name of a variable is awaited, no reserved
word can stand. -/
theorem reserved_words_declared (k : Keyword) :
    ∃ program place, parse ("var " ++ k.text ++ ";") = .ok program ∧
      program.Contains (.word (.terminal .identifier) k.text place) := by
  let first := tokenAt .first (.keyword .varWord) "var".toList
  let name := tokenAt ⟨1, 5⟩ .identifier k.text.toList
  let last := tokenAt name.stop (.symbol .semicolon) ";".toList
  let declared : Node := .tree .variableDecl [name.node, .absent] (first.place.through last.place)
  have lexeme : lexeme? (Expecting.variableName first.place).admits (k.text.toList ++ ";".toList) =
      some (.identifier, k.text.toList) := by
    cases k <;> rfl
  have uncommented : ¬ ['/', '/'] <+: k.text.toList ++ ";".toList := by
    rw [← List.isPrefixOf_iff_prefix]
    cases k <;> decide
  have scans :
      Scans .init .first ("var".toList ++ ([' '] ++ (k.text.toList ++ ";".toList)))
        [first, name, last]
      ⟨.next declared true, [.program []]⟩ := by
    refine @Scans.word _ ⟨.variableName first.place, _⟩ _ _ .first [] "var".toList _
      (.keyword .varWord) _ .none rfl (by simp) rfl rfl ?_
    refine @Scans.word _ ⟨.variableRest first.place name, _⟩ _ _ ⟨1, 5⟩
      [' '] k.text.toList _ .identifier _ (.blank (by decide) .none) rfl uncommented lexeme rfl ?_
    exact @Scans.word _ _ _ _ name.stop [] ";".toList [] (.symbol .semicolon) _ .none rfl
      (by decide) rfl rfl (.finish .none)
  have text : ("var " ++ k.text ++ ";").toList =
      "var".toList ++ ([' '] ++ (k.text.toList ++ ";".toList)) := by simp
  have raw : parseRaw ("var " ++ k.text ++ ";") = .ok (listNode .program [declared]) := by
    rw [parseRaw, text]
    exact scans.readFrom rfl .first
  refine ⟨(listNode .program [declared]).lower, name.place, by rw [parse, raw]; rfl, ?_⟩
  have spelled : name.node = .word (.terminal .identifier) k.text name.place := by
    simp [name, Token.node, tokenAt]
  have lowered : (listNode .program [declared]).lower = listNode .program [declared] := by
    simp [listNode, declared, spelled, Node.lower_tree]
  rw [lowered, ← spelled]
  exact .part List.mem_cons_self (.part List.mem_cons_self (.here _))

/-- Reserved words are not excluded from the names of a program. -/
theorem reserved_words_not_excluded : ¬ ∀ source program, parse source = .ok program →
    ∀ k place, ¬ program.Contains (.word (.terminal .identifier) (Keyword.text k) place) := by
  intro excluded
  obtain ⟨program, place, accepted, inside⟩ := reserved_words_declared .orWord
  exact excluded _ program accepted .orWord place inside

/-! ## Names in trees -/

/-- Replacing loops keeps words and makes none. -/
theorem Node.Contains.word_of_lower {n : Node} {kind : Kind} {text : String} {place : Place}
    (h : n.lower.Contains (.word kind text place)) : n.Contains (.word kind text place) := by
  rcases h.lower_cases with ⟨m, hm, same, label, -⟩ | ⟨init, test, step, body, p, -, made⟩
  · cases m with
    | word kind' text' place' =>
      rw [lower_word] at same
      rwa [same]
    | tree label' parts place' => cases label
    | hollow label' place' => cases label
    | bare text' => simp [Node.lower] at same
    | absent => simp at same
  · rcases mem_loopNodes.1 made with h | h | h | ⟨e, -, h⟩ | ⟨-, h⟩ <;> cases h

/-- A word of a tree is one of the words that were read. -/
theorem parseRaw_word {source : String} {tree : Node} (h : parseRaw source = .ok tree)
    {kind : Terminal} {text : String} {place : Place}
    (inside : tree.Contains (.word (.terminal kind) text place)) :
    ∃ t ∈ tokensRead source, t.kind = kind ∧ t.text = text ∧ t.place = place := by
  have derived := (readFrom_derives Reader.init_took h).1
  have placed := derived.fits.placed tree (List.mem_singleton_self tree) _ inside
  generalize hn : Node.word (.terminal kind) text place = n at placed
  cases placed with
  | absent => cases hn
  | @word t ht =>
    cases hn
    exact ⟨t, ht, rfl, rfl, rfl⟩
  | tree => cases hn

/-- **Reserved words as names.** In a text that is read, a word that is spelled like a reserved word
is this reserved word or a name, and it is a name exactly if no program goes on with the reserved
word after the words before it. A name in the tree, also in the form that is run, is such a word. -/
theorem reserved_words_as_names (source : String) (tree : Node) (h : parseRaw source = .ok tree) :
    (∀ (us : List Token) (t : Token) (vs : List Token) (k : Keyword), tokensRead source =
      us ++ t :: vs → t.text = k.text → (t.kind = .keyword k ∨ t.kind = .identifier) ∧
        (t.kind = .identifier ↔ ¬ Viable (us.map Token.kind ++ [.keyword k]))) ∧
    ∀ n ∈ [tree, tree.lower], ∀ (k : Keyword) (place : Place),
      n.Contains (.word (.terminal .identifier) k.text place) →
      ∃ (us : List Token) (t : Token) (vs : List Token), tokensRead source = us ++ t :: vs ∧
        t.text = k.text ∧ t.place = place ∧ ¬ Viable (us.map Token.kind ++ [.keyword k]) := by
  refine ⟨fun us t vs k => token_reserved h, fun n hn k place inside => ?_⟩
  have inTree : tree.Contains (.word (.terminal .identifier) k.text place) := by
    rcases List.mem_pair.1 hn with rfl | rfl
    · exact inside
    · exact inside.word_of_lower
  obtain ⟨t, ht, hkind, htext, hplace⟩ := parseRaw_word h inTree
  obtain ⟨us, vs, words⟩ := List.append_of_mem ht
  exact ⟨us, t, vs, words, htext, hplace, (token_reserved h words htext).2.1 hkind⟩

/-- A variable that is called like an operator. -/
theorem reserved_words_as_names_or :
    ∃ tree, parseRaw "var or = 1;" = .ok tree ∧
      (tokensRead "var or = 1;").map Token.kind =
        [.keyword .varWord, .identifier, .symbol .equal, .number, .symbol .semicolon] ∧
      ¬ Viable [.keyword .varWord, .keyword .orWord] := by
  obtain ⟨tree, h⟩ : ∃ tree, parseRaw "var or = 1;" = .ok tree := exists_of_isOk (by cbv)
  have words :
      tokensRead "var or = 1;" = [⟨.keyword .varWord, "var", ⟨1, 1⟩, ⟨1, 4⟩⟩] ++
        ⟨.identifier, "or", ⟨1, 5⟩, ⟨1, 7⟩⟩ ::
          [⟨.symbol .equal, "=", ⟨1, 8⟩, ⟨1, 9⟩⟩,
        ⟨.number, "1", ⟨1, 10⟩, ⟨1, 11⟩⟩,
          ⟨.symbol .semicolon, ";", ⟨1, 11⟩, ⟨1, 12⟩⟩] := by
    cbv
  refine ⟨tree, h, by rw [words]; rfl, ?_⟩
  exact ((reserved_words_as_names _ tree h).1 _ _ _ .orWord words rfl).2.1 rfl

end LoxLang
