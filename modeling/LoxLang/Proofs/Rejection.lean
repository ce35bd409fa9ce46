import LoxLang.Proofs.Lexing

/-!
# Where a text is rejected

A text that is no program is rejected at the first place where no program goes on as the text does.
The words before that place begin a program, because every construct that has begun can be
completed. At that place stands a word that no program has there, or a character that begins no
word, or the end of the text where no program ends.

* `Viable`: kinds of words that begin a program.
* `LaidTo`: the words at the beginning of a text, and what is left of it.
* `Impossible`: what an error says about the text that is left.

Results: `Begun.completes`, `Awaits.completes` — whatever a pending construct waits for, it can be
completed after it; `Took.viable` — the words that a reader has taken begin a program;
`readFrom_error` — reading stops after words that are taken one by one;
`rejected_where_impossible` — the whole statement.
-/

set_option autoImplicit false

namespace LoxLang

open Text (isBlank)

namespace Source

/-- The kinds of words that a program begins with. -/
def Viable (ks : List Terminal) : Prop := ∃ more, Generates .program (ks ++ more)

/-! ## Constructs that have begun -/

/-- The smallest statement. -/
theorem generates_emptyBlock : Generates .statement [.symbol .leftBrace, .symbol .rightBrace] :=
  .ofBlock (.block .noItems)

/-- What can stand where another phrase is awaited can also do so without its tree. -/
theorem Phrase.Admits.generates {o p : Phrase} {ks : List Terminal} (fits : o.Admits p)
    (ho : o.isProper = true) (hp : p.isList = false) (h : Generates p ks) : Generates o ks := by
  have kinds : (ks.map fun k => (⟨k, "", .first, .first⟩ : Token)).map Token.kind = ks := by
    simp [Function.comp_def]
  obtain ⟨n, derived⟩ := formed_of_derives hp h.derives _ kinds
  rw [← kinds]
  exact (fits _ _ derived).generates ho

section

variable {word : Keyword} {first : Place} {name : Token} {init test step : Node} {ts : List Token}
  {ks : List Terminal}

theorem Started.kinds (h : Started word first ts) : ts.map Token.kind = [.keyword word] := by
  obtain ⟨start, hstart, -, rfl⟩ := h
  simp [hstart]

theorem Named.kinds (h : Named word first name ts) :
    ts.map Token.kind = [.keyword word, .identifier] := by
  obtain ⟨start, hstart, hname, -, rfl⟩ := h
  simp [hstart, hname]

theorem Opened.kinds (h : Opened word first ts) :
    ts.map Token.kind = [.keyword word, .symbol .leftParen] := by
  obtain ⟨start, left, hstart, hleft, -, rfl⟩ := h
  simp [hstart, hleft]

theorem Tested.kinds (h : Tested word first test ts) : ∃ es, Generates .expression es ∧
    ts.map Token.kind = .keyword word :: .symbol .leftParen :: (es ++ [.symbol .rightParen]) := by
  obtain ⟨us, es, right, opened, expr, hright, rfl⟩ := h
  exact ⟨_, expr.generates rfl, by simp [opened.kinds, hright]⟩

theorem Looped.kinds (h : Looped first init ts) : ∃ cs, Generates .clause cs ∧
    ts.map Token.kind = .keyword .forWord :: .symbol .leftParen :: cs := by
  obtain ⟨us, cs, opened, clause, rfl⟩ := h
  exact ⟨_, clause.generates rfl, by simp [opened.kinds]⟩

theorem LoopTested.kinds (h : LoopTested first init test ts) : ∃ cs es, Generates .clause cs ∧
    Generates (.optional .expression) es ∧ ts.map Token.kind =
      .keyword .forWord :: .symbol .leftParen :: (cs ++ (es ++ [.symbol .semicolon])) := by
  obtain ⟨us, es, stop, looped, expr, hstop, rfl⟩ := h
  obtain ⟨cs, clause, hcs⟩ := looped.kinds
  exact ⟨cs, _, clause, expr.generates rfl, by simp [hcs, hstop]⟩

theorem LoopStepped.kinds (h : LoopStepped first init test step ts) :
    ∃ cs es ss, Generates .clause cs ∧
    Generates (.optional .expression) es ∧ Generates (.optional .expression) ss ∧
      ts.map Token.kind = .keyword .forWord :: .symbol .leftParen ::
        (cs ++ (es ++ .symbol .semicolon :: (ss ++ [.symbol .rightParen]))) := by
  obtain ⟨us, ss, right, tested, expr, hright, rfl⟩ := h
  obtain ⟨cs, es, clause, condition, hes⟩ := tested.kinds
  exact ⟨cs, es, _, clause, condition, expr.generates rfl, by simp [hes, hright]⟩

theorem HeaderOpened.kinds (h : HeaderOpened first name ts) :
    ts.map Token.kind = [.keyword .funWord, .identifier, .symbol .leftParen] := by
  obtain ⟨us, left, named, hleft, rfl⟩ := h
  simp [named.kinds, hleft]

theorem HeaderNamed.kinds {items : List Token} (h : HeaderNamed first name items ts) :
    ∃ ps, Generates .names ps ∧
      ts.map Token.kind = .keyword .funWord :: .identifier :: .symbol .leftParen :: ps := by
  obtain ⟨us, ps, opened, names, rfl⟩ := h
  exact ⟨_, names.generates rfl, by simp [opened.kinds]⟩

theorem HeaderRead.kinds {header : Header} (h : HeaderRead header ts) :
    ∃ ps, Generates (.optional .parameters) ps ∧ ts.map Token.kind =
      .keyword .funWord :: .identifier :: .symbol .leftParen :: (ps ++ [.symbol .rightParen]) := by
  obtain ⟨us, ps, right, opened, params, hright, rfl⟩ := h
  exact ⟨_, params.generates rfl, by simp [opened.kinds, hright]⟩

theorem Argued.generates {items : List Node} (argued : Argued items ts)
    (h : Generates .expression ks) :
    Generates .expressions (ts.map Token.kind ++ ks) := by
  cases items with
  | nil =>
    cases argued
    exact .argument h
  | cons n ns =>
    obtain ⟨es, comma, hes, hcomma, rfl⟩ := argued
    simpa [hcomma] using .nextArgument (hes.generates rfl) h

end

/-- **A construct that has begun can be completed**, whatever the phrase is that it waits for. -/
theorem Begun.completes {top : Pending} {o p : Phrase} {vs : List Token} {ks : List Terminal}
    (h : Begun top o p vs) (ho : o.isProper = true) (hks : Generates p ks) :
    ∃ more, Generates o (vs.map Token.kind ++ (ks ++ more)) := by
  cases h with
  | block fits hstart read =>
    have whole := Generates.block (.oneMore (read.generates rfl) hks)
    refine ⟨[.symbol .rightBrace], fits.generates ho rfl ?_⟩
    simpa [hstart] using whole.ofBlock
  | body hheader hstart read =>
    obtain ⟨ps, params, hps⟩ := hheader.kinds
    have whole := params.functionDecl (.block (.oneMore (read.generates rfl) hks))
    refine ⟨[.symbol .rightBrace], ?_⟩
    simpa [hps, hstart] using whole
  | thenBranch fits tested =>
    obtain ⟨es, expr, hes⟩ := tested.kinds
    have whole := expr.ifStmt hks .missing
    refine ⟨[], fits.generates ho rfl ?_⟩
    simpa [hes] using whole
  | elseBranch fits tested hyes closed hother =>
    obtain ⟨es, expr, hes⟩ := tested.kinds
    refine ⟨[], fits.generates ho rfl ?_⟩
    simpa [hes, hother] using .ifStmt expr (hyes.generates rfl) (.present rfl (.elsePart hks))
  | whileBody fits tested =>
    obtain ⟨es, expr, hes⟩ := tested.kinds
    refine ⟨[], fits.generates ho rfl ?_⟩
    simpa [hes] using .whileStmt expr hks
  | forBody fits stepped =>
    obtain ⟨cs, es, ss, clause, condition, update, hss⟩ := stepped.kinds
    refine ⟨[], fits.generates ho rfl ?_⟩
    simpa [hss] using .forStmt clause condition update hks
  | forInit fits opened hp =>
    have clause : Generates .clause ks := by
      rcases hp with rfl | rfl
      · exact .variableClause hks
      · exact .expressionClause hks
    refine ⟨[.symbol .semicolon, .symbol .rightParen, .symbol .leftBrace, .symbol .rightBrace],
      fits.generates ho rfl ?_⟩
    simpa [opened.kinds] using .forStmt clause .missing .missing generates_emptyBlock
  | expression fits =>
    exact ⟨[.symbol .semicolon], fits.generates ho rfl (.expressionStmt hks)⟩
  | print fits started =>
    refine ⟨[.symbol .semicolon], fits.generates ho rfl ?_⟩
    simpa [started.kinds] using .printStmt hks
  | result fits started =>
    refine ⟨[.symbol .semicolon], fits.generates ho rfl ?_⟩
    simpa [started.kinds] using .returnStmt (.present rfl hks)
  | initializer fits named hequal =>
    refine ⟨[.symbol .semicolon], fits.generates ho rfl ?_⟩
    simpa [named.kinds, hequal] using .variableDecl (.present rfl (.initializer hks))
  | ifTest fits opened =>
    refine ⟨[.symbol .rightParen, .symbol .leftBrace, .symbol .rightBrace],
      fits.generates ho rfl ?_⟩
    simpa [opened.kinds] using .ifStmt hks generates_emptyBlock .missing
  | whileTest fits opened =>
    refine ⟨[.symbol .rightParen, .symbol .leftBrace, .symbol .rightBrace],
      fits.generates ho rfl ?_⟩
    simpa [opened.kinds] using .whileStmt hks generates_emptyBlock
  | forTest fits looped =>
    obtain ⟨cs, clause, hcs⟩ := looped.kinds
    refine ⟨[.symbol .semicolon, .symbol .rightParen, .symbol .leftBrace, .symbol .rightBrace],
      fits.generates ho rfl ?_⟩
    simpa [hcs] using .forStmt clause (.present rfl hks) .missing generates_emptyBlock
  | forStep fits tested =>
    obtain ⟨cs, es, clause, condition, hes⟩ := tested.kinds
    refine ⟨[.symbol .rightParen, .symbol .leftBrace, .symbol .rightBrace],
      fits.generates ho rfl ?_⟩
    simpa [hes] using .forStmt clause condition (.present rfl hks) generates_emptyBlock
  | assign hname hequal =>
    refine ⟨[], ?_⟩
    simpa [hname, hequal] using .assign hks
  | binary hlevel low hleft =>
    refine ⟨[], ?_⟩
    have whole := Generates.binary (hleft.generates rfl) (operators_of_level hlevel).1 hks
    simpa using whole.level_le low
  | unary low hop =>
    refine ⟨[], ?_⟩
    simpa using (Generates.unary hop hks).level_le low
  | group low hleft =>
    refine ⟨[.symbol .rightParen], ?_⟩
    have whole := hks.grouping
    simpa [hleft] using whole.level_le (Nat.le_trans low (by decide))
  | arguments low hcallee hleft argued =>
    refine ⟨[.symbol .rightParen], ?_⟩
    have args : Generates (.optional .arguments) _ :=
      .present rfl (.arguments (argued.generates hks))
    have whole := Generates.call (hcallee.generates rfl) args
    simpa [hleft] using whole.level_le (by omega)

/-- The phrases that constructs wait for. -/
theorem Awaits.isProper {o : Phrase} {pending : List Pending} {us : List Token}
    (h : Awaits o pending us) :
    o.isProper = true := by
  cases h with
  | program => rfl
  | inside _ begun =>
    cases begun with
    | forInit _ _ hp => rcases hp with rfl | rfl <;> rfl
    | _ => rfl

/-- **All constructs that have begun can be completed**, the innermost first. -/
theorem Awaits.completes {o : Phrase} {pending : List Pending} {us : List Token}
    {ks : List Terminal} (h : Awaits o pending us) (hks : Generates o ks) :
    Viable (us.map Token.kind ++ ks) := by
  induction h generalizing ks with
  | program read =>
    refine ⟨[], ?_⟩
    rw [List.append_nil]
    exact .program (.oneMore (read.generates rfl) hks)
  | inside outer begun ih =>
    obtain ⟨more, whole⟩ := begun.completes outer.isProper hks
    obtain ⟨after, program⟩ := ih whole
    exact ⟨more ++ after, by simpa using program⟩

/-- The words of the constructs begin a program, with nothing after them. -/
theorem Awaits.viable {o : Phrase} {pending : List Pending} {us : List Token} {ks : List Terminal}
    (h : Awaits o pending us) (hks : Generates o ks) : Viable (us.map Token.kind) := by
  obtain ⟨after, program⟩ := h.completes hks
  exact ⟨ks ++ after, by simpa using program⟩

/-- And with the beginning of what they wait for. -/
theorem Awaits.viable_append {o : Phrase} {pending : List Pending} {us vs : List Token}
    (h : Awaits o pending us) (more : List Terminal)
    (whole : Generates o (vs.map Token.kind ++ more)) :
    Viable ((us ++ vs).map Token.kind) := by
  obtain ⟨after, program⟩ := h.completes whole
  exact ⟨more ++ after, by simpa using program⟩

theorem generates_number {i : Nat} (hi : i ≤ 7) : Generates (.level i) [.number] :=
  (Generates.operand (by decide)).level_le (Nat.le_trans hi (by decide))

theorem generates_function {ps : List Terminal} (h : Generates (.optional .parameters) ps) :
    Generates .declaration (.keyword .funWord :: .identifier :: .symbol .leftParen ::
      (ps ++ [.symbol .rightParen, .symbol .leftBrace, .symbol .rightBrace])) :=
  h.functionDecl (.block .noItems)

/-- **The words that a reader has taken begin a program.** -/
theorem Reader.Took.viable {r : Reader} {ts : List Token} (took : r.Took ts) :
    Viable (ts.map Token.kind) := by
  obtain ⟨expecting, pending⟩ := r
  cases expecting with
  | item => exact Awaits.viable took generates_emptyBlock.ofStatement
  | next ended isVariable =>
    obtain ⟨-, o, us, vs, awaits, hended, rfl⟩ := took
    exact awaits.viable_append [] (by simpa using hended.generates awaits.isProper)
  | statement => exact Awaits.viable took generates_emptyBlock
  | clause => exact (took .variableDecl (.inl rfl)).viable (.variableDecl .missing)
  | operand =>
    obtain ⟨i, awaits⟩ := took
    exact awaits.viable (generates_number awaits.level_le)
  | operator left target =>
    obtain ⟨i, us, vs, awaits, ⟨hleft, -⟩, rfl⟩ := took
    have hi := awaits.level_le
    exact awaits.viable_append [] (by simpa using (hleft.generates rfl).level_le (by omega))
  | opening head first =>
    obtain ⟨o, fits, us, vs, awaits, started, rfl⟩ := took
    have test := generates_number (Nat.zero_le 7)
    have proper := awaits.isProper
    cases head with
    | ifHead =>
      refine awaits.viable_append [.symbol .leftParen, .number, .symbol .rightParen,
        .symbol .leftBrace, .symbol .rightBrace] (fits.generates proper rfl ?_)
      rw [started.kinds]
      exact test.ifStmt generates_emptyBlock .missing
    | whileHead =>
      refine awaits.viable_append [.symbol .leftParen, .number, .symbol .rightParen,
        .symbol .leftBrace, .symbol .rightBrace] (fits.generates proper rfl ?_)
      rw [started.kinds]
      exact test.whileStmt generates_emptyBlock
    | forHead =>
      refine awaits.viable_append [.symbol .leftParen, .symbol .semicolon, .symbol .semicolon,
        .symbol .rightParen, .symbol .leftBrace, .symbol .rightBrace] (fits.generates proper rfl ?_)
      rw [started.kinds]
      exact Generates.emptyClause.forStmt .missing .missing generates_emptyBlock
  | variableName first =>
    obtain ⟨o, fits, us, vs, awaits, started, rfl⟩ := took
    refine awaits.viable_append [.identifier, .symbol .semicolon]
      (fits.generates awaits.isProper rfl ?_)
    rw [started.kinds]
    exact Generates.missing.variableDecl
  | variableRest first name =>
    obtain ⟨o, fits, us, vs, awaits, named, rfl⟩ := took
    refine awaits.viable_append [.symbol .semicolon] (fits.generates awaits.isProper rfl ?_)
    rw [named.kinds]
    exact Generates.missing.variableDecl
  | functionName first =>
    obtain ⟨us, vs, awaits, started, rfl⟩ := took
    refine awaits.viable_append [.identifier, .symbol .leftParen, .symbol .rightParen,
      .symbol .leftBrace, .symbol .rightBrace] ?_
    rw [started.kinds]
    exact generates_function .missing
  | parametersOpening first name =>
    obtain ⟨us, vs, awaits, named, rfl⟩ := took
    refine awaits.viable_append [.symbol .leftParen, .symbol .rightParen, .symbol .leftBrace,
      .symbol .rightBrace] ?_
    rw [named.kinds]
    exact generates_function .missing
  | firstParameter first name =>
    obtain ⟨us, vs, awaits, opened, rfl⟩ := took
    refine awaits.viable_append [.symbol .rightParen, .symbol .leftBrace, .symbol .rightBrace] ?_
    rw [opened.kinds]
    exact generates_function .missing
  | nextParameter first name items =>
    obtain ⟨us, -, awaits, ⟨vs, comma, named, hcomma, rfl⟩, rfl⟩ := took
    obtain ⟨ps, names, hps⟩ := named.kinds
    refine awaits.viable_append [.identifier, .symbol .rightParen, .symbol .leftBrace,
      .symbol .rightBrace] ?_
    simpa [hps, hcomma] using generates_function (.present rfl names.nextName.parameters)
  | parameterRest first name items =>
    obtain ⟨us, vs, awaits, named, rfl⟩ := took
    obtain ⟨ps, names, hps⟩ := named.kinds
    refine awaits.viable_append [.symbol .rightParen, .symbol .leftBrace, .symbol .rightBrace] ?_
    rw [hps]
    exact generates_function (.present rfl names.parameters)
  | body header =>
    obtain ⟨us, vs, awaits, hheader, rfl⟩ := took
    obtain ⟨ps, params, hps⟩ := hheader.kinds
    refine awaits.viable_append [.symbol .leftBrace, .symbol .rightBrace] ?_
    simpa [hps] using generates_function params

/-! ## Words that a reader takes -/

theorem Reads.took {r r' : Reader} {us ts : List Token} (h : Reads r us r') (took : r.Took ts) :
    r'.Took (ts ++ us) := by
  induction h generalizing ts with
  | done => rwa [List.append_nil]
  | word _ step _ ih =>
    have next := ih (Reader.step?_took took step)
    rwa [List.append_assoc, List.singleton_append] at next

/-- **If a program goes on with a word, then the reader takes the word.** -/
theorem Reads.takes {r : Reader} {ts : List Token} {t : Token} {more : List Terminal}
    (h : Reads .init ts r) (program : Generates .program (ts.map Token.kind ++ t.kind :: more)) :
    r.expecting.admits t.kind = true ∧ ∃ r', r.step? t = some r' := by
  have kinds : (ts ++ t :: more.map fun k => ⟨k, "", .first, .first⟩).map Token.kind =
      ts.map Token.kind ++ t.kind :: more := by
    simp [Function.comp_def]
  obtain ⟨tree, derived⟩ := formed_of_derives rfl program.derives _ kinds
  obtain ⟨_, reads, -⟩ := derived.program_read
  obtain ⟨r₁, first, rest⟩ := reads.split
  rw [h.unique first]
  cases rest with
  | word admitted step _ => exact ⟨admitted, _, step⟩

/-- **If the words are a program, then the reader has a tree.** -/
theorem Reads.finishes {r : Reader} {ts : List Token} (h : Reads .init ts r)
    (program : Generates .program (ts.map Token.kind)) : ∃ tree, r.finish? = some tree := by
  obtain ⟨tree, derived⟩ := formed_of_derives rfl program.derives ts rfl
  obtain ⟨r', reads, hfinish⟩ := derived.program_read
  rw [h.unique reads]
  exact ⟨tree, hfinish⟩

/-! ## The text before and after an error -/

/-- The words at the beginning of a text from a position on, with gaps before them, and the position
and the text that are left after the last of them. -/
inductive LaidTo : Position → List Char → List Token → Position → List Char → Prop
  | none {p : Position} {cs : List Char} : LaidTo p cs [] p cs
  | word {p q : Position} {cs gap rest left : List Char} {t : Token} {ts : List Token}
    (h : Gap false gap) (hcs : cs = gap ++ (t.text.toList ++ rest))
    (spelled : t.kind.Matches t.text.toList) (start : t.start = p.advanceBy gap)
    (stop : t.stop = t.start.advanceBy t.text.toList) (more : LaidTo t.stop rest ts q left) :
    LaidTo p cs (t :: ts) q left

/-- The position after the words is the one after all the text that has been read. -/
theorem LaidTo.front {p q : Position} {cs left : List Char} {ts : List Token}
    (h : LaidTo p cs ts q left) :
    ∃ front, cs = front ++ left ∧ q = p.advanceBy front := by
  induction h with
  | none => exact ⟨[], rfl, rfl⟩
  | @word p q cs gap rest left t ts _ hcs _ start stop _ ih =>
    obtain ⟨front, hrest, hq⟩ := ih
    refine ⟨gap ++ (t.text.toList ++ front), ?_, ?_⟩
    · simp [hcs, hrest]
    · rw [hq, stop, start]
      simp [Position.advanceBy]

/-- Where the last of some words begins, or where the text begins if there is none. -/
def lastStart (first : Position) (ts : List Token) : Position :=
  (ts.getLast?.map Token.start).getD first

theorem lastStart_cons (first : Position) (t : Token) (ts : List Token) :
    lastStart first (t :: ts) = lastStart t.start ts := by
  cases h : ts.getLast? <;> simp [lastStart, List.getLast?_cons, h]

/-- A reader that cannot go on: the text has ended and something is still open, or no word that can
stand next is there, or the constructs that have begun do not take the word. -/
inductive Stuck (r : Reader) (last p : Position) (cs : List Char) : ParseError → Prop
  | atEnd {q : Position} (hskip : skip false p cs = (q, [])) (hfinish : r.finish? = none) :
    Stuck r last p cs (.unexpectedEnd last)
  | noWord {q : Position} {c : Char} {rest : List Char} (hskip : skip false p cs = (q, c :: rest))
    (hlex : lexeme? r.expecting.admits (c :: rest) = none) :
    Stuck r last p cs (errorAt q c (c :: rest))
  | refused {q : Position} {c : Char} {rest text : List Char} {kind : Terminal}
    (hskip : skip false p cs = (q, c :: rest))
    (hlex : lexeme? r.expecting.admits (c :: rest) = some (kind, text))
    (hstep : r.step? (tokenAt q kind text) = none) :
    Stuck r last p cs (.unexpectedToken (tokenAt q kind text))

/-- Such a reader takes no word. -/
theorem tokensFrom_stuck {r : Reader} {last p : Position} {cs : List Char} {e : ParseError}
    (stuck : Stuck r last p cs e) : tokensFrom r p cs = [] := by
  rw [tokensFrom]
  split
  · rfl
  · rename_i q' c' rest' hskip'
    cases stuck with
    | atEnd hskip =>
      rw [hskip] at hskip'
      cases hskip'
    | noWord hskip hlex =>
      rw [hskip] at hskip'
      cases hskip'
      split
      · rfl
      · rename_i hsome
        rw [hlex] at hsome
        cases hsome
    | refused hskip hlex hstep =>
      rw [hskip] at hskip'
      cases hskip'
      split
      · rfl
      · rename_i hsome
        rw [hlex] at hsome
        cases hsome
        simp only [hstep]

/-- How reading comes to an error: the reader cannot go on, or it takes a word and the rest has the
error. -/
theorem readFrom_error_cases {r : Reader} {last p : Position} {cs : List Char} {e : ParseError}
    (h : readFrom r last p cs = .error e) :
    Stuck r last p cs e ∨
    ∃ q c rest kind text r', skip false p cs = (q, c :: rest) ∧
      lexeme? r.expecting.admits (c :: rest) = some (kind, text) ∧
      r.step? (tokenAt q kind text) = some r' ∧
      readFrom r' q (tokenAt q kind text).stop ((c :: rest).drop text.length) = .error e := by
  unfold readFrom at h
  split at h
  · rename_i q hskip
    split at h
    · cases h
    · rename_i hfinish
      cases h
      exact .inl (.atEnd hskip hfinish)
  · rename_i q c rest hskip
    split at h
    · rename_i hlex
      cases h
      exact .inl (.noWord hskip hlex)
    · rename_i kind text hlex
      simp only at h
      split at h
      · rename_i hstep
        cases h
        exact .inl (.refused hskip hlex hstep)
      · rename_i r' hstep
        exact .inr ⟨q, c, rest, kind, text, r', hskip, hlex, hstep, h⟩

/-- The gap before a place that is not skipped. -/
theorem gap_of_skip {p q : Position} {cs rest : List Char} {c : Char}
    (h : skip false p cs = (q, c :: rest)) :
    ∃ gap, Gap false gap ∧ cs = gap ++ c :: rest ∧ q = p.advanceBy gap := by
  obtain ⟨gap, hgap, hcs, hq⟩ := (skip_gap cs p).1
  rw [h] at hgap hcs hq
  exact ⟨gap, hgap, hcs, hq⟩

/-- **Reading stops after words that are taken one by one.** -/
theorem readFrom_error {r : Reader} {last p : Position} {cs : List Char} {e : ParseError}
    (h : readFrom r last p cs = .error e) :
    ∃ r' q left, Reads r (tokensFrom r p cs) r' ∧ LaidTo p cs (tokensFrom r p cs) q left ∧
      Stuck r' (lastStart last (tokensFrom r p cs)) q left e := by
  -- each word makes what remains shorter
  induction hlength : cs.length using Nat.strongRecOn generalizing r last p cs with
  | ind length ih =>
    rcases readFrom_error_cases h with
      stuck | ⟨q, c, rest, kind, text, r', hskip, hlex, hstep, hrest⟩
    · rw [tokensFrom_stuck stuck]
      exact ⟨r, p, cs, .done, .none, stuck⟩
    · have shorter := length_drop_lexeme_lt hlex
      have skipped := length_skip_le false p cs
      rw [hskip] at skipped
      obtain ⟨r'', q', left, reads, laid, stuck⟩ :=
        ih _ (hlength ▸ Nat.lt_of_lt_of_le shorter skipped) hrest rfl
      obtain ⟨gap, hgap, hcs, hq⟩ := gap_of_skip hskip
      obtain ⟨spelled, begins⟩ := lexeme_matches hlex
      have text_eq : (tokenAt q kind text).text.toList = text := String.toList_ofList
      rw [tokensFrom_word hskip hlex hstep, lastStart_cons]
      refine ⟨r'', q', left, .word (lexeme_admitted hlex) hstep reads,
        .word hgap ?_ ?_ hq ?_ laid, stuck⟩
      · rw [text_eq, List.prefix_iff_eq_append.1 begins]
        exact hcs
      · rw [text_eq]
        exact spelled
      · rw [text_eq]
        rfl

/-! ## What an error says -/

/-- Nothing that may stand in a text stands here: no word, no blank and no comment. -/
def Wordless (cs : List Char) : Prop :=
  (∀ kind word, Terminal.Matches kind word → ¬ word <+: cs) ∧
    (∀ c ∈ cs.head?, isBlank c = false) ∧ ¬ ['/', '/'] <+: cs

/-- What an error says about the text that is left at a position after the given words. A word: no
program goes on with one of its kind, and it stands right after a gap. The end: the words are no
program, nothing but a gap is left, and the position is the one of the last word. A character:
nothing stands there, right after a gap. -/
def Impossible (ts : List Token) (p : Position) (left : List Char) : ParseError → Prop
  | .unexpectedToken t => ¬ Viable (ts.map Token.kind ++ [t.kind]) ∧
      ∃ gap rest, Gap false gap ∧ left = gap ++ (t.text.toList ++ rest) ∧
        t.kind.Matches t.text.toList ∧ t.start = p.advanceBy gap ∧
          t.stop = t.start.advanceBy t.text.toList
  | .unexpectedEnd position => ¬ Generates .program (ts.map Token.kind) ∧ Gap true left ∧
      position = lastStart .first ts
  | .unexpectedCharacter position c => ∃ gap rest, Gap false gap ∧ left = gap ++ c :: rest ∧
      position = p.advanceBy gap ∧ Wordless (c :: rest)

/-- Where skipping stops, there is no gap. -/
theorem skip_stops {inComment : Bool} {p q : Position} {cs rest : List Char} {c : Char}
    (h : skip inComment p cs = (q, c :: rest)) :
    isBlank c = false ∧ ¬ ['/', '/'] <+: c :: rest := by
  induction cs generalizing inComment p with
  | nil => cases h
  | cons d ds ih =>
    unfold skip at h
    split at h
    · exact ih h
    · split at h
      · exact ih h
      · split at h
        · exact ih h
        · rename_i hblank hcomment
          cases h
          refine ⟨Bool.eq_false_iff.2 hblank, ?_⟩
          rintro ⟨more, hmore⟩
          cases hmore
          exact hcomment rfl

/-- A word that the reader does not take is one that no program goes on with. -/
theorem impossible_token {r : Reader} {ts : List Token} {p q : Position}
    {left rest text : List Char} {c : Char} {kind : Terminal} {admits : Terminal → Bool}
    (reads : Reads .init ts r)
    (hskip : skip false p left = (q, c :: rest))
    (hlex : lexeme? admits (c :: rest) = some (kind, text))
    (refused : ¬ (r.expecting.admits kind = true ∧
      ∃ r', r.step? (tokenAt q kind text) = some r')) :
    Impossible ts p left (.unexpectedToken (tokenAt q kind text)) := by
  obtain ⟨gap, hgap, hleft, hq⟩ := gap_of_skip hskip
  obtain ⟨spelled, begins⟩ := lexeme_matches hlex
  obtain ⟨after, hafter⟩ := begins
  have text_eq : (tokenAt q kind text).text.toList = text := String.toList_ofList
  refine ⟨?_, gap, after, hgap, ?_, ?_, hq, ?_⟩
  · rintro ⟨more, program⟩
    rw [List.append_assoc] at program
    exact refused (@Reads.takes r ts (tokenAt q kind text) more reads program)
  · rw [text_eq, hafter]
    exact hleft
  · rw [text_eq]
    exact spelled
  · rw [text_eq]
    rfl

/-- **Where a reader cannot go on, no program goes on.** -/
theorem Stuck.impossible {r : Reader} {ts : List Token} {p : Position} {left : List Char}
    {e : ParseError}
    (reads : Reads .init ts r) (stuck : Stuck r (lastStart .first ts) p left e) :
    Impossible ts p left e := by
  cases stuck with
  | atEnd hskip hfinish =>
    obtain ⟨gap, hgap, hleft, -⟩ := (skip_gap left p).1
    rw [hskip] at hgap hleft
    refine ⟨fun program => ?_, ?_, rfl⟩
    · obtain ⟨tree, htree⟩ := reads.finishes program
      rw [hfinish] at htree
      cases htree
    · rw [hleft, List.append_nil]
      exact hgap
  | @noWord q c rest hskip hlex =>
    unfold errorAt
    cases hall : lexeme? (fun _ => true) (c :: rest) with
    | some word =>
      -- the word could be read if it could stand next
      refine impossible_token reads hskip hall fun ⟨admitted, _⟩ => ?_
      rw [lexeme_of_admits hall admitted] at hlex
      cases hlex
    | none =>
      obtain ⟨gap, hgap, hleft, hq⟩ := gap_of_skip hskip
      obtain ⟨unblank, uncommented⟩ := skip_stops hskip
      refine ⟨gap, rest, hgap, hleft, hq, fun kind word spelled hword => ?_, ?_, uncommented⟩
      · obtain ⟨_, _, hsome, -⟩ := lexeme_of_matches spelled hword
        rw [hall] at hsome
        cases hsome
      · simpa using unblank
  | refused hskip hlex hstep =>
    refine impossible_token reads hskip hlex fun ⟨_, r', step⟩ => ?_
    rw [hstep] at step
    cases step

end Source

open Source

/-- **A text is rejected at the first place where no program goes on as it does.** The words that
were read begin a program. They are the words at the beginning of the text, and what the error says
holds of the text that is left after them, at the position after all that was read. -/
theorem rejected_where_impossible (source : String) (e : ParseError)
    (h : parseRaw source = .error e) :
    Viable ((tokensRead source).map Token.kind) ∧
      ∃ front left, source.toList = front ++ left ∧
        LaidTo .first source.toList (tokensRead source) (Position.first.advanceBy front) left ∧
          Impossible (tokensRead source) (Position.first.advanceBy front) left e := by
  obtain ⟨r, q, left, reads, laid, stuck⟩ := readFrom_error h
  obtain ⟨front, hsource, rfl⟩ := laid.front
  exact ⟨(reads.took Reader.init_took).viable, front, left, hsource, laid,
    stuck.impossible reads⟩

/-- A name for a variable is missing, after a comment. -/
theorem rejected_where_impossible_name :
    parseRaw "var //\n 1;" =
      .error (.unexpectedToken ⟨.number, "1", ⟨2, 2⟩, ⟨2, 3⟩⟩) ∧
        ¬ Viable ((tokensRead "var //\n 1;").map Token.kind ++ [.number]) := by
  have rejected :
      parseRaw "var //\n 1;" =
        .error (.unexpectedToken ⟨.number, "1", ⟨2, 2⟩, ⟨2, 3⟩⟩) := by cbv
  obtain ⟨-, front, left, -, -, impossible, -⟩ := rejected_where_impossible _ _ rejected
  exact ⟨rejected, impossible⟩

end LoxLang
