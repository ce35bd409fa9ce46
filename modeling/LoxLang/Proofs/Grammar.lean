import LoxLang.Source.Reader

/-!
# The grammar

What a run of words means is said by a grammar, apart from how the words are read. A phrase of the
grammar derives a run of words together with the nodes that it stands for: a production with a label
makes one node of its parts, punctuation and plain reserved words are left out of it, an optional
part that is missing is an absent node, and a production that only passes on another phrase makes no
node.

Expressions have levels, one for each rank of operators: assignment (0), the binary operators from
`or` (1) to the products (6), prefix operators (7), calls (8) and operands (9). An operator of a
level has operands of that level or of the next one, so the levels say which operators group to the
left and which to the right.

* `extent`: the place of a run of words.
* `Phrase`, `Derives`: the phrases, and one constructor of `Derives` for each production.
* `Node.EndsOpen`: a statement to which a following `else` would belong.

Results: `Derives.place` — a node stands where its words stand; `Derives.listNode_eq` — a list
of nodes stands from the first of them to the last; `Derives.level_le` — an expression of one
level is one of every lower level.
-/

set_option autoImplicit false

namespace LoxLang

/-- A statement that ends with an `if` without `else`: an `else` after it would belong to that
`if`. -/
inductive Node.EndsOpen : Node → Prop
  | withoutElse {test yes : Node} {place : Place} :
    EndsOpen (.tree .ifStmt [test, yes, .absent] place)
  | inElse {test yes no : Node} {place : Place} (h : EndsOpen no) :
    EndsOpen (.tree .ifStmt [test, yes, no] place)
  | inWhile {test body : Node} {place : Place} (h : EndsOpen body) :
    EndsOpen (.tree .whileStmt [test, body] place)
  | inFor {init test step body : Node} {place : Place} (h : EndsOpen body) :
    EndsOpen (.tree .forStmt [init, test, step, body] place)

namespace Source

/-! ## Where words stand -/

/-- The place of a run of words, from the first of them to the last. -/
def extent (ts : List Token) : Place :=
  match ts.head?, ts.getLast? with
  | some first, some last => .span first.start last.stop
  | _, _ => .unknown

@[simp] theorem extent_singleton (t : Token) : extent [t] = t.place := rfl

/-- A place from one run of words to another is that of all the words from the first to the last. -/
theorem extent_through {us vs ts : List Token} (hu : us ≠ []) (hv : vs ≠ [])
    (begins : us <+: ts) (ends : vs <:+ ts) : (extent us).through (extent vs) = extent ts := by
  obtain ⟨after, rfl⟩ := begins
  obtain ⟨before, hts⟩ := ends
  have ha := List.head?_eq_some_head hu
  have first : (us ++ after).head? = some (us.head hu) := by
    rw [List.head?_append, ha, Option.some_or]
  have last : (us ++ after).getLast? = some (vs.getLast hv) := by
    rw [← hts, List.getLast?_append, List.getLast?_eq_some_getLast hv, Option.some_or]
  rw [extent, extent, extent, first, last, ha, List.getLast?_eq_some_getLast hu,
    List.getLast?_eq_some_getLast hv, List.head?_eq_some_head hv]
  rfl

/-! ## Productions -/

/-- The phrases of the grammar. -/
inductive Phrase where
  /-- The whole text. -/
  | program
  /-- Declarations and statements in a row. -/
  | items
  | declaration
  | variableDecl
  /-- The value of a variable that is declared. -/
  | initializer
  | parameters
  /-- Names with commas between them. -/
  | names
  | statement
  | expressionStmt
  | elsePart
  /-- The first clause of a loop. -/
  | clause
  | block
  /-- An expression of a level. -/
  | level (i : Nat)
  | arguments
  /-- Expressions with commas between them. -/
  | expressions
  /-- A phrase that may be missing. -/
  | optional (p : Phrase)

/-- Every expression, whatever its operators are. -/
abbrev Phrase.expression : Phrase := .level 0

/-- The binary operators of a level. -/
def operators : Nat → List Terminal
  | 1 => [.keyword .orWord]
  | 2 => [.keyword .andWord]
  | 3 => [.symbol .equalEqual, .symbol .bangEqual]
  | 4 => [.symbol .greater, .symbol .greaterEqual, .symbol .less, .symbol .lessEqual]
  | 5 => [.symbol .plus, .symbol .minus]
  | 6 => [.symbol .star, .symbol .slash]
  | _ => []

/-- What the binary operators of a level are labelled with. -/
def operatorLabel (level : Nat) : Label := if level ≤ 2 then .logical else .binary

/-- A node made of the given parts; it stands where its words stand. -/
def phraseNode (label : Label) (words : List Token) (parts : List Node) : Node :=
  .tree label parts (extent words)

/-- The words that a phrase derives, with the nodes that they stand for. -/
inductive Derives : Phrase → List Token → List Node → Prop
  -- `program: declaration*`
  | program {ts : List Token} {ns : List Node} (items : Derives .items ts ns) :
    Derives .program ts [phraseNode .program ts ns]
  | noItems : Derives .items [] []
  | oneMore {ts us vs : List Token} {ns : List Node} {n : Node} (items : Derives .items us ns)
    (item : Derives .declaration vs [n]) (words : ts = us ++ vs) : Derives .items ts (ns ++ [n])
  -- `declaration: fundecl | vardecl | statement`
  | functionDecl {ts ps bs : List Token} {start name left right : Token} {params body : Node}
    (hstart : start.kind = .keyword .funWord) (hname : name.kind = .identifier)
    (hleft : left.kind = .symbol .leftParen)
    (parameters : Derives (.optional .parameters) ps [params])
    (hright : right.kind = .symbol .rightParen) (block : Derives .block bs [body])
    (words : ts = start :: name :: left :: (ps ++ right :: bs)) :
    Derives .declaration ts [phraseNode .functionDecl ts [name.node, params, body]]
  | ofVariableDecl {ts : List Token} {n : Node} (h : Derives .variableDecl ts [n]) :
    Derives .declaration ts [n]
  | ofStatement {ts : List Token} {n : Node} (h : Derives .statement ts [n]) :
    Derives .declaration ts [n]
  -- `params: IDENT ("," IDENT)*`
  | parameters {ts : List Token} {ns : List Node} (names : Derives .names ts ns) :
    Derives .parameters ts [phraseNode .parameters ts ns]
  | name {t : Token} (ht : t.kind = .identifier) : Derives .names [t] [t.node]
  | nextName {ts us : List Token} {comma t : Token} {ns : List Node} (names : Derives .names us ns)
    (hcomma : comma.kind = .symbol .comma) (ht : t.kind = .identifier)
    (words : ts = us ++ [comma, t]) :
    Derives .names ts (ns ++ [t.node])
  -- `vardecl: "var" IDENT ["=" expr] ";"`
  | variableDecl {ts vs : List Token} {start name stop : Token} {value : Node}
    (hstart : start.kind = .keyword .varWord) (hname : name.kind = .identifier)
    (initializer : Derives (.optional .initializer) vs [value])
    (hstop : stop.kind = .symbol .semicolon) (words : ts = start :: name :: (vs ++ [stop])) :
    Derives .variableDecl ts [phraseNode .variableDecl ts [name.node, value]]
  | initializer {ts vs : List Token} {equal : Token} {value : Node}
    (hequal : equal.kind = .symbol .equal)
    (expr : Derives .expression vs [value]) (words : ts = equal :: vs) :
    Derives .initializer ts [value]
  -- `statement: exprstmt | printstmt | returnstmt | ifstmt | whilestmt | forstmt | block`
  | ofExpressionStmt {ts : List Token} {n : Node} (h : Derives .expressionStmt ts [n]) :
    Derives .statement ts [n]
  | expressionStmt {ts vs : List Token} {stop : Token} {value : Node}
    (expr : Derives .expression vs [value]) (hstop : stop.kind = .symbol .semicolon)
    (words : ts = vs ++ [stop]) :
    Derives .expressionStmt ts [phraseNode .expressionStmt ts [value]]
  | printStmt {ts vs : List Token} {start stop : Token} {value : Node}
    (hstart : start.kind = .keyword .printWord) (expr : Derives .expression vs [value])
    (hstop : stop.kind = .symbol .semicolon) (words : ts = start :: (vs ++ [stop])) :
    Derives .statement ts [phraseNode .printStmt ts [value]]
  | returnStmt {ts vs : List Token} {start stop : Token} {value : Node}
    (hstart : start.kind = .keyword .returnWord) (expr : Derives (.optional .expression) vs [value])
    (hstop : stop.kind = .symbol .semicolon) (words : ts = start :: (vs ++ [stop])) :
    Derives .statement ts [phraseNode .returnStmt ts [value]]
  -- `ifstmt: "if" "(" expr ")" statement ["else" statement]`, with `else` at the nearest `if`
  | ifStmt {ts es ys os : List Token} {start left right : Token} {test yes no : Node}
    (hstart : start.kind = .keyword .ifWord) (hleft : left.kind = .symbol .leftParen)
    (expr : Derives .expression es [test]) (hright : right.kind = .symbol .rightParen)
    (branch : Derives .statement ys [yes]) (other : Derives (.optional .elsePart) os [no])
    (nearest : os ≠ [] → ¬ yes.EndsOpen)
    (words : ts = start :: left :: (es ++ right :: (ys ++ os))) :
    Derives .statement ts [phraseNode .ifStmt ts [test, yes, no]]
  | elsePart {ts vs : List Token} {start : Token} {n : Node}
    (hstart : start.kind = .keyword .elseWord) (branch : Derives .statement vs [n])
    (words : ts = start :: vs) : Derives .elsePart ts [n]
  | whileStmt {ts es bs : List Token} {start left right : Token} {test body : Node}
    (hstart : start.kind = .keyword .whileWord) (hleft : left.kind = .symbol .leftParen)
    (expr : Derives .expression es [test]) (hright : right.kind = .symbol .rightParen)
    (branch : Derives .statement bs [body]) (words : ts = start :: left :: (es ++ right :: bs)) :
    Derives .statement ts [phraseNode .whileStmt ts [test, body]]
  -- `forstmt: "for" "(" forinit [expr] ";" [expr] ")" statement`
  | forStmt {ts cs es ss bs : List Token} {start left stop right : Token}
    {init test step body : Node} (hstart : start.kind = .keyword .forWord)
    (hleft : left.kind = .symbol .leftParen) (clause : Derives .clause cs [init])
    (condition : Derives (.optional .expression) es [test]) (hstop : stop.kind = .symbol .semicolon)
    (update : Derives (.optional .expression) ss [step]) (hright : right.kind = .symbol .rightParen)
    (branch : Derives .statement bs [body])
    (words : ts = start :: left :: (cs ++ (es ++ stop :: (ss ++ right :: bs)))) :
    Derives .statement ts [phraseNode .forStmt ts [init, test, step, body]]
  | variableClause {ts : List Token} {n : Node} (h : Derives .variableDecl ts [n]) :
    Derives .clause ts [phraseNode .forClause ts [n]]
  | expressionClause {ts : List Token} {n : Node} (h : Derives .expressionStmt ts [n]) :
    Derives .clause ts [phraseNode .forClause ts [n]]
  | emptyClause {t : Token} (ht : t.kind = .symbol .semicolon) :
    Derives .clause [t] [phraseNode .forClause [t] []]
  | ofBlock {ts : List Token} {n : Node} (h : Derives .block ts [n]) : Derives .statement ts [n]
  | block {ts us : List Token} {start stop : Token} {ns : List Node}
    (hstart : start.kind = .symbol .leftBrace) (items : Derives .items us ns)
    (hstop : stop.kind = .symbol .rightBrace) (words : ts = start :: (us ++ [stop])) :
    Derives .block ts [phraseNode .block ts ns]
  -- `assignment: IDENT "=" assignment | logic_or`
  | assign {ts vs : List Token} {name equal : Token} {value : Node}
    (hname : name.kind = .identifier) (hequal : equal.kind = .symbol .equal)
    (expr : Derives (.level 0) vs [value])
    (words : ts = name :: equal :: vs) :
    Derives (.level 0) ts [phraseNode .assign ts [name.node, value]]
  -- the phrases from `logic_or` to `factor`
  | binary {i : Nat} {ts ls rs : List Token} {op : Token} {left right : Node}
    (first : Derives (.level i) ls [left]) (hop : op.kind ∈ operators i)
    (second : Derives (.level (i + 1)) rs [right]) (words : ts = ls ++ op :: rs) :
    Derives (.level i) ts [phraseNode (operatorLabel i) ts [left, op.node, right]]
  -- a phrase of every level may have no operator of that level
  | nextLevel {i : Nat} {ts : List Token} {n : Node} (h : Derives (.level (i + 1)) ts [n]) :
    Derives (.level i) ts [n]
  -- `unary: (BANG | MINUS) unary | call`
  | unary {ts vs : List Token} {op : Token} {operand : Node}
    (hop : op.kind ∈ [Terminal.symbol .bang, .symbol .minus])
    (expr : Derives (.level 7) vs [operand]) (words : ts = op :: vs) :
    Derives (.level 7) ts [phraseNode .unary ts [op.node, operand]]
  -- `call: primary | call "(" [args] ")"`
  | call {ts cs as : List Token} {left right : Token} {callee args : Node}
    (first : Derives (.level 8) cs [callee]) (hleft : left.kind = .symbol .leftParen)
    (arguments : Derives (.optional .arguments) as [args])
    (hright : right.kind = .symbol .rightParen) (words : ts = cs ++ left :: (as ++ [right])) :
    Derives (.level 8) ts [phraseNode .call ts [callee, args]]
  | arguments {ts : List Token} {ns : List Node} (items : Derives .expressions ts ns) :
    Derives .arguments ts [phraseNode .arguments ts ns]
  | argument {ts : List Token} {n : Node} (h : Derives .expression ts [n]) :
    Derives .expressions ts [n]
  | nextArgument {ts us vs : List Token} {comma : Token} {ns : List Node} {n : Node}
    (items : Derives .expressions us ns) (hcomma : comma.kind = .symbol .comma)
    (item : Derives .expression vs [n]) (words : ts = us ++ comma :: vs) :
    Derives .expressions ts (ns ++ [n])
  -- `primary: NUMBER | STRING | "true" | "false" | "nil" | IDENT | "(" expr ")"`
  | constant {t : Token} (ht : t.kind ∈ [Terminal.number, .string]) :
    Derives (.level 9) [t] [t.node]
  | trueLit {t : Token} (ht : t.kind = .keyword .trueWord) :
    Derives (.level 9) [t] [phraseNode .trueLit [t] []]
  | falseLit {t : Token} (ht : t.kind = .keyword .falseWord) :
    Derives (.level 9) [t] [phraseNode .falseLit [t] []]
  | nilLit {t : Token} (ht : t.kind = .keyword .nilWord) :
    Derives (.level 9) [t] [phraseNode .nilLit [t] []]
  | reference {t : Token} (ht : t.kind = .identifier) :
    Derives (.level 9) [t] [phraseNode .reference [t] [t.node]]
  | grouping {ts es : List Token} {left right : Token} {inner : Node}
    (hleft : left.kind = .symbol .leftParen) (expr : Derives .expression es [inner])
    (hright : right.kind = .symbol .rightParen) (words : ts = left :: (es ++ [right])) :
    Derives (.level 9) ts [phraseNode .grouping ts [inner]]
  -- `[...]`
  | missing {p : Phrase} : Derives (.optional p) [] [.absent]
  | present {p : Phrase} {ts : List Token} {n : Node} (h : Derives p ts [n]) :
    Derives (.optional p) ts [n]

/-! ## Nodes and their words -/

/-- The phrases that stand for one node, which stands where all their words stand. -/
def Phrase.isUnit : Phrase → Bool
  | .declaration | .variableDecl | .statement | .expressionStmt | .clause | .block
  | .level _ => true
  | _ => false

/-- Nodes of which the first begins where the words begin and the last ends where they end. -/
def Covers (ts : List Token) (ns : List Node) : Prop :=
  (∃ us n, us ≠ [] ∧ us <+: ts ∧ ns.head? = some n ∧ n.place = extent us) ∧
    ∃ vs n, vs ≠ [] ∧ vs <:+ ts ∧ ns.getLast? = some n ∧ n.place = extent vs

/-- The node of a list stands from the first of its parts to the last. -/
theorem Covers.listNode_eq {ts : List Token} {ns : List Node} (h : Covers ts ns) (label : Label) :
    listNode label ns = phraseNode label ts ns := by
  obtain ⟨⟨us, a, hu, begins, hfirst, ha⟩, ⟨vs, b, hv, ends, hlast, hb⟩⟩ := h
  obtain ⟨more, rfl⟩ := List.head?_eq_some_iff.1 hfirst
  simp only [listNode, hlast, ha, hb, extent_through hu hv begins ends, phraseNode]

/-- A list that another node is added to covers all the words. -/
theorem Covers.snoc {ts us vs : List Token} {ns : List Node} {n : Node} (h : Covers us ns)
    (hv : vs ≠ []) (begins : us <+: ts) (ends : vs <:+ ts) (hn : n.place = extent vs) :
    Covers ts (ns ++ [n]) := by
  obtain ⟨⟨ws, m, hw, hws, hfirst, hm⟩, -⟩ := h
  refine ⟨⟨ws, m, hw, hws.trans begins, ?_, hm⟩, ⟨vs, n, hv, ends, ?_, hn⟩⟩
  · rw [List.head?_append, hfirst, Option.some_or]
  · rw [List.getLast?_append, List.getLast?_singleton, Option.some_or]

theorem covers_singleton {ts : List Token} {n : Node} (hts : ts ≠ []) (hn : n.place = extent ts) :
    Covers ts [n] :=
  ⟨⟨ts, n, hts, List.prefix_rfl, rfl, hn⟩, ⟨ts, n, hts, List.suffix_rfl, rfl, hn⟩⟩

namespace Derives

variable {p : Phrase} {ts us : List Token} {ns : List Node} {n : Node}

/-- **A node stands where its words stand.** -/
theorem unit (h : Derives p ts ns) (hp : p.isUnit = true) :
    ts ≠ [] ∧ ∃ n, ns = [n] ∧ n.place = extent ts := by
  induction h with
  | program | noItems | oneMore | parameters | name | nextName | initializer | elsePart | arguments
  | argument | nextArgument | missing | present => cases hp
  | ofVariableDecl _ ih | ofStatement _ ih | ofExpressionStmt _ ih | ofBlock _ ih
  | nextLevel _ ih =>
    exact ih rfl
  | variableClause _ ih | expressionClause _ ih => exact ⟨(ih rfl).1, _, rfl, rfl⟩
  | constant | trueLit | falseLit | nilLit | reference
  | emptyClause => exact ⟨by simp, _, rfl, rfl⟩
  | functionDecl _ _ _ _ _ _ words | variableDecl _ _ _ _ words | expressionStmt _ _ words
  | printStmt _ _ _ words | returnStmt _ _ _ words | ifStmt _ _ _ _ _ _ _ words
  | whileStmt _ _ _ _ _ words | forStmt _ _ _ _ _ _ _ _ words | block _ _ _ words
  | assign _ _ _ words
  | binary _ _ _ words | unary _ _ words | call _ _ _ _ words | grouping _ _ _ words =>
    exact ⟨by simp [words], _, rfl, rfl⟩

theorem ne_nil (h : Derives p ts ns) (hp : p.isUnit = true) : ts ≠ [] := (h.unit hp).1

theorem place (h : Derives p ts [n]) (hp : p.isUnit = true) : n.place = extent ts := by
  obtain ⟨m, hm, hplace⟩ := (h.unit hp).2
  cases hm
  exact hplace

/-- What a phrase with a word stands for is not absent. -/
theorem present_eq (h : Derives p ts [n]) (hp : p.isUnit = true) : n.present? = some n := by
  cases n with
  | absent =>
    obtain ⟨t, ts, rfl⟩ := List.exists_cons_of_ne_nil (h.ne_nil hp)
    have hplace := h.place hp
    rw [extent, List.getLast?_cons] at hplace
    cases hplace
  | _ => rfl

/-- Lists of declarations, of names and of expressions cover their words; only the first may be
empty. -/
theorem covers (h : Derives p ts ns) (hp : p ∈ [Phrase.items, .names, .expressions]) :
    p = .items ∧ ts = [] ∧ ns = [] ∨ Covers ts ns := by
  induction h with
  | noItems => exact .inl ⟨rfl, rfl, rfl⟩
  | oneMore _ item words ih =>
    subst words
    have hv := item.ne_nil rfl
    rcases ih (by simp) with ⟨-, rfl, rfl⟩ | ih
    · exact .inr (covers_singleton hv (item.place rfl))
    · exact .inr (ih.snoc hv (List.prefix_append _ _) (List.suffix_append _ _) (item.place rfl))
  | name => exact .inr (covers_singleton (by simp) rfl)
  | nextName _ _ _ words ih =>
    subst words
    rcases ih (by simp) with ⟨heq, -⟩ | ih
    · cases heq
    · refine .inr (ih.snoc (by simp) (List.prefix_append _ _) ?_ (extent_singleton _).symm)
      exact List.suffix_append_of_suffix (List.suffix_append [_] _)
  | argument h => exact .inr (covers_singleton (h.ne_nil rfl) (h.place rfl))
  | nextArgument _ _ item words ih =>
    subst words
    rcases ih (by simp) with ⟨heq, -⟩ | ih
    · cases heq
    · refine .inr (ih.snoc (item.ne_nil rfl) (List.prefix_append _ _) ?_ (item.place rfl))
      exact List.suffix_append_of_suffix (List.suffix_cons _ _)
  | _ => simp at hp

/-- The node of such a list. -/
theorem listNode_eq (h : Derives p ts ns) (hp : p ∈ [Phrase.items, .names, .expressions])
    (label : Label) :
    listNode label ns = phraseNode label ts ns := by
  rcases h.covers hp with ⟨-, rfl, rfl⟩ | h
  · rfl
  · exact h.listNode_eq label

/-- An expression of one level is one of every lower level. -/
theorem level_le {i j : Nat} (h : Derives (.level j) ts [n]) (hij : i ≤ j) :
    Derives (.level i) ts [n] := by
  induction hij with
  | refl => exact h
  | step _ ih => exact ih h.nextLevel

end Derives

end Source

end LoxLang
