import LoxLang.Proofs.Grammar
import Mathlib.Data.List.Basic

/-!
# The words of the grammar

Whether a run of words is a phrase depends on their kinds only, and the productions alone say which
kinds it may have. A tree says more: of two `if` statements that could take an `else`, the nearer
one does. This choice between trees loses no words.

* `Generates`: the productions of the grammar, for the kinds of words and without trees.

Results: `Derives.generates` — the words of a derivation have kinds that are generated;
`Derives.append_else` — an `else` after a statement that is open goes to an `if` inside of it;
`Generates.derives` — words whose kinds are generated have a tree.
-/

set_option autoImplicit false

namespace LoxLang

namespace Source

/-- The phrases that stand for any number of nodes; all others stand for one. -/
def Phrase.isList : Phrase → Bool
  | .items | .names | .expressions => true
  | _ => false

/-- The phrases of which no part may be missing but one that stands for a node. -/
def Phrase.isProper : Phrase → Bool
  | .optional p => !p.isList && p.isProper
  | _ => true

/-- The kinds of words that a phrase consists of, one constructor for each production. -/
inductive Generates : Phrase → List Terminal → Prop
  -- `program: declaration*`
  | program {ks : List Terminal} (items : Generates .items ks) : Generates .program ks
  | noItems : Generates .items []
  | oneMore {us vs : List Terminal} (items : Generates .items us)
    (item : Generates .declaration vs) :
    Generates .items (us ++ vs)
  -- `declaration: fundecl | vardecl | statement`
  | functionDecl {ps bs : List Terminal} (parameters : Generates (.optional .parameters) ps)
    (block : Generates .block bs) :
    Generates .declaration
      (.keyword .funWord :: .identifier :: .symbol .leftParen :: (ps ++ .symbol .rightParen :: bs))
  | ofVariableDecl {ks : List Terminal} (h : Generates .variableDecl ks) : Generates .declaration ks
  | ofStatement {ks : List Terminal} (h : Generates .statement ks) : Generates .declaration ks
  -- `params: IDENT ("," IDENT)*`
  | parameters {ks : List Terminal} (names : Generates .names ks) : Generates .parameters ks
  | name : Generates .names [.identifier]
  | nextName {us : List Terminal} (names : Generates .names us) :
    Generates .names (us ++ [.symbol .comma, .identifier])
  -- `vardecl: "var" IDENT ["=" expr] ";"`
  | variableDecl {vs : List Terminal} (initializer : Generates (.optional .initializer) vs) :
    Generates .variableDecl (.keyword .varWord :: .identifier :: (vs ++ [.symbol .semicolon]))
  | initializer {vs : List Terminal} (expr : Generates .expression vs) :
    Generates .initializer (.symbol .equal :: vs)
  -- `statement: exprstmt | printstmt | returnstmt | ifstmt | whilestmt | forstmt | block`
  | ofExpressionStmt {ks : List Terminal} (h : Generates .expressionStmt ks) :
    Generates .statement ks
  | expressionStmt {vs : List Terminal} (expr : Generates .expression vs) :
    Generates .expressionStmt (vs ++ [.symbol .semicolon])
  | printStmt {vs : List Terminal} (expr : Generates .expression vs) :
    Generates .statement (.keyword .printWord :: (vs ++ [.symbol .semicolon]))
  | returnStmt {vs : List Terminal} (expr : Generates (.optional .expression) vs) :
    Generates .statement (.keyword .returnWord :: (vs ++ [.symbol .semicolon]))
  -- `ifstmt: "if" "(" expr ")" statement ["else" statement]`
  | ifStmt {es ys os : List Terminal} (expr : Generates .expression es)
    (branch : Generates .statement ys) (other : Generates (.optional .elsePart) os) :
    Generates .statement
      (.keyword .ifWord :: .symbol .leftParen :: (es ++ .symbol .rightParen :: (ys ++ os)))
  | elsePart {vs : List Terminal} (branch : Generates .statement vs) :
    Generates .elsePart (.keyword .elseWord :: vs)
  | whileStmt {es bs : List Terminal} (expr : Generates .expression es)
    (branch : Generates .statement bs) :
    Generates .statement
      (.keyword .whileWord :: .symbol .leftParen :: (es ++ .symbol .rightParen :: bs))
  -- `forstmt: "for" "(" forinit [expr] ";" [expr] ")" statement`
  | forStmt {cs es ss bs : List Terminal} (clause : Generates .clause cs)
    (condition : Generates (.optional .expression) es)
    (update : Generates (.optional .expression) ss) (branch : Generates .statement bs) :
    Generates .statement (.keyword .forWord :: .symbol .leftParen ::
      (cs ++ (es ++ .symbol .semicolon :: (ss ++ .symbol .rightParen :: bs))))
  | variableClause {ks : List Terminal} (h : Generates .variableDecl ks) : Generates .clause ks
  | expressionClause {ks : List Terminal} (h : Generates .expressionStmt ks) : Generates .clause ks
  | emptyClause : Generates .clause [.symbol .semicolon]
  | ofBlock {ks : List Terminal} (h : Generates .block ks) : Generates .statement ks
  | block {us : List Terminal} (items : Generates .items us) :
    Generates .block (.symbol .leftBrace :: (us ++ [.symbol .rightBrace]))
  -- `assignment: IDENT "=" assignment | logic_or`
  | assign {vs : List Terminal} (expr : Generates (.level 0) vs) :
    Generates (.level 0) (.identifier :: .symbol .equal :: vs)
  -- the phrases from `logic_or` to `factor`
  | binary {i : Nat} {ls rs : List Terminal} {op : Terminal} (first : Generates (.level i) ls)
    (hop : op ∈ operators i) (second : Generates (.level (i + 1)) rs) :
    Generates (.level i) (ls ++ op :: rs)
  | nextLevel {i : Nat} {ks : List Terminal} (h : Generates (.level (i + 1)) ks) :
    Generates (.level i) ks
  -- `unary: (BANG | MINUS) unary | call`
  | unary {vs : List Terminal} {op : Terminal}
    (hop : op ∈ [Terminal.symbol .bang, .symbol .minus]) (expr : Generates (.level 7) vs) :
    Generates (.level 7) (op :: vs)
  -- `call: primary | call "(" [args] ")"`
  | call {cs as : List Terminal} (first : Generates (.level 8) cs)
    (arguments : Generates (.optional .arguments) as) :
    Generates (.level 8) (cs ++ .symbol .leftParen :: (as ++ [.symbol .rightParen]))
  | arguments {ks : List Terminal} (items : Generates .expressions ks) : Generates .arguments ks
  | argument {ks : List Terminal} (h : Generates .expression ks) : Generates .expressions ks
  | nextArgument {us vs : List Terminal} (items : Generates .expressions us)
    (item : Generates .expression vs) : Generates .expressions (us ++ .symbol .comma :: vs)
  -- `primary: NUMBER | STRING | "true" | "false" | "nil" | IDENT | "(" expr ")"`
  | operand {k : Terminal}
    (hk : k ∈ [Terminal.number, .string, .keyword .trueWord, .keyword .falseWord,
      .keyword .nilWord, .identifier]) : Generates (.level 9) [k]
  | grouping {es : List Terminal} (expr : Generates .expression es) :
    Generates (.level 9) (.symbol .leftParen :: (es ++ [.symbol .rightParen]))
  -- `[...]`
  | missing {p : Phrase} : Generates (.optional p) []
  | present {p : Phrase} {ks : List Terminal} (hp : p.isList = false) (h : Generates p ks) :
    Generates (.optional p) ks

theorem Generates.level_le {i j : Nat} {ks : List Terminal} (h : Generates (.level j) ks)
    (hij : i ≤ j) :
    Generates (.level i) ks := by
  induction hij with
  | refl => exact h
  | step _ ih => exact ih h.nextLevel

namespace Derives

variable {p : Phrase} {ts : List Token} {ns : List Node}

theorem single (h : Derives p ts ns) (hp : p.isList = false) : ∃ n, ns = [n] := by
  cases h with
  | noItems | oneMore | name | nextName | argument | nextArgument => cases hp
  | _ => exact ⟨_, rfl⟩

/-- **The words of a derivation have kinds that are generated.** -/
theorem generates (h : Derives p ts ns) (hp : p.isProper = true) :
    Generates p (ts.map Token.kind) := by
  induction h with
  | program _ ih => exact .program (ih rfl)
  | noItems => exact .noItems
  | oneMore _ _ words ihs ih =>
    subst words
    simpa using .oneMore (ihs rfl) (ih rfl)
  | functionDecl hstart hname hleft _ hright _ words ihp ihb =>
    subst words
    simpa [hstart, hname, hleft, hright] using .functionDecl (ihp rfl) (ihb rfl)
  | ofVariableDecl _ ih => exact .ofVariableDecl (ih rfl)
  | ofStatement _ ih => exact .ofStatement (ih rfl)
  | parameters _ ih => exact .parameters (ih rfl)
  | name ht => simpa [ht] using .name
  | nextName _ hcomma ht words ih =>
    subst words
    simpa [hcomma, ht] using .nextName (ih rfl)
  | variableDecl hstart hname _ hstop words ih =>
    subst words
    simpa [hstart, hname, hstop] using .variableDecl (ih rfl)
  | initializer hequal _ words ih =>
    subst words
    simpa [hequal] using .initializer (ih rfl)
  | ofExpressionStmt _ ih => exact .ofExpressionStmt (ih rfl)
  | expressionStmt _ hstop words ih =>
    subst words
    simpa [hstop] using .expressionStmt (ih rfl)
  | printStmt hstart _ hstop words ih =>
    subst words
    simpa [hstart, hstop] using .printStmt (ih rfl)
  | returnStmt hstart _ hstop words ih =>
    subst words
    simpa [hstart, hstop] using .returnStmt (ih rfl)
  | ifStmt hstart hleft _ hright _ _ _ words iht ihy ihn =>
    subst words
    simpa [hstart, hleft, hright] using .ifStmt (iht rfl) (ihy rfl) (ihn rfl)
  | elsePart hstart _ words ih =>
    subst words
    simpa [hstart] using .elsePart (ih rfl)
  | whileStmt hstart hleft _ hright _ words iht ihb =>
    subst words
    simpa [hstart, hleft, hright] using .whileStmt (iht rfl) (ihb rfl)
  | forStmt hstart hleft _ _ hstop _ hright _ words ihi iht ihs ihb =>
    subst words
    simpa [hstart, hleft, hstop, hright] using .forStmt (ihi rfl) (iht rfl) (ihs rfl) (ihb rfl)
  | variableClause _ ih => exact .variableClause (ih rfl)
  | expressionClause _ ih => exact .expressionClause (ih rfl)
  | emptyClause ht => simpa [ht] using .emptyClause
  | ofBlock _ ih => exact .ofBlock (ih rfl)
  | block hstart _ hstop words ih =>
    subst words
    simpa [hstart, hstop] using .block (ih rfl)
  | assign hname hequal _ words ih =>
    subst words
    simpa [hname, hequal] using .assign (ih rfl)
  | binary _ hop _ words ihl ihr =>
    subst words
    simpa using .binary (ihl rfl) hop (ihr rfl)
  | nextLevel _ ih => exact .nextLevel (ih rfl)
  | unary hop _ words ih =>
    subst words
    exact .unary hop (ih rfl)
  | call _ hleft _ hright words ihc iha =>
    subst words
    simpa [hleft, hright] using .call (ihc rfl) (iha rfl)
  | arguments _ ih => exact .arguments (ih rfl)
  | argument _ ih => exact .argument (ih rfl)
  | nextArgument _ hcomma _ words ihs ih =>
    subst words
    simpa [hcomma] using .nextArgument (ihs rfl) (ih rfl)
  | constant ht => exact .operand (List.mem_append_left _ ht)
  | trueLit ht | falseLit ht | nilLit ht | reference ht => exact .operand (by simp [ht])
  | grouping hleft _ hright words ih =>
    subst words
    simpa [hleft, hright] using .grouping (ih rfl)
  | missing => exact .missing
  | present _ ih =>
    simp only [Phrase.isProper, Bool.and_eq_true, Bool.not_eq_true'] at hp
    exact .present hp.1 (ih hp.2)

/-! ## Where an `else` goes -/

theorem not_endsOpen_expressionStmt {n : Node} (h : Derives .expressionStmt ts [n]) :
    ¬ n.EndsOpen := by
  cases h
  nofun

theorem not_endsOpen_block {n : Node} (h : Derives .block ts [n]) : ¬ n.EndsOpen := by
  cases h
  nofun

/-- **An `else` after a statement that is open goes to an `if` inside of it.** -/
theorem append_else {ys vs : List Token} {n no : Node} {other : Token}
    (h : Derives .statement ys [n])
    (hopen : n.EndsOpen) (hother : other.kind = .keyword .elseWord)
    (hno : Derives .statement vs [no]) :
    ∃ m, Derives .statement (ys ++ other :: vs) [m] := by
  -- the last part of the statement has fewer words
  induction hlength : ys.length using Nat.strongRecOn generalizing ys n with
  | ind length ih =>
    subst hlength
    cases h with
    | ofExpressionStmt h => exact absurd hopen h.not_endsOpen_expressionStmt
    | ofBlock h => exact absurd hopen h.not_endsOpen_block
    | printStmt | returnStmt => cases hopen
    | @ifStmt _ es zs os start left right test yes no' hstart hleft expr hright branch
        otherPart nearest words =>
      subst words
      cases otherPart with
      | missing =>
        by_cases hyes : yes.EndsOpen
        · obtain ⟨m, hm⟩ := ih _ (by simp; omega) branch hyes rfl
          exact ⟨_, .ifStmt hstart hleft expr hright hm .missing (by simp) (by simp)⟩
        · exact ⟨_, .ifStmt hstart hleft expr hright branch (.present (.elsePart hother hno rfl))
            (fun _ => hyes) (by simp)⟩
      | present h =>
        cases h with
        | elsePart helse branch' words =>
          subst words
          have closed := nearest (by simp)
          have hopen' : no'.EndsOpen := by
            cases hopen with
            | withoutElse => exact absurd (branch'.present_eq rfl) nofun
            | inElse h => exact h
          obtain ⟨m, hm⟩ := ih _ (by simp; omega) branch' hopen' rfl
          exact ⟨_, .ifStmt hstart hleft expr hright branch (.present (.elsePart helse hm rfl))
            (fun _ => closed) (by simp)⟩
    | whileStmt hstart hleft expr hright branch words =>
      subst words
      cases hopen with
      | inWhile hopen =>
        obtain ⟨m, hm⟩ := ih _ (by simp; omega) branch hopen rfl
        exact ⟨_, .whileStmt hstart hleft expr hright hm (by simp)⟩
    | forStmt hstart hleft clause condition hstop update hright branch words =>
      subst words
      cases hopen with
      | inFor hopen =>
        obtain ⟨m, hm⟩ := ih _ (by simp; omega) branch hopen rfl
        exact ⟨_, .forStmt hstart hleft clause condition hstop update hright hm (by simp)⟩

/-- Whatever the branches of an `if` are, its words have a tree. -/
theorem exists_ifStmt {es ys os : List Token} {start left right : Token} {test yes no : Node}
    (hstart : start.kind = .keyword .ifWord) (hleft : left.kind = .symbol .leftParen)
    (expr : Derives .expression es [test]) (hright : right.kind = .symbol .rightParen)
    (branch : Derives .statement ys [yes]) (other : Derives (.optional .elsePart) os [no]) :
    ∃ n, Derives .statement (start :: left :: (es ++ right :: (ys ++ os))) [n] := by
  by_cases hyes : yes.EndsOpen
  · cases other with
    | missing => exact ⟨_, .ifStmt hstart hleft expr hright branch .missing (by simp) rfl⟩
    | present h =>
      cases h with
      | elsePart helse branch' words =>
        subst words
        obtain ⟨m, hm⟩ := branch.append_else hyes helse branch'
        exact ⟨_, .ifStmt hstart hleft expr hright hm .missing (by simp) (by simp)⟩
  · exact ⟨_, .ifStmt hstart hleft expr hright branch other (fun _ => hyes) rfl⟩

end Derives

/-- Words of the given kinds stand for one node of the phrase. -/
def Formed (p : Phrase) (ks : List Terminal) : Prop :=
  ∀ ts : List Token, ts.map Token.kind = ks → ∃ n, Derives p ts [n]

theorem formed_of_derives {p : Phrase} {ks : List Terminal} (hp : p.isList = false)
    (h : ∀ ts : List Token, ts.map Token.kind = ks → ∃ ns, Derives p ts ns) :
    Formed p ks := by
  intro ts hts
  obtain ⟨ns, hns⟩ := h ts hts
  obtain ⟨n, rfl⟩ := hns.single hp
  exact ⟨n, hns⟩

/-- **Words whose kinds are generated have a tree.** -/
theorem Generates.derives {p : Phrase} {ks : List Terminal} (h : Generates p ks) :
    ∀ ts : List Token, ts.map Token.kind = ks → ∃ ns, Derives p ts ns := by
  induction h with
  | program _ ih =>
    intro ts hts
    obtain ⟨ns, h⟩ := ih ts hts
    exact ⟨_, .program h⟩
  | noItems =>
    intro ts hts
    obtain rfl := List.map_eq_nil_iff.1 hts
    exact ⟨_, .noItems⟩
  | oneMore _ _ ihs ih =>
    intro ts hts
    obtain ⟨us, vs, rfl, hus, hvs⟩ := List.map_eq_append_iff.1 hts
    obtain ⟨ns, items⟩ := ihs us hus
    obtain ⟨n, item⟩ := formed_of_derives rfl ih vs hvs
    exact ⟨_, .oneMore items item rfl⟩
  | functionDecl _ _ ihp ihb =>
    intro ts hts
    simp only [List.map_eq_cons_iff, List.map_eq_append_iff] at hts
    obtain ⟨start, -, rfl, hstart, name, -, rfl, hname, left, -, rfl, hleft, ps, -, rfl, hps,
      right, bs, rfl, hright, hbs⟩ := hts
    obtain ⟨params, parameters⟩ := formed_of_derives rfl ihp ps hps
    obtain ⟨body, block⟩ := formed_of_derives rfl ihb bs hbs
    exact ⟨_, .functionDecl hstart hname hleft parameters hright block rfl⟩
  | ofVariableDecl _ ih =>
    intro ts hts
    obtain ⟨n, h⟩ := formed_of_derives rfl ih ts hts
    exact ⟨_, .ofVariableDecl h⟩
  | ofStatement _ ih =>
    intro ts hts
    obtain ⟨n, h⟩ := formed_of_derives rfl ih ts hts
    exact ⟨_, .ofStatement h⟩
  | parameters _ ih =>
    intro ts hts
    obtain ⟨ns, names⟩ := ih ts hts
    exact ⟨_, .parameters names⟩
  | name =>
    intro ts hts
    simp only [List.map_eq_cons_iff, List.map_eq_nil_iff] at hts
    obtain ⟨t, -, rfl, ht, rfl⟩ := hts
    exact ⟨_, .name ht⟩
  | nextName _ ih =>
    intro ts hts
    simp only [List.map_eq_cons_iff, List.map_eq_append_iff, List.map_eq_nil_iff] at hts
    obtain ⟨us, -, rfl, hus, comma, -, rfl, hcomma, t, -, rfl, ht, rfl⟩ := hts
    obtain ⟨ns, names⟩ := ih us hus
    exact ⟨_, .nextName names hcomma ht rfl⟩
  | variableDecl _ ih =>
    intro ts hts
    simp only [List.map_eq_cons_iff, List.map_eq_append_iff, List.map_eq_nil_iff] at hts
    obtain ⟨start, -, rfl, hstart, name, -, rfl, hname, vs, -, rfl, hvs, stop, -, rfl, hstop,
      rfl⟩ := hts
    obtain ⟨value, initializer⟩ := formed_of_derives rfl ih vs hvs
    exact ⟨_, .variableDecl hstart hname initializer hstop rfl⟩
  | initializer _ ih =>
    intro ts hts
    obtain ⟨equal, vs, rfl, hequal, hvs⟩ := List.map_eq_cons_iff.1 hts
    obtain ⟨value, expr⟩ := formed_of_derives rfl ih vs hvs
    exact ⟨_, .initializer hequal expr rfl⟩
  | ofExpressionStmt _ ih =>
    intro ts hts
    obtain ⟨n, h⟩ := formed_of_derives rfl ih ts hts
    exact ⟨_, .ofExpressionStmt h⟩
  | expressionStmt _ ih =>
    intro ts hts
    simp only [List.map_eq_cons_iff, List.map_eq_append_iff, List.map_eq_nil_iff] at hts
    obtain ⟨vs, -, rfl, hvs, stop, -, rfl, hstop, rfl⟩ := hts
    obtain ⟨value, expr⟩ := formed_of_derives rfl ih vs hvs
    exact ⟨_, .expressionStmt expr hstop rfl⟩
  | printStmt _ ih =>
    intro ts hts
    simp only [List.map_eq_cons_iff, List.map_eq_append_iff, List.map_eq_nil_iff] at hts
    obtain ⟨start, -, rfl, hstart, vs, -, rfl, hvs, stop, -, rfl, hstop, rfl⟩ := hts
    obtain ⟨value, expr⟩ := formed_of_derives rfl ih vs hvs
    exact ⟨_, .printStmt hstart expr hstop rfl⟩
  | returnStmt _ ih =>
    intro ts hts
    simp only [List.map_eq_cons_iff, List.map_eq_append_iff, List.map_eq_nil_iff] at hts
    obtain ⟨start, -, rfl, hstart, vs, -, rfl, hvs, stop, -, rfl, hstop, rfl⟩ := hts
    obtain ⟨value, expr⟩ := formed_of_derives rfl ih vs hvs
    exact ⟨_, .returnStmt hstart expr hstop rfl⟩
  | ifStmt _ _ _ iht ihy ihn =>
    intro ts hts
    simp only [List.map_eq_cons_iff, List.map_eq_append_iff] at hts
    obtain ⟨start, -, rfl, hstart, left, -, rfl, hleft, es, -, rfl, hes, right, -, rfl, hright,
      ys, os, rfl, hys, hos⟩ := hts
    obtain ⟨test, expr⟩ := formed_of_derives rfl iht es hes
    obtain ⟨yes, branch⟩ := formed_of_derives rfl ihy ys hys
    obtain ⟨no, other⟩ := formed_of_derives rfl ihn os hos
    obtain ⟨n, hn⟩ := Derives.exists_ifStmt hstart hleft expr hright branch other
    exact ⟨_, hn⟩
  | elsePart _ ih =>
    intro ts hts
    obtain ⟨start, vs, rfl, hstart, hvs⟩ := List.map_eq_cons_iff.1 hts
    obtain ⟨n, branch⟩ := formed_of_derives rfl ih vs hvs
    exact ⟨_, .elsePart hstart branch rfl⟩
  | whileStmt _ _ iht ihb =>
    intro ts hts
    simp only [List.map_eq_cons_iff, List.map_eq_append_iff] at hts
    obtain ⟨start, -, rfl, hstart, left, -, rfl, hleft, es, -, rfl, hes, right, bs, rfl, hright,
      hbs⟩ := hts
    obtain ⟨test, expr⟩ := formed_of_derives rfl iht es hes
    obtain ⟨body, branch⟩ := formed_of_derives rfl ihb bs hbs
    exact ⟨_, .whileStmt hstart hleft expr hright branch rfl⟩
  | forStmt _ _ _ _ ihc iht ihs ihb =>
    intro ts hts
    simp only [List.map_eq_cons_iff, List.map_eq_append_iff] at hts
    obtain ⟨start, -, rfl, hstart, left, -, rfl, hleft, cs, -, rfl, hcs, es, -, rfl, hes, stop,
      -, rfl, hstop, ss, -, rfl, hss, right, bs, rfl, hright, hbs⟩ := hts
    obtain ⟨init, clause⟩ := formed_of_derives rfl ihc cs hcs
    obtain ⟨test, condition⟩ := formed_of_derives rfl iht es hes
    obtain ⟨step, update⟩ := formed_of_derives rfl ihs ss hss
    obtain ⟨body, branch⟩ := formed_of_derives rfl ihb bs hbs
    exact ⟨_, .forStmt hstart hleft clause condition hstop update hright branch rfl⟩
  | variableClause _ ih =>
    intro ts hts
    obtain ⟨n, h⟩ := formed_of_derives rfl ih ts hts
    exact ⟨_, .variableClause h⟩
  | expressionClause _ ih =>
    intro ts hts
    obtain ⟨n, h⟩ := formed_of_derives rfl ih ts hts
    exact ⟨_, .expressionClause h⟩
  | emptyClause =>
    intro ts hts
    simp only [List.map_eq_cons_iff, List.map_eq_nil_iff] at hts
    obtain ⟨t, -, rfl, ht, rfl⟩ := hts
    exact ⟨_, .emptyClause ht⟩
  | ofBlock _ ih =>
    intro ts hts
    obtain ⟨n, h⟩ := formed_of_derives rfl ih ts hts
    exact ⟨_, .ofBlock h⟩
  | block _ ih =>
    intro ts hts
    simp only [List.map_eq_cons_iff, List.map_eq_append_iff, List.map_eq_nil_iff] at hts
    obtain ⟨start, -, rfl, hstart, us, -, rfl, hus, stop, -, rfl, hstop, rfl⟩ := hts
    obtain ⟨ns, items⟩ := ih us hus
    exact ⟨_, .block hstart items hstop rfl⟩
  | assign _ ih =>
    intro ts hts
    simp only [List.map_eq_cons_iff] at hts
    obtain ⟨name, -, rfl, hname, equal, vs, rfl, hequal, hvs⟩ := hts
    obtain ⟨value, expr⟩ := formed_of_derives rfl ih vs hvs
    exact ⟨_, .assign hname hequal expr rfl⟩
  | binary _ hop _ ihl ihr =>
    intro ts hts
    simp only [List.map_eq_cons_iff, List.map_eq_append_iff] at hts
    obtain ⟨ls, -, rfl, hls, op, rs, rfl, rfl, hrs⟩ := hts
    obtain ⟨left, first⟩ := formed_of_derives rfl ihl ls hls
    obtain ⟨right, second⟩ := formed_of_derives rfl ihr rs hrs
    exact ⟨_, .binary first hop second rfl⟩
  | nextLevel _ ih =>
    intro ts hts
    obtain ⟨n, h⟩ := formed_of_derives rfl ih ts hts
    exact ⟨_, .nextLevel h⟩
  | unary hop _ ih =>
    intro ts hts
    obtain ⟨op, vs, rfl, rfl, hvs⟩ := List.map_eq_cons_iff.1 hts
    obtain ⟨operand, expr⟩ := formed_of_derives rfl ih vs hvs
    exact ⟨_, .unary hop expr rfl⟩
  | call _ _ ihc iha =>
    intro ts hts
    simp only [List.map_eq_cons_iff, List.map_eq_append_iff, List.map_eq_nil_iff] at hts
    obtain ⟨cs, -, rfl, hcs, left, -, rfl, hleft, as, -, rfl, has, right, -, rfl, hright,
      rfl⟩ := hts
    obtain ⟨callee, first⟩ := formed_of_derives rfl ihc cs hcs
    obtain ⟨args, arguments⟩ := formed_of_derives rfl iha as has
    exact ⟨_, .call first hleft arguments hright rfl⟩
  | arguments _ ih =>
    intro ts hts
    obtain ⟨ns, items⟩ := ih ts hts
    exact ⟨_, .arguments items⟩
  | argument _ ih =>
    intro ts hts
    obtain ⟨n, h⟩ := formed_of_derives rfl ih ts hts
    exact ⟨_, .argument h⟩
  | nextArgument _ _ ihs ih =>
    intro ts hts
    simp only [List.map_eq_cons_iff, List.map_eq_append_iff] at hts
    obtain ⟨us, -, rfl, hus, comma, vs, rfl, hcomma, hvs⟩ := hts
    obtain ⟨ns, items⟩ := ihs us hus
    obtain ⟨n, item⟩ := formed_of_derives rfl ih vs hvs
    exact ⟨_, .nextArgument items hcomma item rfl⟩
  | operand hk =>
    intro ts hts
    simp only [List.map_eq_cons_iff, List.map_eq_nil_iff] at hts
    obtain ⟨t, -, rfl, rfl, rfl⟩ := hts
    simp only [List.mem_cons, List.not_mem_nil, or_false] at hk
    rcases hk with hk | hk | hk | hk | hk | hk
    · exact ⟨_, .constant (by simp [hk])⟩
    · exact ⟨_, .constant (by simp [hk])⟩
    · exact ⟨_, .trueLit hk⟩
    · exact ⟨_, .falseLit hk⟩
    · exact ⟨_, .nilLit hk⟩
    · exact ⟨_, .reference hk⟩
  | grouping _ ih =>
    intro ts hts
    simp only [List.map_eq_cons_iff, List.map_eq_append_iff, List.map_eq_nil_iff] at hts
    obtain ⟨left, -, rfl, hleft, es, -, rfl, hes, right, -, rfl, hright, rfl⟩ := hts
    obtain ⟨inner, expr⟩ := formed_of_derives rfl ih es hes
    exact ⟨_, .grouping hleft expr hright rfl⟩
  | missing =>
    intro ts hts
    obtain rfl := List.map_eq_nil_iff.1 hts
    exact ⟨_, .missing⟩
  | present hp _ ih =>
    intro ts hts
    obtain ⟨n, h⟩ := formed_of_derives hp ih ts hts
    exact ⟨_, .present h⟩

end Source

end LoxLang
