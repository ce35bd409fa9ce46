import LoxLang.Form

/-!
# Which trees mean what

What a node looks like, given the statement or the expression that it is. With these inversions the
parts of a statement or expression are found among the parts of its node, and no later proof opens
the two functions that read nodes.

* `Failure.OfForm`: how a node fails that means nothing.
* `StatementForm`, `ExpressionForm`: a node beside what it means.

Results: `Node.statementForm`, `Node.expressionForm` — every node has the form of what it means.
-/

set_option autoImplicit false

namespace LoxLang

/-- The failures of nodes that mean nothing. -/
inductive Failure.OfForm : Failure → Prop
  | malformed : OfForm .malformed
  | missing : OfForm .missing
  | hollow : OfForm .hollow
  | unknownStatement (n : Node) : OfForm (.of (.unknownStatement n))
  | unknownExpression (n : Node) : OfForm (.of (.unknownExpression n))
  | unhandledWord (kind : Kind) (text : String) : OfForm (.of (.unhandledWord kind text))
  | malformedFunction : OfForm (.of .malformedFunction)
  | unsupportedParameter (n : Node) : OfForm (.of (.unsupportedParameter n))

/-- A node beside the statement that it is. Only the first part of some nodes is looked at, and a
node that means nothing may look like anything. -/
inductive StatementForm : Node → Statement → Prop
  | expression {value : Node} {rest : List Node} {place : Place} :
    StatementForm (.tree .expressionStmt (value :: rest) place) (.expression value)
  | print {value : Node} {rest : List Node} {place : Place} :
    StatementForm (.tree .printStmt (value :: rest) place) (.print value)
  | declare {name value : Node} {place : Place} :
    StatementForm (.tree .variableDecl [name, value] place) (.declare name.plainText value.present?)
  | block {n : Node} (label : n.label? = some .block) : StatementForm n (.block n.parts)
  | branch {test yes no : Node} {place : Place} :
    StatementForm (.tree .ifStmt [test, yes, no] place) (.branch test yes no.present?)
  | loop {test body : Node} {place : Place} :
    StatementForm (.tree .whileStmt [test, body] place) (.loop test body)
  | function {name params body : Node} {place : Place} {x : String} {names : List String}
    (named : name.identifier? = some x) :
    StatementForm (.tree .functionDecl [name, params, body] place)
      (.function x names body.bodyParts)
  | result {value : Node} {rest : List Node} {place : Place} :
    StatementForm (.tree .returnStmt (value :: rest) place) (.result value.present?)
  | bareResult {n : Node} : StatementForm n (.result none)
  | invalid {n : Node} {failure : Failure} (ill : failure.OfForm) :
    StatementForm n (.invalid failure)

/-- A node beside the expression that it is. -/
inductive ExpressionForm : Node → Expression → Prop
  | constant {n : Node} {v : Value} (data : ∀ c, v ≠ .function c) :
    ExpressionForm n (.constant v)
  | number {n : Node} {x : Float} : ExpressionForm n (.number x)
  | reference {name : Node} {rest : List Node} {place : Place} :
    ExpressionForm (.tree .reference (name :: rest) place) (.reference name.plainText)
  | assign {name value : Node} {place : Place} :
    ExpressionForm (.tree .assign [name, value] place) (.assign name.plainText value)
  | grouping {inner : Node} {rest : List Node} {place : Place} :
    ExpressionForm (.tree .grouping (inner :: rest) place) (.grouping inner)
  | unary {op operand : Node} {place : Place} :
    ExpressionForm (.tree .unary [op, operand] place) (.unary op.plainText operand)
  | binary {left op right : Node} {place : Place} :
    ExpressionForm (.tree .binary [left, op, right] place) (.binary left op.plainText right)
  | logical {left op right : Node} {place : Place} :
    ExpressionForm (.tree .logical [left, op, right] place) (.logical left op.plainText right)
  | call {callee arguments : Node} {place : Place} :
    ExpressionForm (.tree .call [callee, arguments] place) (.call callee arguments.parts)
  | invalid {n : Node} {failure : Failure} (ill : failure.OfForm) :
    ExpressionForm n (.invalid failure)

namespace Node

theorem present?_eq {n e : Node} (h : n.present? = some e) : n = e := by
  cases n <;> simp_all [present?]

/-- A node with a label and parts is a tree. -/
theorem eq_tree {n m : Node} {label : Label} {rest : List Node} (hlabel : n.label? = some label)
    (hparts : n.parts = m :: rest) : n = .tree label (m :: rest) n.place := by
  cases n with
  | tree l parts place =>
    cases hlabel
    rw [show parts = m :: rest from hparts]
    rfl
  | _ => cases hparts

/-- What holds of the body of a function and of its parts holds of the statements in it. -/
theorem bodyParts_of_parts {P : Node → Prop} {n : Node} (self : P n)
    (parts : ∀ m ∈ n.parts, P m) :
    ∀ m ∈ n.bodyParts, P m := by
  cases n with
  | hollow label place => exact List.forall_mem_singleton.2 self
  | _ => exact parts

theorem parameterNames_error {ns : List Node} {cause : Fault}
    (h : parameterNames ns = .error cause) :
    ∃ n, cause = .unsupportedParameter n := by
  induction ns with
  | nil => cases h
  | cons n ns ih =>
    unfold parameterNames at h
    split at h
    · cases h
      exact ⟨n, rfl⟩
    · cases hns : parameterNames ns with
      | ok names =>
        rw [hns] at h
        cases h
      | error cause' =>
        rw [hns] at h
        cases h
        exact ih hns

theorem functionForm (name params body : Node) (place : Place) :
    StatementForm (.tree .functionDecl [name, params, body] place)
      (functionStatement name params body) := by
  unfold functionStatement
  split
  · rename_i named _
    split
    · exact .function named
    · rename_i failed
      obtain ⟨m, rfl⟩ := parameterNames_error failed
      exact .invalid (.unsupportedParameter m)
  · exact .invalid .malformedFunction

theorem treeStatementForm (n : Node) : StatementForm n (treeStatement n) := by
  -- one case for each way in which the label and the parts are read
  unfold treeStatement
  split
  · rename_i hlabel hparts
    rw [eq_tree hlabel hparts]
    exact .expression
  · exact .invalid .missing
  · rename_i hlabel hparts
    rw [eq_tree hlabel hparts]
    exact .print
  · exact .invalid .missing
  · rename_i hlabel hparts
    rw [eq_tree hlabel hparts]
    exact .declare
  · exact .invalid .malformed
  · rename_i hlabel
    exact .block hlabel
  · rename_i hlabel hparts
    rw [eq_tree hlabel hparts]
    exact .branch
  · exact .invalid .malformed
  · rename_i hlabel hparts
    rw [eq_tree hlabel hparts]
    exact .loop
  · exact .invalid .malformed
  · rename_i hlabel hparts
    rw [eq_tree hlabel hparts]
    exact functionForm _ _ _ _
  · exact .invalid .malformed
  · rename_i hlabel hparts
    rw [eq_tree hlabel hparts]
    exact .result
  · exact .bareResult
  · exact .invalid (.unknownStatement _)

theorem hollowStatementForm (n : Node) : StatementForm n (hollowStatement n) := by
  unfold hollowStatement
  split
  case h_8 => exact .bareResult
  case h_9 => exact .invalid (.unknownStatement _)
  all_goals exact .invalid .hollow

theorem statementForm {n : Node} {st : Statement} (h : n.statement = st) : StatementForm n st := by
  subst h
  unfold Node.statement
  split
  · exact hollowStatementForm _
  · exact treeStatementForm n

theorem wordForm (n : Node) (kind : Kind) (text : String) :
    ExpressionForm n (wordExpression kind text) := by
  unfold wordExpression
  split
  · split
    · exact .number
    · exact .invalid .malformed
  · exact .constant fun _ h => by cases h
  · exact .invalid (.unhandledWord _ _)

theorem treeExpressionForm (n : Node) : ExpressionForm n (treeExpression n) := by
  unfold treeExpression
  split
  · exact .constant fun _ h => by cases h
  · exact .constant fun _ h => by cases h
  · exact .constant fun _ h => by cases h
  · rename_i hlabel hparts
    rw [eq_tree hlabel hparts]
    exact .reference
  · exact .invalid .missing
  · rename_i hlabel hparts
    rw [eq_tree hlabel hparts]
    exact .assign
  · exact .invalid .malformed
  · rename_i hlabel hparts
    rw [eq_tree hlabel hparts]
    exact .grouping
  · exact .invalid .missing
  · rename_i hlabel hparts
    rw [eq_tree hlabel hparts]
    exact .unary
  · exact .invalid .malformed
  · rename_i hlabel hparts
    rw [eq_tree hlabel hparts]
    exact .binary
  · exact .invalid .malformed
  · rename_i hlabel hparts
    rw [eq_tree hlabel hparts]
    exact .logical
  · exact .invalid .malformed
  · rename_i hlabel hparts
    rw [eq_tree hlabel hparts]
    exact .call
  · exact .invalid .malformed
  · exact .invalid (.unknownExpression _)

theorem hollowExpressionForm (n : Node) : ExpressionForm n (hollowExpression n) := by
  unfold hollowExpression
  split
  case h_11 => exact .invalid (.unknownExpression _)
  case h_1 | h_2 | h_3 => exact .constant fun _ h => by cases h
  all_goals exact .invalid .hollow

theorem expressionForm {n : Node} {e : Expression} (h : n.expression = e) : ExpressionForm n e := by
  subst h
  unfold Node.expression
  split
  · exact wordForm _ _ _
  · exact hollowExpressionForm _
  · exact treeExpressionForm n

end Node

end LoxLang
