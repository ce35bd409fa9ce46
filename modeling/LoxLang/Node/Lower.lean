import LoxLang.Node

/-!
# Loops with a header

A loop `for (init; test; step) body` is written with a block and a `while` loop:

    { init while (test) { body step; } }

An absent test is true, and an absent step is left out. The nodes that are made for it have no
place.

* `Node.loop`: the replacement of one loop.
* `Node.lower`: the replacement of every loop in a tree, the inner ones first.
-/

set_option autoImplicit false

namespace LoxLang

/-- The block that a loop with a header stands for. -/
def Node.loop (init test step body : Node) : Node :=
  let test := test.present?.getD (.tree .trueLit [] .unknown)
  let steps := step.present?.toList.map fun e => Node.tree .expressionStmt [e] .unknown
  .tree .block
    (init.parts ++ [.tree .whileStmt [test, .tree .block (body :: steps) .unknown] .unknown])
    .unknown

mutual

/-- Replaces the loops with a header in a tree. -/
def Node.lower : Node → Node
  | .tree label parts place =>
    match label, Node.lowerAll parts with
    | .forStmt, [init, test, step, body] => Node.loop init test step body
    | label, parts => .tree label parts place
  | node => node

/-- Replaces the loops with a header in several trees. -/
def Node.lowerAll : List Node → List Node
  | [] => []
  | node :: rest => node.lower :: Node.lowerAll rest

end

end LoxLang
