import LoxLang.Node
import LoxLang.Text.Quoted

/-!
# Nodes in error messages

* `Node.shown`: a node written out with its labels, words and parts.
* `Node.plainText`: the text of a word as it is, and of any other node written out. A declared name
  and an operator are read this way.
-/

set_option autoImplicit false

namespace LoxLang

mutual

/-- A node written out in full. -/
def Node.shown : Node → String
  | .tree label parts _ =>
    "Tree(" ++ Text.quoted label.text ++ ", [" ++ ", ".intercalate (Node.shownAll parts) ++ "])"
  | .word kind text _ => "Token(" ++ Text.quoted kind.name ++ ", " ++ Text.quoted text ++ ")"
  | .bare text => Text.quoted text
  | .absent => "None"
  | .hollow label _ => "Tree(" ++ Text.quoted label.text ++ ", None)"

/-- Several nodes written out. -/
def Node.shownAll : List Node → List String
  | [] => []
  | node :: rest => node.shown :: Node.shownAll rest

end

/-- The text of a word or a bare text, and any other node written out. -/
def Node.plainText : Node → String
  | .word _ text _ => text
  | .bare text => text
  | node => node.shown

/-- What an error message calls a node that means nothing: its label, or else the whole node. -/
def Node.described (node : Node) : String :=
  match node.label? with
  | some label => if label.text = "" then node.shown else Text.quoted label.text
  | none => node.shown

end LoxLang
