import LoxLang.Proofs.Reading
import Mathlib

/-!
# What lowering does to a tree

Replacing the loops with a header is a change of form only: the words of the tree are all still
there, and the words of a loop's last clause, which stand before its body, come after it.

* `Node.leaves`: the words of a tree, with their kinds, texts and places, from left to right.
* `Node.leavesAsRun`: the same words, but with those of the last clause of each loop after those of
  its body.

Results: `Node.lower_eq_self` — a tree without such loops stays the same; `Node.leaves_lower` —
the words of the tree that is made; `lowering_loses_nothing` — all of it for the trees of source
texts.
-/

set_option autoImplicit false

namespace LoxLang

namespace Node

/-! ## Words -/

mutual

/-- The words of a tree, from left to right. -/
def leaves : Node → List Node
  | .tree _ parts _ => leavesAll parts
  | .word kind text place => [.word kind text place]
  | _ => []

/-- The words of several trees. -/
def leavesAll : List Node → List Node
  | [] => []
  | node :: rest => node.leaves ++ leavesAll rest

end

mutual

/-- The words of a tree, those of the last clause of a loop directly after those of its body. -/
def leavesAsRun : Node → List Node
  | .tree .forStmt [init, test, step, body] _ =>
    init.leavesAsRun ++ test.leavesAsRun ++ body.leavesAsRun ++ step.leavesAsRun
  | .tree _ parts _ => leavesAsRunAll parts
  | .word kind text place => [.word kind text place]
  | _ => []

/-- The words of several trees in this order. -/
def leavesAsRunAll : List Node → List Node
  | [] => []
  | node :: rest => node.leavesAsRun ++ leavesAsRunAll rest

end

theorem leavesAll_eq (ns : List Node) : leavesAll ns = ns.flatMap leaves := by
  induction ns with
  | nil => rfl
  | cons n ns ih => rw [leavesAll, ih, List.flatMap_cons]

theorem leavesAsRunAll_eq (ns : List Node) : leavesAsRunAll ns = ns.flatMap leavesAsRun := by
  induction ns with
  | nil => rfl
  | cons n ns ih => rw [leavesAsRunAll, ih, List.flatMap_cons]

@[simp] theorem leaves_tree (label : Label) (parts : List Node) (place : Place) :
    (tree label parts place).leaves = parts.flatMap leaves := by
  rw [leaves, leavesAll_eq]

@[simp] theorem leaves_absent : absent.leaves = [] := rfl

theorem leavesAsRun_for (init test step body : Node) (place : Place) :
    (tree .forStmt [init, test, step, body] place).leavesAsRun =
      init.leavesAsRun ++ test.leavesAsRun ++ body.leavesAsRun ++ step.leavesAsRun := by
  rw [leavesAsRun]

/-- In a tree that is no loop with a header nothing moves. -/
theorem leavesAsRun_other {label : Label} {parts : List Node}
    (h : label = .forStmt → parts.length ≠ 4) (place : Place) :
    (tree label parts place).leavesAsRun = parts.flatMap leavesAsRun := by
  unfold leavesAsRun
  split
  · rename_i heq
    cases heq
    exact absurd rfl (h rfl)
  · rename_i heq
    cases heq
    rw [leavesAsRunAll_eq]
  · rename_i heq
    cases heq
  · rename_i other _
    exact absurd rfl (other label parts place)

/-- The words of a last clause change places with those of the body, and no word is lost. -/
theorem leavesAsRun_perm (n : Node) : n.leavesAsRun.Perm n.leaves := by
  induction n using part_induction with
  | h n ih =>
    cases n with
    | tree label parts place =>
      by_cases hfor : label = .forStmt ∧ parts.length = 4
      · obtain ⟨rfl, hlength⟩ := hfor
        obtain ⟨init, test, step, body, rfl⟩ := List.length_eq_four.1 hlength
        have part {m : Node} (hm : m ∈ [init, test, step, body]) :
            m.leavesAsRun.Perm m.leaves := ih m hm
        rw [leavesAsRun_for, leaves_tree, List.append_assoc]
        simp only [List.flatMap_cons, List.flatMap_nil,
          List.append_nil, ← List.append_assoc init.leaves]
        have head := (part (m := init) (by simp)).append (part (m := test) (by simp))
        have exchanged := (part (m := body) (by simp)).append (part (m := step) (by simp))
        exact head.append (exchanged.trans List.perm_append_comm)
      · rw [leavesAsRun_other (fun hlabel hlength => hfor ⟨hlabel, hlength⟩), leaves_tree]
        exact List.Perm.flatMap_left parts ih
    | word | bare | absent | hollow => exact .refl _

/-! ## Lowering -/

/-- A tree without loops with a header stays the same. -/
theorem lower_eq_self {n : Node} (h : ∀ k, n.Contains k → k.label? ≠ some .forStmt) :
    n.lower = n := by
  induction n using part_induction with
  | h n ih =>
    cases n with
    | tree label parts place =>
      have other : label ≠ .forStmt := fun hlabel => h _ (.here _) (congrArg some hlabel)
      have same : parts.map lower = parts := map_lower_eq fun m hm => ih m hm fun k hk =>
        h k (.part hm hk)
      rw [lower_tree other, same]
    | _ => simp [lower]

theorem leaves_testNode (test : Node) : (testNode test).leaves = test.leaves := by
  cases test <;> simp [testNode, present?]

theorem leaves_roundNode (step body : Node) :
    (roundNode step body).leaves = body.leaves ++ step.leaves := by
  cases step <;> simp [roundNode, present?]

/-- The words of the block that a loop stands for: those of the last clause come after those of the
body. -/
theorem leaves_loop (init : List Node) (test step body : Node) (p : Place) :
    (loop (.tree .forClause init p) test step body).leaves =
      init.flatMap leaves ++ test.leaves ++ body.leaves ++ step.leaves := by
  have form : loop (.tree .forClause init p) test step body =
      .tree .block (init ++ [.tree .whileStmt [testNode test, roundNode step body] .unknown])
        .unknown := rfl
  rw [form, leaves_tree, List.flatMap_append, List.flatMap_singleton, leaves_tree,
    List.flatMap_cons, List.flatMap_singleton, leaves_testNode, leaves_roundNode]
  simp only [List.append_assoc]

/-- **The words of a tree that was lowered**, if its loops have the parts of loops. -/
theorem leaves_lower {n : Node}
    (loops : ∀ m, n.Contains m → m.label? = some .forStmt → m.Is true .statement) :
    n.lower.leaves = n.leavesAsRun := by
  induction n using part_induction with
  | h n ih =>
    have part {m : Node} (hm : m ∈ n.parts) : m.lower.leaves = m.leavesAsRun :=
      ih m hm fun k hk => loops k (.part hm hk)
    cases n with
    | tree label parts place =>
      by_cases hlabel : label = .forStmt
      · subst hlabel
        cases loops _ (.here _) rfl with
        | @forStmt _ init test step body p =>
          have clause : (Node.tree .forClause init p).lower = .tree .forClause (init.map lower) p :=
            lower_tree (by decide) _ _
          have words := part (m := .tree .forClause init p) (.head _)
          rw [clause, leaves_tree] at words
          rw [lower_for, clause, leaves_loop, leavesAsRun_for, words,
            part (m := test) (by simp [parts]), part (m := step) (by simp [parts]),
              part (m := body) (by simp [parts])]
      · rw [lower_tree hlabel, leaves_tree, leavesAsRun_other (fun h => absurd h hlabel),
          List.flatMap_map]
        exact List.flatMap_congr fun m hm => part hm
    | _ => simp [lower, leaves, leavesAsRun]

end Node

/-- A loop with a header in the tree of a text has the parts of one. -/
theorem parseRaw_loops {source : String} {tree k : Node} (h : parseRaw source = .ok tree)
    (inside : tree.Contains k) (hk : k.label? = some .forStmt) : k.Is true .statement := by
  obtain ⟨items, place, rfl, hitems⟩ := parseRaw_shape h
  obtain ⟨item, hitem, within⟩ := inside.inside hk rfl (by decide)
  exact (hitems item hitem).forStmt_inside within hk

/-- In the tree that is run no loop with a header is left, and no first clause of one. -/
theorem parseRaw_unsugared {source : String} {tree k : Node} (h : parseRaw source = .ok tree)
    (inside : tree.lower.Contains k) :
    k.label? ≠ some .forStmt ∧ k.label? ≠ some .forClause := by
  obtain ⟨items, place, rfl, hitems⟩ := parseRaw_shape h
  rw [Node.lower_tree (by decide)] at inside
  cases inside with
  | here => simp [Node.label?]
  | part hm within =>
    have shaped := Node.Is.lower_all (fun n hn => (hitems n hn).lower) _ hm
    exact ((Node.Belongs.role shaped).inside within).no_sugar

/-- **Lowering removes the loops with a header and loses nothing.** The tree of a text in the form
that is run has neither such loops nor their first clauses at any depth. A tree without such loops
stays the same, with all its places, so lowering a second time changes nothing. The words are the
same ones, with their kinds, texts and places; those of the last clause of each loop have moved to
directly after those of its body, and the others are in their order. -/
theorem lowering_loses_nothing (source : String) (tree : Node) (h : parseRaw source = .ok tree) :
    (∀ k, tree.lower.Contains k → k.label? ≠ some .forStmt ∧
      k.label? ≠ some .forClause) ∧
    ((∀ k, tree.Contains k → k.label? ≠ some .forStmt) → tree.lower = tree) ∧
    tree.lower.lower = tree.lower ∧
    tree.lower.leaves = tree.leavesAsRun ∧
    tree.leavesAsRun.Perm tree.leaves := by
  have unsugared (k : Node) (hk : tree.lower.Contains k) := parseRaw_unsugared h hk
  refine ⟨unsugared, Node.lower_eq_self, ?_, ?_, Node.leavesAsRun_perm tree⟩
  · exact Node.lower_eq_self fun k hk => (unsugared k hk).1
  · exact Node.leaves_lower fun m hm hfor => parseRaw_loops h hm hfor

/-- A loop in the body of a loop: the words `b` and `d` of the last clauses come after `e`. -/
theorem lowering_loses_nothing_nested :
    ∃ tree, parseRaw "for(;a;b)for(;c;d)e;" = .ok tree ∧
      tree.leaves.map Node.plainText = ["a", "b", "c", "d", "e"] ∧
      tree.lower.leaves.map Node.plainText = ["a", "c", "e", "d", "b"] ∧
      tree.lower.lower = tree.lower := by
  have words : (parseRaw "for(;a;b)for(;c;d)e;").toOption.map (fun tree =>
      (tree.leaves.map Node.plainText, tree.leavesAsRun.map Node.plainText)) =
        some (["a", "b", "c", "d", "e"], ["a", "c", "e", "d", "b"]) := by cbv
  cases h : parseRaw "for(;a;b)for(;c;d)e;" with
  | error e =>
    rw [h] at words
    cases words
  | ok tree =>
    rw [h] at words
    obtain ⟨written, run⟩ := Prod.mk.inj (Option.some.inj words)
    obtain ⟨-, -, again, moved, -⟩ := lowering_loses_nothing _ tree h
    exact ⟨tree, rfl, written, moved ▸ run, again⟩

end LoxLang
