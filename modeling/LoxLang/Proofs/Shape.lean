import LoxLang.Node.Lower
import LoxLang.Proofs.Form
import LoxLang.Proofs.Lockstep

/-!
# The shapes of programs

A source text is read into nodes of a few shapes only. They are described here apart from how they
are read and from how they are run, so that both sides can be compared with one description.

* `Role`: where a node stands: among declarations and statements, as the statement of a construct,
  as the first clause of a loop, or as an expression.
* `Node.Is`: the nodes that can stand there, before loops with a header are replaced and afterwards.
* `Node.Contains`: the nodes inside a node; `Node.Belongs`: what the nodes inside a program are.
* `Node.loopNodes`: the nodes that are made for a loop with a header.

Results: `Node.Is.lower` — lowering turns the shapes with such loops into the shapes without;
`Node.Is.lower_expression` — it leaves expressions alone; `Node.Is.forStmt_inside` — a loop with
a header inside a program has the parts of one; `Node.Contains.lower_cases` — every node of a tree
that was lowered is one of the tree before, or was made for a loop; `Node.Contains.lower` — the
nodes of a tree are still there when it is lowered.
-/

set_option autoImplicit false

namespace LoxLang

/-- Where a node stands in a program. -/
inductive Role where
  | item | statement | clause | expression
deriving DecidableEq

/-- The places in which every statement can stand. -/
def Role.IsBody (r : Role) : Prop := r = .item ∨ r = .statement

theorem Role.IsBody.ne {r : Role} (h : r.IsBody) : r ≠ .expression := by
  rcases h with rfl | rfl <;> decide

/-- A list of nodes as one node, which is absent if there are none. -/
def Node.IsList (label : Label) (items : List Node) (node : Node) : Prop :=
  node = .absent ∧ items = [] ∨ ∃ place, node = .tree label items place

/-- An identifier. -/
def Node.IsName (node : Node) : Prop :=
  ∃ text place, node = .word (.terminal .identifier) text place

/-- The nodes that can stand in a place; `sugar` says whether loops with a header are among them. -/
inductive Node.Is (sugar : Bool) : Role → Node → Prop
  | number {text : String} {place : Place} (readable : (Number.read? text).isSome = true) :
    Is sugar .expression (.word (.terminal .number) text place)
  | string {text : String} {place : Place} :
    Is sugar .expression (.word (.terminal .string) text place)
  | literal {label : Label} {place : Place} (h : label ∈ [Label.trueLit, .falseLit, .nilLit]) :
    Is sugar .expression (.tree label [] place)
  | reference {name : Node} {place : Place} (hname : name.IsName) :
    Is sugar .expression (.tree .reference [name] place)
  | assign {name value : Node} {place : Place} (hname : name.IsName)
    (hvalue : Is sugar .expression value) : Is sugar .expression (.tree .assign [name, value] place)
  | grouping {inner : Node} {place : Place} (hinner : Is sugar .expression inner) :
    Is sugar .expression (.tree .grouping [inner] place)
  | unary {kind : Kind} {op : String} {p : Place} {operand : Node} {place : Place}
    (known : IsUnary op) (hoperand : Is sugar .expression operand) :
    Is sugar .expression (.tree .unary [.word kind op p, operand] place)
  | binary {left right : Node} {kind : Kind} {op : String} {p place : Place} (known : IsBinary op)
    (hleft : Is sugar .expression left) (hright : Is sugar .expression right) :
    Is sugar .expression (.tree .binary [left, .word kind op p, right] place)
  | logical {left right : Node} {kind : Kind} {op : String} {p place : Place}
    (known : (Logical.ofText? op).isSome = true) (hleft : Is sugar .expression left)
    (hright : Is sugar .expression right) :
    Is sugar .expression (.tree .logical [left, .word kind op p, right] place)
  | call {callee arguments : Node} {items : List Node} {place : Place}
    (hcallee : Is sugar .expression callee) (list : arguments.IsList .arguments items)
    (hitems : ∀ item ∈ items, Is sugar .expression item) :
    Is sugar .expression (.tree .call [callee, arguments] place)
  | expressionStmt {r : Role} {value : Node} {place : Place} (hr : r ≠ .expression)
    (hvalue : Is sugar .expression value) : Is sugar r (.tree .expressionStmt [value] place)
  | printStmt {r : Role} {value : Node} {place : Place} (hr : r.IsBody)
    (hvalue : Is sugar .expression value) : Is sugar r (.tree .printStmt [value] place)
  | returnStmt {r : Role} {value : Node} {place : Place} (hr : r.IsBody)
    (hvalue : ∀ e, value.present? = some e → Is sugar .expression e) :
    Is sugar r (.tree .returnStmt [value] place)
  | block {r : Role} {items : List Node} {place : Place} (hr : r.IsBody)
    (hitems : ∀ item ∈ items, Is sugar .item item) : Is sugar r (.tree .block items place)
  | ifStmt {r : Role} {test yes no : Node} {place : Place} (hr : r.IsBody)
    (htest : Is sugar .expression test) (hyes : Is sugar .statement yes)
    (hno : ∀ n, no.present? = some n → Is sugar .statement n) :
    Is sugar r (.tree .ifStmt [test, yes, no] place)
  | whileStmt {r : Role} {test body : Node} {place : Place} (hr : r.IsBody)
    (htest : Is sugar .expression test) (hbody : Is sugar .statement body) :
    Is sugar r (.tree .whileStmt [test, body] place)
  | forStmt {r : Role} {init : List Node} {test step body : Node} {p place : Place} (hr : r.IsBody)
    (allowed : sugar = true) (short : init.length ≤ 1)
    (hinit : ∀ n ∈ init, Is sugar .clause n)
    (htest : ∀ e, test.present? = some e → Is sugar .expression e)
    (hstep : ∀ e, step.present? = some e → Is sugar .expression e)
    (hbody : Is sugar .statement body) :
    Is sugar r (.tree .forStmt [.tree .forClause init p, test, step, body] place)
  | variableDecl {r : Role} {name value : Node} {place : Place} (hr : r = .item ∨ r = .clause)
    (hname : name.IsName) (hvalue : ∀ e, value.present? = some e → Is sugar .expression e) :
    Is sugar r (.tree .variableDecl [name, value] place)
  | functionDecl {name params : Node} {names items : List Node} {p place : Place}
    (hname : name.IsName) (list : params.IsList .parameters names)
    (hnames : ∀ n ∈ names, n.IsName) (hitems : ∀ item ∈ items, Is sugar .item item) :
    Is sugar .item (.tree .functionDecl [name, params, .tree .block items p] place)

namespace Node

/-! ## Lowering -/

theorem lowerAll_eq (ns : List Node) : lowerAll ns = ns.map lower := by
  induction ns with
  | nil => simp [lowerAll]
  | cons n ns ih => simp [lowerAll, ih]

theorem lower_tree {label : Label} (h : label ≠ .forStmt) (parts : List Node) (place : Place) :
    (tree label parts place).lower = .tree label (parts.map lower) place := by
  unfold lower
  rw [lowerAll_eq]
  split
  · exact absurd rfl h
  · rfl

@[simp] theorem lower_word (kind : Kind) (text : String) (place : Place) :
    (word kind text place).lower = .word kind text place := by
  simp [lower]

@[simp] theorem lower_absent : absent.lower = absent := by simp [lower]

theorem lower_for (init test step body : Node) (place : Place) :
    (tree .forStmt [init, test, step, body] place).lower =
      loop init.lower test.lower step.lower body.lower := by
  simp [lower, lowerAll]

theorem present?_lower (n : Node) : n.lower.present? = n.present?.map lower := by
  cases n with
  | tree label parts place =>
    obtain ⟨label', parts', place', h⟩ : ∃ label' parts' place',
        (tree label parts place).lower = .tree label' parts' place' := by
      unfold lower
      split <;> exact ⟨_, _, _, rfl⟩
    simp [present?, h]
  | _ => simp [lower, present?]

theorem IsName.lower_eq {n : Node} (h : n.IsName) : n.lower = n := by
  obtain ⟨text, place, rfl⟩ := h
  simp

theorem map_lower_eq {ns : List Node} (h : ∀ n ∈ ns, n.lower = n) : ns.map lower = ns := by
  rw [List.map_congr_left h, List.map_id'']
  exact fun _ => rfl

theorem IsList.lower_eq {label : Label} {items : List Node} {n : Node} (h : n.IsList label items)
    (hlabel : label ≠ .forStmt) (hitems : ∀ item ∈ items, item.lower = item) :
    n.lower = n := by
  rcases h with ⟨rfl, -⟩ | ⟨place, rfl⟩
  · simp
  · rw [lower_tree hlabel, map_lower_eq hitems]

namespace Is

variable {sugar : Bool} {r : Role} {n : Node}

/-- Lowering leaves expressions alone. -/
theorem lower_expression (h : n.Is sugar .expression) : n.lower = n := by
  generalize hr : Role.expression = r at h
  induction h with
  | number | string => simp
  | literal h =>
    rw [lower_tree (by rintro rfl; simp at h)]
    rfl
  | reference hname => rw [lower_tree (by decide), List.map_singleton, hname.lower_eq]
  | assign hname _ ih =>
    rw [lower_tree (by decide), List.map_cons, List.map_singleton, hname.lower_eq, ih rfl]
  | grouping _ ih => rw [lower_tree (by decide), List.map_singleton, ih rfl]
  | unary _ _ ih =>
    rw [lower_tree (by decide), List.map_cons, List.map_singleton, lower_word, ih rfl]
  | binary _ _ _ ihl ihr =>
    rw [lower_tree (by decide), List.map_cons, List.map_cons, List.map_singleton,
      lower_word, ihl rfl, ihr rfl]
  | logical _ _ _ ihl ihr =>
    rw [lower_tree (by decide), List.map_cons, List.map_cons, List.map_singleton,
      lower_word, ihl rfl, ihr rfl]
  | call _ list _ ihc ih =>
    have harguments := list.lower_eq (by decide) fun item hitem => ih item hitem rfl
    rw [lower_tree (by decide), List.map_cons, List.map_singleton, harguments, ihc rfl]
  | expressionStmt hne => exact absurd hr.symm hne
  | printStmt hr' | returnStmt hr' | block hr' | ifStmt hr' | whileStmt hr' | forStmt hr' =>
    exact absurd hr.symm hr'.ne
  | variableDecl hr' => rcases hr' with rfl | rfl <;> cases hr
  | functionDecl => cases hr

theorem lower_optional_expression (h : ∀ e, n.present? = some e → e.Is sugar .expression) :
    n.lower = n := by
  cases n with
  | absent => exact lower_absent
  | _ => exact (h _ rfl).lower_expression

/-- The first clause of a loop is an expression or the declaration of a variable. -/
theorem clause_cases (h : n.Is sugar .clause) :
    (∃ value place, n = .tree .expressionStmt [value] place ∧ value.Is sugar .expression) ∨
      ∃ name value place, n = .tree .variableDecl [name, value] place ∧ name.IsName ∧
        ∀ e, value.present? = some e → e.Is sugar .expression := by
  generalize hr : Role.clause = r at h
  cases h with
  | expressionStmt _ hvalue => exact .inl ⟨_, _, rfl, hvalue⟩
  | variableDecl _ hname hvalue => exact .inr ⟨_, _, _, rfl, hname, hvalue⟩
  | printStmt hr' | returnStmt hr' | block hr' | ifStmt hr' | whileStmt hr' | forStmt hr' =>
    rcases hr' with rfl | rfl <;> cases hr
  | _ => cases hr

/-- Lowering also leaves the first clause of a loop alone. -/
theorem lower_clause (h : n.Is sugar .clause) : n.lower = n := by
  rcases h.clause_cases with
    ⟨value, place, rfl, hvalue⟩ | ⟨name, value, place, rfl, hname, hvalue⟩
  · rw [lower_tree (by decide), List.map_singleton, hvalue.lower_expression]
  · rw [lower_tree (by decide), List.map_cons, List.map_singleton, hname.lower_eq,
      lower_optional_expression hvalue]

/-- An optional part stays optional. -/
theorem lower_optional {q : Role} (ih : ∀ e, n.present? = some e → e.lower.Is sugar q)
    (e : Node) (he : n.lower.present? = some e) : e.Is sugar q := by
  rw [present?_lower] at he
  obtain ⟨e', he', rfl⟩ := Option.map_eq_some_iff.1 he
  exact ih e' he'

theorem lower_all {q : Role} {ns : List Node} (ih : ∀ n ∈ ns, n.lower.Is sugar q) :
    ∀ n ∈ ns.map lower, n.Is sugar q := by
  intro n hn
  obtain ⟨n', hn', rfl⟩ := List.mem_map.1 hn
  exact ih n' hn'

/-- What can stand as the first clause of a loop can stand among declarations and statements. -/
theorem item_of_clause (h : n.Is sugar .clause) : n.Is sugar .item := by
  rcases h.clause_cases with
    ⟨value, place, rfl, hvalue⟩ | ⟨name, value, place, rfl, hname, hvalue⟩
  · exact .expressionStmt (by decide) hvalue
  · exact .variableDecl (.inl rfl) hname hvalue

theorem item_of_statement (h : n.Is sugar .statement) : n.Is sugar .item := by
  generalize hr : Role.statement = r at h
  cases h with
  | expressionStmt _ hvalue => exact .expressionStmt (by decide) hvalue
  | printStmt _ hvalue => exact .printStmt (.inl rfl) hvalue
  | returnStmt _ hvalue => exact .returnStmt (.inl rfl) hvalue
  | block _ hitems => exact .block (.inl rfl) hitems
  | ifStmt _ htest hyes hno => exact .ifStmt (.inl rfl) htest hyes hno
  | whileStmt _ htest hbody => exact .whileStmt (.inl rfl) htest hbody
  | forStmt _ allowed short hinit htest hstep hbody =>
    exact .forStmt (.inl rfl) allowed short hinit htest hstep hbody
  | variableDecl hr' => rcases hr' with rfl | rfl <;> cases hr
  | _ => cases hr

/-- The block that a loop with a header stands for. -/
theorem loop {init : List Node} {test step body : Node} {p : Place} (hr : r.IsBody)
    (hinit : ∀ n ∈ init, n.Is false .clause)
    (htest : ∀ e, test.present? = some e → e.Is false .expression)
    (hstep : ∀ e, step.present? = some e → e.Is false .expression)
    (hbody : body.Is false .statement) :
    (Node.loop (.tree .forClause init p) test step body).Is false r := by
  refine .block hr fun item hitem => ?_
  rcases List.mem_append.1 hitem with hitem | hitem
  · exact (hinit item hitem).item_of_clause
  · obtain rfl := List.mem_singleton.1 hitem
    refine .whileStmt (.inl rfl) ?_ (.block (.inr rfl) fun item hitem => ?_)
    · cases ht : test.present? with
      | none => exact .literal (by simp)
      | some e => exact htest e ht
    · rcases List.mem_cons.1 hitem with rfl | hitem
      · exact hbody.item_of_statement
      · obtain ⟨e, he, rfl⟩ := List.mem_map.1 hitem
        exact .expressionStmt (by decide) (hstep e (Option.mem_toList.1 he))

/-- **Lowering replaces the loops with a header.** -/
theorem lower (h : n.Is true r) : n.lower.Is false r := by
  induction h with
  | number readable => simpa using .number readable
  | string => simpa using .string
  | literal h =>
    rw [lower_tree (by rintro rfl; simp at h)]
    exact .literal h
  | reference hname =>
    rw [lower_tree (by decide), List.map_singleton, hname.lower_eq]
    exact .reference hname
  | assign hname _ ih =>
    rw [lower_tree (by decide), List.map_cons, List.map_singleton, hname.lower_eq]
    exact .assign hname ih
  | grouping _ ih =>
    rw [lower_tree (by decide)]
    exact .grouping ih
  | unary known _ ih =>
    rw [lower_tree (by decide), List.map_cons, lower_word]
    exact .unary known ih
  | binary known _ _ ihl ihr =>
    rw [lower_tree (by decide), List.map_cons, List.map_cons, lower_word]
    exact .binary known ihl ihr
  | logical known _ _ ihl ihr =>
    rw [lower_tree (by decide), List.map_cons, List.map_cons, lower_word]
    exact .logical known ihl ihr
  | call _ list hitems ihc ih =>
    have same := fun item hitem => (hitems item hitem).lower_expression
    rw [lower_tree (by decide), List.map_cons, List.map_singleton, list.lower_eq (by decide) same]
    refine .call ihc list fun item hitem => ?_
    rw [← same item hitem]
    exact ih item hitem
  | expressionStmt hr _ ih =>
    rw [lower_tree (by decide)]
    exact .expressionStmt hr ih
  | printStmt hr _ ih =>
    rw [lower_tree (by decide)]
    exact .printStmt hr ih
  | returnStmt hr _ ih =>
    rw [lower_tree (by decide)]
    exact .returnStmt hr (lower_optional ih)
  | block hr _ ih =>
    rw [lower_tree (by decide)]
    exact .block hr (lower_all ih)
  | ifStmt hr _ _ _ iht ihy ihn =>
    rw [lower_tree (by decide)]
    exact .ifStmt hr iht ihy (lower_optional ihn)
  | whileStmt hr _ _ iht ihb =>
    rw [lower_tree (by decide)]
    exact .whileStmt hr iht ihb
  | forStmt hr _ _ _ _ _ _ ihi iht ihs ihb =>
    rw [lower_for, lower_tree (by decide)]
    exact loop hr (lower_all ihi) (lower_optional iht) (lower_optional ihs) ihb
  | variableDecl hr hname _ ih =>
    rw [lower_tree (by decide), List.map_cons, hname.lower_eq]
    exact .variableDecl hr hname (lower_optional ih)
  | functionDecl hname list hnames _ ih =>
    rw [lower_tree (by decide), List.map_cons, List.map_cons, List.map_singleton, hname.lower_eq,
      list.lower_eq (by decide) fun n hn => (hnames n hn).lower_eq, lower_tree (by decide)]
    exact .functionDecl hname list hnames (lower_all ih)

end Is

/-! ## Parts -/

/-- A node and the nodes inside it. -/
inductive Contains : Node → Node → Prop
  | here (n : Node) : Contains n n
  | part {n m k : Node} (hm : m ∈ n.parts) (h : Contains m k) : Contains n k

theorem Contains.trans {n m k : Node} (h : n.Contains m) (h' : m.Contains k) : n.Contains k := by
  induction h with
  | here => exact h'
  | part hm _ ih => exact .part hm (ih h')

/-- A loop inside a tree with another label is inside one of its parts. -/
theorem Contains.inside {n k : Node} (h : n.Contains k) (hk : k.label? = some .forStmt)
    {label : Label}
    {parts : List Node} {place : Place} (hn : n = .tree label parts place)
    (hlabel : label ≠ .forStmt) :
    ∃ m ∈ parts, m.Contains k := by
  subst hn
  cases h with
  | here => exact absurd (Option.some.inj hk) hlabel
  | part hm hin => exact ⟨_, hm, hin⟩

/-- What can be inside a program: a node in one of the places, a leaf, a list of parameters or
arguments, or the first clause of a loop with a header. -/
inductive Belongs (sugar : Bool) : Node → Prop
  | role {r : Role} {n : Node} (h : n.Is sugar r) : Belongs sugar n
  | leaf {n : Node} (unlabelled : n.label? = none) : Belongs sugar n
  | list {label : Label} {items : List Node} {place : Place}
    (hlabel : label ∈ [Label.parameters, .arguments])
    (hitems : ∀ item ∈ items, Belongs sugar item) : Belongs sugar (.tree label items place)
  | clause {items : List Node} {place : Place} (allowed : sugar = true)
    (hitems : ∀ item ∈ items, item.Is sugar .clause) :
    Belongs sugar (.tree .forClause items place)

section

variable {sugar : Bool} {n m k : Node}

theorem parts_of_unlabelled (h : n.label? = none) : n.parts = [] := by
  cases n with
  | tree => cases h
  | _ => rfl

theorem IsName.belongs (h : n.IsName) : n.Belongs sugar := by
  obtain ⟨text, place, rfl⟩ := h
  exact .leaf rfl

theorem IsList.belongs {label : Label} {items : List Node} (h : n.IsList label items)
    (hlabel : label ∈ [Label.parameters, .arguments])
    (hitems : ∀ item ∈ items, item.Belongs sugar) :
    n.Belongs sugar := by
  rcases h with ⟨rfl, -⟩ | ⟨place, rfl⟩
  · exact .leaf rfl
  · exact .list hlabel hitems

theorem Belongs.optional {r : Role} (h : ∀ e, n.present? = some e → e.Is sugar r) :
    n.Belongs sugar := by
  cases n with
  | absent => exact .leaf rfl
  | _ => exact .role (h _ rfl)

/-- The parts of a node of a program belong to the program. -/
theorem Is.parts_belong {r : Role} (h : n.Is sugar r) : ∀ m ∈ n.parts, m.Belongs sugar := by
  have all {a : Node} {as : List Node} (head : a.Belongs sugar)
      (rest : ∀ m ∈ as, m.Belongs sugar) : ∀ m ∈ a :: as, m.Belongs sugar :=
        List.forall_mem_cons.2 ⟨head, rest⟩
  cases h with
  | number | string | literal => exact nofun
  | reference hname => exact all hname.belongs nofun
  | grouping hinner => exact all (.role hinner) nofun
  | expressionStmt _ hvalue | printStmt _ hvalue => exact all (.role hvalue) nofun
  | returnStmt _ hvalue => exact all (.optional hvalue) nofun
  | assign hname hvalue => exact all hname.belongs (all (.role hvalue) nofun)
  | unary _ hoperand => exact all (.leaf rfl) (all (.role hoperand) nofun)
  | binary _ hleft hright | logical _ hleft hright =>
    exact all (.role hleft) (all (.leaf rfl) (all (.role hright) nofun))
  | call hcallee list hitems =>
    have arguments := list.belongs (by simp) fun item hitem => .role (hitems item hitem)
    exact all (.role hcallee) (all arguments nofun)
  | block _ hitems => exact fun m hm => .role (hitems m hm)
  | ifStmt _ htest hyes hno =>
    exact all (.role htest) (all (.role hyes) (all (.optional hno) nofun))
  | whileStmt _ htest hbody => exact all (.role htest) (all (.role hbody) nofun)
  | forStmt _ allowed _ hinit htest hstep hbody =>
    exact all (.clause allowed hinit)
      (all (.optional htest) (all (.optional hstep) (all (.role hbody) nofun)))
  | variableDecl _ hname hvalue => exact all hname.belongs (all (.optional hvalue) nofun)
  | functionDecl hname list hnames hitems =>
    have params : Belongs sugar _ :=
      list.belongs (by simp) fun name hname => (hnames name hname).belongs
    exact all hname.belongs (all params (all (.role (.block (.inl rfl) hitems)) nofun))

/-- So do the nodes inside it. -/
theorem Belongs.inside (h : n.Belongs sugar) (hin : n.Contains k) : k.Belongs sugar := by
  induction hin with
  | here => exact h
  | part hm _ ih =>
    refine ih ?_
    cases h with
    | role h => exact h.parts_belong _ hm
    | list _ hitems => exact hitems _ hm
    | clause _ hitems => exact .role (hitems _ hm)
    | leaf unlabelled =>
      rw [parts_of_unlabelled unlabelled] at hm
      cases hm

/-- A loop with a header inside a program has the parts of one. -/
theorem Is.forStmt_inside {r : Role} (h : n.Is sugar r) (hin : n.Contains k)
    (hk : k.label? = some .forStmt) : k.Is sugar .statement := by
  cases (Belongs.role h).inside hin with
  | role h =>
    cases h with
    | forStmt _ allowed short hinit htest hstep hbody =>
      exact .forStmt (.inr rfl) allowed short hinit htest hstep hbody
    | literal hlabel =>
      cases hk
      simp at hlabel
    | _ => cases hk
  | leaf unlabelled =>
    rw [unlabelled] at hk
    cases hk
  | list hlabel =>
    cases hk
    simp at hlabel
  | clause => cases hk

/-- Where loops with a header have been replaced, neither such a loop nor its first clause is
left. -/
theorem Belongs.no_sugar (h : n.Belongs false) :
    n.label? ≠ some .forStmt ∧ n.label? ≠ some .forClause := by
  cases h with
  | role h =>
    cases h with
    | literal hlabel =>
      simp only [List.mem_cons, List.not_mem_nil, or_false] at hlabel
      rcases hlabel with rfl | rfl | rfl <;> simp [label?]
    | forStmt _ allowed => cases allowed
    | _ => simp [label?]
  | leaf unlabelled => simp [unlabelled]
  | list hlabel =>
    simp only [List.mem_cons, List.not_mem_nil, or_false] at hlabel
    rcases hlabel with rfl | rfl <;> simp [label?]
  | clause allowed => cases allowed

end

end Node

/-! ## Nodes that lowering keeps and makes -/

/-- The node that is tested, and the block of one round. -/
def testNode (test : Node) : Node := test.present?.getD (.tree .trueLit [] .unknown)

def roundNode (step body : Node) : Node :=
  .tree .block
    (body :: step.present?.toList.map fun e => .tree .expressionStmt [e] .unknown) .unknown

namespace Node

theorem sizeOf_part {n m : Node} (hm : m ∈ n.parts) : sizeOf m < sizeOf n := by
  cases n with
  | tree label parts place =>
    have := List.sizeOf_lt_of_mem (show m ∈ parts from hm)
    simp only [tree.sizeOf_spec]
    omega
  | _ => cases hm

/-- What holds of a node if it holds of its parts holds of all nodes. -/
theorem part_induction {P : Node → Prop} (h : ∀ n : Node, (∀ m ∈ n.parts, P m) → P n)
    (n : Node) : P n := by
  induction hsize : sizeOf n using Nat.strongRecOn generalizing n with
  | ind size ih =>
    subst hsize
    exact h n fun m hm => ih (sizeOf m) (sizeOf_part hm) m rfl

/-- A tree that is no loop with a header keeps its label. -/
theorem lower_other {label : Label} {parts : List Node}
    (h : label = .forStmt → parts.length ≠ 4) (place : Place) :
    (tree label parts place).lower = .tree label (parts.map lower) place := by
  unfold lower
  rw [lowerAll_eq]
  split
  · rename_i heq
    have four := congrArg List.length heq
    rw [List.length_map] at four
    exact absurd four (h rfl)
  · rfl

/-- Other nodes than loops with a header keep their label and their place. -/
theorem lower_kept {k : Node} (h : k.label? ≠ some .forStmt) :
    k.lower.label? = k.label? ∧ k.lower.place = k.place := by
  cases k with
  | tree label parts place =>
    rw [lower_tree fun hlabel => h (by rw [label?, hlabel])]
    exact ⟨rfl, rfl⟩
  | _ => simp [lower]

theorem lower_ne_absent {k : Node} (h : k ≠ .absent) : k.lower ≠ .absent := by
  intro gone
  have present := present?_lower k
  cases k with
  | absent => exact h rfl
  | _ =>
    rw [gone] at present
    cases present

/-- The nodes that are made for a loop with a header: a block, a loop in it, a block in that one,
and if they are needed a statement for the last clause and a test that is true. -/
def loopNodes (init test step body : Node) : List Node :=
  loop init test step body :: .tree .whileStmt [testNode test, roundNode step body] .unknown ::
    roundNode step body :: (step.present?.toList.map fun e => .tree .expressionStmt [e] .unknown) ++
      if test.present?.isNone then [.tree .trueLit [] .unknown] else []

theorem mem_loopNodes {init test step body k : Node} : k ∈ loopNodes init test step body ↔
    k = loop init test step body ∨
      k = .tree .whileStmt [testNode test, roundNode step body] .unknown ∨
    k = roundNode step body ∨
      (∃ e, step.present? = some e ∧ k = .tree .expressionStmt [e] .unknown) ∨
    test.present? = none ∧ k = .tree .trueLit [] .unknown := by
  cases hstep : step.present? <;> cases htest : test.present? <;> simp [loopNodes, hstep, htest]

theorem loopNodes_unplaced {init test step body k : Node}
    (h : k ∈ loopNodes init test step body) :
    k.place = .unknown := by
  rcases mem_loopNodes.1 h with rfl | rfl | rfl | ⟨e, -, rfl⟩ | ⟨-, rfl⟩ <;> rfl

namespace Contains

variable {n k init test step body : Node}

/-- What is inside the block that a loop stands for was made for it, or is inside one of its
parts. -/
theorem loop_cases (h : (loop init test step body).Contains k) :
    k ∈ loopNodes init test step body ∨ ∃ m ∈ [init, test, step, body], m.Contains k := by
  rw [mem_loopNodes]
  cases h with
  | here => simp
  | part hm h =>
    rcases List.mem_append.1 hm with hm | hm
    · exact .inr ⟨init, by simp, .part hm h⟩
    obtain rfl := List.mem_singleton.1 hm
    cases h with
    | here => simp [testNode, roundNode]
    | part hm h =>
      rcases List.mem_cons.1 hm with rfl | hm
      · -- the test
        cases htest : test.present? with
        | none =>
          rw [htest] at h
          cases h with
          | here => simp
          | part hm => cases hm
        | some e =>
          rw [htest] at h
          exact .inr ⟨test, by simp, present?_eq htest ▸ h⟩
      obtain rfl := List.mem_singleton.1 hm
      cases h with
      | here => simp [roundNode]
      | part hm h =>
        rcases List.mem_cons.1 hm with rfl | hm
        · exact .inr ⟨_, by simp, h⟩
        obtain ⟨e, he, rfl⟩ := List.mem_map.1 hm
        have hstep := Option.mem_toList.1 he
        cases h with
        | here => simp [show step.present? = some e from hstep]
        | part hm h =>
          obtain rfl := List.mem_singleton.1 hm
          exact .inr ⟨step, by simp, present?_eq hstep ▸ h⟩

/-- **What is in a tree after lowering was in it before**, with the same label and place, or it was
made for a loop with a header. -/
theorem lower_cases (h : n.lower.Contains k) :
    (∃ m, n.Contains m ∧ k = m.lower ∧ k.label? = m.label? ∧ k.place = m.place) ∨
    ∃ init test step body place, n.Contains (.tree .forStmt [init, test, step, body] place) ∧
      k ∈ loopNodes init.lower test.lower step.lower body.lower := by
  induction n using part_induction with
  | h n ih =>
    -- what is said of a part can be said of the whole
    have inside {m : Node} (hm : m ∈ n.parts) (h : m.lower.Contains k) :
        (∃ m, n.Contains m ∧ k = m.lower ∧ k.label? = m.label? ∧ k.place = m.place) ∨
        ∃ init test step body place, n.Contains
          (.tree .forStmt [init, test, step, body] place) ∧
            k ∈ loopNodes init.lower test.lower step.lower body.lower := by
      rcases ih m hm h with ⟨j, hj, same⟩ | ⟨init, test, step, body, place, hloop, hk⟩
      · exact .inl ⟨j, .part hm hj, same⟩
      · exact .inr ⟨init, test, step, body, place, .part hm hloop, hk⟩
    cases n with
    | tree label parts place =>
      by_cases hfor : label = .forStmt ∧ parts.length = 4
      · obtain ⟨rfl, hlength⟩ := hfor
        obtain ⟨init, test, step, body, rfl⟩ := List.length_eq_four.1 hlength
        rw [lower_for] at h
        rcases h.loop_cases with hk | ⟨m, hm, h⟩
        · exact .inr ⟨init, test, step, body, place, .here _, hk⟩
        · obtain ⟨m, hmem, rfl⟩ :=
            List.mem_map.1 (show m ∈ [init, test, step, body].map Node.lower from hm)
          exact inside hmem h
      · have other := lower_other (fun hlabel hlength => hfor ⟨hlabel, hlength⟩) place
        rw [other] at h
        cases h with
        | here => exact .inl ⟨_, .here _, other.symm, rfl, rfl⟩
        | part hm h =>
          obtain ⟨m, hmem, rfl⟩ := List.mem_map.1 hm
          exact inside hmem h
    | _ =>
      simp only [lower] at h
      cases h with
      | here => exact .inl ⟨_, .here _, by simp [lower], rfl, rfl⟩
      | part hm => cases hm

/-- What is inside the test or the block of a round is inside the block that a loop stands for. -/
theorem in_round {m : Node} (hm : m ∈ [testNode test, roundNode step body]) (h : m.Contains k) :
    (loop init test step body).Contains k :=
  .part (List.mem_append_right _ (List.mem_singleton_self _)) (.part hm h)

/-- All nodes that are made for a loop are inside the block that it stands for. -/
theorem of_loopNodes (h : k ∈ loopNodes init test step body) :
    (loop init test step body).Contains k := by
  rcases mem_loopNodes.1 h with rfl | rfl | rfl | ⟨e, hstep, rfl⟩ | ⟨htest, rfl⟩
  · exact .here _
  · exact .part (List.mem_append_right _ (List.mem_singleton_self _)) (.here _)
  · exact in_round (by simp) (.here _)
  · exact in_round (by simp)
      (.part (n := roundNode step body) (by simp [roundNode, parts, hstep]) (.here _))
  · exact in_round (by simp [testNode, htest]) (.here _)

/-- What is inside a part of a loop with a header is inside the block that it stands for, if it is
not the first clause itself. -/
theorem in_loop {m : Node} (h : m.Contains k) (hm : m ∈ [init, test, step, body])
    (hk : k ≠ .absent) (hinit : k ≠ init) : (loop init test step body).Contains k := by
  have present : m.present? = some m := by
    cases m with
    | absent =>
      cases h with
      | here => exact absurd rfl hk
      | part hm => cases hm
    | _ => rfl
  simp only [List.mem_cons, List.not_mem_nil, or_false] at hm
  rcases hm with rfl | rfl | rfl | rfl
  · cases h with
    | here => exact absurd rfl hinit
    | part hm h => exact .part (List.mem_append_left _ hm) h
  · exact in_round (by simp [testNode, present]) h
  · have made : .tree .expressionStmt [m] .unknown ∈ loopNodes init test m body :=
      mem_loopNodes.2 (.inr (.inr (.inr (.inl ⟨m, present, rfl⟩))))
    exact (of_loopNodes made).trans (.part List.mem_cons_self h)
  · exact in_round (m := roundNode step m) (by simp) (.part List.mem_cons_self h)

/-- **What is in a tree stays in it**, lowered itself, if it is no first clause of a loop with a
header. -/
theorem lower (h : n.Contains k)
    (loops : ∀ m, n.Contains m → m.label? = some .forStmt → m.Is true .statement)
    (hclause : k.label? ≠ some .forClause) (hk : k ≠ .absent) : n.lower.Contains k.lower := by
  induction h with
  | here => exact .here _
  | @part n m k hm h ih =>
    have inside := ih (fun j hj => loops j (.part hm hj)) hclause hk
    cases n with
    | tree label parts place =>
      by_cases hlabel : label = .forStmt
      · subst hlabel
        cases loops _ (.here _) rfl with
        | @forStmt _ init test step body p =>
          rw [lower_for]
          refine inside.in_loop (List.mem_map_of_mem hm) (lower_ne_absent hk) fun same => ?_
          -- nothing else becomes a first clause
          rw [lower_tree (by decide)] at same
          by_cases hloop : k.label? = some .forStmt
          · cases loops k (.part hm h) hloop <;> cases hloop
            rw [lower_for] at same
            cases same
          · exact hclause (by rw [← (lower_kept hloop).1, same]; rfl)
      · rw [lower_tree hlabel]
        exact .part (List.mem_map_of_mem hm) inside
    | _ => cases hm

end Contains

end Node

end LoxLang
