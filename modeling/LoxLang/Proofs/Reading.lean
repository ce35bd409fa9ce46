import LoxLang.Proofs.Shape
import LoxLang.Proofs.Words
import LoxLang.Source.Parse

/-!
# What the reader builds

While a text is read, the constructs that have begun wait for parts of certain shapes, and what has
been read so far has the shapes that its place asks for. This is kept by every word, so the tree at
the end of the text is a program.

* `Ready`: pending constructs whose innermost one waits for a node of a given role.
* `Reader.Sound`: the parts that a reader holds fit the constructs that wait for them.

Results: `Reader.step?_sound` — every word that can be read keeps this; `parseRaw_shape` — the
tree of a text is a program, by induction on the words of the text.
-/

set_option autoImplicit false

namespace LoxLang

theorem Token.isName {t : Token} (h : t.kind = .identifier) : t.node.IsName :=
  ⟨t.text, t.place, by rw [Token.node, h]⟩

/-- The first clause of a loop as a node. -/
def Node.IsInit (node : Node) : Prop :=
  ∃ items place, node = .tree .forClause items place ∧ items.length ≤ 1 ∧
    ∀ n ∈ items, n.Is true .clause

/-- An expression that may be absent. -/
def Node.IsOptional (node : Node) : Prop := ∀ e, node.present? = some e → e.Is true .expression

theorem Node.Is.optional {n : Node} (h : n.Is true .expression) : n.IsOptional := by
  intro e he
  rw [← Node.present?_eq he]
  exact h

theorem Node.isOptional_absent : Node.absent.IsOptional := by
  intro e he
  cases he

namespace Source

/-- The header of a function: a name, and names as parameters. -/
structure Header.Fits (h : Header) : Prop where
  name : h.name.node.IsName
  parameters : ∃ names, h.parameters.IsList .parameters names ∧ ∀ n ∈ names, n.IsName

/-- The innermost of the pending constructs waits for a node of the given role, and what they hold
has the shapes that they need. -/
inductive Ready : Role → List Pending → Prop
  | program {items : List Node} (hitems : ∀ n ∈ items, n.Is true .item) :
    Ready .item [.program items]
  | block {r : Role} {first : Place} {items : List Node} {rest : List Pending} (hr : r.IsBody)
    (outer : Ready r rest) (hitems : ∀ n ∈ items, n.Is true .item) :
    Ready .item (.block first none items :: rest)
  | body {first : Place} {header : Header} {items : List Node} {rest : List Pending}
    (outer : Ready .item rest) (hheader : header.Fits) (hitems : ∀ n ∈ items, n.Is true .item) :
    Ready .item (.block first (some header) items :: rest)
  | thenBranch {r : Role} {first : Place} {test : Node} {rest : List Pending} (hr : r.IsBody)
    (outer : Ready r rest) (htest : test.Is true .expression) :
    Ready .statement (.thenBranch first test :: rest)
  | elseBranch {r : Role} {first : Place} {test yes : Node} {rest : List Pending} (hr : r.IsBody)
    (outer : Ready r rest) (htest : test.Is true .expression) (hyes : yes.Is true .statement) :
    Ready .statement (.elseBranch first test yes :: rest)
  | whileBody {r : Role} {first : Place} {test : Node} {rest : List Pending} (hr : r.IsBody)
    (outer : Ready r rest) (htest : test.Is true .expression) :
    Ready .statement (.whileBody first test :: rest)
  | forBody {r : Role} {first : Place} {init test step : Node} {rest : List Pending} (hr : r.IsBody)
    (outer : Ready r rest) (hinit : init.IsInit) (htest : test.IsOptional)
    (hstep : step.IsOptional) :
    Ready .statement (.forBody first init test step :: rest)
  | forInit {r : Role} {first : Place} {rest : List Pending} (hr : r.IsBody)
    (outer : Ready r rest) :
    Ready .clause (.forInit first :: rest)
  | expression {r : Role} {rest : List Pending} (hr : r ≠ .expression) (outer : Ready r rest) :
    Ready .expression (.expression :: rest)
  | print {r : Role} {first : Place} {rest : List Pending} (hr : r.IsBody) (outer : Ready r rest) :
    Ready .expression (.print first :: rest)
  | result {r : Role} {first : Place} {rest : List Pending} (hr : r.IsBody) (outer : Ready r rest) :
    Ready .expression (.result first :: rest)
  | initializer {r : Role} {first : Place} {name : Token} {rest : List Pending}
    (hr : r = .item ∨ r = .clause) (outer : Ready r rest) (hname : name.node.IsName) :
    Ready .expression (.initializer first name :: rest)
  | ifTest {r : Role} {first : Place} {rest : List Pending} (hr : r.IsBody) (outer : Ready r rest) :
    Ready .expression (.ifTest first :: rest)
  | whileTest {r : Role} {first : Place} {rest : List Pending} (hr : r.IsBody)
    (outer : Ready r rest) :
    Ready .expression (.whileTest first :: rest)
  | forTest {r : Role} {first : Place} {init : Node} {rest : List Pending} (hr : r.IsBody)
    (outer : Ready r rest) (hinit : init.IsInit) : Ready .expression (.forTest first init :: rest)
  | forStep {r : Role} {first : Place} {init test : Node} {rest : List Pending} (hr : r.IsBody)
    (outer : Ready r rest) (hinit : init.IsInit) (htest : test.IsOptional) :
    Ready .expression (.forStep first init test :: rest)
  | assign {name : Token} {rest : List Pending} (outer : Ready .expression rest)
    (hname : name.node.IsName) : Ready .expression (.assign name :: rest)
  | binary {left : Node} {op : Token} {rest : List Pending} (outer : Ready .expression rest)
    (hleft : left.Is true .expression) (hread : op.Read) (hop : op.kind.level?.isSome = true) :
    Ready .expression (.binary left op :: rest)
  | unary {op : Token} {rest : List Pending} (outer : Ready .expression rest)
    (hop : IsUnary op.text) : Ready .expression (.unary op :: rest)
  | group {first : Place} {rest : List Pending} (outer : Ready .expression rest) :
    Ready .expression (.group first :: rest)
  | arguments {callee : Node} {items : List Node} {rest : List Pending}
    (outer : Ready .expression rest) (hcallee : callee.Is true .expression)
    (hitems : ∀ n ∈ items, n.Is true .expression) :
    Ready .expression (.arguments callee items :: rest)

/-- What a reader holds fits the constructs that wait for it. -/
def Reader.Sound (r : Reader) : Prop :=
  match r.expecting with
  | .item => Ready .item r.pending
  | .next ended _ => ∃ q, q ≠ .expression ∧ Ready q r.pending ∧ ended.Is true q
  | .statement => Ready .statement r.pending
  | .clause => Ready .clause r.pending
  | .operand => Ready .expression r.pending
  | .operator left target =>
    Ready .expression r.pending ∧ left.Is true .expression ∧ ∀ t ∈ target, t.node.IsName
  | .opening _ _ => ∃ q : Role, q.IsBody ∧ Ready q r.pending
  | .variableName _ => ∃ q, (q = .item ∨ q = .clause) ∧ Ready q r.pending
  | .variableRest _ name =>
    name.node.IsName ∧ ∃ q, (q = .item ∨ q = .clause) ∧ Ready q r.pending
  | .functionName _ => Ready .item r.pending
  | .parametersOpening _ name => name.node.IsName ∧ Ready .item r.pending
  | .firstParameter _ name => name.node.IsName ∧ Ready .item r.pending
  | .nextParameter _ name items =>
    name.node.IsName ∧ (∀ t ∈ items, t.node.IsName) ∧ Ready .item r.pending
  | .parameterRest _ name items =>
    name.node.IsName ∧ (∀ t ∈ items, t.node.IsName) ∧ Ready .item r.pending
  | .body header => header.Fits ∧ Ready .item r.pending

/-! ## Nodes of finished constructs -/

theorem listNode_eq (label : Label) (items : List Node) :
    ∃ place, listNode label items = .tree label items place := by
  cases items with
  | nil => exact ⟨_, rfl⟩
  | cons n ns =>
    unfold listNode
    rw [List.getLast?_cons]
    exact ⟨_, rfl⟩

theorem binaryNode_is {left right : Node} {op : Token} (hleft : left.Is true .expression)
    (hright : right.Is true .expression) (hread : op.Read) (hop : op.kind.level?.isSome = true) :
    (binaryNode left op right).Is true .expression := by
  unfold binaryNode treeTo Token.node
  cases hkind : op.kind with
  | keyword k =>
    have htext := hread.keyword hkind
    rw [hkind] at hop
    cases k with
    | orWord | andWord =>
      refine .logical ?_ hleft hright
      rw [htext]
      rfl
    | _ => cases hop
  | symbol m =>
    have htext := hread.symbol hkind
    rw [hkind] at hop
    cases m with
    | equalEqual | bangEqual | greater | greaterEqual | less | lessEqual | plus | minus | star
    | slash =>
      refine .binary ?_ hleft hright
      rw [htext]
      simp [IsBinary, Symbol.text]
    | _ => cases hop
  | _ =>
    rw [hkind] at hop
    cases hop

theorem callNode_is {callee : Node} {items : List Node} (close : Token)
    (hcallee : callee.Is true .expression) (hitems : ∀ n ∈ items, n.Is true .expression) :
    (callNode callee items close).Is true .expression := by
  unfold callNode
  cases items with
  | nil => exact .call hcallee (.inl ⟨rfl, rfl⟩) (by simp)
  | cons n ns =>
    refine .call hcallee (.inr (listNode_eq .arguments _)) fun item hitem => ?_
    exact hitems item (List.mem_reverse.1 hitem)

theorem blockNode_is {first : Place} {items : List Node} (close : Token) {r : Role} (hr : r.IsBody)
    (hitems : ∀ n ∈ items, n.Is true .item) : (blockNode first none items close).Is true r :=
  .block hr fun item hitem => hitems item (List.mem_reverse.1 hitem)

theorem functionNode_is {first : Place} {header : Header} {items : List Node} (close : Token)
    (hheader : header.Fits) (hitems : ∀ n ∈ items, n.Is true .item) :
    (blockNode first (some header) items close).Is true .item := by
  obtain ⟨names, list, hnames⟩ := hheader.parameters
  exact .functionDecl hheader.name list hnames fun item hitem =>
    hitems item (List.mem_reverse.1 hitem)

/-! ## Closing what has ended -/

theorem closeOperators_ready (level : Nat) {left : Node} {pending : List Pending}
    (ready : Ready .expression pending) (hleft : left.Is true .expression) :
    Ready .expression (closeOperators level left pending).2 ∧
      (closeOperators level left pending).1.Is true .expression := by
  induction pending generalizing left with
  | nil => cases ready
  | cons top rest ih =>
    cases ready with
    | unary outer hop => exact ih outer (.unary hop hleft)
    | binary outer hleft' hread hop =>
      unfold closeOperators
      split
      · exact ih outer (binaryNode_is hleft' hleft hread hop)
      · exact ⟨.binary outer hleft' hread hop, hleft⟩
    | assign outer hname =>
      unfold closeOperators
      split
      · exact ih outer (.assign hname hleft)
      · exact ⟨.assign outer hname, hleft⟩
    | expression hr outer => exact ⟨.expression hr outer, hleft⟩
    | print hr outer => exact ⟨.print hr outer, hleft⟩
    | result hr outer => exact ⟨.result hr outer, hleft⟩
    | initializer hr outer hname => exact ⟨.initializer hr outer hname, hleft⟩
    | ifTest hr outer => exact ⟨.ifTest hr outer, hleft⟩
    | whileTest hr outer => exact ⟨.whileTest hr outer, hleft⟩
    | forTest hr outer hinit => exact ⟨.forTest hr outer hinit, hleft⟩
    | forStep hr outer hinit htest => exact ⟨.forStep hr outer hinit htest, hleft⟩
    | group outer => exact ⟨.group outer, hleft⟩
    | arguments outer hcallee hitems => exact ⟨.arguments outer hcallee hitems, hleft⟩

theorem forNode_is {first : Place} {init test step body : Node} {r : Role} (hr : r.IsBody)
    (hinit : init.IsInit) (htest : test.IsOptional) (hstep : step.IsOptional)
    (hbody : body.Is true .statement) : (forNode first init test step body).Is true r := by
  obtain ⟨items, place, rfl, short, hitems⟩ := hinit
  exact .forStmt hr rfl short hitems htest hstep hbody

theorem closeStatements_ready (beforeElse : Bool) {ended : Node} {pending : List Pending} {r : Role}
    (hr : r ≠ .expression) (ready : Ready r pending) (hended : ended.Is true r) :
    ∃ q, q ≠ .expression ∧ Ready q (closeStatements beforeElse ended pending).2 ∧
      (closeStatements beforeElse ended pending).1.Is true q := by
  induction pending generalizing ended r with
  | nil => cases ready
  | cons top rest ih =>
    cases ready with
    | thenBranch hq outer htest =>
      unfold closeStatements
      split
      · exact ⟨_, hr, .thenBranch hq outer htest, hended⟩
      · refine ih hq.ne outer (.ifStmt hq htest hended fun n hn => ?_)
        cases hn
    | elseBranch hq outer htest hyes =>
      refine ih hq.ne outer (.ifStmt hq htest hyes fun n hn => ?_)
      rw [← Node.present?_eq hn]
      exact hended
    | whileBody hq outer htest => exact ih hq.ne outer (.whileStmt hq htest hended)
    | forBody hq outer hinit htest hstep =>
      exact ih hq.ne outer (forNode_is hq hinit htest hstep hended)
    | program hitems => exact ⟨_, hr, .program hitems, hended⟩
    | block hq outer hitems => exact ⟨_, hr, .block hq outer hitems, hended⟩
    | body outer hheader hitems => exact ⟨_, hr, .body outer hheader hitems, hended⟩
    | forInit hq outer => exact ⟨_, hr, .forInit hq outer, hended⟩
    | _ => exact absurd rfl hr

/-! ## One word -/

namespace Reader

variable {t : Token} {pending : List Pending} {r' : Reader}

theorem absentOperand?_sound (ready : Ready .expression pending)
    (h : absentOperand? t pending = some r') : r'.Sound := by
  unfold absentOperand? at h
  split at h
  · split at h
    · cases h
      cases ready with
      | result hr outer => exact ⟨_, hr.ne, outer, .returnStmt hr Node.isOptional_absent⟩
    · cases h
  · split at h
    · cases h
      cases ready with
      | arguments outer hcallee hitems => exact ⟨outer, callNode_is t hcallee hitems, by simp⟩
    · cases h
  · split at h
    · cases h
      cases ready with
      | forTest hr outer hinit => exact .forStep hr outer hinit Node.isOptional_absent
    · cases h
  · split at h
    · cases h
      cases ready with
      | forStep hr outer hinit htest => exact .forBody hr outer hinit htest Node.isOptional_absent
    · cases h
  · cases h

theorem operand?_sound (hread : t.Read) (ready : Ready .expression pending)
    (h : operand? t pending = some r') : r'.Sound := by
  unfold operand? at h
  split at h
  · rename_i hkind
    cases h
    refine ⟨ready, ?_, by simp⟩
    rw [Token.node, hkind]
    exact .number (hread.number hkind)
  · rename_i hkind
    cases h
    refine ⟨ready, ?_, by simp⟩
    rw [Token.node, hkind]
    exact .string
  · cases h
    exact ⟨ready, .literal (by simp), by simp⟩
  · cases h
    exact ⟨ready, .literal (by simp), by simp⟩
  · cases h
    exact ⟨ready, .literal (by simp), by simp⟩
  · rename_i hkind
    cases h
    refine ⟨ready, .reference (Token.isName hkind), fun u hu => ?_⟩
    split at hu
    · cases hu
      exact Token.isName hkind
    · cases hu
  · cases h
    exact .group ready
  · rename_i hkind
    cases h
    exact .unary ready (.inl (hread.symbol hkind))
  · rename_i hkind
    cases h
    exact .unary ready (.inr (hread.symbol hkind))
  · exact absentOperand?_sound ready h

theorem endExpression?_sound {e : Node} (ready : Ready .expression pending)
    (he : e.Is true .expression) (h : endExpression? t e pending = some r') : r'.Sound := by
  unfold endExpression? at h
  split at h
  · split at h
    · cases h
      cases ready with
      | group outer => exact ⟨outer, .grouping he, by simp⟩
    · cases h
  · cases ready with
    | arguments outer hcallee hitems =>
      have hitems' := List.forall_mem_cons.2 ⟨he, hitems⟩
      split at h
      · cases h
        exact .arguments outer hcallee hitems'
      · split at h
        · cases h
          exact ⟨outer, callNode_is t hcallee hitems', by simp⟩
        · cases h
  · split at h
    · cases h
      cases ready with
      | expression hr outer => exact ⟨_, hr, outer, .expressionStmt hr he⟩
    · cases h
  · split at h
    · cases h
      cases ready with
      | print hr outer => exact ⟨_, hr.ne, outer, .printStmt hr he⟩
    · cases h
  · split at h
    · cases h
      cases ready with
      | result hr outer => exact ⟨_, hr.ne, outer, .returnStmt hr he.optional⟩
    · cases h
  · split at h
    · cases h
      cases ready with
      | initializer hr outer hname =>
        refine ⟨_, ?_, outer, .variableDecl hr hname he.optional⟩
        rcases hr with rfl | rfl <;> decide
    · cases h
  · split at h
    · cases h
      cases ready with
      | ifTest hr outer => exact .thenBranch hr outer he
    · cases h
  · split at h
    · cases h
      cases ready with
      | whileTest hr outer => exact .whileBody hr outer he
    · cases h
  · split at h
    · cases h
      cases ready with
      | forTest hr outer hinit => exact .forStep hr outer hinit he.optional
    · cases h
  · split at h
    · cases h
      cases ready with
      | forStep hr outer hinit htest => exact .forBody hr outer hinit htest he.optional
    · cases h
  · cases h

theorem operator?_sound {left : Node} {target : Option Token} (hread : t.Read)
    (ready : Ready .expression pending) (hleft : left.Is true .expression)
    (htarget : ∀ u ∈ target, u.node.IsName) (h : operator? t left target pending = some r') :
    r'.Sound := by
  unfold operator? at h
  split at h
  · rename_i level hlevel
    obtain ⟨ready', hleft'⟩ := closeOperators_ready level ready hleft
    cases h
    exact .binary ready' hleft' hread (by rw [hlevel]; rfl)
  · split at h
    · cases h
      exact .arguments ready hleft (by simp)
    · split at h
      · obtain ⟨name, hname, rfl⟩ := Option.map_eq_some_iff.1 h
        exact .assign ready (htarget name hname)
      · obtain ⟨ready', hleft'⟩ := closeOperators_ready 0 ready hleft
        exact endExpression?_sound ready' hleft' h

theorem statement?_sound {r : Role} (hread : t.Read) (hr : r.IsBody) (ready : Ready r pending)
    (h : statement? t pending = some r') : r'.Sound := by
  unfold statement? at h
  split at h
  · cases h
    exact .print hr ready
  · cases h
    exact .result hr ready
  · cases h
    exact ⟨r, hr, ready⟩
  · cases h
    exact ⟨r, hr, ready⟩
  · cases h
    exact ⟨r, hr, ready⟩
  · cases h
    exact .block hr ready (by simp)
  · exact operand?_sound hread (.expression hr.ne ready) h

theorem item?_sound (hread : t.Read) (ready : Ready .item pending) (h : item? t pending = some r') :
    r'.Sound := by
  unfold item? at h
  split at h
  · cases h
    exact ready
  · cases h
    exact ⟨.item, .inl rfl, ready⟩
  · split at h
    · cases h
      cases ready with
      | block hr outer hitems => exact ⟨_, hr.ne, outer, blockNode_is t hr hitems⟩
      | body outer hheader hitems =>
        exact ⟨.item, by decide, outer, functionNode_is t hheader hitems⟩
    · cases h
  · exact statement?_sound hread (.inl rfl) ready h

theorem next?_sound {ended : Node} {r : Role} (hread : t.Read) (hr : r ≠ .expression)
    (ready : Ready r pending) (hended : ended.Is true r) (h : next? t ended pending = some r') :
    r'.Sound := by
  obtain ⟨q, hq, ready', hended'⟩ :=
    closeStatements_ready (t.kind == .keyword .elseWord) hr ready hended
  unfold next? at h
  simp only at h
  generalize closeStatements (t.kind == .keyword .elseWord) ended pending =
    closed at h ready' hended'
  split at h
  · cases ready' with
    | program hitems =>
      exact item?_sound hread (.program (List.forall_mem_cons.2 ⟨hended', hitems⟩)) h
  · cases ready' with
    | block hr outer hitems =>
      exact item?_sound hread (.block hr outer (List.forall_mem_cons.2 ⟨hended', hitems⟩)) h
    | body outer hheader hitems =>
      exact item?_sound hread (.body outer hheader (List.forall_mem_cons.2 ⟨hended', hitems⟩)) h
  · cases h
    cases ready' with
    | thenBranch hr outer htest => exact .elseBranch hr outer htest hended'
  · cases ready' with
    | forInit hr outer =>
      refine operand?_sound hread (.forTest hr outer ⟨_, _, rfl, by simp, fun n hn => ?_⟩) h
      rw [List.mem_singleton.1 hn]
      exact hended'
  · cases h

theorem clause?_sound (hread : t.Read) (ready : Ready .clause pending)
    (h : clause? t pending = some r') : r'.Sound := by
  cases ready with
  | forInit hr outer =>
    unfold clause? at h
    simp only at h
    split at h
    · cases h
      exact ⟨.clause, .inr rfl, .forInit hr outer⟩
    · cases h
      exact .forTest hr outer ⟨[], _, rfl, by simp, by simp⟩
    · exact operand?_sound hread (.expression (by decide) (.forInit hr outer)) h

/-- **Every word that is read keeps the shapes.** -/
theorem step?_sound {r : Reader} (hread : t.Read) (sound : r.Sound) (h : r.step? t = some r') :
    r'.Sound := by
  obtain ⟨expecting, pending⟩ := r
  unfold step? at h
  cases expecting with
  | item => exact item?_sound hread sound h
  | next ended isVariable =>
    obtain ⟨q, hq, ready, hended⟩ := sound
    exact next?_sound hread hq ready hended h
  | statement => exact statement?_sound hread (.inr rfl) sound h
  | clause => exact clause?_sound hread sound h
  | operand => exact operand?_sound hread sound h
  | operator left target => exact operator?_sound hread sound.1 sound.2.1 sound.2.2 h
  | opening head first =>
    obtain ⟨q, hq, ready⟩ := sound
    simp only at h
    split at h
    · cases head <;> cases h
      · exact .ifTest hq ready
      · exact .whileTest hq ready
      · exact .forInit hq ready
    · cases h
  | variableName first =>
    simp only at h
    split at h
    · rename_i hkind
      cases h
      exact ⟨Token.isName hkind, sound⟩
    · cases h
  | variableRest first name =>
    obtain ⟨hname, q, hq, ready⟩ := sound
    simp only at h
    split at h
    · cases h
      exact .initializer hq ready hname
    · split at h
      · cases h
        refine ⟨q, ?_, ready, .variableDecl hq hname Node.isOptional_absent⟩
        rcases hq with rfl | rfl <;> decide
      · cases h
  | functionName first =>
    simp only at h
    split at h
    · rename_i hkind
      cases h
      exact ⟨Token.isName hkind, sound⟩
    · cases h
  | parametersOpening first name =>
    simp only at h
    split at h
    · cases h
      exact sound
    · cases h
  | firstParameter first name =>
    obtain ⟨hname, ready⟩ := sound
    simp only at h
    split at h
    · rename_i hkind
      cases h
      refine ⟨hname, fun u hu => ?_, ready⟩
      rw [List.mem_singleton.1 hu]
      exact Token.isName hkind
    · split at h
      · cases h
        exact ⟨⟨hname, [], .inl ⟨rfl, rfl⟩, by simp⟩, ready⟩
      · cases h
  | nextParameter first name items =>
    obtain ⟨hname, hitems, ready⟩ := sound
    simp only at h
    split at h
    · rename_i hkind
      cases h
      exact ⟨hname, List.forall_mem_cons.2 ⟨Token.isName hkind, hitems⟩, ready⟩
    · cases h
  | parameterRest first name items =>
    obtain ⟨hname, hitems, ready⟩ := sound
    simp only at h
    split at h
    · cases h
      exact ⟨hname, hitems, ready⟩
    · split at h
      · cases h
        refine ⟨⟨hname, _, .inr (listNode_eq _ _), fun n hn => ?_⟩, ready⟩
        obtain ⟨u, hu, rfl⟩ := List.mem_map.1 hn
        exact hitems u (List.mem_reverse.1 hu)
      · cases h
  | body header =>
    obtain ⟨hheader, ready⟩ := sound
    simp only at h
    split at h
    · cases h
      exact .body ready hheader (by simp)
    · cases h

theorem init_sound : Reader.init.Sound := Ready.program (by simp)

/-- The tree at the end of a text is a program. -/
theorem finish?_sound {r : Reader} {tree : Node} (sound : r.Sound) (h : r.finish? = some tree) :
    ∃ items place, tree = .tree .program items place ∧ ∀ n ∈ items, n.Is true .item := by
  obtain ⟨expecting, pending⟩ := r
  unfold finish? at h
  cases expecting with
  | item =>
    simp only at h
    split at h
    · cases h
      cases sound with
      | program hitems =>
        obtain ⟨place, heq⟩ := listNode_eq .program (List.reverse _)
        exact ⟨_, place, heq, fun n hn => hitems n (List.mem_reverse.1 hn)⟩
    · cases h
  | next ended isVariable =>
    obtain ⟨q, hq, ready, hended⟩ := sound
    obtain ⟨q', hq', ready', hended'⟩ := closeStatements_ready false hq ready hended
    simp only at h
    generalize closeStatements false ended pending = closed at h ready' hended'
    split at h
    · cases h
      cases ready' with
      | program hitems =>
        obtain ⟨place, heq⟩ := listNode_eq .program (List.reverse _)
        refine ⟨_, place, heq, fun n hn => ?_⟩
        exact List.forall_mem_cons.2 ⟨hended', hitems⟩ n (List.mem_reverse.1 hn)
    · cases h
  | _ => cases h

end Reader

/-! ## A whole text -/

/-- How a text comes to have a tree: it is at its end, or a word is read and the rest has the
tree. -/
theorem readFrom_ok {r : Reader} {last p : Position} {cs : List Char} {tree : Node}
    (h : readFrom r last p cs = .ok tree) :
    (∃ q, skip false p cs = (q, []) ∧ r.finish? = some tree) ∨
    ∃ q c rest kind text r', skip false p cs = (q, c :: rest) ∧
      lexeme? r.expecting.admits (c :: rest) = some (kind, text) ∧
      r.step? (tokenAt q kind text) = some r' ∧
      readFrom r' q (tokenAt q kind text).stop ((c :: rest).drop text.length) = .ok tree := by
  unfold readFrom at h
  split at h
  · rename_i q hskip
    split at h
    · rename_i node hfinish
      cases h
      exact .inl ⟨q, hskip, hfinish⟩
    · cases h
  · rename_i q c rest hskip
    split at h
    · cases h
    · rename_i kind text hlex
      simp only at h
      split at h
      · cases h
      · rename_i r' hstep
        exact .inr ⟨q, c, rest, kind, text, r', hskip, hlex, hstep, h⟩

theorem tokenAt_read {admits : Terminal → Bool} {q : Position} {cs text : List Char}
    {kind : Terminal} (h : lexeme? admits cs = some (kind, text)) : (tokenAt q kind text).Read := by
  refine ⟨admits, cs, ?_⟩
  rw [h, tokenAt, String.toList_ofList]

theorem readFrom_shape {r : Reader} {last p : Position} {cs : List Char} {tree : Node}
    (sound : r.Sound) (h : readFrom r last p cs = .ok tree) :
    ∃ items place, tree = .tree .program items place ∧ ∀ n ∈ items, n.Is true .item := by
  -- each word makes what remains shorter
  induction hlength : cs.length using Nat.strongRecOn generalizing r last p cs with
  | ind length ih =>
    rcases readFrom_ok h with
      ⟨q, _, hfinish⟩ | ⟨q, c, rest, kind, text, r', hskip, hlex, hstep, hrest⟩
    · exact Reader.finish?_sound sound hfinish
    · have shorter := length_drop_lexeme_lt hlex
      have skipped := length_skip_le false p cs
      rw [hskip] at skipped
      refine ih _ (hlength ▸ Nat.lt_of_lt_of_le shorter skipped) ?_ hrest rfl
      exact Reader.step?_sound (tokenAt_read hlex) sound hstep

end Source

/-- **The tree of a source text is a program.** -/
theorem parseRaw_shape {source : String} {tree : Node} (h : parseRaw source = .ok tree) :
    ∃ items place, tree = .tree .program items place ∧ ∀ n ∈ items, n.Is true .item :=
  Source.readFrom_shape Source.Reader.init_sound h

theorem exists_of_isOk {ε α : Type} {e : Except ε α} (h : e.isOk = true) :
    ∃ x, e = .ok x := by
  cases e with
  | error _ => cases h
  | ok x => exact ⟨x, rfl⟩

/-- The form that is run is the tree of the text with its loops replaced. -/
theorem parse_ok {source : String} {program : Node} (h : parse source = .ok program) :
    ∃ tree, parseRaw source = .ok tree ∧ program = tree.lower := by
  unfold parse at h
  cases hraw : parseRaw source with
  | error e =>
    rw [hraw] at h
    cases h
  | ok tree =>
    rw [hraw] at h
    cases h
    exact ⟨tree, rfl, rfl⟩

/-- The same for the form that is run: its items have the shapes without loops with a header. -/
theorem parse_shape {source : String} {tree : Node} (h : parse source = .ok tree) :
    ∀ n ∈ tree.parts, n.Is false .item := by
  obtain ⟨raw, hraw, rfl⟩ := parse_ok h
  obtain ⟨items, place, rfl, hitems⟩ := parseRaw_shape hraw
  rw [Node.lower_tree (by decide)]
  exact Node.Is.lower_all fun n hn => (hitems n hn).lower

end LoxLang
