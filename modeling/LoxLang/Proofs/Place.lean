import LoxLang.Proofs.Span

/-!
# Where the nodes of a text stand

Some nodes raise faults of their own: a variable, an assignment, an operator other than the logical
ones, and a call. In the tree of a text each of them has a place, and replacing loops with a header
neither moves nor makes one, although the nodes that are made for such a loop have no place.

* `Label.raises`: the nodes that raise faults of their own.
* `Marked`: the locations of such nodes of given texts.
* `Node.Marks`: a node inside which all such nodes have a location of a given kind.

Results: `Contains.of_lower` — a node that raises faults is in the tree before loops are replaced;
`parse_marks` — the locations of such nodes are those of the text.
-/

set_option autoImplicit false

namespace LoxLang

open Source

/-- The nodes that raise faults of their own. -/
def Label.raises : Label → Bool
  | .reference | .assign | .unary | .binary | .call => true
  | _ => false

/-- A node that raises faults of its own. -/
def Node.Raises (n : Node) : Prop := ∃ label, n.label? = some label ∧ label.raises = true

/-- A location of a node that raises faults, in the tree of one of the given texts. -/
def Marked (sources : List String) (l : Location) : Prop :=
  ∃ source ∈ sources, ∃ tree n start stop, parseRaw source = .ok tree ∧ tree.Contains n ∧
    n.Raises ∧ n.place = .span start stop ∧ l = ⟨start.line, some start.column⟩

/-- Inside the node all nodes that raise faults have locations of a kind. -/
def Node.Marks (L : Location → Prop) (n : Node) : Prop :=
  ∀ k, n.Contains k → k.Raises → ∃ l, k.place.location? = some l ∧ L l

theorem Marked.mono {sources more : List String} (h : ∀ source ∈ sources, source ∈ more)
    {l : Location} (hl : Marked sources l) : Marked more l := by
  obtain ⟨source, hsource, rest⟩ := hl
  exact ⟨source, h source hsource, rest⟩

theorem Node.Marks.mono {L M : Location → Prop} (h : ∀ l, L l → M l) {n : Node}
    (hn : n.Marks L) :
    n.Marks M := by
  intro k hk raises
  obtain ⟨l, hl, inL⟩ := hn k hk raises
  exact ⟨l, hl, h l inL⟩

theorem Node.Marks.part {L : Location → Prop} {n m : Node} (hn : n.Marks L) (hm : m ∈ n.parts) :
    m.Marks L :=
  fun k hk => hn k (.part hm hk)

/-! ## Nodes that are read and nodes that are run -/

/-- What raises faults stands somewhere. -/
theorem Node.Placed.span_of_raises {ts : List Token} {n : Node} (h : n.Placed ts)
    (raises : n.Raises) :
    ∃ start stop, n.place = .span start stop := by
  obtain ⟨label, hlabel, raises⟩ := raises
  rcases h.spans with rfl | rfl | spans
  · cases hlabel
  · cases hlabel
    cases raises
  · exact spans

/-- What is made for a loop with a header raises no faults. -/
theorem Node.loopNodes_not_raises {init test step body k : Node}
    (h : k ∈ loopNodes init test step body) :
    ¬ k.Raises := by
  rintro ⟨label, hlabel, raises⟩
  rcases mem_loopNodes.1 h with rfl | rfl | rfl | ⟨e, -, rfl⟩ | ⟨-, rfl⟩ <;>
    cases hlabel <;> cases raises

/-- **What raises faults is in the tree before loops are replaced**, at the same place. -/
theorem Node.Contains.of_lower {n k : Node} (h : n.lower.Contains k) (raises : k.Raises) :
    ∃ m, n.Contains m ∧ m.label? = k.label? ∧ m.place = k.place := by
  rcases h.lower_cases with
    ⟨m, hm, -, label, place⟩ | ⟨init, test, step, body, place, -, made⟩
  · exact ⟨m, hm, label.symm, place.symm⟩
  · exact absurd raises (loopNodes_not_raises made)

/-- **Every node of a text that raises faults has a location**, also in the form that is run. -/
theorem parse_marks {source : String} {program : Node} {sources : List String}
    (h : parse source = .ok program) (hsource : source ∈ sources) :
    ∀ n ∈ program.parts, n.Marks (Marked sources) := by
  obtain ⟨tree, raw, rfl⟩ := parse_ok h
  intro n hn k hk raises
  obtain ⟨m, hm, hlabel, hplace⟩ := Node.Contains.of_lower (.part hn hk) raises
  have raises' : m.Raises := by
    obtain ⟨label, hlabel', raises⟩ := raises
    exact ⟨label, hlabel.trans hlabel', raises⟩
  have derived := (readFrom_derives Reader.init_took raw).1
  obtain ⟨start, stop, hspan⟩ :=
    (derived.fits.placed tree (List.mem_singleton_self tree) m hm).span_of_raises raises'
  refine ⟨⟨start.line, some start.column⟩, ?_, ?_⟩
  · rw [← hplace, hspan]
    rfl
  · exact ⟨source, hsource, tree, m, start, stop, raw, hm, raises', hspan, rfl⟩

end LoxLang
