import LoxLang.Proofs.Derivation

/-!
# Positions are exact

The positions of a tree are kept while words are cut from the text and put together to nodes. They
can be checked against the text: what stands between the two positions of a word is the word, and a
node stands from its first word to its last, punctuation and reserved words included.

* `offset`, `slice`: how many characters stand before a position, and what stands between two of
  them.
* `Spread`: nodes that stand one after another within a run of words.
* `Node.Placed`: a node that stands where the words of its production stand.
* `Node.Nested`: a node whose parts stand inside of it, one after another.

Results: `offset_advanceBy` — a position says how many characters were passed; `Laid.stands`,
`Laid.sorted` — the words of a text stand where their positions say, one after another;
`Derives.fits` — every node that is derived stands where its words stand; `positions_exact` —
the positions of a tree are exact, and replacing loops with a header keeps them.
-/

set_option autoImplicit false

namespace LoxLang

/-! ## Positions and offsets -/

namespace Position

/-- A position that comes first, on an earlier line or earlier on the same line. -/
instance : LE Position :=
  ⟨fun p q => p.line < q.line ∨ p.line = q.line ∧ p.column ≤ q.column⟩

theorem le_def {p q : Position} : p ≤ q ↔
    p.line < q.line ∨ p.line = q.line ∧ p.column ≤ q.column := Iff.rfl

theorem le_refl (p : Position) : p ≤ p := .inr ⟨rfl, Nat.le_refl _⟩

theorem le_trans {p q r : Position} (h : p ≤ q) (h' : q ≤ r) : p ≤ r := by
  rw [le_def] at *
  omega

theorem le_advance (p : Position) (c : Char) : p ≤ p.advance c := by
  rw [le_def, advance]
  split
  · exact .inl (Nat.lt_succ_self _)
  · exact .inr ⟨rfl, Nat.le_succ _⟩

theorem le_advanceBy (p : Position) (cs : List Char) : p ≤ p.advanceBy cs := by
  induction cs generalizing p with
  | nil => exact le_refl p
  | cons c cs ih => exact le_trans (le_advance p c) (ih (p.advance c))

theorem advanceBy_append (p : Position) (cs ds : List Char) :
    p.advanceBy (cs ++ ds) = (p.advanceBy cs).advanceBy ds := List.foldl_append

theorem line_advanceBy (p : Position) (cs : List Char) :
    (p.advanceBy cs).line = p.line + cs.count '\n' := by
  induction cs generalizing p with
  | nil => rfl
  | cons c cs ih =>
    rw [show p.advanceBy (c :: cs) = (p.advance c).advanceBy cs from rfl, ih, advance]
    split
    · rename_i hc
      simp only [hc, List.count_cons_self]
      omega
    · rename_i hc
      rw [List.count_cons_of_ne (Ne.symm (fun h => hc h.symm))]

theorem column_pos {p : Position} (h : 0 < p.column) (cs : List Char) :
    0 < (p.advanceBy cs).column := by
  induction cs generalizing p with
  | nil => exact h
  | cons c cs ih =>
    refine ih ?_
    rw [advance]
    split
    · exact Nat.one_pos
    · exact Nat.succ_pos _

end Position

namespace Source

/-- The number of characters before a line, if lines are counted from zero and a line feed ends
each. -/
def lineStart : Nat → List Char → Nat
  | 0, _ => 0
  | _ + 1, [] => 0
  | n + 1, c :: cs => (if c = '\n' then lineStart n cs else lineStart (n + 1) cs) + 1

/-- The number of characters before a position; lines and columns are counted from one. -/
def offset (cs : List Char) (p : Position) : Nat := lineStart (p.line - 1) cs + (p.column - 1)

/-- The text from one position up to another. -/
def slice (cs : List Char) (start stop : Position) : List Char :=
  (cs.drop (offset cs start)).take (offset cs stop - offset cs start)

theorem lineStart_lineFeed (front rest : List Char) :
    lineStart (front.count '\n' + 1) (front ++ '\n' :: rest) = front.length + 1 := by
  induction front with
  | nil => simp [lineStart]
  | cons c front ih =>
    by_cases hc : c = '\n'
    · subst hc
      rw [List.count_cons_self, List.cons_append, lineStart, if_pos rfl, ih, List.length_cons]
    · rw [List.count_cons_of_ne (Ne.symm (fun h => hc h.symm)), List.cons_append, lineStart,
        if_neg hc, ih, List.length_cons]

/-- **A position says how many characters were passed.** -/
theorem offset_advanceBy (front rest : List Char) :
    offset (front ++ rest) (Position.first.advanceBy front) = front.length := by
  induction front using List.reverseRecOn generalizing rest with
  | nil => simp [offset, lineStart, Position.advanceBy, Position.first]
  | append_singleton front c ih =>
    rw [Position.advanceBy_append, List.append_assoc, List.singleton_append, List.length_append,
      List.length_singleton]
    by_cases hc : c = '\n'
    · -- a line begins here
      subst hc
      rw [offset, show (Position.advanceBy (Position.first.advanceBy front) ['\n']) =
        ⟨(Position.first.advanceBy front).line + 1, 1⟩ from rfl, Position.line_advanceBy]
      simpa [Position.first, Nat.add_comm] using lineStart_lineFeed front rest
    · have before := ih (c :: rest)
      have column := Position.column_pos (show 0 < Position.first.column from Nat.one_pos) front
      rw [offset] at before
      rw [offset, show (Position.advanceBy (Position.first.advanceBy front) [c]) =
        ⟨(Position.first.advanceBy front).line,
          (Position.first.advanceBy front).column + 1⟩ from if_neg hc]
      simp only
      omega

/-- What stands between the positions before and after a text is this text. -/
theorem slice_advanceBy (front text rest : List Char) :
    slice (front ++ (text ++ rest)) (Position.first.advanceBy front)
      (Position.first.advanceBy (front ++ text)) = text := by
  have stop := offset_advanceBy (front ++ text) rest
  rw [List.append_assoc] at stop
  rw [slice, offset_advanceBy, stop, List.length_append, Nat.add_sub_cancel_left, List.drop_left,
    List.take_left]

/-! ## Words one after another -/

/-- **The words of a text stand where their positions say.** -/
theorem Laid.stands {p : Position} {cs : List Char} {ts : List Token} (h : Laid p cs ts) :
    ∀ t ∈ ts, ∃ front rest, cs = front ++ (t.text.toList ++ rest) ∧
      t.start = p.advanceBy front ∧ t.stop = p.advanceBy (front ++ t.text.toList) := by
  induction h with
  | finish => nofun
  | @word p cs gap rest t ts _ hcs _ start stop _ ih =>
    intro u hu
    rcases List.mem_cons.1 hu with rfl | hu
    · exact ⟨gap, rest, hcs, start, by rw [stop, start, Position.advanceBy_append]⟩
    · obtain ⟨front, after, hrest, hstart, hstop⟩ := ih u hu
      refine ⟨gap ++ (t.text.toList ++ front), after, ?_, ?_, ?_⟩
      · simp [hcs, hrest]
      · rw [hstart, stop, start]
        simp only [Position.advanceBy_append]
      · rw [hstop, stop, start]
        simp only [Position.advanceBy_append]

/-- Words that stand one after another. -/
structure Sorted (ts : List Token) : Prop where
  each : ∀ t ∈ ts, t.start ≤ t.stop
  later : ts.Pairwise fun t u => t.stop ≤ u.start

theorem Sorted.sublist {us ts : List Token} (h : Sorted ts) (hus : us.Sublist ts) : Sorted us :=
  ⟨fun t ht => h.each t (hus.subset ht), h.later.sublist hus⟩

/-- **The words of a text stand one after another.** -/
theorem Laid.sorted {p : Position} {cs : List Char} {ts : List Token} (h : Laid p cs ts) :
    Sorted ts ∧ ∀ t ∈ ts, p ≤ t.start := by
  induction h with
  | finish => exact ⟨⟨nofun, .nil⟩, nofun⟩
  | @word p cs gap rest t ts _ _ _ start stop _ ih =>
    obtain ⟨sorted, after⟩ := ih
    have first : p ≤ t.start := start ▸ Position.le_advanceBy p gap
    have whole : t.start ≤ t.stop := stop ▸ Position.le_advanceBy _ _
    refine ⟨⟨List.forall_mem_cons.2 ⟨whole, sorted.each⟩, .cons after sorted.later⟩, ?_⟩
    refine List.forall_mem_cons.2 ⟨first, fun u hu => ?_⟩
    exact Position.le_trans (Position.le_trans first whole) (after u hu)

theorem extent_of_ne_nil {ws : List Token} (h : ws ≠ []) :
    extent ws = .span (ws.head h).start (ws.getLast h).stop := by
  rw [extent, List.head?_eq_some_head h, List.getLast?_eq_some_getLast h]

/-- The place of a run of words that stand one after another begins before all of them and ends
after all of them. -/
theorem Sorted.extent {ws : List Token} (h : Sorted ws) (hne : ws ≠ []) :
    ∃ start stop, extent ws = .span start stop ∧
      ∀ w ∈ ws, start ≤ w.start ∧ w.stop ≤ stop := by
  refine ⟨(ws.head hne).start, (ws.getLast hne).stop, extent_of_ne_nil hne,
    fun w hw => ⟨?_, ?_⟩⟩
  · obtain ⟨first, rest, rfl⟩ := List.exists_cons_of_ne_nil hne
    rcases List.mem_cons.1 hw with rfl | hw
    · exact Position.le_refl _
    · exact Position.le_trans (h.each first List.mem_cons_self)
        (List.rel_of_pairwise_cons h.later hw)
  · have split := List.dropLast_append_getLast hne
    have later := h.later
    have last := h.each _ (List.getLast_mem hne)
    rw [← split] at hw later
    rcases List.mem_append.1 hw with hw | hw
    · exact Position.le_trans
        ((List.pairwise_append.1 later).2.2 w hw _ (List.mem_singleton_self _)) last
    · rw [List.mem_singleton.1 hw]
      exact Position.le_refl _

/-! ## Nodes one after another -/

/-- Nodes that stand one after another at runs of the given words; some may have no place. -/
inductive Spread : List Token → List Node → Prop
  | none {ws : List Token} : Spread ws []
  | unplaced {ws : List Token} {n : Node} {ns : List Node} (hn : n.place = .unknown)
    (more : Spread ws ns) :
    Spread ws (n :: ns)
  | node {before us after : List Token} {n : Node} {ns : List Node} (hu : us ≠ [])
    (hn : n.place = extent us) (more : Spread after ns) : Spread (before ++ (us ++ after)) (n :: ns)

namespace Spread

variable {us ws : List Token} {ns ms : List Node}

theorem prepend (h : Spread ws ns) (us : List Token) : Spread (us ++ ws) ns := by
  induction h with
  | none => exact .none
  | unplaced hn _ ih => exact .unplaced hn ih
  | @node before run after n ns hu hn more _ =>
    rw [← List.append_assoc]
    exact .node hu hn more

theorem append (h : Spread us ns) (h' : Spread ws ms) : Spread (us ++ ws) (ns ++ ms) := by
  induction h with
  | none => exact h'.prepend _
  | unplaced hn _ ih => exact .unplaced hn ih
  | @node before run after n ns hu hn _ ih =>
    rw [List.append_assoc, List.append_assoc]
    exact .node hu hn ih

theorem word (t : Token) : Spread [t] [t.node] :=
  @node [] [t] [] t.node [] (List.cons_ne_nil t []) rfl .none

/-- A node that stands where its words stand. -/
theorem tree (label : Label) (ws : List Token) (parts : List Node) :
    Spread ws [phraseNode label ws parts] := by
  by_cases hne : ws = []
  · subst hne
    exact .unplaced rfl .none
  · have whole := @node [] ws [] (phraseNode label ws parts) [] hne rfl .none
    rwa [List.append_nil] at whole

/-- Where a node begins and ends, there a word begins and ends. -/
theorem at_words (h : Spread ws ns) : ∀ n ∈ ns, ∀ start stop, n.place = .span start stop →
    ∃ t ∈ ws, ∃ u ∈ ws, start = t.start ∧ stop = u.stop := by
  induction h with
  | none => nofun
  | unplaced hn _ ih =>
    intro n hmem start stop hplace
    rcases List.mem_cons.1 hmem with rfl | hmem
    · rw [hn] at hplace
      cases hplace
    · exact ih n hmem start stop hplace
  | @node before us after n ns hu hn _ ih =>
    intro m hmem start stop hplace
    rcases List.mem_cons.1 hmem with rfl | hmem
    · rw [hn, extent_of_ne_nil hu] at hplace
      cases hplace
      exact ⟨us.head hu, by simp, us.getLast hu, by simp, rfl, rfl⟩
    · obtain ⟨t, ht, u, hu', same⟩ := ih m hmem start stop hplace
      exact ⟨t, by simp [ht], u, by simp [hu'], same⟩

end Spread

end Source

open Source

/-- A node whose parts stand inside of it, one after another, as far as they have a place. -/
structure Node.Nested (n : Node) : Prop where
  inside : ∀ m ∈ n.parts, ∀ start stop, m.place = .span start stop →
    ∃ first last, n.place = .span first last ∧ first ≤ start ∧ stop ≤ last
  apart : n.parts.Pairwise fun m k => ∀ start stop first last, m.place = .span start stop →
    k.place = .span first last → stop ≤ first

/-- **What is spread over words that stand one after another does so too.** -/
theorem Source.Spread.nested {ws : List Token} {parts : List Node} (h : Spread ws parts)
    (sorted : Sorted ws) (label : Label) : (phraseNode label ws parts).Nested := by
  constructor
  · intro m hm start stop hplace
    obtain ⟨t, ht, u, hu, rfl, rfl⟩ := h.at_words m hm start stop hplace
    obtain ⟨first, last, hextent, around⟩ := sorted.extent (List.ne_nil_of_mem ht)
    exact ⟨first, last, hextent, (around t ht).1, (around u hu).2⟩
  · show parts.Pairwise _
    induction h with
    | none => exact .nil
    | unplaced hn _ ih =>
      refine .cons (fun m _ start stop first last hplace => ?_) (ih sorted)
      rw [hn] at hplace
      cases hplace
    | @node before us after n ns hu hn more ih =>
      have rest : Sorted (us ++ after) := sorted.sublist (List.sublist_append_right _ _)
      refine .cons (fun m hm start stop first last hplace hplace' => ?_)
        (ih (rest.sublist (List.sublist_append_right _ _)))
      obtain ⟨t, ht, -, -, rfl, -⟩ := more.at_words m hm first last hplace'
      rw [hn, extent_of_ne_nil hu] at hplace
      cases hplace
      exact (List.pairwise_append.1 rest.later).2.2 _ (List.getLast_mem hu) t ht

/-! ## Nodes and their productions -/

/-- The phrases that make a node of all their words. -/
def Source.Phrase.isNode : Phrase → Bool
  | .program | .declaration | .variableDecl | .parameters | .statement | .expressionStmt | .clause
  | .block
  | .level _ | .arguments => true
  | _ => false

/-- A node of a tree that was read from the given words: a missing part, one of the words, or a
tree. A tree stands from the first to the last word of its production, which is a run of the words,
and its parts stand there one after another. Only an empty program has no word. -/
inductive Node.Placed (ts : List Token) : Node → Prop
  | absent : Placed ts .absent
  | word {t : Token} (ht : t ∈ ts) : Placed ts t.node
  | tree {p : Phrase} {ws : List Token} {label : Label} {parts : List Node} (run : ws <:+: ts)
    (hp : p.isNode = true) (derived : Derives p ws [.tree label parts (extent ws)])
    (spread : Spread ws parts)
    (hempty : ws = [] → label = .program ∧ parts = []) :
    Placed ts (.tree label parts (extent ws))

theorem Node.Placed.mono {ws ts : List Token} {n : Node} (h : n.Placed ws) (run : ws <:+: ts) :
    n.Placed ts := by
  cases h with
  | absent => exact .absent
  | word ht => exact .word (run.subset ht)
  | tree run' hp derived spread hempty => exact .tree (run'.trans run) hp derived spread hempty

theorem Node.Placed.nested {ts : List Token} {n : Node} (h : n.Placed ts) (sorted : Sorted ts) :
    n.Nested := by
  cases h with
  | absent | word => exact ⟨nofun, .nil⟩
  | tree run _ _ spread _ => exact spread.nested (sorted.sublist run.sublist) _

/-- Every node stands somewhere, but for a missing part and an empty program. -/
theorem Node.Placed.spans {ts : List Token} {n : Node} (h : n.Placed ts) :
    n = .absent ∨ n = .tree .program [] .unknown ∨
      ∃ start stop, n.place = .span start stop := by
  cases h with
  | absent => exact .inl rfl
  | @word t => exact .inr (.inr ⟨t.start, t.stop, rfl⟩)
  | @tree p ws label parts run hp derived spread hempty =>
    by_cases hne : ws = []
    · obtain ⟨rfl, rfl⟩ := hempty hne
      subst hne
      exact .inr (.inl rfl)
    · exact .inr (.inr ⟨_, _, extent_of_ne_nil hne⟩)

namespace Source

/-- Nodes that stand one after another at the given words, and everything in them where its words
stand. -/
structure Fits (ws : List Token) (ns : List Node) : Prop where
  spread : Spread ws ns
  placed : ∀ n ∈ ns, ∀ k, n.Contains k → k.Placed ws

namespace Fits

variable {us ws : List Token} {ns ms : List Node}

theorem none : Fits ws [] := ⟨.none, nofun⟩

theorem append (h : Fits us ns) (h' : Fits ws ms) : Fits (us ++ ws) (ns ++ ms) := by
  refine ⟨h.spread.append h'.spread,
    List.forall_mem_append.2 ⟨fun n hn k hk => ?_, fun n hn k hk => ?_⟩⟩
  · exact (h.placed n hn k hk).mono (List.prefix_append _ _).isInfix
  · exact (h'.placed n hn k hk).mono (List.suffix_append _ _).isInfix

theorem cons (h : Fits ws ns) (t : Token) : Fits (t :: ws) ns := (@none [t]).append h

theorem snoc (h : Fits ws ns) (t : Token) : Fits (ws ++ [t]) ns := by
  simpa using h.append (@none [t])

theorem word (t : Token) : Fits [t] [t.node] := by
  refine ⟨.word t, fun n hn k hk => ?_⟩
  obtain rfl := List.mem_singleton.1 hn
  cases hk with
  | here => exact .word (List.mem_singleton_self t)
  | part hm => cases hm

theorem absent : Fits [] [.absent] := by
  refine ⟨.unplaced rfl .none, fun n hn k hk => ?_⟩
  obtain rfl := List.mem_singleton.1 hn
  cases hk with
  | here => exact .absent
  | part hm => cases hm

/-- A production makes a node of parts that fit. -/
theorem tree {p : Phrase} {label : Label} {parts : List Node}
    (derived : Derives p ws [phraseNode label ws parts]) (hp : p.isNode = true)
    (hempty : ws = [] → label = .program ∧ parts = []) (h : Fits ws parts) :
    Fits ws [phraseNode label ws parts] := by
  refine ⟨.tree label ws parts, fun n hn k hk => ?_⟩
  obtain rfl := List.mem_singleton.1 hn
  cases hk with
  | here => exact .tree List.infix_rfl hp derived h.spread hempty
  | part hm hk => exact h.placed _ hm k hk

end Fits

theorem Covers.ne_nil {ts : List Token} {ns : List Node} (h : Covers ts ns) : ts ≠ [] := by
  obtain ⟨⟨us, -, hu, begins, -⟩, -⟩ := h
  rintro rfl
  exact hu (List.prefix_nil.1 begins)

/-- Lists of names and of expressions have words. -/
theorem Derives.list_ne_nil {p : Phrase} {ts : List Token} {ns : List Node} (h : Derives p ts ns)
    (hp : p = .names ∨ p = .expressions) : ts ≠ [] := by
  rcases h.covers (by simp [hp]) with ⟨rfl, -⟩ | covers
  · rcases hp with hp | hp <;> cases hp
  · exact covers.ne_nil

/-- **Everything that is derived stands where its words stand.** -/
theorem Derives.fits {p : Phrase} {ts : List Token} {ns : List Node} (h : Derives p ts ns) :
    Fits ts ns := by
  induction h with
  | program items ih =>
    refine .tree (.program items) rfl (fun hts => ⟨rfl, ?_⟩) ih
    rcases items.covers (by simp) with ⟨-, -, hns⟩ | covers
    · exact hns
    · exact absurd hts covers.ne_nil
  | noItems => exact .none
  | oneMore _ _ words ihs ih =>
    subst words
    exact ihs.append ih
  | functionDecl hstart hname hleft params hright block words ihp ihb =>
    refine .tree (.functionDecl hstart hname hleft params hright block words) rfl
      (by simp [words]) ?_
    subst words
    exact ((Fits.word _).append ((ihp.append (ihb.cons _)).cons _)).cons _
  | parameters names ih =>
    exact .tree (.parameters names) rfl (fun h => absurd h (names.list_ne_nil (.inl rfl))) ih
  | arguments items ih =>
    exact .tree (.arguments items) rfl (fun h => absurd h (items.list_ne_nil (.inr rfl))) ih
  | name | constant => exact .word _
  | nextName _ _ _ words ih =>
    subst words
    exact ih.append ((Fits.word _).cons _)
  | nextArgument _ _ _ words ihs ih =>
    subst words
    exact ihs.append (ih.cons _)
  | initializer _ _ words ih | elsePart _ _ words ih =>
    subst words
    exact ih.cons _
  | missing => exact .absent
  | ofVariableDecl _ ih | ofStatement _ ih | ofExpressionStmt _ ih | ofBlock _ ih | nextLevel _ ih
  | argument _ ih | present _ ih => exact ih
  | variableDecl hstart hname value hstop words ih =>
    refine .tree (.variableDecl hstart hname value hstop words) rfl (by simp [words]) ?_
    subst words
    exact ((Fits.word _).append (ih.snoc _)).cons _
  | expressionStmt expr hstop words ih =>
    refine .tree (.expressionStmt expr hstop words) rfl (by simp [words]) ?_
    subst words
    exact ih.snoc _
  | printStmt hstart expr hstop words ih =>
    refine .tree (.printStmt hstart expr hstop words) rfl (by simp [words]) ?_
    subst words
    exact (ih.snoc _).cons _
  | returnStmt hstart expr hstop words ih =>
    refine .tree (.returnStmt hstart expr hstop words) rfl (by simp [words]) ?_
    subst words
    exact (ih.snoc _).cons _
  | ifStmt hstart hleft expr hright branch other nearest words iht ihy ihn =>
    refine .tree (.ifStmt hstart hleft expr hright branch other nearest words) rfl
      (by simp [words]) ?_
    subst words
    exact ((iht.append ((ihy.append ihn).cons _)).cons _).cons _
  | whileStmt hstart hleft expr hright branch words iht ihb =>
    refine .tree (.whileStmt hstart hleft expr hright branch words) rfl (by simp [words]) ?_
    subst words
    exact ((iht.append (ihb.cons _)).cons _).cons _
  | forStmt hstart hleft clause condition hstop update hright branch words ihi iht ihs ihb =>
    refine .tree (.forStmt hstart hleft clause condition hstop update hright branch words) rfl
      (by simp [words]) ?_
    subst words
    exact ((ihi.append (iht.append ((ihs.append (ihb.cons _)).cons _))).cons _).cons _
  | variableClause h ih =>
    exact .tree (.variableClause h) rfl (fun hts => absurd hts (h.ne_nil rfl)) ih
  | expressionClause h ih =>
    exact .tree (.expressionClause h) rfl (fun hts => absurd hts (h.ne_nil rfl)) ih
  | emptyClause ht => exact .tree (.emptyClause ht) rfl nofun .none
  | block hstart items hstop words ih =>
    refine .tree (.block hstart items hstop words) rfl (by simp [words]) ?_
    subst words
    exact (ih.snoc _).cons _
  | assign hname hequal expr words ih =>
    refine .tree (.assign hname hequal expr words) rfl (by simp [words]) ?_
    subst words
    exact (Fits.word _).append (ih.cons _)
  | binary first hop second words ihl ihr =>
    refine .tree (.binary first hop second words) rfl (by simp [words]) ?_
    subst words
    exact ihl.append ((Fits.word _).append ihr)
  | unary hop expr words ih =>
    refine .tree (.unary hop expr words) rfl (by simp [words]) ?_
    subst words
    exact (Fits.word _).append ih
  | call first hleft arguments hright words ihc iha =>
    refine .tree (.call first hleft arguments hright words) rfl (by simp [words]) ?_
    subst words
    exact ihc.append ((iha.snoc _).cons _)
  | trueLit ht => exact .tree (.trueLit ht) rfl nofun .none
  | falseLit ht => exact .tree (.falseLit ht) rfl nofun .none
  | nilLit ht => exact .tree (.nilLit ht) rfl nofun .none
  | reference ht => exact .tree (.reference ht) rfl nofun (.word _)
  | grouping hleft expr hright words ih =>
    refine .tree (.grouping hleft expr hright words) rfl (by simp [words]) ?_
    subst words
    exact (ih.snoc _).cons _

end Source

/-! ## Positions of a text -/

/-- What stands between the two positions of a word of a text is this word. -/
theorem Source.Laid.slice_eq {cs : List Char} {ts : List Token} (h : Laid .first cs ts) :
    ∀ t ∈ ts, slice cs t.start t.stop = t.text.toList := by
  intro t ht
  obtain ⟨front, rest, rfl, start, stop⟩ := h.stands t ht
  rw [start, stop, slice_advanceBy]

/-- **Positions are exact.** What stands between the two positions of a word is the word. Every node
stands from the first to the last word of its production, only a missing part and an empty program
stand nowhere, and the parts of a node stand inside of it, one after another. If loops with a header
are replaced, the nodes that are made for them stand nowhere, and all others stand where they stood;
the nodes that are not there any more are those loops and their first clauses. -/
theorem positions_exact (source : String) (tree : Node) (h : parseRaw source = .ok tree) :
    (∀ t ∈ tokensRead source, slice source.toList t.start t.stop = t.text.toList) ∧
    (∀ k, tree.Contains k → k.Placed (tokensRead source) ∧ k.Nested ∧
      (k = .absent ∨ k = .tree .program [] .unknown ∨
        ∃ start stop, k.place = .span start stop)) ∧
    (∀ k, tree.lower.Contains k →
      (∃ m, tree.Contains m ∧ k = m.lower ∧ k.label? = m.label? ∧ k.place = m.place) ∨
      (k.place = .unknown ∧ ∃ init test step body place,
        tree.Contains (.tree .forStmt [init, test, step, body] place) ∧
        k ∈ Node.loopNodes init.lower test.lower step.lower body.lower)) ∧
    (∀ k, tree.Contains k → k ≠ .absent → k.label? ≠ some .forClause →
      k.label? ≠ some .forStmt → tree.lower.Contains k.lower ∧ k.lower.place = k.place) ∧
    (∀ init test step body place, tree.Contains
      (.tree .forStmt [init, test, step, body] place) →
        ∀ k ∈ Node.loopNodes init.lower test.lower step.lower body.lower,
          tree.lower.Contains k ∧ k.place = .unknown) := by
  obtain ⟨derived, laid⟩ := readFrom_derives Reader.init_took h
  obtain ⟨items, place, rfl, hitems⟩ := parseRaw_shape h
  have loops (m : Node) (hm : Node.Contains (.tree .program items place) m)
      (hfor : m.label? = some .forStmt) : m.Is true .statement := by
    obtain ⟨n, hn, hin⟩ := hm.inside hfor rfl (by decide)
    exact (hitems n hn).forStmt_inside hin hfor
  refine ⟨laid.slice_eq, fun k hk => ?_, fun k hk => ?_, fun k hk present hclause hfor => ?_,
    fun init test step body p hloop k hk => ⟨?_, Node.loopNodes_unplaced hk⟩⟩
  · have placed := derived.fits.placed _ (List.mem_singleton_self _) k hk
    exact ⟨placed, placed.nested laid.sorted.1, placed.spans⟩
  · rcases hk.lower_cases with kept | ⟨init, test, step, body, p, hloop, made⟩
    · exact .inl kept
    · exact .inr ⟨Node.loopNodes_unplaced made, init, test, step, body, p, hloop, made⟩
  · exact ⟨hk.lower loops hclause present, (Node.lower_kept hfor).2⟩
  · have lowered := hloop.lower loops nofun nofun
    rw [Node.lower_for] at lowered
    exact lowered.trans (.of_loopNodes hk)

/-- A loop with an empty header whose body holds a string over two lines. -/
theorem positions_exact_for :
    (tokensRead "for(;;)\"\n\" ;").map (fun t => (t.text, t.start, t.stop)) =
      [("for", ⟨1, 1⟩, ⟨1, 4⟩), ("(", ⟨1, 4⟩, ⟨1, 5⟩),
        (";", ⟨1, 5⟩, ⟨1, 6⟩), (";", ⟨1, 6⟩, ⟨1, 7⟩),
        (")", ⟨1, 7⟩, ⟨1, 8⟩), ("\"\n\"", ⟨1, 8⟩, ⟨2, 2⟩),
          (";", ⟨2, 3⟩, ⟨2, 4⟩)] ∧
    ∃ tree, parseRaw "for(;;)\"\n\" ;" = .ok tree ∧
      (∀ t ∈ tokensRead "for(;;)\"\n\" ;", slice "for(;;)\"\n\" ;".toList t.start t.stop =
        t.text.toList) ∧
      ∀ k, tree.Contains k → k.Placed (tokensRead "for(;;)\"\n\" ;") ∧ k.Nested := by
  refine ⟨by cbv, ?_⟩
  have accepted : (parseRaw "for(;;)\"\n\" ;").isOk = true := by cbv
  cases h : parseRaw "for(;;)\"\n\" ;" with
  | error e =>
    rw [h] at accepted
    cases accepted
  | ok tree =>
    obtain ⟨words, nodes, -⟩ := positions_exact _ tree h
    exact ⟨tree, rfl, words, fun k hk => ⟨(nodes k hk).1, (nodes k hk).2.1⟩⟩
end LoxLang
