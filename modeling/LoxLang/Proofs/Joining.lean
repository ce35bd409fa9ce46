import LoxLang.Proofs.Log
import LoxLang.Proofs.Reformatting

/-!
# Running in pieces

Two programs that are put together, with a line feed between them, are the program of the
declarations of both. At the joint the reader has not attached the last statement of the first
program, because an `else` may follow, and it would accept words that cannot begin a program; but if
the second program does not begin with `else`, it reads the same words and does the same with them.
A run of the whole is then a run of the first program and, if that ends normally, one of the second.

* `Position.down`, `Location.down`: some lines further down.
* `Ending.SameButLog`: endings that differ in what was noted down at most.
* `shiftedRuns`: the runs of two programs of which the second has parts that stand further down.

Results: `parseRaw_join` — the program of the whole; `runAll_append` — statements in two pieces;
`running_in_pieces` — running the whole is running the pieces.
-/

set_option autoImplicit false

namespace LoxLang

/-! ## Further down -/

/-- The same column, some lines further down. -/
def Position.down (k : Nat) (p : Position) : Position := ⟨p.line + k, p.column⟩

/-- The same column, some lines further down. -/
def Location.down (k : Nat) (l : Location) : Location := ⟨l.line + k, l.column⟩

namespace Position

theorem down_advance (k : Nat) (p : Position) (c : Char) :
    (p.advance c).down k = (p.down k).advance c := by
  unfold advance
  split
  · simp only [down, Position.mk.injEq, and_true]
    omega
  · rfl

/-- After a line feed a text goes on as if it began there, further down. -/
theorem advanceBy_newline (cs : List Char) :
    first.advanceBy (cs ++ ['\n']) = first.down (cs.count '\n' + 1) := by
  rw [advanceBy_append,
    show (first.advanceBy cs).advanceBy ['\n'] = ⟨(first.advanceBy cs).line + 1, 1⟩ from rfl,
      line_advanceBy]
  simp only [down, first, Position.mk.injEq, and_true]
  omega

theorem map_advanceBy {g : Position → Position} (hg : ∀ p c, g (p.advance c) = (g p).advance c)
    (p : Position) (cs : List Char) : g (p.advanceBy cs) = (g p).advanceBy cs := by
  induction cs generalizing p with
  | nil => rfl
  | cons c cs ih => exact (ih (p.advance c)).trans (by rw [hg]; rfl)

end Position

namespace Source

variable {r r' r₁ r₂ : Reader} {p : Position} {cs cs' : List Char} {ts us : List Token}

/-! ## Two texts, one after the other -/

/-- A text elsewhere, after other declarations, has the same words. -/
theorem Scans.rebase {g : Position → Position} (hg : ∀ p c, g (p.advance c) = (g p).advance c)
    (before : List Node) (h : Scans r p cs ts r') :
    Scans (r.rebase g before) (g p) cs (ts.map (Token.relocate g)) (r'.rebase g before) := by
  induction h with
  | finish h => exact .finish h
  | @word r r₁ r' p q gap text rest kind ts h hq hcomment lexeme step _ ih =>
    have token : (tokenAt q kind text).relocate g = tokenAt (g q) kind text := by
      simp [tokenAt, Token.relocate, Position.map_advanceBy hg]
    have step' := @Reader.step?_rebase g before r (tokenAt q kind text)
    rw [step, Option.map_some, token] at step'
    rw [List.map_cons, token]
    rw [Position.map_advanceBy hg] at ih
    refine .word h (by rw [hq, Position.map_advanceBy hg]) hcomment ?_ step' ih
    rw [Reader.admits_rebase]
    exact lexeme

/-- The last comment of a text may be ended by a line feed. -/
theorem Gap.newline {gap : List Char} (h : Gap true gap) : Gap false (gap ++ ['\n']) := by
  induction h with
  | none => exact .blank (by decide) .none
  | blank hc _ ih => exact .blank hc ih
  | @comment inside gap hinside _ ih =>
    rw [List.cons_append, List.cons_append, List.append_assoc]
    exact .comment hinside ih
  | lastComment _ hinside => exact .comment hinside .none

/-- Blanks and comments may stand in front of a text. -/
theorem Scans.gap {gap : List Char} (hgap : Gap false gap)
    (h : Scans r (p.advanceBy gap) cs ts r') :
    Scans r p (gap ++ cs) ts r' := by
  generalize hq : p.advanceBy gap = q at h
  cases h with
  | finish h => exact .finish (hgap.append h)
  | word h hstart hcomment lexeme step more =>
    rw [← List.append_assoc]
    refine .word (hgap.append h) ?_ hcomment lexeme step more
    rw [hstart, Position.advanceBy_append, hq]

/-- A line feed may follow every word. -/
theorem Follows.newline {rest : List Char} (point : rest.head? ≠ some '.') (more : List Char) :
    Follows rest (rest ++ '\n' :: more) := by
  refine ⟨point, fun c hc => ?_⟩
  cases rest with
  | nil =>
    cases hc
    exact .inl (by decide)
  | cons d rest => exact .inr hc

/-- **Two texts one after the other**, with a line feed between them. -/
theorem Scans.append (h : Scans r p cs ts r₁)
    (h' : Scans r₁ (p.advanceBy (cs ++ ['\n'])) cs' us r₂) :
    Scans r p (cs ++ '\n' :: cs') (ts ++ us) r₂ := by
  induction h with
  | @finish r p cs h =>
    rw [List.append_cons]
    exact Scans.gap h.newline h'
  | @word r r₂ r₁ p q gap text rest kind ts h hq hcomment lexeme step more ih =>
    have follows := Follows.newline more.head_ne_point cs'
    have after : (q.advanceBy text).advanceBy (rest ++ ['\n']) =
        p.advanceBy (gap ++ (text ++ rest) ++ ['\n']) := by
      simp [hq, Position.advanceBy_append]
    rw [List.append_assoc, List.append_assoc]
    exact .word h hq (comment_follows (lexeme_ne_nil lexeme) hcomment follows)
      (lexeme_follows lexeme follows) step (ih (after ▸ h'))

/-! ## The joint -/

section Wider

variable {admits admits' : Terminal → Bool} {kind : Terminal} {text : List Char}

theorem word?_wider (hname : admits .identifier = true) (hname' : admits' .identifier = true)
    (same : ∀ k : Keyword, k.text.toList = text → admits' (.keyword k) = admits (.keyword k))
    (h : word? admits cs = some (kind, text)) : word? admits' cs = some (kind, text) := by
  simp only [word?, hname, hname', if_true] at h ⊢
  split at h
  · rename_i k hk
    have spelled : k.text = String.ofList (cs.takeWhile isNameChar) := by
      simpa using (List.find?_some hk : _)
    have read : cs.takeWhile isNameChar = text := (Prod.mk.inj (Option.some.inj h)).2
    rw [same k (by rw [spelled, String.toList_ofList, read])]
    exact h
  · exact h

/-- Where more terminals can stand, the same word is read, unless it or a symbol that begins the
text is one of them. -/
theorem lexeme_wider (hname : admits .identifier = true) (hname' : admits' .identifier = true)
    (hnumber : admits' .number = admits .number) (hstring : admits' .string = admits .string)
    (words : ∀ k : Keyword, k.text.toList = text → admits' (.keyword k) = admits (.keyword k))
    (symbols : ∀ m : Symbol, m.text.toList <+: cs → admits' (.symbol m) = admits (.symbol m))
    (h : lexeme? admits cs = some (kind, text)) : lexeme? admits' cs = some (kind, text) := by
  have symbol : symbol? admits' cs = symbol? admits cs := by
    unfold symbol?
    congr 2
    funext m
    by_cases begins : m.text.toList <+: cs
    · rw [symbols m begins]
    · rw [Bool.eq_false_iff.2 fun h => begins (List.isPrefixOf_iff_prefix.1 h), Bool.and_false,
        Bool.and_false]
  cases cs with
  | nil => exact h
  | cons c rest =>
    rw [lexeme?] at h ⊢
    split at h
    · rw [if_pos ‹_›]
      exact word?_wider hname hname' words h
    · rw [if_neg ‹_›, symbol]
      simpa only [number?, string?, hnumber, hstring] using h

end Wider

/-- A reader at the end of a program: it goes on as if a declaration or statement were awaited. -/
structure Reader.AtEnd (r : Reader) (items : List Node) : Prop where
  acts : ActsAs r [.program items]
  expecting : r.expecting = .item ∨ ∃ ended isVariable, r.expecting = .next ended isVariable

theorem Reader.atEnd_of_finish {tree : Node} (h : r.finish? = some tree) :
    r.AtEnd tree.parts.reverse := by
  obtain ⟨expecting, pending⟩ := r
  unfold Reader.finish? at h
  split at h
  · split at h
    · rename_i he _ items hp
      cases h
      cases he
      cases hp
      rw [parts_listNode, List.reverse_reverse]
      exact ⟨actsAs_item, .inl rfl⟩
    · cases h
  · split at h
    · rename_i ended isVariable he _ closed items hp
      cases h
      cases he
      rw [parts_listNode, List.reverse_reverse]
      exact ⟨actsAs_next isVariable (.inl rfl) hp, .inr ⟨ended, isVariable, rfl⟩⟩
    · cases h
  · cases h

/-- No declaration or statement begins with a semicolon. -/
theorem lexeme_ne_semicolon {kind : Terminal} {text : List Char}
    (h : lexeme? Expecting.item.admits cs = some (kind, text)) :
    ¬ Symbol.semicolon.text.toList <+: cs := by
  rintro ⟨rest, rfl⟩
  obtain ⟨spelled, begins⟩ := lexeme_matches h
  have admitted := lexeme_admitted h
  obtain ⟨c, word, rfl, hc⟩ := matches_start spelled
  obtain rfl : c = ';' := (List.cons_prefix_cons.1 begins).1
  cases kind with
  | symbol m =>
    cases m with
    | semicolon => exact absurd admitted (by decide)
    | _ => cases spelled
  | keyword k => exact absurd hc (by simp [opens, show isNameStart ';' = false by decide])
  | identifier => exact absurd hc (by decide)
  | number => exact absurd hc (by decide +kernel)
  | string => exact absurd hc (by decide)

/-- A word that can begin a program, and is not `else`, is read at the end of another program as
well. -/
theorem Reader.AtEnd.lexeme {items : List Node} {kind : Terminal} {text : List Char}
    (atEnd : r.AtEnd items)
    (h : lexeme? Expecting.item.admits cs = some (kind, text))
    (helse : text ≠ Keyword.elseWord.text.toList) :
    lexeme? r.expecting.admits cs = some (kind, text) := by
  rcases atEnd.expecting with hr | ⟨ended, isVariable, hr⟩
  · rw [hr]
    exact h
  · rw [hr]
    refine lexeme_wider rfl ?_ ?_ ?_ (fun k hk => ?_) (fun m hm => ?_) h
    · cases isVariable <;> rfl
    · cases isVariable <;> rfl
    · cases isVariable <;> rfl
    · cases k with
      | elseWord => exact absurd hk.symm helse
      | _ => cases isVariable <;> rfl
    · cases m with
      | semicolon => exact absurd hm (lexeme_ne_semicolon h)
      | _ => cases isVariable <;> rfl

/-- **At the joint**: a text that can stand at the beginning, and does not begin with `else`, is
read in the same way after another program. -/
theorem Scans.joint {items : List Node} (h : Scans ⟨.item, [.program items]⟩ p cs ts r')
    (atEnd : r.AtEnd items) (helse : ∀ t ∈ ts.head?, t.text ≠ Keyword.elseWord.text) :
    ∃ r₁, Scans r p cs ts r₁ ∧ r₁.finish? = r'.finish? := by
  cases h with
  | finish h => exact ⟨r, .finish h, atEnd.acts.finish⟩
  | @word _ r₁ _ _ q gap text rest kind ts h hq hcomment lexeme step more =>
    have other : text ≠ Keyword.elseWord.text.toList := by
      rintro rfl
      exact helse _ rfl String.ofList_toList
    have admitted : kind ∈ Expecting.item.terminals :=
      List.contains_iff_mem.1 (lexeme_admitted lexeme)
    have same := (atEnd.acts.word (tokenAt q kind text) admitted).2
    exact ⟨r', .word h hq hcomment (atEnd.lexeme lexeme other) (same.trans step) more, rfl⟩

end Source

open Source

/-- **The program of two texts** consists of the declarations of the first and those of the second,
which stand further down. -/
theorem parseRaw_join {first second : String} {tree₁ tree₂ : Node}
    (h₁ : parseRaw first = .ok tree₁) (h₂ : parseRaw second = .ok tree₂)
    (helse : ∀ t ∈ (tokensRead second).head?, t.text ≠ Keyword.elseWord.text) :
    parseRaw (first ++ "\n" ++ second) = .ok (listNode .program
      (tree₁.parts ++
        tree₂.parts.map (Node.relocate (Position.down (first.toList.count '\n' + 1))))) := by
  obtain ⟨r₁, scans₁, finish₁⟩ := scans_of_readFrom h₁
  obtain ⟨r₂, scans₂, finish₂⟩ := scans_of_readFrom h₂
  generalize hk : first.toList.count '\n' + 1 = k
  have moved := scans₂.rebase (Position.down_advance k) tree₁.parts.reverse
  rw [← hk, ← Position.advanceBy_newline, hk] at moved
  have other : ∀ t ∈ ((tokensRead second).map (Token.relocate (Position.down k))).head?,
      t.text ≠ Keyword.elseWord.text := by
    intro t ht
    rw [List.head?_map] at ht
    obtain ⟨u, hu, rfl⟩ := Option.map_eq_some_iff.1 ht
    exact helse u hu
  obtain ⟨r, scans, hfinish⟩ := moved.joint (Reader.atEnd_of_finish finish₁) other
  have text : (first ++ "\n" ++ second).toList = first.toList ++ '\n' :: second.toList := by simp
  rw [parseRaw, text]
  refine (scans₁.append scans).readFrom ?_ .first
  rw [hfinish, Reader.finish?_rebase, finish₂, Option.map_some, List.reverse_reverse]

/-- The statements of a program are those of its tree as it is written, in the form that is run. -/
theorem parseRaw_parts {source : String} {tree : Node} (h : parseRaw source = .ok tree) :
    tree.lower.parts = tree.parts.map Node.lower := by
  obtain ⟨items, place, rfl, -⟩ := parseRaw_shape h
  rw [Node.lower_tree (by decide)]
  rfl

/-- The same for the program that is run. -/
theorem parse_join {first second : String} {tree₁ tree₂ : Node}
    (h₁ : parseRaw first = .ok tree₁) (h₂ : parseRaw second = .ok tree₂)
    (helse : ∀ t ∈ (tokensRead second).head?, t.text ≠ Keyword.elseWord.text) :
    ∃ program, parse (first ++ "\n" ++ second) = .ok program ∧
      program.parts = tree₁.lower.parts ++
        tree₂.lower.parts.map (Node.relocate (Position.down (first.toList.count '\n' + 1))) := by
  have whole := parseRaw_join h₁ h₂ helse
  refine ⟨_, by rw [parse, whole]; rfl, ?_⟩
  rw [parseRaw_parts whole, parseRaw_parts h₁, parseRaw_parts h₂, parts_listNode,
    List.map_append, List.map_map, List.map_map]
  exact congrArg _ (List.map_congr_left fun n _ => Node.lower_relocate n)

/-! ## Statements in two pieces -/

/-- **Statements in two pieces**: the second piece is run if the first one ends normally. -/
theorem runAll_append (run : Node → Action Outcome) (ns ms : List Node) (s : State) :
    runAll run (ns ++ ms) s =
      match runAll run ns s with
      | .done .normal t => runAll run ms t
      | ending => ending := by
  induction ns generalizing s with
  | nil => rfl
  | cons n ns ih =>
    simp only [List.cons_append, runAll, Action.bind_apply]
    cases run n s with
    | done outcome t =>
      cases outcome with
      | normal => exact ih t
      | returning v => rfl
    | failed e t => rfl
    | outOfFuel => rfl

/-- Endings that differ in what was noted down at most. -/
inductive Ending.SameButLog {α : Type} : Ending α → Ending α → Prop
  | done (x : α) (t : State) (log : Array Record) :
    SameButLog (.done x t) (.done x { t with log := log })
  | failed (e : Failure) (t : State) (log : Array Record) :
    SameButLog (.failed e t) (.failed e { t with log := log })
  | outOfFuel : SameButLog .outOfFuel .outOfFuel

theorem Ending.Relogged.sameButLog {α : Type} {l l' : Array Record} {e e' : Ending α}
    (h : Ending.Relogged l l' e e') : e.SameButLog e' := by
  cases h with
  | done x t added => exact .done x { t with log := l ++ added } (l' ++ added)
  | failed e t added => exact .failed e { t with log := l ++ added } (l' ++ added)
  | outOfFuel => exact .outOfFuel

/-! ### Statements that stand further down -/

/-- Programs that are the same up to parts that stand some lines further down in the second. -/
abbrev shifted (k : Nat) : Likeness :=
  moved (fun n n' => n' = n ∨ n' = n.relocate (Position.down k)) fun l l' => l' = l ∨
    l' = l.map (Location.down k)

/-- The runs of two such programs, whatever they note down. -/
def shiftedRuns (k : Nat) (host : Host) : Lockstep Unit := (shifted k).runs host fun _ _ => True

theorem Place.location?_down (k : Nat) (p : Place) :
    (p.relocate (Position.down k)).location? = p.location? ∨
      (p.relocate (Position.down k)).location? = p.location?.map (Location.down k) := by
  cases p with
  | span start stop =>
    refine .inr ?_
    simp [Place.relocate, location?, Position.down, Location.down]
  | _ => exact .inl rfl

theorem shifted_lawful (k : Nat) : (shifted k).Lawful := by
  refine (Node.moves_relocate _).lawful (.inl rfl) ?_ ?_
  · rintro l _ (rfl | rfl)
    · exact Iff.rfl
    · exact Option.map_eq_none_iff.symm
  · rintro n _ (rfl | rfl)
    · exact .inl rfl
    · rw [Node.place_relocate]
      exact Place.location?_down k n.place

theorem shiftedRuns_law (k : Nat) (host : Host) : (shiftedRuns k host).Law :=
  (shifted_lawful k).law fun _ _ => trivial

/-- A program and the same one further down end alike, whatever was noted down before. -/
theorem shiftedRuns_outermost (k : Nat) (host : Host) (fuel : Nat) (ns : List Node) (s : State)
    (log log' : Array Record) :
    (shiftedRuns k host).Ends () (shiftedRuns k host).OutcomeAlike
      (Action.outermost (runAll (fun n => execute host fuel n host.globals) ns)
        { s with log := log })
      (Action.outermost (runAll (fun n => execute host fuel n host.globals)
        (ns.map (Node.relocate (Position.down k)))) { s with log := log' }) := by
  have law := shiftedRuns_law k host
  have nodes :
      List.Forall₂ (fun n n' => (shiftedRuns k host).stmt () n host.globals n' host.globals) ns
        (ns.map (Node.relocate (Position.down k))) :=
    List.forall₂_map_right_iff.2 (List.forall₂_same.2 fun _ _ => ⟨.inr rfl, rfl⟩)
  have start : (shiftedRuns k host).StateAlike () { s with log := log } { s with log := log' } :=
    ⟨moved_store_refl (fun _ => .inl rfl) _, moved_values_refl (fun _ => .inl rfl) _, trivial,
      rfl, rfl, rfl, rfl⟩
  exact Lockstep.Alike.outermost law (Lockstep.runAll_alike law (law.parts fuel).1 nodes) _ _ start

/-! ## Programs in two pieces -/

theorem Action.outermost_eq {α : Type} {a b : Action α} {s t : State} (h : a s = b t) :
    a.outermost s = b.outermost t := by
  rw [Action.outermost, Action.outermost, h]

/-- A host that refuses its limit does so for every program. -/
theorem interpret_refused_sameButLog {host : Host} {failure : Failure}
    (h : host.refusal? = some failure) (fuel : Nat) (ns ms : List Node) (s : State)
    (log : Array Record) :
    (∀ t, interpret host fuel ns s ≠ .done .normal t) ∧
      (interpret host fuel ns s).SameButLog (interpret host fuel ms { s with log := log }) := by
  rw [interpret_refused h, interpret_refused h]
  rcases Host.refusal?_cases h with rfl | ⟨reason, rfl⟩
  · exact ⟨nofun, .failed _ _ _⟩
  · exact ⟨nofun, .failed _ _ _⟩

/-- **Statements in two pieces, the second of which stands further down in the whole.** -/
theorem interpret_append (host : Host) (fuel k : Nat) (ns ms : List Node) (s : State)
    (log : Array Record) :
    (∀ t log', interpret host fuel ns s = .done .normal t →
      (shiftedRuns k host).Ends () (shiftedRuns k host).OutcomeAlike
        (interpret host fuel ms { t with log := log' })
        (interpret host fuel (ns ++ ms.map (Node.relocate (Position.down k)))
          { s with log := log })) ∧
    ((∀ t, interpret host fuel ns s ≠ .done .normal t) → (interpret host fuel ns s).SameButLog
      (interpret host fuel (ns ++ ms.map (Node.relocate (Position.down k)))
        { s with log := log })) := by
  by_cases refused : host.refusal?.isSome
  · obtain ⟨failure, refused⟩ := Option.isSome_iff_exists.1 refused
    obtain ⟨other, same⟩ := interpret_refused_sameButLog refused fuel ns
      (ns ++ ms.map (Node.relocate (Position.down k))) s log
    exact ⟨fun t _ ht => absurd ht (other t), fun _ => same⟩
  have accepted : host.refusal? = none := Option.not_isSome_iff_eq_none.1 refused
  simp only [interpret_accepted accepted]
  generalize (log.push _).push _ = whole
  generalize (s.log.push _).push _ = part
  have first := (runAll_relogged host fuel ns host.globals s part whole).sameButLog
  have joined := runAll_append (fun n => execute host fuel n host.globals) ns
    (ms.map (Node.relocate (Position.down k))) { s with log := whole }
  generalize he : runAll (fun n => execute host fuel n host.globals) ns { s with log := part } =
    e at first
  generalize runAll (fun n => execute host fuel n host.globals) ns { s with log := whole } =
    e' at first joined
  cases first with
  | done outcome t log =>
    cases outcome with
    | normal =>
      -- the second piece starts where the first one ended, in both runs
      have normal : Action.outermost (runAll (fun n => execute host fuel n host.globals) ns)
          { s with log := part } = .done .normal t := by
        rw [Action.outermost, he]
      refine ⟨fun t' log' ht => ?_, fun other => absurd normal (other t)⟩
      rw [normal] at ht
      cases ht
      rw [Action.outermost_eq joined]
      exact shiftedRuns_outermost k host fuel ms t _ log
    | returning v =>
      rw [Action.outermost, he, Action.outermost, joined]
      exact ⟨nofun, fun _ => .done _ t log⟩
  | failed e t log =>
    -- exhaustion of the host becomes a fault with the same depth
    rw [Action.outermost, he, Action.outermost, joined]
    cases e <;> exact ⟨nofun, fun _ => .failed _ t log⟩
  | outOfFuel =>
    rw [Action.outermost, he, Action.outermost, joined]
    exact ⟨nofun, fun _ => .outOfFuel⟩

/-- **Running in pieces is running the whole.** Two programs of which the second does not begin with
`else`, with a line feed between them, are a program, and its declarations are those of the first
and those of the second, which stand as many lines further down as there are line feeds before them.
From any state, if the run of the first program ends normally, then a run of the second one from
where it ended ends as a run of the whole does: the same results or failures, frames and output, up
to the lines of what stands further down. If the run of the first program ends in another way, a run
of the whole ends in the same way, and in the same state up to what is noted down. -/
theorem running_in_pieces (first second : String) (tree₁ tree₂ : Node)
    (h₁ : parseRaw first = .ok tree₁) (h₂ : parseRaw second = .ok tree₂)
    (helse : ∀ t ∈ (tokensRead second).head?, t.text ≠ Keyword.elseWord.text) :
    let k := first.toList.count '\n' + 1
    parseRaw (first ++ "\n" ++ second) =
      .ok
        (listNode .program
          (tree₁.parts ++ tree₂.parts.map (Node.relocate (Position.down k)))) ∧
    (∃ program, parse (first ++ "\n" ++ second) = .ok program ∧
      program.parts = tree₁.lower.parts ++
        tree₂.lower.parts.map (Node.relocate (Position.down k))) ∧
    ∀ (host : Host) (fuel : Nat) (s : State), ∃ e₁ e, run host fuel first s = .ok e₁ ∧
      run host fuel (first ++ "\n" ++ second) s = .ok e ∧
      (∀ t, e₁ = .done .normal t → ∃ e₂, run host fuel second t = .ok e₂ ∧
        (shiftedRuns k host).Ends () (shiftedRuns k host).OutcomeAlike e₂ e ∧
          e.text? = e₂.text?) ∧
      ((∀ t, e₁ ≠ .done .normal t) → e₁.SameButLog e) := by
  intro k
  refine ⟨parseRaw_join h₁ h₂ helse, parse_join h₁ h₂ helse, fun host fuel s => ?_⟩
  obtain ⟨program, hprogram, parts⟩ := parse_join h₁ h₂ helse
  have hfirst : parse first = .ok tree₁.lower := by rw [parse, h₁]; rfl
  have hsecond : parse second = .ok tree₂.lower := by rw [parse, h₂]; rfl
  refine ⟨_, _, run_eq host fuel s hfirst, run_eq host fuel s hprogram, ?_⟩
  rw [parts]
  obtain ⟨both, firstOnly⟩ :=
    interpret_append host fuel k tree₁.lower.parts tree₂.lower.parts
      { s with log := s.log.push (.running first.length) }
    (s.log.push (.running (first ++ "\n" ++ second).length))
  refine ⟨fun t ht => ⟨_, run_eq host fuel t hsecond, ?_⟩, firstOnly⟩
  have ends := both t (t.log.push (.running second.length)) ht
  exact ⟨ends, moved_text ends⟩

-- a program may begin with `else`, which is a name there, but not after an `if`
example : (parseRaw "else;").isOk = true ∧ (parseRaw "if(x)1;\nelse;").isOk = false := by cbv

/-- After an `if` that could still be continued. -/
theorem running_in_pieces_if :
    ∃ tree₁ tree₂, parseRaw "if(x)1;" = .ok tree₁ ∧ parseRaw "x;" = .ok tree₂ ∧
      (∀ t ∈ (tokensRead "x;").head?, t.text ≠ Keyword.elseWord.text) ∧
      parseRaw ("if(x)1;" ++ "\n" ++ "x;") =
        .ok
          (listNode .program
            (tree₁.parts ++ tree₂.parts.map (Node.relocate (Position.down 1)))) ∧
      ∀ (host : Host) (fuel : Nat) (s : State), ∃ e₁ e, run host fuel "if(x)1;" s =
        .ok e₁ ∧ run host fuel ("if(x)1;" ++ "\n" ++ "x;") s = .ok e ∧
        (∀ t, e₁ = .done .normal t → ∃ e₂, run host fuel "x;" t = .ok e₂ ∧
          (shiftedRuns 1 host).Ends () (shiftedRuns 1 host).OutcomeAlike e₂ e ∧
            e.text? = e₂.text?) ∧
        ((∀ t, e₁ ≠ .done .normal t) → e₁.SameButLog e) := by
  obtain ⟨tree₁, h₁⟩ : ∃ tree, parseRaw "if(x)1;" = .ok tree := exists_of_isOk (by cbv)
  obtain ⟨tree₂, h₂⟩ : ∃ tree, parseRaw "x;" = .ok tree := exists_of_isOk (by cbv)
  have words : (tokensRead "x;").head? = some ⟨.identifier, "x", ⟨1, 1⟩, ⟨1, 2⟩⟩ := by
    cbv
  have other : ∀ t ∈ (tokensRead "x;").head?, t.text ≠ Keyword.elseWord.text := by
    rw [words]
    intro t ht
    cases ht
    decide
  obtain ⟨whole, -, runs⟩ := running_in_pieces "if(x)1;" "x;" tree₁ tree₂ h₁ h₂ other
  exact ⟨tree₁, tree₂, h₁, h₂, other, whole, runs⟩

end LoxLang
