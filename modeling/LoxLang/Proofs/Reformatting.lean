import LoxLang.Proofs.Relocation.Reader
import LoxLang.Proofs.Relocation.Run
import LoxLang.Proofs.Safety
import LoxLang.Proofs.Scanning
import LoxLang.Proofs.Scope

/-!
# Reformatting changes nothing but locations

Blanks and comments may be put at the beginning of a program and behind each of its words without
changing what it does. The words stay the same, although the reader cuts them from the text with
only one character of what follows in view; the tree stays the same up to positions; and a run does
not look at positions.

* `Filler`: what may be put between words.
* `Reformatted`: a text with something put in front of it and behind its words.
* `Reader.Coincides`: readers that differ in positions only.
* `displacedRuns`: the runs of two programs that differ in positions only.

Results: `Scans.reformat` — a reformatted text has the same words;
`reformatting_changes_locations_only` — it is the same program, and its runs end alike.
-/

set_option autoImplicit false

namespace LoxLang

open Text (isBlank)

/-- Every character is passed by moving on. -/
theorem Position.eq_nil_of_advanceBy {p : Position} {cs : List Char} (h : p.advanceBy cs = p) :
    cs = [] := by
  cases cs with
  | nil => rfl
  | cons c cs =>
    have later := le_advanceBy (p.advance c) cs
    rw [show (p.advance c).advanceBy cs = p from h, le_def, advance] at later
    split at later <;> simp at later

/-- A position is reached after one beginning of a text only. -/
theorem Position.prefix_unique {p : Position} {cs ds as bs : List Char} (h : cs ++ as = ds ++ bs)
    (same : p.advanceBy cs = p.advanceBy ds) : cs = ds ∧ as = bs := by
  have comparable :=
    List.prefix_or_prefix_of_prefix (List.prefix_append cs as) (h ▸ List.prefix_append ds bs)
  have longer {us vs : List Char} (hus : us <+: vs) (huv : p.advanceBy us = p.advanceBy vs) :
      us = vs := by
    obtain ⟨more, rfl⟩ := hus
    rw [advanceBy_append] at huv
    rw [eq_nil_of_advanceBy huv.symm, List.append_nil]
  obtain rfl : cs = ds := by
    rcases comparable with hus | hus
    · exact longer hus same
    · exact (longer hus same.symm).symm
  exact ⟨rfl, List.append_cancel_left h⟩

namespace Source

/-! ## Texts with something put between their words -/

/-- What may be put between words: nothing, or a blank and then blanks and complete comments. -/
inductive Filler : List Char → Prop
  | none : Filler []
  | blank {c : Char} {gap : List Char} (hc : isBlank c = true) (h : Gap false gap) :
    Filler (c :: gap)

/-- A text whose words, from a position on, are the given ones, and the same text with something put
in front of it and behind some of its words. -/
inductive Reformatted : Position → List Token → List Char → List Char → Prop
  | finish {p : Position} {filler cs : List Char} (h : Filler filler) :
    Reformatted p [] cs (filler ++ cs)
  | word {p : Position} {t : Token} {ts : List Token} {filler gap rest rest' cs : List Char}
    (h : Filler filler) (hcs : cs = gap ++ (t.text.toList ++ rest))
    (start : t.start = p.advanceBy gap) (more : Reformatted t.stop ts rest rest') :
    Reformatted p (t :: ts) cs (filler ++ (gap ++ (t.text.toList ++ rest')))

theorem Filler.gap {filler : List Char} (h : Filler filler) : Gap false filler := by
  cases h with
  | none => exact .none
  | blank hc h => exact .blank hc h

/-- What is put in front begins with a blank, or nothing is. -/
theorem Filler.head {filler cs : List Char} (h : Filler filler) {c : Char}
    (hc : c ∈ (filler ++ cs).head?) :
    isBlank c = true ∨ c ∈ cs.head? := by
  cases h with
  | none => exact .inr hc
  | blank hblank _ =>
    cases hc
    exact .inl hblank

variable {r r' : Reader} {p : Position} {cs cs' : List Char} {ts : List Token}

/-- A reformatted text may follow a word in place of the original one. -/
theorem Scans.follows (h : Scans r p cs ts r') (reformatted : Reformatted p ts cs cs') :
    Follows cs cs' := by
  refine ⟨h.head_ne_point, fun c hc => ?_⟩
  cases reformatted with
  | finish filler => exact filler.head hc
  | @word _ t _ filler gap rest rest' _ hfiller hcs _ _ =>
    refine (hfiller.head hc).imp_right fun hc => ?_
    have word : t.text.toList ≠ [] := by
      cases h with
      | word _ _ _ lexeme _ _ =>
        rw [tokenAt, String.toList_ofList]
        exact lexeme_ne_nil lexeme
    obtain ⟨d, more, hmore⟩ : ∃ d more, gap ++ t.text.toList = d :: more :=
      List.exists_cons_of_ne_nil (by simp [word])
    rw [← List.append_assoc, hmore] at hc
    rw [hcs, ← List.append_assoc, hmore]
    exact hc

/-! ## The same words -/

/-- Readers that differ in positions only. -/
def Reader.Coincides (r r' : Reader) : Prop :=
  r.rebase (fun _ => .first) [] = r'.rebase (fun _ => .first) []

theorem Reader.Coincides.admits (h : r.Coincides r') :
    r'.expecting.admits = r.expecting.admits := by
  rw [← @admits_rebase (fun _ => .first) [] r, show r.rebase _ _ = _ from h, admits_rebase]

/-- One word, wherever it stands, has the same effect on both. -/
theorem Reader.Coincides.step {r₁ : Reader} {t t' : Token} (h : r.Coincides r')
    (same : t'.unplaced = t.unplaced) (step : r.step? t = some r₁) :
    ∃ r₁', r'.step? t' = some r₁' ∧ r₁.Coincides r₁' := by
  have words : t'.relocate (fun _ => .first) = t.relocate (fun _ => .first) := by
    have kinds : t'.kind = t.kind := congrArg Prod.fst same
    have texts : t'.text = t.text := congrArg Prod.snd same
    simp [Token.relocate, kinds, texts]
  have left := @step?_rebase (fun _ => .first) [] r t
  have right := @step?_rebase (fun _ => .first) [] r' t'
  rw [words, ← show r.rebase _ _ = r'.rebase _ _ from h, left, step, Option.map_some] at right
  obtain ⟨r₁', step', same'⟩ := Option.map_eq_some_iff.1 right.symm
  exact ⟨r₁', step', same'.symm⟩

theorem Reader.Coincides.finish {tree : Node} (h : r.Coincides r')
    (hfinish : r.finish? = some tree) :
    ∃ tree', r'.finish? = some tree' ∧ tree.Coincides tree' := by
  have left := @finish?_rebase (fun _ => .first) [] r
  have right := @finish?_rebase (fun _ => .first) [] r'
  rw [← show r.rebase _ _ = r'.rebase _ _ from h, left, hfinish, Option.map_some] at right
  obtain ⟨tree', hfinish', same⟩ := Option.map_eq_some_iff.1 right.symm
  have trees : tree'.relocate (fun _ => .first) = tree.relocate (fun _ => .first) := by
    rw [← finish?_listNode hfinish, ← finish?_listNode hfinish', relocate_listNode,
      relocate_listNode]
    simpa using same
  exact ⟨tree', hfinish', trees.symm⟩

/-- **A reformatted text has the same words.** -/
theorem Scans.reformat {r₁ : Reader} (h : Scans r p cs ts r₁) (q : Position)
    (reformatted : Reformatted p ts cs cs') (same : r.Coincides r') :
    ∃ us r₁', Scans r' q cs' us r₁' ∧ r₁.Coincides r₁' := by
  induction h generalizing r' q cs' with
  | finish h =>
    cases reformatted with
    | finish filler => exact ⟨[], r', .finish (filler.gap.append h), same⟩
  | @word r r₂ r₁ p start gap text rest kind ts h hstart hcomment lexeme step more ih =>
    cases reformatted with
    | @word _ _ _ filler gap' rest' after _ hfiller hcs start' more' =>
      have word : (tokenAt start kind text).text.toList = text := String.toList_ofList
      rw [word] at hcs ⊢
      -- the text before the word is the same, because the word stands where its position says
      obtain ⟨rfl, hafter⟩ := Position.prefix_unique hcs (hstart.symm.trans start')
      obtain rfl := List.append_cancel_left hafter
      have follows := more.follows more'
      have lexeme' : lexeme? r'.expecting.admits (text ++ after) = some (kind, text) := by
        rw [same.admits]
        exact lexeme_follows lexeme follows
      have hcomment' := comment_follows (lexeme_ne_nil lexeme) hcomment follows
      let t := tokenAt (q.advanceBy (filler ++ gap)) kind text
      have unplaced : t.unplaced = (tokenAt start kind text).unplaced := rfl
      obtain ⟨r₂', step', same'⟩ := same.step unplaced step
      obtain ⟨us, r₁', scans, ends⟩ := ih t.stop more' same'
      refine ⟨t :: us, r₁', ?_, ends⟩
      rw [← List.append_assoc]
      exact .word (hfiller.gap.append h) rfl hcomment' lexeme' step' scans

end Source

open Source

/-- **A reformatted program is the same program**, up to positions. -/
theorem parse_reformatted {source other : String} {program : Node} (h : parse source = .ok program)
    (reformatted : Reformatted .first (tokensRead source) source.toList other.toList) :
    ∃ program', parse other = .ok program' ∧ program.Coincides program' := by
  obtain ⟨tree, hraw, rfl⟩ := parse_ok h
  obtain ⟨r, scans, hfinish⟩ := scans_of_readFrom hraw
  obtain ⟨us, r', scans', same⟩ :=
    scans.reformat .first reformatted (show Reader.init.Coincides .init from rfl)
  obtain ⟨tree', hfinish', coincide⟩ := same.finish hfinish
  have hraw' : parseRaw other = .ok tree' := scans'.readFrom hfinish' .first
  refine ⟨tree'.lower, ?_, coincide.lower⟩
  rw [parse, hraw']
  rfl

/-! ## The same runs -/

/-- Programs that differ in positions only; a fault has a location in both or in none. -/
abbrev displaced : Likeness := moved Node.Coincides fun l l' => l.isSome = l'.isSome

/-- What is noted down is the same, up to the lengths of source texts. -/
def NotedAlike (a a' : Record) : Prop :=
  displaced.Records a a' ∨ ∃ m m', a = .running m ∧ a' = .running m'

/-- The runs of two programs that differ in positions only. -/
def displacedRuns (host : Host) : Lockstep Unit :=
  displaced.runs host fun l l' => List.Forall₂ NotedAlike l.toList l'.toList

theorem displaced_lawful : displaced.Lawful := by
  refine Node.moves_coincides.lawful rfl (fun {l l'} h => ?_) fun {n n'} h => ?_
  · cases l <;> cases l' <;> simp_all
  · exact (h.same (fun m => m.place.location?.isSome) fun _ => Node.location?_relocate).symm

theorem notedAlike_push {a a' : Record} {l l' : Array Record} (ha : NotedAlike a a')
    (hl : List.Forall₂ NotedAlike l.toList l'.toList) :
    List.Forall₂ NotedAlike (l.push a).toList (l'.push a').toList := by
  rw [Array.toList_push, Array.toList_push]
  exact List.rel_append hl (.cons ha .nil)

theorem displacedRuns_law (host : Host) : (displacedRuns host).Law :=
  displaced_lawful.law fun ha hl => notedAlike_push (.inl ha) hl

theorem displaced_node_refl (n : Node) : n.Coincides n := rfl

theorem notedAlike_refl (a : Record) : NotedAlike a a := by
  cases a with
  | running m => exact .inr ⟨m, m, rfl, rfl⟩
  | interpreting count => exact .inl (.interpreting count)
  | raisedLimit previous limit => exact .inl (.raisedLimit previous limit)
  | declared x arity => exact .inl (.declared x arity)
  | limitHit limit v => exact .inl (.limitHit limit (moved_value_refl displaced_node_refl v))
  | exhausted depth => exact .inl (.exhausted depth)

/-- A state before two texts that may differ in length. -/
theorem displacedRuns_start (host : Host) (s : State) (m m' : Nat) :
    (displacedRuns host).StateAlike () { s with log := s.log.push (.running m) }
      { s with log := s.log.push (.running m') } :=
  ⟨moved_store_refl displaced_node_refl _, moved_values_refl displaced_node_refl _,
    notedAlike_push (.inr ⟨m, m', rfl, rfl⟩)
      (List.forall₂_same.2 fun a _ => notedAlike_refl a), rfl, rfl, rfl, rfl⟩

/-- The text that has been printed when a run ends. -/
def Ending.text? {α : Type} (e : Ending α) : Option String :=
  e.state?.map fun t => outputText t.printed.toList

/-- Runs of programs that differ in positions only print the same text. -/
theorem moved_text {R : Node → Node → Prop}
    {location : Option Location → Option Location → Prop} {host : Host}
    {log : Array Record → Array Record → Prop} {V : Unit → Outcome → Outcome → Prop}
    {e e' : Ending Outcome} (h : ((moved R location).runs host log).Ends () V e e') :
    e'.text? = e.text? := by
  cases h with
  | done _ states _ => exact congrArg some (moved_output states.output)
  | failed _ states _ => exact congrArg some (moved_output states.output)
  | outOfFuel => rfl

/-- **Reformatting changes nothing but locations.** A program with blanks and comments put at its
beginning and behind its words is still a program, the same one up to positions. From any state the
runs of both end alike: both normally, both by returning or both in a failure of the same kind, with
values, functions, frames and what was printed equal up to positions in the bodies of functions, and
the same output as a text. -/
theorem reformatting_changes_locations_only (source other : String) (program : Node)
    (h : parse source = .ok program)
    (reformatted : Reformatted .first (tokensRead source) source.toList other.toList) :
    ∃ program', parse other = .ok program' ∧ program.Coincides program' ∧
      ∀ (host : Host) (fuel : Nat) (s : State), ∃ e e', run host fuel source s = .ok e ∧
        run host fuel other s = .ok e' ∧
          (displacedRuns host).Ends () (displacedRuns host).OutcomeAlike e e' ∧
        e'.text? = e.text? := by
  obtain ⟨program', h', coincide⟩ := parse_reformatted h reformatted
  refine ⟨program', h', coincide, fun host fuel s => ?_⟩
  refine ⟨_, _, run_eq host fuel s h, run_eq host fuel s h', ?_⟩
  have statements := coincide.parts.imp fun _ _ hn => And.intro hn (Eq.refl host.globals)
  have ends := (displacedRuns_law host).interpret fuel statements _ _
    (displacedRuns_start host s source.length other.length)
  exact ⟨ends, moved_text ends⟩

/-- A blank and a comment between the two words of `orx`, which is one word elsewhere. -/
theorem reformatting_changes_locations_only_or :
    ∃ program, parse "1orx;" = .ok program ∧
      Reformatted .first (tokensRead "1orx;") "1orx;".toList "1or //!\nx;".toList ∧
      ∃ program', parse "1or //!\nx;" = .ok program' ∧ program.Coincides program' ∧
        ∀ (host : Host) (fuel : Nat) (s : State), ∃ e e', run host fuel "1orx;" s = .ok e ∧
          run host fuel "1or //!\nx;" s = .ok e' ∧
          (displacedRuns host).Ends () (displacedRuns host).OutcomeAlike e e' ∧
            e'.text? = e.text? := by
  have words : tokensRead "1orx;" =
      [⟨.number, "1", ⟨1, 1⟩, ⟨1, 2⟩⟩,
        ⟨.keyword .orWord, "or", ⟨1, 2⟩, ⟨1, 4⟩⟩,
          ⟨.identifier, "x", ⟨1, 4⟩, ⟨1, 5⟩⟩,
            ⟨.symbol .semicolon, ";", ⟨1, 5⟩, ⟨1, 6⟩⟩] := by
    cbv
  have filler : Filler [' ', '/', '/', '!', '\n'] :=
    .blank (by decide) (@Gap.comment false ['!'] [] (by decide) .none)
  have reformatted :
      Reformatted .first (tokensRead "1orx;") "1orx;".toList "1or //!\nx;".toList := by
    rw [words]
    refine @Reformatted.word _ _ _ [] [] "orx;".toList "or //!\nx;".toList _ .none rfl rfl ?_
    refine @Reformatted.word _ _ _ [] [] "x;".toList " //!\nx;".toList _ .none rfl rfl ?_
    refine @Reformatted.word _ _ _ [' ', '/', '/', '!', '\n']
      [] ";".toList ";".toList _ filler rfl rfl ?_
    exact @Reformatted.word _ _ _ [] [] [] [] _ .none rfl rfl (.finish .none)
  obtain ⟨program, h⟩ : ∃ program, parse "1orx;" = .ok program := exists_of_isOk (by cbv)
  exact ⟨program, h, reformatted, reformatting_changes_locations_only _ _ program h reformatted⟩

end LoxLang
