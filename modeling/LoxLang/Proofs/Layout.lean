import LoxLang.Proofs.Words
import LoxLang.Source.Parse

/-!
# How a text consists of words

A text is a sequence of words with blanks and comments between them. The words are those that the
reader has taken; each of them matches the pattern of its terminal and stands where its positions
say.

* `Gap`: blanks and comments.
* `Laid`: a text that consists of given words, from a given position on.
* `tokensFrom`, `tokensRead`: the words that the reader takes from a text.

Results: `skip_gap` — what is skipped is a gap; `laid_word`, `laid_finish` — a text is laid out
around the word that is taken from it, and is a gap when none is left.
-/

set_option autoImplicit false

namespace LoxLang

open Text (isBlank)

namespace Source

/-! ## Gaps -/

/-- Blanks and comments; `last` says whether the text ends after them. A comment runs to the end of
its line, or to the end of the text. -/
inductive Gap (last : Bool) : List Char → Prop
  | none : Gap last []
  | blank {c : Char} {cs : List Char} (hc : isBlank c = true) (h : Gap last cs) : Gap last (c :: cs)
  | comment {inside cs : List Char} (hinside : '\n' ∉ inside) (h : Gap last cs) :
    Gap last ('/' :: '/' :: (inside ++ '\n' :: cs))
  | lastComment {inside : List Char} (hlast : last = true) (hinside : '\n' ∉ inside) :
    Gap last ('/' :: '/' :: inside)

/-- What is skipped inside a comment: the rest of its line and a gap, or the rest of the text. -/
def CommentRest (last : Bool) (cs : List Char) : Prop :=
  (∃ inside gap, '\n' ∉ inside ∧ Gap last gap ∧ cs = inside ++ '\n' :: gap) ∨
    last = true ∧ '\n' ∉ cs

theorem CommentRest.cons {last : Bool} {c : Char} {cs : List Char} (h : CommentRest last cs)
    (hc : c ≠ '\n') : CommentRest last (c :: cs) := by
  rcases h with ⟨inside, gap, hinside, hgap, rfl⟩ | ⟨hlast, hcs⟩
  · exact .inl ⟨c :: inside, gap, by simp [hinside, hc.symm], hgap, rfl⟩
  · exact .inr ⟨hlast, by simp [hcs, hc.symm]⟩

theorem CommentRest.tail {last : Bool} {c : Char} {cs : List Char} (h : CommentRest last (c :: cs))
    (hc : c ≠ '\n') : CommentRest last cs := by
  rcases h with ⟨inside, gap, hinside, hgap, heq⟩ | ⟨hlast, hcs⟩
  · cases inside with
    | nil =>
      cases heq
      exact absurd rfl hc
    | cons d inside =>
      cases heq
      exact .inl ⟨inside, gap, fun h => hinside (List.mem_cons_of_mem _ h), hgap, rfl⟩
  · exact .inr ⟨hlast, fun h => hcs (List.mem_cons_of_mem _ h)⟩

/-- Inside a comment something is skipped, unless the text is at its end. -/
theorem CommentRest.ne_nil {rest : List Char} (h : rest ≠ []) :
    ¬ CommentRest rest.isEmpty [] := by
  rintro (⟨inside, gap, -, -, heq⟩ | ⟨hlast, -⟩)
  · cases inside <;> cases heq
  · exact h (List.isEmpty_iff.1 hlast)

/-- Two slashes begin a comment. -/
theorem CommentRest.gap {last : Bool} {cs : List Char} (h : CommentRest last cs) :
    Gap last ('/' :: '/' :: cs) := by
  rcases h with ⟨inside, gap, hinside, hgap, rfl⟩ | ⟨hlast, hcs⟩
  · exact .comment hinside hgap
  · exact .lastComment hlast hcs

/-- The beginning of a text that is skipped, and where the position is then. -/
def Skipped (G : Bool → List Char → Prop) (p : Position) (cs : List Char)
    (result : Position × List Char) :
    Prop :=
  ∃ gap, G result.2.isEmpty gap ∧ cs = gap ++ result.2 ∧ result.1 = p.advanceBy gap

theorem Skipped.cons {G H : Bool → List Char → Prop} {p : Position} {c : Char} {cs : List Char}
    {result : Position × List Char} (h : Skipped G (p.advance c) cs result)
    (hGH : ∀ last gap, G last gap → H last (c :: gap)) : Skipped H p (c :: cs) result := by
  obtain ⟨gap, hgap, hcs, hp⟩ := h
  refine ⟨c :: gap, hGH _ _ hgap, ?_, hp⟩
  rw [hcs]
  rfl

/-- **What is skipped is a gap.** -/
theorem skip_gap (cs : List Char) : ∀ p,
    Skipped Gap p cs (skip false p cs) ∧ Skipped CommentRest p cs (skip true p cs) := by
  induction cs with
  | nil =>
    intro p
    exact ⟨⟨[], .none, rfl, rfl⟩, ⟨[], .inr ⟨rfl, by simp⟩, rfl, rfl⟩⟩
  | cons c rest ih =>
    intro p
    obtain ⟨outside, inside⟩ := ih (p.advance c)
    constructor
    · simp only [skip, Bool.false_eq_true, if_false]
      by_cases hblank : isBlank c = true
      · rw [if_pos hblank]
        exact outside.cons fun _ _ h => .blank hblank h
      · rw [if_neg hblank]
        split
        · rename_i hslash
          -- the second slash is skipped as part of the comment
          simp only [Bool.and_eq_true, decide_eq_true_eq, beq_iff_eq] at hslash
          obtain ⟨rfl, hnext⟩ := hslash
          obtain ⟨more, rfl⟩ := List.head?_eq_some_iff.1 hnext
          obtain ⟨gap, hgap, hcs, hp⟩ := inside
          cases gap with
          | nil =>
            rw [List.nil_append] at hcs
            exact absurd hgap (CommentRest.ne_nil (by rw [← hcs]; simp))
          | cons d gap =>
            obtain ⟨rfl, -⟩ := List.cons.inj hcs
            exact ⟨'/' :: '/' :: gap, (hgap.tail (by decide)).gap, congrArg ('/' :: ·) hcs, hp⟩
        · exact ⟨[], .none, rfl, rfl⟩
    · simp only [skip, if_true]
      by_cases hline : c = '\n'
      · subst hline
        exact outside.cons fun _ gap h => .inl ⟨[], gap, by simp, h, rfl⟩
      · rw [bne_iff_ne.2 hline]
        exact inside.cons fun _ _ h => h.cons hline

/-! ## Texts and their words -/

/-- A text that consists of the given words, from a position on: before each word and at the end
there may be a gap, and each word matches the pattern of its terminal and stands where its positions
say. -/
inductive Laid : Position → List Char → List Token → Prop
  | finish {p : Position} {cs : List Char} (h : Gap true cs) : Laid p cs []
  | word {p : Position} {cs gap rest : List Char} {t : Token} {ts : List Token} (h : Gap false gap)
    (hcs : cs = gap ++ (t.text.toList ++ rest)) (spelled : t.kind.Matches t.text.toList)
    (start : t.start = p.advanceBy gap) (stop : t.stop = t.start.advanceBy t.text.toList)
    (more : Laid t.stop rest ts) : Laid p cs (t :: ts)

/-- The words that a reader takes from a text. -/
def tokensFrom (r : Reader) (p : Position) (cs : List Char) : List Token :=
  match hskip : skip false p cs with
  | (_, []) => []
  | (q, c :: rest) =>
    match hlex : lexeme? r.expecting.admits (c :: rest) with
    | none => []
    | some (kind, text) =>
      let token := tokenAt q kind text
      match r.step? token with
      | none => []
      | some r =>
        have : ((c :: rest).drop text.length).length < cs.length :=
          Nat.lt_of_lt_of_le (length_drop_lexeme_lt hlex)
            (by simpa [hskip] using length_skip_le false p cs)
        token :: tokensFrom r token.stop ((c :: rest).drop text.length)
termination_by cs.length
decreasing_by assumption

theorem tokensFrom_finish {r : Reader} {p q : Position} {cs : List Char}
    (hskip : skip false p cs = (q, [])) : tokensFrom r p cs = [] := by
  unfold tokensFrom
  split
  · rfl
  · rename_i heq
    rw [hskip] at heq
    cases heq

theorem tokensFrom_word {r r' : Reader} {p q : Position} {cs rest text : List Char} {c : Char}
    {kind : Terminal} (hskip : skip false p cs = (q, c :: rest))
    (hlex : lexeme? r.expecting.admits (c :: rest) = some (kind, text))
    (hstep : r.step? (tokenAt q kind text) = some r') :
    tokensFrom r p cs = tokenAt q kind text ::
      tokensFrom r' (tokenAt q kind text).stop ((c :: rest).drop text.length) := by
  rw [tokensFrom]
  split
  · rename_i heq
    rw [hskip] at heq
    cases heq
  · rename_i heq
    rw [hskip] at heq
    cases heq
    split
    · rename_i hnone
      rw [hlex] at hnone
      cases hnone
    · rename_i hsome
      rw [hlex] at hsome
      cases hsome
      simp only [hstep]

/-- A word is laid out before the words after it. -/
theorem laid_word {admits : Terminal → Bool} {p q : Position}
    {cs rest text : List Char} {c : Char} {kind : Terminal} {ts : List Token}
    (hskip : skip false p cs = (q, c :: rest))
    (hlex : lexeme? admits (c :: rest) = some (kind, text))
    (more : Laid (tokenAt q kind text).stop ((c :: rest).drop text.length) ts) :
    Laid p cs (tokenAt q kind text :: ts) := by
  obtain ⟨gap, hgap, hcs, hq⟩ := (skip_gap cs p).1
  rw [hskip] at hgap hcs hq
  obtain ⟨spelled, begins⟩ := lexeme_matches hlex
  have at' := List.prefix_iff_eq_append.1 begins
  refine .word hgap ?_ ?_ hq ?_ more
  · rw [hcs, tokenAt, String.toList_ofList, at']
  · rw [tokenAt, String.toList_ofList]
    exact spelled
  · rw [tokenAt, String.toList_ofList]

/-- At the end of a text nothing but a gap is left. -/
theorem laid_finish {p q : Position} {cs : List Char} (hskip : skip false p cs = (q, [])) :
    Laid p cs [] := by
  obtain ⟨gap, hgap, hcs, -⟩ := (skip_gap cs p).1
  rw [hskip] at hgap hcs
  rw [hcs, List.append_nil]
  exact .finish hgap

/-- The words that the reader takes from a source text. -/
def tokensRead (source : String) : List Token := tokensFrom .init .first source.toList

end Source

end LoxLang
