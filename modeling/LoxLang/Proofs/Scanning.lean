import LoxLang.Proofs.Printing
import LoxLang.Proofs.Rejection
import LoxLang.Proofs.Span

/-!
# One character ahead

What a word is depends on the words before it, because the terminals that can stand next do; of what
comes after it only the first character matters. So a word stays the same when something is put
behind it that begins with a blank, and when what follows is exchanged for something that begins in
the same way.

* `Follows`: what may stand behind a word in place of something else.
* `Scans`: the words that a reader takes from a text, one by one, as a relation between the text and
  the reader at its end.

Results: `lexeme_follows` — one character ahead is enough; `scans_of_readFrom`,
`Scans.readFrom` — a text is read to its end exactly if its words are taken one by one.
-/

set_option autoImplicit false

namespace LoxLang

open Text (isBlank isDigit)

namespace Source

variable {admits : Terminal → Bool} {kind : Terminal} {text rest rest' : List Char}

/-! ## What follows a word -/

/-- What may stand behind a word in place of `rest`: nothing, a blank, or what begins with the same
character. After a point a number could go on, but no text that is read goes on with a point. -/
structure Follows (rest rest' : List Char) : Prop where
  point : rest.head? ≠ some '.'
  first : ∀ c ∈ rest'.head?, isBlank c = true ∨ c ∈ rest.head?

theorem Follows.point_right (h : Follows rest rest') : rest'.head? ≠ some '.' := by
  intro hpoint
  rcases h.first '.' hpoint with blank | same
  · exact absurd blank (by decide)
  · exact h.point same

/-- A run of characters without blanks ends at the same place. -/
theorem takeWhile_follows {f : Char → Bool} (unblank : ∀ c, f c = true → isBlank c = false)
    (hf : Follows rest rest') (h : rest.takeWhile f = []) : rest'.takeWhile f = [] := by
  cases rest' with
  | nil => rfl
  | cons c more =>
    refine List.takeWhile_cons_of_neg fun hc => ?_
    rcases hf.first c rfl with blank | same
    · rw [unblank c hc] at blank
      cases blank
    · obtain ⟨after, rfl⟩ := List.head?_eq_some_iff.1 same
      rw [List.takeWhile_cons_of_pos hc] at h
      cases h

/-- A word without blanks that is at most one character longer begins both texts or none. -/
theorem prefix_follows {word : List Char} (hlength : word.length ≤ text.length + 1)
    (unblank : ∀ c ∈ word, isBlank c = false) (hf : Follows rest rest')
    (h : word <+: text ++ rest') :
    word <+: text ++ rest := by
  by_cases short : word.length ≤ text.length
  · exact (List.prefix_of_prefix_length_le h (List.prefix_append _ _) short).trans
      (List.prefix_append _ _)
  · have longer : text <+: word :=
      List.prefix_of_prefix_length_le (List.prefix_append _ _) h (by omega)
    obtain ⟨after, rfl⟩ := longer
    obtain ⟨c, rfl⟩ : ∃ c, after = [c] := by
      refine List.length_eq_one_iff.1 ?_
      rw [List.length_append] at hlength short
      omega
    obtain ⟨more, rfl⟩ := (List.prefix_append_right_inj text).1 h
    rcases hf.first c rfl with blank | same
    · rw [unblank c (by simp)] at blank
      cases blank
    · obtain ⟨after, rfl⟩ := List.head?_eq_some_iff.1 same
      exact (List.prefix_append_right_inj text).2 ⟨after, rfl⟩

theorem word?_follows (h : word? admits (text ++ rest) = some (kind, text))
    (hf : Follows rest rest') :
    word? admits (text ++ rest') = some (kind, text) := by
  by_cases hname : admits .identifier = true
  · have longest : (text ++ rest).takeWhile isNameChar = text := by
      simp only [word?, hname, if_true] at h
      split at h <;> exact (Prod.mk.inj (Option.some.inj h)).2
    have chars : ∀ c ∈ text, isNameChar c = true := by
      intro c hc
      rw [← longest] at hc
      exact List.mem_takeWhile_imp hc
    have ends : rest.takeWhile isNameChar = [] := by
      simpa [List.takeWhile_append_of_pos chars] using longest
    have ends' := takeWhile_follows (fun _ => isBlank_nameChar) hf ends
    simp only [word?, hname, if_true, List.takeWhile_append_of_pos chars, ends, ends'] at h ⊢
    exact h
  · simp only [word?, hname, Bool.false_eq_true, if_false] at h ⊢
    obtain ⟨k, hfind, hk⟩ := Option.map_eq_some_iff.1 h
    cases hk
    obtain ⟨stands, before, after, hall, hbefore⟩ := List.find?_eq_some_iff_append.1 hfind
    refine Option.map_eq_some_iff.2 ⟨k,
      List.find?_eq_some_iff_append.2 ⟨?_, before, after, hall, ?_⟩, rfl⟩
    · simpa using stands
    · -- two reserved words never begin the same text
      intro k' hk'
      have absent := hbefore k' hk'
      simp only [Bool.not_eq_true', Bool.and_eq_false_iff] at absent ⊢
      refine absent.imp_right fun absent => Bool.eq_false_iff.2 fun begins => ?_
      have within := List.prefix_or_prefix_of_prefix (List.isPrefixOf_iff_prefix.1 begins)
        (List.prefix_append k.text.toList rest')
      have same : k' = k := by
        rcases within with h | h
        · exact keyword_of_prefix h
        · exact Eq.symm <| keyword_of_prefix h
      rw [same, List.isPrefixOf_iff_prefix.2 (List.prefix_append _ _)] at absent
      cases absent

/-- Digits that end where a number ends. -/
theorem number?_whole_eq (hwhole : ∀ c ∈ text, isDigit c = true)
    (ends : rest.takeWhile isDigit = [])
    (point : rest.head? ≠ some '.') :
    number? (fun _ => true) (text ++ rest) = some (.number, text) := by
  simp only [number?, if_true, List.takeWhile_append_of_pos hwhole,
    List.dropWhile_append_of_pos hwhole, ends, List.append_nil]
  cases rest with
  | nil => rfl
  | cons c more =>
    have hc : isDigit c = false := by
      rw [Bool.eq_false_iff]
      intro hc
      rw [List.takeWhile_cons_of_pos hc] at ends
      cases ends
    rw [List.dropWhile_cons_of_neg (by simp [hc])]
    split
    · rename_i heq
      cases heq
      exact absurd rfl point
    · rfl

theorem number?_follows {c : Char} {more : List Char} (hc : isDigit c = true)
    (h : number? admits (c :: more ++ rest) = some (kind, c :: more)) (hf : Follows rest rest') :
    number? admits (c :: more ++ rest') = some (kind, c :: more) := by
  have spelled := (number?_matches hc h).1
  have admitted := number?_admitted h
  obtain ⟨text, hnumber, hwhole⟩ := number?_whole (c :: more ++ rest)
  have all : number? (fun _ => true) (c :: more ++ rest) = some (kind, c :: more) := by
    unfold number? at h ⊢
    split at h
    · exact h
    · cases h
  rw [all] at hnumber
  cases hnumber
  refine number?_of_admits ?_ admitted
  obtain ⟨whole, -, digits, htext | ⟨fraction, hfraction, digits', htext⟩⟩ := spelled
  · -- without a point, no digit follows
    rw [← htext] at digits
    rw [List.takeWhile_append_of_pos digits] at hwhole
    have ends : rest.takeWhile isDigit = [] := by
      have length := hwhole.length_le
      rw [List.length_append] at length
      exact List.length_eq_zero_iff.1 (by omega)
    exact number?_whole_eq digits (takeWhile_follows (fun _ => isBlank_digit) hf ends)
      hf.point_right
  · -- with one, no digit follows its digits
    have longest := number?_fraction rest digits hfraction digits'
    have longest' := number?_fraction rest' digits hfraction digits'
    rw [htext, List.append_assoc, List.cons_append] at all ⊢
    rw [longest] at all
    have ends : rest.takeWhile isDigit = [] := by simpa using all
    rw [longest', takeWhile_follows (fun _ => isBlank_digit) hf ends, List.append_nil]

theorem string?_eq {inside : List Char} (admitted : admits .string = true)
    (hinside : '"' ∉ inside) (rest : List Char) :
    string? admits ('"' :: (inside ++ ['"']) ++ rest) =
      some (.string, '"' :: (inside ++ ['"'])) := by
  have chars : ∀ c ∈ inside, (c != '"') = true := by
    intro c hc
    rw [bne_iff_ne]
    rintro rfl
    exact hinside hc
  simp [string?, List.takeWhile_append_of_pos chars, admitted]

/-- A string ends with its second quotation mark, whatever follows. -/
theorem string?_follows {more : List Char}
    (h : string? admits ('"' :: more ++ rest) = some (kind, '"' :: more)) (rest' : List Char) :
    string? admits ('"' :: more ++ rest') = some (kind, '"' :: more) := by
  obtain ⟨spelled, -⟩ := string?_matches h
  obtain ⟨c, word, htext, hc⟩ := matches_start spelled
  cases htext
  obtain rfl := string_of_opens hc
  obtain ⟨inside, hinside, htext⟩ := spelled
  rw [htext]
  exact string?_eq (string?_admitted h) hinside rest'

theorem symbol?_follows (h : symbol? admits (text ++ rest) = some (kind, text))
    (hf : Follows rest rest') :
    symbol? admits (text ++ rest') = some (kind, text) := by
  obtain ⟨m, hfind, hm⟩ := Option.map_eq_some_iff.1 h
  cases hm
  obtain ⟨stands, before, after, hall, hbefore⟩ := List.find?_eq_some_iff_append.1 hfind
  refine Option.map_eq_some_iff.2 ⟨m,
    List.find?_eq_some_iff_append.2 ⟨?_, before, after, hall, ?_⟩, rfl⟩
  · simpa using stands
  · intro m' hm'
    have absent := hbefore m' hm'
    simp only [Bool.not_eq_true', Bool.and_eq_false_iff] at absent ⊢
    refine absent.imp_right fun absent => Bool.eq_false_iff.2 fun begins => ?_
    have short : m'.text.toList.length ≤ m.text.toList.length + 1 := by
      have two : m'.text.toList.length ≤ 2 := by cases m' <;> decide
      have one : 1 ≤ m.text.toList.length := by cases m <;> decide
      omega
    have unblank : ∀ c ∈ m'.text.toList, isBlank c = false :=
      @matches_unblank (.symbol m') _ rfl nofun
    have begins' := prefix_follows short unblank hf (List.isPrefixOf_iff_prefix.1 begins)
    rw [List.isPrefixOf_iff_prefix.2 begins'] at absent
    cases absent

/-- **One character ahead is enough**: a word is the same before all texts that may follow it. -/
theorem lexeme_follows (h : lexeme? admits (text ++ rest) = some (kind, text))
    (hf : Follows rest rest') :
    lexeme? admits (text ++ rest') = some (kind, text) := by
  obtain ⟨c, more, rfl⟩ := List.exists_cons_of_ne_nil (lexeme_ne_nil h)
  rw [List.cons_append, lexeme?] at h ⊢
  rw [← List.cons_append] at h ⊢
  split at h
  · rw [if_pos ‹_›]
    exact word?_follows h hf
  · rw [if_neg ‹_›]
    split at h
    · rw [if_pos ‹_›]
      exact number?_follows ‹_› h hf
    · rw [if_neg ‹_›]
      split at h
      · rw [if_pos ‹_›]
        rename_i hquote
        subst hquote
        exact string?_follows h rest'
      · rw [if_neg ‹_›]
        exact symbol?_follows h hf

/-- Nor does anything else begin a comment. -/
theorem comment_follows (hne : text ≠ []) (h : ¬ ['/', '/'] <+: text ++ rest)
    (hf : Follows rest rest') :
    ¬ ['/', '/'] <+: text ++ rest' := by
  intro begins
  have length : 1 ≤ text.length := List.length_pos_iff.2 hne
  have unblank : ∀ c ∈ ['/', '/'], isBlank c = false := by
    simp [show isBlank '/' = false by decide]
  exact h (prefix_follows (by simpa using length) unblank hf begins)

/-! ## Gaps -/

theorem Gap.append {last : Bool} {gap more : List Char} (h : Gap false gap) (h' : Gap last more) :
    Gap last (gap ++ more) := by
  induction h with
  | none => exact h'
  | blank hc _ ih => exact .blank hc ih
  | @comment inside gap hinside _ ih =>
    rw [List.cons_append, List.cons_append, List.append_assoc]
    exact .comment hinside ih
  | lastComment hlast => cases hlast

theorem Gap.head_ne_point {last : Bool} {gap : List Char} (h : Gap last gap) :
    gap.head? ≠ some '.' := by
  cases h with
  | none => nofun
  | blank hc _ =>
    intro hpoint
    cases hpoint
    exact absurd hc (by decide)
  | comment _ _ => nofun
  | lastComment _ _ => nofun

/-- No word begins with a point. -/
theorem matches_ne_point (spelled : kind.Matches text) : text.head? ≠ some '.' := by
  intro hpoint
  obtain ⟨more, rfl⟩ := List.head?_eq_some_iff.1 hpoint
  obtain ⟨c, word, htext, hc⟩ := matches_start spelled
  cases htext
  have name : isNameStart '.' = false := by decide
  cases kind with
  | keyword | identifier => exact absurd hc (by simp [opens, name])
  | number => exact absurd hc (by simp [opens, isDigit_point])
  | string => exact absurd hc (by decide)
  | symbol m =>
    have checked : m.text.toList.head? ≠ some '.' := by cases m <;> decide
    rw [← show '.' :: more = m.text.toList from spelled] at checked
    exact checked rfl

/-! ## Words that are taken one by one -/

/-- The words that a reader takes from a text, and the reader at its end. -/
inductive Scans : Reader → Position → List Char → List Token → Reader → Prop
  | finish {r : Reader} {p : Position} {cs : List Char} (h : Gap true cs) : Scans r p cs [] r
  | word {r r₁ r' : Reader} {p q : Position} {gap text rest : List Char} {kind : Terminal}
    {ts : List Token} (h : Gap false gap) (hq : q = p.advanceBy gap)
    (hcomment : ¬ ['/', '/'] <+: text ++ rest)
    (lexeme : lexeme? r.expecting.admits (text ++ rest) = some (kind, text))
    (step : r.step? (tokenAt q kind text) = some r₁)
    (more : Scans r₁ (q.advanceBy text) rest ts r') :
    Scans r p (gap ++ (text ++ rest)) (tokenAt q kind text :: ts) r'

/-- **A text that is read has words that are taken one by one.** -/
theorem scans_of_readFrom {r : Reader} {last p : Position} {cs : List Char} {tree : Node}
    (h : readFrom r last p cs = .ok tree) :
    ∃ r', Scans r p cs (tokensFrom r p cs) r' ∧ r'.finish? = some tree := by
  -- each word makes what remains shorter
  induction hlength : cs.length using Nat.strongRecOn generalizing r last p cs with
  | ind length ih =>
    rcases readFrom_ok h with
      ⟨q, hskip, hfinish⟩ | ⟨q, c, rest, kind, text, r₁, hskip, hlex, hstep, hrest⟩
    · rw [tokensFrom_finish hskip]
      obtain ⟨gap, hgap, hcs, -⟩ := (skip_gap cs p).1
      rw [hskip] at hgap hcs
      rw [hcs, List.append_nil]
      exact ⟨r, .finish hgap, hfinish⟩
    · have shorter := length_drop_lexeme_lt hlex
      have skipped := length_skip_le false p cs
      rw [hskip] at skipped
      obtain ⟨r', scans, hfinish⟩ :=
        ih _ (hlength ▸ Nat.lt_of_lt_of_le shorter skipped) hrest rfl
      obtain ⟨gap, hgap, hcs, hq⟩ := gap_of_skip hskip
      obtain ⟨-, hcomment⟩ := skip_stops hskip
      have begins : text ++ (c :: rest).drop text.length = c :: rest :=
        List.prefix_iff_eq_append.1 (lexeme_matches hlex).2
      rw [← begins] at hcs hcomment hlex
      rw [tokensFrom_word hskip (begins ▸ hlex) hstep]
      refine ⟨r', ?_, hfinish⟩
      rw [hcs]
      exact .word hgap hq hcomment hlex hstep scans

/-- **Words that are taken one by one are read.** -/
theorem Scans.readFrom {r r' : Reader} {p : Position} {cs : List Char} {ts : List Token}
    {tree : Node} (h : Scans r p cs ts r') (hfinish : r'.finish? = some tree) (last : Position) :
    readFrom r last p cs = .ok tree := by
  induction h generalizing last with
  | @finish r p cs h =>
    have hskip := skip_append_gap h [] (fun _ => rfl) p
    rw [List.append_nil] at hskip
    exact readFrom_finish hskip hfinish
  | @word r r₁ r' p q gap text rest kind ts h hq hcomment lexeme step _ ih =>
    obtain ⟨spelled, begins⟩ := lexeme_matches lexeme
    have hskip : skip false p (gap ++ (text ++ rest)) = (q, text ++ rest) := by
      rw [skip_append_gap h _ nofun, ← hq, skip_word q spelled begins hcomment]
    have left : (text ++ rest).drop text.length = rest := List.drop_left
    have read := ih hfinish q
    rw [← left] at read
    obtain ⟨c, word, rfl⟩ := List.exists_cons_of_ne_nil (lexeme_ne_nil lexeme)
    rw [readFrom_word hskip lexeme step]
    exact read

/-- A text that is read does not begin with a point. -/
theorem Scans.head_ne_point {r r' : Reader} {p : Position} {cs : List Char} {ts : List Token}
    (h : Scans r p cs ts r') : cs.head? ≠ some '.' := by
  cases h with
  | finish h => exact h.head_ne_point
  | @word _ r₁ _ _ q gap text rest kind ts h _ _ lexeme _ _ =>
    cases gap with
    | cons c gap => exact h.head_ne_point
    | nil =>
      have point := matches_ne_point (lexeme_matches lexeme).1
      obtain ⟨c, word, rfl⟩ := List.exists_cons_of_ne_nil (lexeme_ne_nil lexeme)
      exact point

end Source

end LoxLang
