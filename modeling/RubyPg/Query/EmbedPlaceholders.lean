import RubyPg.Query.EmbedParams

/-!
# What `embed_params` replaces

`PLACEHOLDER_RE` stands in for PostgreSQL's lexer. It reads most lexemes as the lexer does
(`embedInto_lexeme`), but not all: it knows of no escapes in a constant, no nested comments, no
`$` in an identifier and no tag with other letters than ASCII ones, it takes a parameter with any
number and none with a leading zero, and a line comment does not end at a carriage return
(`SeenAlike`). As long as it goes wrong only where no parameter is left in the text, the
parameters are put in the place of their lexemes and nothing else changes
(`embedInto_lexemes`).
-/

namespace RubyPg.Query
set_option autoImplicit false
open Ascii Sql Regex

section Matches

variable {c : UInt8} {text body rest : Bytes} {captures : Captures UInt8} {mark : UInt8}

/-- A word does not match where another byte stands. -/
theorem first_lead_none {w : Bytes} {r : Regex UInt8} {x : UInt8} (differs : c ≠ x) :
    (seq (word (x :: w)) r).first captures (c :: text) = none := by
  apply first_seq_of_none
  apply first_word_none
  rw [List.cons_prefix_cons]
  exact fun begins => differs begins.1.symm

/-- Nor does a word of two bytes where its second one does not stand. -/
theorem first_lead_second_none {r : Regex UInt8} {x y : UInt8} (differs : text.head? ≠ some y) :
    (seq (word [x, y]) r).first captures (c :: text) = none := by
  apply first_seq_of_none
  apply first_word_none
  cases text with
  | nil => simp
  | cons d text =>
    rw [List.cons_prefix_cons, List.cons_prefix_cons]
    exact fun begins => differs (by rw [begins.2.1]; rfl)

/-- Two quotes, or one byte that is none. -/
abbrev quotedCharRe (mark : UInt8) : Regex UInt8 := alt (word [mark, mark]) (set (· != mark))

/-- At a quote that is not doubled the repetition ends. -/
theorem first_quotedCharRe_none (single : text.head? ≠ some mark) :
    (quotedCharRe mark).first captures (mark :: text) = none := by
  have noPair : (word [mark, mark]).first captures (mark :: text) = none := by
    apply first_word_none
    cases text with
    | nil => simp
    | cons d text =>
      rw [List.cons_prefix_cons, List.cons_prefix_cons]
      exact fun begins => single (by rw [begins.2.1]; rfl)
  rw [first_alt_right noPair]
  exact first_set_none fun c mem => by cases mem; simp

theorem first_quotedCharRe (other : c ≠ mark) :
    (quotedCharRe mark).first captures (c :: text) = some ⟨[c], text, captures⟩ := by
  have noPair : (word [mark, mark]).first captures (c :: text) = none := by
    apply first_word_none
    rw [List.cons_prefix_cons]
    exact fun begins => other begins.1.symm
  rw [first_alt_right noPair]
  exact first_set (by simpa using other)

/-- The repetition takes the body of a quoted token. -/
theorem first_star_quotedCharRe (read : quotedBody mark false text = some (body, rest)) :
    (Regex.star (quotedCharRe mark)).first captures text = some ⟨body, mark :: rest, captures⟩ := by
  fun_induction quotedBody mark false text generalizing body rest with
  | case1 => cases read
  | case2 =>
    cases read
    exact first_star_nil (first_quotedCharRe_none (by simp))
  | case3 => cases read
  | case4 text ih =>
    obtain ⟨behind, read', rfl⟩ := of_map_append [mark, mark] read
    have pair : (quotedCharRe mark).first captures (mark :: mark :: text) = some ⟨[mark, mark], text, captures⟩ :=
      first_alt_left (first_word [mark, mark])
    rw [first_star_cons pair (by simp), ih read']
    rfl
  | case5 d text single =>
    cases read
    exact first_star_nil (first_quotedCharRe_none (by simpa using single))
  | case6 c d text _ escaped => exact absurd escaped.1 (by decide)
  | case7 c d text other _ ih =>
    obtain ⟨behind, read', rfl⟩ := of_map_append [c] read
    rw [first_star_cons (first_quotedCharRe other) (by simp), ih read']
    rfl

/-- The body of a quoted token is taken up to its closing quote. -/
theorem first_quotedRe (read : quotedBody mark false text = some (body, rest)) :
    (quotedRe mark).first captures (mark :: text) = some ⟨mark :: body ++ [mark], rest, captures⟩ := by
  have closed : (seq (Regex.star (quotedCharRe mark)) (word [mark])).first captures text =
      some ⟨body ++ [mark], rest, captures⟩ := first_seq (first_star_quotedCharRe read) (first_word [mark])
  exact first_seq (first_word [mark]) closed

theorem first_lineCommentRe : lineCommentRe.first captures (minus :: minus :: text) =
    some ⟨minus :: minus :: text.takeWhile (· != newline), text.dropWhile (· != newline), captures⟩ :=
  first_seq (first_word [minus, minus]) first_star_set

theorem first_blockCommentRe (cut : cutAt [asterisk, slash] text = some (body, rest)) :
    blockCommentRe.first captures (slash :: asterisk :: text) =
      some ⟨slash :: asterisk :: body ++ [asterisk, slash], rest, captures⟩ :=
  first_seq (first_word [slash, asterisk]) (first_lazy_cut (fun _ => rfl) cut)

theorem first_dollarQuotedRe (cut : cutAt [dollar, dollar] text = some (body, rest)) :
    dollarQuotedRe.first captures (dollar :: dollar :: text) =
      some ⟨dollar :: dollar :: body ++ [dollar, dollar], rest, captures⟩ :=
  first_seq (first_word [dollar, dollar]) (first_lazy_cut (fun _ => rfl) cut)

/-- A tag, up to the `$` behind it. -/
theorem first_tag {tag : Bytes} (start : ∀ c ∈ tag.head?, tagStart c = true) (cont : ∀ c ∈ tag, tagCont c = true)
    (nonempty : tag ≠ []) :
    (group "__dq_tag" (seq (set tagStart) (Regex.star (set tagCont)))).first captures (tag ++ dollar :: text) =
      some ⟨tag, dollar :: text, ("__dq_tag", tag) :: captures⟩ := by
  obtain ⟨c, tag, rfl⟩ := List.exists_cons_of_ne_nil nonempty
  have behind : ∀ d ∈ tag, tagCont d = true := fun d mem => cont d (List.mem_cons_of_mem _ mem)
  have run : (Regex.star (set tagCont)).first captures (tag ++ dollar :: text) = some ⟨tag, dollar :: text, captures⟩ := by
    have ends : ¬tagCont dollar = true := by decide
    rw [first_star_set, List.takeWhile_append_of_pos behind, List.dropWhile_append_of_pos behind,
      List.takeWhile_cons_of_neg ends, List.dropWhile_cons_of_neg ends, List.append_nil]
  have letter : (set tagStart).first captures (c :: (tag ++ dollar :: text)) = some ⟨[c], tag ++ dollar :: text, captures⟩ :=
    first_set (start c rfl)
  exact first_group (first_seq letter run)

/-- The closing delimiter is the tag between two `$`. -/
theorem first_delimiterRe {tag : Bytes} (captured : captures.lookup "__dq_tag" = some tag) :
    (seq (word [dollar]) (seq (backref "__dq_tag") (word [dollar]))).first captures text =
      (word (dollar :: tag ++ [dollar])).first captures text := by
  have behind : ∀ t, (seq (backref "__dq_tag") (word [dollar])).first captures t =
      (word (tag ++ [dollar])).first captures t := by
    intro t
    rw [first_backref_seq captured, first_word_word]
  rw [first_word_seq_congr behind, first_word_word]
  rfl

theorem first_namedQuotedRe {tag : Bytes} (start : ∀ c ∈ tag.head?, tagStart c = true) (cont : ∀ c ∈ tag, tagCont c = true)
    (nonempty : tag ≠ []) (closed : dollarBody tag text = some (body, rest)) :
    namedQuotedRe.first captures (dollar :: (tag ++ dollar :: text)) =
      some ⟨dollar :: (tag ++ dollar :: (body ++ (dollar :: tag ++ [dollar]))), rest, ("__dq_tag", tag) :: captures⟩ := by
  have delimited : (seq (lazyStar anyChar) (seq (word [dollar]) (seq (backref "__dq_tag") (word [dollar])))).first
      (("__dq_tag", tag) :: captures) text = some ⟨body ++ (dollar :: tag ++ [dollar]), rest, ("__dq_tag", tag) :: captures⟩ :=
    first_lazy_cut (fun _ => first_delimiterRe (by simp)) closed
  exact first_seq (first_word [dollar]) (first_seq (first_tag start cont nonempty)
    (first_seq (first_word [dollar]) delimited))

/-- A parameter with digits that do not begin with zero. -/
theorem first_paramRe {digits : Bytes} (nonempty : digits ≠ []) (digit : ∀ c ∈ digits, isDigit c = true)
    (notZero : digits.head? ≠ some zero) (ends : ∀ c ∈ text.head?, isDigit c = false) :
    paramRe.first captures (dollar :: digits ++ text) =
      some ⟨dollar :: digits, text, ("placeholder", dollar :: digits) :: captures⟩ := by
  obtain ⟨d, digits, rfl⟩ := List.exists_cons_of_ne_nil nonempty
  have behind : ∀ c ∈ digits, isDigit c = true := fun c mem => digit c (List.mem_cons_of_mem _ mem)
  have run : (Regex.star (set isDigit)).first captures (digits ++ text) = some ⟨digits, text, captures⟩ := by
    have stop : text.takeWhile isDigit = [] ∧ text.dropWhile isDigit = text := by
      cases text with
      | nil => exact ⟨rfl, rfl⟩
      | cons c text =>
        have other : ¬isDigit c = true := by simp [ends c rfl]
        exact ⟨List.takeWhile_cons_of_neg other, List.dropWhile_cons_of_neg other⟩
    rw [first_star_set, List.takeWhile_append_of_pos behind, List.dropWhile_append_of_pos behind, stop.1, stop.2,
      List.append_nil]
  have one : (set fun c => isDigit c && c != zero).first captures (d :: (digits ++ text)) =
      some ⟨[d], digits ++ text, captures⟩ := by
    apply first_set
    rw [digit d List.mem_cons_self, Bool.true_and, bne_iff_ne]
    exact fun isZero => notZero (by rw [isZero]; rfl)
  exact first_group (first_seq (first_word [dollar]) (first_seq one run))

/-- A `$` with nothing behind it that it could begin. -/
theorem first_paramRe_none (none : ∀ c ∈ text.head?, isDigit c = false ∨ c = zero) :
    paramRe.first captures (dollar :: text) = Option.none := by
  have digit : (seq (set fun c => isDigit c && c != zero) (Regex.star (set isDigit))).first captures text = Option.none := by
    apply first_seq_of_none
    apply first_set_none
    intro c mem
    rcases none c mem with other | isZero
    · rw [other, Bool.false_and]
    · rw [isZero]
      rfl
  apply first_group_none
  refine (first_word_seq [dollar]).trans ?_
  rw [digit]
  rfl

/-- Behind a tag that the lexer does not see, no match of the tag is followed by a `$`. -/
theorem rest_of_tag {f : Found UInt8} (untagged : dollarTag text = none)
    (mem : f ∈ (group "__dq_tag" (seq (set tagStart) (Regex.star (set tagCont)))).run captures text) :
    f.rest.head? ≠ some dollar := by
  obtain ⟨g, hg, rfl⟩ := List.mem_map.1 mem
  cases text with
  | nil => cases hg
  | cons c text =>
    rw [run, andThen, run] at hg
    split at hg
    · rename_i letter
      rw [tagStart, Bool.and_eq_true] at letter
      rw [List.flatMap_singleton] at hg
      obtain ⟨h, hh, rfl⟩ := List.mem_map.1 hg
      show h.rest.head? ≠ some dollar
      intro isDollar
      rcases rest_of_mem_star_set hh with behind | ⟨d, here, cont⟩
      · -- the whole run is the tag, which the lexer would see
        obtain ⟨u, hu⟩ := List.head?_eq_some_iff.1 isDollar
        have split : c :: text = (c :: text.takeWhile tagCont) ++ dollar :: u := by
          rw [List.cons_append, ← hu, behind, List.takeWhile_append_dropWhile]
        have conts : ∀ d ∈ c :: text.takeWhile tagCont, dolqCont d = true := by
          intro d hd
          rcases List.mem_cons.1 hd with rfl | hd
          · rw [dolqCont, letter.1, Bool.true_or]
          · have := List.mem_takeWhile_imp hd
            rw [tagCont, Bool.and_eq_true] at this
            exact this.1
        have starts : ∀ d ∈ (c :: text.takeWhile tagCont).head?, identStart d = true := by
          intro d hd
          cases hd
          exact letter.1
        rw [split, dollarTag_append conts starts] at untagged
        cases untagged
      · rw [isDollar] at here
        cases here
        revert cont
        decide
    · cases hg

theorem first_namedQuotedRe_none (untagged : dollarTag text = none) :
    namedQuotedRe.first captures (dollar :: text) = Option.none := by
  have behind : (seq (group "__dq_tag" (seq (set tagStart) (Regex.star (set tagCont)))) (seq (word [dollar])
      (seq (lazyStar anyChar) (seq (word [dollar]) (seq (backref "__dq_tag") (word [dollar])))))).first captures text =
      Option.none := by
    apply first_seq_none
    intro f hf
    have noDollar := rest_of_tag untagged hf
    cases rest : f.rest with
    | nil => exact first_seq_of_none (first_word_none (by simp))
    | cons d u =>
      apply first_lead_none
      rintro rfl
      rw [rest] at noDollar
      exact noDollar rfl
  unfold namedQuotedRe
  refine (first_word_seq [dollar]).trans ?_
  rw [behind]
  rfl

end Matches

section Placeholder

variable {c : UInt8} {text : Bytes}

theorem first_quotedRe_none {mark : UInt8} (differs : c ≠ mark) : (quotedRe mark).first [] (c :: text) = none :=
  first_lead_none differs

theorem first_lineCommentRe_none (line : c = minus → text.head? ≠ some minus) : lineCommentRe.first [] (c :: text) = none := by
  by_cases isMinus : c = minus
  · exact first_lead_second_none (line isMinus)
  · exact first_lead_none isMinus

theorem first_blockCommentRe_none (block : c = slash → text.head? ≠ some asterisk) :
    blockCommentRe.first [] (c :: text) = none := by
  by_cases isSlash : c = slash
  · exact first_lead_second_none (block isSlash)
  · exact first_lead_none isSlash

/-- The alternatives that begin with a `$`. -/
abbrev dollarRe : Regex UInt8 := alt dollarQuotedRe (alt namedQuotedRe paramRe)

theorem first_dollarRe_none (differs : c ≠ dollar) : dollarRe.first [] (c :: text) = none := by
  have quoted : dollarQuotedRe.first [] (c :: text) = none := first_lead_none differs
  have named : namedQuotedRe.first [] (c :: text) = none := first_lead_none differs
  rw [first_alt_right quoted, first_alt_right named]
  exact first_group_none (first_lead_none differs)

/-- Where `PLACEHOLDER_RE` does not match. -/
theorem first_placeholderRe_none (apostrophe : c ≠ quote) (name : c ≠ dquote) (line : c = minus → text.head? ≠ some minus)
    (block : c = slash → text.head? ≠ some asterisk) (none : c = dollar → dollarRe.first [] (c :: text) = none) :
    placeholderRe.first [] (c :: text) = Option.none := by
  rw [placeholderRe, first_alt_right (first_quotedRe_none apostrophe), first_alt_right (first_quotedRe_none name),
    first_alt_right (first_lineCommentRe_none line), first_alt_right (first_blockCommentRe_none block)]
  by_cases isDollar : c = dollar
  · exact none isDollar
  · exact first_dollarRe_none isDollar

/-- A byte that begins nothing. -/
def isPlain (c : UInt8) : Bool := c != quote && c != dquote && c != minus && c != slash && c != dollar

theorem first_plain (plain : isPlain c = true) : placeholderRe.first [] (c :: text) = none := by
  simp only [isPlain, Bool.and_eq_true, bne_iff_ne] at plain
  obtain ⟨⟨⟨⟨apostrophe, name⟩, isMinus⟩, isSlash⟩, isDollar⟩ := plain
  exact first_placeholderRe_none apostrophe name (fun h => absurd h isMinus) (fun h => absurd h isSlash)
    fun h => absurd h isDollar

/-- At a `$` it is one of three. -/
theorem first_dollar : placeholderRe.first [] (dollar :: text) = dollarRe.first [] (dollar :: text) := by
  rw [placeholderRe, first_alt_right (first_quotedRe_none (by decide)), first_alt_right (first_quotedRe_none (by decide)),
    first_alt_right (first_lineCommentRe_none fun h => absurd h (by decide)),
    first_alt_right (first_blockCommentRe_none fun h => absurd h (by decide))]

end Placeholder

/-- The bytes of lexemes that begin nothing. -/
theorem isPlain_of_isSpace {c : UInt8} (space : isSpace c = true) : isPlain c = true := by
  simp only [isSpace, Bool.or_eq_true, beq_iff_eq] at space
  rcases space with ((((rfl | rfl) | rfl) | rfl) | rfl) | rfl <;> decide

theorem isPlain_of_dolqCont {c : UInt8} (cont : dolqCont c = true) : isPlain c = true := by
  by_contra special
  simp only [isPlain, Bool.and_eq_true, bne_iff_ne, not_and_or, not_not] at special
  rcases special with (((rfl | rfl) | rfl) | rfl) | rfl <;> revert cont <;> decide

section Substitution

variable {params : List Bytes} {text rest : Bytes}

/-- `sql.gsub(PLACEHOLDER_RE)`. -/
abbrev embedInto (params : List Bytes) (sql : Bytes) : Bytes := placeholderRe.substitute (replacePlaceholder params) sql

/-- A stretch in which nothing matches is kept. -/
theorem embedInto_run {run : Bytes}
    (none : ∀ front c back, run = front ++ c :: back → placeholderRe.first [] (c :: (back ++ rest)) = none) :
    embedInto params (run ++ rest) = run ++ embedInto params rest := by
  induction run with
  | nil => rfl
  | cons c run ih =>
    have here : placeholderRe.first [] (c :: (run ++ rest)) = Option.none := none [] c run rfl
    have behind := ih fun front d back eq => none (c :: front) d back (by rw [eq]; rfl)
    rw [List.cons_append, embedInto, substitute_none here, ← embedInto, behind]
    rfl

theorem embedInto_plain {run : Bytes} (plain : ∀ c ∈ run, isPlain c = true) :
    embedInto params (run ++ rest) = run ++ embedInto params rest := by
  apply embedInto_run
  intro front c back eq
  exact first_plain (plain c (by rw [eq]; simp))

/-- A match that captures no placeholder is kept. -/
theorem embedInto_kept (params : List Bytes) {f : Found UInt8} (found : placeholderRe.first [] text = some f) (nonempty : f.taken ≠ [])
    (none : f.captures.lookup "placeholder" = none) : embedInto params text = f.taken ++ embedInto params f.rest := by
  rw [embedInto, substitute_found found nonempty, replacePlaceholder, none]

end Substitution

/-- The number of a parameter is in range. -/
abbrev InRange (count : Nat) (digits : Bytes) : Prop := 1 ≤ readDigits 0 digits ∧ readDigits 0 digits ≤ count

/-- None of the lexemes is a parameter in range. -/
def NoParams (count : Nat) (lexemes : List Lexeme) : Prop := ∀ digits, .param digits ∈ lexemes → ¬InRange count digits

/-- A lexeme, or what is rendered for it if it is a parameter in range. -/
def embedLexeme (params : List Bytes) : Lexeme → Bytes
  | .param digits =>
    if InRange params.length digits then params.getD (readDigits 0 digits - 1) [] else dollar :: digits
  | lexeme => lexeme.text

/-- `PLACEHOLDER_RE` sees no more and no less of a lexeme in front of `rest` than the lexer, for so many parameters. -/
def SeenAlike (count : Nat) : Lexeme → Bytes → Prop
  -- a carriage return does not end the comment, so there is nothing to see up to the line feed
  | .lineComment _, rest => ∀ c ∈ rest.takeWhile (· != newline), isPlain c = true
  | .blockComment body, rest => cutAt [asterisk, slash] (body ++ asterisk :: slash :: rest) = some (body, rest)
  -- the constant ends at the same apostrophe without escapes
  | .constant _ body, rest => quotedBody quote false (body ++ quote :: rest) = some (body, rest)
  | .dollarQuoted tag _, _ => ∀ c ∈ tag, c < 0x80
  | .identifier letters, rest => ∀ front back, letters = front ++ dollar :: back →
      placeholderRe.first [] (dollar :: (back ++ rest)) = none
  | .param digits, _ =>
    if digits.head? = some zero then ¬InRange count digits else readDigits 0 digits ≤ count
  | _, _ => True

section Lexemes

variable {params : List Bytes} {rest : Bytes}

theorem embedInto_lineComment {body : Bytes} (line : ∀ c ∈ body, isNewline c = false)
    (plain : ∀ c ∈ rest.takeWhile (· != newline), isPlain c = true) :
    embedInto params (minus :: minus :: body ++ rest) = minus :: minus :: body ++ embedInto params rest := by
  have inLine : ∀ c ∈ body, (c != newline) = true := by
    intro c mem
    have := line c mem
    rw [isNewline, Bool.or_eq_false_iff] at this
    rw [bne, this.1]
    rfl
  have found : placeholderRe.first [] (minus :: minus :: (body ++ rest)) =
      some ⟨minus :: minus :: (body ++ rest.takeWhile (· != newline)), rest.dropWhile (· != newline), []⟩ := by
    rw [placeholderRe, first_alt_right (first_quotedRe_none (by decide)), first_alt_right (first_quotedRe_none (by decide))]
    apply first_alt_left
    rw [first_lineCommentRe, List.takeWhile_append_of_pos inLine, List.dropWhile_append_of_pos inLine]
  have skipped : embedInto params (rest.takeWhile (· != newline) ++ rest.dropWhile (· != newline)) =
      rest.takeWhile (· != newline) ++ embedInto params (rest.dropWhile (· != newline)) := embedInto_plain plain
  rw [List.takeWhile_append_dropWhile] at skipped
  rw [List.cons_append, List.cons_append, embedInto_kept params found (by simp) rfl, skipped]
  simp

theorem embedInto_blockComment {body : Bytes}
    (cut : cutAt [asterisk, slash] (body ++ asterisk :: slash :: rest) = some (body, rest)) :
    embedInto params (slash :: asterisk :: body ++ [asterisk, slash] ++ rest) =
      slash :: asterisk :: body ++ [asterisk, slash] ++ embedInto params rest := by
  have found : placeholderRe.first [] (slash :: asterisk :: (body ++ asterisk :: slash :: rest)) =
      some ⟨slash :: asterisk :: body ++ [asterisk, slash], rest, []⟩ := by
    rw [placeholderRe, first_alt_right (first_quotedRe_none (by decide)), first_alt_right (first_quotedRe_none (by decide)),
      first_alt_right (first_lineCommentRe_none fun h => absurd h (by decide))]
    exact first_alt_left (first_blockCommentRe cut)
  have kept := embedInto_kept params found (by simp) rfl
  simpa using kept

/-- A string literal or a quoted identifier. -/
theorem embedInto_quoted {mark : UInt8} {body : Bytes} (isMark : mark = quote ∨ mark = dquote)
    (read : quotedBody mark false (body ++ mark :: rest) = some (body, rest)) :
    embedInto params (mark :: body ++ [mark] ++ rest) = mark :: body ++ [mark] ++ embedInto params rest := by
  have found : placeholderRe.first [] (mark :: (body ++ mark :: rest)) = some ⟨mark :: body ++ [mark], rest, []⟩ := by
    rcases isMark with rfl | rfl
    · exact first_alt_left (first_quotedRe read)
    · rw [placeholderRe, first_alt_right (first_quotedRe_none (by decide))]
      exact first_alt_left (first_quotedRe read)
  have kept := embedInto_kept params found (by simp) rfl
  simpa using kept

theorem embedInto_dollarQuoted {tag body : Bytes} (cont : ∀ c ∈ tag, dolqCont c = true)
    (start : ∀ c ∈ tag.head?, identStart c = true) (ascii : ∀ c ∈ tag, c < 0x80)
    (closed : dollarBody tag (body ++ (dollar :: tag ++ [dollar] ++ rest)) = some (body, rest)) :
    embedInto params (dollar :: tag ++ dollar :: body ++ dollar :: tag ++ [dollar] ++ rest) =
      dollar :: tag ++ dollar :: body ++ dollar :: tag ++ [dollar] ++ embedInto params rest := by
  cases tag with
  | nil =>
    have found : placeholderRe.first [] (dollar :: dollar :: (body ++ (dollar :: [] ++ [dollar] ++ rest))) =
        some ⟨dollar :: dollar :: body ++ [dollar, dollar], rest, []⟩ := by
      rw [first_dollar]
      exact first_alt_left (first_dollarQuotedRe closed)
    have kept := embedInto_kept params found (by simp) rfl
    simpa using kept
  | cons c tag =>
    have tagStarts : ∀ d ∈ (c :: tag).head?, tagStart d = true := by
      intro d mem
      cases mem
      rw [tagStart, start c rfl, decide_eq_true (ascii c List.mem_cons_self)]
      rfl
    have tagConts : ∀ d ∈ c :: tag, tagCont d = true := by
      intro d mem
      rw [tagCont, cont d mem, decide_eq_true (ascii d mem)]
      rfl
    have letter : c ≠ dollar := by
      rintro rfl
      have := start dollar rfl
      revert this
      decide
    have found : placeholderRe.first [] (dollar :: (c :: tag ++ dollar :: (body ++ (dollar :: (c :: tag) ++ [dollar] ++ rest)))) =
        some ⟨dollar :: (c :: tag ++ dollar :: (body ++ (dollar :: (c :: tag) ++ [dollar]))), rest, [("__dq_tag", c :: tag)]⟩ := by
      have untagged : dollarQuotedRe.first [] (dollar :: (c :: tag ++ dollar :: (body ++ (dollar :: (c :: tag) ++ [dollar] ++ rest)))) =
          none := first_lead_second_none (by simpa using letter)
      rw [first_dollar, first_alt_right untagged]
      exact first_alt_left (first_namedQuotedRe tagStarts tagConts (by simp) closed)
    have kept := embedInto_kept params found (by simp) rfl
    simpa using kept

theorem embedInto_identifier {letters : Bytes} (cont : ∀ c ∈ letters, identCont c = true)
    (none : ∀ front back, letters = front ++ dollar :: back → placeholderRe.first [] (dollar :: (back ++ rest)) = none) :
    embedInto params (letters ++ rest) = letters ++ embedInto params rest := by
  apply embedInto_run
  intro front c back split
  by_cases isDollar : c = dollar
  · subst isDollar
    exact none front back split
  · have letter := cont c (by rw [split]; simp)
    rw [identCont, Bool.or_eq_true, beq_iff_eq] at letter
    exact first_plain (isPlain_of_dolqCont (letter.resolve_right isDollar))

/-- No tag begins with a digit. -/
theorem dollarTag_digit {c : UInt8} {text : Bytes} (digit : isDigit c = true) : dollarTag (c :: text) = none := by
  have noLetter : identStart c = false := by
    simp only [isDigit, Bool.and_eq_true, decide_eq_true_eq, UInt8.le_iff_toNat_le] at digit
    simp only [identStart, Bool.or_eq_false_iff, Bool.and_eq_false_iff, decide_eq_false_iff_not, UInt8.le_iff_toNat_le,
      beq_eq_false_iff_ne, ne_eq, ← UInt8.toNat_inj]
    have nine : (0x39 : UInt8).toNat = 0x39 := rfl
    have upper : (0x41 : UInt8).toNat = 0x41 := rfl
    have under : underscore.toNat = 0x5f := rfl
    have lower : (0x61 : UInt8).toNat = 0x61 := rfl
    have high : (0x80 : UInt8).toNat = 0x80 := rfl
    omega
  have cont : dolqCont c = true := by rw [dolqCont, digit, Bool.or_true]
  unfold dollarTag
  rw [List.takeWhile_cons_of_pos cont]
  dsimp only
  split
  · rw [if_neg]
    intro delimits
    have := delimits.2
    rw [List.head?_cons, Option.all_some, noLetter] at this
    cases this
  · rfl

/-- At a parameter without a leading zero it is the placeholder. -/
theorem first_param {digits : Bytes} (nonempty : digits ≠ []) (digit : ∀ c ∈ digits, isDigit c = true)
    (notZero : digits.head? ≠ some zero) (ends : ∀ c ∈ rest.head?, isDigit c = false) :
    placeholderRe.first [] (dollar :: digits ++ rest) =
      some ⟨dollar :: digits, rest, [("placeholder", dollar :: digits)]⟩ := by
  obtain ⟨d, digits', rfl⟩ := List.exists_cons_of_ne_nil nonempty
  have differs : d ≠ dollar := by
    rintro rfl
    have := digit dollar List.mem_cons_self
    revert this
    decide
  have quoted : dollarQuotedRe.first [] (dollar :: (d :: digits' ++ rest)) = none :=
    first_lead_second_none (by simpa using differs)
  have named : namedQuotedRe.first [] (dollar :: (d :: digits' ++ rest)) = none :=
    first_namedQuotedRe_none (dollarTag_digit (digit d List.mem_cons_self))
  rw [List.cons_append, first_dollar, first_alt_right quoted, first_alt_right named]
  exact first_paramRe nonempty digit notZero ends

theorem embedInto_param (params : List Bytes) {digits : Bytes} (nonempty : digits ≠ []) (digit : ∀ c ∈ digits, isDigit c = true)
    (notZero : digits.head? ≠ some zero) (ends : ∀ c ∈ rest.head?, isDigit c = false) :
    embedInto params (dollar :: digits ++ rest) = params.getD (readDigits 0 digits - 1) [] ++ embedInto params rest := by
  rw [embedInto, substitute_found (first_param nonempty digit notZero ends) (by simp)]
  rfl

/-- A `$` that begins nothing. -/
theorem first_dollarRe_symbol {text : Bytes} (none : ∀ c ∈ text.head?, isDigit c = false ∨ c = zero) (untagged : dollarTag text = .none) :
    dollarRe.first [] (dollar :: text) = .none := by
  have quoted : dollarQuotedRe.first [] (dollar :: text) = .none := by
    apply first_lead_second_none
    intro again
    obtain ⟨text, rfl⟩ := List.head?_eq_some_iff.1 again
    have empty : dollarTag ([] ++ dollar :: text) = some ([], text) := dollarTag_append (by simp) (by simp)
    rw [List.nil_append, untagged] at empty
    cases empty
  rw [first_alt_right quoted, first_alt_right (first_namedQuotedRe_none untagged)]
  exact first_paramRe_none none

/-- A parameter with a leading zero is not seen. -/
theorem embedInto_leadingZero {digits : Bytes} (digit : ∀ c ∈ digits, isDigit c = true) (leading : digits.head? = some zero) :
    embedInto params (dollar :: digits ++ rest) = dollar :: digits ++ embedInto params rest := by
  obtain ⟨behind, rfl⟩ := List.head?_eq_some_iff.1 leading
  apply embedInto_run
  intro front c back split
  cases front with
  | nil =>
    cases split
    rw [first_dollar]
    exact first_dollarRe_symbol (fun c mem => by cases mem; exact .inr rfl) (dollarTag_digit rfl)
  | cons d front =>
    have mem : c ∈ zero :: behind := by
      rw [(List.cons.inj split).2]
      simp
    apply first_plain
    apply isPlain_of_dolqCont
    rw [dolqCont, digit c mem, Bool.or_true]

theorem readDigits_pos {digits : Bytes} (nonempty : digits ≠ []) (digit : ∀ c ∈ digits, isDigit c = true)
    (notZero : digits.head? ≠ some zero) : 0 < readDigits 0 digits := by
  obtain ⟨d, digits, rfl⟩ := List.exists_cons_of_ne_nil nonempty
  have other : d ≠ zero := by
    rintro rfl
    exact notZero rfl
  have low := digit d List.mem_cons_self
  simp only [isDigit, Bool.and_eq_true, decide_eq_true_eq, UInt8.le_iff_toNat_le] at low
  rw [Ne, ← UInt8.toNat_inj] at other
  have thirty : (0x30 : UInt8).toNat = 0x30 := rfl
  have zeroNat : zero.toNat = 0x30 := rfl
  have power := Nat.one_le_pow digits.length 10 (by decide)
  rw [readDigits_cons, readDigits_shift]
  have first : 1 ≤ 0 * 10 + (d.toNat - 48) := by omega
  have := Nat.mul_le_mul first power
  omega

/-- A lexeme that is seen alike is kept, or replaced if it is a parameter. -/
theorem embedInto_lexeme {lexeme : Lexeme} (readable : lexeme.Readable rest) (alike : SeenAlike params.length lexeme rest) :
    embedInto params (lexeme.text ++ rest) = embedLexeme params lexeme ++ embedInto params rest := by
  cases lexeme with
  | blank c =>
    apply embedInto_plain
    intro d mem
    cases List.mem_singleton.1 mem
    exact isPlain_of_isSpace readable
  | lineComment body => exact embedInto_lineComment readable.1 alike
  | blockComment body => exact embedInto_blockComment alike
  | constant escapes body => exact embedInto_quoted (.inl rfl) alike
  | quotedName body => exact embedInto_quoted (.inr rfl) readable
  | dollarQuoted tag body => exact embedInto_dollarQuoted readable.1 readable.2.1 alike readable.2.2
  | identifier letters => exact embedInto_identifier readable alike
  | number digits => exact embedInto_plain fun c mem => isPlain_of_dolqCont (readable c mem)
  | param digits =>
    obtain ⟨nonempty, digit, ends⟩ := readable
    simp only [SeenAlike] at alike
    simp only [embedLexeme]
    by_cases leading : digits.head? = some zero
    · rw [if_pos leading] at alike
      rw [if_neg alike]
      exact embedInto_leadingZero digit leading
    · rw [if_neg leading] at alike
      rw [if_pos ⟨readDigits_pos nonempty digit leading, alike⟩]
      exact embedInto_param params nonempty digit leading ends
  | symbol c =>
    obtain ⟨apostrophe, name, line, block, isDollar⟩ := readable
    show embedInto params ([c] ++ rest) = [c] ++ embedInto params rest
    apply embedInto_run
    intro front d back split
    obtain ⟨rfl, rfl, rfl⟩ : front = [] ∧ c = d ∧ back = [] := by
      cases front with
      | nil => simpa using split
      | cons e front => simp at split
    apply first_placeholderRe_none apostrophe name line block
    rintro rfl
    obtain ⟨noDigit, untagged⟩ := isDollar rfl
    exact first_dollarRe_symbol (fun c mem => .inl (noDigit c mem)) untagged

end Lexemes

/-- A `$` with a digit behind it that is not zero. -/
def mentionsParam : Bytes → Bool
  | c :: d :: text => (c == dollar && (isDigit d && d != zero)) || mentionsParam (d :: text)
  | _ => false

/-- There is nothing that could be taken for a parameter, and no `$0n` that is one. -/
def Quiet (count : Nat) (lexemes : List Lexeme) : Prop :=
  mentionsParam (textOf lexemes) = false ∧ NoParams count lexemes

/-- The lexemes are seen alike, up to where no parameter is left. -/
def Aligned (count : Nat) : List Lexeme → Prop
  | [] => True
  | lexeme :: lexemes => SeenAlike count lexeme (textOf lexemes) ∧ Aligned count lexemes ∨ Quiet count (lexeme :: lexemes)

section Text

variable {params : List Bytes}

theorem mentionsParam_behind {front : Bytes} {c d : UInt8} {back : Bytes} (isDollar : c = dollar) (digit : isDigit d = true)
    (notZero : d ≠ zero) : mentionsParam (front ++ c :: d :: back) = true := by
  induction front with
  | nil => simp [mentionsParam, isDollar, digit, notZero]
  | cons e front ih =>
    cases front with
    | nil =>
      rw [List.nil_append] at ih
      rw [List.cons_append, List.nil_append, mentionsParam, ih, Bool.or_true]
    | cons e' front =>
      rw [List.cons_append] at ih
      rw [List.cons_append, List.cons_append, mentionsParam, ih, Bool.or_true]

/-- A match captures a placeholder only at a `$` with a digit behind it that is not zero. -/
theorem placeholder_of_found {text : Bytes} {f : Found UInt8} (found : placeholderRe.first [] text = some f)
    (captured : f.captures.lookup "placeholder" ≠ none) :
    ∃ d back, text = dollar :: d :: back ∧ isDigit d = true ∧ d ≠ zero := by
  have outside : ∀ r : Regex UInt8, "placeholder" ∉ r.names → f ∉ r.run [] text :=
    fun r foreign mem => captured (lookup_run foreign [] text f mem)
  have mem : f ∈ placeholderRe.run [] text := List.mem_of_mem_head? found
  rw [placeholderRe] at mem
  simp only [run_alt, List.mem_append] at mem
  rcases mem with mem | mem | mem | mem | mem | mem | mem
  · exact absurd mem (outside _ (by decide))
  · exact absurd mem (outside _ (by decide))
  · exact absurd mem (outside _ (by decide))
  · exact absurd mem (outside _ (by decide))
  · exact absurd mem (outside _ (by decide))
  · exact absurd mem (outside _ (by decide))
  · by_contra noParam
    have none : paramRe.first [] text = none := by
      cases text with
      | nil => exact first_group_none (first_seq_of_none (first_word_none (by simp)))
      | cons c text =>
        by_cases isDollar : c = dollar
        · subst isDollar
          apply first_paramRe_none
          intro d here
          obtain ⟨back, rfl⟩ := List.head?_eq_some_iff.1 here
          by_contra digit
          rw [not_or, Bool.not_eq_false] at digit
          exact noParam ⟨d, back, rfl, digit⟩
        · exact first_group_none (first_lead_none isDollar)
    rw [first_eq_none.1 none] at mem
    cases mem

/-- Without such a `$` nothing is replaced. -/
theorem embedInto_quiet {text : Bytes} (quiet : mentionsParam text = false) : embedInto params text = text := by
  apply substitute_kept
  intro front back split f found
  have kept : f.captures.lookup "placeholder" = none := by
    by_contra captured
    obtain ⟨d, back, rfl, digit, notZero⟩ := placeholder_of_found found captured
    rw [split, mentionsParam_behind rfl digit notZero] at quiet
    cases quiet
  rw [replacePlaceholder, kept]

theorem embedLexemes_noParams {lexemes : List Lexeme} (others : NoParams params.length lexemes) :
    lexemes.flatMap (embedLexeme params) = textOf lexemes := by
  apply List.flatMap_congr
  intro lexeme mem
  cases lexeme with
  | param digits =>
    simp only [embedLexeme]
    rw [if_neg (others digits mem)]
    rfl
  | _ => rfl

/-- The parameters are put in the place of their lexemes. -/
theorem embedInto_lexemes {lexemes : List Lexeme} (readables : Readables lexemes) (aligned : Aligned params.length lexemes) :
    embedInto params (textOf lexemes) = lexemes.flatMap (embedLexeme params) := by
  induction lexemes with
  | nil => exact substitute_nil rfl
  | cons lexeme lexemes ih =>
    rcases aligned with ⟨alike, aligned⟩ | ⟨quiet, others⟩
    · have here := embedInto_lexeme readables.1 alike
      rw [ih readables.2 aligned] at here
      exact here
    · rw [embedInto_quiet quiet, embedLexemes_noParams others]

end Text

end RubyPg.Query
