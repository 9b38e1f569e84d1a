import RubyPg.Query.EmbedPlaceholders

/-!
# When `embed_params` replaces the parameters and nothing else

The text between two parameters has to be skipped: `PLACEHOLDER_RE` matches in it only what it
keeps, and no match goes on behind it (`Skips`). This is not only enough but also necessary
(`embed_params_iff`): wherever the expression goes wrong first, another byte comes out. What it
deletes, a `$n` without a parameter, never comes back out of what stands behind it
(`embedInto_head`, `embedInto_second`).
-/

namespace RubyPg.Query
set_option autoImplicit false
open Ascii Sql Regex

/-- In front of `rest`, a text is read in pieces that are kept. -/
inductive Skips (rest : Bytes) : Bytes → Prop where
  | nil : Skips rest []
  | char {c : UInt8} {text : Bytes} (none : placeholderRe.first [] (c :: (text ++ rest)) = none) (behind : Skips rest text) :
      Skips rest (c :: text)
  | matched {taken back : Bytes} {captures : Captures UInt8}
      (found : placeholderRe.first [] (taken ++ (back ++ rest)) = some ⟨taken, back ++ rest, captures⟩)
      (kept : captures.lookup "placeholder" = none) (behind : Skips rest back) : Skips rest (taken ++ back)

/-- What stands between the parameters in range is skipped, and they have no leading zeros. -/
inductive Agrees (count : Nat) : List Lexeme → Prop where
  | last {lexemes : List Lexeme} (others : NoParams count lexemes) (skips : Skips [] (textOf lexemes)) : Agrees count lexemes
  | param {front behind : List Lexeme} {digits : Bytes} (others : NoParams count front)
      (skips : Skips (dollar :: digits ++ textOf behind) (textOf front)) (inRange : InRange count digits)
      (notZero : digits.head? ≠ some zero) (agrees : Agrees count behind) : Agrees count (front ++ .param digits :: behind)

/-- A digit that is not zero. -/
def leadsNumber (c : UInt8) : Bool := isDigit c && c != zero

section Reading

variable {params : List Bytes}

/-- What `PLACEHOLDER_RE` does at a place: a placeholder, nothing, or a match that is kept. -/
inductive Reading (params : List Bytes) (text : Bytes) : Prop where
  | param (digits rest : Bytes) (split : text = dollar :: digits ++ rest) (notZero : ∃ d ds, digits = d :: ds ∧ leadsNumber d = true)
      (ends : ∀ c ∈ rest.head?, isDigit c = false)
      (out : embedInto params text = params.getD (readDigits 0 digits - 1) [] ++ embedInto params rest)
  | char (c : UInt8) (rest : Bytes) (split : text = c :: rest) (none : placeholderRe.first [] text = none)
      (other : c = dollar → ∀ d ∈ rest.head?, leadsNumber d = false) (out : embedInto params text = c :: embedInto params rest)
  | matched (c d : UInt8) (taken rest : Bytes) (captures : Captures UInt8) (split : text = c :: d :: taken ++ rest)
      (found : placeholderRe.first [] text = some ⟨c :: d :: taken, rest, captures⟩)
      (kept : captures.lookup "placeholder" = none) (other : c = dollar → leadsNumber d = false)
      (out : embedInto params text = c :: d :: taken ++ embedInto params rest)

/-- A `$` with such a digit behind it begins a placeholder. -/
theorem reading_of_leadsNumber {d : UInt8} {text : Bytes} (number : leadsNumber d = true) :
    Reading params (dollar :: d :: text) := by
  rw [leadsNumber, Bool.and_eq_true, bne_iff_ne] at number
  have split : dollar :: d :: text = dollar :: (d :: text).takeWhile isDigit ++ (d :: text).dropWhile isDigit := by
    rw [List.cons_append, List.takeWhile_append_dropWhile]
  have digits : (d :: text).takeWhile isDigit = d :: text.takeWhile isDigit := List.takeWhile_cons_of_pos number.1
  have digit : ∀ c ∈ (d :: text).takeWhile isDigit, isDigit c = true := fun c mem => List.mem_takeWhile_imp mem
  have ends : ∀ c ∈ ((d :: text).dropWhile isDigit).head?, isDigit c = false := fun c mem => stops mem
  have notZero : ((d :: text).takeWhile isDigit).head? ≠ some zero := by
    rw [digits, List.head?_cons, Ne, Option.some_inj]
    exact number.2
  have out := embedInto_param params (by rw [digits]; simp) digit notZero ends
  rw [← split] at out
  refine .param _ _ split ⟨d, _, digits, ?_⟩ ends out
  rw [leadsNumber, number.1, bne_iff_ne.2 number.2]
  rfl

theorem reading (params : List Bytes) {text : Bytes} (nonempty : text ≠ []) : Reading params text := by
  by_cases number : ∃ d back, text = dollar :: d :: back ∧ leadsNumber d = true
  · obtain ⟨d, back, rfl, number⟩ := number
    exact reading_of_leadsNumber number
  · cases found : placeholderRe.first [] text with
    | none =>
      obtain ⟨c, rest, rfl⟩ := List.exists_cons_of_ne_nil nonempty
      refine .char c rest rfl found ?_ (substitute_none found)
      intro isDollar d mem
      obtain ⟨back, rfl⟩ := List.head?_eq_some_iff.1 mem
      by_contra leads
      rw [Bool.not_eq_false] at leads
      exact number ⟨d, back, by rw [isDollar], leads⟩
    | some f =>
      have split := splits_first found
      have wide : 2 ≤ f.taken.length := width_le (r := placeholderRe) (List.mem_of_mem_head? found)
      have kept : f.captures.lookup "placeholder" = none := by
        by_contra captured
        obtain ⟨d, back, rfl, digit, notZero⟩ := placeholder_of_found found captured
        refine number ⟨d, back, rfl, ?_⟩
        rw [leadsNumber, digit, bne_iff_ne.2 notZero]
        rfl
      obtain ⟨taken, rest, captures⟩ := f
      obtain _ | ⟨c, _ | ⟨d, taken⟩⟩ := taken
      · cases wide
      · exact absurd wide (by simp)
      · refine .matched c d taken rest captures split.symm found kept ?_ (embedInto_kept params found (by simp) kept)
        intro isDollar
        by_contra leads
        rw [Bool.not_eq_false] at leads
        exact number ⟨d, taken ++ rest, by rw [← split, isDollar]; rfl, leads⟩

/-- A text that begins like no number and with no `$`, as what is rendered does. -/
def Opening (text : Bytes) : Prop := ∃ c back, text = c :: back ∧ c ≠ dollar ∧ isDigit c = false

/-- A parameter gives an opening, or nothing. -/
theorem opening_or_nothing (openings : ∀ text ∈ params, Opening text) (n : Nat) :
    Opening (params.getD n []) ∨ params.getD n [] = [] := by
  rw [List.getD_eq_getElem?_getD]
  cases found : params[n]? with
  | none => exact .inr rfl
  | some text => exact .inl (openings text (List.mem_of_getElem? found))

/-- A number comes out in front only if one stands there. -/
theorem embedInto_head (openings : ∀ text ∈ params, Opening text) {text : Bytes} (noNumber : ∀ c ∈ text.head?, leadsNumber c = false) :
    ∀ c ∈ (embedInto params text).head?, leadsNumber c = false := by
  induction length : text.length using Nat.strong_induction_on generalizing text with
  | _ n ih =>
    by_cases empty : text = []
    · rw [empty, embedInto, substitute_nil rfl]
      simp
    cases reading params empty with
    | param digits rest split _ ends out =>
      rw [out]
      rcases opening_or_nothing openings (readDigits 0 digits - 1) with ⟨c, back, rendered, -, other⟩ | nothing
      · rw [rendered]
        intro d mem
        cases mem
        rw [leadsNumber, other, Bool.false_and]
      · rw [nothing, List.nil_append]
        have shorter : rest.length < n := by
          rw [← length, split, List.length_append, List.length_cons]
          omega
        apply ih rest.length shorter _ rfl
        intro c mem
        rw [leadsNumber, ends c mem, Bool.false_and]
    | char c rest split _ _ out =>
      rw [out]
      rw [split] at noNumber
      exact noNumber
    | matched c d taken rest _ split _ _ _ out =>
      rw [out]
      rw [split] at noNumber
      exact noNumber

/-- A `$` with a number behind it never comes out in front. -/
theorem embedInto_second (openings : ∀ text ∈ params, Opening text) {text : Bytes} {d : UInt8} {back : Bytes}
    (out : embedInto params text = dollar :: d :: back) : leadsNumber d = false := by
  induction length : text.length using Nat.strong_induction_on generalizing text with
  | _ n ih =>
    by_cases empty : text = []
    · rw [empty, embedInto, substitute_nil rfl] at out
      cases out
    cases reading params empty with
    | param digits rest split _ ends replaced =>
      rw [replaced] at out
      rcases opening_or_nothing openings (readDigits 0 digits - 1) with ⟨c, tail, rendered, other, -⟩ | nothing
      · rw [rendered] at out
        exact absurd (List.cons.inj out).1 other
      · rw [nothing, List.nil_append] at out
        have shorter : rest.length < n := by
          rw [← length, split, List.length_append, List.length_cons]
          omega
        exact ih rest.length shorter out rfl
    | char c rest split _ other kept =>
      rw [kept] at out
      obtain ⟨isDollar, out⟩ := List.cons.inj out
      apply embedInto_head openings (other isDollar)
      rw [out]
      rfl
    | matched c e taken rest _ split _ _ other kept =>
      rw [kept] at out
      obtain ⟨isDollar, out⟩ := List.cons.inj out
      obtain ⟨rfl, -⟩ := List.cons.inj out
      exact other isDollar

/-- What comes out as it went in was skipped, if a `$` behind it does not come out. -/
theorem skips_of_eq (openings : ∀ text ∈ params, Opening text) {text rest out : Bytes}
    (eq : embedInto params (text ++ rest) = text ++ out) (differs : ∀ c ∈ rest.head?, c = dollar ∧ out.head? ≠ some dollar) :
    Skips rest text ∧ embedInto params rest = out := by
  induction length : text.length using Nat.strong_induction_on generalizing text with
  | _ n ih =>
    cases text with
    | nil => exact ⟨.nil, eq⟩
    | cons b text =>
      have nonempty : b :: text ++ rest ≠ [] := by simp
      cases reading params nonempty with
      | param digits rest' split notZero _ replaced =>
        obtain ⟨d, ds, rfl, number⟩ := notZero
        have isDollar : b = dollar := (List.cons.inj split).1
        have behind : text ++ rest = d :: (ds ++ rest') := (List.cons.inj split).2
        exfalso
        rw [replaced] at eq
        rcases opening_or_nothing openings (readDigits 0 (d :: ds) - 1) with ⟨c, tail, rendered, other, -⟩ | nothing
        · rw [rendered] at eq
          exact other ((List.cons.inj eq).1.trans isDollar)
        · rw [nothing, List.nil_append, isDollar] at eq
          cases text with
          | nil =>
            rw [List.nil_append] at behind
            rw [(differs d (by rw [behind]; rfl)).1] at number
            revert number
            decide
          | cons e text =>
            rw [← (List.cons.inj behind).1, embedInto_second openings eq] at number
            cases number
      | char c rest' split none _ kept =>
        obtain ⟨rfl, rfl⟩ := List.cons.inj split
        rw [kept] at eq
        obtain ⟨skips, out⟩ := ih text.length (by rw [← length]; exact Nat.lt_succ_self _) (List.cons.inj eq).2 rfl
        exact ⟨.char none skips, out⟩
      | matched c d taken rest' captures split found noPlaceholder _ kept =>
        rw [kept] at eq
        have inside : ∀ back, b :: text = c :: d :: taken ++ back → rest' = back ++ rest →
            Skips rest (b :: text) ∧ embedInto params rest = out := by
          rintro back shorter rfl
          rw [shorter, List.append_assoc, List.append_cancel_left_eq] at eq
          have less : back.length < n := by
            rw [← length, shorter, List.length_append, List.length_cons]
            omega
          obtain ⟨skips, out⟩ := ih back.length less eq rfl
          rw [split] at found
          rw [shorter]
          exact ⟨.matched found noPlaceholder skips, out⟩
        rcases List.append_eq_append_iff.1 split with ⟨more, longer, split⟩ | ⟨back, shorter, split⟩
        · cases more with
          | nil =>
            rw [List.append_nil] at longer
            exact inside [] (by rw [longer, List.append_nil]) split.symm
          | cons m more =>
            -- the match goes on behind the text, and its `$` comes out
            obtain ⟨isDollar, other⟩ := differs m (by rw [split]; rfl)
            rw [longer, List.append_assoc, List.append_cancel_left_eq] at eq
            rw [← eq, List.cons_append, List.head?_cons, isDollar] at other
            exact absurd rfl other
        · exact inside back shorter split

theorem Skips.embedInto {text rest : Bytes} (skips : Skips rest text) (params : List Bytes) :
    embedInto params (text ++ rest) = text ++ embedInto params rest := by
  induction skips with
  | nil => rfl
  | char none _ ih => exact (substitute_none none).trans (congrArg _ ih)
  | @matched taken back captures found kept _ ih =>
    by_cases empty : taken = []
    · rw [empty]
      exact ih
    · rw [List.append_assoc, embedInto_kept params found empty kept, ih, List.append_assoc]

end Reading

section Lexemes

variable {params : List Bytes} {count : Nat}

/-- Lexemes up to the first parameter in range. -/
theorem noParams_or_first (count : Nat) (lexemes : List Lexeme) : NoParams count lexemes ∨
    ∃ front digits behind, lexemes = front ++ .param digits :: behind ∧ NoParams count front ∧ InRange count digits := by
  induction lexemes with
  | nil => exact .inl fun digits mem => by cases mem
  | cons lexeme lexemes ih =>
    by_cases first : ∃ digits, lexeme = .param digits ∧ InRange count digits
    · obtain ⟨digits, rfl, inRange⟩ := first
      exact .inr ⟨[], digits, lexemes, rfl, (fun _ mem => by cases mem), inRange⟩
    · have here : ∀ digits, lexeme = .param digits → ¬InRange count digits :=
        fun digits same inRange => first ⟨digits, same, inRange⟩
      rcases ih with others | ⟨front, digits, behind, rfl, others, inRange⟩
      · refine .inl fun digits mem => ?_
        rcases List.mem_cons.1 mem with same | mem
        · exact here digits same.symm
        · exact others digits mem
      · refine .inr ⟨lexeme :: front, digits, behind, rfl, ?_, inRange⟩
        intro digits mem
        rcases List.mem_cons.1 mem with same | mem
        · exact here digits same.symm
        · exact others digits mem

theorem Readables.behind {front behind : List Lexeme} (readables : Readables (front ++ behind)) : Readables behind := by
  induction front with
  | nil => exact readables
  | cons lexeme front ih => exact ih readables.2

theorem embedLexemes_param {front behind : List Lexeme} {digits : Bytes} (others : NoParams params.length front)
    (inRange : InRange params.length digits) : (front ++ .param digits :: behind).flatMap (embedLexeme params) =
      textOf front ++ (params.getD (readDigits 0 digits - 1) [] ++ behind.flatMap (embedLexeme params)) := by
  rw [List.flatMap_append, embedLexemes_noParams others, List.flatMap_cons]
  simp only [embedLexeme]
  rw [if_pos inRange]

theorem textOf_param (front behind : List Lexeme) (digits : Bytes) :
    textOf (front ++ .param digits :: behind) = textOf front ++ (dollar :: digits ++ textOf behind) :=
  List.flatMap_append

/-- Where the stretches are skipped the parameters are replaced. -/
theorem Agrees.embedInto {lexemes : List Lexeme} (agrees : Agrees params.length lexemes) (readables : Readables lexemes) :
    embedInto params (textOf lexemes) = lexemes.flatMap (embedLexeme params) := by
  induction agrees with
  | @last lexemes others skips =>
    have kept := skips.embedInto params
    rw [List.append_nil] at kept
    rw [kept, embedLexemes_noParams others, Query.embedInto, substitute_nil rfl, List.append_nil]
  | @param front behind digits others skips inRange notZero _ ih =>
    obtain ⟨⟨nonempty, digit, ends⟩, later⟩ := Readables.behind readables
    rw [textOf_param, skips.embedInto, embedInto_param params nonempty digit notZero ends, ih later, embedLexemes_param others inRange]

/-- And nowhere else. -/
theorem agrees_of_eq (openings : ∀ text ∈ params, Opening text) {lexemes : List Lexeme} (readables : Readables lexemes)
    (eq : embedInto params (textOf lexemes) = lexemes.flatMap (embedLexeme params)) : Agrees params.length lexemes := by
  induction length : lexemes.length using Nat.strong_induction_on generalizing lexemes with
  | _ n ih =>
    rcases noParams_or_first params.length lexemes with others | ⟨front, digits, behind, rfl, others, inRange⟩
    · rw [embedLexemes_noParams others] at eq
      have whole : embedInto params (textOf lexemes ++ []) = textOf lexemes ++ [] := by rw [List.append_nil, eq]
      exact .last others (skips_of_eq openings whole (by simp)).1
    · obtain ⟨⟨nonempty, digit, ends⟩, later⟩ := Readables.behind readables
      have rendered : Opening (params.getD (readDigits 0 digits - 1) []) := by
        rw [List.getD_eq_getElem _ _ (by omega)]
        exact openings _ (List.getElem_mem _)
      obtain ⟨c, back, opens, noDollar, -⟩ := rendered
      rw [textOf_param, embedLexemes_param others inRange] at eq
      have other : (params.getD (readDigits 0 digits - 1) [] ++ behind.flatMap (embedLexeme params)).head? ≠ some dollar := by
        rw [opens, List.cons_append, List.head?_cons, Ne, Option.some_inj]
        exact noDollar
      obtain ⟨skips, eq⟩ := skips_of_eq openings eq fun d mem => by cases mem; exact ⟨rfl, other⟩
      have notZero : digits.head? ≠ some zero := by
        intro leading
        rw [embedInto_leadingZero digit leading] at eq
        rw [← eq] at other
        exact other rfl
      rw [embedInto_param params nonempty digit notZero ends, List.append_cancel_left_eq] at eq
      have fewer : behind.length < n := by
        rw [← length, List.length_append, List.length_cons]
        omega
      exact .param others skips inRange notZero (ih behind.length fewer later eq rfl)

/-- Lexemes that are seen alike are of this kind. -/
theorem Aligned.agrees {lexemes : List Lexeme} (readables : Readables lexemes) (aligned : Aligned count lexemes) :
    Agrees count lexemes := by
  -- any parameters will do
  have openings : ∀ text ∈ List.replicate count [quote], Opening text := by
    intro text mem
    rw [(List.mem_replicate.1 mem).2]
    exact ⟨quote, [], rfl, by decide, by decide⟩
  have length : (List.replicate count [quote]).length = count := List.length_replicate
  rw [← length] at aligned ⊢
  exact agrees_of_eq openings readables (embedInto_lexemes readables aligned)

end Lexemes

section Rendering

variable {conn : Escaping} {typeMap : EmbedTypeMap} {sql : Bytes} {values : List EmbedParam} {lexemes : List Lexeme}
  {encoders : List (Option EmbedEncoder)} {rendered : List Bytes}

theorem opening_null (typename : Bytes) : Opening (null ++ typename) := ⟨upperN, _, rfl, by decide, by decide⟩

theorem opening_quoted (inside typename : Bytes) : Opening (embedQuoted inside ++ typename) :=
  ⟨quote, _, rfl, by decide, by decide⟩

theorem opening_of_quoted {inside : Outcome Bytes} {typename text : Bytes}
    (returned : (do pure (embedQuoted (← inside) ++ typename) : Outcome Bytes) = .ok text) : Opening text := by
  obtain ⟨body, -, returned⟩ := Outcome.of_bind returned
  cases returned
  exact opening_quoted body typename

theorem renderHash_opening {h : EmbedHash} {text : Bytes} (returned : renderHash conn h = .ok text) : Opening text := by
  unfold renderHash at returned
  extract_lets behind at returned
  obtain ⟨typename, returned⟩ : ∃ typename, behind typename = .ok text := by
    split at returned
    · exact ⟨_, returned⟩
    · obtain ⟨typename, -, returned⟩ := Outcome.of_bind returned
      exact ⟨typename, returned⟩
  dsimp only [behind] at returned
  split at returned
  · cases returned
    exact opening_null typename
  · split at returned
    · split at returned
      · split at returned
        · cases returned
        · exact opening_of_quoted returned
      · exact opening_of_quoted returned
    · exact opening_of_quoted returned

/-- What is rendered begins with an apostrophe or is `NULL`. -/
theorem renderParam_opening {enc : Option EmbedEncoder} {value : EmbedParam} {text : Bytes}
    (returned : renderParam conn enc value = .ok text) : Opening text := by
  unfold renderParam at returned
  split at returned
  · cases returned
    exact opening_null []
  · obtain ⟨inside, -, returned⟩ := Outcome.of_bind returned
    cases returned
    exact ⟨quote, _, rfl, by decide, by decide⟩
  · dsimp only at returned
    split at returned
    · cases returned
    · obtain ⟨encoded, -, returned⟩ := Outcome.of_bind returned
      obtain ⟨inside, -, returned⟩ := Outcome.of_bind returned
      obtain ⟨typename, -, returned⟩ := Outcome.of_bind returned
      cases returned
      exact opening_quoted inside typename
  · exact renderHash_opening returned
  · obtain ⟨inside, -, returned⟩ := Outcome.of_bind returned
    cases returned
    exact ⟨quote, _, rfl, by decide, by decide⟩

theorem mapM_ok {α β : Type} {f : α → Outcome β} {xs : List α} {ys : List β} (returned : xs.mapM f = .ok ys) :
    ys.length = xs.length ∧ ∀ y ∈ ys, ∃ x ∈ xs, f x = .ok y := by
  induction xs generalizing ys with
  | nil =>
    cases returned
    simp
  | cons x xs ih =>
    rw [List.mapM_cons] at returned
    obtain ⟨y, here, returned⟩ := Outcome.of_bind returned
    obtain ⟨ys', later, returned⟩ := Outcome.of_bind returned
    cases returned
    obtain ⟨length, each⟩ := ih later
    refine ⟨by rw [List.length_cons, List.length_cons, length], ?_⟩
    intro z mem
    rcases List.mem_cons.1 mem with rfl | mem
    · exact ⟨x, List.mem_cons_self, here⟩
    · obtain ⟨x', mem', eq⟩ := each z mem
      exact ⟨x', List.mem_cons_of_mem _ mem', eq⟩

/-- There is one text for each parameter. -/
theorem rendered_length (fitted : queryParamEncoders typeMap values = .ok encoders)
    (rendering : renderParams conn encoders values = .ok rendered) : rendered.length = values.length := by
  obtain ⟨-, -, fitted⟩ := Outcome.of_bind fitted
  cases fitted
  rw [(mapM_ok rendering).1, List.length_zipIdx, List.length_map, List.length_zipIdx]

theorem rendered_opening (rendering : renderParams conn encoders values = .ok rendered) : ∀ text ∈ rendered, Opening text := by
  intro text mem
  obtain ⟨entry, -, returned⟩ := (mapM_ok rendering).2 text mem
  exact renderParam_opening returned

/-- Where the parameters are rendered, `gsub` puts them in. -/
theorem embedParams_rendered (nonempty : values ≠ []) (fitted : queryParamEncoders typeMap values = .ok encoders)
    (rendering : renderParams conn encoders values = .ok rendered) :
    embedParams conn typeMap sql values = .ok (embedInto rendered sql) := by
  have some : values.isEmpty = false := by simpa using nonempty
  unfold embedParams
  rw [some, if_neg (by decide), fitted]
  show (renderParams conn encoders values >>= _) = _
  rw [rendering]
  rfl

/-- `embed_params` replaces the parameters in range and nothing else if and only if what stands between them is skipped. -/
theorem embed_params_iff (nonempty : values ≠ []) (lexed : lex sql = some lexemes)
    (fitted : queryParamEncoders typeMap values = .ok encoders)
    (rendering : renderParams conn encoders values = .ok rendered) :
    sql = textOf lexemes ∧ rendered.length = values.length ∧
      (embedParams conn typeMap sql values = .ok (lexemes.flatMap (embedLexeme rendered)) ↔ Agrees values.length lexemes) := by
  obtain ⟨rfl, readables⟩ := lex_readable lexed
  have length := rendered_length fitted rendering
  refine ⟨rfl, length, ?_⟩
  rw [embedParams_rendered nonempty fitted rendering, Except.ok.injEq, ← length]
  constructor
  · intro eq
    exact agrees_of_eq (rendered_opening rendering) readables eq
  · intro agrees
    exact agrees.embedInto readables

/-- So it does if each lexeme is seen alike up to where no parameter is left. -/
theorem embedParams_aligned (nonempty : values ≠ []) (lexed : lex sql = some lexemes)
    (fitted : queryParamEncoders typeMap values = .ok encoders)
    (rendering : renderParams conn encoders values = .ok rendered) (aligned : Aligned values.length lexemes) :
    embedParams conn typeMap sql values = .ok (lexemes.flatMap (embedLexeme rendered)) := by
  obtain ⟨rfl, readables⟩ := lex_readable lexed
  have agrees := aligned.agrees readables
  rw [← rendered_length fitted rendering] at agrees
  rw [embedParams_rendered nonempty fitted rendering, agrees.embedInto readables]

end Rendering

/-- For `'$1'$1` and the value 7. -/
theorem embed_params_seven :
    let conn : Escaping := ⟨fun s => pure s, fun s => pure s⟩
    let typeMap : EmbedTypeMap := ⟨fun _ => pure (), fun _ _ => none⟩
    embedParams conn typeMap [quote, dollar, 0x31, quote, dollar, 0x31] [.other [0x37]] =
      .ok [quote, dollar, 0x31, quote, quote, 0x37, quote] := by
  intro conn typeMap
  have lexed : lex [quote, dollar, 0x31, quote, dollar, 0x31] = some [.constant false [dollar, 0x31], .param [0x31]] := by
    decide
  have skips : Skips [dollar, 0x31] ([quote, dollar, 0x31, quote] ++ []) := .matched rfl rfl .nil
  have agrees : Agrees 1 ([.constant false [dollar, 0x31]] ++ [.param [0x31]]) :=
    .param (by simp [NoParams]) skips (by decide) (by decide) (.last (by simp [NoParams]) .nil)
  exact (@embed_params_iff conn typeMap _ [.other [0x37]] _ [none] [[quote, 0x37, quote]] (by simp) lexed rfl
    rfl).2.2.2 agrees

/-- `E'\'$1'` is one constant, and the value 7 ends up outside of it; the other texts are `/*/**/$1*/`, `a$1`, `$2` and `$01`. -/
theorem constant_torn_apart :
    let conn : Escaping := ⟨fun s => pure s, fun s => pure s⟩
    let typeMap : EmbedTypeMap := ⟨fun _ => pure (), fun _ _ => none⟩
    (lex [0x45, quote, backslash, quote, dollar, 0x31, quote] =
        some [.identifier [0x45], .constant true [backslash, quote, dollar, 0x31]] ∧
      embedParams conn typeMap [0x45, quote, backslash, quote, dollar, 0x31, quote] [.other [0x37]] =
        .ok [0x45, quote, backslash, quote, quote, 0x37, quote, quote]) ∧
    ∀ entry ∈ [([slash, asterisk, slash, asterisk, asterisk, slash, dollar, 0x31, asterisk, slash],
          [Lexeme.blockComment [slash, asterisk, asterisk, slash, dollar, 0x31]]),
        ([0x61, dollar, 0x31], [.identifier [0x61, dollar, 0x31]]), ([dollar, 0x32], [.param [0x32]]),
        ([dollar, zero, 0x31], [.param [zero, 0x31]])],
      lex entry.1 = some entry.2 ∧
        embedInto [[quote, 0x37, quote]] entry.1 ≠ entry.2.flatMap (embedLexeme [[quote, 0x37, quote]]) := by
  refine ⟨⟨by decide, rfl⟩, ?_⟩
  decide

end RubyPg.Query
