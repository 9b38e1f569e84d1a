import RubyPg.Text.ArrayGrammar

/-!
# The strict array decoder accepts its grammar

In the strict mode the decoder answers for nothing but array texts, as long as no element is
glued together (`Part`, `Reading.closed`). `strict_array_grammar` puts both directions
together.
-/

namespace RubyPg.Text
set_option autoImplicit false
open Ascii

section Glued

variable {delimiter : UInt8}

theorem Scan.level_glued {depth : Nat} {place : Place} {c : UInt8} :
    (Scan.level delimiter depth place true c).glued = true := by
  unfold Scan.level
  repeat' split
  all_goals rfl

theorem Scan.leave_glued {dims spaced : Bool} {c : UInt8} : (Scan.leave delimiter dims spaced true c).glued = true := by
  unfold Scan.leave
  repeat' split
  all_goals first | rfl | exact Scan.level_glued

theorem Scan.step_glued {scan : Scan} {c : UInt8} (glued : scan.glued = true) :
    (scan.step delimiter c).glued = true := by
  obtain ⟨phase, g⟩ := scan
  obtain rfl : g = true := glued
  cases phase with
  | lead dims spaced =>
    rw [Scan.step]
    split
    · rfl
    split
    · rfl
    exact Scan.leave_glued
  | dim dims =>
    rw [Scan.step]
    split
    · rfl
    split
    · rfl
    exact Scan.leave_glued
  | gap =>
    rw [Scan.step]
    split <;> rfl
  | level depth place => exact Scan.level_glued
  | closed => rfl

/-- Once glued, always glued. -/
theorem Scan.glued_of_run {scan : Scan} {text : Bytes} (unglued : (Scan.run delimiter scan text).glued = false) :
    scan.glued = false := by
  induction text generalizing scan with
  | nil => exact unglued
  | cons c text ih =>
    have next := ih unglued
    by_contra glued
    rw [Bool.not_eq_false] at glued
    rw [Scan.step_glued glued] at next
    cases next

/-- Only at its start an element may open quotes or a sub-array. -/
theorem fresh_of_unglued {phase : Phase} {place : Place} {text : Bytes}
    (unglued : (Scan.run delimiter ⟨phase, false || place != .fresh⟩ text).glued = false) : place = .fresh := by
  have same : (false || place != .fresh) = false := Scan.glued_of_run unglued
  simpa using same

end Glued

/-- What a state has read of the element it is in, behind the elements `before`. -/
inductive Part (before : List Value) : Bytes → Place → ReadState → Prop where
  | fresh {st : ReadState} (start : st.Fresh) (array : st.array = before) : Part before [] .fresh st
  | run {st : ReadState} (plain : ∀ c ∈ st.text, PlainChar comma c) (openQuote : st.openQuote = .never)
      (escapeNext : st.escapeNext = false) (array : st.array = before) : Part before st.text .run st
  | inside {st : ReadState} {body : Bytes} (quoted : Quoted body st.text) (openQuote : st.openQuote = .inside)
      (escapeNext : st.escapeNext = false) (array : st.array = before) : Part before (dquote :: body) .inside st
  | escaped {st : ReadState} {body : Bytes} (quoted : Quoted body st.text) (openQuote : st.openQuote = .inside)
      (escapeNext : st.escapeNext = true) (array : st.array = before) :
      Part before (dquote :: (body ++ [backslash])) .escaped st
  | quoted {st : ReadState} {body : Bytes} (quoted : Quoted body st.text) (openQuote : st.openQuote = .before)
      (escapeNext : st.escapeNext = false) (array : st.array = before) :
      Part before (dquote :: (body ++ [dquote])) .quoted st
  | sub {st : ReadState} {raw : Bytes} {v : Value} (denotes : Denotes raw v) (openQuote : st.openQuote ≠ .inside)
      (escapeNext : st.escapeNext = true) (array : st.array = before ++ [v]) : Part before raw .sub st

theorem Quoted.append {body body' word word' : Bytes} (quoted : Quoted body word) (quoted' : Quoted body' word') :
    Quoted (body ++ body') (word ++ word') := by
  induction quoted with
  | nil => exact quoted'
  | char notBackslash notDquote _ ih => exact .char notBackslash notDquote ih
  | escaped _ ih => exact .escaped ih

section Part

variable {this : CompositeDecoder} {before : List Value} {raw : Bytes} {place : Place} {st : ReadState}

theorem Part.stands (part : Part before raw place st) : st.Stands place := by
  cases part with
  | fresh start => exact ⟨by simp [start.openQuote, Place.inQuotes], start.escapeNext⟩
  | run plain openQuote escapeNext => exact ⟨by simp [openQuote, Place.inQuotes], escapeNext⟩
  | inside quoted openQuote escapeNext => exact ⟨by simp [openQuote, Place.inQuotes], escapeNext⟩
  | escaped quoted openQuote escapeNext => exact ⟨by simp [openQuote, Place.inQuotes], escapeNext⟩
  | quoted quoted openQuote escapeNext => exact ⟨by simp [openQuote, Place.inQuotes], escapeNext⟩
  | sub denotes openQuote escapeNext => exact ⟨by simp [openQuote, Place.inQuotes], escapeNext⟩

/-- The word that ends denotes what is pushed for it. -/
theorem Part.ended {st' : ReadState} (part : Part before raw place st) (outside : st.openQuote ≠ .inside)
    (strings : this.elem = pgTextDecString) (ended : endWord this st = .ok st') :
    ∃ v, Denotes raw v ∧ st'.array = before ++ [v] := by
  cases part with
  | fresh start array =>
    refine ⟨.str [], .run (by simp) (by decide), ?_⟩
    rw [endWord_pushes strings start.escapeNext ended, start.text, array, if_neg fun both => absurd both.2 (by decide)]
  | run plain openQuote escapeNext array =>
    refine ⟨_, ?_, by rw [endWord_pushes strings escapeNext ended, array]⟩
    by_cases spelled : st.text = null
    · rw [if_pos ⟨openQuote, spelled⟩, spelled]
      exact .nil
    · rw [if_neg fun both => spelled both.2]
      exact .run plain spelled
  | inside quoted openQuote => exact absurd openQuote outside
  | escaped quoted openQuote => exact absurd openQuote outside
  | quoted quoted openQuote escapeNext array =>
    refine ⟨_, ?_, by rw [endWord_pushes strings escapeNext ended, array]⟩
    rw [if_neg (by simp [openQuote])]
    exact .quoted quoted
  | @sub _ _ v denotes openQuote escapeNext array =>
    rw [endWord, if_pos escapeNext] at ended
    cases ended
    exact ⟨v, denotes, array⟩

/-- At its start nothing has been read of an element. -/
theorem Part.of_fresh (part : Part before raw .fresh st) : raw = [] ∧ st.text = [] ∧ st.Fresh ∧ st.array = before := by
  cases part with
  | fresh start array => exact ⟨rfl, start.text, start, array⟩

/-- A quoted text that starts an element. -/
theorem Part.openQuotes (part : Part before raw .fresh st) : Part before (raw ++ [dquote]) .inside st.openQuotes := by
  obtain ⟨rfl, text, start, array⟩ := part.of_fresh
  have text' : st.openQuotes.text = [] := text
  exact .inside (by rw [text']; exact .nil) rfl start.escapeNext array

/-- A sub-array that starts an element. -/
theorem Part.pushSubarray {text : Bytes} {sub : ReadResult} (part : Part before raw .fresh st)
    (denotes : Denotes text (.ary sub.array)) : Part before (raw ++ text) .sub (st.pushSubarray sub) := by
  obtain ⟨rfl, -, start, array⟩ := part.of_fresh
  refine .sub denotes ?_ rfl ?_
  · simp [ReadState.pushSubarray, start.openQuote]
  · rw [ReadState.pushSubarray, array]

/-- A character of an unquoted run. -/
theorem Part.char {c : UInt8} (part : Part before raw place st) (outside : st.openQuote ≠ .inside)
    (unsealed : place.sealed = false) (plain : PlainChar comma c) :
    place.char = .run ∧ Part before (raw ++ [c]) .run (st.push c) := by
  have text := st.push_text c
  cases part with
  | fresh start array =>
    rw [start.text] at text
    refine ⟨rfl, ?_⟩
    have part : Part before (st.push c).text .run (st.push c) := by
      refine .run ?_ start.openQuote start.escapeNext array
      rw [text]
      simpa using plain
    rwa [text] at part
  | run plains openQuote escapeNext array =>
    refine ⟨rfl, ?_⟩
    rw [← text]
    refine .run ?_ openQuote escapeNext array
    intro d member
    rw [text, List.mem_append, List.mem_singleton] at member
    rcases member with earlier | rfl
    · exact plains d earlier
    · exact plain
  | inside quoted openQuote => exact absurd openQuote outside
  | escaped quoted openQuote => exact absurd openQuote outside
  | quoted => cases unsealed
  | sub => cases unsealed

/-- Between quotes. -/
theorem Part.insideChar {c : UInt8} (part : Part before raw .inside st) (notBackslash : c ≠ backslash)
    (notDquote : c ≠ dquote) : Part before (raw ++ [c]) .inside (st.push c) := by
  cases part with
  | inside quoted openQuote escapeNext array =>
    refine .inside ?_ openQuote escapeNext array
    rw [st.push_text c]
    exact quoted.append (.char notBackslash notDquote .nil)

theorem Part.escape (part : Part before raw .inside st) : Part before (raw ++ [backslash]) .escaped st.escape := by
  cases part with
  | inside quoted openQuote escapeNext array => exact .escaped quoted openQuote rfl array

theorem Part.closeQuotes (part : Part before raw .inside st) : Part before (raw ++ [dquote]) .quoted st.closeQuotes := by
  cases part with
  | inside quoted openQuote escapeNext array => exact .quoted quoted rfl escapeNext array

/-- Behind a backslash. -/
theorem Part.pushEscaped {c : UInt8} (part : Part before raw .escaped st) :
    Part before (raw ++ [c]) .inside (st.pushEscaped c) := by
  cases part with
  | @escaped _ body quoted openQuote escapeNext array =>
    have text : (st.pushEscaped c).text = st.text ++ [c] := st.push_text c
    have raw : dquote :: (body ++ [backslash]) ++ [c] = dquote :: (body ++ [backslash, c]) := by simp
    rw [raw]
    refine .inside ?_ openQuote rfl array
    rw [text]
    exact quoted.append (.escaped .nil)

end Part

/-- From a state in the element `raw` the loop got to the closing brace of its array. -/
structure Closed (s : Bytes) (index : Nat) (before : List Value) (raw : Bytes) (r : ReadResult) : Prop where
  reads : ∃ tail rest vs, Rest s index (tail ++ rbrace :: rest) ∧ r.index = index + tail.length ∧
    r.array = before ++ vs ∧ Joined Denotes (raw ++ tail) vs

section Closed

variable {this : CompositeDecoder} {s : Bytes}

/-- Some more characters of the element. -/
theorem Closed.more {index index' : Nat} {before : List Value} {raw t u : Bytes} {r : ReadResult}
    (closed : Closed s index' before (raw ++ t) r) (here : Rest s index (t ++ u)) (moved : index' = index + t.length) :
    Closed s index before raw r := by
  obtain ⟨tail, rest, vs, left, ends, array, joined⟩ := closed.reads
  have both : u = tail ++ rbrace :: rest := by
    rw [moved] at left
    exact here.skip.symm.trans left
  refine ⟨t ++ tail, rest, vs, ?_, ?_, array, ?_⟩
  · rw [List.append_assoc, ← both]
    exact here
  · rw [ends, moved, List.length_append]
    omega
  · rwa [← List.append_assoc]

/-- From a state on the loop gets to the closing brace, as long as nothing is glued. -/
def Closes (s : Bytes) (st : ReadState) (r : ReadResult) : Prop :=
  ∀ before raw place depth, Part before raw place st →
    (Scan.run comma ⟨.level depth place, false⟩ (s.drop st.index)).glued = false → Closed s st.index before raw r

section Closes

variable {st : ReadState} {r : ReadResult} {c : UInt8} {t : Bytes}

theorem closes_rbrace {st' : ReadState} (strings : this.elem = pgTextDecString) (here : Rest s st.index (rbrace :: t))
    (outside : st.openQuote ≠ .inside) (ended : endWord this st = .ok st') : Closes s st st'.result := by
  intro before raw place depth part unglued
  obtain ⟨v, denotes, array⟩ := part.ended outside strings ended
  refine ⟨[], _, [v], here, ?_, array, ?_⟩
  · exact (endWord_ended ended).index
  · rw [List.append_nil]
    exact .single denotes

theorem Closes.delimiter {st' : ReadState} (later : Closes s st'.nextWord r) (strings : this.elem = pgTextDecString)
    (here : Rest s st.index (comma :: t)) (outside : st.openQuote ≠ .inside) (ended : endWord this st = .ok st') :
    Closes s st r := by
  intro before raw place depth part unglued
  obtain ⟨v, denotes, array⟩ := part.ended outside strings ended
  have index : st'.nextWord.index = st.index + 1 := by rw [ReadState.nextWord, (endWord_ended ended).index]
  rw [Scan.run_level here (Scan.level_delimiter (part.stands.outside outside) (by decide)), ← index] at unglued
  obtain ⟨tail, rest, vs, left, ends, behind, joined⟩ :=
    (later (before ++ [v]) [] .fresh depth (.fresh ⟨rfl, rfl, rfl⟩ array) unglued).reads
  refine ⟨comma :: tail, rest, v :: vs, ?_, ?_, ?_, .cons denotes joined⟩
  · rw [index] at left
    rw [Rest, here, here.next.symm.trans left]
    rfl
  · rw [ends, index, List.length_cons]
    omega
  · rw [behind, List.append_assoc]
    rfl

theorem Closes.openQuotes (later : Closes s st.openQuotes r) (here : Rest s st.index (dquote :: t))
    (outside : st.openQuote ≠ .inside) : Closes s st r := by
  intro before raw place depth part unglued
  rw [Scan.run_level here (Scan.level_dquote (part.stands.outside outside) (by decide))] at unglued
  obtain rfl := fresh_of_unglued unglued
  exact (later before _ .inside depth part.openQuotes unglued).more here rfl

theorem Closes.emptySub (later : Closes s (st.pushSubarray ⟨[], st.index + 1, st.word⟩) r)
    (here : Rest s st.index (lbrace :: rbrace :: t)) (outside : st.openQuote ≠ .inside) : Closes s st r := by
  intro before raw place depth part unglued
  rw [Scan.run_level here (Scan.level_lbrace (part.stands.outside outside) (by decide))] at unglued
  obtain rfl := fresh_of_unglued unglued
  rw [Scan.run_level here.next (Scan.level_rbrace rfl)] at unglued
  have both : Rest s st.index ([lbrace, rbrace] ++ t) := here
  exact (later before _ .sub depth (part.pushSubarray .empty) unglued).more both rfl

/-- A nested call read the body of an array, and the scan came to its end in step. -/
theorem Closes.sub {sub : ReadResult} (later : Closes s (st.pushSubarray sub) r) (delimiter : this.delimiter = comma)
    (strict : this.formatError = .raise) (here : Rest s st.index (lbrace :: t)) (outside : st.openQuote ≠ .inside)
    (nonempty : ∀ u, t ≠ rbrace :: u) (inner : Reading this s st.enter (.ok sub)) (closes : Closes s st.enter sub) :
    Closes s st r := by
  intro before raw place depth part unglued
  rw [Scan.run_level here (Scan.level_lbrace (part.stands.outside outside) (by decide))] at unglued
  obtain rfl := fresh_of_unglued unglued
  obtain ⟨body, rest, vs, left, ends, array, joined⟩ :=
    (closes [] [] .fresh (depth + 1) (.fresh ⟨rfl, rfl, rfl⟩ rfl) unglued).reads
  have both : Rest s st.index (lbrace :: (body ++ [rbrace]) ++ rest) := by
    rw [Rest, here, here.next.symm.trans left]
    simp
  have some' : body ≠ [] := by
    rintro rfl
    exact nonempty rest (here.next.symm.trans left)
  have denotes : Denotes (lbrace :: (body ++ [rbrace])) (.ary sub.array) := by
    rw [array]
    exact .joined joined some'
  have arrived := inner.arrives sub rfl here.lt (depth + 1) .fresh false (.enter st)
  rw [delimiter] at arrived
  cases arrived with
  | «open» lenient => exact absurd strict lenient
  | closed glued inside same =>
    have unglued' : (Scan.run comma ⟨.level (depth + 1) .fresh, false⟩ (s.drop st.enter.index)).glued = false := unglued
    rw [same, delimiter] at unglued'
    obtain rfl : glued = false := Scan.glued_of_run unglued'
    have moved : (st.pushSubarray sub).index = st.index + (lbrace :: (body ++ [rbrace])).length := by
      simp only [ReadState.pushSubarray, ends, ReadState.enter, List.length_cons, List.length_append, List.length_nil]
      omega
    exact (later before _ .sub depth (part.pushSubarray denotes) unglued').more both moved

theorem Closes.char (later : Closes s (st.push c) r) (here : Rest s st.index (c :: t)) (outside : st.openQuote ≠ .inside)
    (plain : PlainChar comma c) : Closes s st r := by
  intro before raw place depth part unglued
  rw [Scan.run_level here (Scan.level_char (part.stands.outside outside) plain)] at unglued
  have unsealed : place.sealed = false := Scan.glued_of_run unglued
  obtain ⟨run, part'⟩ := part.char outside unsealed plain
  rw [run, unsealed] at unglued
  exact (later before _ .run depth part' unglued).more here rfl

end Closes

/-- **The strict loop reads array elements**, as long as nothing is glued. -/
theorem Reading.closed {st : ReadState} {out : Outcome ReadResult} (delimiter : this.delimiter = comma)
    (strings : this.elem = pgTextDecString) (strict : this.formatError = .raise) (reading : Reading this s st out) :
    ∀ r, out = .ok r → Closes s st r := by
  induction reading with
  | off here => exact fun r returned => absurd strict (premature_lenient returned)
  | raised => exact fun r returned => nomatch returned
  | close here outside ended =>
    rintro r ⟨⟩
    exact closes_rbrace strings here outside ended
  | delimiter here outside notRbrace ended next ih =>
    intro r returned
    rw [delimiter] at here
    exact (ih r returned).delimiter strings here outside ended
  | openQuotes here outside free next ih => exact fun r returned => (ih r returned).openQuotes here outside
  | emptySub here outside free next ih => exact fun r returned => (ih r returned).emptySub here outside
  | subRaised => exact fun r returned => nomatch returned
  | sub here outside free nonempty inner next ihInner ih =>
    exact fun r returned => (ih r returned).sub delimiter strict here outside nonempty inner (ihInner _ rfl)
  | nul => exact fun r returned => absurd strict (premature_lenient returned)
  | char here outside plain next ih =>
    intro r returned
    rw [delimiter] at plain
    exact (ih r returned).char here outside plain
  | escaped here inside escape next ih =>
    intro r returned before raw place depth part unglued
    obtain rfl := part.stands.eq_escaped inside escape
    rw [Scan.run_level here Scan.level_escaped] at unglued
    exact (ih r returned before _ .inside depth part.pushEscaped unglued).more here rfl
  | backslash here inside literal next ih =>
    intro r returned before raw place depth part unglued
    obtain rfl := part.stands.eq_inside inside literal
    rw [Scan.run_level here Scan.level_backslash] at unglued
    exact (ih r returned before _ .escaped depth part.escape unglued).more here rfl
  | closeQuotes here inside literal next ih =>
    intro r returned before raw place depth part unglued
    obtain rfl := part.stands.eq_inside inside literal
    rw [Scan.run_level here Scan.level_closeQuotes] at unglued
    exact (ih r returned before _ .quoted depth part.closeQuotes unglued).more here rfl
  | quoted here inside literal notBackslash notDquote next ih =>
    intro r returned before raw place depth part unglued
    obtain rfl := part.stands.eq_inside inside literal
    rw [Scan.run_level here (Scan.level_inside notBackslash notDquote)] at unglued
    exact (ih r returned before _ .inside depth (part.insideChar notBackslash notDquote) unglued).more here rfl

end Closed

section Frame

variable {this : CompositeDecoder} {s : Bytes}

theorem blank_takeWhile (text : Bytes) : Blank (text.takeWhile arrayIsspace) := fun _ => List.mem_takeWhile_imp

/-- Either whitespace alone stands in front of `rest`, or dimension items. -/
inductive Leading (text rest : Bytes) (ndim n : Nat) : Prop where
  | blank {before : Bytes} (leads : Blank before) (same : text = before ++ rest) (none : n = ndim)
  | dims {before items : Bytes} (leads : Blank before) (dims : Dims Blank items) (same : text = before ++ (items ++ rest))
      (some : ndim < n)

/-- What the strict loop over the dimension items has passed over. -/
theorem skipDims_leading (strict : this.formatError = .raise) {fuel index ndim i n : Nat}
    (returned : skipDims this s fuel index ndim = .ok (i, n)) : Leading (s.drop index) (s.drop i) ndim n := by
  induction fuel generalizing index ndim with
  | zero => cases returned
  | succ fuel ih =>
    rw [skipDims] at returned
    dsimp only at returned
    obtain ⟨space, blank, spaces⟩ : ∃ space, Blank space ∧ s.drop index = space ++ s.drop (skipWhile arrayIsspace s index) :=
      ⟨_, blank_takeWhile _, drop_skipWhile arrayIsspace s index⟩
    revert returned spaces
    generalize skipWhile arrayIsspace s index = j
    intro returned spaces
    by_cases bracket : s.getD j nul = lbracket
    · rw [if_neg (not_not.2 bracket)] at returned
      have here : Rest s j (lbracket :: s.drop (j + 1)) := .of_getD bracket (by decide)
      obtain ⟨digits, isdim, split⟩ : ∃ digits : Bytes, (∀ c ∈ digits, arrayIsdim c = true) ∧
          s.drop (j + 1) = digits ++ s.drop (skipWhile arrayIsdim s (j + 1)) :=
        ⟨_, fun _ => List.mem_takeWhile_imp, drop_skipWhile arrayIsdim s (j + 1)⟩
      revert returned split
      generalize skipWhile arrayIsdim s (j + 1) = k
      intro returned split
      by_cases closed : s.getD k nul = rbracket
      · rw [if_neg (not_not.2 closed)] at returned
        have here' : Rest s k (rbracket :: s.drop (k + 1)) := .of_getD closed (by decide)
        have item : s.drop j = lbracket :: (digits ++ rbracket :: s.drop (k + 1)) := by
          rw [← here', ← split]
          exact here
        cases ih returned with
        | @blank before leads same none =>
          refine .dims blank (.last isdim leads) ?_ (by omega)
          rw [spaces, item, same]
          simp
        | @dims before items leads dims same some' =>
          refine .dims blank (.more isdim leads dims) ?_ (by omega)
          rw [spaces, item, same]
          simp
      · rw [if_pos closed] at returned
        obtain ⟨_, first, -⟩ := Outcome.of_bind returned
        exact absurd strict (arrayParserError_lenient first)
    · rw [if_pos bracket] at returned
      cases returned
      exact .blank blank spaces rfl

theorem blank_of_checkJunk (strict : this.formatError = .raise) {text : Bytes}
    (checked : checkJunk this text = .ok ()) : Blank text := by
  induction text with
  | nil => exact fun c member => nomatch member
  | cons c text ih =>
    rw [checkJunk] at checked
    cases space : arrayIsspace c with
    | false =>
      rw [space, if_pos (by decide)] at checked
      obtain ⟨_, first, -⟩ := Outcome.of_bind checked
      exact absurd strict (arrayParserError_lenient first)
    | true =>
      rw [space, if_neg (by decide)] at checked
      intro d member
      rcases List.mem_cons.1 member with rfl | member
      · exact space
      · exact ih checked d member

/-- An array behind what the strict decoder passes over in front of it. -/
theorem arrayText_of_leading {i n j : Nat} {text behind : Bytes} {vs : List Value} (strict : this.formatError = .raise)
    (leading : Leading s (s.drop i) 0 n) (assigned : skipAssignment this s i n = .ok j)
    (here : Rest s j (text ++ behind)) (denotes : Denotes text (.ary vs)) (blank : Blank behind) :
    ArrayText Blank s (.ary vs) := by
  cases leading with
  | blank leads same none =>
    rw [skipAssignment, if_pos none] at assigned
    cases assigned
    rw [here] at same
    rw [same]
    exact .bare leads denotes blank
  | dims leads dims same some' =>
    rw [skipAssignment, if_neg (by omega)] at assigned
    by_cases equal : s.getD i nul = equals
    · rw [if_neg (not_not.2 equal)] at assigned
      have sign : Rest s i (equals :: s.drop (i + 1)) := .of_getD equal (by decide)
      have spaces := drop_skipWhile arrayIsspace s (i + 1)
      rw [show skipWhile arrayIsspace s (i + 1) = j from Except.ok.inj assigned, here] at spaces
      rw [sign, spaces] at same
      rw [same]
      exact .dims leads dims (blank_takeWhile _) denotes blank
    · rw [if_pos equal] at assigned
      obtain ⟨_, first, -⟩ := Outcome.of_bind assigned
      exact absurd strict (arrayParserError_lenient first)

/-- The body of the array, up to its closing brace. -/
theorem readBody_denotes {index : Nat} {r : ReadResult} (delimiter : this.delimiter = comma)
    (strings : this.elem = pgTextDecString) (strict : this.formatError = .raise)
    (returned : readBody this s index = .ok r)
    (unglued : (Scan.run comma ⟨.level 0 .fresh, false⟩ (s.drop index)).glued = false) :
    ∃ body, Rest s index (body ++ rbrace :: s.drop (r.index + 1)) ∧
      Denotes (lbrace :: (body ++ [rbrace])) (.ary r.array) := by
  obtain ⟨here, word, empty⟩ | ⟨nonempty, reading⟩ := readBody_cases this s index
  · rw [empty] at returned
    cases returned
    exact ⟨[], here, .empty⟩
  · rw [returned] at reading
    obtain ⟨tail, rest, vs, here, ends, array, joined⟩ :=
      (reading.closed delimiter strings strict r rfl [] [] .fresh 0 (.fresh ⟨rfl, rfl, rfl⟩ rfl) unglued).reads
    have behind : s.drop (r.index + 1) = rest := by
      rw [ends]
      exact here.skip.next
    refine ⟨tail, by rw [behind]; exact here, ?_⟩
    rw [array]
    refine .joined joined ?_
    rintro rfl
    exact nonempty _ here

/-- **The strict decoder returns nothing but the values of array texts**, unless something is glued. -/
theorem arrayText_of_decodes {v : Value} (delimiter : this.delimiter = comma) (strings : this.elem = pgTextDecString)
    (strict : this.formatError = .raise) (decoded : pgTextDecArray this s = .ok v)
    (unglued : (scan comma s).glued = false) : ArrayText Blank s v := by
  obtain ⟨⟨i, n⟩, skipped, decoded⟩ := Outcome.of_bind decoded
  obtain ⟨j, assigned, decoded⟩ := Outcome.of_bind decoded
  obtain ⟨⟨⟩, opening, decoded⟩ := Outcome.of_bind decoded
  obtain ⟨r, body, decoded⟩ := Outcome.of_bind decoded
  obtain ⟨⟨⟩, closing, decoded⟩ := Outcome.of_bind decoded
  obtain ⟨⟨⟩, junk, decoded⟩ := Outcome.of_bind decoded
  cases decoded
  have lead : Rest s j (lbrace :: s.drop (j + 1)) := .of_getD (expectBrace_strict strict opening) (by decide)
  obtain ⟨spaced, leaves⟩ := skipDims_starts skipped
  have enters := leaves.enters assigned
  rw [delimiter] at enters
  have same : scan comma s = Scan.run comma ⟨.level 0 .fresh, false⟩ (s.drop (j + 1)) := by
    cases enters with
    | brace _ same => exact same
    | late off => exact absurd lead.lt (by omega)
    | backed last =>
      obtain ⟨here, -⟩ | ⟨-, reading⟩ := readBody_cases this s (j + 1)
      · exact absurd here.lt (by omega)
      · rw [body] at reading
        exact absurd strict (premature_lenient (reading.off_eq last.ge).symm)
  rw [same] at unglued
  obtain ⟨text, here, denotes⟩ := readBody_denotes delimiter strings strict body unglued
  have whole : Rest s j (lbrace :: (text ++ [rbrace]) ++ s.drop (r.index + 1)) := by
    rw [Rest, lead, here]
    simp
  exact arrayText_of_leading strict (skipDims_leading strict skipped) assigned whole denotes
    (blank_of_checkJunk strict junk)

end Frame

/-- The strict decoder of string arrays. -/
def strictStrings : CompositeDecoder := { elem := pgTextDecString, delimiter := comma, formatError := .raise }

/-- **The strict array parser accepts its grammar**: every array text is decoded as the value it
denotes and is not glued, every string that is decoded and not glued is such a text, and what is
not decoded raises a `TypeError`. Whitespace may stand in front of `=`, and a run may be empty. -/
theorem strict_array_grammar (s : Bytes) :
    (∀ v, ArrayText Blank s v ↔ pgTextDecArray strictStrings s = .ok v ∧ (scan comma s).glued = false) ∧
      ((∀ v, pgTextDecArray strictStrings s ≠ .ok v) →
        ∃ msg, pgTextDecArray strictStrings s = .error (.exn .typeError msg)) := by
  constructor
  · intro v
    constructor
    · exact fun arrayText => arrayText.decodes rfl rfl
    · rintro ⟨decoded, unglued⟩
      exact arrayText_of_decodes rfl rfl rfl decoded unglued
  · intro rejected
    cases decoded : pgTextDecArray strictStrings s with
    | ok v => exact absurd decoded (rejected v)
    | error stop =>
      rcases pgTextDecArray_raises decoded with ⟨word, failed⟩ | ⟨-, msg, rfl⟩
      · cases failed
      · exact ⟨msg, rfl⟩

theorem Dims.weaken {gap gap' : Bytes → Prop} {items : Bytes} (weaker : ∀ text, gap text → gap' text)
    (dims : Dims gap items) : Dims gap' items := by
  induction dims with
  | last isdim ends => exact .last isdim (weaker _ ends)
  | more isdim blank _ ih => exact .more isdim blank ih

/-- Without whitespace in front of `=` a text is an array text all the more. -/
theorem ArrayText.weaken {s : Bytes} {v : Value} (arrayText : ArrayText (· = []) s v) : ArrayText Blank s v := by
  cases arrayText with
  | bare leads array ends => exact .bare leads array ends
  | dims leads dims blank array ends =>
    refine .dims leads (dims.weaken ?_) blank array ends
    rintro text rfl
    exact fun c member => nomatch member

theorem Dims.ends {items : Bytes} (dims : Dims (· = []) items) : ∃ front, items = front ++ [rbracket] := by
  induction dims with
  | @last digits space isdim ends =>
    subst ends
    exact ⟨lbracket :: digits, by simp⟩
  | @more digits space rest isdim blank following ih =>
    obtain ⟨front, rfl⟩ := ih
    exact ⟨lbracket :: (digits ++ rbracket :: (space ++ front)), by simp⟩

/-- Without such whitespace the text starts with its array, or some `=` stands behind a bracket. -/
theorem ArrayText.adjacent {s : Bytes} {v : Value} (arrayText : ArrayText (· = []) s v) :
    (∃ before rest, Blank before ∧ s = before ++ lbrace :: rest) ∨ [rbracket, equals] <:+: s := by
  cases arrayText with
  | @bare before text behind vs leads array ends =>
    obtain ⟨body, rfl, -⟩ := array.body
    exact .inl ⟨before, _, leads, rfl⟩
  | @dims before items between text behind vs leads dims blank array ends =>
    obtain ⟨front, rfl⟩ := dims.ends
    exact .inr ⟨before ++ front, between ++ (text ++ behind), by simp⟩

/-- The strict decoder takes `[1] ={a}` and, dropping a character, `{{a}b}`. -/
theorem strict_array_exceeds :
    pgTextDecArray strictStrings [lbracket, 0x31, rbracket, space, equals, lbrace, 0x61, rbrace] =
        .ok (.ary [.str [0x61]]) ∧
      (∀ v, ¬ArrayText (· = []) [lbracket, 0x31, rbracket, space, equals, lbrace, 0x61, rbrace] v) ∧
      pgTextDecArray strictStrings [lbrace, lbrace, 0x61, rbrace, 0x62, rbrace] = .ok (.ary [.ary [.str [0x61]]]) ∧
      ∀ v, ¬ArrayText (· = []) [lbrace, lbrace, 0x61, rbrace, 0x62, rbrace] v := by
  refine ⟨rfl, fun v arrayText => ?_, rfl, fun v arrayText => ?_⟩
  · rcases arrayText.adjacent with ⟨before, rest, leads, same⟩ | adjacent
    · cases before with
      | nil => cases same
      | cons c before =>
        obtain rfl := (List.cons.inj same).1
        exact absurd (leads lbracket List.mem_cons_self) (by decide)
    · revert adjacent
      decide
  · obtain ⟨-, unglued⟩ := @ArrayText.decodes strictStrings _ v rfl rfl arrayText.weaken
    revert unglued
    decide

end RubyPg.Text
