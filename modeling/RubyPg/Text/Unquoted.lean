import RubyPg.Text.ArrayGrammar

/-!
# Array texts without quotes

What `write_array` writes with `needs_quotation` off, and when the decoder reads it as what it stands for:
exactly if no text in it has a character of the array syntax or spells `NULL`, and no array holds nothing
but one empty text. Behind the first quote inside a text the word that is read lags behind the text, and it
never gets past the delimiter or brace that ends the text.
-/

namespace RubyPg.Text
set_option autoImplicit false
open Ascii

/-- A value of texts, and what is written for it. -/
inductive Bare : Bytes → Value → Prop where
  | nil : Bare null .nil
  | text (s : Bytes) : Bare s (.str s)
  | empty : Bare [lbrace, rbrace] (.ary [])
  | array {elements : List (Bytes × Value)} (some : elements ≠ []) (bare : ∀ e ∈ elements, Bare e.1 e.2) :
      Bare (lbrace :: ([comma].intercalate (elements.map Prod.fst) ++ [rbrace])) (.ary (elements.map Prod.snd))

/-- The values of texts that can do without quotes. -/
inductive Clear : Value → Prop where
  | nil : Clear .nil
  | text {s : Bytes} (plain : ∀ c ∈ s, PlainChar comma c) (notNull : s ≠ null) : Clear (.str s)
  | array {vs : List Value} (filled : vs ≠ [.str []]) (clear : ∀ v ∈ vs, Clear v) : Clear (.ary vs)

theorem Bare.of_nil {v : Value} (bare : Bare [] v) : v = .str [] := by
  cases bare
  rfl

/-- Without quotes, clear values are array texts. -/
theorem Bare.denotes {text : Bytes} {v : Value} (bare : Bare text v) (clear : Clear v) : Denotes text v := by
  induction bare with
  | nil => exact .nil
  | text s =>
    cases clear with
    | text plain notNull => exact .run plain notNull
  | empty => exact .empty
  | @array elements some bare ih =>
    cases clear with
    | array filled clear =>
      have each : ∀ e ∈ elements, Denotes e.1 e.2 := fun e member =>
        ih e member (clear e.2 (List.mem_map_of_mem member))
      refine .array each fun empty => ?_
      have joined := joined_intercalate some bare
      rw [empty] at joined
      generalize elements.map Prod.snd = vs at joined filled
      generalize whole : ([] : Bytes) = body at joined
      cases joined with
      | single last =>
        subst whole
        exact filled (congrArg (fun v => [v]) last.of_nil)
      | cons first following => exact List.append_ne_nil_of_right_ne_nil _ (List.cons_ne_nil _ _) whole.symm

section Lag

variable {this : CompositeDecoder} {s : Bytes}

theorem endWord_prefix {st st' : ReadState} (ended : endWord this st = .ok st') : st.array <+: st'.array := by
  unfold endWord at ended
  split at ended
  · cases ended
    exact List.prefix_refl _
  · split at ended
    · cases ended
      exact List.prefix_append _ _
    · obtain ⟨val, -, pushed⟩ := Outcome.of_bind ended
      cases pushed
      exact List.prefix_append _ _

theorem premature_array {st : ReadState} {r : ReadResult} (returned : premature this st = .ok r) :
    r.array = st.array := by
  obtain ⟨-, -, same⟩ := Outcome.of_bind returned
  cases same
  rfl

/-- The loop only appends entries. -/
theorem Reading.array_prefix {st : ReadState} {out : Outcome ReadResult} (reading : Reading this s st out) :
    ∀ r, out = .ok r → st.array <+: r.array := by
  induction reading with
  | off here =>
    intro r returned
    exact premature_array returned ▸ List.prefix_refl _
  | raised => exact fun _ returned => nomatch returned
  | close here outside ended =>
    rintro r ⟨⟩
    exact endWord_prefix ended
  | delimiter here outside notRbrace ended next ih =>
    intro r returned
    exact ( endWord_prefix ended).trans (ih r returned)
  | subRaised => exact fun _ returned => nomatch returned
  | emptySub here outside free next ih =>
    intro r returned
    exact (List.prefix_append _ _).trans (ih r returned)
  | sub here outside free nonempty inner next ihInner ih =>
    intro r returned
    exact (List.prefix_append _ _).trans (ih r returned)
  | nul here outside free =>
    intro r returned
    exact premature_array returned ▸ List.prefix_refl _
  | _ =>
    rename_i ih
    exact ih

/-- What is pushed next stays where it is. -/
theorem getElem?_of_prefix {before after : List Value} {v : Value} (pushed : before ++ [v] <+: after) :
    after[before.length]? = some v := by
  obtain ⟨rest, rfl⟩ := pushed
  rw [List.append_assoc, List.getElem?_append_right (Nat.le_refl _), Nat.sub_self]
  rfl

/-- What the end of a word pushes: a text is the word. -/
theorem endWord_text {st st' : ReadState} (strings : this.elem = pgTextDecString) (literal : st.escapeNext = false)
    (ended : endWord this st = .ok st') {after : List Value} (grown : st'.array <+: after) {t : Bytes}
    (found : after[st.array.length]? = some (.str t)) : st.text = t ∧ ¬(st.openQuote = .never ∧ t = null) := by
  have pushed := endWord_pushes strings literal ended
  rw [pushed] at grown
  rw [ getElem?_of_prefix grown] at found
  split at found
  · cases found
  · rename_i spelled
    cases found
    exact ⟨rfl, spelled⟩

/-- Where a word stands: what escapes is between quotes. -/
def ReadState.InWord (st : ReadState) : Prop := st.escapeNext = true → st.openQuote = .inside

theorem ReadState.InWord.literal {st : ReadState} (inWord : st.InWord) (outside : st.openQuote ≠ .inside) :
    st.escapeNext = false := by
  by_contra escape
  rw [Bool.not_eq_false] at escape
  exact outside (inWord escape)

/-- The word that is read only grows until it is pushed. -/
theorem Reading.text_prefix (strings : this.elem = pgTextDecString) {st : ReadState} {out : Outcome ReadResult}
    (reading : Reading this s st out) : ∀ r t, out = .ok r → st.InWord → r.array[st.array.length]? = some (.str t) →
      st.text <+: t := by
  induction reading with
  | @off st here =>
    intro r t returned inWord found
    rw [premature_array returned, List.getElem?_length] at found
    cases found
  | raised => exact fun _ _ returned => nomatch returned
  | close here outside ended =>
    rintro r t ⟨⟩ inWord found
    exact (endWord_text strings (inWord.literal outside) ended (List.prefix_refl _) found).1 ▸ List.prefix_refl _
  | delimiter here outside notRbrace ended next ih =>
    intro r t returned inWord found
    exact (endWord_text strings (inWord.literal outside) ended (next.array_prefix r returned) found).1 ▸ List.prefix_refl _
  | subRaised => exact fun _ _ returned => nomatch returned
  | emptySub here outside free next ih =>
    intro r t returned inWord found
    rw [ getElem?_of_prefix (next.array_prefix r returned)] at found
    cases found
  | sub here outside free nonempty inner next ihInner ih =>
    intro r t returned inWord found
    rw [ getElem?_of_prefix (next.array_prefix r returned)] at found
    cases found
  | @nul st t here outside free =>
    intro r t returned inWord found
    rw [premature_array returned, List.getElem?_length] at found
    cases found
  | openQuotes here outside free next ih => exact fun r t returned inWord found => ih r t returned (fun _ => rfl) found
  | @char st c u out here outside plain next ih =>
    intro r t returned inWord found
    have longer := ih r t returned inWord found
    rw [ReadState.push_text] at longer
    exact (List.prefix_append _ _).trans longer
  | @escaped st c u out here inside escape next ih =>
    intro r t returned inWord found
    have longer := ih r t returned (fun _ => inside) found
    have text : (st.pushEscaped c).text = st.text ++ [c] := ReadState.push_text st c
    rw [text] at longer
    exact (List.prefix_append _ _).trans longer
  | backslash here inside literal next ih =>
    exact fun r t returned inWord found => ih r t returned (fun _ => inside) found
  | @closeQuotes st u out here inside literal next ih =>
    intro r t returned inWord found
    refine ih r t returned (fun escape => ?_) found
    exact absurd (literal.symm.trans escape) Bool.false_ne_true
  | @quoted st c u out here inside literal notBackslash notDquote next ih =>
    intro r t returned inWord found
    have longer := ih r t returned inWord found
    rw [ReadState.push_text] at longer
    exact (List.prefix_append _ _).trans longer

/-- What ends an entry. -/
def Ends (c : UInt8) : Prop := c = comma ∨ c = rbrace

theorem Ends.ne {c d : UInt8} (ends : Ends c) (other : d ≠ comma ∧ d ≠ rbrace) : c ≠ d := by
  rintro rfl
  exact ends.elim other.1 other.2

theorem PlainChar.ne_ends {c d : UInt8} (plain : PlainChar comma d) (ends : Ends c) : c ≠ d :=
  ends.ne ⟨plain.delimiter, plain.rbrace⟩

/-- Less of a text is in the word than was read of it, and yet the text is what is pushed. -/
structure Late (ends : UInt8) (read left : Bytes) (st : ReadState) (r : ReadResult) : Prop where
  inWord : st.InWord
  short : st.text.length < read.length
  absent : ends ∉ read
  found : r.array[st.array.length]? = some (.str (read ++ left))

section Late

variable {ends : UInt8} {read left : Bytes} {st : ReadState} {r : ReadResult}

/-- The word is not pushed here. -/
theorem Late.not_pushed (late : Late ends read left st r) (strings : this.elem = pgTextDecString) {st' : ReadState}
    (outside : st.openQuote ≠ .inside) (ended : endWord this st = .ok st') (grown : st'.array <+: r.array) : False := by
  have short := late.short
  rw [(endWord_text strings (late.inWord.literal outside) ended grown late.found).1, List.length_append] at short
  omega

/-- Nor is a sub-array. -/
theorem Late.not_sub (late : Late ends read left st r) {sub : ReadResult}
    (reading : Reading this s (st.pushSubarray sub) (.ok r)) : False := by
  have found := late.found
  rw [ getElem?_of_prefix (reading.array_prefix r rfl)] at found
  cases found

/-- Nor is the end of the string here. -/
theorem Late.not_premature (late : Late ends read left st r) (returned : premature this st = .ok r) : False := by
  have found := late.found
  rw [premature_array returned, List.getElem?_length] at found
  cases found

/-- The character that ends the text is not taken into the word: it would be in what was read. -/
theorem Late.not_taken (late : Late ends read left st r) (strings : this.elem = pgTextDecString) {next : ReadState}
    (text : next.text = st.text ++ [ends]) (array : next.array = st.array) (inWord : next.InWord)
    (reading : Reading this s next (.ok r)) : False := by
  have found := late.found
  rw [← array] at found
  obtain ⟨more, whole⟩ := reading.text_prefix strings r _ rfl inWord found
  have there : (read ++ left)[st.text.length]? = some ends := by
    rw [← whole, text, List.append_assoc, List.getElem?_append_right (Nat.le_refl _), Nat.sub_self]
    rfl
  rw [List.getElem?_append_left late.short] at there
  exact late.absent (List.mem_of_getElem? there)

/-- One more character was read. -/
theorem Late.next {c : UInt8} (late : Late ends read (c :: left) st r) (other : ends ≠ c) {next : ReadState}
    (inWord : next.InWord) (short : next.text.length ≤ st.text.length + 1) (array : next.array = st.array) :
    Late ends (read ++ [c]) left next r where
  inWord := inWord
  short := by
    have short' := late.short
    rw [List.length_append, List.length_singleton]
    omega
  absent := by
    rw [List.mem_append, List.mem_singleton, not_or]
    exact ⟨late.absent, other⟩
  found := by
    rw [array, List.append_assoc, List.singleton_append]
    exact late.found

theorem length_push {st : ReadState} (c : UInt8) : (st.push c).text.length = st.text.length + 1 := by
  rw [ReadState.push_text, List.length_append, List.length_singleton]

/-- A late word goes on with the next character, which does not end the text. -/
theorem Late.step (late : Late ends read left st r) (delimiter : this.delimiter = comma)
    (strings : this.elem = pgTextDecString) (isEnd : Ends ends) {c : UInt8} {t : Bytes} (here : Rest s st.index (c :: t))
    (reading : Reading this s st (.ok r)) :
    ends ≠ c ∧ ∃ next, Reading this s next (.ok r) ∧ Rest s next.index t ∧ next.InWord ∧
      next.text.length ≤ st.text.length + 1 ∧ next.array = st.array := by
  generalize returned : (.ok r : Outcome ReadResult) = out at reading
  cases reading with
  | off => exact (late.not_premature returned.symm).elim
  | raised => cases returned
  | close there outside ended =>
    cases returned
    exact (late.not_pushed strings outside ended (List.prefix_refl _)).elim
  | delimiter there outside notRbrace ended next =>
    exact (late.not_pushed strings outside ended (next.array_prefix r returned.symm)).elim
  | openQuotes there outside free next =>
    subst returned
    obtain ⟨rfl, -⟩ := here.head_eq there
    exact ⟨isEnd.ne (by decide), _, next, here.next, fun _ => rfl, Nat.le_succ _, rfl⟩
  | emptySub there outside free next =>
    subst returned
    exact (late.not_sub next).elim
  | subRaised => cases returned
  | sub there outside free nonempty inner next =>
    subst returned
    exact (late.not_sub next).elim
  | nul => exact (late.not_premature returned.symm).elim
  | char there outside plain next =>
    subst returned
    obtain ⟨rfl, -⟩ := here.head_eq there
    rw [delimiter] at plain
    exact ⟨plain.ne_ends isEnd, _, next, here.next, late.inWord, (length_push c).le, rfl⟩
  | escaped there inside escape next =>
    subst returned
    obtain ⟨rfl, -⟩ := here.head_eq there
    have text : (st.pushEscaped c).text = st.text ++ [c] := ReadState.push_text st c
    refine ⟨?_, _, next, here.next, fun _ => inside, (length_push c).le, rfl⟩
    rintro rfl
    exact late.not_taken strings text rfl (fun _ => inside) next
  | backslash there inside literal next =>
    subst returned
    obtain ⟨rfl, -⟩ := here.head_eq there
    exact ⟨isEnd.ne (by decide), _, next, here.next, fun _ => inside, Nat.le_succ _, rfl⟩
  | closeQuotes there inside literal next =>
    subst returned
    obtain ⟨rfl, -⟩ := here.head_eq there
    have inWord : st.closeQuotes.InWord := fun escape => absurd (literal.symm.trans escape) Bool.false_ne_true
    exact ⟨isEnd.ne (by decide), _, next, here.next, inWord, Nat.le_succ _, rfl⟩
  | quoted there inside literal notBackslash notDquote next =>
    subst returned
    obtain ⟨rfl, -⟩ := here.head_eq there
    refine ⟨?_, _, next, here.next, fun _ => inside, (length_push c).le, rfl⟩
    rintro rfl
    exact late.not_taken strings (ReadState.push_text st _) rfl (fun _ => inside) next

/-- A word that is late never becomes the text. -/
theorem Late.false (late : Late ends read left st r) (delimiter : this.delimiter = comma)
    (strings : this.elem = pgTextDecString) (isEnd : Ends ends) {rest : Bytes}
    (here : Rest s st.index (left ++ ends :: rest)) (reading : Reading this s st (.ok r)) : False := by
  induction left generalizing st read with
  | nil => exact (late.step delimiter strings isEnd here reading).1 rfl
  | cons d left ih =>
    obtain ⟨other, next, later, behind, inWord, short, array⟩ := late.step delimiter strings isEnd here reading
    exact ih (late.next other inWord short array) behind later

end Late

/-- What happens at a character outside quotes in an entry that becomes a text. -/
inductive TextStep (this : CompositeDecoder) (s : Bytes) (st : ReadState) (r : ReadResult) : UInt8 → Prop where
  | ends {c : UInt8} {st' : ReadState} (ended : endWord this st = .ok st') (grown : st'.array <+: r.array) :
      TextStep this s st r c
  | quote (next : Reading this s st.openQuotes (.ok r)) : TextStep this s st r dquote
  | char {c : UInt8} (plain : PlainChar this.delimiter c) (next : Reading this s (st.push c) (.ok r)) :
      TextStep this s st r c

theorem Reading.textStep {st : ReadState} {r : ReadResult} (reading : Reading this s st (.ok r)) {c : UInt8} {t text : Bytes}
    (here : Rest s st.index (c :: t)) (outside : st.openQuote ≠ .inside)
    (found : r.array[st.array.length]? = some (.str text)) : TextStep this s st r c := by
  have early : premature this st ≠ .ok r := by
    intro returned
    rw [premature_array returned, List.getElem?_length] at found
    cases found
  have notSub : ∀ sub, ¬Reading this s (st.pushSubarray sub) (.ok r) := by
    intro sub next
    rw [ getElem?_of_prefix (next.array_prefix r rfl)] at found
    cases found
  generalize returned : (.ok r : Outcome ReadResult) = out at reading
  cases reading with
  | off => exact absurd returned.symm early
  | raised => cases returned
  | close there _ ended =>
    cases returned
    exact .ends ended (List.prefix_refl _)
  | delimiter there _ notRbrace ended next => exact .ends ended (next.array_prefix r returned.symm)
  | openQuotes there _ free next =>
    subst returned
    obtain ⟨rfl, -⟩ := here.head_eq there
    exact .quote next
  | emptySub there _ free next =>
    subst returned
    exact absurd next (notSub _)
  | subRaised => cases returned
  | sub there _ free nonempty inner next =>
    subst returned
    exact absurd next (notSub _)
  | nul => exact absurd returned.symm early
  | char there _ plain next =>
    subst returned
    obtain ⟨rfl, -⟩ := here.head_eq there
    exact .char plain next
  | escaped there inside => exact absurd inside outside
  | backslash there inside => exact absurd inside outside
  | closeQuotes there inside => exact absurd inside outside
  | quoted there inside => exact absurd inside outside

/-- The characters of a text that is pushed are plain, and it is not `NULL`. -/
theorem Reading.plain_of_pushed (delimiter : this.delimiter = comma) (strings : this.elem = pgTextDecString)
    {ends : UInt8} (isEnd : Ends ends) {left rest : Bytes} {st : ReadState} {r : ReadResult}
    (reading : Reading this s st (.ok r)) (here : Rest s st.index (left ++ ends :: rest))
    (never : st.openQuote = .never) (literal : st.escapeNext = false) (plain : ∀ c ∈ st.text, PlainChar comma c)
    (found : r.array[st.array.length]? = some (.str (st.text ++ left))) :
    (∀ c ∈ left, PlainChar comma c) ∧ st.text ++ left ≠ null := by
  have outside : st.openQuote ≠ .inside := never ▸ OpenQuote.noConfusion
  induction left generalizing st with
  | nil =>
    refine ⟨fun c member => absurd member List.not_mem_nil, fun spelled => ?_⟩
    generalize same : ends = c at here
    cases reading.textStep here outside found with
    | ends ended grown => exact (endWord_text strings literal ended grown found).2 ⟨never, spelled⟩
    | quote next => exact absurd same (isEnd.ne (by decide))
    | char plain' next =>
      rw [delimiter] at plain'
      exact plain'.ne_ends isEnd same
  | cons d left ih =>
    have here : Rest s st.index (d :: (left ++ ends :: rest)) := here
    cases reading.textStep here outside found with
    | ends ended grown =>
      have text := (endWord_text strings literal ended grown found).1
      exact absurd text (List.self_eq_append_right.not.2 (List.cons_ne_nil d left))
    | quote next =>
      have late : Late ends (st.text ++ [dquote]) left st.openQuotes r := by
        refine ⟨fun _ => rfl, ?_, ?_, ?_⟩
        · rw [List.length_append]
          exact Nat.lt_succ_self _
        · rw [List.mem_append, List.mem_singleton, not_or]
          exact ⟨fun member => (plain _ member).ne_ends isEnd rfl, isEnd.ne (by decide)⟩
        · rw [List.append_assoc]
          exact found
      exact (late.false delimiter strings isEnd here.next next).elim
    | char plain' next =>
      rw [delimiter] at plain'
      have text : (st.push d).text = st.text ++ [d] := ReadState.push_text st d
      have whole : (st.push d).text ++ left = st.text ++ d :: left := by
        rw [text, List.append_assoc]
        rfl
      have later := @ih (st.push d) next here.next never literal ?_ (by rw [whole]; exact found) outside
      · rw [whole] at later
        refine ⟨fun c member => ?_, later.2⟩
        rcases List.mem_cons.1 member with rfl | behind
        · exact plain'
        · exact later.1 c behind
      · intro c member
        rw [text, List.mem_append, List.mem_singleton] at member
        rcases member with before | rfl
        · exact plain c before
        · exact plain'

/-- Plain characters are taken one by one. -/
theorem Reading.run_plain (delimiter : this.delimiter = comma) {left rest : Bytes} {st : ReadState} {r : ReadResult}
    (reading : Reading this s st (.ok r)) (here : Rest s st.index (left ++ rest)) (never : st.openQuote = .never)
    (plain : ∀ c ∈ left, PlainChar comma c) :
    ∃ st' : ReadState, Reading this s st' (.ok r) ∧ Rest s st'.index rest ∧ st'.text = st.text ++ left ∧
      st'.openQuote = .never ∧ st'.escapeNext = st.escapeNext ∧ st'.array = st.array := by
  have outside : st.openQuote ≠ .inside := never ▸ OpenQuote.noConfusion
  induction left generalizing st with
  | nil => exact ⟨st, reading, here, (List.append_nil _).symm, never, rfl, rfl⟩
  | cons d left ih =>
    have here : Rest s st.index (d :: (left ++ rest)) := here
    have plain' := plain d List.mem_cons_self
    have special : ∀ {c : UInt8} {t : Bytes}, Rest s st.index (c :: t) → d ≠ c → False :=
      fun there other => other (here.head_eq there).1
    have next : Reading this s (st.push d) (.ok r) := by
      generalize returned : (.ok r : Outcome ReadResult) = out at reading ⊢
      cases reading with
      | off there => exact absurd here.lt (Nat.not_lt_of_le there)
      | raised => cases returned
      | close there => exact (special there plain'.rbrace).elim
      | delimiter there => exact (special there (delimiter ▸ plain'.delimiter)).elim
      | openQuotes there => exact (special there plain'.dquote).elim
      | emptySub there => exact (special there plain'.lbrace).elim
      | subRaised => cases returned
      | sub there => exact (special there plain'.lbrace).elim
      | nul there => exact (special there plain'.nul).elim
      | char there _ _ next =>
        obtain ⟨rfl, -⟩ := here.head_eq there
        exact next
      | escaped there inside => exact absurd inside outside
      | backslash there inside => exact absurd inside outside
      | closeQuotes there inside => exact absurd inside outside
      | quoted there inside => exact absurd inside outside
    obtain ⟨st', reading', rest', text, never', escape, array⟩ :=
      @ih (st.push d) next here.next never (fun c member => plain c (List.mem_cons_of_mem _ member)) outside
    refine ⟨st', reading', rest', ?_, never', escape, array⟩
    rw [text, ReadState.push_text, List.append_assoc]
    rfl

/-- If `v` is the next entry that is pushed, the text is read up to the character that ends it, and nothing
in it needs quotes. -/
def Aligned (this : CompositeDecoder) (text : Bytes) (v : Value) : Prop :=
  ∀ (s : Bytes) (st : ReadState) (r : ReadResult) (ends : UInt8) (rest : Bytes), Reading this s st (.ok r) → st.Fresh →
    Rest s st.index (text ++ ends :: rest) → Ends ends → r.array[st.array.length]? = some v →
    Clear v ∧ ∃ st' : ReadState, Reading this s st' (.ok r) ∧ Rest s st'.index (ends :: rest) ∧ st'.Ready this st.array v

/-- The end of an entry that is ready. -/
theorem Reading.ready {before : List Value} {v : Value} {st : ReadState} {r : ReadResult} {ends : UInt8} {rest : Bytes}
    (delimiter : this.delimiter = comma) (reading : Reading this s st (.ok r)) (here : Rest s st.index (ends :: rest))
    (isEnd : Ends ends) (ready : st.Ready this before v) :
    (ends = rbrace ∧ r.array = before ++ [v] ∧ r.index = st.index) ∨
      ends = comma ∧ ∃ next : ReadState, Reading this s next (.ok r) ∧ next.Fresh ∧ next.array = before ++ [v] ∧
        next.index = st.index + 1 := by
  obtain ⟨outside, word, ended⟩ := ready
  have special : ∀ {c : UInt8} {t : Bytes}, Rest s st.index (c :: t) → c ≠ comma ∧ c ≠ rbrace → False :=
    fun there other => isEnd.ne other (here.head_eq there).1
  generalize returned : (.ok r : Outcome ReadResult) = out at reading
  cases reading with
  | off there => exact absurd here.lt (Nat.not_lt_of_le there)
  | raised => cases returned
  | close there _ ended' =>
    cases returned
    cases ended.symm.trans ended'
    exact .inl ⟨(here.head_eq there).1, rfl, rfl⟩
  | delimiter there _ notRbrace ended' next =>
    subst returned
    cases ended.symm.trans ended'
    exact .inr ⟨(here.head_eq there).1.trans delimiter, _, next, ⟨rfl, rfl, rfl⟩, rfl, rfl⟩
  | openQuotes there => exact (special there (by decide)).elim
  | emptySub there => exact (special there (by decide)).elim
  | subRaised => cases returned
  | sub there => exact (special there (by decide)).elim
  | nul there => exact (special there (by decide)).elim
  | char there _ plain =>
    rw [delimiter] at plain
    exact (special there ⟨plain.delimiter, plain.rbrace⟩).elim
  | escaped there inside => exact absurd inside outside
  | backslash there inside => exact absurd inside outside
  | closeQuotes there inside => exact absurd inside outside
  | quoted there inside => exact absurd inside outside

theorem aligned_text (delimiter : this.delimiter = comma) (strings : this.elem = pgTextDecString) (text : Bytes) :
    Aligned this text (.str text) := by
  intro s st r ends rest reading fresh here isEnd found
  have empty := fresh.text
  have found' : r.array[st.array.length]? = some (.str (st.text ++ text)) := by
    rw [empty]
    exact found
  obtain ⟨plain, notNull⟩ := reading.plain_of_pushed delimiter strings isEnd here fresh.openQuote fresh.escapeNext
    (by rw [empty]; exact fun c member => absurd member List.not_mem_nil) found'
  rw [empty] at notNull
  obtain ⟨st', reading', rest', text', never, escape, array⟩ := reading.run_plain delimiter here fresh.openQuote plain
  rw [empty] at text'
  have outside : st'.openQuote ≠ .inside := never ▸ OpenQuote.noConfusion
  refine ⟨.text plain notNull, st', reading', rest', outside, ?_⟩
  rw [← array]
  exact endWord_word (escape.trans fresh.escapeNext) text' (fun _ => notNull) (by rw [strings]; rfl)

theorem aligned_null (delimiter : this.delimiter = comma) : Aligned this null .nil := by
  intro s st r ends rest reading fresh here isEnd found
  have plain : ∀ c ∈ null, PlainChar comma c := by
    intro c member
    simp only [List.mem_cons, List.not_mem_nil, or_false] at member
    rcases member with rfl | rfl | rfl | rfl <;> exact ⟨by decide, by decide, by decide, by decide, by decide⟩
  obtain ⟨st', reading', rest', text, never, escape, array⟩ := reading.run_plain delimiter here fresh.openQuote plain
  rw [fresh.text] at text
  have outside : st'.openQuote ≠ .inside := never ▸ OpenQuote.noConfusion
  have length : st'.text.length = st'.wordIndex := by simp [ReadState.text]
  refine ⟨.nil, st', reading', rest', outside, st'.word, ?_⟩
  rw [endWord, escape, fresh.escapeNext, if_neg Bool.false_ne_true, if_pos ⟨never, by rw [← length, text]; rfl, text⟩,
    array]
  rfl

/-- The entries of an array, up to its closing brace. -/
theorem aligned_entries (delimiter : this.delimiter = comma) {body : Bytes} {vs : List Value}
    (joined : Joined (Aligned this) body vs) {st : ReadState} {r : ReadResult} {rest : Bytes}
    (reading : Reading this s st (.ok r)) (fresh : st.Fresh) (here : Rest s st.index (body ++ rbrace :: rest))
    (array : r.array = st.array ++ vs) : (∀ v ∈ vs, Clear v) ∧ Rest s r.index (rbrace :: rest) := by
  induction joined generalizing st with
  | @single text v last =>
    have found : r.array[st.array.length]? = some v := getElem?_of_prefix (array ▸ List.prefix_refl _)
    obtain ⟨clear, st', reading', there, ready⟩ := last s st r rbrace rest reading fresh here (.inr rfl) found
    refine ⟨fun w member => List.mem_singleton.1 member ▸ clear, ?_⟩
    rcases reading'.ready delimiter there (.inr rfl) ready with ⟨-, -, index⟩ | ⟨comma, -⟩
    · rw [index]
      exact there
    · exact absurd comma (by decide)
  | @cons text body v vs first following ih =>
    have found : r.array[st.array.length]? = some v := by
      apply getElem?_of_prefix
      rw [array]
      exact ⟨vs, List.append_assoc _ _ _⟩
    have here' : Rest s st.index (text ++ comma :: (body ++ rbrace :: rest)) := by
      rw [List.append_assoc] at here
      exact here
    obtain ⟨clear, st', reading', there, ready⟩ := first s st r comma _ reading fresh here' (.inl rfl) found
    rcases reading'.ready delimiter there (.inl rfl) ready with ⟨brace, -⟩ | ⟨-, next, reading'', fresh', array', index⟩
    · exact absurd brace (by decide)
    · have behind : Rest s next.index (body ++ rbrace :: rest) := by
        rw [index]
        exact there.next
      obtain ⟨others, closing⟩ := ih reading'' fresh' behind (by rw [array, array', List.append_assoc]; rfl)
      refine ⟨fun w member => ?_, closing⟩
      rcases List.mem_cons.1 member with rfl | later
      · exact clear
      · exact others w later

/-- What is read for a sub-array. -/
theorem Reading.subarray {st : ReadState} {r : ReadResult} {t : Bytes} (delimiter : this.delimiter = comma)
    (reading : Reading this s st (.ok r)) (here : Rest s st.index (lbrace :: t)) (outside : st.openQuote ≠ .inside) :
    ∃ sub : ReadResult, Reading this s (st.pushSubarray sub) (.ok r) ∧
      ((∃ u, t = rbrace :: u ∧ sub.array = [] ∧ sub.index = st.index + 1) ∨
        (∀ u, t ≠ rbrace :: u) ∧ Reading this s st.enter (.ok sub)) := by
  have special : ∀ {c : UInt8} {u : Bytes}, Rest s st.index (c :: u) → lbrace ≠ c → False :=
    fun there other => other (here.head_eq there).1
  generalize returned : (.ok r : Outcome ReadResult) = out at reading
  cases reading with
  | off there => exact absurd here.lt (Nat.not_lt_of_le there)
  | raised => cases returned
  | close there => exact (special there (by decide)).elim
  | delimiter there => exact (special there (by rw [delimiter]; decide)).elim
  | openQuotes there => exact (special there (by decide)).elim
  | emptySub there _ free next =>
    subst returned
    exact ⟨_, next, .inl ⟨_, (here.head_eq there).2, rfl, rfl⟩⟩
  | subRaised => cases returned
  | sub there _ free nonempty inner next =>
    subst returned
    obtain ⟨-, rfl⟩ := here.head_eq there
    exact ⟨_, next, .inr ⟨nonempty, inner⟩⟩
  | nul there => exact (special there (by decide)).elim
  | char there _ plain =>
    obtain ⟨rfl, -⟩ := here.head_eq there
    exact absurd rfl plain.lbrace
  | escaped there inside => exact absurd inside outside
  | backslash there inside => exact absurd inside outside
  | closeQuotes there inside => exact absurd inside outside
  | quoted there inside => exact absurd inside outside

/-- The text between the braces that stand for `[]` is not a text of `vs`. -/
theorem joined_bare_head {body : Bytes} {vs : List Value} (joined : Joined Bare body vs) (nonempty : body ≠ []) :
    vs ≠ [.str []] := by
  rintro rfl
  cases joined with
  | single last =>
    cases last
    exact nonempty rfl
  | cons first following => cases following

theorem aligned_array (delimiter : this.delimiter = comma) {body : Bytes} {vs : List Value}
    (bare : Joined Bare body vs) (joined : Joined (Aligned this) body vs) :
    Aligned this (lbrace :: (body ++ [rbrace])) (.ary vs) := by
  intro s st r ends rest reading fresh here isEnd found
  have outside : st.openQuote ≠ .inside := by simp [fresh.openQuote]
  have here' : Rest s st.index (lbrace :: (body ++ rbrace :: (ends :: rest))) := by
    rw [List.cons_append, List.append_assoc] at here
    exact here
  obtain ⟨sub, next, read⟩ := reading.subarray delimiter here' outside
  have array : sub.array = vs := by
    rw [ getElem?_of_prefix (next.array_prefix r rfl)] at found
    cases found
    rfl
  rcases read with ⟨u, -, empty, -⟩ | ⟨nonempty, inner⟩
  · rw [empty] at array
    subst array
    cases bare
  · have entries := aligned_entries delimiter joined inner ⟨rfl, rfl, rfl⟩ here'.next array
    refine ⟨.array (joined_bare_head bare ?_) entries.1, st.pushSubarray sub, next, entries.2.next, outside, sub.word, ?_⟩
    · rintro rfl
      exact nonempty _ rfl
    · rw [← array]
      rfl

theorem aligned_empty (delimiter : this.delimiter = comma) : Aligned this [lbrace, rbrace] (.ary []) := by
  intro s st r ends rest reading fresh here isEnd found
  have outside : st.openQuote ≠ .inside := by simp [fresh.openQuote]
  obtain ⟨sub, next, read⟩ := reading.subarray delimiter here outside
  rcases read with ⟨u, same, empty, index⟩ | ⟨nonempty, inner⟩
  · have clear : Clear (.ary []) := .array (List.cons_ne_nil _ _).symm fun v member => absurd member List.not_mem_nil
    refine ⟨clear, st.pushSubarray sub, next, ?_, outside, sub.word, ?_⟩
    · show Rest s (sub.index + 1) (ends :: rest)
      rw [index]
      exact here.next.next
    · have pushed : (st.pushSubarray sub).array = st.array ++ [.ary []] :=
        congrArg (fun array => st.array ++ [.ary array]) empty
      rw [← pushed]
      rfl
  · exact absurd rfl (nonempty _)

theorem Bare.aligned (delimiter : this.delimiter = comma) (strings : this.elem = pgTextDecString) {text : Bytes}
    {v : Value} (bare : Bare text v) : Aligned this text v := by
  induction bare with
  | nil => exact aligned_null delimiter
  | text s => exact aligned_text delimiter strings s
  | empty => exact aligned_empty delimiter
  | @array elements some bare ih =>
    exact aligned_array delimiter (joined_intercalate some bare) (joined_intercalate some ih)

/-- The body of a text that the decoder takes as a whole. -/
theorem readBody_of_decoded {body : Bytes} {vs : List Value}
    (decoded : pgTextDecArray this (lbrace :: (body ++ [rbrace])) = .ok (.ary vs)) :
    ∃ r, readBody this (lbrace :: (body ++ [rbrace])) 1 = .ok r ∧ r.array = vs := by
  generalize whole : lbrace :: (body ++ [rbrace]) = s at decoded
  have start : Rest s 0 (lbrace :: (body ++ [rbrace])) := by rw [← whole]; exact .zero _
  have dims : skipDims this s (s.length + 1) 0 0 = .ok (0, 0) := by
    rw [skipDims, start.skipWhile_eq (t := []) (fun c member => absurd member List.not_mem_nil)
      fun d v same => (List.cons.inj same).1 ▸ rfl, List.length_nil, start.getD]
    rfl
  obtain ⟨items, skipped, decoded⟩ := Outcome.of_bind decoded
  cases dims.symm.trans skipped
  obtain ⟨index, assigned, decoded⟩ := Outcome.of_bind decoded
  cases assigned
  obtain ⟨-, -, decoded⟩ := Outcome.of_bind decoded
  obtain ⟨r, read, decoded⟩ := Outcome.of_bind decoded
  obtain ⟨-, -, decoded⟩ := Outcome.of_bind decoded
  obtain ⟨-, -, decoded⟩ := Outcome.of_bind decoded
  cases decoded
  exact ⟨r, read, rfl⟩

/-- **An array text without quotes is read as the values it stands for exactly if they are clear.** -/
theorem Bare.decodes_iff (delimiter : this.delimiter = comma) (strings : this.elem = pgTextDecString) {text : Bytes}
    {vs : List Value} (bare : Bare text (.ary vs)) : pgTextDecArray this text = .ok (.ary vs) ↔ Clear (.ary vs) := by
  constructor
  · intro decoded
    cases bare with
    | empty => exact .array (List.cons_ne_nil _ _).symm fun v member => absurd member List.not_mem_nil
    | @array elements some bare =>
      have joined := joined_intercalate some bare
      have aligned := joined_intercalate some fun e member => (bare e member).aligned delimiter strings
      generalize [comma].intercalate (elements.map Prod.fst) = body at joined aligned decoded
      generalize elements.map Prod.snd = vs at joined aligned decoded
      obtain ⟨r, read, array⟩ := readBody_of_decoded decoded
      have start : Rest (lbrace :: (body ++ [rbrace])) 1 (body ++ rbrace :: []) := rfl
      rcases readBody_cases this (lbrace :: (body ++ [rbrace])) 1 with ⟨-, word, empty⟩ | ⟨nonempty, reading⟩
      · rw [empty] at read
        cases read
        subst array
        cases joined
      · rw [read] at reading
        have entries := aligned_entries delimiter aligned reading ⟨rfl, rfl, rfl⟩ start array
        refine .array (joined_bare_head joined ?_) entries.1
        rintro rfl
        exact nonempty [] start
  · intro clear
    have whole : ArrayText Blank ([] ++ (text ++ [])) (.ary vs) :=
      .bare (fun c member => absurd member List.not_mem_nil) (bare.denotes clear)
        fun c member => absurd member List.not_mem_nil
    rw [List.nil_append, List.append_nil] at whole
    exact (whole.decodes delimiter strings).1

end Lag

mutual

/-- An array with each leaf replaced by the text of its encoding. -/
def echo (elem : Encoder) : Value → Outcome Value
  | .nil => pure .nil
  | .ary entries => do pure (.ary (← echoes elem entries))
  | value => do pure (.str (← elem.encode value))

/-- All entries of an array. -/
def echoes (elem : Encoder) : List Value → Outcome (List Value)
  | [] => pure []
  | entry :: rest => do
    let first ← echo elem entry
    let following ← echoes elem rest
    pure (first :: following)

end

/-- An array encoder as it writes without quotes, at any depth and with commas. -/
structure Unquoted (this : CompositeCoder) : Prop where
  quotation : this.needsQuotation = false
  dimensions : this.dimensions < 0
  delimiter : this.delimiter = comma

section Writes

variable {this : CompositeCoder}

theorem Unquoted.not_fixed (unquoted : Unquoted this) {dimension : Int} :
    (decide (0 ≤ this.dimensions) && dimension != this.dimensions) = false := by
  have unset := unquoted.dimensions
  rw [decide_eq_false (by omega), Bool.false_and]

theorem Unquoted.writeElement (unquoted : Unquoted this) {entry : Value} {dimension : Int} :
    writeElement this entry dimension = this.elem.encode entry := by
  rw [Text.writeElement, unquoted.not_fixed, if_neg Bool.false_ne_true, quoteString, unquoted.quotation]
  cases this.elem.encode entry with
  | error stop => rfl
  | ok text => rfl

mutual

/-- What is written for an array is the bare text of its echo. -/
theorem Unquoted.writeArray (unquoted : Unquoted this) {entries : List Value} {dimension : Int} {text : Bytes}
    (written : writeArray this entries dimension = .ok text) :
    ∃ vs, echoes this.elem entries = .ok vs ∧ Bare text (.ary vs) := by
  unfold Text.writeArray at written
  rw [Bool.and_assoc, unquoted.not_fixed, Bool.and_false, if_neg Bool.false_ne_true] at written
  obtain ⟨body, entriesWritten, same⟩ := Outcome.of_bind written
  cases same
  rcases unquoted.writeEntries entriesWritten with ⟨rfl, rfl⟩ | ⟨vs, echoed, joined⟩
  · exact ⟨[], rfl, .empty⟩
  · obtain ⟨elements, bare, some, rfl, rfl⟩ := joined.elements
    exact ⟨_, echoed, .array some bare⟩

theorem Unquoted.writeEntries (unquoted : Unquoted this) {entries : List Value} {dimension : Int} {body : Bytes}
    (written : writeEntries this entries dimension = .ok body) :
    (entries = [] ∧ body = []) ∨ ∃ vs, echoes this.elem entries = .ok vs ∧ Joined Bare body vs := by
  match entries with
  | [] =>
    unfold Text.writeEntries at written
    cases written
    exact .inl ⟨rfl, rfl⟩
  | [entry] =>
    unfold Text.writeEntries at written
    obtain ⟨v, echoed, bare⟩ := unquoted.writeEntry written
    refine .inr ⟨[v], ?_, .single bare⟩
    unfold echoes
    rw [echoed]
    rfl
  | entry :: next :: rest =>
    unfold Text.writeEntries at written
    obtain ⟨text, first, written⟩ := Outcome.of_bind written
    obtain ⟨body', following, same⟩ := Outcome.of_bind written
    cases same
    obtain ⟨v, echoed, bare⟩ := unquoted.writeEntry first
    rcases unquoted.writeEntries following with ⟨none, -⟩ | ⟨vs, echoes', joined⟩
    · cases none
    · refine .inr ⟨v :: vs, ?_, ?_⟩
      · unfold echoes
        rw [echoed, echoes']
        rfl
      · rw [unquoted.delimiter]
        exact .cons bare joined

theorem Unquoted.writeEntry (unquoted : Unquoted this) {entry : Value} {dimension : Int} {text : Bytes}
    (written : writeEntry this entry dimension = .ok text) :
    ∃ v, echo this.elem entry = .ok v ∧ Bare text v := by
  have leaf : ∀ {value : Value}, Text.writeElement this value dimension = .ok text →
      (do pure (Value.str (← this.elem.encode value))) = Except.ok (.str text) := by
    intro value written
    rw [unquoted.writeElement] at written
    rw [written]
    rfl
  match entry with
  | .nil =>
    unfold Text.writeEntry at written
    rw [unquoted.not_fixed, if_neg Bool.false_ne_true] at written
    cases written
    exact ⟨.nil, by unfold echo; rfl, .nil⟩
  | .ary sub =>
    unfold Text.writeEntry at written
    have nested : (decide (this.dimensions < 0) || decide (dimension < this.dimensions)) = true := by
      rw [decide_eq_true unquoted.dimensions, Bool.true_or]
    rw [if_pos nested] at written
    obtain ⟨vs, echoed, bare⟩ := unquoted.writeArray written
    refine ⟨.ary vs, ?_, bare⟩
    unfold echo
    rw [echoed]
    rfl
  | .true | .false | .int _ | .float _ | .str _ | .time _ _ _ | .date _ _ _ | .obj _ =>
    unfold Text.writeEntry at written
    refine ⟨.str text, ?_, .text text⟩
    unfold echo
    exact leaf written

end

end Writes

/-- **Without quotes an array is decoded as the texts of its leaves exactly if they are clear.** -/
theorem unquoted_decodes_iff {this : CompositeCoder} (unquoted : Unquoted this) {dec : CompositeDecoder}
    (delimiter : dec.delimiter = comma) (strings : dec.elem = pgTextDecString) {entries : List Value} {text : Bytes}
    (written : writeArray this entries 1 = .ok text) :
    pgTextDecArray dec text = echo this.elem (.ary entries) ↔
      ∀ v, echo this.elem (.ary entries) = .ok v → Clear v := by
  obtain ⟨vs, echoed, bare⟩ := unquoted.writeArray written
  have whole : echo this.elem (.ary entries) = .ok (.ary vs) := by
    unfold echo
    rw [echoed]
    rfl
  rw [whole, bare.decodes_iff delimiter strings]
  constructor
  · rintro clear v ⟨⟩
    exact clear
  · exact fun clear => clear _ rfl

end RubyPg.Text
