import RubyPg.Text.ArrayScan

/-!
# The grammar of array texts

`Denotes` is the grammar of an element of an array text together with its value, and
`ArrayText` that of a whole text: whitespace, dimension items in front of `=`, an array.
What may stand between the last item and `=` is a parameter. The decoder reads every such
text as the value it denotes (`ArrayText.decodes`), and its scan is not glued
(`ArrayText.unglued`). The elements are strings and the delimiter is a comma throughout.
-/

namespace RubyPg.Text
set_option autoImplicit false
open Ascii

/-- An element of an array text and its value: `NULL`, a possibly empty run of characters, a
quoted text, or an array. The empty body of an array is no empty run. -/
inductive Denotes : Bytes → Value → Prop where
  | nil : Denotes null .nil
  | run {word : Bytes} (plain : ∀ c ∈ word, PlainChar comma c) (notNull : word ≠ null) : Denotes word (.str word)
  | quoted {text word : Bytes} (body : Quoted text word) : Denotes (dquote :: (text ++ [dquote])) (.str word)
  | empty : Denotes [lbrace, rbrace] (.ary [])
  | array {elements : List (Bytes × Value)} (denotes : ∀ e ∈ elements, Denotes e.1 e.2)
      (nonempty : [comma].intercalate (elements.map Prod.fst) ≠ []) :
      Denotes (lbrace :: ([comma].intercalate (elements.map Prod.fst) ++ [rbrace])) (.ary (elements.map Prod.snd))

/-- Whitespace. -/
def Blank (text : Bytes) : Prop := ∀ c ∈ text, arrayIsspace c = true

/-- Dimension items with whitespace between them, and `gap` behind the last one. -/
inductive Dims (gap : Bytes → Prop) : Bytes → Prop where
  | last {digits space : Bytes} (isdim : ∀ c ∈ digits, arrayIsdim c = true) (ends : gap space) :
      Dims gap (lbracket :: (digits ++ rbracket :: space))
  | more {digits space rest : Bytes} (isdim : ∀ c ∈ digits, arrayIsdim c = true) (blank : Blank space)
      (following : Dims gap rest) : Dims gap (lbracket :: (digits ++ rbracket :: (space ++ rest)))

/-- A whole array text and its value. -/
inductive ArrayText (gap : Bytes → Prop) : Bytes → Value → Prop where
  | bare {before text behind : Bytes} {vs : List Value} (leads : Blank before) (array : Denotes text (.ary vs))
      (ends : Blank behind) : ArrayText gap (before ++ (text ++ behind)) (.ary vs)
  | dims {before items between text behind : Bytes} {vs : List Value} (leads : Blank before) (dims : Dims gap items)
      (blank : Blank between) (array : Denotes text (.ary vs)) (ends : Blank behind) :
      ArrayText gap (before ++ (items ++ equals :: (between ++ (text ++ behind)))) (.ary vs)

/-- The elements of an array, from the first one to the closing brace. -/
inductive Joined (P : Bytes → Value → Prop) : Bytes → List Value → Prop where
  | single {text : Bytes} {v : Value} (last : P text v) : Joined P text [v]
  | cons {text body : Bytes} {v : Value} {vs : List Value} (first : P text v) (following : Joined P body vs) :
      Joined P (text ++ comma :: body) (v :: vs)

section Joined

variable {P : Bytes → Value → Prop}

theorem joined_intercalate {elements : List (Bytes × Value)} (some : elements ≠ []) (holds : ∀ e ∈ elements, P e.1 e.2) :
    Joined P ([comma].intercalate (elements.map Prod.fst)) (elements.map Prod.snd) := by
  induction elements with
  | nil => exact absurd rfl some
  | cons e elements ih =>
    have first := holds e List.mem_cons_self
    cases elements with
    | nil => simpa [List.intercalate] using Joined.single first
    | cons e' elements =>
      have following := ih (by simp) fun e member => holds e (List.mem_cons_of_mem _ member)
      simpa [List.intercalate] using Joined.cons first following

theorem Joined.imp {Q : Bytes → Value → Prop} {body : Bytes} {vs : List Value} (joined : Joined P body vs)
    (weaker : ∀ text v, P text v → Q text v) : Joined Q body vs := by
  induction joined with
  | single last => exact .single (weaker _ _ last)
  | cons first _ ih => exact .cons (weaker _ _ first) ih

theorem Joined.elements {body : Bytes} {vs : List Value} (joined : Joined P body vs) :
    ∃ elements : List (Bytes × Value), (∀ e ∈ elements, P e.1 e.2) ∧ elements ≠ [] ∧
      [comma].intercalate (elements.map Prod.fst) = body ∧ elements.map Prod.snd = vs := by
  induction joined with
  | @single text v last => exact ⟨[(text, v)], by simpa using last, by simp, by simp [List.intercalate], rfl⟩
  | @cons text body v vs first following ih =>
    obtain ⟨elements, holds, some, rfl, rfl⟩ := ih
    refine ⟨(text, v) :: elements, ?_, by simp, ?_, rfl⟩
    · intro e member
      rcases List.mem_cons.1 member with rfl | member
      · exact first
      · exact holds e member
    · cases elements with
      | nil => exact absurd rfl some
      | cons e elements => simp [List.intercalate]

end Joined

/-- An array of joined elements. -/
theorem Denotes.joined {body : Bytes} {vs : List Value} (joined : Joined Denotes body vs) (nonempty : body ≠ []) :
    Denotes (lbrace :: (body ++ [rbrace])) (.ary vs) := by
  obtain ⟨elements, denotes, -, rfl, rfl⟩ := joined.elements
  exact .array denotes nonempty

/-- No element starts with a closing brace. -/
theorem Denotes.head_ne {text : Bytes} {v : Value} (denotes : Denotes text v) : ∀ rest, text ≠ rbrace :: rest := by
  rintro rest rfl
  cases denotes with
  | run plain => exact (plain rbrace List.mem_cons_self).rbrace rfl

/-- Elements that are not just one empty run do not look like the end of the array. -/
theorem Joined.opens {P : Bytes → Value → Prop} {body : Bytes} {vs : List Value} (joined : Joined P body vs)
    (nonempty : body ≠ []) (head_ne : ∀ text v, P text v → ∀ rest, text ≠ rbrace :: rest) : Opens body := by
  cases joined with
  | single last =>
    obtain ⟨c, rest, rfl⟩ := List.exists_cons_of_ne_nil nonempty
    exact ⟨c, rest, rfl, fun brace => head_ne _ _ last rest (brace ▸ rfl)⟩
  | @cons text body v vs first following =>
    cases text with
    | nil => exact ⟨comma, body, rfl, by decide⟩
    | cons c rest => exact ⟨c, rest ++ comma :: body, rfl, fun brace => head_ne _ _ first rest (brace ▸ rfl)⟩

/-- The body of an array is empty, or its elements. -/
theorem Denotes.body {text : Bytes} {vs : List Value} (denotes : Denotes text (.ary vs)) :
    ∃ body, text = lbrace :: (body ++ [rbrace]) ∧ ((body = [] ∧ vs = []) ∨ (Opens body ∧ Joined Denotes body vs)) := by
  cases denotes with
  | empty => exact ⟨[], rfl, .inl ⟨rfl, rfl⟩⟩
  | @array elements denotes nonempty =>
    have joined : Joined Denotes ([comma].intercalate (elements.map Prod.fst)) (elements.map Prod.snd) := by
      refine joined_intercalate ?_ denotes
      rintro rfl
      exact nonempty rfl
    exact ⟨_, rfl, .inr ⟨joined.opens nonempty fun _ _ denotes => denotes.head_ne, joined⟩⟩

section Reads

variable {this : CompositeDecoder}

theorem plain_comma : PlainDelimiter comma := ⟨by decide, by decide, by decide, by decide, by decide, by decide, by decide⟩

theorem Joined.readsEntries {body : Bytes} {vs : List Value} (delimiter : this.delimiter = comma)
    (joined : Joined (Reads this) body vs) : ReadsEntries this body vs := by
  induction joined with
  | single last => exact .single last
  | cons first _ ih =>
    rw [← delimiter]
    exact .cons (by rw [delimiter]; decide) first ih

/-- Every element reads as what it denotes. -/
theorem Denotes.reads {text : Bytes} {v : Value} (delimiter : this.delimiter = comma)
    (strings : this.elem = pgTextDecString) (denotes : Denotes text v) : Reads this text v := by
  have lbraceFree : this.delimiter ≠ lbrace := by rw [delimiter]; decide
  induction denotes with
  | nil => exact reads_null (delimiter ▸ plain_comma)
  | run plain notNull => exact reads_run (delimiter ▸ plain) notNull (by rw [strings]; rfl)
  | quoted body => exact reads_quoted (by rw [delimiter]; decide) body (by rw [strings]; rfl)
  | empty => exact reads_subarray lbraceFree (.inl ⟨rfl, rfl⟩)
  | @array elements denotes nonempty ih =>
    have joined : Joined (fun text v => Reads this text v ∧ Denotes text v)
        ([comma].intercalate (elements.map Prod.fst)) (elements.map Prod.snd) := by
      refine joined_intercalate ?_ fun e member => ⟨ih e member, denotes e member⟩
      rintro rfl
      exact nonempty rfl
    refine reads_subarray lbraceFree (.inr ⟨joined.opens nonempty fun _ _ both => both.2.head_ne, ?_⟩)
    exact (joined.imp fun _ _ both => both.1).readsEntries delimiter

end Reads

section Unglued

/-- A scan passes over the text from the start of an element to its end, and nothing touches. -/
def Unglued (text : Bytes) : Prop :=
  ∀ depth, ∃ place : Place, place.inQuotes = false ∧
    Scan.run comma ⟨.level depth .fresh, false⟩ text = ⟨.level depth place, false⟩

theorem Scan.run_cons (delimiter : UInt8) (scan : Scan) (c : UInt8) (text : Bytes) :
    Scan.run delimiter scan (c :: text) = Scan.run delimiter (scan.step delimiter c) text := rfl

/-- A run of plain characters. -/
theorem Scan.run_plain {depth : Nat} {word : Bytes} {place : Place} (plain : ∀ c ∈ word, PlainChar comma c)
    (outside : place.inQuotes = false) (unsealed : place.sealed = false) :
    ∃ place' : Place, place'.inQuotes = false ∧
      Scan.run comma ⟨.level depth place, false⟩ word = ⟨.level depth place', false⟩ := by
  induction word generalizing place with
  | nil => exact ⟨place, outside, rfl⟩
  | cons c word ih =>
    have step : Scan.step comma ⟨.level depth place, false⟩ c = ⟨.level depth place.char, false⟩ := by
      rw [Scan.step, Scan.level_char outside (plain c List.mem_cons_self), unsealed, Bool.false_or]
    rw [Scan.run_cons, step]
    apply ih fun d member => plain d (List.mem_cons_of_mem _ member)
    · cases place <;> simp [Place.inQuotes, Place.char] at outside ⊢
    · cases place <;> simp [Place.sealed, Place.char] at unsealed ⊢

/-- What stands between quotes. -/
theorem Scan.run_quoted {depth : Nat} {text word : Bytes} (quoted : Quoted text word) :
    Scan.run comma ⟨.level depth .inside, false⟩ text = ⟨.level depth .inside, false⟩ := by
  induction quoted with
  | nil => rfl
  | char notBackslash notDquote _ ih => rw [Scan.run_cons, Scan.step, Scan.level_inside notBackslash notDquote, ih]
  | escaped _ ih =>
    rw [Scan.run_cons, Scan.step, Scan.level_backslash, Scan.run_cons, Scan.step, Scan.level_escaped, ih]

theorem Joined.unglued {body : Bytes} {vs : List Value} (joined : Joined (fun text _ => Unglued text) body vs) :
    Unglued body := by
  induction joined with
  | single last => exact last
  | cons first _ ih =>
    intro depth
    obtain ⟨place, outside, passed⟩ := first depth
    obtain ⟨place', outside', passed'⟩ := ih depth
    refine ⟨place', outside', ?_⟩
    rw [Scan.run_append, passed, Scan.run_cons, Scan.step, Scan.level_delimiter outside (by decide), passed']

/-- From one brace of an array to the other. -/
theorem Unglued.array {body : Bytes} (unglued : Unglued body) : Unglued (lbrace :: (body ++ [rbrace])) := by
  intro depth
  obtain ⟨place, outside, passed⟩ := unglued (depth + 1)
  refine ⟨.sub, rfl, ?_⟩
  rw [Scan.run_cons, Scan.step, Scan.level_lbrace rfl (by decide), Scan.run_append]
  have fresh : (false || Place.fresh != .fresh) = false := rfl
  rw [fresh, passed, Scan.run_cons, Scan.step, Scan.level_rbrace outside]
  rfl

/-- No element is glued. -/
theorem Denotes.unglued {text : Bytes} {v : Value} (denotes : Denotes text v) : Unglued text := by
  induction denotes with
  | nil => exact fun depth => ⟨.run, rfl, rfl⟩
  | run plain notNull => exact fun depth => Scan.run_plain plain rfl rfl
  | quoted body =>
    intro depth
    refine ⟨.quoted, rfl, ?_⟩
    rw [Scan.run_cons, Scan.step, Scan.level_dquote rfl (by decide), Scan.run_append]
    have opened : (⟨.level depth (Place.openQuotes .fresh), false || Place.fresh != .fresh⟩ : Scan) =
      ⟨.level depth .inside, false⟩ := rfl
    rw [opened, Scan.run_quoted body, Scan.run_cons, Scan.step, Scan.level_closeQuotes]
    rfl
  | empty =>
    have nothing : Unglued [] := fun depth => ⟨.fresh, rfl, rfl⟩
    exact nothing.array
  | @array elements denotes nonempty ih =>
    have joined : Joined (fun text _ => Unglued text)
        ([comma].intercalate (elements.map Prod.fst)) (elements.map Prod.snd) := by
      refine joined_intercalate ?_ ih
      rintro rfl
      exact nonempty rfl
    exact joined.unglued.array

end Unglued

section Decodes

variable {this : CompositeDecoder} {s : Bytes}

/-- Whitespace in front of a character that is neither whitespace nor an opening bracket ends the items. -/
theorem skipDims_end {fuel index ndim : Nat} {before rest : Bytes} {c : UInt8} (leads : Blank before)
    (here : Rest s index (before ++ c :: rest)) (notSpace : arrayIsspace c = false) (notBracket : c ≠ lbracket) :
    skipDims this s (fuel + 1) index ndim = .ok (index + before.length, ndim) := by
  have stops : skipWhile arrayIsspace s index = index + before.length :=
    here.skipWhile_eq leads fun d v same => (List.cons.inj same).1 ▸ notSpace
  have next : Rest s (index + before.length) (c :: rest) := here.skip
  rw [skipDims, stops, next.getD]
  exact if_pos notBracket

/-- One dimension item. -/
theorem skipDims_item {fuel index ndim : Nat} {before digits rest : Bytes} (leads : Blank before)
    (isdim : ∀ c ∈ digits, arrayIsdim c = true)
    (here : Rest s index (before ++ lbracket :: (digits ++ rbracket :: rest))) :
    skipDims this s (fuel + 1) index ndim =
      skipDims this s fuel (index + before.length + 1 + digits.length + 1) (ndim + 1) := by
  have stops : skipWhile arrayIsspace s index = index + before.length :=
    here.skipWhile_eq leads fun d v same => (List.cons.inj same).1 ▸ rfl
  have bracket : Rest s (index + before.length) (lbracket :: (digits ++ rbracket :: rest)) := here.skip
  have stops' : skipWhile arrayIsdim s (index + before.length + 1) = index + before.length + 1 + digits.length :=
    bracket.next.skipWhile_eq isdim fun d v same => (List.cons.inj same).1 ▸ rfl
  have closing : Rest s (index + before.length + 1 + digits.length) (rbracket :: rest) := bracket.next.skip
  rw [skipDims, stops, bracket.getD]
  dsimp only
  rw [if_neg (not_not.2 rfl), stops', closing.getD, if_neg (not_not.2 rfl)]

/-- The dimension items, from the whitespace in front of them to the `=`. -/
theorem Dims.skipDims {items : Bytes} (dims : Dims Blank items) :
    ∀ {fuel index ndim : Nat} {before rest : Bytes}, Blank before →
      Rest s index (before ++ (items ++ equals :: rest)) → items.length ≤ fuel →
      ∃ n, 0 < n ∧ skipDims this s fuel index ndim = .ok (index + before.length + items.length, n) := by
  induction dims with
  | @last digits space isdim ends =>
    intro fuel index ndim before rest leads here enough
    simp only [List.length_cons, List.length_append] at enough
    obtain ⟨fuel, rfl⟩ : ∃ n, fuel = n + 2 := ⟨fuel - 2, by omega⟩
    have here : Rest s index (before ++ lbracket :: (digits ++ rbracket :: (space ++ equals :: rest))) := by
      simpa using here
    have behind : Rest s (index + before.length + 1 + digits.length + 1) (space ++ equals :: rest) :=
      here.skip.next.skip.next
    refine ⟨ndim + 1, Nat.succ_pos _, ?_⟩
    rw [skipDims_item leads isdim here, skipDims_end ends behind rfl (by decide)]
    simp only [List.length_cons, List.length_append]
    congr 2
    omega
  | @more digits space others isdim blank following ih =>
    intro fuel index ndim before rest leads here enough
    simp only [List.length_cons, List.length_append] at enough
    obtain ⟨fuel, rfl⟩ : ∃ n, fuel = n + 1 := ⟨fuel - 1, by omega⟩
    have here : Rest s index (before ++ lbracket :: (digits ++ rbracket :: (space ++ (others ++ equals :: rest)))) := by
      simpa using here
    have behind : Rest s (index + before.length + 1 + digits.length + 1) (space ++ (others ++ equals :: rest)) :=
      here.skip.next.skip.next
    obtain ⟨n, some', skipped⟩ := @ih fuel _ (ndim + 1) space rest blank behind (by omega)
    refine ⟨n, some', ?_⟩
    rw [skipDims_item leads isdim here, skipped]
    simp only [List.length_cons, List.length_append]
    congr 2
    omega

/-- The frame of an array text: how the decoder gets to its opening brace, and the whitespace behind it. -/
structure Framed (this : CompositeDecoder) (s : Bytes) (index : Nat) (text : Bytes) : Prop where
  prelude : ∃ i n, skipDims this s (s.length + 1) 0 0 = .ok (i, n) ∧ skipAssignment this s i n = .ok index
  array : ∃ behind, Rest s index (text ++ behind) ∧ Blank behind

theorem ArrayText.framed {v : Value} (arrayText : ArrayText Blank s v) :
    ∃ index text vs, v = .ary vs ∧ Denotes text (.ary vs) ∧ Framed this s index text := by
  cases arrayText with
  | @bare before text behind vs leads array ends =>
    obtain ⟨body, rfl, -⟩ := array.body
    refine ⟨0 + before.length, _, vs, rfl, array, ⟨0 + before.length, 0, ?_, rfl⟩, behind, ?_, ends⟩
    · exact skipDims_end leads (Rest.zero _) rfl (by decide)
    · exact (Rest.zero _).skip
  | @dims before items between text behind vs leads dims blank array ends =>
    obtain ⟨body, rfl, -⟩ := array.body
    obtain ⟨s, whole⟩ : ∃ s, s = before ++ (items ++ equals :: (between ++ (lbrace :: (body ++ [rbrace]) ++ behind))) :=
      ⟨_, rfl⟩
    rw [← whole]
    have start : Rest s 0 (before ++ (items ++ equals :: (between ++ (lbrace :: (body ++ [rbrace]) ++ behind)))) := whole
    obtain ⟨n, some', skipped⟩ := @Dims.skipDims this s items dims (s.length + 1) 0 0 before _ leads start
      (by rw [whole]; simp only [List.length_append, List.length_cons]; omega)
    have assigned : Rest s (0 + before.length + items.length)
        (equals :: (between ++ (lbrace :: (body ++ [rbrace]) ++ behind))) := start.skip.skip
    have stops : skipWhile arrayIsspace s (0 + before.length + items.length + 1) =
        0 + before.length + items.length + 1 + between.length :=
      assigned.next.skipWhile_eq blank fun d v same => (List.cons.inj same).1 ▸ rfl
    refine ⟨0 + before.length + items.length + 1 + between.length, _, vs, rfl, array, ⟨_, n, skipped, ?_⟩, behind,
      assigned.next.skip, ends⟩
    rw [skipAssignment, if_neg (Nat.pos_iff_ne_zero.1 some'), assigned.getD, if_neg (not_not.2 rfl)]
    exact congrArg Except.ok stops

/-- Whitespace behind the array is no junk. -/
theorem checkJunk_blank {text : Bytes} (blank : Blank text) : checkJunk this text = .ok () := by
  induction text with
  | nil => rfl
  | cons c text ih =>
    rw [checkJunk, blank c List.mem_cons_self, if_neg (by decide)]
    exact ih fun d member => blank d (List.mem_cons_of_mem _ member)

/-- The parts of a framed array, from its opening brace on. -/
theorem Framed.parts {index : Nat} {text : Bytes} {vs : List Value} (framed : Framed this s index text)
    (denotes : Denotes text (.ary vs)) :
    ∃ body behind, Rest s index (lbrace :: (body ++ rbrace :: behind)) ∧ Blank behind ∧
      ((body = [] ∧ vs = []) ∨ (Opens body ∧ Joined Denotes body vs)) := by
  obtain ⟨body, rfl, elements⟩ := denotes.body
  obtain ⟨behind, here, blank⟩ := framed.array
  exact ⟨body, behind, by simpa using here, blank, elements⟩

/-- The decoder on a framed array. -/
theorem Framed.decodes {index : Nat} {text : Bytes} {vs : List Value} (framed : Framed this s index text)
    (delimiter : this.delimiter = comma) (strings : this.elem = pgTextDecString) (denotes : Denotes text (.ary vs)) :
    pgTextDecArray this s = .ok (.ary vs) := by
  obtain ⟨body, behind, here, blank, elements⟩ := framed.parts denotes
  obtain ⟨i, n, skipped, assigned⟩ := framed.prelude
  have reads : (body = [] ∧ vs = []) ∨ (Opens body ∧ ReadsEntries this body vs) := by
    refine elements.imp_right fun ⟨opens, joined⟩ => ⟨opens, ?_⟩
    exact (joined.imp fun _ _ denotes => denotes.reads delimiter strings).readsEntries delimiter
  obtain ⟨word, read⟩ := readBody_entries reads here.next
  have closing : Rest s (index + 1 + body.length) (rbrace :: behind) := here.next.skip
  have junk : s.drop (index + 1 + body.length + 1) = behind := closing.next
  simp only [pgTextDecArray, skipped, assigned, bind, Except.bind, pure, Except.pure, read, expectBrace, here.getD,
    closing.getD, junk, checkJunk_blank blank, ne_eq, not_true_eq_false, if_false]

/-- A framed array is not glued. -/
theorem Framed.unglued {index : Nat} {text : Bytes} {vs : List Value} (framed : Framed this s index text)
    (delimiter : this.delimiter = comma) (denotes : Denotes text (.ary vs)) : (scan comma s).glued = false := by
  obtain ⟨body, behind, here, blank, elements⟩ := framed.parts denotes
  obtain ⟨i, n, skipped, assigned⟩ := framed.prelude
  obtain ⟨spaced, leaves⟩ := skipDims_starts skipped
  have closing : Rest s (index + 1 + body.length) (rbrace :: behind) := here.next.skip
  have inside := closing.lt
  have unglued : Unglued body := by
    rcases elements with ⟨rfl, -⟩ | ⟨-, joined⟩
    · exact fun depth => ⟨.fresh, rfl, rfl⟩
    · exact (joined.imp fun _ _ denotes => denotes.unglued).unglued
  have enters := leaves.enters assigned
  rw [delimiter] at enters
  cases enters with
  | brace _ same =>
    obtain ⟨place, outside, passed⟩ := unglued 0
    rw [same, here.next, Scan.run_append, passed, Scan.run_cons, Scan.step, Scan.level_rbrace outside]
    exact congrArg Scan.glued (Scan.run_fixed fun c _ => rfl)
  | late off => omega
  | backed last => omega

/-- **The decoder reads array texts**: each as the value it denotes, and none is glued. -/
theorem ArrayText.decodes {v : Value} (delimiter : this.delimiter = comma) (strings : this.elem = pgTextDecString)
    (arrayText : ArrayText Blank s v) : pgTextDecArray this s = .ok v ∧ (scan comma s).glued = false := by
  obtain ⟨index, text, vs, rfl, denotes, framed⟩ := @ArrayText.framed this s v arrayText
  exact ⟨framed.decodes delimiter strings denotes, framed.unglued delimiter denotes⟩

end Decodes

end RubyPg.Text
