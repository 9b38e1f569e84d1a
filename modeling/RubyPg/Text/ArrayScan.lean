import RubyPg.Text.ArrayReading

/-!
# An automaton for array texts

Where the array decoder stands in its input depends on the characters before it only
through a depth and a few flags. `scan` runs that automaton over a whole string, malformed
or not, with errors passed over as the lenient modes do; it decodes nothing. `Phase` says
where it ends, and `glued` that somewhere text touched a quoted text or a sub-array inside
one element. `Reading.arrives` and `enters` follow the decoder's `index` along the scan.
-/

namespace RubyPg.Text
set_option autoImplicit false
open Ascii

/-- Where a scan stands in an element: at its start, in an unquoted run, between quotes,
behind a backslash between quotes, behind quotes, or behind a sub-array. -/
inductive Place where
  | fresh | run | inside | escaped | quoted | sub
deriving DecidableEq, Repr

/-- Between quotes. -/
def Place.inQuotes : Place → Bool
  | .inside | .escaped => true
  | .fresh | .run | .quoted | .sub => false

/-- Where `escapeNext` is set. -/
def Place.escapes : Place → Bool
  | .escaped | .sub => true
  | .fresh | .run | .inside | .quoted => false

/-- Behind an opening quote. Behind a sub-array `escapeNext` is set already. -/
def Place.openQuotes : Place → Place
  | .sub => .escaped
  | _ => .inside

/-- Behind an ordinary character. -/
def Place.char : Place → Place
  | .fresh => .run
  | place => place

/-- Quoted texts and sub-arrays that an ordinary character must not touch. -/
def Place.sealed : Place → Bool
  | .quoted | .sub => true
  | .fresh | .run | .inside | .escaped => false

/-- The variables of the loop at a place. -/
structure ReadState.Stands (st : ReadState) (place : Place) : Prop where
  openQuote : st.openQuote = .inside ↔ place.inQuotes = true
  escapeNext : st.escapeNext = place.escapes

/-- Where a scan stands: in front of the array (`dims` if a dimension item was read, `spaced`
if whitespace was read last), in a dimension item, behind `=`, in an array inside `depth`
others, or behind the array. -/
inductive Phase where
  | lead (dims spaced : Bool)
  | dim (dims : Bool)
  | gap
  | level (depth : Nat) (place : Place)
  | closed
deriving DecidableEq, Repr

/-- The state of a scan. -/
structure Scan where
  phase : Phase
  glued : Bool
deriving DecidableEq, Repr

/-- Behind an array inside `depth` others. -/
def Phase.close : Nat → Phase
  | 0 => .closed
  | depth + 1 => .level depth .sub

/-- The string ends where the opening brace is expected, or in a sub-array. -/
def Phase.overruns : Phase → Bool
  | .lead dims spaced => !dims || spaced
  | .dim dims => !dims
  | .gap => true
  | .level depth _ => depth != 0
  | .closed => false

namespace Scan

section Step

variable (delimiter : UInt8)

/-- A character in an array. -/
def level (depth : Nat) (place : Place) (glued : Bool) (c : UInt8) : Scan :=
  if place = .escaped then ⟨.level depth .inside, glued⟩
  else if place = .inside then
    if c = backslash then ⟨.level depth .escaped, glued⟩
    else if c = dquote then ⟨.level depth .quoted, glued⟩
    else ⟨.level depth .inside, glued⟩
  else if c = rbrace then ⟨.close depth, glued⟩
  else if c = delimiter then ⟨.level depth .fresh, glued⟩
  else if c = dquote then ⟨.level depth place.openQuotes, glued || place != .fresh⟩
  else if c = lbrace then ⟨.level (depth + 1) .fresh, glued || place != .fresh⟩
  else if c = nul then ⟨.close depth, glued⟩
  else ⟨.level depth place.char, glued || place.sealed⟩

/-- A character that ends the dimension items. In place of a missing `=` the character before
it is taken for the opening brace, unless that is whitespace. -/
def leave (dims spaced glued : Bool) (c : UInt8) : Scan :=
  if dims then
    if c = equals then ⟨.gap, glued⟩
    else if spaced then ⟨.level 0 .fresh, glued⟩
    else level delimiter 0 .fresh glued c
  else ⟨.level 0 .fresh, glued⟩

/-- One character. -/
def step : Scan → UInt8 → Scan
  | ⟨.lead dims spaced, glued⟩, c =>
    if arrayIsspace c then ⟨.lead dims true, glued⟩
    else if c = lbracket then ⟨.dim dims, glued⟩
    else leave delimiter dims spaced glued c
  | ⟨.dim dims, glued⟩, c =>
    if arrayIsdim c then ⟨.dim dims, glued⟩
    else if c = rbracket then ⟨.lead true false, glued⟩
    else leave delimiter dims false glued c
  | ⟨.gap, glued⟩, c => if arrayIsspace c then ⟨.gap, glued⟩ else ⟨.level 0 .fresh, glued⟩
  | ⟨.level depth place, glued⟩, c => level delimiter depth place glued c
  | ⟨.closed, glued⟩, _ => ⟨.closed, glued⟩

/-- Some more characters. -/
def run (scan : Scan) (text : Bytes) : Scan := text.foldl (step delimiter) scan

end Step

section Level

variable {delimiter c : UInt8} {depth : Nat} {place : Place} {glued : Bool}

theorem level_rbrace (outside : place.inQuotes = false) :
    level delimiter depth place glued rbrace = ⟨.close depth, glued⟩ := by
  cases place <;> simp [Place.inQuotes, level] at outside ⊢

theorem level_delimiter (outside : place.inQuotes = false) (notRbrace : delimiter ≠ rbrace) :
    level delimiter depth place glued delimiter = ⟨.level depth .fresh, glued⟩ := by
  cases place <;> simp [Place.inQuotes, level, notRbrace] at outside ⊢

theorem level_dquote (outside : place.inQuotes = false) (free : dquote ≠ delimiter) :
    level delimiter depth place glued dquote = ⟨.level depth place.openQuotes, glued || place != .fresh⟩ := by
  cases place <;> simp +decide [level, free] at outside ⊢

theorem level_lbrace (outside : place.inQuotes = false) (free : lbrace ≠ delimiter) :
    level delimiter depth place glued lbrace = ⟨.level (depth + 1) .fresh, glued || place != .fresh⟩ := by
  cases place <;> simp +decide [level, free] at outside ⊢

theorem level_nul (outside : place.inQuotes = false) (free : nul ≠ delimiter) :
    level delimiter depth place glued nul = ⟨.close depth, glued⟩ := by
  cases place <;> simp +decide [level, free] at outside ⊢

theorem level_char (outside : place.inQuotes = false) (plain : PlainChar delimiter c) :
    level delimiter depth place glued c = ⟨.level depth place.char, glued || place.sealed⟩ := by
  cases place <;>
    simp [Place.inQuotes, level, plain.delimiter, plain.dquote, plain.lbrace, plain.rbrace, plain.nul] at outside ⊢

theorem level_escaped : level delimiter depth .escaped glued c = ⟨.level depth .inside, glued⟩ := by
  simp [level]

theorem level_backslash : level delimiter depth .inside glued backslash = ⟨.level depth .escaped, glued⟩ := by
  simp [level]

theorem level_closeQuotes : level delimiter depth .inside glued dquote = ⟨.level depth .quoted, glued⟩ := by
  simp +decide [level]

theorem level_inside (notBackslash : c ≠ backslash) (notDquote : c ≠ dquote) :
    level delimiter depth .inside glued c = ⟨.level depth .inside, glued⟩ := by
  simp [level, notBackslash, notDquote]

end Level

section Lead

variable {delimiter c : UInt8} {dims spaced glued : Bool}

theorem step_lbracket : step delimiter ⟨.lead dims spaced, glued⟩ lbracket = ⟨.dim dims, glued⟩ := rfl

theorem step_rbracket : step delimiter ⟨.dim dims, glued⟩ rbracket = ⟨.lead true false, glued⟩ := rfl

theorem step_lead (notSpace : arrayIsspace c = false) (notBracket : c ≠ lbracket) :
    step delimiter ⟨.lead dims spaced, glued⟩ c = leave delimiter dims spaced glued c := by
  rw [step, notSpace, if_neg Bool.false_ne_true, if_neg notBracket]

theorem step_dim (notDim : arrayIsdim c = false) (notBracket : c ≠ rbracket) :
    step delimiter ⟨.dim dims, glued⟩ c = leave delimiter dims false glued c := by
  rw [step, notDim, if_neg Bool.false_ne_true, if_neg notBracket]

end Lead

theorem run_here {delimiter : UInt8} {scan : Scan} {s : Bytes} {i : Nat} {c : UInt8} {t : Bytes}
    (here : Rest s i (c :: t)) :
    run delimiter scan (s.drop i) = run delimiter (scan.step delimiter c) (s.drop (i + 1)) := by
  rw [here, here.next]
  rfl

/-- A character in an array, at the index it is read from. -/
theorem run_level {delimiter : UInt8} {depth : Nat} {place : Place} {glued : Bool} {next : Scan} {s : Bytes} {i : Nat}
    {c : UInt8} {t : Bytes} (here : Rest s i (c :: t)) (same : level delimiter depth place glued c = next) :
    run delimiter ⟨.level depth place, glued⟩ (s.drop i) = run delimiter next (s.drop (i + 1)) := by
  rw [run_here here]
  exact congrArg (fun scan => run delimiter scan _) same

end Scan

/-- The scan of a whole string. -/
def scan (delimiter : UInt8) (s : Bytes) : Scan := Scan.run delimiter ⟨.lead false false, false⟩ s

section Arrives

variable {this : CompositeDecoder} {s : Bytes}

/-- A scan that ends in `result` got behind the array inside `depth` others at `index`, or the
string ended before and `index` went on for each array that was left open. -/
inductive Arrives (this : CompositeDecoder) (s : Bytes) (result : Scan) (depth : Nat) (index : Nat) : Prop where
  | closed (glued : Bool) (inside : index < s.length)
      (same : result = Scan.run this.delimiter ⟨.close depth, glued⟩ (s.drop (index + 1)))
  | open (lenient : this.formatError ≠ .raise) (more : Nat) (place : Place) (off : index = s.length + more)
      (phase : result.phase = .level (depth + more) place)

/-- Behind the end of the string the loop stops. -/
theorem Reading.off_eq {st : ReadState} {out : Outcome ReadResult} (reading : Reading this s st out)
    (off : s.length ≤ st.index) : out = premature this st := by
  cases reading with
  | off => rfl
  | raised here | close here | delimiter here | openQuotes here | emptySub here | subRaised here | sub here | nul here
  | char here | escaped here | backslash here | closeQuotes here | quoted here => exact absurd here.lt (by omega)

theorem premature_index {st : ReadState} {r : ReadResult} (returned : premature this st = .ok r) : r.index = st.index := by
  obtain ⟨-, -, same⟩ := Outcome.of_bind returned
  cases same
  rfl

theorem premature_lenient {st : ReadState} {r : ReadResult} (returned : premature this st = .ok r) :
    this.formatError ≠ .raise := by
  obtain ⟨_, first, -⟩ := Outcome.of_bind returned
  exact arrayParserError_lenient first

namespace ReadState.Stands

variable {st : ReadState} {place : Place}

theorem outside (stands : st.Stands place) (out : st.openQuote ≠ .inside) : place.inQuotes = false := by
  simpa [stands.openQuote] using out

theorem eq_escaped (stands : st.Stands place) (inside : st.openQuote = .inside) (escape : st.escapeNext = true) :
    place = .escaped := by
  rw [stands.openQuote] at inside
  rw [stands.escapeNext] at escape
  cases place <;> simp [Place.inQuotes, Place.escapes] at inside escape ⊢

theorem eq_inside (stands : st.Stands place) (inside : st.openQuote = .inside) (literal : st.escapeNext = false) :
    place = .inside := by
  rw [stands.openQuote] at inside
  rw [stands.escapeNext] at literal
  cases place <;> simp [Place.inQuotes, Place.escapes] at inside literal ⊢

theorem nextWord (st : ReadState) : st.nextWord.Stands .fresh := ⟨by simp [ReadState.nextWord, Place.inQuotes], rfl⟩

theorem enter (st : ReadState) : st.enter.Stands .fresh := ⟨by simp [ReadState.enter, Place.inQuotes], rfl⟩

theorem pushSubarray (sub : ReadResult) (out : st.openQuote ≠ .inside) : (st.pushSubarray sub).Stands .sub :=
  ⟨by simpa [ReadState.pushSubarray, Place.inQuotes] using out, rfl⟩

theorem openQuotes (stands : st.Stands place) (out : place.inQuotes = false) :
    st.openQuotes.Stands place.openQuotes := by
  have escape : st.openQuotes.escapeNext = place.escapes := stands.escapeNext
  constructor
  · cases place <;> simp [ReadState.openQuotes, Place.openQuotes, Place.inQuotes]
  · rw [escape]
    cases place with
    | inside | escaped => cases out
    | fresh | run | quoted | sub => rfl

theorem push (stands : st.Stands place) (out : place.inQuotes = false) (c : UInt8) :
    (st.push c).Stands place.char := by
  have openQuote : (st.push c).openQuote = .inside ↔ place.inQuotes = true := stands.openQuote
  have escape : (st.push c).escapeNext = place.escapes := stands.escapeNext
  constructor
  · rw [openQuote]
    cases place <;> simp [Place.char, Place.inQuotes]
  · rw [escape]
    cases place <;> rfl

end ReadState.Stands

/-- The loop follows the scan to the end of its array. -/
theorem Reading.arrives {st : ReadState} {out : Outcome ReadResult} (reading : Reading this s st out) :
    ∀ r, out = .ok r → st.index ≤ s.length → ∀ depth place glued, st.Stands place →
      Arrives this s (Scan.run this.delimiter ⟨.level depth place, glued⟩ (s.drop st.index)) depth r.index := by
  induction reading with
  | off here =>
    intro r returned within depth place glued stands
    rw [List.drop_eq_nil_of_le here]
    exact .open (premature_lenient returned) 0 place (by rw [premature_index returned]; omega) rfl
  | raised => exact fun r returned => nomatch returned
  | close here outside ended =>
    rintro r ⟨⟩ within depth place glued stands
    rw [Scan.run_level here (Scan.level_rbrace (stands.outside outside))]
    refine .closed glued ?_ ?_
    · rw [ReadState.result, (endWord_ended ended).index]
      exact here.lt
    · rw [ReadState.result, (endWord_ended ended).index]
  | delimiter here outside notRbrace ended next ih =>
    intro r returned within depth place glued stands
    have index := (endWord_ended ended).index
    rw [Scan.run_level here (Scan.level_delimiter (stands.outside outside) notRbrace), ← index]
    have lt := here.lt
    apply ih r returned _ depth .fresh glued (.nextWord _)
    simp only [ReadState.nextWord]
    omega
  | openQuotes here outside free next ih =>
    intro r returned within depth place glued stands
    have out := stands.outside outside
    rw [Scan.run_level here (Scan.level_dquote out free)]
    exact ih r returned here.lt depth place.openQuotes _ (stands.openQuotes out)
  | emptySub here outside free next ih =>
    intro r returned within depth place glued stands
    rw [Scan.run_level here (Scan.level_lbrace (stands.outside outside) free),
      Scan.run_level here.next (Scan.level_rbrace rfl)]
    exact ih r returned here.next.lt depth .sub _ (.pushSubarray _ outside)
  | subRaised => exact fun r returned => nomatch returned
  | sub here outside free nonempty inner next ihInner ih =>
    intro r returned within depth place glued stands
    rw [Scan.run_level here (Scan.level_lbrace (stands.outside outside) free)]
    have arrived := ihInner _ rfl here.lt (depth + 1) .fresh (glued || place != .fresh) (.enter _)
    rw [ReadState.enter] at arrived
    cases arrived with
    | closed glued' inside same =>
      rw [same]
      exact ih r returned inside depth .sub glued' (.pushSubarray _ outside)
    | «open» lenient more place' off phase =>
      -- the string has ended, and the step behind the nested call goes on beyond it
      have stopped := next.off_eq (by simp only [ReadState.pushSubarray]; omega)
      rw [stopped] at returned
      refine .open lenient (more + 1) place' ?_ ?_
      · rw [premature_index returned]
        simp only [ReadState.pushSubarray]
        omega
      · rw [phase, Nat.add_right_comm, Nat.add_assoc]
  | nul here outside free =>
    intro r returned within depth place glued stands
    rw [Scan.run_level here (Scan.level_nul (stands.outside outside) free)]
    have index := premature_index returned
    refine .closed glued ?_ ?_
    · rw [index]
      exact here.lt
    · rw [index]
  | char here outside plain next ih =>
    intro r returned within depth place glued stands
    have out := stands.outside outside
    rw [Scan.run_level here (Scan.level_char out plain)]
    exact ih r returned here.lt depth place.char _ (stands.push out _)
  | escaped here inside escape next ih =>
    intro r returned within depth place glued stands
    obtain rfl := stands.eq_escaped inside escape
    rw [Scan.run_level here Scan.level_escaped]
    exact ih r returned here.lt depth .inside glued ⟨stands.openQuote, rfl⟩
  | backslash here inside literal next ih =>
    intro r returned within depth place glued stands
    obtain rfl := stands.eq_inside inside literal
    rw [Scan.run_level here Scan.level_backslash]
    exact ih r returned here.lt depth .escaped glued ⟨stands.openQuote, rfl⟩
  | closeQuotes here inside literal next ih =>
    intro r returned within depth place glued stands
    obtain rfl := stands.eq_inside inside literal
    rw [Scan.run_level here Scan.level_closeQuotes]
    exact ih r returned here.lt depth .quoted glued
      ⟨by simp [ReadState.closeQuotes, Place.inQuotes], stands.escapeNext⟩
  | quoted here inside literal notBackslash notDquote next ih =>
    intro r returned within depth place glued stands
    obtain rfl := stands.eq_inside inside literal
    rw [Scan.run_level here (Scan.level_inside notBackslash notDquote)]
    exact ih r returned here.lt depth .inside glued ⟨stands.openQuote, stands.escapeNext⟩

/-- `read_array_without_dim` starts at its closing brace or in its loop. -/
theorem readBody_cases (this : CompositeDecoder) (s : Bytes) (index : Nat) :
    (Rest s index (rbrace :: s.drop (index + 1)) ∧ ∃ word, readBody this s index = .ok ⟨[], index, word⟩) ∨
      ((∀ t, ¬Rest s index (rbrace :: t)) ∧ Reading this s { index, word := fun _ => nul } (readBody this s index)) := by
  unfold readBody
  by_cases empty : index < s.length ∧ s.getD index nul = rbrace
  · left
    refine ⟨?_, fun _ => nul, by rw [if_pos empty]; rfl⟩
    rw [← empty.2]
    exact .head empty.1 nul
  · right
    refine ⟨fun t here => empty ⟨here.lt, here.getD _⟩, ?_⟩
    rw [if_neg empty, readArrayWithoutDim, if_neg empty]
    exact readLoop_reading (by dsimp only; omega)

/-- The array follows the scan from behind its opening brace on. -/
theorem readBody_arrives {index : Nat} {r : ReadResult} (within : index ≤ s.length)
    (returned : readBody this s index = .ok r) (glued : Bool) :
    Arrives this s (Scan.run this.delimiter ⟨.level 0 .fresh, glued⟩ (s.drop index)) 0 r.index := by
  obtain ⟨here, word, empty⟩ | ⟨-, reading⟩ := readBody_cases this s index
  · rw [empty] at returned
    cases returned
    rw [Scan.run_level here (Scan.level_rbrace rfl)]
    exact .closed glued here.lt rfl
  · exact reading.arrives r returned within 0 .fresh glued ⟨by simp [Place.inQuotes], rfl⟩

end Arrives

section Enters

variable {this : CompositeDecoder} {s : Bytes}

/-- Characters that change nothing. -/
theorem Scan.run_fixed {delimiter : UInt8} {scan : Scan} {text : Bytes}
    (fixed : ∀ c ∈ text, scan.step delimiter c = scan) : Scan.run delimiter scan text = scan := by
  induction text with
  | nil => rfl
  | cons c text ih =>
    show Scan.run delimiter (scan.step delimiter c) text = scan
    rw [fixed c List.mem_cons_self]
    exact ih fun c member => fixed c (List.mem_cons_of_mem _ member)

theorem Scan.run_append (delimiter : UInt8) (scan : Scan) (first second : Bytes) :
    Scan.run delimiter scan (first ++ second) = Scan.run delimiter (Scan.run delimiter scan first) second :=
  List.foldl_append

/-- A loop over characters. -/
theorem Scan.run_skipWhile (delimiter : UInt8) (scan : Scan) (p : UInt8 → Bool) (index : Nat) :
    Scan.run delimiter scan (s.drop index) =
      Scan.run delimiter (Scan.run delimiter scan ((s.drop index).takeWhile p)) (s.drop (skipWhile p s index)) := by
  rw [← Scan.run_append, ← drop_skipWhile]

/-- A loop over characters that change nothing. -/
theorem Scan.run_skipWhile_fixed {delimiter : UInt8} {scan : Scan} {p : UInt8 → Bool} {index : Nat}
    (fixed : ∀ c, p c = true → scan.step delimiter c = scan) :
    Scan.run delimiter scan (s.drop index) = Scan.run delimiter scan (s.drop (skipWhile p s index)) := by
  rw [Scan.run_skipWhile _ _ p index, Scan.run_fixed fun c member => fixed c (List.mem_takeWhile_imp member)]

/-- The whitespace in front of a dimension item or the array. -/
theorem Scan.run_lead {delimiter : UInt8} {dims spaced : Bool} {index : Nat} :
    Scan.run delimiter ⟨.lead dims spaced, false⟩ (s.drop index) =
      Scan.run delimiter ⟨.lead dims (spaced || decide (index < skipWhile arrayIsspace s index)), false⟩
        (s.drop (skipWhile arrayIsspace s index)) := by
  rw [Scan.run_skipWhile _ _ arrayIsspace index]
  congr 1
  have length : skipWhile arrayIsspace s index = index + ((s.drop index).takeWhile arrayIsspace).length := rfl
  have spaces : ∀ c ∈ (s.drop index).takeWhile arrayIsspace, arrayIsspace c = true := fun c => List.mem_takeWhile_imp
  revert spaces length
  generalize (s.drop index).takeWhile arrayIsspace = skipped
  intro length spaces
  cases skipped with
  | nil => simp [Scan.run, length]
  | cons c skipped =>
    have first : Scan.step delimiter ⟨.lead dims spaced, false⟩ c = ⟨.lead dims true, false⟩ := by
      simp [Scan.step, spaces c List.mem_cons_self]
    have others : Scan.run delimiter ⟨.lead dims true, false⟩ skipped = ⟨.lead dims true, false⟩ :=
      Scan.run_fixed fun d member => by simp [Scan.step, spaces d (List.mem_cons_of_mem _ member)]
    show Scan.run delimiter (Scan.step delimiter ⟨.lead dims spaced, false⟩ c) skipped = _
    rw [first, others]
    simp [length]

/-- The dimension items have ended at `index`, where `result` is what the scan ends in. -/
structure Leaves (delimiter : UInt8) (s : Bytes) (result : Scan) (index ndim : Nat) (spaced : Bool) : Prop where
  within : index ≤ s.length
  inside : index < s.length →
    result = Scan.run delimiter (.leave delimiter (decide (0 < ndim)) spaced false (s.getD index nul)) (s.drop (index + 1))
  off : index = s.length → result.phase.overruns = (!decide (0 < ndim) || spaced)
  room : 0 < ndim → 2 ≤ index
  before : 0 < ndim → arrayIsspace (s.getD (index - 1) nul) = spaced
  stops : spaced = true → arrayIsspace (s.getD index nul) = false

/-- Digits and signs are no whitespace. -/
theorem arrayIsspace_of_arrayIsdim {c : UInt8} (isdim : arrayIsdim c = true) : arrayIsspace c = false := by
  by_contra isspace
  simp only [arrayIsspace, Bool.not_eq_false, Bool.or_eq_true, beq_iff_eq] at isspace
  rcases isspace with ((((rfl | rfl) | rfl) | rfl) | rfl) | rfl <;> cases isdim

/-- One dimension item, up to the character that ends it. -/
theorem arrayIsdim_before {j : Nat} (bracket : s.getD j nul = lbracket) :
    arrayIsspace (s.getD (skipWhile arrayIsdim s (j + 1) - 1) nul) = false := by
  by_cases moved : j + 1 < skipWhile arrayIsdim s (j + 1)
  · apply arrayIsspace_of_arrayIsdim
    rw [skipWhile_before (p := arrayIsdim), decide_eq_true moved, Bool.or_true]
  · have later : j + 1 ≤ skipWhile arrayIsdim s (j + 1) := le_skipWhile
    rw [show skipWhile arrayIsdim s (j + 1) - 1 = j by omega, bracket]
    rfl

/-- The loop over the dimension items follows the scan. -/
theorem skipDims_leaves {fuel index ndim i n : Nat} {spaced : Bool} (within : index ≤ s.length)
    (room : 0 < ndim → 2 ≤ index) (before : 0 < ndim → arrayIsspace (s.getD (index - 1) nul) = spaced)
    (returned : skipDims this s fuel index ndim = .ok (i, n)) :
    ∃ spaced', Leaves this.delimiter s
      (Scan.run this.delimiter ⟨.lead (decide (0 < ndim)) spaced, false⟩ (s.drop index)) i n spaced' := by
  induction fuel generalizing index ndim spaced with
  | zero => cases returned
  | succ fuel ih =>
    rw [skipDims] at returned
    dsimp only at returned
    -- the whitespace in front of the item or of the end
    rw [Scan.run_lead]
    have later : index ≤ skipWhile arrayIsspace s index := le_skipWhile
    have within' : skipWhile arrayIsspace s index ≤ s.length := skipWhile_le within
    have stopped : arrayIsspace (s.getD (skipWhile arrayIsspace s index) nul) = false := skipWhile_stops (by decide)
    have before' : 0 < ndim → arrayIsspace (s.getD (skipWhile arrayIsspace s index - 1) nul) =
        (spaced || decide (index < skipWhile arrayIsspace s index)) := by
      intro given
      rw [skipWhile_before (p := arrayIsspace), before given]
    revert returned later within' stopped before'
    generalize skipWhile arrayIsspace s index = j
    generalize (spaced || decide (index < j)) = spaced'
    intro returned later within' stopped before'
    by_cases bracket : s.getD j nul = lbracket
    · rw [if_neg (not_not.2 bracket)] at returned
      have here : Rest s j (lbracket :: s.drop (j + 1)) := .of_getD bracket (by decide)
      rw [Scan.run_here here, Scan.step_lbracket,
        Scan.run_skipWhile_fixed (p := arrayIsdim) fun c isdim => by simp [Scan.step, isdim]]
      have later' : j + 1 ≤ skipWhile arrayIsdim s (j + 1) := le_skipWhile
      have within'' : skipWhile arrayIsdim s (j + 1) ≤ s.length := skipWhile_le here.lt
      have stopped' : arrayIsdim (s.getD (skipWhile arrayIsdim s (j + 1)) nul) = false := skipWhile_stops (by decide)
      have before'' := arrayIsdim_before bracket
      revert returned later' within'' stopped' before''
      generalize skipWhile arrayIsdim s (j + 1) = k
      intro returned later' within'' stopped' before''
      by_cases closed : s.getD k nul = rbracket
      · rw [if_neg (not_not.2 closed)] at returned
        have here' : Rest s k (rbracket :: s.drop (k + 1)) := .of_getD closed (by decide)
        rw [Scan.run_here here', Scan.step_rbracket]
        have spaced'' : arrayIsspace (s.getD (k + 1 - 1) nul) = false := by
          rw [Nat.add_sub_cancel, closed]
          rfl
        exact ih here'.lt (by omega) (fun _ => spaced'') returned
      · rw [if_pos closed] at returned
        obtain ⟨-, -, same⟩ := Outcome.of_bind returned
        cases same
        refine ⟨false, within'', ?_, ?_, fun given => ?_, fun _ => before'', fun impossible => by cases impossible⟩
        · intro inside
          rw [Scan.run_here (.head inside nul), Scan.step_dim stopped' closed]
        · intro off
          rw [List.drop_eq_nil_of_le off.ge]
          simp [Scan.run, Phase.overruns]
        · have := room given
          omega
    · rw [if_pos bracket] at returned
      cases returned
      refine ⟨spaced', within', ?_, ?_, fun given => ?_, before', fun _ => stopped⟩
      · intro inside
        rw [Scan.run_here (.head inside nul), Scan.step_lead stopped bracket]
      · intro off
        rw [List.drop_eq_nil_of_le off.ge]
        rfl
      · have := room given
        omega

/-- The loop over the dimension items raises only errors of the parser. -/
theorem skipDims_raises {fuel index ndim : Nat} {stop : Stop} (within : index ≤ s.length)
    (enough : s.length - index < fuel) (raised : skipDims this s fuel index ndim = .error stop) : Raised this stop := by
  induction fuel generalizing index ndim with
  | zero => omega
  | succ fuel ih =>
    rw [skipDims] at raised
    dsimp only at raised
    have later : index ≤ skipWhile arrayIsspace s index := le_skipWhile
    by_cases bracket : s.getD (skipWhile arrayIsspace s index) nul = lbracket
    · rw [if_neg (not_not.2 bracket)] at raised
      have here : Rest s (skipWhile arrayIsspace s index) (lbracket :: s.drop (skipWhile arrayIsspace s index + 1)) :=
        .of_getD bracket (by decide)
      have inside := here.lt
      revert raised later inside
      generalize skipWhile arrayIsspace s index = j
      intro raised later inside
      have later' : j + 1 ≤ skipWhile arrayIsdim s (j + 1) := le_skipWhile
      by_cases closed : s.getD (skipWhile arrayIsdim s (j + 1)) nul = rbracket
      · rw [if_neg (not_not.2 closed)] at raised
        have here' : Rest s (skipWhile arrayIsdim s (j + 1)) (rbracket :: s.drop (skipWhile arrayIsdim s (j + 1) + 1)) :=
          .of_getD closed (by decide)
        have inside' := here'.lt
        exact ih inside' (by omega) raised
      · rw [if_pos closed] at raised
        rcases Outcome.error_of_bind raised with first | ⟨-, -, second⟩
        · exact arrayParserError_raises first
        · cases second
    · rw [if_pos bracket] at raised
      cases raised

/-- Where the opening brace is expected: inside the string; at its end, where the next read is
behind the terminator; or in place of a missing `=` at the last character. -/
inductive Enters (delimiter : UInt8) (s : Bytes) (result : Scan) (index : Nat) : Prop where
  | brace (inside : index < s.length)
      (same : result = Scan.run delimiter ⟨.level 0 .fresh, false⟩ (s.drop (index + 1)))
  | late (off : index = s.length) (overruns : result.phase.overruns = true)
  | backed (last : index + 1 = s.length) (safe : result.phase.overruns = false)

/-- The way to the opening brace follows the scan. -/
theorem Leaves.enters {result : Scan} {index ndim i : Nat} {spaced : Bool}
    (leaves : Leaves this.delimiter s result index ndim spaced) (returned : skipAssignment this s index ndim = .ok i) :
    Enters this.delimiter s result i := by
  unfold skipAssignment at returned
  by_cases none : ndim = 0
  · rw [if_pos none] at returned
    cases returned
    rcases Nat.lt_or_ge index s.length with inside | off
    · refine .brace inside ?_
      rw [leaves.inside inside, none]
      rfl
    · have ended : index = s.length := Nat.le_antisymm leaves.within off
      refine .late ended ?_
      rw [leaves.off ended, none]
      rfl
  · have some' : 0 < ndim := Nat.pos_of_ne_zero none
    rw [if_neg none] at returned
    by_cases assigned : s.getD index nul = equals
    · have here : Rest s index (equals :: s.drop (index + 1)) := .of_getD assigned (by decide)
      have moved : i = skipWhile arrayIsspace s (index + 1) := by
        rw [if_neg (not_not.2 assigned)] at returned
        exact (Except.ok.inj returned).symm
      have gap : result = Scan.run this.delimiter ⟨.gap, false⟩ (s.drop i) := by
        rw [leaves.inside here.lt, here.getD, Scan.leave, decide_eq_true some', if_pos rfl, if_pos rfl, moved]
        exact Scan.run_skipWhile_fixed fun c isspace => by simp [Scan.step, isspace]
      have stopped : arrayIsspace (s.getD i nul) = false := moved ▸ skipWhile_stops (by decide)
      have within : i ≤ s.length := moved ▸ skipWhile_le here.lt
      rcases Nat.lt_or_ge i s.length with inside | off
      · refine .brace inside ?_
        rw [gap, Scan.run_here (.head inside nul), Scan.step, stopped]
        rfl
      · refine .late (Nat.le_antisymm within off) ?_
        rw [gap, List.drop_eq_nil_of_le off]
        rfl
    · have room := leaves.room some'
      have before := leaves.before some'
      have moved : i = skipWhile arrayIsspace s (index - 1) := by
        rw [if_pos assigned] at returned
        obtain ⟨-, -, same⟩ := Outcome.of_bind returned
        rw [show index - 1 = index - 2 + 1 by omega]
        exact (Except.ok.inj same).symm
      cases spaced with
      | true =>
        have stops := leaves.stops rfl
        have here : i = index := by
          refine moved.trans (skipWhile_eq (d := nul) rfl (Nat.sub_le _ _) ?_ stops)
          intro k low high
          rwa [show k = index - 1 by omega]
        subst here
        rcases Nat.lt_or_ge i s.length with inside | off
        · refine .brace inside ?_
          rw [leaves.inside inside, Scan.leave, decide_eq_true some', if_pos rfl, if_neg assigned, if_pos rfl]
        · have ended : i = s.length := Nat.le_antisymm leaves.within off
          refine .late ended ?_
          rw [leaves.off ended, Bool.or_true]
      | false =>
        have here : i = index - 1 := moved.trans (skipWhile_eq (d := nul) rfl (Nat.le_refl _) (fun k low high => by omega) before)
        rcases Nat.lt_or_ge index s.length with inside | off
        · refine .brace (by omega) ?_
          rw [leaves.inside inside, Scan.leave, decide_eq_true some', if_pos rfl, if_neg assigned, if_neg Bool.false_ne_true,
            show i + 1 = index by omega]
          exact (Scan.run_level (.head inside nul) rfl).symm
        · have ended : index = s.length := Nat.le_antisymm leaves.within off
          refine .backed (by omega) ?_
          rw [leaves.off ended, decide_eq_true some']
          rfl

/-- `pg_text_dec_array` up to the closing brace. -/
def readToClose (this : CompositeDecoder) (s : Bytes) : Outcome ReadResult := do
  let (index, ndim) ← skipDims this s (s.length + 1) 0 0
  let index ← skipAssignment this s index ndim
  expectBrace this s index lbrace "array value must start with \"\x7b\" or dimension information"
  readBody this s (index + 1)

theorem pgTextDecArray_eq (this : CompositeDecoder) (s : Bytes) :
    pgTextDecArray this s = (do
      let ret ← readToClose this s
      expectBrace this s ret.index rbrace "array value must end with \"\x7d\""
      checkJunk this (s.drop (ret.index + 1))
      pure (.ary ret.array)) := by
  simp only [pgTextDecArray, readToClose, bind_assoc]

theorem expectBrace_raises {index : Nat} {brace : UInt8} {text : String} {stop : Stop}
    (raised : expectBrace this s index brace text = .error stop) : Raised this stop := by
  unfold expectBrace at raised
  split at raised
  · exact arrayParserError_raises raised
  · cases raised

/-- In the strict mode the brace is there. -/
theorem expectBrace_strict {index : Nat} {brace : UInt8} {text : String} (strict : this.formatError = .raise)
    (returned : expectBrace this s index brace text = .ok ()) : s.getD index nul = brace := by
  unfold expectBrace at returned
  split at returned
  · exact absurd strict (arrayParserError_lenient returned)
  · exact not_not.1 ‹_›

theorem skipAssignment_raises {index ndim : Nat} {stop : Stop}
    (raised : skipAssignment this s index ndim = .error stop) : Raised this stop := by
  unfold skipAssignment at raised
  split at raised
  · cases raised
  · split at raised
    · rcases Outcome.error_of_bind raised with first | ⟨-, -, second⟩
      · exact arrayParserError_raises first
      · cases second
    · cases raised

/-- Where the array was opened. -/
structure Opened (this : CompositeDecoder) (s : Bytes) (index : Nat) (r : ReadResult) : Prop where
  enters : Enters this.delimiter s (scan this.delimiter s) index
  brace : this.formatError = .raise → s.getD index nul = lbrace
  body : readBody this s (index + 1) = .ok r

theorem Enters.within {result : Scan} {index : Nat} (enters : Enters this.delimiter s result index) :
    index ≤ s.length := by
  cases enters <;> omega

/-- The dimension items from the start of the string on. -/
theorem skipDims_starts {i n : Nat} (dims : skipDims this s (s.length + 1) 0 0 = .ok (i, n)) :
    ∃ spaced, Leaves this.delimiter s (scan this.delimiter s) i n spaced :=
  skipDims_leaves (Nat.zero_le _) (fun given => absurd given (Nat.lt_irrefl 0))
    (fun given => absurd given (Nat.lt_irrefl 0)) dims

theorem readToClose_opened {r : ReadResult} (returned : readToClose this s = .ok r) : ∃ index, Opened this s index r := by
  obtain ⟨⟨i, n⟩, dims, returned⟩ := Outcome.of_bind returned
  obtain ⟨j, assigned, returned⟩ := Outcome.of_bind returned
  obtain ⟨⟨⟩, brace, body⟩ := Outcome.of_bind returned
  obtain ⟨spaced, leaves⟩ := skipDims_starts dims
  exact ⟨j, leaves.enters assigned, fun strict => expectBrace_strict strict brace, body⟩

theorem readToClose_raises {stop : Stop} (raised : readToClose this s = .error stop) :
    (∃ word, this.elem word = .error stop) ∨ Raised this stop := by
  rcases Outcome.error_of_bind raised with dims | ⟨⟨i, n⟩, dims, raised⟩
  · exact .inr (skipDims_raises (Nat.zero_le _) (by omega) dims)
  rcases Outcome.error_of_bind raised with assigned | ⟨j, assigned, raised⟩
  · exact .inr (skipAssignment_raises assigned)
  rcases Outcome.error_of_bind raised with brace | ⟨⟨⟩, brace, raised⟩
  · exact .inr (expectBrace_raises brace)
  obtain ⟨-, word, empty⟩ | ⟨-, reading⟩ := readBody_cases this s (j + 1)
  · rw [empty] at raised
    cases raised
  · exact reading.raises stop raised

theorem checkJunk_raises {t : Bytes} {stop : Stop} (raised : checkJunk this t = .error stop) : Raised this stop := by
  induction t with
  | nil => cases raised
  | cons c t ih =>
    rw [checkJunk] at raised
    split at raised
    · rcases Outcome.error_of_bind raised with first | ⟨_, -, second⟩
      · exact arrayParserError_raises first
      · exact ih second
    · exact ih raised

/-- **What the array decoder raises**: what its element decoder raises, or in the strict mode a
`TypeError`. -/
theorem pgTextDecArray_raises {stop : Stop} (raised : pgTextDecArray this s = .error stop) :
    (∃ word, this.elem word = .error stop) ∨ Raised this stop := by
  rw [pgTextDecArray_eq] at raised
  rcases Outcome.error_of_bind raised with read | ⟨ret, -, raised⟩
  · exact readToClose_raises read
  rcases Outcome.error_of_bind raised with brace | ⟨⟨⟩, -, raised⟩
  · exact .inr (expectBrace_raises brace)
  rcases Outcome.error_of_bind raised with junk | ⟨⟨⟩, -, raised⟩
  · exact .inr (checkJunk_raises junk)
  · cases raised

end Enters

end RubyPg.Text
