import RubyPg.Lib.Scan

/-!
# Regular expressions with backtracking

`Regex.run` lists the ways an expression matches at the start of a text, in the order in which
a backtracking matcher tries them, so the match it finds is the first one (`Regex.first`).
The rules below say what that is for each operator: a sequence goes on behind the first match of
its first part if it can (`first_seq`), a greedy star goes on as long as it can
(`first_star_cons`, `first_star_set`), a lazy one stops as soon as what is behind it matches
(`first_lazy_cut`).

`Regex.substitute` replaces the matches in a text from left to right, without looking at what it
has written.
-/

namespace RubyPg
set_option autoImplicit false

variable {α : Type}

/-- The groups that are captured, by name. -/
abbrev Captures (α : Type) := List (String × List α)

/-- A match at the start of a text: what it takes, what is left behind it, and the groups. -/
structure Found (α : Type) where
  taken : List α
  rest : List α
  captures : Captures α

/-- A match and one behind it. -/
def Found.after (first second : Found α) : Found α := ⟨first.taken ++ second.taken, second.rest, second.captures⟩

/-- The expressions: a character of a set, a word, one expression behind another, one or else the
other, repetitions that take as much or as little as they can, a named group and a reference back
to it. -/
inductive Regex (α : Type) where
  | set (p : α → Bool)
  | word (w : List α)
  | seq (r s : Regex α)
  | alt (r s : Regex α)
  | star (r : Regex α)
  | lazyStar (r : Regex α)
  | group (name : String) (r : Regex α)
  | backref (name : String)

namespace Regex

/-- Go on behind each match. -/
def andThen (found : List (Found α)) (next : Captures α → List α → List (Found α)) : List (Found α) :=
  found.flatMap fun f => (next f.captures f.rest).map f.after

/-- At most `fuel` repetitions, none of which is empty. -/
def repeats (lazily : Bool) (step : Captures α → List α → List (Found α)) : Nat → Captures α → List α → List (Found α)
  | 0, captures, text => [⟨[], text, captures⟩]
  | fuel + 1, captures, text =>
    let more := andThen ((step captures text).filter fun f => !f.taken.isEmpty) (repeats lazily step fuel)
    if lazily then ⟨[], text, captures⟩ :: more else more ++ [⟨[], text, captures⟩]

theorem repeats_succ {lazily : Bool} {step : Captures α → List α → List (Found α)} {fuel : Nat} {captures : Captures α}
    {text : List α} : repeats lazily step (fuel + 1) captures text =
      let more := andThen ((step captures text).filter fun f => !f.taken.isEmpty) (repeats lazily step fuel)
      if lazily then ⟨[], text, captures⟩ :: more else more ++ [⟨[], text, captures⟩] := rfl

variable [DecidableEq α]

/-- A word at the start of the text. -/
def runWord (w : List α) (captures : Captures α) (text : List α) : List (Found α) :=
  if w <+: text then [⟨w, text.drop w.length, captures⟩] else []

theorem runWord_append (w : List α) (captures : Captures α) (text : List α) :
    runWord w captures (w ++ text) = [⟨w, text, captures⟩] := by
  rw [runWord, if_pos (List.prefix_append w text), List.drop_left]

theorem runWord_eq_nil {w text : List α} (differs : ¬w <+: text) (captures : Captures α) : runWord w captures text = [] :=
  if_neg differs

/-- The match of a word. -/
theorem mem_runWord {w text : List α} {captures : Captures α} {f : Found α} (mem : f ∈ runWord w captures text) :
    ∃ u, text = w ++ u ∧ f = ⟨w, u, captures⟩ := by
  by_cases begins : w <+: text
  · obtain ⟨u, rfl⟩ := begins
    rw [runWord_append] at mem
    exact ⟨u, rfl, List.mem_singleton.1 mem⟩
  · rw [runWord_eq_nil begins] at mem
    cases mem

/-- All ways to match at the start of the text, the preferred ones first. -/
def run : Regex α → Captures α → List α → List (Found α)
  | set p, captures, c :: text => if p c then [⟨[c], text, captures⟩] else []
  | set _, _, [] => []
  | word w, captures, text => runWord w captures text
  | seq r s, captures, text => andThen (r.run captures text) s.run
  | alt r s, captures, text => r.run captures text ++ s.run captures text
  | star r, captures, text => repeats false r.run text.length captures text
  | lazyStar r, captures, text => repeats true r.run text.length captures text
  | group name r, captures, text =>
    (r.run captures text).map fun f => { f with captures := (name, f.taken) :: f.captures }
  | backref name, captures, text =>
    match captures.lookup name with
    | some w => runWord w captures text
    | none => []

/-- The match that is found at the start of the text. -/
def first (r : Regex α) (captures : Captures α) (text : List α) : Option (Found α) := (r.run captures text).head?

section Run

variable {r s : Regex α} {captures : Captures α} {text : List α}

theorem first_eq : r.first captures text = (r.run captures text).head? := rfl

theorem run_set_cons {p : α → Bool} {c : α} :
    (set p).run captures (c :: text) = if p c then [⟨[c], text, captures⟩] else [] := rfl

theorem run_word {w : List α} : (word w).run captures text = runWord w captures text := rfl

theorem run_seq : (seq r s).run captures text = Regex.andThen (r.run captures text) s.run := rfl

theorem run_alt : (alt r s).run captures text = r.run captures text ++ s.run captures text := rfl

theorem run_repeats : (star r).run captures text = repeats false r.run text.length captures text := rfl

theorem run_repeats_lazily : (lazyStar r).run captures text = repeats true r.run text.length captures text := rfl

theorem run_group {name : String} : (group name r).run captures text =
    (r.run captures text).map fun f => { f with captures := (name, f.taken) :: f.captures } := rfl

theorem run_backref {name : String} {w : List α} (captured : captures.lookup name = some w) :
    (backref name).run captures text = runWord w captures text := by
  show (match captures.lookup name with | some w => runWord w captures text | none => []) = _
  rw [captured]

end Run

/-- Keep a character and go on behind it. -/
def keepOne (next : List α → List α) : List α → List α
  | [] => []
  | c :: text => c :: next text

/-- `String#gsub`: the matches replaced from left to right. An empty match is followed by the next
character. -/
def gsub (r : Regex α) (replace : Found α → List α) : Nat → List α → List α
  | 0, text => text
  | fuel + 1, text =>
    match r.first [] text with
    | none => keepOne (gsub r replace fuel) text
    | some f => replace f ++ if f.taken = [] then keepOne (gsub r replace fuel) text else gsub r replace fuel f.rest

def substitute (r : Regex α) (replace : Found α → List α) (text : List α) : List α :=
  r.gsub replace (text.length + 1) text

section Split

/-- What is taken and what is left make up the text. -/
def Splits (next : Captures α → List α → List (Found α)) : Prop :=
  ∀ captures text, ∀ f ∈ next captures text, f.taken ++ f.rest = text

/-- `R` holds of all matches. -/
def Holds (R : Captures α → List α → Found α → Prop) (next : Captures α → List α → List (Found α)) : Prop :=
  ∀ captures text, ∀ f ∈ next captures text, R captures text f

/-- A relation that holds of the empty match, and of a match and one behind it if it holds of both. -/
structure Composes (R : Captures α → List α → Found α → Prop) : Prop where
  empty : ∀ captures text, R captures text ⟨[], text, captures⟩
  after : ∀ captures text f g, R captures text f → R f.captures f.rest g → R captures text (f.after g)

omit [DecidableEq α] in
theorem Composes.andThen {R : Captures α → List α → Found α → Prop} (composes : Composes R) {found : List (Found α)}
    {next : Captures α → List α → List (Found α)} (captures : Captures α) (text : List α)
    (here : ∀ f ∈ found, R captures text f) (behind : Holds R next) : ∀ f ∈ andThen found next, R captures text f := by
  intro g hg
  obtain ⟨f, hf, hg⟩ := List.mem_flatMap.1 hg
  obtain ⟨h, hh, rfl⟩ := List.mem_map.1 hg
  exact composes.after captures text f h (here f hf) (behind _ _ h hh)

omit [DecidableEq α] in
theorem Composes.repeats {R : Captures α → List α → Found α → Prop} (composes : Composes R) {lazily : Bool}
    {step : Captures α → List α → List (Found α)} (holds : Holds R step) (fuel : Nat) :
    Holds R (repeats lazily step fuel) := by
  induction fuel with
  | zero =>
    intro captures text f hf
    rw [List.mem_singleton.1 hf]
    exact composes.empty captures text
  | succ fuel ih =>
    intro captures text f hf
    have more : ∀ f ∈ Regex.andThen ((step captures text).filter fun f => !f.taken.isEmpty) (Regex.repeats lazily step fuel),
        R captures text f :=
      composes.andThen captures text (fun f hf => holds captures text f (List.mem_of_mem_filter hf)) ih
    rw [repeats_succ] at hf
    split at hf
    · rcases List.mem_cons.1 hf with rfl | hf
      · exact composes.empty captures text
      · exact more f hf
    · rcases List.mem_append.1 hf with hf | hf
      · exact more f hf
      · rw [List.mem_singleton.1 hf]
        exact composes.empty captures text

omit [DecidableEq α] in
theorem composes_splits : Composes fun (_ : Captures α) text f => f.taken ++ f.rest = text where
  empty := fun _ _ => rfl
  after := by
    intro _ text f g here behind
    rw [Found.after, List.append_assoc, behind, here]

theorem splits_runWord (w : List α) : Splits (runWord w) := by
  intro captures text f hf
  obtain ⟨u, rfl, rfl⟩ := mem_runWord hf
  rfl

theorem splits_run (r : Regex α) : Splits r.run := by
  induction r with
  | set p =>
    intro captures text f hf
    cases text with
    | nil => cases hf
    | cons c text =>
      rw [run_set_cons] at hf
      split at hf
      · rw [List.mem_singleton.1 hf]
        rfl
      · cases hf
  | word w => exact splits_runWord w
  | seq r s ihr ihs =>
    intro captures text
    exact composes_splits.andThen captures text (ihr captures text) ihs
  | alt r s ihr ihs =>
    intro captures text f hf
    rcases List.mem_append.1 hf with hf | hf
    · exact ihr captures text f hf
    · exact ihs captures text f hf
  | star r ih =>
    intro captures text
    exact composes_splits.repeats ih text.length captures text
  | lazyStar r ih =>
    intro captures text
    exact composes_splits.repeats ih text.length captures text
  | group name r ih =>
    intro captures text f hf
    obtain ⟨g, hg, rfl⟩ := List.mem_map.1 hf
    exact ih captures text g hg
  | backref name =>
    intro captures text f hf
    rw [run] at hf
    split at hf
    · exact splits_runWord _ captures text f hf
    · cases hf

theorem splits_first {r : Regex α} {captures : Captures α} {text : List α} {f : Found α}
    (found : r.first captures text = some f) : f.taken ++ f.rest = text :=
  splits_run r captures text f (List.mem_of_mem_head? found)

/-- The names of the groups. -/
def names : Regex α → List String
  | set _ | word _ | backref _ => []
  | seq r s | alt r s => r.names ++ s.names
  | star r | lazyStar r => r.names
  | group name r => name :: r.names

omit [DecidableEq α] in
theorem composes_lookup (name : String) :
    Composes fun (captures : Captures α) _ f => f.captures.lookup name = captures.lookup name where
  empty := fun _ _ => rfl
  after := fun _ _ _ _ here behind => behind.trans here

theorem lookup_runWord (w : List α) (name : String) :
    Holds (fun captures _ f => f.captures.lookup name = captures.lookup name) (runWord w) := by
  intro captures text f hf
  obtain ⟨u, rfl, rfl⟩ := mem_runWord hf
  rfl

/-- An expression captures no other groups than its own. -/
theorem lookup_run {r : Regex α} {name : String} (foreign : name ∉ r.names) :
    Holds (fun captures _ f => f.captures.lookup name = captures.lookup name) r.run := by
  induction r with
  | set p =>
    intro captures text f hf
    cases text with
    | nil => cases hf
    | cons c text =>
      rw [run_set_cons] at hf
      split at hf
      · rw [List.mem_singleton.1 hf]
      · cases hf
  | word w => exact lookup_runWord w name
  | seq r s ihr ihs =>
    rw [names, List.mem_append, not_or] at foreign
    intro captures text
    exact (composes_lookup name).andThen captures text (ihr foreign.1 captures text) (ihs foreign.2)
  | alt r s ihr ihs =>
    rw [names, List.mem_append, not_or] at foreign
    intro captures text f hf
    rcases List.mem_append.1 hf with hf | hf
    · exact ihr foreign.1 captures text f hf
    · exact ihs foreign.2 captures text f hf
  | star r ih =>
    intro captures text
    exact (composes_lookup name).repeats (ih foreign) text.length captures text
  | lazyStar r ih =>
    intro captures text
    exact (composes_lookup name).repeats (ih foreign) text.length captures text
  | group own r ih =>
    rw [names, List.mem_cons, not_or] at foreign
    intro captures text f hf
    obtain ⟨g, hg, rfl⟩ := List.mem_map.1 hf
    have other : (name == own) = false := beq_false_of_ne foreign.1
    rw [List.lookup_cons, other]
    exact ih foreign.2 captures text g hg
  | backref own =>
    intro captures text f hf
    rw [run] at hf
    split at hf
    · exact lookup_runWord _ name captures text f hf
    · cases hf

/-- The least number of characters of a match. -/
def width : Regex α → Nat
  | set _ => 1
  | word w => w.length
  | seq r s => r.width + s.width
  | alt r s => min r.width s.width
  | star _ | lazyStar _ | backref _ => 0
  | group _ r => r.width

theorem width_le {r : Regex α} {captures : Captures α} {text : List α} {f : Found α} (mem : f ∈ r.run captures text) :
    r.width ≤ f.taken.length := by
  induction r generalizing captures text f with
  | set p =>
    cases text with
    | nil => cases mem
    | cons c text =>
      rw [run_set_cons] at mem
      split at mem
      · rw [List.mem_singleton.1 mem]
        exact le_rfl
      · cases mem
  | word w =>
    obtain ⟨u, rfl, rfl⟩ := mem_runWord mem
    exact le_rfl
  | seq r s ihr ihs =>
    obtain ⟨g, hg, mem⟩ := List.mem_flatMap.1 mem
    obtain ⟨h, hh, rfl⟩ := List.mem_map.1 mem
    rw [Found.after, List.length_append]
    exact Nat.add_le_add (ihr hg) (ihs hh)
  | alt r s ihr ihs =>
    rcases List.mem_append.1 mem with mem | mem
    · exact (Nat.min_le_left _ _).trans (ihr mem)
    · exact (Nat.min_le_right _ _).trans (ihs mem)
  | group name r ih =>
    obtain ⟨g, hg, rfl⟩ := List.mem_map.1 mem
    have wide := ih hg
    exact wide
  | star | lazyStar | backref => exact Nat.zero_le _

end Split

section First

variable {r s : Regex α} {captures : Captures α} {text : List α} {f g : Found α}

theorem first_eq_none : r.first captures text = none ↔ r.run captures text = [] := List.head?_eq_none_iff

theorem first_alt_left (found : r.first captures text = some f) : (alt r s).first captures text = some f := by
  rw [first_eq, run_alt, List.head?_append, ← first_eq, found]
  rfl

theorem first_alt_right (none : r.first captures text = none) : (alt r s).first captures text = s.first captures text := by
  rw [first_eq, run_alt, first_eq_none.1 none, List.nil_append, ← first_eq]

omit [DecidableEq α] in
/-- The first match that goes on from the first one. -/
theorem head?_andThen {found : List (Found α)} {next : Captures α → List α → List (Found α)}
    (here : found.head? = some f) (behind : (next f.captures f.rest).head? = some g) :
    (andThen found next).head? = some (f.after g) := by
  obtain ⟨others, rfl⟩ := List.head?_eq_some_iff.1 here
  rw [andThen, List.flatMap_cons, List.head?_append, List.head?_map, behind]
  rfl

theorem first_seq (here : r.first captures text = some f) (behind : s.first f.captures f.rest = some g) :
    (seq r s).first captures text = some (f.after g) := head?_andThen here behind

theorem first_seq_none (all : ∀ f ∈ r.run captures text, s.first f.captures f.rest = none) :
    (seq r s).first captures text = none := by
  rw [first_eq_none, run_seq, andThen, List.flatMap_eq_nil_iff]
  intro f hf
  rw [first_eq_none.1 (all f hf)]
  rfl

theorem first_seq_of_none (none : r.first captures text = none) : (seq r s).first captures text = Option.none := by
  apply first_seq_none
  rw [first_eq_none.1 none]
  exact fun f hf => absurd hf List.not_mem_nil

theorem first_group {name : String} (found : r.first captures text = some f) :
    (group name r).first captures text = some { f with captures := (name, f.taken) :: f.captures } := by
  rw [first_eq, run_group, List.head?_map, ← first_eq, found]
  rfl

theorem first_group_none {name : String} (none : r.first captures text = none) :
    (group name r).first captures text = Option.none := by
  rw [first_eq_none, run_group, first_eq_none.1 none, List.map_nil]

theorem first_set {p : α → Bool} {c : α} (accepted : p c = true) :
    (set p).first captures (c :: text) = some ⟨[c], text, captures⟩ := by
  rw [first_eq, run_set_cons, if_pos accepted]
  rfl

theorem first_set_none {p : α → Bool} (refused : ∀ c ∈ text.head?, p c = false) :
    (set p).first captures text = none := by
  cases text with
  | nil => rfl
  | cons c text =>
    have : p c = false := refused c rfl
    rw [first_eq_none, run_set_cons, this]
    rfl

theorem first_word (w : List α) : (word w).first captures (w ++ text) = some ⟨w, text, captures⟩ := by
  rw [first_eq, run_word, runWord_append]
  rfl

theorem first_word_none {w : List α} (differs : ¬w <+: text) : (word w).first captures text = none := by
  rw [first_eq_none, run_word, runWord_eq_nil differs]

/-- What is behind a word decides. -/
theorem first_word_seq (w : List α) :
    (seq (word w) s).first captures (w ++ text) = (s.first captures text).map (Found.after ⟨w, text, captures⟩) := by
  rw [first_eq, run_seq, run_word, runWord_append, andThen, List.flatMap_singleton, List.head?_map]
  rfl

/-- Behind a word, expressions with the same matches are the same. -/
theorem first_word_seq_congr {w : List α} {s' : Regex α} (same : ∀ t, s.first captures t = s'.first captures t) :
    (seq (word w) s).first captures text = (seq (word w) s').first captures text := by
  by_cases begins : w <+: text
  · obtain ⟨t, rfl⟩ := begins
    rw [first_word_seq, first_word_seq, same]
  · rw [first_seq_of_none (first_word_none begins), first_seq_of_none (first_word_none begins)]

/-- Two words in a row are one. -/
theorem first_word_word (v w : List α) : (seq (word v) (word w)).first captures text = (word (v ++ w)).first captures text := by
  by_cases begins : v <+: text
  · obtain ⟨t, rfl⟩ := begins
    rw [first_word_seq]
    by_cases goesOn : w <+: t
    · obtain ⟨u, rfl⟩ := goesOn
      rw [first_word, ← List.append_assoc, first_word]
      rfl
    · rw [first_word_none goesOn, first_word_none]
      · rfl
      · rwa [List.prefix_append_right_inj]
  · rw [first_seq_of_none (first_word_none begins), first_word_none]
    exact fun both => begins ((List.prefix_append v w).trans both)

/-- A reference back is the word that was captured. -/
theorem first_backref_seq {name : String} {w : List α} (captured : captures.lookup name = some w) :
    (seq (backref name) s).first captures text = (seq (word w) s).first captures text := by
  rw [first_eq, first_eq, run_seq, run_seq, run_backref captured, run_word]

omit [DecidableEq α] in
theorem andThen_congr {found : List (Found α)} {next next' : Captures α → List α → List (Found α)}
    (same : ∀ f ∈ found, next f.captures f.rest = next' f.captures f.rest) : andThen found next = andThen found next' := by
  apply List.flatMap_congr
  intro f hf
  rw [same f hf]

omit [DecidableEq α] in
/-- A repetition that is not empty leaves less to read. -/
theorem rest_lt {step : Captures α → List α → List (Found α)} (splits : Splits step)
    (hf : f ∈ (step captures text).filter fun f => !f.taken.isEmpty) : f.rest.length < text.length := by
  obtain ⟨mem, nonempty⟩ := List.mem_filter.1 hf
  have length := congrArg List.length (splits captures text f mem)
  have : f.taken ≠ [] := by simpa using nonempty
  have := List.length_pos_iff.2 this
  rw [List.length_append] at length
  omega

omit [DecidableEq α] in
/-- Without text there is no repetition. -/
theorem repeats_nil {lazily : Bool} {step : Captures α → List α → List (Found α)} (splits : Splits step) (n : Nat) :
    repeats lazily step n captures [] = [⟨[], [], captures⟩] := by
  cases n with
  | zero => rfl
  | succ n =>
    have none : (step captures []).filter (fun f => !f.taken.isEmpty) = [] := by
      apply List.eq_nil_iff_forall_not_mem.2
      exact fun f hf => absurd (rest_lt splits hf) (Nat.not_lt_zero _)
    rw [repeats_succ, none]
    simp [andThen]

omit [DecidableEq α] in
/-- Fuel for every character is enough. -/
theorem repeats_fuel {lazily : Bool} {step : Captures α → List α → List (Found α)} (splits : Splits step) {n m : Nat}
    (enough : text.length ≤ n) (enough' : text.length ≤ m) :
    repeats lazily step n captures text = repeats lazily step m captures text := by
  induction n generalizing m captures text with
  | zero =>
    obtain rfl := List.length_eq_zero_iff.1 (Nat.le_zero.1 enough)
    rw [repeats_nil splits, repeats_nil splits]
  | succ n ih =>
    cases m with
    | zero =>
      obtain rfl := List.length_eq_zero_iff.1 (Nat.le_zero.1 enough')
      rw [repeats_nil splits, repeats_nil splits]
    | succ m =>
      rw [repeats_succ, repeats_succ, andThen_congr]
      intro f hf
      have := rest_lt splits hf
      exact ih (by omega) (by omega)

/-- One repetition more, or none. -/
theorem run_star : (star r).run captures text =
    andThen ((r.run captures text).filter fun f => !f.taken.isEmpty) (star r).run ++ [⟨[], text, captures⟩] := by
  rw [run_repeats, repeats_fuel (m := text.length + 1) (splits_run r) le_rfl (by omega), repeats_succ]
  rw [if_neg (by decide), andThen_congr]
  intro f hf
  rw [run_repeats]
  have := rest_lt (splits_run r) hf
  exact repeats_fuel (splits_run r) (by omega) le_rfl

theorem run_lazyStar : (lazyStar r).run captures text =
    ⟨[], text, captures⟩ :: andThen ((r.run captures text).filter fun f => !f.taken.isEmpty) (lazyStar r).run := by
  rw [run_repeats_lazily, repeats_fuel (m := text.length + 1) (splits_run r) le_rfl (by omega), repeats_succ]
  rw [if_pos rfl, andThen_congr]
  intro f hf
  rw [run_repeats_lazily]
  have := rest_lt (splits_run r) hf
  exact repeats_fuel (splits_run r) (by omega) le_rfl

theorem first_star_isSome : ((star r).first captures text).isSome := by
  rw [first_eq, run_star, List.isSome_head?]
  simp

/-- A greedy star goes on behind the first repetition. -/
theorem first_star_cons (found : r.first captures text = some f) (nonempty : f.taken ≠ []) :
    (star r).first captures text = ((star r).first f.captures f.rest).map f.after := by
  obtain ⟨g, behind⟩ : ∃ g, (star r).first f.captures f.rest = some g := Option.isSome_iff_exists.1 first_star_isSome
  have here : ((r.run captures text).filter fun f => !f.taken.isEmpty).head? = some f := by
    obtain ⟨others, eq⟩ := List.head?_eq_some_iff.1 found
    rw [eq, List.filter_cons_of_pos (by simpa using nonempty)]
    rfl
  rw [behind, first_eq, run_star, List.head?_append, head?_andThen here behind]
  rfl

theorem first_star_nil (none : r.first captures text = none) : (star r).first captures text = some ⟨[], text, captures⟩ := by
  rw [first_eq, run_star, first_eq_none.1 none]
  rfl

/-- The longest run of characters of a set. -/
theorem first_star_set {p : α → Bool} :
    (star (set p)).first captures text = some ⟨text.takeWhile p, text.dropWhile p, captures⟩ := by
  induction text with
  | nil => exact first_star_nil rfl
  | cons c text ih =>
    by_cases accepted : p c = true
    · rw [first_star_cons (first_set accepted) (by simp), ih, List.takeWhile_cons_of_pos accepted,
        List.dropWhile_cons_of_pos accepted]
      rfl
    · rw [List.takeWhile_cons_of_neg accepted, List.dropWhile_cons_of_neg accepted]
      exact first_star_nil (first_set_none fun d hd => by cases hd; simpa using accepted)

/-- Where the matches of a star over a set may end: in front of a character of the set, or behind
the run. -/
theorem rest_of_mem_star_set {p : α → Bool} (mem : f ∈ (star (set p)).run captures text) :
    f.rest = text.dropWhile p ∨ ∃ c ∈ f.rest.head?, p c = true := by
  induction text generalizing f with
  | nil =>
    obtain ⟨-, ended⟩ := List.append_eq_nil_iff.1 (splits_run _ captures [] f mem)
    exact Or.inl ended
  | cons c text ih =>
    rw [run_star] at mem
    by_cases accepted : p c = true
    · rcases List.mem_append.1 mem with more | here
      · rw [run_set_cons, if_pos accepted] at more
        simp only [List.filter_cons, List.isEmpty_cons, Bool.not_false, if_true, List.filter_nil, andThen,
          List.flatMap_singleton, List.mem_map] at more
        obtain ⟨g, hg, rfl⟩ := more
        rw [List.dropWhile_cons_of_pos accepted]
        have ended := ih hg
        exact ended
      · rw [List.mem_singleton.1 here]
        exact Or.inr ⟨c, rfl, accepted⟩
    · rw [first_eq_none.1 (first_set_none fun d hd => by cases hd; simpa using accepted)] at mem
      rw [List.dropWhile_cons_of_neg accepted, List.mem_singleton.1 mem]
      exact Or.inl rfl

/-- A lazy star stops where what is behind it matches. -/
theorem first_lazy_stop (found : s.first captures text = some g) : (seq (lazyStar r) s).first captures text = some g := by
  have behind : (s.run captures text).head? = some g := found
  rw [first_eq, run_seq, run_lazyStar]
  exact head?_andThen (f := ⟨[], text, captures⟩) rfl behind

omit [DecidableEq α] in
theorem andThen_map_after {found : List (Found α)} {next : Captures α → List α → List (Found α)} :
    andThen (found.map f.after) next = (andThen found next).map f.after := by
  simp only [andThen, List.flatMap_map, List.map_flatMap, List.map_map]
  apply List.flatMap_congr
  intro g _
  simp [Found.after, Function.comp_def]

/-- Elsewhere it takes a character. -/
theorem first_lazy_cons {c : α} (none : s.first captures (c :: text) = none) :
    (seq (lazyStar (set fun _ => true)) s).first captures (c :: text) =
      ((seq (lazyStar (set fun _ => true)) s).first captures text).map (Found.after ⟨[c], text, captures⟩) := by
  have runs : (seq (lazyStar (set fun _ => true)) s).run captures (c :: text) =
      ((seq (lazyStar (set fun _ => true)) s).run captures text).map (Found.after ⟨[c], text, captures⟩) := by
    rw [run_seq, run_lazyStar, run_set_cons, if_pos rfl]
    simp only [List.filter_cons, List.isEmpty_cons, Bool.not_false, if_true, List.filter_nil]
    have single : ∀ next, andThen [⟨[c], text, captures⟩] next = (next captures text).map (Found.after ⟨[c], text, captures⟩) :=
      fun next => List.flatMap_singleton ..
    rw [andThen, List.flatMap_cons, first_eq_none.1 none, List.map_nil, List.nil_append, ← andThen, single,
      andThen_map_after]
    rfl
  rw [first_eq, runs, List.head?_map, ← first_eq]

/-- Up to the first place where a word stands. -/
theorem first_lazy_cut {w body rest : List α} (word : ∀ t, s.first captures t = (word w).first captures t)
    (cut : cutAt w text = some (body, rest)) :
    (seq (lazyStar (set fun _ => true)) s).first captures text = some ⟨body ++ w, rest, captures⟩ := by
  induction text generalizing body with
  | nil =>
    rw [cutAt] at cut
    split at cut
    · rename_i empty
      cases cut
      apply first_lazy_stop
      rw [word, empty]
      exact first_word []
    · cases cut
  | cons c text ih =>
    rw [cutAt] at cut
    split at cut
    · rename_i here
      cases cut
      obtain ⟨u, eq⟩ := here
      apply first_lazy_stop
      rw [word, ← eq, List.drop_left]
      exact first_word w
    · rename_i elsewhere
      obtain ⟨⟨body', rest'⟩, found, eq⟩ := Option.map_eq_some_iff.1 cut
      cases eq
      rw [first_lazy_cons ((word _).trans (first_word_none elsewhere)), ih found]
      rfl

end First

section Substitute

variable {r : Regex α} {replace : Found α → List α} {text : List α} {f : Found α}

theorem length_rest_lt (found : r.first [] text = some f) (nonempty : f.taken ≠ []) : f.rest.length < text.length := by
  have length := congrArg List.length (splits_first found)
  have := List.length_pos_iff.2 nonempty
  rw [List.length_append] at length
  omega

/-- Fuel for every character and the end is enough. -/
theorem gsub_fuel {n m : Nat} (enough : text.length < n) (enough' : text.length < m) :
    r.gsub replace n text = r.gsub replace m text := by
  induction n generalizing m text with
  | zero => omega
  | succ n ih =>
    obtain ⟨m, rfl⟩ : ∃ k, m = k + 1 := ⟨m - 1, by omega⟩
    have kept : keepOne (r.gsub replace n) text = keepOne (r.gsub replace m) text := by
      cases text with
      | nil => rfl
      | cons c text =>
        rw [List.length_cons] at enough enough'
        rw [keepOne, keepOne, @ih text m (by omega) (by omega)]
    rw [gsub, gsub]
    cases found : r.first [] text with
    | none => exact kept
    | some f =>
      simp only
      by_cases nonempty : f.taken = []
      · rw [if_pos nonempty, if_pos nonempty, kept]
      · have := length_rest_lt found nonempty
        rw [if_neg nonempty, if_neg nonempty, @ih f.rest m (by omega) (by omega)]

theorem substitute_nil (none : r.first [] [] = none) : r.substitute replace [] = [] := by
  rw [substitute, gsub, none]
  rfl

/-- Where nothing matches a character is kept. -/
theorem substitute_none {c : α} (none : r.first [] (c :: text) = none) :
    r.substitute replace (c :: text) = c :: r.substitute replace text := by
  rw [substitute, gsub, none]
  rfl

/-- A match is replaced. -/
theorem substitute_found (found : r.first [] text = some f) (nonempty : f.taken ≠ []) :
    r.substitute replace text = replace f ++ r.substitute replace f.rest := by
  rw [substitute, gsub, found]
  simp only
  rw [if_neg nonempty, substitute, gsub_fuel (length_rest_lt found nonempty) (Nat.lt_succ_self _)]

/-- A match of nothing puts its replacement in front of the next character. -/
theorem substitute_empty {c : α} (found : r.first [] (c :: text) = some f) (empty : f.taken = []) :
    r.substitute replace (c :: text) = replace f ++ c :: r.substitute replace text := by
  rw [substitute, gsub, found]
  simp only
  rw [if_pos empty]
  rfl

/-- A text stays as it is if what replaces its matches are the matches themselves. -/
theorem substitute_kept (kept : ∀ front back, text = front ++ back → ∀ f, r.first [] back = some f → replace f = f.taken) :
    r.substitute replace text = text := by
  induction length : text.length using Nat.strong_induction_on generalizing text with
  | _ n ih =>
    have behind : ∀ front back, text = front ++ back → back.length < n → r.substitute replace back = back := by
      intro front back split shorter
      apply ih back.length shorter _ rfl
      intro front' back' split'
      exact kept (front ++ front') back' (by rw [split, split', List.append_assoc])
    cases found : r.first [] text with
    | none =>
      cases text with
      | nil => exact substitute_nil found
      | cons c text =>
        rw [List.length_cons] at length
        rw [substitute_none found, behind [c] text rfl (by omega)]
    | some f =>
      have same := kept [] text rfl f found
      have split := splits_first found
      by_cases empty : f.taken = []
      · cases text with
        | nil =>
          rw [substitute, gsub, found]
          simp only
          rw [if_pos empty, same, empty]
          rfl
        | cons c text =>
          rw [List.length_cons] at length
          rw [substitute_empty found empty, same, empty, behind [c] text rfl (by omega)]
          rfl
      · have shorter := length_rest_lt found empty
        rw [substitute_found found empty, same, behind f.taken f.rest split.symm (by omega), split]

end Substitute

end Regex

end RubyPg
