import RubyPg.Encodings
import RubyPg.Lib.Quoted

/-!
# Connection strings

`PG::Connection.connect_hash_to_string` of `lib/pg/connection.rb` quotes the values of options by characters, as
`gsub` goes, and libpq reads the string by bytes. The options come back if, and only if, no character of several bytes
has a quote or backslash among them (`options_come_back_iff`).
-/

namespace RubyPg.Conninfo
set_option autoImplicit false
open Ascii

abbrev squote : UInt8 := 0x27

/-- A Ruby String, by its characters. -/
abbrev RString := List Bytes

/-- `/[\\']/`, of a character of one byte. -/
def quoteRe (b : UInt8) : Bool := b == backslash || b == squote

/-- `PG::Connection.quote_connstr`. -/
def quoteConnstr (value : RString) : Bytes :=
  squote :: ((value.flatMap (charEsc quoteRe fun _ => backslash)).flatten ++ [squote])

/-- `PG::Connection.connect_hash_to_string`. -/
def connectHashToString (hash : List (Bytes × RString)) : Bytes :=
  [space].intercalate (hash.map fun option => option.1 ++ equals :: quoteConnstr option.2)

/-! ## The grammar of libpq -/

/-- `isspace`. -/
def isSpace (c : UInt8) : Bool := c == space || c == tab || c == newline || c == vtab || c == formfeed || c == cr

/-- A value without quotes: up to a blank. -/
def readPlain : Bool → Bytes → Bytes × Bytes
  | _, [] => ([], [])
  | true, c :: rest => (readPlain false rest).map (c :: ·) id
  | false, c :: rest =>
    if isSpace c then ([], rest)
    else if c = backslash then readPlain true rest
    else (readPlain false rest).map (c :: ·) id

/-- A value, with quotes or without. -/
def readValue : Bytes → Option (Bytes × Bytes)
  | [] => some ([], [])
  | c :: rest => if c = squote then readQuoted backslash squote false rest else some (readPlain false (c :: rest))

/-- A character of a keyword. -/
def inKeyword (c : UInt8) : Bool := c != equals && !isSpace c

/-- A keyword, `=` and a value; there may be blanks around the `=`. -/
def readOption (s : Bytes) : Option ((Bytes × Bytes) × Bytes) :=
  match (s.dropWhile inKeyword).dropWhile isSpace with
  | [] => none
  | c :: rest =>
    if c = equals then (readValue (rest.dropWhile isSpace)).map (Prod.map (s.takeWhile inKeyword, ·) id) else none

theorem readPlain_length (literal : Bool) (s : Bytes) : (readPlain literal s).2.length ≤ s.length := by
  induction s generalizing literal with
  | nil =>
    cases literal with
    | true => exact Nat.le_refl 0
    | false => exact Nat.le_refl 0
  | cons c s ih =>
    cases literal with
    | true => exact Nat.le_succ_of_le (ih false)
    | false =>
      rw [readPlain]
      split
      · exact Nat.le_succ _
      split
      · exact Nat.le_succ_of_le (ih true)
      · exact Nat.le_succ_of_le (ih false)

theorem readValue_length {s value rest : Bytes} (read : readValue s = some (value, rest)) : rest.length ≤ s.length := by
  cases s with
  | nil =>
    cases read
    exact Nat.le_refl 0
  | cons c s =>
    rw [readValue] at read
    split at read
    · exact Nat.le_succ_of_le (readQuoted_length read)
    · have plain := readPlain_length false (c :: s)
      rwa [Option.some.inj read] at plain

theorem readOption_length {s rest : Bytes} {option : Bytes × Bytes} (read : readOption s = some (option, rest)) :
    rest.length < s.length := by
  unfold readOption at read
  split at read
  · cases read
  · rename_i c behind found
    split at read
    · obtain ⟨value, -, after⟩ := map_read_eq_some.1 read
      have front : (c :: behind).length ≤ s.length := by
        rw [← found]
        exact Nat.le_trans (List.length_dropWhile_le _ _) (List.length_dropWhile_le _ _)
      have blanks : (behind.dropWhile isSpace).length ≤ behind.length := List.length_dropWhile_le _ _
      have inside := readValue_length after
      rw [List.length_cons] at front
      omega
    · cases read

/-- The options of a string. -/
def parseOptions (s : Bytes) : Option (List (Bytes × Bytes)) :=
  if s.dropWhile isSpace = [] then some []
  else
    match _found : readOption (s.dropWhile isSpace) with
    | none => none
    | some (option, rest) => (parseOptions rest).map (option :: ·)
termination_by s.length
decreasing_by exact Nat.lt_of_lt_of_le (readOption_length _found) (List.length_dropWhile_le _ _)

/-- `conninfo_parse` of libpq, without the list of known keywords. -/
def conninfoParse (conninfo : Bytes) : Option (List (Bytes × Bytes)) := parseOptions (cString conninfo)

theorem parseOptions_eq (s : Bytes) : parseOptions s =
    if s.dropWhile isSpace = [] then some []
    else (readOption (s.dropWhile isSpace)).bind fun read => (parseOptions read.2).map (read.1 :: ·) := by
  rw [parseOptions]
  split
  · rfl
  split
  · rename_i refused
    rw [refused]
    rfl
  · rename_i found
    rw [found]
    rfl

theorem parseOptions_nil : parseOptions [] = some [] := by
  rw [parseOptions_eq]
  exact if_pos rfl

/-- Blanks in front do not matter. -/
theorem parseOptions_blank {c : UInt8} (blank : isSpace c = true) (s : Bytes) : parseOptions (c :: s) = parseOptions s := by
  rw [parseOptions_eq, List.dropWhile_cons_of_pos blank, ← parseOptions_eq]

section RoundTrip

/-- A keyword that is read as a whole. -/
def ValidKeyword (keyword : Bytes) : Prop := nul ∉ keyword ∧ ∀ c ∈ keyword, inKeyword c = true

instance (keyword : Bytes) : Decidable (ValidKeyword keyword) :=
  decidable_of_iff (nul ∉ keyword ∧ keyword.all inKeyword = true) (by rw [List.all_eq_true]; rfl)

variable {keyword rest : Bytes}

theorem dropWhile_keyword (valid : ValidKeyword keyword) : (keyword ++ equals :: rest).dropWhile inKeyword = equals :: rest := by
  rw [List.dropWhile_append_of_pos valid.2]
  exact List.dropWhile_cons_of_neg (by decide)

theorem takeWhile_keyword (valid : ValidKeyword keyword) : (keyword ++ equals :: rest).takeWhile inKeyword = keyword := by
  rw [List.takeWhile_append_of_pos valid.2, List.takeWhile_cons_of_neg (by decide), List.append_nil]

/-- No blank stands in front of an option. -/
theorem dropWhile_option (valid : ValidKeyword keyword) :
    (keyword ++ equals :: rest).dropWhile isSpace = keyword ++ equals :: rest := by
  cases keyword with
  | nil => exact List.dropWhile_cons_of_neg (by decide)
  | cons c keyword =>
    have first := valid.2 c List.mem_cons_self
    apply List.dropWhile_cons_of_neg
    intro blank
    simp [inKeyword, blank] at first

/-- An option with a quoted value comes first. -/
theorem parseOptions_quoted (valid : ValidKeyword keyword) (body : Bytes) :
    parseOptions (keyword ++ equals :: squote :: body) = (readQuoted backslash squote false body).bind fun read =>
      (parseOptions read.2).map ((keyword, read.1) :: ·) := by
  have nonempty : keyword ++ equals :: squote :: body ≠ [] := List.append_ne_nil_of_right_ne_nil _ (List.cons_ne_nil _ _)
  have read : readOption (keyword ++ equals :: squote :: body) =
      (readQuoted backslash squote false body).map (Prod.map (keyword, ·) id) := by
    unfold readOption
    rw [dropWhile_keyword valid, takeWhile_keyword valid]
    rfl
  rw [parseOptions_eq, dropWhile_option valid, if_neg nonempty, read, Option.bind_map]
  rfl

/-! ## What is marked -/

/-- The bytes of a value, and which of them `gsub` puts a backslash in front of. -/
def marksOf (value : RString) : List (UInt8 × Bool) := value.flatMap fun c => c.map fun b => (b, decide (c.length = 1) && quoteRe b)

theorem special_iff {b : UInt8} : Special backslash squote b ↔ quoteRe b = true := by simp [Special, quoteRe]

theorem written_char (c : Bytes) : markedText backslash (c.map fun b => (b, decide (c.length = 1) && quoteRe b)) =
    (charEsc quoteRe (fun _ => backslash) c).flatten := by
  by_cases single : c.length = 1
  · obtain ⟨b, rfl⟩ := List.length_eq_one_iff.1 single
    rw [flatten_charEsc_singleton, markEsc]
    cases marked : quoteRe b with
    | true => simp [marked]
    | false => simp [marked]
  · have bare : ∀ w : Bytes, markedText backslash (w.map fun b => (b, false)) = w := by
      intro w
      induction w with
      | nil => rfl
      | cons b w ih => rw [List.map_cons, markedText_bare, ih]
    rw [charEsc_of_length single, List.flatten_singleton, decide_eq_false single]
    exact bare c

theorem written_marksOf (value : RString) :
    markedText backslash (marksOf value) = (value.flatMap (charEsc quoteRe fun _ => backslash)).flatten := by
  induction value with
  | nil => rfl
  | cons c value ih =>
    have front := written_char c
    unfold markedText marksOf at *
    rw [List.flatMap_cons, List.flatMap_append, front, ih, List.flatMap_cons, List.flatten_append]

theorem text_marksOf (value : RString) : (marksOf value).map Prod.fst = value.flatten := by
  induction value with
  | nil => rfl
  | cons c value ih =>
    unfold marksOf at *
    rw [List.flatMap_cons, List.map_append, ih, List.map_map, List.flatten_cons]
    exact congrArg (· ++ value.flatten) (List.map_id c)

theorem mem_marksOf {value : RString} {p : UInt8 × Bool} (member : p ∈ marksOf value) :
    ∃ c ∈ value, p.1 ∈ c ∧ p.2 = (decide (c.length = 1) && quoteRe p.1) := by
  obtain ⟨c, inside, member⟩ := List.mem_flatMap.1 member
  obtain ⟨b, byte, rfl⟩ := List.mem_map.1 member
  exact ⟨c, inside, byte, rfl⟩

theorem marksSpecial_marksOf (value : RString) : MarksSpecial backslash squote (marksOf value) := by
  intro p member marked
  obtain ⟨c, -, -, flag⟩ := mem_marksOf member
  rw [flag, Bool.and_eq_true] at marked
  exact special_iff.2 marked.2

theorem allMarked_marksOf (value : RString) : AllMarked backslash squote (marksOf value) ↔ ∀ c ∈ value, Whole quoteRe c := by
  constructor
  · intro all c inside long b byte
    by_contra special
    have quoted : quoteRe b = true := Bool.eq_true_of_not_eq_false special
    have member : (b, decide (c.length = 1) && quoteRe b) ∈ marksOf value :=
      List.mem_flatMap.2 ⟨c, inside, List.mem_map.2 ⟨b, byte, rfl⟩⟩
    have marked := all _ member (special_iff.2 quoted)
    simp [long] at marked
  · intro whole p member special
    obtain ⟨c, inside, byte, flag⟩ := mem_marksOf member
    have quoted := special_iff.1 special
    rw [flag, quoted, Bool.and_true, decide_eq_true_eq]
    by_contra long
    have plain := whole c inside long p.1 byte
    rw [quoted] at plain
    cases plain

/-! ## The options come back -/

/-- What follows the first option. -/
theorem connectHashToString_cons (option : Bytes × RString) (hash : List (Bytes × RString)) :
    ∃ tail, connectHashToString (option :: hash) =
        option.1 ++ equals :: squote :: (markedText backslash (marksOf option.2) ++ squote :: tail) ∧
      parseOptions tail = parseOptions (connectHashToString hash) ∧ (nul ∈ tail → nul ∈ connectHashToString hash) := by
  have front (tail : Bytes) : option.1 ++ equals :: quoteConnstr option.2 ++ tail =
      option.1 ++ equals :: squote :: (markedText backslash (marksOf option.2) ++ squote :: tail) := by
    unfold quoteConnstr
    rw [written_marksOf]
    simp
  cases hash with
  | nil =>
    refine ⟨[], ?_, rfl, id⟩
    rw [← front, List.append_nil]
    simp [connectHashToString]
  | cons next hash =>
    refine ⟨space :: connectHashToString (next :: hash), ?_, parseOptions_blank (by decide) _, ?_⟩
    · rw [← front]
      unfold connectHashToString
      rw [List.map_cons, List.map_cons, List.intercalate_cons_cons, List.append_assoc]
      rfl
    · intro member
      rcases List.mem_cons.1 member with blank | member
      · cases blank
      · exact member

theorem parseOptions_connectHashToString {hash : List (Bytes × RString)} (valid : ∀ option ∈ hash, ValidKeyword option.1) :
    parseOptions (connectHashToString hash) = some (hash.map fun option => (option.1, option.2.flatten)) ↔
      ∀ option ∈ hash, ∀ c ∈ option.2, Whole quoteRe c := by
  induction hash with
  | nil => exact iff_of_true parseOptions_nil fun option member => by cases member
  | cons option hash ih =>
    have later := ih fun next member => valid next (List.mem_cons_of_mem _ member)
    obtain ⟨tail, text, rest, -⟩ := connectHashToString_cons option hash
    have apart : squote ≠ backslash := by decide
    rw [text, parseOptions_quoted (valid option List.mem_cons_self), List.forall_mem_cons, List.map_cons]
    by_cases whole : ∀ c ∈ option.2, Whole quoteRe c
    · rw [readQuoted_written apart ((allMarked_marksOf option.2).2 whole), text_marksOf, Option.bind_some, rest,
        and_iff_right whole, ← later]
      constructor
      · intro same
        obtain ⟨others, parsed, front⟩ := Option.map_eq_some_iff.1 same
        rw [parsed, (List.cons.inj front).2]
      · intro same
        rw [same]
        rfl
    · refine iff_of_false ?_ fun all => whole all.1
      intro same
      obtain ⟨⟨value, after⟩, read, parsed⟩ := Option.bind_eq_some_iff.1 same
      obtain ⟨others, -, front⟩ := Option.map_eq_some_iff.1 parsed
      have value : value = (marksOf option.2).map Prod.fst := by
        rw [text_marksOf]
        exact (Prod.mk.inj (List.cons.inj front).1).2
      rw [value] at read
      exact whole ((allMarked_marksOf option.2).1 ((readQuoted_written_iff apart (marksSpecial_marksOf _)).1 ⟨after, read⟩))

theorem nul_notMem_written {value : RString} (none : nul ∉ value.flatten) : nul ∉ markedText backslash (marksOf value) := by
  intro member
  obtain ⟨p, inside, member⟩ := List.mem_flatMap.1 member
  have text : p.1 ∈ value.flatten := by
    rw [← text_marksOf]
    exact List.mem_map_of_mem inside
  have byte : nul = p.1 := by
    split at member
    · simpa [backslash, nul] using member
    · simpa using member
  exact none (byte ▸ text)

theorem nul_notMem_connectHashToString {hash : List (Bytes × RString)} (valid : ∀ option ∈ hash, ValidKeyword option.1)
    (none : ∀ option ∈ hash, nul ∉ option.2.flatten) : nul ∉ connectHashToString hash := by
  induction hash with
  | nil => exact List.not_mem_nil
  | cons option hash ih =>
    obtain ⟨tail, text, -, behind⟩ := connectHashToString_cons option hash
    have later := mt behind (ih (fun next member => valid next (List.mem_cons_of_mem _ member)) fun next member =>
      none next (List.mem_cons_of_mem _ member))
    have keyword := (valid option List.mem_cons_self).1
    have value := nul_notMem_written (none option List.mem_cons_self)
    have others : nul ≠ equals ∧ nul ≠ squote := by decide
    rw [text]
    simp [keyword, value, later, others]

/-- **Options** come back from the connection string if, and only if, no character of several bytes has a quote or
backslash among them. -/
theorem options_come_back_iff {hash : List (Bytes × RString)} (valid : ∀ option ∈ hash, ValidKeyword option.1)
    (none : ∀ option ∈ hash, nul ∉ option.2.flatten) :
    conninfoParse (connectHashToString hash) = some (hash.map fun option => (option.1, option.2.flatten)) ↔
      ∀ option ∈ hash, ∀ c ∈ option.2, Whole quoteRe c := by
  unfold conninfoParse
  rw [cString_of_notMem (nul_notMem_connectHashToString valid none)]
  exact parseOptions_connectHashToString valid

/-- `host='a' password='\\\''`. -/
theorem options_come_back_password :
    conninfoParse (connectHashToString [([0x68, 0x6f, 0x73, 0x74], [[0x61]]),
      ([0x70, 0x61, 0x73, 0x73, 0x77, 0x6f, 0x72, 0x64], [[backslash], [squote]])]) =
      some [([0x68, 0x6f, 0x73, 0x74], [0x61]), ([0x70, 0x61, 0x73, 0x73, 0x77, 0x6f, 0x72, 0x64], [backslash, squote])] :=
  (@options_come_back_iff [([0x68, 0x6f, 0x73, 0x74], [[0x61]]),
    ([0x70, 0x61, 0x73, 0x73, 0x77, 0x6f, 0x72, 0x64], [[backslash], [squote]])] (by decide) (by decide)).2 (by decide)

/-- In Windows-31J `host` is one character of two bytes, `95 5C`, and `password` is ` hostaddr=h user=y`: the latter is
dropped and two options are added. -/
theorem half_character_breaks_out : ∃ charset, rbEncFind "Windows-31J" = some charset ∧ [0x95, 0x5c] ∈ charset.code ∧
    conninfoParse (connectHashToString [([0x68, 0x6f, 0x73, 0x74], [[0x95, 0x5c]]),
      ([0x70, 0x61, 0x73, 0x73, 0x77, 0x6f, 0x72, 0x64], [[0x20], [0x68], [0x6f], [0x73], [0x74], [0x61], [0x64], [0x64],
        [0x72], [0x3d], [0x68], [0x20], [0x75], [0x73], [0x65], [0x72], [0x3d], [0x79]])]) =
      some [([0x68, 0x6f, 0x73, 0x74], [0x95, 0x27, 0x20, 0x70, 0x61, 0x73, 0x73, 0x77, 0x6f, 0x72, 0x64, 0x3d]),
        ([0x68, 0x6f, 0x73, 0x74, 0x61, 0x64, 0x64, 0x72], [0x68]), ([0x75, 0x73, 0x65, 0x72], [0x79, 0x27])] := by
  refine ⟨windows31J, rfl, rfl, ?_⟩
  unfold conninfoParse
  rw [parseOptions_eq, if_neg (by decide)]
  show (parseOptions [0x20, 0x68, 0x6f, 0x73, 0x74, 0x61, 0x64, 0x64, 0x72, 0x3d, 0x68, 0x20, 0x75, 0x73, 0x65, 0x72, 0x3d,
    0x79, 0x27]).map _ = _
  rw [parseOptions_eq, if_neg (by decide)]
  show Option.map _ ((parseOptions [0x75, 0x73, 0x65, 0x72, 0x3d, 0x79, 0x27]).map _) = _
  rw [parseOptions_eq, if_neg (by decide)]
  show Option.map _ (Option.map _ ((parseOptions []).map _)) = _
  rw [parseOptions_nil]
  rfl

end RoundTrip

/-! ## Encodings where that cannot happen -/

theorem whole_quoteRe {entry : String × String} {charset : Charset} (found : Listed entry charset)
    (other : entry.1 ∉ backslashTrails) {c : Bytes} (coded : c ∈ charset.code) : Whole quoteRe c := by
  have checked : ∀ entry ∈ pgEncPg2rubyMapping, ((rbEncFind entry.2).all fun charset => !charset.trails squote) = true := by
    decide
  have sound := checked entry found.listed
  rw [found.found, Option.all_some, Bool.not_eq_true'] at sound
  intro long b member
  by_contra special
  rcases special_iff.2 (Bool.eq_true_of_not_eq_false special) with rfl | rfl
  · exact (found.quote_free other coded long).2 member
  · rw [Charset.trails_of_mem coded long member] at sound
    cases sound

/-- Options in UTF-8, and in all client encodings but BIG5, GB18030, GBK, SJIS and SHIFT_JIS_2004, come back. -/
theorem options_come_back {entry : String × String} {charset : Charset} (found : Listed entry charset)
    (other : entry.1 ∉ backslashTrails) {hash : List (Bytes × RString)} (valid : ∀ option ∈ hash, ValidKeyword option.1)
    (none : ∀ option ∈ hash, nul ∉ option.2.flatten) (coded : ∀ option ∈ hash, ∀ c ∈ option.2, c ∈ charset.code) :
    conninfoParse (connectHashToString hash) = some (hash.map fun option => (option.1, option.2.flatten)) := by
  unfold conninfoParse
  rw [cString_of_notMem (nul_notMem_connectHashToString valid none)]
  apply (parseOptions_connectHashToString valid).2
  exact fun option member c inside => whole_quoteRe found other (coded option member c inside)

end RubyPg.Conninfo
