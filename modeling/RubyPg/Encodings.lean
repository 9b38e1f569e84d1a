import RubyPg.Value
import RubyPg.Lib.Multibyte

/-!
# The client encodings and their characters

`pg_enc_pg2ruby_mapping` of `ext/pg.c` gives for each PostgreSQL client encoding the Ruby
encoding the strings are tagged with. `rb_enc_find` is Ruby's; here it gives the characters of
the encoding, as ranges for the bytes of each kind of character.

`listed_charset` says of every entry of the table that its characters are prefix-free and that
every ASCII code is one of them. `backslash_trails_iff` says in which of the encodings the
code of the backslash occurs inside another character.
-/

namespace RubyPg
set_option autoImplicit false

/-- The bytes that may stand at one place, as ranges with both ends. -/
abbrev ByteSet := List (UInt8 × UInt8)

/-- A kind of character: the bytes at each of its places. -/
abbrev Pattern := List ByteSet

/-- The kinds of characters of an encoding. -/
abbrev Charset := List Pattern

/-- A byte is in one of the ranges. -/
def ByteSet.has (set : ByteSet) (b : UInt8) : Bool := set.any fun range => decide (range.1 ≤ b) && decide (b ≤ range.2)

/-- The bytes of a character stand in the places of its kind. -/
def Pattern.takes : Pattern → Bytes → Bool
  | [], [] => true
  | set :: pattern, b :: c => ByteSet.has set b && Pattern.takes pattern c
  | _, _ => false

/-- The characters of an encoding. -/
def Charset.code (charset : Charset) : Set Bytes := fun c => charset.any (fun pattern => Pattern.takes pattern c) = true

instance (charset : Charset) (c : Bytes) : Decidable (c ∈ charset.code) :=
  inferInstanceAs (Decidable (charset.any (fun pattern => Pattern.takes pattern c) = true))

/-- Two sets of ranges with no byte in common. -/
def ByteSet.disjoint (set set' : ByteSet) : Bool :=
  set.all fun range => set'.all fun range' => decide (range.2 < range'.1) || decide (range'.2 < range.1)

/-- No character of one kind begins one of another: they are equally long, or differ at a place
both have, and no kind is empty. -/
def Charset.prefixFree (charset : Charset) : Bool :=
  charset.all fun p => decide (p ≠ []) &&
    charset.all fun q => decide (p.length = q.length) || (p.zip q).any fun place => ByteSet.disjoint place.1 place.2

/-- A kind of one byte that has all ASCII codes. -/
def Pattern.ascii : Pattern → Bool
  | [[(low, high)]] => decide (low = 0x00) && decide (0x7f ≤ high)
  | _ => false

/-- Every ASCII code is a character. -/
def Charset.asciiCompatible (charset : Charset) : Bool := charset.any Pattern.ascii

/-- A byte occurs in a character of several. -/
def Charset.trails (charset : Charset) (b : UInt8) : Bool :=
  charset.any fun p => decide (p.length ≠ 1) && p.any fun set => ByteSet.has set b

/-- The encodings of one byte a character. -/
def singleByte : Charset := [[[(0x00, 0xff)]]]

/-- The characters of two bytes from `A1` to `FE`, beside ASCII. -/
def eucPair : Charset := [[[(0x00, 0x7f)]], [[(0xa1, 0xfe)], [(0xa1, 0xfe)]]]

/-- The characters of Shift-JIS, as Windows has it. -/
def windows31J : Charset :=
  [[[(0x00, 0x7f)]], [[(0xa1, 0xdf)]], [[(0x81, 0x9f), (0xe0, 0xfc)], [(0x40, 0x7e), (0x80, 0xfc)]]]

/-- `rb_enc_find` for the encodings of the table, by their characters. -/
def rbEncFind : String → Option Charset
  | "UTF-8" => some
    [[[(0x00, 0x7f)]],
     [[(0xc2, 0xdf)], [(0x80, 0xbf)]],
     [[(0xe0, 0xe0)], [(0xa0, 0xbf)], [(0x80, 0xbf)]],
     [[(0xe1, 0xec), (0xee, 0xef)], [(0x80, 0xbf)], [(0x80, 0xbf)]],
     [[(0xed, 0xed)], [(0x80, 0x9f)], [(0x80, 0xbf)]],
     [[(0xf0, 0xf0)], [(0x90, 0xbf)], [(0x80, 0xbf)], [(0x80, 0xbf)]],
     [[(0xf1, 0xf3)], [(0x80, 0xbf)], [(0x80, 0xbf)], [(0x80, 0xbf)]],
     [[(0xf4, 0xf4)], [(0x80, 0x8f)], [(0x80, 0xbf)], [(0x80, 0xbf)]]]
  | "Big5" => some [[[(0x00, 0x7f)]], [[(0xa1, 0xfe)], [(0x40, 0x7e), (0xa1, 0xfe)]]]
  | "GB2312" => some eucPair
  | "EUC-JP" => some (eucPair ++
    [[[(0x8e, 0x8e)], [(0xa1, 0xfe)]],
     [[(0x8f, 0x8f)], [(0xa1, 0xfe)], [(0xa1, 0xfe)]]])
  | "EUC-KR" => some eucPair
  | "EUC-TW" => some (eucPair ++ [[[(0x8e, 0x8e)], [(0xa1, 0xb0)], [(0xa1, 0xfe)], [(0xa1, 0xfe)]]])
  | "GB18030" => some
    [[[(0x00, 0x7f)]],
     [[(0x81, 0xfe)], [(0x40, 0x7e), (0x80, 0xfe)]],
     [[(0x81, 0xfe)], [(0x30, 0x39)], [(0x81, 0xfe)], [(0x30, 0x39)]]]
  | "GBK" => some [[[(0x00, 0x80)]], [[(0x81, 0xfe)], [(0x40, 0x7e), (0x80, 0xfe)]]]
  | "Emacs-Mule" => some
    [[[(0x00, 0x7f)]],
     [[(0x81, 0x8f)], [(0xa0, 0xff)]],
     [[(0x90, 0x9b)], [(0xa0, 0xff)], [(0xa0, 0xff)]],
     [[(0x9c, 0x9d)], [(0xa0, 0xff)], [(0xa0, 0xff)], [(0xa0, 0xff)]]]
  | "Windows-31J" => some windows31J
  | "CP949" => some [[[(0x00, 0x80)]], [[(0x81, 0xfe)], [(0x41, 0x5a), (0x61, 0x7a), (0x81, 0xfe)]]]
  | "ISO-8859-1" | "ISO-8859-2" | "ISO-8859-3" | "ISO-8859-4" | "ISO-8859-5" | "ISO-8859-6" | "ISO-8859-7"
  | "ISO-8859-8" | "ISO-8859-9" | "ISO-8859-10" | "ISO-8859-13" | "ISO-8859-14" | "ISO-8859-15" | "ISO-8859-16"
  | "KOI8-R" | "KOI8-U" | "IBM866" | "Windows-874" | "Windows-1250" | "Windows-1251" | "Windows-1252"
  | "Windows-1253" | "Windows-1254" | "Windows-1255" | "Windows-1256" | "Windows-1257" | "Windows-1258" =>
    some singleByte
  | _ => none

/-- `pg_enc_pg2ruby_mapping`. -/
def pgEncPg2rubyMapping : List (String × String) :=
  [("UTF8", "UTF-8"), ("BIG5", "Big5"), ("EUC_CN", "GB2312"), ("EUC_JP", "EUC-JP"), ("EUC_JIS_2004", "EUC-JP"),
   ("EUC_KR", "EUC-KR"), ("EUC_TW", "EUC-TW"), ("GB18030", "GB18030"), ("GBK", "GBK"), ("ISO_8859_5", "ISO-8859-5"),
   ("ISO_8859_6", "ISO-8859-6"), ("ISO_8859_7", "ISO-8859-7"), ("ISO_8859_8", "ISO-8859-8"), ("KOI8", "KOI8-R"),
   ("KOI8R", "KOI8-R"), ("KOI8U", "KOI8-U"), ("LATIN1", "ISO-8859-1"), ("LATIN2", "ISO-8859-2"),
   ("LATIN3", "ISO-8859-3"), ("LATIN4", "ISO-8859-4"), ("LATIN5", "ISO-8859-9"), ("LATIN6", "ISO-8859-10"),
   ("LATIN7", "ISO-8859-13"), ("LATIN8", "ISO-8859-14"), ("LATIN9", "ISO-8859-15"), ("LATIN10", "ISO-8859-16"),
   ("MULE_INTERNAL", "Emacs-Mule"), ("SJIS", "Windows-31J"), ("SHIFT_JIS_2004", "Windows-31J"), ("UHC", "CP949"),
   ("WIN866", "IBM866"), ("WIN874", "Windows-874"), ("WIN1250", "Windows-1250"), ("WIN1251", "Windows-1251"),
   ("WIN1252", "Windows-1252"), ("WIN1253", "Windows-1253"), ("WIN1254", "Windows-1254"),
   ("WIN1255", "Windows-1255"), ("WIN1256", "Windows-1256"), ("WIN1257", "Windows-1257"),
   ("WIN1258", "Windows-1258")]

theorem ByteSet.mem_of_has {set : ByteSet} {b : UInt8} (h : set.has b = true) :
    ∃ range ∈ set, range.1 ≤ b ∧ b ≤ range.2 := by
  simpa [ByteSet.has, and_assoc] using h

/-- No byte is in two disjoint sets. -/
theorem ByteSet.disjoint_sound {set set' : ByteSet} {b : UInt8} (apart : set.disjoint set' = true)
    (here : set.has b = true) : set'.has b = false := by
  by_contra there
  obtain ⟨range, mem, low, high⟩ := ByteSet.mem_of_has here
  obtain ⟨range', mem', low', high'⟩ := ByteSet.mem_of_has (by simpa using there)
  simp only [ByteSet.disjoint, List.all_eq_true, Bool.or_eq_true, decide_eq_true_eq] at apart
  rcases apart range mem range' mem' with below | above
  · exact absurd (UInt8.lt_of_le_of_lt high below) (UInt8.not_lt.2 low')
  · exact absurd (UInt8.lt_of_le_of_lt high' above) (UInt8.not_lt.2 low)

theorem Pattern.length_of_takes {p : Pattern} {c : Bytes} (h : p.takes c = true) : p.length = c.length := by
  induction p generalizing c with
  | nil =>
    cases c with
    | nil => rfl
    | cons b c => simp [Pattern.takes] at h
  | cons set p ih =>
    cases c with
    | nil => simp [Pattern.takes] at h
    | cons b c =>
      rw [Pattern.takes, Bool.and_eq_true] at h
      rw [List.length_cons, List.length_cons, ih h.2]

/-- A character does not begin one of a kind that differs at some place. -/
theorem Pattern.not_prefix {p q : Pattern} {c d : Bytes} (hc : p.takes c = true) (hd : q.takes d = true)
    (differ : ((p.zip q).any fun place => ByteSet.disjoint place.1 place.2) = true) : ¬c <+: d := by
  induction p generalizing q c d with
  | nil => simp at differ
  | cons set p ih =>
    match q, c, d, hc, hd with
    | [], _, _, _, _ => simp at differ
    | set' :: q, b :: c, e :: d, hc, hd =>
      rw [Pattern.takes, Bool.and_eq_true] at hc hd
      rw [List.zip_cons_cons, List.any_cons, Bool.or_eq_true] at differ
      rw [List.cons_prefix_cons]
      rintro ⟨rfl, begins⟩
      rcases differ with here | behind
      · have := ByteSet.disjoint_sound here hc.1
        rw [hd.1] at this
        cases this
      · exact ih hc.2 hd.2 behind begins

theorem Charset.mem_code {charset : Charset} {c : Bytes} :
    c ∈ charset.code ↔ ∃ p ∈ charset, Pattern.takes p c = true := by
  exact List.any_eq_true

/-- The check of the kinds is a check of the characters. -/
theorem Charset.prefixFree_sound {charset : Charset} (checked : charset.prefixFree = true) : PrefixFree charset.code := by
  simp only [Charset.prefixFree, List.all_eq_true, Bool.and_eq_true, Bool.or_eq_true, decide_eq_true_eq] at checked
  constructor
  · intro empty
    obtain ⟨p, hp, takes⟩ := Charset.mem_code.1 empty
    exact (checked p hp).1 (List.eq_nil_of_length_eq_zero (Pattern.length_of_takes takes))
  · intro c hc d hd begins
    obtain ⟨p, hp, takes⟩ := Charset.mem_code.1 hc
    obtain ⟨q, hq, takes'⟩ := Charset.mem_code.1 hd
    rcases (checked p hp).2 q hq with same | differ
    · apply begins.eq_of_length
      rw [← Pattern.length_of_takes takes, same, Pattern.length_of_takes takes']
    · exact absurd begins (Pattern.not_prefix takes takes' differ)

theorem Charset.ascii_mem_code {charset : Charset} (checked : charset.asciiCompatible = true) {b : UInt8}
    (low : b ≤ 0x7f) : [b] ∈ charset.code := by
  obtain ⟨p, hp, ascii⟩ := List.any_eq_true.1 checked
  refine Charset.mem_code.2 ⟨p, hp, ?_⟩
  unfold Pattern.ascii at ascii
  split at ascii
  · rename_i first last
    simp only [Bool.and_eq_true, decide_eq_true_eq] at ascii
    obtain ⟨rfl, covers⟩ := ascii
    simp [Pattern.takes, ByteSet.has, UInt8.le_trans low covers]
  · cases ascii

/-- The bytes of a character are in the sets of its kind. -/
theorem Pattern.mem_of_takes {p : Pattern} {c : Bytes} {b : UInt8} (h : p.takes c = true) (mem : b ∈ c) :
    ∃ set ∈ p, ByteSet.has set b = true := by
  induction p generalizing c with
  | nil =>
    cases c with
    | nil => cases mem
    | cons e c => simp [Pattern.takes] at h
  | cons set p ih =>
    cases c with
    | nil => cases mem
    | cons e c =>
      rw [Pattern.takes, Bool.and_eq_true] at h
      rcases List.mem_cons.1 mem with rfl | later
      · exact ⟨set, List.mem_cons_self, h.1⟩
      · obtain ⟨set', mem', has⟩ := ih h.2 later
        exact ⟨set', List.mem_cons_of_mem _ mem', has⟩

/-- A byte of a character of several trails. -/
theorem Charset.trails_of_mem {charset : Charset} {c : Bytes} {b : UInt8} (coded : c ∈ charset.code)
    (long : c.length ≠ 1) (mem : b ∈ c) : charset.trails b = true := by
  obtain ⟨p, hp, takes⟩ := Charset.mem_code.1 coded
  obtain ⟨set, hset, has⟩ := Pattern.mem_of_takes takes mem
  rw [Charset.trails, List.any_eq_true]
  refine ⟨p, hp, ?_⟩
  rw [Bool.and_eq_true, decide_eq_true_eq, List.any_eq_true, Pattern.length_of_takes takes]
  exact ⟨long, set, hset, has⟩

/-- All bytes of the characters of several are outside ASCII. -/
def Charset.highTrails (charset : Charset) : Bool :=
  charset.all fun p => decide (p.length = 1) || p.all fun set => set.all fun range => decide (0x7f < range.1)

theorem Charset.high_of_mem {charset : Charset} (checked : charset.highTrails = true) {c : Bytes} {b : UInt8}
    (coded : c ∈ charset.code) (long : c.length ≠ 1) (mem : b ∈ c) : 0x7f < b := by
  obtain ⟨p, hp, takes⟩ := Charset.mem_code.1 coded
  obtain ⟨set, hset, has⟩ := Pattern.mem_of_takes takes mem
  obtain ⟨range, hrange, low, -⟩ := ByteSet.mem_of_has has
  simp only [Charset.highTrails, List.all_eq_true, Bool.or_eq_true, decide_eq_true_eq] at checked
  rcases checked p hp with short | high
  · exact absurd ((Pattern.length_of_takes takes).symm.trans short) long
  · exact UInt8.lt_of_lt_of_le (high set hset range hrange) low

/-- `charset` has the characters of an encoding of the table. -/
structure Listed (entry : String × String) (charset : Charset) : Prop where
  listed : entry ∈ pgEncPg2rubyMapping
  found : rbEncFind entry.2 = some charset
  free : PrefixFree charset.code
  ascii : ∀ b : UInt8, b ≤ 0x7f → [b] ∈ charset.code

/-- Every encoding of the table has characters that can be told apart, the ASCII codes among them. -/
theorem listed_charset {entry : String × String} (listed : entry ∈ pgEncPg2rubyMapping) :
    ∃ charset, Listed entry charset := by
  have checked : ∀ entry ∈ pgEncPg2rubyMapping,
      ((rbEncFind entry.2).any fun charset => charset.prefixFree && charset.asciiCompatible) = true := by decide
  have sound := checked entry listed
  cases found : rbEncFind entry.2 with
  | none => simp [found] at sound
  | some charset =>
    rw [found, Option.any_some, Bool.and_eq_true] at sound
    exact ⟨charset, listed, found, charset.prefixFree_sound sound.1, fun b low => charset.ascii_mem_code sound.2 low⟩

/-- The encodings that have the code of the backslash inside a character. -/
def backslashTrails : List String := ["BIG5", "GB18030", "GBK", "SJIS", "SHIFT_JIS_2004"]

/-- The encodings that have ASCII codes inside a character. -/
def asciiTrails : List String := "UHC" :: backslashTrails

section Listed

variable {entry : String × String} {charset : Charset} {c : Bytes}

/-- Outside those the quote and the backslash are nothing but themselves. -/
theorem Listed.quote_free (found : Listed entry charset) (other : entry.1 ∉ backslashTrails) (coded : c ∈ charset.code)
    (long : c.length ≠ 1) : Ascii.dquote ∉ c ∧ Ascii.backslash ∉ c := by
  have checked : ∀ entry ∈ pgEncPg2rubyMapping, entry.1 ∉ backslashTrails →
      ((rbEncFind entry.2).all fun charset => !charset.trails Ascii.dquote && !charset.trails Ascii.backslash) = true := by
    decide
  have sound := checked entry found.listed other
  rw [found.found, Option.all_some, Bool.and_eq_true, Bool.not_eq_true', Bool.not_eq_true'] at sound
  constructor
  · intro mem
    rw [Charset.trails_of_mem coded long mem] at sound
    cases sound.1
  · intro mem
    rw [Charset.trails_of_mem coded long mem] at sound
    cases sound.2

/-- Outside the longer list so is every ASCII code. -/
theorem Listed.ascii_free (found : Listed entry charset) (other : entry.1 ∉ asciiTrails) (coded : c ∈ charset.code)
    (long : c.length ≠ 1) {b : UInt8} (mem : b ∈ c) : 0x7f < b := by
  have checked : ∀ entry ∈ pgEncPg2rubyMapping, entry.1 ∉ asciiTrails →
      ((rbEncFind entry.2).all fun charset => charset.highTrails) = true := by decide
  have sound := checked entry found.listed other
  rw [found.found, Option.all_some] at sound
  exact Charset.high_of_mem sound coded long mem

/-- The encodings where a backslash or a quote can be half a character. -/
theorem Listed.backslash_trails_iff (found : Listed entry charset) :
    (∃ c ∈ charset.code, c.length ≠ 1 ∧ (Ascii.dquote ∈ c ∨ Ascii.backslash ∈ c)) ↔ entry.1 ∈ backslashTrails := by
  constructor
  · rintro ⟨c, coded, long, mem⟩
    by_contra other
    obtain ⟨noQuote, noBackslash⟩ := found.quote_free other coded long
    exact mem.elim noQuote noBackslash
  · intro listed
    have checked : ∀ entry ∈ pgEncPg2rubyMapping, entry.1 ∈ backslashTrails →
        ((rbEncFind entry.2).all fun charset => charset.any fun p => Pattern.takes p [0xe0, Ascii.backslash]) = true := by
      decide
    have sound := checked entry found.listed listed
    rw [found.found, Option.all_some] at sound
    exact ⟨[0xe0, Ascii.backslash], sound, by decide, by decide⟩

/-- The encodings where an ASCII code can be half a character. -/
theorem Listed.ascii_trails_iff (found : Listed entry charset) :
    (∃ c ∈ charset.code, c.length ≠ 1 ∧ ∃ b ∈ c, b ≤ 0x7f) ↔ entry.1 ∈ asciiTrails := by
  constructor
  · rintro ⟨c, coded, long, b, mem, low⟩
    by_contra other
    exact UInt8.not_lt.2 low (found.ascii_free other coded long mem)
  · intro listed
    have checked : ∀ entry ∈ pgEncPg2rubyMapping, entry.1 ∈ asciiTrails →
        ((rbEncFind entry.2).all fun charset => charset.any fun p => Pattern.takes p [0xe0, 0x41]) = true := by decide
    have sound := checked entry found.listed listed
    rw [found.found, Option.all_some] at sound
    exact ⟨[0xe0, 0x41], sound, by decide, 0x41, by decide, by decide⟩

end Listed

end RubyPg
