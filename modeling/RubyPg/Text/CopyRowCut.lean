import RubyPg.Text.CopyRowBuffer
import RubyPg.Text.CopyRowRoundTrip

/-!
# COPY rows in two steps

What the single scan of `pg_text_dec_copy_row` computes, as COPY text is defined: `cutLine`
cuts the line into raw fields at its unescaped delimiters, and `unescape` reads one raw field.
Both go by escape sequences, and the cut never divides one (`cutLine_span`), so that a raw
field is read as the scan reads it inside its line (`escapeSequence_prefix`).
-/

namespace RubyPg.Text
set_option autoImplicit false
open Ascii

/-- The first characters of a text, at most `n`, that `p` takes. -/
def leading (p : UInt8 → Bool) (n : Nat) (t : Bytes) : Bytes := (t.take n).takeWhile p

/-- A hexadecimal digit. -/
def isHex (c : UInt8) : Bool := (getDecimalFromHex c).isSome

/-- The escape sequence behind a backslash: one to three octal digits, `x` with up to two hex digits, or a character. -/
def escapeSequence : Bytes → Bytes
  | [] => []
  | c :: rest =>
    if isOctal c then leading isOctal 3 (c :: rest) else if c = 0x78 then c :: leading isHex 2 rest else [c]

/-- The number that octal digits denote. -/
def octalNumber (digits : Bytes) : Nat := digits.foldl (fun n d => n * 8 + (d.toNat - 0x30)) 0

/-- The number that hex digits denote. -/
def hexNumber (digits : Bytes) : Nat := digits.foldl (fun n d => n * 16 + (getDecimalFromHex d).getD 0) 0

/-- The byte that an escape sequence denotes, numbers modulo 256. -/
def escapeByte : Bytes → UInt8
  | [] => nul
  | c :: rest =>
    if isOctal c then (octalNumber (c :: rest)).toUInt8
    else if c = 0x78 then if rest.isEmpty then c else (hexNumber rest).toUInt8
    else if c = 0x62 then 0x08
    else if c = 0x66 then formfeed
    else if c = 0x6e then newline
    else if c = 0x72 then cr
    else if c = 0x74 then tab
    else if c = 0x76 then vtab
    else c

/-- A line that was cut: the raw fields, of which there is at least one, and what follows the newline. -/
structure Cut where
  first : Bytes
  others : List Bytes
  behind : Bytes
deriving DecidableEq

/-- More characters in front of the first field. -/
def Cut.push (text : Bytes) (cut : Cut) : Cut := { cut with first := text ++ cut.first }

/-- Cut a line at its unescaped delimiters, up to the first unescaped newline; a lone backslash at the end is dropped.
`span` says how many characters behind a backslash belong to it, and as many as the counter says still do. -/
def cutLine (span : Bytes → Nat) (delimiter : UInt8) : Nat → Bytes → Cut
  | _, [] => ⟨[], [], []⟩
  | n + 1, c :: t => (cutLine span delimiter n t).push [c]
  | 0, c :: t =>
    if c = delimiter then
      let cut := cutLine span delimiter 0 t
      ⟨[], cut.first :: cut.others, cut.behind⟩
    else if c = newline then ⟨[], [], t⟩
    else if c = backslash then if t.isEmpty then ⟨[], [], []⟩ else (cutLine span delimiter (span t) t).push [c]
    else (cutLine span delimiter 0 t).push [c]

/-- The length of the escape sequence behind a backslash. -/
def escapeSpan (t : Bytes) : Nat := (escapeSequence t).length

/-- A raw field de-escaped; the counter says how many characters belong to the escape sequence in front. -/
def unescape : Nat → Bytes → Bytes
  | _, [] => []
  | n + 1, _ :: t => unescape n t
  | 0, c :: t =>
    if c = backslash then escapeByte (escapeSequence t) :: unescape (escapeSpan t) t else c :: unescape 0 t

/-- The value of a raw field. -/
def rawValue (nullString raw : Bytes) : Value := if raw = nullString then .nil else .str (unescape 0 raw)

section Sequences

variable {p : UInt8 → Bool}

@[simp] theorem leading_zero (t : Bytes) : leading p 0 t = [] := rfl

@[simp] theorem leading_nil (n : Nat) : leading p n [] = [] := by cases n <;> rfl

theorem leading_cons (n : Nat) (c : UInt8) (t : Bytes) :
    leading p (n + 1) (c :: t) = if p c then c :: leading p n t else [] := by
  rw [leading, List.take_succ_cons, List.takeWhile_cons]
  rfl

/-- Leading characters are in front. -/
theorem leading_isPrefix (n : Nat) (t : Bytes) : leading p n t <+: t :=
  (List.takeWhile_prefix p).trans (List.take_prefix n t)

theorem mem_leading {n : Nat} {t : Bytes} {c : UInt8} (member : c ∈ leading p n t) : p c = true :=
  List.mem_takeWhile_imp member

/-- The leading characters stay the same where less follows them. -/
theorem leading_prefix {n : Nat} {e r r' : Bytes} (shorter : r' <+: r) (all : leading p n (e ++ r) = e) :
    leading p n (e ++ r') = e := by
  induction e generalizing n with
  | nil =>
    rw [List.nil_append] at all ⊢
    cases r' with
    | nil => exact leading_nil n
    | cons c r' =>
      obtain ⟨u, rfl⟩ := shorter
      cases n with
      | zero => rfl
      | succ n =>
        rw [List.cons_append, leading_cons] at all
        rw [leading_cons]
        split at all
        · cases all
        · rename_i refused
          rw [if_neg refused]
  | cons c e ih =>
    cases n with
    | zero => cases all
    | succ n =>
      rw [List.cons_append, leading_cons] at all ⊢
      split at all
      · rename_i taken
        rw [if_pos taken, ih (List.cons.inj all).2]
      · cases all

theorem escapeSequence_octal {c : UInt8} (octal : isOctal c = true) (t : Bytes) :
    escapeSequence (c :: t) = c :: leading isOctal 2 t := by
  rw [escapeSequence, if_pos octal, leading_cons, if_pos octal]

theorem escapeSequence_x (t : Bytes) : escapeSequence (0x78 :: t) = 0x78 :: leading isHex 2 t := rfl

theorem escapeSequence_other {c : UInt8} (notOctal : isOctal c = false) (notX : c ≠ 0x78) (t : Bytes) :
    escapeSequence (c :: t) = [c] := by
  rw [escapeSequence, notOctal, if_neg Bool.false_ne_true, if_neg notX]

/-- The three kinds of escape sequences. -/
theorem escapeSequence_cases (c : UInt8) : isOctal c = true ∨ c = 0x78 ∨ (isOctal c = false ∧ c ≠ 0x78) := by
  by_cases octal : isOctal c = true
  · exact .inl octal
  by_cases isX : c = 0x78
  · exact .inr (.inl isX)
  · exact .inr (.inr ⟨by simpa using octal, isX⟩)

/-- An escape sequence begins with the character behind the backslash, and only digits follow. -/
theorem escapeSequence_cons (c : UInt8) (t : Bytes) :
    ∃ digits, escapeSequence (c :: t) = c :: digits ∧ digits <+: t ∧ ∀ d ∈ digits, isHex d = true := by
  have octalHex : ∀ d, isOctal d = true → isHex d = true := by
    intro d octal
    simp only [isOctal, Bool.and_eq_true, decide_eq_true_eq] at octal
    have digit : 0x30 ≤ d ∧ d ≤ 0x39 := ⟨octal.1, UInt8.le_trans octal.2 (by decide)⟩
    rw [isHex, getDecimalFromHex, if_pos digit]
    rfl
  rcases escapeSequence_cases c with octal | rfl | ⟨notOctal, notX⟩
  · exact ⟨_, escapeSequence_octal octal t, leading_isPrefix _ _, fun d member => octalHex d (mem_leading member)⟩
  · exact ⟨_, escapeSequence_x t, leading_isPrefix _ _, fun d member => mem_leading member⟩
  · exact ⟨[], escapeSequence_other notOctal notX t, List.nil_prefix, List.forall_mem_nil _⟩

/-- An escape sequence stays the same where less follows it. -/
theorem escapeSequence_prefix {e r r' : Bytes} (whole : escapeSequence (e ++ r) = e) (shorter : r' <+: r) (some : e ≠ []) :
    escapeSequence (e ++ r') = e := by
  obtain ⟨c, digits, rfl⟩ := List.exists_cons_of_ne_nil some
  rw [List.cons_append] at whole ⊢
  rcases escapeSequence_cases c with octal | rfl | ⟨notOctal, notX⟩
  · rw [escapeSequence_octal octal] at whole ⊢
    rw [ leading_prefix shorter (List.cons.inj whole).2]
  · rw [escapeSequence_x] at whole ⊢
    rw [ leading_prefix shorter (List.cons.inj whole).2]
  · rw [escapeSequence_other notOctal notX] at whole ⊢
    exact whole

end Sequences

section Cuts

variable {span : Bytes → Nat} {d : UInt8}

@[simp] theorem Cut.push_others (text : Bytes) (cut : Cut) : (cut.push text).others = cut.others := rfl

@[simp] theorem Cut.push_behind (text : Bytes) (cut : Cut) : (cut.push text).behind = cut.behind := rfl

@[simp] theorem Cut.push_first (text : Bytes) (cut : Cut) : (cut.push text).first = text ++ cut.first := rfl

theorem Cut.push_push (text text' : Bytes) (cut : Cut) : (cut.push text').push text = cut.push (text ++ text') := by
  rw [Cut.push, Cut.push, Cut.push, List.append_assoc]

/-- Characters that belong to an escape sequence are not cut. -/
theorem cutLine_span (e t : Bytes) : cutLine span d e.length (e ++ t) = (cutLine span d 0 t).push e := by
  induction e with
  | nil => rfl
  | cons c e ih =>
    rw [List.length_cons, List.cons_append, cutLine, ih, Cut.push_push]
    rfl

/-- Characters that are nothing special are not cut either. -/
theorem cutLine_plain {e t : Bytes} (plain : ∀ c ∈ e, c ≠ d ∧ c ≠ newline ∧ c ≠ backslash) :
    cutLine span d 0 (e ++ t) = (cutLine span d 0 t).push e := by
  induction e with
  | nil => rfl
  | cons c e ih =>
    obtain ⟨notDelimiter, notNewline, notBackslash⟩ := plain c List.mem_cons_self
    rw [List.cons_append, cutLine, if_neg notDelimiter, if_neg notNewline, if_neg notBackslash,
      ih fun c member => plain c (List.mem_cons_of_mem _ member), Cut.push_push]
    rfl

/-- The first field is in front of the line. -/
theorem cutLine_isPrefix (n : Nat) (t : Bytes) : (cutLine span d n t).first <+: t := by
  induction t generalizing n with
  | nil => cases n <;> exact List.prefix_refl _
  | cons c t ih =>
    cases n with
    | succ n => exact List.cons_prefix_cons.2 ⟨rfl, ih n⟩
    | zero =>
      rw [cutLine]
      split
      · exact List.nil_prefix
      split
      · exact List.nil_prefix
      split
      · split
        · exact List.nil_prefix
        · exact List.cons_prefix_cons.2 ⟨rfl, ih _⟩
      · exact List.cons_prefix_cons.2 ⟨rfl, ih _⟩

/-- What belongs to an escape sequence was read with its backslash. -/
theorem unescape_span (e t : Bytes) : unescape e.length (e ++ t) = unescape 0 t := by
  induction e with
  | nil => rfl
  | cons c e ih => exact ih

/-- The escape sequence behind a backslash and what follows it. -/
theorem escapeSequence_split (c : UInt8) (t : Bytes) :
    ∃ digits rest, t = digits ++ rest ∧ escapeSequence (c :: digits ++ rest) = c :: digits ∧
      (∀ d ∈ digits, isHex d = true) ∧ ∀ rest', rest' <+: rest → escapeSequence (c :: digits ++ rest') = c :: digits := by
  obtain ⟨digits, sequence, ⟨rest, rfl⟩, hex⟩ := escapeSequence_cons c t
  refine ⟨digits, rest, rfl, sequence, hex, fun rest' shorter => ?_⟩
  exact escapeSequence_prefix sequence shorter (List.cons_ne_nil _ _)

/-- A backslash in a line, its escape sequence and the rest. -/
theorem cutLine_escape {c : UInt8} {digits rest : Bytes} (notDelimiter : backslash ≠ d)
    (sequence : escapeSequence (c :: digits ++ rest) = c :: digits) :
    cutLine escapeSpan d 0 (backslash :: (c :: digits ++ rest)) =
      (cutLine escapeSpan d 0 rest).push (backslash :: c :: digits) := by
  have span : escapeSpan (c :: digits ++ rest) = (c :: digits).length := by rw [escapeSpan, sequence]
  rw [cutLine, if_neg notDelimiter, if_neg (by decide), if_pos rfl, if_neg (by simp), span, cutLine_span, Cut.push_push]
  rfl

/-- A backslash in a raw field, its escape sequence and the rest. -/
theorem unescape_escape {c : UInt8} {digits rest : Bytes} (sequence : escapeSequence (c :: digits ++ rest) = c :: digits) :
    unescape 0 (backslash :: (c :: digits ++ rest)) = escapeByte (c :: digits) :: unescape 0 rest := by
  rw [unescape, if_pos rfl, escapeSpan, sequence, unescape_span]

/-- Where the delimiter is no hex digit, a delimiter is escaped exactly if a backslash stands in front of it that is
not escaped itself. -/
theorem cutLine_backslashes (notHex : isHex d = false) (notBackslash : backslash ≠ d) (t : Bytes) :
    cutLine escapeSpan d 0 t = cutLine (fun _ => 1) d 0 t := by
  induction h : t.length using Nat.strongRecOn generalizing t with
  | ind n ih =>
    subst h
    cases t with
    | nil => rfl
    | cons c t =>
      have shorter := ih t.length (Nat.lt_succ_self _) t rfl
      by_cases isBackslash : c = backslash
      · subst isBackslash
        cases t with
        | nil => rfl
        | cons c t =>
          obtain ⟨digits, rest, rfl, sequence, hex, -⟩ := escapeSequence_split c t
          have plain : ∀ c ∈ digits, c ≠ d ∧ c ≠ newline ∧ c ≠ backslash := by
            intro c member
            have digit := hex c member
            refine ⟨?_, ?_, ?_⟩
            · rintro rfl
              rw [notHex] at digit
              cases digit
            · rintro rfl
              exact absurd digit (by decide)
            · rintro rfl
              exact absurd digit (by decide)
          have others := ih rest.length (by simp only [List.length_cons, List.length_append]; omega) rest rfl
          rw [← List.cons_append, cutLine_escape notBackslash sequence, others, List.cons_append, cutLine, if_neg notBackslash,
            if_neg (by decide), if_pos rfl, if_neg (by simp), cutLine, cutLine_plain plain, Cut.push_push, Cut.push_push]
          rfl
      · rw [cutLine, cutLine, shorter]
        simp only [isBackslash, if_false]

end Cuts

section Scans

variable {s : Bytes}

/-- One more octal digit. -/
theorem moreOctal_cons {val cur : Nat} {c : UInt8} {t : Bytes} (here : Rest s cur (c :: t)) :
    moreOctal s val cur = if isOctal c then some (val * 8 + (c.toNat - 0x30), cur + 1) else none := by
  rw [moreOctal, here.getD]
  simp only [here.lt, true_and]

theorem moreOctal_nil {val cur : Nat} (here : Rest s cur []) : moreOctal s val cur = none := by
  have off : ¬cur < s.length := Nat.not_lt.2 (List.drop_eq_nil_iff.1 here)
  rw [moreOctal, if_neg (fun h => off h.1)]

theorem toUInt8_mod (n : Nat) : (n % 256).toUInt8 = n.toUInt8 := by
  apply UInt8.toNat_inj.1
  simp

/-- Up to three octal digits. -/
theorem octalEscape_eq {c : UInt8} {t : Bytes} {cur : Nat} (here : Rest s cur (c :: t)) :
    octalEscape s c (cur + 1) =
      ((octalNumber (c :: leading isOctal 2 t)).toUInt8, cur + (c :: leading isOctal 2 t).length) := by
  unfold octalEscape
  dsimp only
  cases t with
  | nil =>
    rw [moreOctal_nil here.next, leading_nil]
    simp [octalNumber]
  | cons c2 t =>
    rw [moreOctal_cons here.next, leading_cons]
    by_cases octal2 : isOctal c2 = true
    · rw [if_pos octal2, if_pos octal2]
      dsimp only
      cases t with
      | nil =>
        rw [moreOctal_nil here.next.next, leading_nil]
        simp [octalNumber]
      | cons c3 t =>
        rw [moreOctal_cons here.next.next, leading_cons]
        by_cases octal3 : isOctal c3 = true
        · rw [if_pos octal3, if_pos octal3, leading_zero]
          dsimp only
          rw [toUInt8_mod]
          simp [octalNumber]
        · rw [if_neg octal3, if_neg octal3]
          simp [octalNumber]
    · rw [if_neg octal2, if_neg octal2]
      simp [octalNumber]

theorem isHex_iff {c : UInt8} : isHex c = true ↔ ∃ val, getDecimalFromHex c = some val := Option.isSome_iff_exists

/-- Up to two hex digits. -/
theorem hexEscape_eq {t : Bytes} {cur : Nat} (here : Rest s cur (0x78 :: t)) :
    hexEscape s (cur + 1) = (escapeByte (0x78 :: leading isHex 2 t), cur + (0x78 :: leading isHex 2 t).length) := by
  have byte : ∀ digits : Bytes, escapeByte (0x78 :: digits) = if digits.isEmpty then 0x78 else (hexNumber digits).toUInt8 :=
    fun digits => rfl
  unfold hexEscape
  rw [byte]
  cases t with
  | nil =>
    rw [if_neg (Nat.not_lt.2 (List.drop_eq_nil_iff.1 here.next)), leading_nil]
    rfl
  | cons c t =>
    have second := here.next
    rw [if_pos second.lt, second.getD, leading_cons]
    cases value : getDecimalFromHex c with
    | none =>
      have notHex : ¬isHex c = true := by simp [isHex, value]
      rw [if_neg notHex]
      rfl
    | some val =>
      have hex : isHex c = true := isHex_iff.2 ⟨val, value⟩
      rw [if_pos hex]
      dsimp only
      cases t with
      | nil =>
        rw [if_neg (Nat.not_lt.2 (List.drop_eq_nil_iff.1 second.next)), leading_nil]
        simp [hexNumber, value]
      | cons c2 t =>
        have third := second.next
        rw [if_pos third.lt, third.getD, leading_cons]
        cases value2 : getDecimalFromHex c2 with
        | none =>
          have notHex : ¬isHex c2 = true := by simp [isHex, value2]
          rw [if_neg notHex]
          simp [hexNumber, value]
        | some val2 =>
          have hex2 : isHex c2 = true := isHex_iff.2 ⟨val2, value2⟩
          rw [if_pos hex2, leading_zero]
          simp [hexNumber, value, value2]

/-- The `switch` reads the escape sequence. -/
theorem copyUnescape_eq {c : UInt8} {t : Bytes} {cur : Nat} (here : Rest s cur (c :: t)) :
    copyUnescape s c (cur + 1) = (escapeByte (escapeSequence (c :: t)), cur + (escapeSequence (c :: t)).length) := by
  unfold copyUnescape
  rcases escapeSequence_cases c with octal | rfl | ⟨notOctal, notX⟩
  · rw [if_pos octal, escapeSequence_octal octal, octalEscape_eq here, escapeByte, if_pos octal]
  · rw [if_neg (by decide), if_pos rfl, escapeSequence_x]
    exact hexEscape_eq here
  · rw [escapeSequence_other notOctal notX, notOctal, if_neg Bool.false_ne_true, if_neg notX, escapeByte, notOctal,
      if_neg Bool.false_ne_true, if_neg notX]
    simp only [List.length_singleton]
    split
    · rfl
    split
    · rfl
    split
    · rfl
    split
    · rfl
    split
    · rfl
    split
    · rfl
    · rfl

/-- The scan of a field got to where the line is cut first. -/
structure ScansCut (s : Bytes) (d : UInt8) (cur : Nat) (field : Bytes) (cut : Cut) (r : ScannedField) : Prop where
  endPtr : r.endPtr = cur + cut.first.length
  field : r.field = field ++ unescape 0 cut.first
  last : cut.others = [] → r.foundDelim = false ∧ (r.cur < s.length ↔ cut.behind ≠ [])
  more : ∀ raw others, cut.others = raw :: others →
    r.foundDelim = true ∧ r.endPtr < r.cur ∧ r.endPtr < s.length ∧ cutLine escapeSpan d 0 (s.drop r.cur) = ⟨raw, others, cut.behind⟩

/-- What was scanned in front of where a field goes on. -/
theorem ScansCut.push {d : UInt8} {cur : Nat} {field text bytes : Bytes} {cut : Cut} {r : ScannedField}
    (scans : ScansCut s d (cur + text.length) (field ++ bytes) cut r)
    (denotes : unescape 0 (text ++ cut.first) = bytes ++ unescape 0 cut.first) :
    ScansCut s d cur field (cut.push text) r := by
  refine ⟨?_, ?_, scans.last, scans.more⟩
  · rw [scans.endPtr, Cut.push_first, List.length_append, Nat.add_assoc]
  · rw [scans.field, Cut.push_first, denotes, List.append_assoc]

/-- The inner loop stops at the first cut, with the field de-escaped. -/
theorem scanField_cut {d : UInt8} (notBackslash : d ≠ backslash) {fuel cur : Nat} {field t : Bytes} (here : Rest s cur t)
    (enough : t.length < fuel) :
    ∃ r, scanField d s fuel cur field = .ok r ∧ ScansCut s d cur field (cutLine escapeSpan d 0 t) r := by
  induction fuel generalizing cur field t with
  | zero => omega
  | succ fuel ih =>
    rw [scanField]
    cases t with
    | nil =>
      have off : s.length ≤ cur := List.drop_eq_nil_iff.1 here
      rw [if_pos off]
      refine ⟨_, rfl, rfl, (List.append_nil _).symm, fun _ => ⟨rfl, ?_⟩, fun _ _ impossible => by cases impossible⟩
      exact ⟨fun inside => absurd inside (Nat.not_lt.2 off), fun some => absurd rfl some⟩
    | cons c t =>
      rw [List.length_cons] at enough
      rw [if_neg (Nat.not_le.2 here.lt), here.getD]
      dsimp only
      by_cases isDelimiter : c = d
      · rw [if_pos isDelimiter, cutLine, if_pos isDelimiter]
        refine ⟨_, rfl, rfl, (List.append_nil _).symm, (fun impossible => by cases impossible), ?_⟩
        rintro raw others ⟨⟩
        refine ⟨rfl, Nat.lt_succ_self _, here.lt, ?_⟩
        rw [here.next]
      rw [if_neg isDelimiter]
      by_cases isNewline : c = newline
      · rw [if_pos isNewline, cutLine, if_neg isDelimiter, if_pos isNewline]
        refine ⟨_, rfl, rfl, (List.append_nil _).symm, fun _ => ⟨rfl, ?_⟩, fun _ _ impossible => by cases impossible⟩
        have left := congrArg List.length here.next
        rw [List.length_drop] at left
        rw [← List.length_pos_iff]
        dsimp only
        omega
      rw [if_neg isNewline]
      by_cases isBackslash : c = backslash
      · subst isBackslash
        rw [if_pos rfl]
        cases t with
        | nil =>
          have off : s.length ≤ cur + 1 := List.drop_eq_nil_iff.1 here.next
          have alone : ([] : Bytes).isEmpty = true := rfl
          rw [if_pos off, cutLine, if_neg isDelimiter, if_neg isNewline, if_pos rfl, if_pos alone]
          refine ⟨_, rfl, rfl, (List.append_nil _).symm, fun _ => ⟨rfl, ?_⟩, fun _ _ impossible => by cases impossible⟩
          exact ⟨fun inside => absurd inside (Nat.not_lt.2 off), fun some => absurd rfl some⟩
        | cons c t =>
          have second := here.next
          obtain ⟨digits, rest, rfl, sequence, -, shorter⟩ := escapeSequence_split c t
          have text : cur + 2 = cur + 1 + 1 := rfl
          have behind : Rest s (cur + (backslash :: c :: digits).length) rest := by
            have whole : Rest s cur ((backslash :: c :: digits) ++ rest) := here
            exact whole.skip
          have sequence' : escapeSequence (c :: (digits ++ rest)) = c :: digits := sequence
          rw [if_neg (Nat.not_le.2 second.lt), second.getD, text, copyUnescape_eq second, sequence']
          dsimp only
          have position : cur + 1 + (c :: digits).length = cur + (backslash :: c :: digits).length := by
            simp only [List.length_cons]
            omega
          rw [position]
          simp only [List.length_cons, List.length_append] at enough
          obtain ⟨r, scanned, scans⟩ := @ih _ (field ++ [escapeByte (c :: digits)]) rest behind (by omega)
          refine ⟨r, scanned, ?_⟩
          rw [← List.cons_append, cutLine_escape (Ne.symm notBackslash) sequence]
          apply scans.push
          exact unescape_escape (shorter _ (cutLine_isPrefix 0 rest))
      · rw [if_neg isBackslash, cutLine, if_neg isDelimiter, if_neg isNewline, if_neg isBackslash]
        obtain ⟨r, scanned, scans⟩ := @ih _ (field ++ [c]) t here.next (by omega)
        refine ⟨r, scanned, ScansCut.push scans ?_⟩
        rw [List.singleton_append, unescape, if_neg isBackslash]
        rfl

/-- What the decoder returns for a line that is cut so. -/
def cutValues (nullString : Bytes) (cut : Cut) : List Value := (cut.first :: cut.others).map (rawValue nullString)

variable {this : CopyCoder}

/-- The value of a raw field. -/
theorem copyFieldValue_eq (nonul : nul ∉ this.nullString) (raw : Bytes) (fieldno : Nat) :
    copyFieldValue this .allStrings raw (unescape 0 raw) fieldno = .ok (rawValue this.nullString raw) := by
  unfold copyFieldValue rawValue
  by_cases isNull : raw = this.nullString
  · rw [if_pos isNull, if_pos ⟨by rw [isNull], (strncmpEq_iff nonul (by rw [isNull])).2 isNull⟩]
    rfl
  · rw [if_neg isNull, if_neg fun both => isNull ((strncmpEq_iff nonul both.1).1 both.2)]
    rfl

/-- The outer loop returns the values of the cut, or finds what stands behind the newline. -/
theorem copyFields_cut (nonul : nul ∉ this.nullString) (notBackslash : this.delimiter ≠ backslash) {fuel start fieldno : Nat}
    {array : List Value} {cut : Cut} (cuts : cutLine escapeSpan this.delimiter 0 (s.drop start) = cut)
    (enough : s.length - start < fuel) :
    (cut.behind = [] → copyFields this .allStrings s fuel start fieldno array = .ok (array ++ cutValues this.nullString cut)) ∧
    (cut.behind ≠ [] →
      ∃ msg, copyFields this .allStrings s fuel start fieldno array = .error (.exn .argumentError msg)) := by
  induction fuel generalizing start fieldno array cut with
  | zero => omega
  | succ fuel ih =>
    have here : Rest s start (s.drop start) := rfl
    have short : (s.drop start).length < s.length + 1 := by
      rw [List.length_drop]
      omega
    obtain ⟨r, scanned, scans⟩ := @scanField_cut s this.delimiter notBackslash (s.length + 1) start [] _ here short
    rw [cuts] at scans
    have raw : (s.drop start).take (r.endPtr - start) = cut.first := by
      obtain ⟨others, whole⟩ : cut.first <+: s.drop start := cuts ▸ cutLine_isPrefix 0 (s.drop start)
      rw [← whole, scans.endPtr, Nat.add_sub_cancel_left, List.take_left]
    have value := copyFieldValue_eq nonul cut.first fieldno
    have field : r.field = unescape 0 cut.first := scans.field
    rw [copyFields, scanned]
    simp only [bind, Except.bind, raw, field, value]
    cases others : cut.others with
    | nil =>
      obtain ⟨last, trailing⟩ := scans.last others
      have values : cutValues this.nullString cut = [rawValue this.nullString cut.first] := by rw [cutValues, others]; rfl
      constructor
      · intro none
        have notTrailing : ¬r.cur < s.length := fun inside => trailing.1 inside none
        rw [if_neg (fun both => notTrailing both.2), last, if_neg Bool.false_ne_true, values]
        rfl
      · intro some
        rw [if_pos ⟨last, trailing.2 some⟩]
        exact ⟨_, rfl⟩
    | cons first others' =>
      obtain ⟨found, later, inside, following⟩ := scans.more first others' others
      have length := scans.endPtr
      have values : cutValues this.nullString cut =
          rawValue this.nullString cut.first :: cutValues this.nullString ⟨first, others', cut.behind⟩ := by
        rw [cutValues, others]
        rfl
      obtain ⟨returns, raises⟩ := @ih r.cur (fieldno + 1) (array ++ [rawValue this.nullString cut.first])
        ⟨first, others', cut.behind⟩ following (by omega)
      rw [if_neg (by simp [found]), found, if_pos rfl]
      constructor
      · intro none
        rw [returns none, values, List.append_assoc]
        rfl
      · exact raises

/-- **The single scan is the two steps**: cut the line at its unescaped delimiters, then read each raw field, on the
buffer that the fields share. An `ArgumentError` says that something follows the first unescaped newline. Where the
delimiter is no hex digit, being escaped is a matter of the backslash in front alone. -/
theorem copy_row_two_steps (delimiter : UInt8) (nullString s : Bytes) (notBackslash : delimiter ≠ backslash)
    (nonul : nul ∉ nullString) :
    ((cutLine escapeSpan delimiter 0 s).behind = [] →
      Buffered.pgTextDecCopyRow { delimiter, nullString } .allStrings s =
        .ok (.ary (cutValues nullString (cutLine escapeSpan delimiter 0 s)))) ∧
    ((∃ msg, Buffered.pgTextDecCopyRow { delimiter, nullString } .allStrings s = .error (.exn .argumentError msg)) ↔
      (cutLine escapeSpan delimiter 0 s).behind ≠ []) ∧
    (isHex delimiter = false → cutLine escapeSpan delimiter 0 s = cutLine (fun _ => 1) delimiter 0 s) := by
  obtain ⟨returns, raises⟩ := @copyFields_cut s { delimiter, nullString } nonul notBackslash (s.length + 1) 0 0 []
    (cutLine escapeSpan delimiter 0 s) rfl (Nat.lt_succ_self _)
  rw [Buffered.pgTextDecCopyRow_eq, ObjectMap.values_allStrings, pgTextDecCopyRow]
  have decoded : (cutLine escapeSpan delimiter 0 s).behind = [] →
      (copyFields { delimiter, nullString } .allStrings s (s.length + 1) 0 0 [] >>= fun array => pure (.ary array)) =
        Except.ok (Value.ary (cutValues nullString (cutLine escapeSpan delimiter 0 s))) := by
    intro none
    rw [returns none]
    rfl
  refine ⟨decoded, ?_, fun notHex => cutLine_backslashes notHex (Ne.symm notBackslash) s⟩
  constructor
  · rintro ⟨msg, raised⟩ none
    rw [decoded none] at raised
    cases raised
  · intro some
    obtain ⟨msg, raised⟩ := raises some
    refine ⟨msg, ?_⟩
    rw [raised]
    rfl

/-- An escaped tab, digits that run into the tab behind them, the null marker, and a backslash at the end. -/
theorem copy_row_two_steps_digits :
    Buffered.pgTextDecCopyRow { delimiter := tab, nullString := [backslash, upperN] } .allStrings
      [backslash, tab, backslash, 0x31, tab, backslash, upperN, tab, 0x61, backslash] =
      .ok (.ary [.str [tab, 0x01], .nil, .str [0x61]]) := by
  have scanned := (copy_row_two_steps tab [backslash, upperN]
    [backslash, tab, backslash, 0x31, tab, backslash, upperN, tab, 0x61, backslash] (by decide) (by decide)).1 (by decide)
  rw [scanned]
  rfl

end Scans

end RubyPg.Text
