import RubyPg.Text.TimestampForm

/-!
# The syntax of text timestamps

The timestamps the decoder knows: the year in front of month, day and time of two digits each,
then a fraction, a zone and an era, each of which may be missing. The scanner takes every text
of this form (`parseStamp_text`) and no other (`syntax_of_parseStamp`).
-/

namespace RubyPg.Text
set_option autoImplicit false
open Ascii

/-- Two digits. -/
structure TwoDigits where
  tens : UInt8
  ones : UInt8
  isDigit : ∀ d ∈ [tens, ones], IsDigit d

namespace TwoDigits

def text (two : TwoDigits) : Bytes := [two.tens, two.ones]

def value (two : TwoDigits) : Int := (readDigits 0 two.text : Nat)

end TwoDigits

/-- A zone: its sign, the hours, and the minutes and seconds that may follow. -/
structure ZoneSyntax where
  negative : Bool
  hour : TwoDigits
  rest : Option (TwoDigits × Option TwoDigits)

namespace ZoneSyntax

/-- A colon and two digits, or nothing. -/
def partText : Option TwoDigits → Bytes
  | some two => colon :: two.text
  | none => []

def partValue : Option TwoDigits → Int
  | some two => two.value
  | none => 0

def minute (z : ZoneSyntax) : Option TwoDigits := z.rest.map Prod.fst

def second (z : ZoneSyntax) : Option TwoDigits := z.rest.bind Prod.snd

def text (z : ZoneSyntax) : Bytes :=
  (if z.negative then minus else plus) :: (z.hour.text ++ (partText z.minute ++ partText z.second))

/-- The distance from UTC in seconds, to the east. -/
def offset (z : ZoneSyntax) : Int :=
  (if z.negative then -1 else 1) * (z.hour.value * 3600 + partValue z.minute * 60 + partValue z.second)

end ZoneSyntax

/-- A timestamp as text. -/
structure StampSyntax where
  year : Bytes
  month : TwoDigits
  day : TwoDigits
  hour : TwoDigits
  min : TwoDigits
  sec : TwoDigits
  fraction : Bytes
  zone : Option ZoneSyntax
  beforeChrist : Bool
  yearDigits : ∀ d ∈ year, IsDigit d
  yearLength : year.length ≤ 7
  yearPositive : 0 < readDigits 0 year
  fractionDigits : ∀ d ∈ fraction, IsDigit d

namespace StampSyntax

/-- The fraction with its point; without digits there is none. -/
def fractionPart (ds : Bytes) : Bytes := if ds = [] then [] else dot :: ds

def zonePart : Option ZoneSyntax → Bytes
  | some z => z.text
  | none => []

def eraPart (beforeChrist : Bool) : Bytes := if beforeChrist then [space, 0x42, 0x43] else []

def text (st : StampSyntax) : Bytes :=
  st.year ++ minus :: (st.month.text ++ minus :: (st.day.text ++ space :: (st.hour.text ++ colon :: (st.min.text ++
    colon :: (st.sec.text ++ (fractionPart st.fraction ++ (zonePart st.zone ++ eraPart st.beforeChrist)))))))

/-- The year in astronomical counting, where 1 BC is the year 0. -/
def yearValue (st : StampSyntax) : Int :=
  if st.beforeChrist then 1 - (readDigits 0 st.year : Nat) else (readDigits 0 st.year : Nat)

def civil (st : StampSyntax) : Civil where
  year := st.yearValue
  mon := st.month.value
  day := st.day.value
  hour := st.hour.value
  min := st.min.value
  sec := st.sec.value

/-- The fraction in whole nanoseconds. -/
def nanos (st : StampSyntax) : Nat := readDigits 0 st.fraction * 10 ^ 9 / 10 ^ st.fraction.length

/-- What the timestamp says. -/
def stamp (st : StampSyntax) : Stamp := ⟨st.civil, st.nanos, st.zone.map ZoneSyntax.offset⟩

end StampSyntax

section Parts

theorem TwoDigits.value_eq (two : TwoDigits) : two.value = charToDigit two.tens * 10 + charToDigit two.ones := by
  have tens := charToDigit_toNat (two.isDigit two.tens List.mem_cons_self)
  have ones := charToDigit_toNat (two.isDigit two.ones (List.mem_cons_of_mem _ List.mem_cons_self))
  have digits : readDigits 0 two.text = (two.tens.toNat - 48) * 10 + (two.ones.toNat - 48) := by
    rw [TwoDigits.text, readDigits_cons, readDigits_cons, Nat.zero_mul, Nat.zero_add]
    exact Eq.refl _
  rw [TwoDigits.value, digits, tens, ones]
  omega

theorem TwoDigits.str2ToInt_text (two : TwoDigits) (rest : Bytes) : str2ToInt (two.text ++ rest) = two.value := by
  rw [two.value_eq]
  rfl

theorem TwoDigits.twoDigits_text (two : TwoDigits) (c : UInt8) (rest : Bytes) :
    twoDigits (c :: (two.text ++ rest)) 1 = true := by
  have tens := two.isDigit two.tens List.mem_cons_self
  have ones := two.isDigit two.ones (List.mem_cons_of_mem _ List.mem_cons_self)
  simp [twoDigits, charAt, TwoDigits.text, tens, ones]

/-- The weights of `k` digits behind the point. -/
def weights (k : Nat) : List Int := (List.range k).reverse.map fun i => (10 : Int) ^ i

theorem weights_succ (k : Nat) : weights (k + 1) = (10 : Int) ^ k :: weights k := by
  simp [weights, List.range_succ]

/-- The digits that have a weight are worth the fraction without the other ones. -/
theorem weigh_weights {ds : Bytes} (digits : ∀ d ∈ ds, IsDigit d) (k : Nat) :
    weigh (weights k) ds = (readDigits 0 ds * 10 ^ k / 10 ^ ds.length : Nat) := by
  induction ds generalizing k with
  | nil =>
    rw [show readDigits 0 [] = 0 from rfl, Nat.zero_mul, Nat.zero_div]
    cases weights k <;> rfl
  | cons d ds ih =>
    have later : ∀ c ∈ ds, IsDigit c := fun c hc => digits c (List.mem_cons_of_mem _ hc)
    have first := digits d List.mem_cons_self
    have value : readDigits 0 (d :: ds) = (d.toNat - 48) * 10 ^ ds.length + readDigits 0 ds := by
      rw [readDigits_cons, Nat.zero_mul, Nat.zero_add, readDigits_shift]
    cases k with
    | zero =>
      have small := readDigits_lt digits
      rw [Nat.pow_zero, Nat.mul_one, Nat.div_eq_of_lt small]
      rfl
    | succ k =>
      rw [weights_succ, weigh, ih later, charToDigit_toNat first, value, List.length_cons]
      generalize d.toNat - 48 = digit
      have positive : 0 < 10 ^ ds.length := Nat.pow_pos (by decide)
      have quotient : (digit * 10 ^ ds.length + readDigits 0 ds) * 10 ^ (k + 1) / 10 ^ (ds.length + 1) =
          10 ^ k * digit + readDigits 0 ds * 10 ^ k / 10 ^ ds.length := by
        rw [Nat.pow_succ, Nat.pow_succ, ← Nat.mul_assoc, Nat.mul_div_mul_right _ _ (by decide), Nat.add_mul,
          Nat.mul_right_comm, Nat.mul_comm (digit * 10 ^ k), Nat.mul_add_div positive, Nat.mul_comm digit]
      rw [quotient]
      push_cast
      rfl

theorem coef_eq : coef = weights 9 := by decide

end Parts

section Reading

open StampSyntax ZoneSyntax

/-- **The fraction is truncated to nanoseconds.** -/
theorem parseNsec_fractionPart {ds rest : Bytes} (digits : ∀ d ∈ ds, IsDigit d)
    (noDigit : ¬IsDigit (charAt rest 0)) (noDot : charAt rest 0 ≠ dot) :
    parseNsec (fractionPart ds ++ rest) = (((readDigits 0 ds * 10 ^ 9 / 10 ^ ds.length : Nat) : Int), rest) := by
  rw [← weigh_weights digits, ← coef_eq]
  unfold fractionPart
  by_cases absent : ds = []
  · subst absent
    simp [parseNsec, noDot, weigh]
  · rw [if_neg absent, List.cons_append, parseNsec_digits digits absent noDigit]

theorem parseZonePart_some (two : TwoDigits) (rest : Bytes) :
    parseZonePart (partText (some two) ++ rest) = (two.value, rest) := by
  have starts : (charAt (colon :: (two.text ++ rest)) 0 == colon && twoDigits (colon :: (two.text ++ rest)) 1) = true := by
    rw [two.twoDigits_text]
    rfl
  rw [partText, List.cons_append, parseZonePart, if_pos starts, List.drop_one, List.tail_cons, two.str2ToInt_text]
  rfl

theorem parseZonePart_none {rest : Bytes} (noColon : charAt rest 0 ≠ colon) : parseZonePart rest = (0, rest) := by
  simp [parseZonePart, noColon]

/-- Minutes and seconds of a zone. -/
theorem parseZonePart_rest (z : ZoneSyntax) {rest : Bytes} (noColon : charAt rest 0 ≠ colon) :
    parseZonePart (partText z.minute ++ (partText z.second ++ rest)) =
        (partValue z.minute, partText z.second ++ rest) ∧
      parseZonePart (partText z.second ++ rest) = (partValue z.second, rest) := by
  obtain ⟨negative, hour, _ | ⟨minute, _ | second⟩⟩ := z
  · exact ⟨parseZonePart_none noColon, parseZonePart_none noColon⟩
  · exact ⟨parseZonePart_some minute rest, parseZonePart_none noColon⟩
  · exact ⟨parseZonePart_some minute _, parseZonePart_some second rest⟩

/-- The zone is read, if there is one. -/
theorem parseZone_zonePart (zone : Option ZoneSyntax) {rest : Bytes} (noColon : charAt rest 0 ≠ colon)
    (noPlus : charAt rest 0 ≠ plus) (noMinus : charAt rest 0 ≠ minus) :
    parseZone (zonePart zone ++ rest) = (zone.map offset, rest) := by
  cases zone with
  | none => simp [zonePart, parseZone, noPlus, noMinus]
  | some z =>
    obtain ⟨minute, second⟩ := parseZonePart_rest z noColon
    have text : zonePart (some z) ++ rest = (if z.negative then minus else plus) ::
        (z.hour.text ++ (partText z.minute ++ (partText z.second ++ rest))) := by
      simp [zonePart, ZoneSyntax.text]
    have hour : ∀ sign : UInt8, (sign :: (z.hour.text ++ (partText z.minute ++ (partText z.second ++ rest)))).drop 3 =
        partText z.minute ++ (partText z.second ++ rest) := fun _ => rfl
    have sign : ∀ str : Bytes, charAt ((if z.negative then minus else plus) :: str) 0 =
        if z.negative then minus else plus := fun _ => rfl
    rw [text, parseZone, sign, z.hour.twoDigits_text, hour, minute]
    simp only [second, List.drop_one, List.tail_cons, z.hour.str2ToInt_text, Option.map_some, offset]
    have different : (plus == minus) = false := by decide
    cases z.negative
    · simp [different]
    · simp

theorem parseBc_eraPart (year : Int) (beforeChrist : Bool) :
    parseBc year (eraPart beforeChrist) = (if beforeChrist then -year + 1 else year, []) := by
  cases beforeChrist <;> rfl

/-- What may follow the fraction. -/
theorem charAt_zonePart (zone : Option ZoneSyntax) (beforeChrist : Bool) :
    charAt (zonePart zone ++ eraPart beforeChrist) 0 ∈ [plus, minus, space, nul] := by
  cases zone with
  | none => cases beforeChrist <;> decide
  | some z =>
    have sign : charAt (zonePart (some z) ++ eraPart beforeChrist) 0 = if z.negative then minus else plus := rfl
    rw [sign]
    split <;> decide

/-- **The scanner takes every timestamp** for what it says. -/
theorem parseStamp_text (st : StampSyntax) : parseStamp st.text = some st.stamp := by
  have follows := charAt_zonePart st.zone st.beforeChrist
  have noDigit : ¬IsDigit (charAt (zonePart st.zone ++ eraPart st.beforeChrist) 0) := by
    generalize charAt _ 0 = c at follows
    simp only [List.mem_cons, List.not_mem_nil, or_false] at follows
    rcases follows with rfl | rfl | rfl | rfl <;> decide
  have noDot : charAt (zonePart st.zone ++ eraPart st.beforeChrist) 0 ≠ dot := by
    generalize charAt _ 0 = c at follows
    simp only [List.mem_cons, List.not_mem_nil, or_false] at follows
    rcases follows with rfl | rfl | rfl | rfl <;> decide
  have zone := @parseZone_zonePart st.zone (eraPart st.beforeChrist) (by cases st.beforeChrist <;> decide)
    (by cases st.beforeChrist <;> decide) (by cases st.beforeChrist <;> decide)
  have digits : ∀ d ∈ [st.month.tens, st.month.ones, st.day.tens, st.day.ones, st.hour.tens, st.hour.ones, st.min.tens,
      st.min.ones, st.sec.tens, st.sec.ones], IsDigit d := by
    have month := st.month.isDigit
    have day := st.day.isDigit
    have hour := st.hour.isDigit
    have min := st.min.isDigit
    have sec := st.sec.isDigit
    simp only [List.forall_mem_cons] at month day hour min sec ⊢
    exact ⟨month.1, month.2.1, day.1, day.2.1, hour.1, hour.2.1, min.1, min.2.1, sec⟩
  have fields := @parseStamp_fields st.year st.month.tens st.month.ones st.day.tens st.day.ones st.hour.tens
    st.hour.ones st.min.tens st.min.ones st.sec.tens st.sec.ones
    (fractionPart st.fraction ++ (zonePart st.zone ++ eraPart st.beforeChrist)) st.yearDigits st.yearLength
    st.yearPositive digits
  have era : -((readDigits 0 st.year : Nat) : Int) + 1 = 1 - (readDigits 0 st.year : Nat) := by omega
  rw [parseNsec_fractionPart st.fractionDigits noDigit noDot] at fields
  simp only [zone, parseBc_eraPart, ← TwoDigits.value_eq, era] at fields
  exact fields

end Reading

section Shapes

open StampSyntax ZoneSyntax

/-- The year is a run of digits. -/
theorem parseYearFrom_split (n : Nat) (year : Nat) (str : Bytes) :
    ∃ ds : Bytes, (∀ d ∈ ds, IsDigit d) ∧ ds.length ≤ n ∧ str = ds ++ (parseYearFrom year n str).2 ∧
      (parseYearFrom year n str).1 = (readDigits year ds : Nat) := by
  induction n generalizing year str with
  | zero => exact ⟨[], by simp, Nat.le_refl 0, rfl, rfl⟩
  | succ n ih =>
    match str with
    | [] => exact ⟨[], by simp, Nat.zero_le _, rfl, rfl⟩
    | c :: str =>
      by_cases digit : IsDigit c
      · have next : 10 * (year : Int) + charToDigit c = (year * 10 + (c.toNat - 48) : Nat) := by
          rw [charToDigit_toNat digit]
          omega
        obtain ⟨ds, digits, short, text, value⟩ := ih (year * 10 + (c.toNat - 48)) str
        rw [parseYearFrom, if_pos digit, next]
        refine ⟨c :: ds, ?_, Nat.succ_le_succ short, congrArg (c :: ·) text, ?_⟩
        · simpa using And.intro digit digits
        · rw [value, readDigits_cons]
      · rw [parseYearFrom, if_neg digit]
        exact ⟨[], by simp, Nat.zero_le _, rfl, rfl⟩

/-- A mark and two digits behind it. -/
theorem mark_split {c : UInt8} {str : Bytes} (mark : charAt str 0 = c) (present : c ≠ nul)
    (two : twoDigits str 1 = true) : ∃ (digits : TwoDigits) (rest : Bytes), str = c :: (digits.text ++ rest) := by
  have ends : ¬IsDigit nul := by decide
  match str with
  | [] => exact absurd mark.symm present
  | [_] => simp [twoDigits, charAt, ends] at two
  | [_, _] => simp [twoDigits, charAt, ends] at two
  | c' :: a :: b :: rest =>
    have both : IsDigit a ∧ IsDigit b := by simpa [twoDigits, charAt] using two
    exact ⟨⟨a, b, by simpa using both⟩, rest, congrArg (· :: a :: b :: rest) mark⟩

/-- The fields of date and time. -/
theorem hasFields_split {str : Bytes} (fields : hasFields str = true) :
    ∃ (month day hour min sec : TwoDigits) (rest : Bytes), str = minus :: (month.text ++ minus :: (day.text ++
      space :: (hour.text ++ colon :: (min.text ++ colon :: (sec.text ++ rest))))) := by
  simp only [hasFields, Bool.and_eq_true, beq_iff_eq] at fields
  obtain ⟨⟨⟨⟨⟨⟨⟨⟨⟨mark, two⟩, mark2⟩, two2⟩, mark3⟩, two3⟩, mark4⟩, two4⟩, mark5⟩, two5⟩ := fields
  obtain ⟨month, str, rfl⟩ := mark_split mark (by decide) two
  obtain ⟨day, str, rfl⟩ := @mark_split minus str mark2 (by decide) two2
  obtain ⟨hour, str, rfl⟩ := @mark_split space str mark3 (by decide) two3
  obtain ⟨min, str, rfl⟩ := @mark_split colon str mark4 (by decide) two4
  obtain ⟨sec, str, rfl⟩ := @mark_split colon str mark5 (by decide) two5
  exact ⟨month, day, hour, min, sec, str, rfl⟩

/-- The scanner consumes a fraction or nothing. -/
theorem parseNsec_split (str : Bytes) :
    ∃ ds : Bytes, (∀ d ∈ ds, IsDigit d) ∧ str = fractionPart ds ++ (parseNsec str).2 := by
  by_cases starts : (charAt str 0 == dot && decide (IsDigit (charAt str 1))) = true
  · simp only [Bool.and_eq_true, beq_iff_eq, decide_eq_true_eq] at starts
    obtain ⟨mark, first⟩ := starts
    match str with
    | [] => exact absurd mark (by decide)
    | [_] => exact absurd first (by decide : ¬IsDigit nul)
    | c :: d :: str =>
      obtain rfl : c = dot := mark
      have cut := List.takeWhile_append_dropWhile (p := fun c => decide (IsDigit c)) (l := d :: str)
      have digits : ∀ d' ∈ (d :: str).takeWhile fun c => decide (IsDigit c), IsDigit d' := by
        intro d' member
        have digit := List.mem_takeWhile_imp member
        exact of_decide_eq_true digit
      have present : (d :: str).takeWhile (fun c => decide (IsDigit c)) ≠ [] := by
        rw [List.takeWhile_cons, if_pos (decide_eq_true (show IsDigit d from first))]
        exact List.cons_ne_nil _ _
      have ends : ¬IsDigit (charAt ((d :: str).dropWhile fun c => decide (IsDigit c)) 0) := by
        have first := List.head?_dropWhile_not (fun c => decide (IsDigit c)) (d :: str)
        cases left : (d :: str).dropWhile fun c => decide (IsDigit c) with
        | nil => decide
        | cons c rest =>
          rw [left] at first
          show ¬IsDigit c
          simpa using first
      have read := parseNsec_digits digits present ends
      rw [cut] at read
      refine ⟨_, digits, ?_⟩
      rw [read, fractionPart, if_neg present, List.cons_append, cut]
  · refine ⟨[], by simp, ?_⟩
    rw [parseNsec, if_neg starts]
    rfl

theorem parseZonePart_split (str : Bytes) :
    (∃ two : TwoDigits, str = partText (some two) ++ (parseZonePart str).2) ∨ parseZonePart str = (0, str) := by
  by_cases starts : (charAt str 0 == colon && twoDigits str 1) = true
  · simp only [Bool.and_eq_true, beq_iff_eq] at starts
    obtain ⟨two, rest, rfl⟩ := mark_split starts.1 (by decide) starts.2
    have read := parseZonePart_some two rest
    rw [partText, List.cons_append] at read
    exact .inl ⟨two, by rw [read]; rfl⟩
  · exact .inr (by rw [parseZonePart, if_neg starts])

/-- The scanner consumes a zone or nothing. -/
theorem parseZone_split (str : Bytes) : ∃ zone : Option ZoneSyntax, str = zonePart zone ++ (parseZone str).2 := by
  by_cases starts : ((charAt str 0 == plus || charAt str 0 == minus) && twoDigits str 1) = true
  · have hours := starts
    rw [Bool.and_eq_true, Bool.or_eq_true, beq_iff_eq, beq_iff_eq] at hours
    obtain ⟨hour, rest, text⟩ : ∃ (hour : TwoDigits) (rest : Bytes),
        str = (if charAt str 0 == minus then minus else plus) :: (hour.text ++ rest) := by
      rcases hours.1 with mark | mark
      · rw [mark]
        exact mark_split mark (by decide) hours.2
      · rw [mark]
        exact mark_split mark (by decide) hours.2
    have behind : str.drop 3 = rest := by rw [text]; rfl
    have left : (parseZone str).2 = (parseZonePart (parseZonePart rest).2).2 := by
      rw [parseZone, if_pos starts, behind]
    have parts : ∃ parts : Option (TwoDigits × Option TwoDigits), rest = partText (parts.map Prod.fst) ++
        (partText (parts.bind Prod.snd) ++ (parseZonePart (parseZonePart rest).2).2) := by
      rcases parseZonePart_split rest with ⟨minute, minuteText⟩ | absent
      · rcases parseZonePart_split (parseZonePart rest).2 with ⟨second, secondText⟩ | absent
        · exact ⟨some (minute, some second), minuteText.trans (congrArg (partText (some minute) ++ ·) secondText)⟩
        · exact ⟨some (minute, none), by rw [absent]; exact minuteText⟩
      · exact ⟨none, by rw [absent, absent]; rfl⟩
    obtain ⟨parts, restText⟩ := parts
    refine ⟨some ⟨charAt str 0 == minus, hour, parts⟩, ?_⟩
    rw [left]
    refine text.trans ?_
    rw [zonePart, ZoneSyntax.text, List.cons_append, List.append_assoc, List.append_assoc]
    exact congrArg (fun str' => _ :: (hour.text ++ str')) restText
  · refine ⟨.none, ?_⟩
    rw [parseZone, if_neg starts]
    rfl

theorem parseBc_split (year : Int) (str : Bytes) : ∃ beforeChrist, str = eraPart beforeChrist ++ (parseBc year str).2 := by
  by_cases era : (charAt str 0 == space && charAt str 1 == 0x42 && charAt str 2 == 0x43) = true
  · refine ⟨true, ?_⟩
    rw [parseBc, if_pos era]
    simp only [Bool.and_eq_true, beq_iff_eq] at era
    match str with
    | [] => exact absurd era.1.1 (by decide)
    | [_] => exact absurd era.1.2 (show ¬nul = 0x42 by decide)
    | [_, _] => exact absurd era.2 (show ¬nul = 0x43 by decide)
    | a :: b :: c :: str =>
      obtain ⟨⟨rfl, rfl⟩, rfl⟩ : (a = space ∧ b = 0x42) ∧ c = 0x43 := era
      rfl
  · refine ⟨false, ?_⟩
    rw [parseBc, if_neg era]
    rfl

/-- What the scanner consumes behind the seconds. -/
theorem tail_split (year : Int) (tail : Bytes) :
    ∃ (ds : Bytes) (zone : Option ZoneSyntax) (beforeChrist : Bool), (∀ d ∈ ds, IsDigit d) ∧
      tail = fractionPart ds ++ (zonePart zone ++ (eraPart beforeChrist ++
        (parseBc year (parseZone (parseNsec tail).2).2).2)) := by
  obtain ⟨ds, digits, fractionText⟩ := parseNsec_split tail
  obtain ⟨zone, zoneText⟩ := parseZone_split (parseNsec tail).2
  obtain ⟨beforeChrist, eraText⟩ := parseBc_split year (parseZone (parseNsec tail).2).2
  refine ⟨ds, zone, beforeChrist, digits, ?_⟩
  rw [← eraText, ← zoneText]
  exact fractionText

/-- Where a text without NUL seems to have one, it ends. -/
theorem eq_nil_of_charAt {str : Bytes} (noNul : nul ∉ str) (ends : charAt str 0 = nul) : str = [] := by
  cases str with
  | nil => rfl
  | cons c str => exact absurd (ends ▸ List.mem_cons_self : nul ∈ c :: str) noNul

/-- **The scanner takes nothing else.** -/
theorem syntax_of_parseStamp {val : Bytes} (noNul : nul ∉ val) {read : Stamp} (taken : parseStamp val = some read) :
    ∃ st : StampSyntax, st.text = val := by
  obtain ⟨year, yearDigits, yearLength, yearText, yearValue⟩ := parseYearFrom_split 7 0 val
  rw [parseStamp, parseYear] at taken
  rw [show ((0 : Nat) : Int) = 0 from rfl] at yearText yearValue
  generalize parseYearFrom 0 7 val = scanned at taken yearText yearValue
  obtain ⟨value, str⟩ := scanned
  obtain rfl : value = (readDigits 0 year : Nat) := yearValue
  simp only at taken yearText
  by_cases shape : (decide ((0 : Int) < (readDigits 0 year : Nat)) && hasFields str) = true
  · rw [if_pos shape] at taken
    rw [Bool.and_eq_true, decide_eq_true_eq] at shape
    obtain ⟨positive, fields⟩ := shape
    obtain ⟨month, day, hour, min, sec, tail, strText⟩ := hasFields_split fields
    have behind : str.drop 15 = tail := by rw [strText]; rfl
    rw [behind] at taken
    obtain ⟨fraction, zone, beforeChrist, fractionDigits, tailText⟩ := tail_split (readDigits 0 year : Nat) tail
    have ends : charAt (parseBc (readDigits 0 year : Nat) (parseZone (parseNsec tail).2).2).2 0 = nul := by
      by_contra more
      simp [more] at taken
    generalize (parseBc (readDigits 0 year : Nat) (parseZone (parseNsec tail).2).2).2 = rest at ends tailText
    have consumed : rest = [] := by
      refine eq_nil_of_charAt (fun member => noNul ?_) ends
      rw [yearText, strText, tailText]
      simp [member]
    rw [consumed, List.append_nil] at tailText
    refine ⟨⟨year, month, day, hour, min, sec, fraction, zone, beforeChrist, yearDigits, yearLength,
      Int.natCast_pos.1 positive, fractionDigits⟩, ?_⟩
    rw [yearText, strText]
    refine Eq.trans ?_ (congrArg (fun tail' => year ++ minus :: (month.text ++ minus :: (day.text ++ space ::
      (hour.text ++ colon :: (min.text ++ colon :: (sec.text ++ tail')))))) tailText.symm)
    rfl
  · rw [if_neg shape] at taken
    cases taken

end Shapes

end RubyPg.Text
