import RubyPg.Text.Timestamp
import Mathlib.Data.List.DropRight

/-!
# The server's text form of a timestamp

What the server sends for a `timestamp` with the ISO date style: the year with at least four
digits, the fields of date and time with two, a fraction of a second without its trailing zeros,
and `BC` behind years before the first. The decoder reads all of it back (`parseStamp_stampText`).
-/

namespace RubyPg.Text
set_option autoImplicit false
open Ascii

/-- The digits of a year. -/
def yearText (year : Nat) : Bytes := if year < 10000 then digitsOf 4 year else decimal year

/-- The fraction of a second, given in microseconds. -/
def fractionText (fsec : Nat) : Bytes :=
  if fsec = 0 then [] else dot :: (digitsOf 6 fsec).rdropWhile (· == zero)

/-- The fields of a timestamp as text. -/
def stampText (c : Civil) (fsec : Nat) : Bytes :=
  yearText (if 0 < c.year then c.year else 1 - c.year).toNat ++ minus :: (digitsOf 2 c.mon.toNat ++
    minus :: (digitsOf 2 c.day.toNat ++ space :: (digitsOf 2 c.hour.toNat ++ colon :: (digitsOf 2 c.min.toNat ++
      colon :: (digitsOf 2 c.sec.toNat ++ (fractionText fsec ++ if 0 < c.year then [] else [space, 0x42, 0x43]))))))

/-- The fields fit into their places. -/
structure Printable (c : Civil) : Prop where
  year_low : -9999998 ≤ c.year
  year_high : c.year ≤ 9999999
  mon : 0 ≤ c.mon ∧ c.mon < 100
  day : 0 ≤ c.day ∧ c.day < 100
  hour : 0 ≤ c.hour ∧ c.hour < 100
  min : 0 ≤ c.min ∧ c.min < 100
  sec : 0 ≤ c.sec ∧ c.sec < 100

theorem charToDigit_digit {n : Nat} (small : n < 10) : charToDigit (48 + n).toUInt8 = n := by
  have : ∀ k : Fin 10, charToDigit (48 + k.val).toUInt8 = k.val := by decide
  exact this ⟨n, small⟩

theorem charToDigit_toNat {d : UInt8} (digit : IsDigit d) : charToDigit d = (d.toNat - 48 : Nat) := by
  have low : 48 ≤ d.toNat := UInt8.le_iff_toNat_le.1 digit.1
  unfold charToDigit
  omega

/-- `parse_year` reads a run of digits, as long as it may. -/
theorem parseYearFrom_digits {ds rest : Bytes} {i : Nat} (digits : ∀ d ∈ ds, IsDigit d) (room : ds.length ≤ i)
    (ends : ¬IsDigit (charAt rest 0)) (year : Nat) :
    parseYearFrom year i (ds ++ rest) = (((readDigits year ds : Nat) : Int), rest) := by
  induction ds generalizing i year with
  | nil =>
    match i, rest with
    | 0, _ => rfl
    | _ + 1, [] => rfl
    | _ + 1, c :: rest =>
      rw [List.nil_append, parseYearFrom, if_neg (show ¬IsDigit c from ends)]
      rfl
  | cons d ds ih =>
    obtain ⟨i, rfl⟩ : ∃ j, i = j + 1 := Nat.exists_eq_add_of_le' (by simp at room; omega)
    have digit := digits d List.mem_cons_self
    have next : 10 * (year : Int) + charToDigit d = (year * 10 + (d.toNat - 48) : Nat) := by
      rw [charToDigit_toNat digit]
      omega
    rw [List.cons_append, parseYearFrom, if_pos digit, next]
    exact ih (fun c hc => digits c (List.mem_cons_of_mem _ hc)) (by simpa using room) _

theorem isDigit_of_mem_yearText {year : Nat} {d : UInt8} (member : d ∈ yearText year) : IsDigit d := by
  unfold yearText at member
  split at member
  · exact isDigit_of_mem_digitsOf member
  · exact isDigit_of_mem_decimal member

theorem length_yearText_le {year : Nat} (small : year < 10000000) : (yearText year).length ≤ 7 := by
  unfold yearText
  split
  · simp
  · exact (length_decimal_le (by decide)).2 small

theorem readDigits_yearText (year : Nat) : readDigits 0 (yearText year) = year := by
  unfold yearText
  split
  · rw [readDigits_digitsOf]
    omega
  · exact readDigits_decimal year

/-- Two digits, as the decoder sees them. -/
theorem two_digits {n : Nat} (small : n < 100) :
    ∃ a b, digitsOf 2 n = [a, b] ∧ IsDigit a ∧ IsDigit b ∧ charToDigit a * 10 + charToDigit b = n := by
  refine ⟨_, _, rfl, isDigit_digit (Nat.mod_lt _ (by decide)), isDigit_digit (Nat.mod_lt _ (by decide)), ?_⟩
  rw [charToDigit_digit (Nat.mod_lt _ (by decide)), charToDigit_digit (Nat.mod_lt _ (by decide)), Nat.pow_one,
    Nat.pow_zero]
  omega

/-- The value of the digits of a fraction. -/
def weigh : List Int → Bytes → Int
  | c :: coefs, d :: ds => c * charToDigit d + weigh coefs ds
  | _, _ => 0

/-- The loop over a fraction stops behind the last weight or the last digit. -/
theorem readNsec_digits {coefs : List Int} {ds rest : Bytes} (digits : ∀ d ∈ ds, IsDigit d)
    (ends : ¬IsDigit (charAt rest 0)) (nsec : Int) :
    readNsec coefs nsec (ds ++ rest) = (nsec + weigh coefs ds, ds.drop coefs.length ++ rest) := by
  induction ds generalizing coefs nsec with
  | nil =>
    match coefs, rest with
    | [], _ => simp [readNsec, weigh]
    | _ :: _, [] => simp [readNsec, weigh]
    | _ :: _, d :: rest =>
      rw [List.nil_append, readNsec, if_neg (show ¬IsDigit d from ends)]
      simp [weigh]
  | cons d ds ih =>
    match coefs with
    | [] => simp [readNsec, weigh]
    | c :: coefs =>
      rw [List.cons_append, readNsec, if_pos (digits d List.mem_cons_self),
        ih fun c hc => digits c (List.mem_cons_of_mem _ hc), weigh, Int.add_assoc]
      rfl

/-- A point and digits are read, those without a weight are skipped. -/
theorem parseNsec_digits {ds rest : Bytes} (digits : ∀ d ∈ ds, IsDigit d) (present : ds ≠ [])
    (ends : ¬IsDigit (charAt rest 0)) : parseNsec (dot :: (ds ++ rest)) = (weigh coef ds, rest) := by
  have starts : (charAt (dot :: (ds ++ rest)) 0 == dot && decide (IsDigit (charAt (dot :: (ds ++ rest)) 1))) = true := by
    obtain ⟨d, ds, rfl⟩ := List.exists_cons_of_ne_nil present
    simpa [charAt] using digits d List.mem_cons_self
  have skipped : ∀ d ∈ ds.drop coef.length, decide (IsDigit d) = true := fun d hd =>
    decide_eq_true (digits d (List.mem_of_mem_drop hd))
  have stays : rest.dropWhile (fun c => decide (IsDigit c)) = rest := by
    cases rest with
    | nil => rfl
    | cons c rest => rw [List.dropWhile_cons, if_neg (by simpa [charAt] using ends)]
  rw [parseNsec, if_pos starts, List.drop_one, List.tail_cons, readNsec_digits digits ends, Int.zero_add]
  simp only
  rw [List.dropWhile_append_of_pos skipped, stays]

/-- Trailing zeros weigh nothing. -/
theorem weigh_append_zero (coefs : List Int) (ds : Bytes) : weigh coefs (ds ++ [zero]) = weigh coefs ds := by
  have nothing : charToDigit zero = 0 := by decide
  induction ds generalizing coefs with
  | nil =>
    match coefs with
    | [] => rfl
    | [_] => simp [weigh, nothing]
    | _ :: _ :: _ => simp [weigh, nothing]
  | cons d ds ih =>
    match coefs with
    | [] => rfl
    | c :: coefs => rw [List.cons_append, weigh, weigh, ih]

theorem weigh_rdropWhile (coefs : List Int) (ds : Bytes) :
    weigh coefs (ds.rdropWhile (· == zero)) = weigh coefs ds := by
  induction ds using List.reverseRecOn with
  | nil => rfl
  | append_singleton ds d ih =>
    by_cases isZero : d = zero
    · subst isZero
      rw [List.rdropWhile_concat_pos _ _ _ (by decide), ih, weigh_append_zero]
    · rw [List.rdropWhile_concat_neg _ _ _ (by simpa using isZero)]

theorem weigh_digitsOf {fsec : Nat} (small : fsec < 1000000) : weigh coef (digitsOf 6 fsec) = fsec * 1000 := by
  simp only [digitsOf, weigh, coef, charToDigit_digit (Nat.mod_lt _ (by decide : 10 > 0)), Nat.reducePow]
  omega

/-- The fraction is read in nanoseconds. -/
theorem parseNsec_fractionText {fsec : Nat} (small : fsec < 1000000) {rest : Bytes}
    (noDigit : ¬IsDigit (charAt rest 0)) (noDot : charAt rest 0 ≠ dot) :
    parseNsec (fractionText fsec ++ rest) = ((fsec : Int) * 1000, rest) := by
  unfold fractionText
  by_cases whole : fsec = 0
  · subst whole
    simp [parseNsec, noDot]
  · rw [if_neg whole]
    have digits : ∀ d ∈ (digitsOf 6 fsec).rdropWhile (· == zero), IsDigit d := fun d hd =>
      isDigit_of_mem_digitsOf (( List.rdropWhile_prefix _ _).subset hd)
    have weight := weigh_rdropWhile coef (digitsOf 6 fsec)
    rw [weigh_digitsOf small] at weight
    have present : (digitsOf 6 fsec).rdropWhile (· == zero) ≠ [] := by
      intro empty
      rw [empty, show weigh coef [] = 0 from rfl] at weight
      omega
    rw [List.cons_append, parseNsec_digits digits present noDigit, weight]

/-- What follows the year, once its digits are known. -/
theorem parseStamp_fields {ds : Bytes} {m1 m2 d1 d2 h1 h2 n1 n2 s1 s2 : UInt8} {tail : Bytes}
    (year : ∀ d ∈ ds, IsDigit d) (small : ds.length ≤ 7) (positive : 0 < readDigits 0 ds)
    (digits : ∀ d ∈ [m1, m2, d1, d2, h1, h2, n1, n2, s1, s2], IsDigit d) :
    parseStamp (ds ++ minus :: m1 :: m2 :: minus :: d1 :: d2 :: space :: h1 :: h2 :: colon :: n1 :: n2 ::
        colon :: s1 :: s2 :: tail) =
      let (nsec, str) := parseNsec tail
      let (gmtOffset, str) := parseZone str
      let (year, str) := parseBc (readDigits 0 ds : Nat) str
      if charAt str 0 == nul then
        some ⟨⟨year, charToDigit m1 * 10 + charToDigit m2, charToDigit d1 * 10 + charToDigit d2,
          charToDigit h1 * 10 + charToDigit h2, charToDigit n1 * 10 + charToDigit n2,
          charToDigit s1 * 10 + charToDigit s2⟩, nsec, gmtOffset⟩
      else none := by
  simp only [List.forall_mem_cons, List.not_mem_nil, false_implies, implies_true, and_true] at digits
  unfold parseStamp parseYear
  rw [show ((0 : Int)) = ((0 : Nat) : Int) from rfl,
    parseYearFrom_digits year small (by rw [charAt, List.getD_cons_zero]; decide)]
  have shape : (decide (((0 : Nat) : Int) < (readDigits 0 ds : Nat)) && hasFields (minus :: m1 :: m2 :: minus :: d1 ::
      d2 :: space :: h1 :: h2 :: colon :: n1 :: n2 :: colon :: s1 :: s2 :: tail)) = true := by
    simp [hasFields, twoDigits, charAt, digits, positive]
  simp only [shape, if_true]
  rfl

theorem parseBc_bc (year : Int) : parseBc year [space, 0x42, 0x43] = (-year + 1, []) := rfl

/-- **The decoder reads the server's form.** -/
theorem parseStamp_stampText {c : Civil} (fits : Printable c) {fsec : Nat} (small : fsec < 1000000) :
    parseStamp (stampText c fsec) = some ⟨c, fsec * 1000, none⟩ := by
  obtain ⟨m1, m2, mText, m1Digit, m2Digit, mValue⟩ := @two_digits c.mon.toNat (by have := fits.mon; omega)
  obtain ⟨d1, d2, dText, d1Digit, d2Digit, dValue⟩ := @two_digits c.day.toNat (by have := fits.day; omega)
  obtain ⟨h1, h2, hText, h1Digit, h2Digit, hValue⟩ := @two_digits c.hour.toNat (by have := fits.hour; omega)
  obtain ⟨n1, n2, nText, n1Digit, n2Digit, nValue⟩ := @two_digits c.min.toNat (by have := fits.min; omega)
  obtain ⟨s1, s2, sText, s1Digit, s2Digit, sValue⟩ := @two_digits c.sec.toNat (by have := fits.sec; omega)
  have low := fits.year_low
  have high := fits.year_high
  have positive : 0 < (if 0 < c.year then c.year else 1 - c.year).toNat := by split <;> omega
  have bounded : (if 0 < c.year then c.year else 1 - c.year).toNat < 10000000 := by split <;> omega
  unfold stampText
  rw [mText, dText, hText, nText, sText]
  simp only [List.cons_append, List.nil_append]
  rw [parseStamp_fields (fun d hd => isDigit_of_mem_yearText hd) (length_yearText_le bounded)
      (by rw [readDigits_yearText]; exact positive) (by simp [*]), readDigits_yearText, mValue, dValue, hValue, nValue, sValue,
    Int.toNat_of_nonneg fits.mon.1, Int.toNat_of_nonneg fits.day.1, Int.toNat_of_nonneg fits.hour.1,
    Int.toNat_of_nonneg fits.min.1, Int.toNat_of_nonneg fits.sec.1]
  by_cases ad : 0 < c.year
  · rw [if_pos ad, if_pos ad, parseNsec_fractionText small (by decide) (by decide),
      Int.toNat_of_nonneg (Int.le_of_lt ad)]
    rfl
  · have turned : -((1 - c.year).toNat : Int) + 1 = c.year := by omega
    rw [if_neg ad, if_neg ad, parseNsec_fractionText small (by decide) (by decide)]
    simp only [show parseZone [space, 0x42, 0x43] = (none, [space, 0x42, 0x43]) from rfl, parseBc_bc, turned]
    rfl

end RubyPg.Text
