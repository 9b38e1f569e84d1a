import RubyPg.Base64InPlace
import RubyPg.TwoPass.ArraySize

/-!
# The base64 size as an `int`

`BASE64_ENCODED_SIZE` is computed in `int`. From 1610612734 bytes on the product wraps and the size is negative,
which `rb_str_new` refuses; for the last two lengths already the sum wraps, and the size is positive again, but too
small. The encoder runs backwards until its output is full, so what does not fit is left out without a word.
-/

namespace RubyPg.TwoPass
set_option autoImplicit false
open Base64 Writer

/-- `BASE64_ENCODED_SIZE` of an `int`. -/
def base64EncodedSizeInt (strlen : Int) : Int := int32 ((int32 (strlen + 2)).tdiv 3 * 4)

/-- `rb_str_new`. -/
def rbStrNew (len : Int) : Outcome Nat :=
  if len < 0 then rbRaise .argumentError "negative string size (or size too big)" else pure len.toNat

section Code

variable (src : Nat → Writer Stop UInt8)

/-- The last group, at index `i`. -/
def encodePartAt (i len : Nat) : Writer Stop Unit := do
  let two := decide (len % 3 > 1)
  let byte1 ← byteOrZero src two (len - 1)
  let byte0 ← src (len - len % 3)
  let triple := (byte0.toNat <<< 16) + (byte1.toNat <<< 8)
  store (i + 3) Ascii.equals
  store (i + 2) (if two then sextet triple 1 else Ascii.equals)
  store (i + 1) (sextet triple 2)
  store i (sextet triple 3)

/-- `while( out_ptr > out )`, with room for some groups in front of `out_ptr`. -/
def encodeWhile (out : Nat) : Nat → Nat → Writer Stop Unit
  | _, 0 => pure ()
  | inPtr, g + 1 => do
    let byte2 ← src (inPtr - 1)
    let byte1 ← src (inPtr - 2)
    let byte0 ← src (inPtr - 3)
    let triple := (byte0.toNat <<< 16) + (byte1.toNat <<< 8) + byte2.toNat
    store (out + 4 * g + 3) (sextet triple 0)
    store (out + 4 * g + 2) (sextet triple 1)
    store (out + 4 * g + 1) (sextet triple 2)
    store (out + 4 * g) (sextet triple 3)
    encodeWhile out (inPtr - 3) g

/-- `rbpg_base64_encode` with its `int` size. Without room for the last group it stores in front of `out`. -/
def rbpgBase64EncodeInt (out len : Nat) : Writer Stop Unit :=
  let size := base64EncodedSizeInt len
  if len % 3 > 0 then
    if size < 4 then Method.raise .undefined
    else do
      encodePartAt src (out + size.toNat - 4) len
      encodeWhile src out (len - len % 3) (size.toNat / 4 - 1)
  else encodeWhile src out len (size.toNat / 4)

/-- A new String with the base64 form of some bytes. -/
def base64StringInt (s : Bytes) : Outcome Bytes := do
  let size ← rbStrNew (base64EncodedSizeInt s.length)
  match rbpgBase64EncodeInt (given s) 0 s.length ⟨memOf [], []⟩ with
  | (.ok (), buf) => pure (buf.mem.slice 0 size)
  | (.error stop, _) => .error stop

/-- The second call of `pg_text_enc_to_base64`. -/
def toBase64SecondInt (second : Nat → Writer Stop Nat) (out : Nat) : Writer Stop Int := do
  let strlen ← second out
  rbpgBase64EncodeInt (inPlace out) out strlen
  pure (base64EncodedSizeInt strlen)

/-- What the first call of `pg_text_enc_to_base64` answers. -/
inductive IntAnswer where
  | string (s : Bytes)
  | size (strlen : Int) (second : Nat → Writer Stop Int)

variable {ι : Type}

/-- `pg_text_enc_to_base64`. -/
def pgTextEncToBase64Int (elem : ElemCoder ι) (value : Value) : Outcome IntAnswer := do
  match ← elem.first value with
  | .onePass subint => do
    let _ ← rbLong2int subint.length
    let outStr ← base64StringInt subint
    pure (.string outStr)
  | .twoPass strlen subint => pure (.size (base64EncodedSizeInt strlen) (toBase64SecondInt (elem.second value subint)))

/-- `pg_bin_dec_to_base64`; what it makes of the new String is left to `decFunc`. -/
def pgBinDecToBase64Int {β : Type} (decFunc : Bytes → Outcome β) (val : Bytes) : Outcome β := do
  let outValue ← base64StringInt val
  decFunc outValue

end Code

section Size

variable {len : Nat}

/-- Up to here nothing wraps. -/
theorem base64EncodedSizeInt_eq (small : len ≤ 1610612733) : base64EncodedSizeInt len = base64EncodedSize len := by
  have sum : int32 ((len : Int) + 2) = (len : Int) + 2 := int32_eq (by omega) (by omega)
  have quotient : ((len : Int) + 2).tdiv 3 = ((len : Int) + 2) / 3 := Int.tdiv_eq_ediv_of_nonneg (by omega)
  unfold base64EncodedSizeInt base64EncodedSize
  rw [sum, quotient, int32_eq (by omega) (by omega)]
  omega

theorem int32_above {n : Int} (low : 2147483648 ≤ n) (high : n < 6442450944) : int32 n = n - 4294967296 := by
  have wrapped : int32 n = int32 (n - 4294967296) := by
    unfold int32
    exact (Int.sub_bmod_right n (2 ^ 32)).symm
  rw [wrapped]
  exact int32_eq (by omega) (by omega)

/-- Here the product wraps. -/
theorem base64EncodedSizeInt_neg (low : 1610612734 ≤ len) (high : len ≤ 2147483645) : base64EncodedSizeInt len < 0 := by
  have sum : int32 ((len : Int) + 2) = (len : Int) + 2 := int32_eq (by omega) (by omega)
  have quotient : ((len : Int) + 2).tdiv 3 = ((len : Int) + 2) / 3 := Int.tdiv_eq_ediv_of_nonneg (by omega)
  unfold base64EncodedSizeInt
  rw [sum, quotient, int32_above (by omega) (by omega)]
  omega

/-- And here the sum. -/
theorem base64EncodedSizeInt_top (low : 2147483646 ≤ len) (high : len ≤ 2147483647) : base64EncodedSizeInt len = 1431655768 := by
  have sum : int32 ((len : Int) + 2) = (len : Int) + 2 - 4294967296 := int32_above (by omega) (by omega)
  have ends : (len : Int) + 2 - 4294967296 = -2147483648 ∨ (len : Int) + 2 - 4294967296 = -2147483647 := by omega
  unfold base64EncodedSizeInt
  rw [sum]
  rcases ends with last | last
  · rw [last]
    decide
  · rw [last]
    decide

/-- The true size is larger. -/
theorem base64EncodedSizeInt_ne (low : 2147483646 ≤ len) (high : len ≤ 2147483647) :
    base64EncodedSizeInt len ≠ base64EncodedSize len := by
  rw [base64EncodedSizeInt_top low high]
  unfold base64EncodedSize
  omega

end Size

section Agreement

variable {src : Nat → Writer Stop UInt8} {out len g : Nat}

/-- With room for all groups the loop reads all of them. -/
theorem encodeWhile_eq : encodeWhile src out (3 * g) g = encodeGroups src out g := by
  induction g with
  | zero => rw [encodeWhile, encodeGroups]
  | succ g ih =>
    have first : 3 * (g + 1) - 1 = 3 * g + 2 := by omega
    have second : 3 * (g + 1) - 2 = 3 * g + 1 := by omega
    have third : 3 * (g + 1) - 3 = 3 * g := by omega
    rw [encodeWhile, encodeGroups, first, second, third, ih]

theorem encodePartAt_eq (part : len % 3 > 0) : encodePartAt src (out + 4 * (len / 3)) len = encodePart src out len := by
  have first : len - len % 3 = 3 * (len / 3) := by omega
  unfold encodePartAt encodePart byteOrZero
  rw [first]
  by_cases two : len % 3 > 1
  · have second : len - 1 = 3 * (len / 3) + 1 := by omega
    rw [second]
  · simp only [two, decide_false, Bool.false_eq_true, if_false]

/-- Where nothing wraps, the encoder encodes all of its input. -/
theorem rbpgBase64EncodeInt_eq (small : len ≤ 1610612733) : rbpgBase64EncodeInt src out len = rbpgBase64Encode src out len := by
  have size : base64EncodedSizeInt len = ((len + 2) / 3 * 4 : Nat) := base64EncodedSizeInt_eq small
  unfold rbpgBase64EncodeInt rbpgBase64Encode
  rw [size]
  dsimp only
  rw [Int.toNat_natCast]
  by_cases part : len % 3 > 0
  · have place : out + (len + 2) / 3 * 4 - 4 = out + 4 * (len / 3) := by omega
    have rest : (len + 2) / 3 * 4 / 4 - 1 = len / 3 := by omega
    have start : len - len % 3 = 3 * (len / 3) := by omega
    rw [if_pos part, if_pos part, if_neg (by omega), place, rest, start, encodePartAt_eq part, encodeWhile_eq]
  · have rest : (len + 2) / 3 * 4 / 4 = len / 3 := by omega
    have whole : len = 3 * (len / 3) := by omega
    rw [if_neg part, if_neg part, rest, ← encodeWhile_eq, ← whole]

/-- The loop ends, whatever is left unread. -/
theorem encodeWhile_returns (s : Bytes) (inPtr : Nat) (w : Buf) :
    ∃ w', encodeWhile (given s) out inPtr g w = (.ok (), w') := by
  induction g generalizing inPtr w with
  | zero =>
    rw [encodeWhile]
    exact ⟨w, rfl⟩
  | succ g ih =>
    rw [encodeWhile]
    simp only [pure_bind, store_bind]
    apply ih

theorem encodePartAt_returns (s : Bytes) (i : Nat) (w : Buf) : ∃ w', encodePartAt (given s) i len w = (.ok (), w') := by
  unfold encodePartAt byteOrZero
  by_cases two : len % 3 > 1
  · simp only [two, decide_true, if_true, pure_bind, store_bind]
    exact ⟨_, rfl⟩
  · simp only [two, decide_false, Bool.false_eq_true, if_false, pure_bind, store_bind]
    exact ⟨_, rfl⟩

theorem rbpgBase64EncodeInt_returns (s : Bytes) (room : 4 ≤ base64EncodedSizeInt len) (w : Buf) :
    ∃ w', rbpgBase64EncodeInt (given s) out len w = (.ok (), w') := by
  unfold rbpgBase64EncodeInt
  by_cases part : len % 3 > 0
  · obtain ⟨w', run⟩ := @encodePartAt_returns len s (out + (base64EncodedSizeInt len).toNat - 4) w
    rw [if_pos part, if_neg (by omega), Method.bind_ok run]
    exact encodeWhile_returns s _ w'
  · rw [if_neg part]
    exact encodeWhile_returns s _ w

end Agreement

/-- The String is complete and its size the right one, or an exception is raised. -/
inductive RaisesOrEncodes (s : Bytes) : Outcome Bytes → Prop where
  | encodes (size : base64EncodedSizeInt s.length = base64EncodedSize s.length) : RaisesOrEncodes s (.ok (text s))
  | raises (cls : ErrClass) (msg : String) : RaisesOrEncodes s (.error (.exn cls msg))

/-- The same for the two calls: the size that the first one answers is not negative, and the second one encodes all
that the element writes. -/
inductive Right {ι : Type} (elem : ElemCoder ι) (value : Value) : Subint ι → Outcome IntAnswer → Prop where
  | onePass (s : Bytes) (size : base64EncodedSizeInt s.length = base64EncodedSize s.length) :
    Right elem value (.onePass s) (.ok (.string (text s)))
  | twoPass (strlen : Nat) (subint : ι) (n : Int) (second : Nat → Writer Stop Int) (nonneg : 0 ≤ n)
    (size : n = base64EncodedSize strlen)
    (encodes : ∀ x out, x.length ≤ strlen → Puts out x x.length (elem.second value subint out) →
      Puts out (text x) (base64EncodedSize x.length : Int) (second out)) :
    Right elem value (.twoPass strlen subint) (.ok (.size n second))
  | raises (subint : Subint ι) (cls : ErrClass) (msg : String) : Right elem value subint (.error (.exn cls msg))

/-- The lengths for which it is so. -/
def Subint.Bounded {ι : Type} : Subint ι → Prop
  | .onePass s => s.length ≤ 2147483645
  | .twoPass strlen _ => strlen ≤ 1610612733

section Main

variable {s : Bytes}

theorem base64StringInt_small (small : s.length ≤ 1610612733) : base64StringInt s = .ok (text s) := by
  have size : base64EncodedSizeInt s.length = (base64EncodedSize s.length : Nat) := base64EncodedSizeInt_eq small
  have same := base64String_eq s
  unfold base64String at same
  unfold base64StringInt rbStrNew
  rw [size, if_neg (by omega), rbpgBase64EncodeInt_eq small]
  exact same

theorem base64StringInt_neg (low : 1610612734 ≤ s.length) (high : s.length ≤ 2147483645) :
    base64StringInt s = rbRaise .argumentError "negative string size (or size too big)" := by
  unfold base64StringInt rbStrNew
  rw [if_pos (base64EncodedSizeInt_neg low high)]
  rfl

/-- Nothing is raised where the String is too short. -/
theorem base64StringInt_returns (room : 4 ≤ base64EncodedSizeInt s.length) : ∃ y, base64StringInt s = .ok y := by
  obtain ⟨w, run⟩ := @rbpgBase64EncodeInt_returns 0 s.length s room ⟨memOf [], []⟩
  refine ⟨w.mem.slice 0 (base64EncodedSizeInt s.length).toNat, ?_⟩
  unfold base64StringInt rbStrNew
  rw [if_neg (by omega), run]
  rfl

theorem base64StringInt_bounded (bounded : s.length ≤ 2147483645) : RaisesOrEncodes s (base64StringInt s) := by
  rcases Nat.lt_or_ge 1610612733 s.length with large | small
  · rw [base64StringInt_neg large bounded]
    exact .raises _ _
  · rw [base64StringInt_small small]
    exact .encodes (base64EncodedSizeInt_eq small)

theorem base64StringInt_iff (fits : s.length ≤ 2147483647) : RaisesOrEncodes s (base64StringInt s) ↔ s.length ≤ 2147483645 := by
  constructor
  · intro right
    by_contra large
    have top := @base64EncodedSizeInt_top s.length (by omega) fits
    obtain ⟨y, run⟩ := base64StringInt_returns (s := s) (by omega)
    rw [run] at right
    cases right with
    | encodes size => exact base64EncodedSizeInt_ne (by omega) fits size
  · exact base64StringInt_bounded

/-- What an element has written is encoded in place. -/
theorem toBase64SecondInt_puts {second : Nat → Writer Stop Nat} {x : Bytes} {out : Nat} (small : x.length ≤ 1610612733)
    (puts : Puts out x x.length (second out)) :
    Puts out (text x) (base64EncodedSize x.length : Int) (toBase64SecondInt second out) := by
  intro w
  obtain ⟨w₁, run₁, slice, front₁⟩ := puts w
  obtain ⟨w₂, run₂, coded, outside⟩ := rbpgBase64Encode_fills x out w₁
  have stands : ∀ i < x.length, Stands x out i w₁ := by
    intro i inside
    have byte := Mem.slice_getD w₁.mem out inside 0
    rw [slice] at byte
    exact byte.symm
  have inPlace := (rbpgBase64Encode_source source_inPlace stands).trans run₂
  rw [← rbpgBase64EncodeInt_eq small] at inPlace
  refine ⟨w₂, ?_, coded, ?_⟩
  · unfold toBase64SecondInt
    rw [Method.bind_ok run₁, Method.bind_ok inPlace, base64EncodedSizeInt_eq small]
    rfl
  · intro j before
    rw [outside j (.inl before), front₁ j before]

variable {ι : Type} {elem : ElemCoder ι} {value : Value} {subint : Subint ι}

/-- The first call with a finished String. -/
theorem onePass_iff (first : elem.first value = .ok (.onePass s)) (fits : s.length ≤ 2147483647) :
    Right elem value (.onePass s) (pgTextEncToBase64Int elem value) ↔ RaisesOrEncodes s (base64StringInt s) := by
  have length : rbLong2int s.length = pure s.length := if_pos (by omega)
  have call : pgTextEncToBase64Int elem value = base64StringInt s >>= fun outStr => pure (.string outStr) := by
    unfold pgTextEncToBase64Int
    rw [first]
    show (rbLong2int s.length >>= fun _ => base64StringInt s >>= fun outStr => pure (IntAnswer.string outStr)) = _
    rw [length, pure_bind]
  rw [call]
  generalize base64StringInt s = outcome
  constructor
  · intro right
    cases outcome with
    | ok y =>
      cases right with
      | onePass _ size => exact .encodes size
    | error stop =>
      cases right with
      | raises _ cls msg => exact .raises cls msg
  · intro right
    cases right with
    | encodes size => exact .onePass s size
    | raises cls msg => exact .raises _ cls msg

theorem Right.size_eq {strlen : Nat} {subint : ι} {n : Int} {second : Nat → Writer Stop Int}
    (right : Right elem value (.twoPass strlen subint) (.ok (.size n second))) : 0 ≤ n ∧ n = base64EncodedSize strlen := by
  cases right with
  | twoPass _ _ _ _ nonneg size _ => exact ⟨nonneg, size⟩

/-- The first call with a size. -/
theorem twoPass_iff {strlen : Nat} {subint : ι} (first : elem.first value = .ok (.twoPass strlen subint))
    (fits : strlen ≤ 2147483647) :
    Right elem value (.twoPass strlen subint) (pgTextEncToBase64Int elem value) ↔ strlen ≤ 1610612733 := by
  have call : pgTextEncToBase64Int elem value =
      .ok (.size (base64EncodedSizeInt strlen) (toBase64SecondInt (elem.second value subint))) := by
    unfold pgTextEncToBase64Int
    rw [first]
    rfl
  rw [call]
  constructor
  · intro right
    by_contra large
    obtain ⟨nonneg, size⟩ := right.size_eq
    rcases Nat.lt_or_ge 2147483645 strlen with top | below
    · exact base64EncodedSizeInt_ne top fits size
    · have negative := base64EncodedSizeInt_neg (by omega) below
      omega
  · intro small
    have size : base64EncodedSizeInt strlen = (base64EncodedSize strlen : Nat) := base64EncodedSizeInt_eq small
    refine .twoPass strlen subint _ _ ?_ size ?_
    · rw [size]
      exact Int.natCast_nonneg _
    · intro x out inside puts
      exact toBase64SecondInt_puts (by omega) puts

/-- **The base64 size.** An encoder that takes a finished String, and the decoder, are right or raise for all but the
two longest strings. An encoder that takes a size is right for those whose true size fits an `int`. -/
theorem base64_sizes_iff {ι : Type} (elem : ElemCoder ι) {value : Value} {subint : Subint ι}
    (first : elem.first value = .ok subint) (fits : subint.strlen ≤ 2147483647) {s : Bytes} (short : s.length ≤ 2147483647) :
    (Right elem value subint (pgTextEncToBase64Int elem value) ↔ subint.Bounded) ∧
      (RaisesOrEncodes s (pgBinDecToBase64Int pure s) ↔ s.length ≤ 2147483645) := by
  constructor
  · cases subint with
    | onePass s =>
      rw [onePass_iff first fits]
      exact base64StringInt_iff fits
    | twoPass strlen subint => exact twoPass_iff first fits
  · have same : pgBinDecToBase64Int pure s = base64StringInt s := bind_pure _
    rw [same]
    exact base64StringInt_iff short

/-- An element encoder that asks for one byte more than it stores. -/
def generous : ElemCoder Bytes where
  first value :=
    match value with
    | .str s => .ok (.twoPass (s.length + 1) s)
    | _ => rbRaise .typeError "no String"
  second _ subint out := block subint out

/-- A million letters behind the announcement of one more, and as they are in the decoder. -/
theorem base64_sizes_million :
    Right generous (.str (List.replicate 1000000 0x41)) (.twoPass 1000001 (List.replicate 1000000 0x41))
        (pgTextEncToBase64Int generous (.str (List.replicate 1000000 0x41))) ∧
      RaisesOrEncodes (List.replicate 1000000 0x41) (pgBinDecToBase64Int pure (List.replicate 1000000 0x41)) := by
  have length : (List.replicate 1000000 (0x41 : UInt8)).length = 1000000 := List.length_replicate
  generalize List.replicate 1000000 (0x41 : UInt8) = s at length ⊢
  have first : generous.first (.str s) = .ok (.twoPass 1000001 s) := by
    show Except.ok (Subint.twoPass (s.length + 1) s) = _
    rw [length]
  have fits : (Subint.twoPass 1000001 s).strlen ≤ 2147483647 := by
    show 1000001 ≤ 2147483647
    decide
  have exactly := base64_sizes_iff generous first fits (s := s) (by omega)
  refine ⟨exactly.1.2 ?_, exactly.2.2 (by omega)⟩
  show 1000001 ≤ 1610612733
  decide

/-- Of `2 ** 31 - 2` bytes only the last ones are encoded, and for 1610612734 bytes the size is negative. -/
theorem base64_cut_off :
    ¬RaisesOrEncodes (List.replicate 2147483646 0x41) (pgBinDecToBase64Int pure (List.replicate 2147483646 0x41)) ∧
      base64EncodedSizeInt 1610612734 = -2147483648 := by
  constructor
  · have length : (List.replicate 2147483646 (0x41 : UInt8)).length = 2147483646 := List.length_replicate
    generalize List.replicate 2147483646 (0x41 : UInt8) = s at length ⊢
    have same : pgBinDecToBase64Int pure s = base64StringInt s := bind_pure _
    rw [same]
    intro right
    have bounded := (base64StringInt_iff (by omega)).1 right
    omega
  · decide

end Main

end RubyPg.TwoPass
