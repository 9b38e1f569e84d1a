import RubyPg.TwoPass.Contract

/-!
# Where the contract is broken

Every encoder of the shape `big` has a value for which the second call writes so many bytes
that they do not fit into the decoded size, so that `FromBase64` over it writes behind the
buffer it asked for. With `Enc.meets` this makes `Enc.Safe` the exact condition.
-/

namespace RubyPg.TwoPass
set_option autoImplicit false
open Ascii Writer

/-- What the C API does with small integers, with floats, and with a product by `10 ^ 0` that has
no fraction. -/
structure CApi.Plain (api : CApi) : Prop where
  num2int : ∀ i : Int, -2147483648 ≤ i → i < 2147483648 → api.num2int (.int i) = .ok i
  num2long : ∀ i : Int, -2147483648 ≤ i → i < 2147483648 → api.num2long (.int i) = .ok i
  num2ll : ∀ i : Int, -2147483648 ≤ i → i < 2147483648 → api.num2ll (.int i) = .ok i
  num2dbl : ∀ d, api.num2dbl (.float d) = .ok d
  scaled : ∀ mant : Fin (2 ^ 53), mant.val < 2 ^ 52 → api.scaled mant 1074 0 = mant.val

variable {api : CApi}

/-- For some value the size is `n`, and the second call returns `r` and writes the last of these
bytes. -/
def Produces (api : CApi) (e : Enc) (n r : Nat) : Prop :=
  ∃ value second, e.func api value = .ok (.size n second) ∧
    ∀ out, Ends (fun len w => len = r ∧ out + r - 1 ∈ w) (second out)

/-- The `r` bytes do not fit into the decoded size of `n` characters, and neither do they when both
are encoded, however often. -/
def Tight (n r : Nat) : Prop :=
  n = r ∧ base64DecodedSize n < n ∨ 3 * n + 24 ≤ 4 * r ∨ n = 23 ∧ r = 20 ∨ n = 32 ∧ r = 28

theorem Tight.overflows {n r : Nat} (tight : Tight n r) : base64DecodedSize n < r := by
  unfold Tight base64DecodedSize at *
  omega

theorem Tight.encoded {n r : Nat} (tight : Tight n r) : Tight (base64EncodedSize n) (base64EncodedSize r) := by
  unfold Tight base64DecodedSize base64EncodedSize at *
  omega

/-- `ToBase64` writes all of the encoded bytes. -/
theorem Produces.toBase64 {e : Enc} {n r : Nat} (produces : Produces api e n r) (positive : 0 < r) :
    Produces api (.toBase64 e) (base64EncodedSize n) (base64EncodedSize r) := by
  obtain ⟨value, second, first, ends⟩ := produces
  refine ⟨value, toBase64Second second, ?_, fun out => ?_⟩
  · show pgTextEncToBase64 (e.func api) value = _
    unfold pgTextEncToBase64
    rw [first]
    rfl
  · refine .bind (ends out) fun len w written => ?_
    obtain ⟨rfl, -⟩ := written
    refine .bind (rbpgBase64Encode_ends (readable_load out) out len) fun _ w' last => .pure ⟨rfl, ?_⟩
    simp [last positive]

/-- `FromBase64` lets the element write behind the buffer. -/
theorem Produces.overflow {e : Enc} {n r : Nat} (produces : Produces api e n r) (exceeds : base64DecodedSize n < r) :
    ¬(Enc.fromBase64 e).Respects api := by
  obtain ⟨value, second, first, ends⟩ := produces
  intro respects
  have answered : (Enc.fromBase64 e).func api value = .ok (.size (base64DecodedSize n) (fromBase64Second second)) := by
    show pgBinEncFromBase64 (e.func api) value = _
    unfold pgBinEncFromBase64
    rw [first]
    rfl
  have inside := (respects value _ answered 0 (fun _ => 0)).1
  have touched : Ends (fun _ w => 0 + r - 1 ∈ w) (fromBase64Second second 0) :=
    .bind (ends 0) fun len w written => (rbpgBase64Decode_ends (readable_load 0) 0 len).mono fun _ _ _ =>
      List.mem_append_right _ written.2
  obtain ⟨len, s, w, run, log, last⟩ := touched ⟨fun _ => 0, []⟩
  rw [run, log, List.append_nil] at inside
  have bound := (inside _ last).2
  omega

theorem fractionLoop_ends {out k ll len : Nat} (digits : ll % 10 ≠ 0 ∨ len ≠ 0) :
    Ends (fun r _ => r.2 = len + k) (fractionLoop out k ll len) := by
  induction k generalizing ll len with
  | zero => exact .pure rfl
  | succ k ih =>
    unfold fractionLoop
    rw [if_pos digits]
    exact .bind (.store _ _) fun _ _ _ => (ih (Or.inr (Nat.succ_ne_zero _))).mono fun _ _ h => by omega

/-- The exponent format with all its digits. -/
theorem exponentFormat_ends {ll out : Nat} {exp10i : Int} (digits : ll % 10 ≠ 0) :
    Ends (fun len w => len = 18 + integerLength exp10i ∧ out + (18 + integerLength exp10i) - 1 ∈ w)
      (exponentFormat ll exp10i out) := by
  have positive := integerLength_pos exp10i
  refine .bind (fractionLoop_ends (Or.inl digits)) fun r _ counted => ?_
  have some : r.2 ≠ 0 := by omega
  refine .bind (P := fun len _ => len = 16) ?_ fun len _ dotted => ?_
  · unfold storeDot
    rw [if_pos some]
    exact .bind (.store _ _) fun _ _ _ => .pure (by omega)
  · subst dotted
    refine .bind (.store _ _) fun _ _ _ => .bind (.store _ _) fun _ _ _ => ?_
    refine .bind (writeIntegerAt_ends exp10i (out + (16 + 2))) fun n w written => .pure ⟨by omega, ?_⟩
    have last := written.2 (out + (18 + integerLength exp10i) - 1) (by omega) (by omega)
    simp [last]

/-- The digits of a float that takes 20 characters, `1.234567890123457e15`. -/
def longDigits : Fin (2 ^ 53) := ⟨1234567890123457, by decide⟩

theorem floatDigits_longDigits (plain : api.Plain) : floatDigits api longDigits 1074 = (1234567890123457, 15) := by
  have exponent : exp10Of (frexpExp longDigits 1074) = 15 := by decide +kernel
  have digits : api.scaled longDigits 1074 (16 - 1 - 15) = 1234567890123457 := plain.scaled longDigits (by decide)
  unfold floatDigits
  simp only [exponent, digits]
  rfl

theorem textFloat_produces (plain : api.Plain) : Produces api .textFloat 23 20 := by
  refine ⟨.float (.finite false longDigits 1074), floatSecond api _, rfl, fun out => ?_⟩
  have length : integerLength 15 = 2 := by decide +kernel
  have written := @exponentFormat_ends 1234567890123457 out 15 (by decide)
  rw [length] at written
  have second : floatSecond api (.float (.finite false longDigits 1074)) out =
      exponentFormat 1234567890123457 15 out := by
    have read : (Method.ofExcept (api.num2dbl (.float (.finite false longDigits 1074))) : Writer Stop Double) =
        pure (.finite false longDigits 1074) := by
      rw [plain.num2dbl]
      rfl
    unfold floatSecond
    rw [read]
    show writeFloatAt api longDigits 1074 out = _
    unfold writeFloatAt
    rw [floatDigits_longDigits plain]
    rfl
  rw [second]
  exact written

/-- Arrays of one array each, with an empty one inside. -/
def nested : Nat → List Value
  | 0 => []
  | k + 1 => [.ary (nested k)]

/-- Its dimensions. -/
def nestedSizes : Nat → List Nat
  | 0 => [0]
  | k + 1 => 1 :: nestedSizes k

theorem dimSizes_nested {d k room ndim : Nat} (deep : ndim + k = d) (fits : k ≤ room) :
    dimSizes (some d) room ndim (nested k) = .ok (nestedSizes k) := by
  induction k generalizing room ndim with
  | zero =>
    unfold dimSizes
    rfl
  | succ k ih =>
    obtain ⟨room, rfl⟩ : ∃ r, room = r + 1 := Nat.exists_eq_add_of_le' (by omega)
    have next : nextDim (some d) ndim (nested (k + 1)) = some (nested k) := by
      show (if ndim < d then some (nested k) else none) = _
      rw [if_pos (by omega)]
    have rest := @ih room (ndim + 1) (by omega) (by omega)
    unfold dimSizes
    rw [next]
    simp only [rest, bind, Except.bind]
    rfl

theorem firstSubs_one {check : Value → Outcome Unit} {walk : Value → Outcome (Nat × List Answer)} {sub : Value}
    (checked : check sub = .ok ()) (walked : walk sub = .ok (0, [])) : firstSubs check walk [sub] = .ok (0, []) := by
  simp only [firstSubs, checked, walked, bind, Except.bind]
  rfl

/-- Nothing is inside. -/
theorem nested_walk {elem : EncFunc} (dim k : Nat) :
    firstWalk api elem dim (nestedSizes k) (.ary (nested k)) = .ok (0, []) ∧
      leaves (nestedSizes k) (.ary (nested k)) = [] := by
  induction k generalizing dim with
  | zero => exact ⟨rfl, rfl⟩
  | succ k ih =>
    obtain ⟨walked, none⟩ := ih (dim + 1)
    cases k with
    | zero => exact ⟨firstSubs_one rfl walked, rfl⟩
    | succ k => exact ⟨firstSubs_one rfl walked, (List.append_nil _).trans none⟩

theorem length_nestedSizes (k : Nat) : (nestedSizes k).length = k + 1 := by
  induction k with
  | zero => rfl
  | succ k ih => rw [nestedSizes, List.length_cons, ih]

theorem arrayDims_nested {k : Nat} (small : k + 2 ≤ 6) :
    arrayDims (some (k + 2)) (nested (k + 1)) = .ok (nestedSizes (k + 1)) := by
  have found : foundDims (some (k + 2)) (nested (k + 1)) = .ok (nestedSizes (k + 1)) :=
    (if_neg (List.cons_ne_nil _ _)).trans (dimSizes_nested (by omega) (by omega))
  have length := length_nestedSizes (k + 1)
  have expected : (if (nestedSizes (k + 1)).length = 0 then 1 else (nestedSizes (k + 1)).length) = k + 2 := by
    rw [length, if_neg (Nat.succ_ne_zero _)]
  simp only [arrayDims, found, bind, Except.bind, checkDims, expected, ne_eq, not_true_eq_false, if_false]
  rfl

/-- An array encoder that takes arrays takes one without items. -/
theorem arrayDims_empty {dimensions : Option Nat} (takes : refusesArrays dimensions = false) :
    ∃ xs sizes, arrayDims dimensions xs = .ok sizes ∧
      (∀ elem, firstWalk api elem 0 sizes (.ary xs) = .ok (0, [])) ∧ leaves sizes (.ary xs) = [] := by
  match dimensions with
  | none => exact ⟨[], [], rfl, fun _ => rfl, rfl⟩
  | some 0 => cases takes
  | some 1 => exact ⟨[], [], rfl, fun _ => rfl, rfl⟩
  | some (k + 2) =>
    have small : k + 2 ≤ 6 := by
      simp only [refusesArrays, Bool.or_eq_false_iff, decide_eq_false_iff_not] at takes
      omega
    exact ⟨nested (k + 1), nestedSizes (k + 1), arrayDims_nested small, fun _ => (nested_walk 0 (k + 1)).1,
      (@nested_walk api (fun _ => .ok (.string [])) 0 (k + 1)).2⟩

theorem array_produces {dimensions : Option Nat} (takes : refusesArrays dimensions = false) (oid : Nat) (elem : Enc) :
    ∃ n, Tight n n ∧ Produces api (.array dimensions oid elem) n n := by
  obtain ⟨xs, sizes, dims, walked, items⟩ := @arrayDims_empty api dimensions takes
  have length := length_arrayHeader oid sizes
  refine ⟨12 + sizes.length * 8 + 0, Or.inl ⟨rfl, by unfold base64DecodedSize; omega⟩, .ary xs,
    arraySecond oid sizes (leaves sizes (.ary xs)) [], ?_, fun out => ?_⟩
  · show pgBinEncArray api (elem.func api) dimensions oid (.ary xs) = _
    simp only [pgBinEncArray, dims, walked, bind, Except.bind]
    rfl
  · rw [items]
    refine .bind (.storeAll out _) fun _ w all => .bind (P := fun stop _ => stop = out + (12 + 8 * sizes.length))
      (.pure rfl) fun stop w' stopped => .pure ⟨by omega, ?_⟩
    rw [length] at all
    have last := all (out + (12 + sizes.length * 8 + 0) - 1) (by omega) (by omega)
    exact List.mem_append_right _ last

/-- A block whose bytes are all written. -/
theorem Produces.of_ends {e : Enc} {n : Nat} {value : Value} {second : Nat → Writer Stop Nat} (positive : 0 < n)
    (first : e.func api value = .ok (.size n second))
    (ends : ∀ out, Ends (fun len w => len = n ∧ ∀ j, out ≤ j → j < out + n → j ∈ w) (second out)) :
    Produces api e n n :=
  ⟨value, second, first, fun out => (ends out).mono fun _ _ h => ⟨h.1, h.2 _ (by omega) (by omega)⟩⟩

theorem textInteger_ends (out : Nat) :
    Ends (fun len w => len = 4 ∧ ∀ j, out ≤ j → j < out + 4 → j ∈ w) (writeIntegerAt 1000 out) := by
  have length : integerLength 1000 = 4 := by decide +kernel
  have ends := writeIntegerAt_ends 1000 out
  rwa [length] at ends

theorem boolean_produces : Produces api .boolean 1 1 :=
  @Produces.of_ends api .boolean 1 .true _ (by decide) rfl (block_ends [1])

/-- An integer of which both bytes are characters of base64, `AA`. -/
theorem int2_second (plain : api.Plain) : nboSecond 2 (api.num2int (.int 0x4141)) = block [0x41, 0x41] := by
  rw [plain.num2int 0x4141 (by decide) (by decide)]
  rfl

theorem int2_produces (plain : api.Plain) : Produces api .int2 2 2 :=
  @Produces.of_ends api .int2 2 (.int 0x4141) _ (by decide) rfl fun out => by
    rw [int2_second plain]
    exact block_ends [0x41, 0x41] out

theorem nextSextet_valid {src : Nat → Writer Stop UInt8} {len p : Nat} {c : UInt8} {s : Buf} (inside : p < len)
    (read : src p s = (.ok c, s)) (valid : base64DecodeTable c ≠ 0xff) :
    nextSextet src len p s = (.ok (base64DecodeTable c, p + 1), s) := by
  obtain ⟨fuel, enough⟩ : ∃ fuel, len - p = fuel + 1 := Nat.exists_eq_add_of_le' (by omega)
  unfold nextSextet
  rw [if_pos inside, enough]
  unfold scanSextet
  rw [Method.bind_ok read, if_neg fun skipped => valid skipped.1]
  rfl

/-- Two characters give one byte. -/
theorem decode_two {s : Buf} {out : Nat} (first : s.mem out = 0x41) (last : s.mem (out + 1) = 0x41) :
    rbpgBase64Decode (fun i => load (out + i)) out 2 s = (.ok 1, ⟨s.mem.put out 0, out :: s.log⟩) := by
  have a : nextSextet (fun i => load (out + i)) 2 0 s = (.ok (0, 1), s) :=
    nextSextet_valid (c := 0x41) (by decide) (by rw [← first]; rfl) (by decide)
  have b : nextSextet (fun i => load (out + i)) 2 1 s = (.ok (0, 2), s) :=
    nextSextet_valid (c := 0x41) (by decide) (by rw [← last]; rfl) (by decide)
  have loop : decodeLoop (fun i => load (out + i)) 2 3 0 out s = (.ok (out + 1), ⟨s.mem.put out 0, out :: s.log⟩) := by
    unfold decodeLoop
    rw [Method.bind_ok (show fourSextets (fun i => load (out + i)) 2 0 s = (.ok none, s) from rfl)]
    dsimp only
    rw [if_pos (by decide), Method.bind_ok a, Method.bind_ok b]
    rfl
  unfold rbpgBase64Decode
  rw [Method.bind_ok loop]
  show (Except.ok (out + 1 - out), _) = _
  rw [Nat.add_sub_cancel_left]

theorem fromBase64_int2_produces (plain : api.Plain) : Produces api (.fromBase64 .int2) 3 1 := by
  refine ⟨.int 0x4141, fromBase64Second (nboSecond 2 (api.num2int (.int 0x4141))), rfl, fun out s => ?_⟩
  rw [int2_second plain]
  refine ⟨1, ⟨((s.mem.put out 0x41).put (out + 1) 0x41).put out 0, out :: (out + 1) :: out :: s.log⟩,
    [out, out + 1, out], ?_, rfl, rfl, by simp⟩
  exact decode_two (s := ⟨(s.mem.put out 0x41).put (out + 1) 0x41, (out + 1) :: out :: s.log⟩)
    ((Mem.put_other _ _ (by omega)).trans (Mem.put_same _ _ _)) (Mem.put_same _ _ _)

/-- The encoders of the three small shapes. -/
theorem Enc.of_small_shape (e : Enc) :
    (e.shape = .one → e = .boolean) ∧ (e.shape = .two → e = .int2) ∧ (e.shape = .three → e = .fromBase64 .int2) := by
  induction e with
  | boolean => exact ⟨fun _ => rfl, fun two => (by cases two), fun three => by cases three⟩
  | int2 => exact ⟨fun one => (by cases one), fun _ => rfl, fun three => by cases three⟩
  | array dimensions oid elem =>
    unfold Enc.shape
    split <;> exact ⟨fun one => (by cases one), fun two => (by cases two), fun three => by cases three⟩
  | toBase64 elem =>
    unfold Enc.shape
    cases elem.shape <;> exact ⟨fun one => (by cases one), fun two => (by cases two), fun three => by cases three⟩
  | fromBase64 elem ih =>
    unfold Enc.shape
    cases inner : elem.shape with
    | two => exact ⟨fun one => (by cases one), fun two => (by cases two), fun _ => by rw [ih.2.1 inner]⟩
    | _ => exact ⟨fun one => (by cases one), fun two => (by cases two), fun three => by cases three⟩
  | _ => exact ⟨fun one => (by cases one), fun two => (by cases two), fun three => by cases three⟩

/-- Every safe encoder of the shape `big` has a value that overflows a `FromBase64` above it. -/
theorem Enc.produces (plain : api.Plain) {e : Enc} (safe : e.Safe) (big : e.shape = .big) :
    ∃ n r, Tight n r ∧ Produces api e n r := by
  have four : Tight 4 4 := Or.inl ⟨rfl, by decide⟩
  have eight : Tight 8 8 := Or.inl ⟨rfl, by decide⟩
  induction e with
  | onePass encode => cases big
  | boolean => cases big
  | int2 => cases big
  | textBoolean =>
    refine ⟨4, 4, four, @Produces.of_ends api .textBoolean 4 (.int 1000) _ (by decide) ?_ textInteger_ends⟩
    show pgTextEncBoolean api (.int 1000) = _
    simp only [pgTextEncBoolean, plain.num2long 1000 (by decide) (by decide), bind, Except.bind]
    rfl
  | textInteger => exact ⟨4, 4, four, @Produces.of_ends api .textInteger 4 (.int 1000) _ (by decide) rfl textInteger_ends⟩
  | textFloat => exact ⟨23, 20, Or.inr (Or.inr (Or.inl ⟨rfl, rfl⟩)), textFloat_produces plain⟩
  | textNumeric => exact ⟨4, 4, four, @Produces.of_ends api .textNumeric 4 (.int 1000) _ (by decide) rfl textInteger_ends⟩
  | textBytea =>
    exact ⟨4, 4, four, @Produces.of_ends api .textBytea 4 (.str [0x41]) _ (by decide) rfl (block_ends (hexText [0x41]))⟩
  | int4 =>
    exact ⟨4, 4, four, @Produces.of_ends api .int4 4 (.int 0) _ (by decide) rfl
      (nboSecond_ends (plain.num2long 0 (by decide) (by decide)))⟩
  | int8 =>
    exact ⟨8, 8, eight, @Produces.of_ends api .int8 8 (.int 0) _ (by decide) rfl
      (nboSecond_ends (plain.num2ll 0 (by decide) (by decide)))⟩
  | float4 =>
    exact ⟨4, 4, four, @Produces.of_ends api .float4 4 (.float .nan) _ (by decide) rfl
      (nboSecond_ends (congrArg (Except.map api.floatBits) (plain.num2dbl .nan)))⟩
  | float8 =>
    exact ⟨8, 8, eight, @Produces.of_ends api .float8 8 (.float .nan) _ (by decide) rfl
      (nboSecond_ends (congrArg (Except.map api.doubleBits) (plain.num2dbl .nan)))⟩
  | timestamp flags =>
    exact ⟨8, 8, eight, @Produces.of_ends api (.timestamp flags) 8 (.str [0x69]) _ (by decide) rfl
      (nboSecond_ends rfl)⟩
  | date => exact ⟨4, 4, four, @Produces.of_ends api .date 4 (.str [0x69]) _ (by decide) rfl (nboSecond_ends rfl)⟩
  | array dimensions oid elem =>
    simp only [Enc.shape] at big
    split at big
    · cases big
    · rename_i takes
      obtain ⟨n, tight, produces⟩ := @array_produces api dimensions (by simpa using takes) oid elem
      exact ⟨n, n, tight, produces⟩
  | toBase64 elem ih =>
    simp only [Enc.shape] at big
    cases inner : elem.shape with
    | finished =>
      rw [inner] at big
      cases big
    | mute =>
      rw [inner] at big
      cases big
    | one =>
      rw [elem.of_small_shape.1 inner]
      exact ⟨4, 4, four, boolean_produces.toBase64 (by decide)⟩
    | two =>
      rw [elem.of_small_shape.2.1 inner]
      exact ⟨4, 4, four, (int2_produces plain).toBase64 (by decide)⟩
    | three =>
      rw [elem.of_small_shape.2.2 inner]
      exact ⟨4, 4, four, (fromBase64_int2_produces plain).toBase64 (by decide)⟩
    | big =>
      obtain ⟨n, r, tight, produces⟩ := ih safe inner
      exact ⟨_, _, tight.encoded, produces.toBase64 (Nat.lt_of_le_of_lt (Nat.zero_le _) tight.overflows)⟩
  | fromBase64 elem =>
    simp only [Enc.shape] at big
    cases inner : elem.shape with
    | big => exact absurd inner safe.2
    | _ =>
      rw [inner] at big
      cases big

/-- The encoder and all encoders nested in it keep the contract. -/
def Enc.AllRespect (api : CApi) (e : Enc) : Prop := ∀ part ∈ e.parts, part.Respects api

theorem Enc.Safe.part {e part : Enc} (safe : e.Safe) (member : part ∈ e.parts) : part.Safe := by
  induction e with
  | array dimensions oid elem ih =>
    rcases List.mem_cons.1 member with rfl | inner
    · exact safe
    · exact ih safe inner
  | toBase64 elem ih =>
    rcases List.mem_cons.1 member with rfl | inner
    · exact safe
    · exact ih safe inner
  | fromBase64 elem ih =>
    rcases List.mem_cons.1 member with rfl | inner
    · exact safe
    · exact ih safe.1 inner
  | _ =>
    rw [List.mem_singleton.1 member]
    exact safe

theorem Enc.Safe.respects {e : Enc} (safe : e.Safe) : e.Respects api := fun _ _ first =>
  (Enc.meets safe first).keeps.contract

theorem Enc.AllRespect.safe (plain : api.Plain) {e : Enc} (all : e.AllRespect api) : e.Safe := by
  induction e with
  | array dimensions oid elem ih => exact ih fun part member => all part (List.mem_cons_of_mem _ member)
  | toBase64 elem ih => exact ih fun part member => all part (List.mem_cons_of_mem _ member)
  | fromBase64 elem ih =>
    have inner : elem.Safe := ih fun part member => all part (List.mem_cons_of_mem _ member)
    refine ⟨inner, fun big => ?_⟩
    obtain ⟨n, r, tight, produces⟩ := Enc.produces plain inner big
    exact produces.overflow tight.overflows (all _ List.mem_cons_self)
  | _ => trivial

/-- **The two-pass contract.** An encoder and all encoders nested in it keep it for all values exactly
when no `FromBase64` stands over an element whose bytes do not fit into their decoded size. -/
theorem two_pass_contract_iff (plain : api.Plain) (e : Enc) : e.AllRespect api ↔ e.Safe :=
  ⟨fun all => all.safe plain, fun safe _ member => (safe.part member).respects⟩

/-- Integers that fit are converted, other objects are not. -/
def CApi.sampleNum2 (bits : Nat) : Value → Outcome Int
  | .int i => if -(2 ^ bits) ≤ 2 * i ∧ 2 * i < 2 ^ bits then .ok i else rbRaise .rangeError "integer out of range"
  | _ => rbRaise .typeError "no implicit conversion into Integer"

/-- A C API with exact products, for concrete runs. -/
def CApi.sample : CApi where
  toRuntime := Runtime.sample
  num2int := sampleNum2 32
  num2long := sampleNum2 64
  num2ll := sampleNum2 64
  num2dbl
    | .float d => .ok d
    | _ => rbRaise .typeError "no implicit conversion into Float"
  floatBits _ := 0
  doubleBits _ := 0
  scaled mant exp n :=
    let num := mant.val * 2 ^ (exp.val - 1074) * 10 ^ n.toNat
    let den := 2 ^ (1074 - exp.val) * 10 ^ (-n).toNat
    (2 * num + den) / (2 * den)
  timespec
    | .time sec nsec _ => .ok (sec, nsec)
    | _ => rbRaise .typeError "can't convert into an exact time"
  getlocal
    | .time sec nsec utcOffset => .ok (sec, nsec, utcOffset)
    | _ => rbRaise .noMethodError "undefined method 'getlocal'"
  gregorian
    | .date year month day => .ok (.int year, .int month, .int day)
    | _ => rbRaise .noMethodError "undefined method 'gregorian?'"
  numericText _ := []
  inspect _ := ""

theorem CApi.sampleNum2_int {bits : Nat} (wide : 32 ≤ bits) {i : Int} (low : -2147483648 ≤ i) (high : i < 2147483648) :
    sampleNum2 bits (.int i) = .ok i := by
  have size : (2 : Int) ^ 32 ≤ 2 ^ bits := by
    exact_mod_cast Nat.pow_le_pow_right (by decide) wide
  show (if -(2 ^ bits) ≤ 2 * i ∧ 2 * i < 2 ^ bits then Except.ok i else _) = _
  rw [if_pos ⟨by omega, by omega⟩]

theorem CApi.sampleNum2_converts (bits : Nat) : Converts (2 ^ bits) (sampleNum2 (bits + 1)) where
  fits i low high := by
    have inside : -(2 ^ (bits + 1)) ≤ 2 * i ∧ 2 * i < 2 ^ (bits + 1) := by
      rw [pow_succ]
      omega
    exact if_pos inside
  raises i outside := by
    refine ⟨"integer out of range", if_neg fun inside => outside ?_⟩
    rw [pow_succ] at inside
    omega

theorem CApi.sample_plain : CApi.sample.Plain where
  num2int _ low high := sampleNum2_int (by decide) low high
  num2long _ low high := sampleNum2_int (by decide) low high
  num2ll _ low high := sampleNum2_int (by decide) low high
  num2dbl _ := rfl
  scaled mant _ := by
    have exponent : (1074 : Fin 2046).val = 1074 := by decide +kernel
    simp only [CApi.sample, exponent, Nat.sub_self, Int.toNat_zero, Int.neg_zero, Nat.pow_zero, Nat.mul_one]
    omega

/-- An array of base64 texts of integers keeps the contract, with all its parts. -/
theorem two_pass_contract_array : (Enc.array none 25 (.toBase64 .int4)).AllRespect CApi.sample :=
  (two_pass_contract_iff CApi.sample_plain _).2 trivial

/-- `FromBase64` over `Int4` asks for three bytes, and then four are written. -/
theorem two_pass_contract_from_base64_int4 :
    ¬(Enc.fromBase64 .int4).Respects CApi.sample ∧
      ∃ second, (Enc.fromBase64 .int4).func CApi.sample (.int 1) = .ok (.size 3 second) ∧
        3 ∈ (second 0 ⟨fun _ => 0, []⟩).2.log := by
  have answered : (Enc.fromBase64 .int4).func CApi.sample (.int 1) =
      .ok (.size 3 (fromBase64Second (nboSecond 4 (.ok 1)))) := rfl
  have written : 3 ∈ (fromBase64Second (nboSecond 4 (.ok 1)) 0 ⟨fun _ => 0, []⟩).2.log := by decide +kernel
  refine ⟨fun respects => ?_, _, answered, written⟩
  have inside := (respects _ _ answered 0 fun _ => 0).1 3 written
  exact absurd inside.2 (by decide)

end RubyPg.TwoPass
