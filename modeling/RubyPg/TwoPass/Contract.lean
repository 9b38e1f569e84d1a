import RubyPg.TwoPass.Simple
import RubyPg.TwoPass.Composite

/-!
# The two-pass contract

The contract that the head of `ext/pg_text_encoder.c` states: the second call needs no more
memory than the first call asked for. Arrays and `ToBase64` hand it on from their elements.
`FromBase64` does not: its element writes its own bytes, before they are decoded, into a buffer
that is only as large as the decoded bytes. So it depends on the element (`Shape`) whether
`FromBase64` over it keeps the contract.
-/

namespace RubyPg.TwoPass
set_option autoImplicit false
open Ascii Writer

variable {api : CApi}

/-- Every index that the second call writes is one of `out[0..n-1]`, whether it returns or raises,
and what it returns is at most `n`. -/
def Answer.Contract : Answer → Prop
  | .size n second => ∀ out mem,
      (∀ i ∈ (second out ⟨mem, []⟩).2.log, out ≤ i ∧ i < out + n) ∧
        ∀ len, (second out ⟨mem, []⟩).1 = .ok len → len ≤ n
  | .string _ => True

/-- The encoder keeps the contract for all values it accepts. -/
def Enc.Respects (api : CApi) (e : Enc) : Prop := ∀ value answer, e.func api value = .ok answer → answer.Contract

/-- The encoder and all encoders nested in it. -/
def Enc.parts : Enc → List Enc
  | .array dimensions oid elem => .array dimensions oid elem :: elem.parts
  | .toBase64 elem => .toBase64 elem :: elem.parts
  | .fromBase64 elem => .fromBase64 elem :: elem.parts
  | e => [e]

theorem Answer.Keeps.contract {answer : Answer} (keeps : answer.Keeps) : answer.Contract := by
  cases answer with
  | string s => trivial
  | size n second =>
    intro out mem
    obtain ⟨w, log, inside, returns⟩ := keeps out ⟨mem, []⟩
    rw [List.append_nil] at log
    exact ⟨log ▸ inside, returns⟩

section Arrays

/-- The items of a walk with their answers, and the size they add up to. -/
inductive Fits : List Value → List Answer → Nat → Prop where
  | none : Fits [] [] 0
  | null {items : List Value} {answers : List Answer} {n : Nat} : Fits items answers n →
      Fits (.nil :: items) answers (4 + n)
  | item {item : Value} {items : List Value} {answer : Answer} {answers : List Answer} {n : Nat} :
      item ≠ .nil → answer.Keeps → Fits items answers n →
      Fits (item :: items) (answer :: answers) (4 + answer.length + n)

theorem Fits.append {items items' : List Value} {answers answers' : List Answer} {n n' : Nat}
    (first : Fits items answers n) (rest : Fits items' answers' n') :
    Fits (items ++ items') (answers ++ answers') (n + n') := by
  induction first with
  | none => simpa using rest
  | null _ ih =>
    rw [Nat.add_assoc]
    exact .null ih
  | item given keeps _ ih =>
    rw [Nat.add_assoc]
    exact .item given keeps ih

variable {elem : EncFunc} (keeps : ∀ value answer, elem value = .ok answer → answer.Keeps)

include keeps in
theorem firstLeaves_fits {items : List Value} {size : Nat} {answers : List Answer}
    (first : firstLeaves elem items = .ok (size, answers)) : Fits items answers size := by
  induction items generalizing size answers with
  | nil =>
    cases first
    exact .none
  | cons item items ih =>
    unfold firstLeaves at first
    split at first
    · rename_i heq
      cases heq
    · rename_i heq
      cases heq
      obtain ⟨⟨size, answers⟩, rest, first⟩ := Outcome.of_bind first
      cases first
      exact .null (ih rest)
    · rename_i given heq
      cases heq
      obtain ⟨answer, one, first⟩ := Outcome.of_bind first
      obtain ⟨⟨size, answers⟩, rest, first⟩ := Outcome.of_bind first
      cases first
      exact .item given (keeps _ _ one) (ih rest)

theorem firstSubs_fits {check : Value → Outcome Unit} {walk : Value → Outcome (Nat × List Answer)}
    {inner : Value → List Value} (one : ∀ sub size answers, walk sub = .ok (size, answers) → Fits (inner sub) answers size)
    {subs : List Value} {size : Nat} {answers : List Answer} (first : firstSubs check walk subs = .ok (size, answers)) :
    Fits (subs.flatMap inner) answers size := by
  induction subs generalizing size answers with
  | nil =>
    cases first
    exact .none
  | cons sub subs ih =>
    obtain ⟨_, -, first⟩ := Outcome.of_bind first
    obtain ⟨⟨size, answers⟩, walked, first⟩ := Outcome.of_bind first
    obtain ⟨⟨size', answers'⟩, rest, first⟩ := Outcome.of_bind first
    cases first
    rw [List.flatMap_cons]
    exact (one sub _ _ walked).append (ih rest)

include keeps in
/-- The first walk gathers the answers in the order in which the second call uses them. -/
theorem firstWalk_fits {dim : Nat} {sizes : List Nat} {array : Value} {size : Nat} {answers : List Answer}
    (first : firstWalk api elem dim sizes array = .ok (size, answers)) : Fits (leaves sizes array) answers size := by
  induction sizes generalizing dim array size answers with
  | nil =>
    cases first
    exact .none
  | cons s rest ih =>
    cases rest with
    | nil => exact firstLeaves_fits keeps first
    | cons next rest => exact firstSubs_fits (fun sub size answers walked => ih walked) first

theorem Answer.Keeps.write {answer : Answer} (kept : answer.Keeps) (out : Nat) :
    Writes out (out + answer.length) (fun len => len ≤ answer.length) (answer.write out) := by
  cases answer with
  | string s => exact block_bounded s out
  | size n second => exact kept out

/-- The loop over the items keeps to the sum of their sizes. -/
theorem Fits.writeItems {items : List Value} {answers : List Answer} {n : Nat} (fits : Fits items answers n)
    (out : Nat) : Writes out (out + n) (fun stop => out ≤ stop ∧ stop ≤ out + n) (writeItems items answers out) := by
  induction fits generalizing out with
  | none => exact .pure ⟨Nat.le_refl _, Nat.le_refl _⟩
  | null _ ih =>
    unfold TwoPass.writeItems
    refine .bind (.storeAll (Nat.le_refl _) (by rw [length_writeNbo]; omega)) fun _ _ => ?_
    exact (ih (out + 4)).mono (by omega) (by omega) fun _ h => by omega
  | @item item items answer answers n given kept _ ih =>
    have step : ∀ stored : Writer Stop Nat, stored = (do
        let strlen ← answer.write (out + 4)
        storeAll out (writeNbo 4 strlen)
        TwoPass.writeItems items answers (out + 4 + strlen)) →
        Writes out (out + (4 + answer.length + n)) (fun stop => out ≤ stop ∧ stop ≤ out + (4 + answer.length + n))
          stored := by
      rintro _ rfl
      refine .bind ((kept.write (out + 4)).mono (by omega) (by omega) fun _ h => h) fun strlen short => ?_
      refine .bind (.storeAll (Nat.le_refl _) (by rw [length_writeNbo]; omega)) fun _ _ => ?_
      exact (ih (out + 4 + strlen)).mono (by omega) (by omega) fun _ h => by omega
    cases item with
    | nil => exact absurd rfl given
    | _ => exact step _ rfl

theorem length_arrayHeader (oid : Nat) (sizes : List Nat) : (arrayHeader oid sizes).length = 12 + 8 * sizes.length := by
  have dims : (sizes.flatMap fun size : Nat => writeNbo 4 size ++ writeNbo 4 1).length = 8 * sizes.length := by
    induction sizes with
    | nil => rfl
    | cons s sizes ih =>
      rw [List.flatMap_cons, List.length_append, ih, List.length_append, length_writeNbo, length_writeNbo,
        List.length_cons]
      omega
  simp only [arrayHeader, List.length_append, length_writeNbo, dims]

include keeps in
theorem pgBinEncArray_keeps {dimensions : Option Nat} {oid : Nat} {value : Value} {answer : Answer}
    (first : pgBinEncArray api elem dimensions oid value = .ok answer) : answer.Keeps := by
  unfold pgBinEncArray at first
  split at first
  · rename_i xs
    obtain ⟨sizes, dims, first⟩ := Outcome.of_bind first
    obtain ⟨⟨size, answers⟩, walked, first⟩ := Outcome.of_bind first
    cases first
    intro out
    have fits := firstWalk_fits keeps walked
    refine .bind (.storeAll (Nat.le_refl _) (by rw [length_arrayHeader]; omega)) fun _ _ => ?_
    refine .bind ((fits.writeItems _).mono (by omega) (by omega) fun _ h => h) fun stop inside => .pure ?_
    omega
  · cases first
    trivial

end Arrays

section Base64

variable {w r : Nat} {second : Nat → Writer Stop Nat}

theorem Bounded.toBase64 (h : Bounded w r second) :
    Bounded (max w (base64EncodedSize r)) (base64EncodedSize r) (toBase64Second second) := by
  intro out
  refine .bind ((h out).mono (Nat.le_refl _) (by omega) fun _ le => le) fun strlen short => ?_
  have smaller : base64EncodedSize strlen ≤ base64EncodedSize r := by
    unfold base64EncodedSize
    omega
  exact .bind (rbpgBase64Encode_writes (reads_load out) (Nat.le_refl _) (by omega)) fun _ _ => .pure smaller

theorem Bounded.fromBase64 (h : Bounded w r second) :
    Bounded (max w (3 * r / 4)) (3 * r / 4) (fromBase64Second second) := by
  intro out
  refine .bind ((h out).mono (Nat.le_refl _) (by omega) fun _ le => le) fun strlen short => ?_
  exact (rbpgBase64Decode_writes (reads_load out)).mono (Nat.le_refl _) (by omega) fun _ le => by omega

end Base64

/-- What the answers of an encoder look like: always Strings; one byte; two bytes; three bytes of
which two are written and one is used; some bytes of which two are written and none is used; or
any other. -/
inductive Shape where
  | finished | one | two | three | mute | big
deriving DecidableEq, Repr

namespace Shape

/-- The shape of `FromBase64` over an element. -/
def decoded : Shape → Shape
  | .finished => .finished
  | .one => .mute
  | .two => .three
  | .three => .mute
  | .mute => .mute
  | .big => .big

/-- The shape of `ToBase64` over an element. -/
def encoded : Shape → Shape
  | .finished => .finished
  | .mute => .mute
  | _ => .big

/-- The answer is of this shape. -/
def Meets (shape : Shape) : Answer → Prop
  | .string _ => True
  | .size n second =>
    match shape with
    | .finished => False
    | .one => n = 1 ∧ Bounded 1 1 second
    | .two => n = 2 ∧ Bounded 2 2 second
    | .three => n = 3 ∧ Bounded 2 1 second
    | .mute => 3 ≤ n ∧ Bounded 2 0 second
    | .big => Bounded n n second

theorem Meets.keeps {shape : Shape} {answer : Answer} (meets : shape.Meets answer) : answer.Keeps := by
  cases answer with
  | string s => trivial
  | size n second =>
    cases shape with
    | finished => cases meets
    | one =>
      obtain ⟨rfl, bounded⟩ := meets
      exact bounded
    | two =>
      obtain ⟨rfl, bounded⟩ := meets
      exact bounded
    | three =>
      obtain ⟨rfl, bounded⟩ := meets
      exact bounded.mono (by decide) (by decide)
    | mute =>
      obtain ⟨long, bounded⟩ := meets
      exact bounded.mono (by omega) (by omega)
    | big => exact meets

end Shape

/-- An array encoder with this number of dimensions takes no array at all. -/
def refusesArrays : Option Nat → Bool
  | none => false
  | some d => d == 0 || decide (6 < d)

/-- The shape of the answers of an encoder. -/
def Enc.shape : Enc → Shape
  | .onePass _ => .finished
  | .boolean => .one
  | .int2 => .two
  | .array dimensions _ _ => if refusesArrays dimensions then .finished else .big
  | .toBase64 elem => elem.shape.encoded
  | .fromBase64 elem => elem.shape.decoded
  | _ => .big

/-- No `FromBase64` stands over an encoder that may write more than a handful of bytes. -/
def Enc.Safe : Enc → Prop
  | .array _ _ elem => elem.Safe
  | .toBase64 elem => elem.Safe
  | .fromBase64 elem => elem.Safe ∧ elem.shape ≠ .big
  | _ => True

theorem Shape.Meets.toBase64 {shape : Shape} {n : Nat} {second : Nat → Writer Stop Nat}
    (meets : shape.Meets (.size n second)) :
    shape.encoded.Meets (.size (base64EncodedSize n) (toBase64Second second)) := by
  have size : n ≤ base64EncodedSize n := by
    unfold base64EncodedSize
    omega
  have big : Bounded (base64EncodedSize n) (base64EncodedSize n) (toBase64Second second) :=
    (Bounded.toBase64 meets.keeps).mono (by omega) (Nat.le_refl _)
  cases shape with
  | finished => cases meets
  | one => exact big
  | two => exact big
  | three => exact big
  | mute => exact ⟨Nat.le_trans meets.1 size, meets.2.toBase64⟩
  | big => exact big

theorem Shape.Meets.fromBase64 {shape : Shape} {n : Nat} {second : Nat → Writer Stop Nat}
    (meets : shape.Meets (.size n second)) (small : shape ≠ .big) :
    shape.decoded.Meets (.size (base64DecodedSize n) (fromBase64Second second)) := by
  cases shape with
  | finished => cases meets
  | one =>
    obtain ⟨rfl, bounded⟩ := meets
    exact ⟨by decide, bounded.fromBase64.mono (by decide) (by decide)⟩
  | two =>
    obtain ⟨rfl, bounded⟩ := meets
    exact ⟨by decide, bounded.fromBase64.mono (by decide) (by decide)⟩
  | three =>
    obtain ⟨rfl, bounded⟩ := meets
    exact ⟨by decide, bounded.fromBase64.mono (by decide) (by decide)⟩
  | mute =>
    obtain ⟨long, bounded⟩ := meets
    refine ⟨?_, bounded.fromBase64.mono (by decide) (by decide)⟩
    unfold base64DecodedSize
    omega
  | big => exact absurd rfl small

/-- An array that is not empty has between one and six dimensions. -/
theorem dimSizes_length {dimensions : Option Nat} {room ndim : Nat} {xs : List Value} {sizes : List Nat}
    (found : dimSizes dimensions room ndim xs = .ok sizes) : 1 ≤ sizes.length ∧ sizes.length ≤ room + 1 := by
  induction room generalizing ndim xs sizes with
  | zero =>
    rcases dimSizes_cases found with ⟨-, rfl⟩ | ⟨el2, below, tail, -, room, -, -⟩
    · simp
    · cases room
  | succ room ih =>
    rcases dimSizes_cases found with ⟨-, rfl⟩ | ⟨el2, below, tail, -, room, rest, rfl⟩
    · simp
    · cases room
      have bounds := ih rest
      simp only [List.length_cons]
      omega

theorem foundDims_length {dimensions : Option Nat} {xs : List Value} {sizes : List Nat}
    (found : foundDims dimensions xs = .ok sizes) : sizes.length ≤ 6 := by
  unfold foundDims at found
  split at found
  · cases found
    simp
  · exact (dimSizes_length found).2

theorem arrayDims_refuses {dimensions : Option Nat} (refuses : refusesArrays dimensions = true) {xs : List Value}
    {sizes : List Nat} : arrayDims dimensions xs ≠ .ok sizes := by
  cases dimensions with
  | none => cases refuses
  | some d =>
    intro accepted
    simp only [refusesArrays, Bool.or_eq_true, beq_iff_eq, decide_eq_true_eq] at refuses
    obtain ⟨dims, found, checked⟩ := Outcome.of_bind accepted
    have bound := foundDims_length found
    by_cases expected : (if dims.length = 0 then 1 else dims.length) = d
    · split at expected <;> omega
    · simp only [checkDims, ne_eq, expected, not_false_eq_true, if_true] at checked
      cases checked

theorem pgBinEncArray_refuses {elem : EncFunc} {dimensions : Option Nat} {oid : Nat}
    (refuses : refusesArrays dimensions = true) {value : Value} {answer : Answer}
    (first : pgBinEncArray api elem dimensions oid value = .ok answer) : Shape.finished.Meets answer := by
  unfold pgBinEncArray at first
  split at first
  · rename_i xs
    obtain ⟨sizes, dims, -⟩ := Outcome.of_bind first
    exact absurd dims (arrayDims_refuses refuses)
  · cases first
    trivial

theorem pgTextEncToBase64_cases {elem : EncFunc} {value : Value} {answer : Answer}
    (first : pgTextEncToBase64 elem value = .ok answer) :
    (∃ s, answer = .string s) ∨
      ∃ n second, elem value = .ok (.size n second) ∧ answer = .size (base64EncodedSize n) (toBase64Second second) := by
  obtain ⟨given, one, first⟩ := Outcome.of_bind first
  cases given with
  | string s =>
    obtain ⟨s', -, first⟩ := Outcome.of_bind first
    cases first
    exact Or.inl ⟨s', rfl⟩
  | size n second =>
    cases first
    exact Or.inr ⟨n, second, one, rfl⟩

theorem pgBinEncFromBase64_cases {elem : EncFunc} {value : Value} {answer : Answer}
    (first : pgBinEncFromBase64 elem value = .ok answer) :
    (∃ s, answer = .string s) ∨
      ∃ n second, elem value = .ok (.size n second) ∧
        answer = .size (base64DecodedSize n) (fromBase64Second second) := by
  obtain ⟨given, one, first⟩ := Outcome.of_bind first
  cases given with
  | string s =>
    obtain ⟨s', -, first⟩ := Outcome.of_bind first
    cases first
    exact Or.inl ⟨s', rfl⟩
  | size n second =>
    cases first
    exact Or.inr ⟨n, second, one, rfl⟩

/-- The answers of a safe encoder are of its shape. -/
theorem Enc.meets {e : Enc} (safe : e.Safe) {value : Value} {answer : Answer} (first : e.func api value = .ok answer) :
    e.shape.Meets answer := by
  have big : ∀ {answer : Answer}, answer.Keeps → Shape.big.Meets answer := by
    intro answer keeps
    cases answer with
    | string s => trivial
    | size n second => exact keeps
  induction e generalizing value answer with
  | onePass encode =>
    obtain ⟨s, -, first⟩ := Outcome.of_bind first
    cases first
    trivial
  | textBoolean => exact big (pgTextEncBoolean_keeps first)
  | textInteger => exact big (pgTextEncInteger_keeps first)
  | textFloat => exact big (pgTextEncFloat_keeps first)
  | textNumeric => exact big (pgTextEncNumeric_keeps first)
  | textBytea => exact big (pgTextEncBytea_keeps first)
  | boolean =>
    obtain ⟨second, rfl, bounded⟩ := pgBinEncBoolean_keeps first
    exact ⟨rfl, bounded⟩
  | int2 =>
    obtain ⟨second, rfl, bounded⟩ := binEncInt_keeps first
    exact ⟨rfl, bounded⟩
  | int4 =>
    obtain ⟨second, rfl, bounded⟩ := binEncInt_keeps first
    exact bounded
  | int8 =>
    obtain ⟨second, rfl, bounded⟩ := binEncInt_keeps first
    exact bounded
  | float4 =>
    cases first
    exact nboSecond_bounded 4 _
  | float8 =>
    cases first
    exact nboSecond_bounded 8 _
  | timestamp flags => exact big (pgBinEncTimestamp_keeps first)
  | date => exact big (pgBinEncDate_keeps first)
  | array dimensions oid elem ih =>
    unfold shape
    split
    · rename_i refuses
      exact pgBinEncArray_refuses refuses first
    · exact big (pgBinEncArray_keeps (fun value answer one => (ih safe one).keeps) first)
  | toBase64 elem ih =>
    obtain ⟨s, rfl⟩ | ⟨n, second, one, rfl⟩ := pgTextEncToBase64_cases first
    · trivial
    · exact (ih safe one).toBase64
  | fromBase64 elem ih =>
    obtain ⟨s, rfl⟩ | ⟨n, second, one, rfl⟩ := pgBinEncFromBase64_cases first
    · trivial
    · exact (ih safe.1 one).fromBase64 safe.2

end RubyPg.TwoPass
