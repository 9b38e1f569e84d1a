import RubyPg.Base64Codec

/-!
# Base64 in place

Where the input stands at the start of the output buffer, neither the encoder, which runs backwards, nor the
decoder writes over a byte that it still has to read. So both do what they do on a copy of the input, and even
a read that fails on overwritten bytes never fails.
-/

namespace RubyPg.Base64
set_option autoImplicit false
open Writer Sextets TwoPass

/-- The input in the output buffer itself. -/
abbrev inPlace (out : Nat) : Nat → Writer Stop UInt8 := fun i => load (out + i)

/-- A read in place that fails where the byte was written over. -/
def checked (out i : Nat) : Writer Stop UInt8 := fun w =>
  if out + i ∈ w.log then (.error .fuel, w) else (.ok (w.mem (out + i)), w)

/-- The input stands at the start of the output buffer. -/
def Holds (s : Bytes) (out : Nat) (mem : Mem) : Prop := ∀ i < s.length, mem (out + i) = memOf s i

/-- A source of the bytes of `s`, each of them as long as `U` says that it was not written over. -/
structure Source (s : Bytes) (out : Nat) (src : Nat → Writer Stop UInt8) (U : Nat → Buf → Prop) : Prop where
  read : ∀ i w, U i w → src i w = given s i w
  store : ∀ i w j byte, U i w → out + i ≠ j → U i ⟨w.mem.put j byte, j :: w.log⟩

variable {s t : Bytes} {out p i j : Nat} {src : Nat → Writer Stop UInt8} {U : Nat → Buf → Prop} {w : Buf}

/-- The byte still stands where it was. -/
def Stands (s : Bytes) (out i : Nat) (w : Buf) : Prop := w.mem (out + i) = memOf s i

/-- The byte still stands where it was, and nothing was written there. -/
def Unread (s : Bytes) (out i : Nat) (w : Buf) : Prop := Stands s out i w ∧ out + i ∉ w.log

theorem source_inPlace : Source s out (inPlace out) (Stands s out) where
  read i w stands := by
    show (Except.ok (w.mem (out + i)), w) = (Except.ok (memOf s i), w)
    rw [stands]
  store i w j byte stands apart := (Mem.put_other _ _ apart).trans stands

theorem source_checked : Source s out (checked out) (Unread s out) where
  read i w unread := by
    unfold checked
    rw [if_neg unread.2, unread.1]
    rfl
  store i w j byte unread apart := by
    constructor
    · exact source_inPlace.store i w j byte unread.1 apart
    · exact List.not_mem_cons_of_ne_of_not_mem apart unread.2

namespace Source

/-- A read, and what follows it. -/
theorem bind {β : Type} (source : Source s out src U) (unread : U i w) (k : UInt8 → Writer Stop β) :
    (src i >>= k) w = k (memOf s i) w := Method.bind_ok (source.read i w unread)

/-- A block store in front of it. -/
theorem storeAll (source : Source s out src U) (unread : U i w) {bytes : Bytes} (behind : j + bytes.length ≤ out + i) :
    U i ((Writer.storeAll j bytes : Writer Stop Unit) w).2 := by
  induction bytes generalizing j w with
  | nil => exact unread
  | cons b bytes ih =>
    rw [List.length_cons] at behind
    apply ih (source.store i w j b unread (by omega))
    omega

/-- A group of four that is stored behind it. -/
theorem group (source : Source s out src U) (unread : U i w) (front : out + i < j) (c₀ c₁ c₂ c₃ : UInt8) :
    U i ⟨(((w.mem.put (j + 3) c₀).put (j + 2) c₁).put (j + 1) c₂).put j c₃, j :: (j + 1) :: (j + 2) :: (j + 3) :: w.log⟩ := by
  have one := source.store i w (j + 3) c₀ unread (by omega)
  have two := source.store i _ (j + 2) c₁ one (by omega)
  have three := source.store i _ (j + 1) c₂ two (by omega)
  exact source.store i _ j c₃ three (by omega)

end Source

section Encoding

/-- The loop over the full groups reads each group before it writes over it. -/
theorem encodeGroups_source (source : Source s out src U) {g : Nat} (unread : ∀ i < 3 * g, U i w) :
    encodeGroups src out g w = encodeGroups (given s) out g w := by
  induction g generalizing w with
  | zero => rw [encodeGroups, encodeGroups]
  | succ g ih =>
    unfold encodeGroups
    rw [source.bind (unread _ (by omega)), source.bind (unread _ (by omega)), source.bind (unread _ (by omega))]
    simp only [pure_bind, store_bind]
    apply ih
    intro i before
    exact source.group (unread i (by omega)) (by omega) _ _ _ _

/-- The last group is read before it is written. -/
theorem encodePart_source (source : Source s out src U) (part : s.length % 3 > 0)
    (unread : ∀ i < s.length, U i w) :
    (encodePart src out s.length >>= fun _ => encodeGroups src out (s.length / 3)) w =
      (encodePart (given s) out s.length >>= fun _ => encodeGroups (given s) out (s.length / 3)) w := by
  unfold encodePart byteOrZero
  by_cases two : s.length % 3 > 1
  · simp only [two, decide_true, if_true, bind_assoc, pure_bind]
    rw [source.bind (unread _ (by omega)), source.bind (unread _ (by omega))]
    simp only [store_bind]
    apply encodeGroups_source source
    intro i before
    exact source.group (unread i (by omega)) (by omega) _ _ _ _
  · simp only [two, decide_false, Bool.false_eq_true, if_false, bind_assoc, pure_bind]
    rw [source.bind (unread _ (by omega))]
    simp only [store_bind]
    apply encodeGroups_source source
    intro i before
    exact source.group (unread i (by omega)) (by omega) _ _ _ _

/-- Encoding in place does what it does on a copy. -/
theorem rbpgBase64Encode_source (source : Source s out src U) (unread : ∀ i < s.length, U i w) :
    rbpgBase64Encode src out s.length w = rbpgBase64Encode (given s) out s.length w := by
  unfold rbpgBase64Encode
  by_cases part : s.length % 3 > 0
  · rw [if_pos part, if_pos part]
    exact encodePart_source source part unread
  · rw [if_neg part, if_neg part]
    apply encodeGroups_source source
    intro i before
    exact unread i (by omega)

end Encoding

section Decoding

/-- What is left of the input was not written over. -/
def Ahead (s : Bytes) (U : Nat → Buf → Prop) (p : Nat) (w : Buf) : Prop := ∀ i, p ≤ i → i < s.length → U i w

theorem Ahead.mono (ahead : Ahead s U p w) {q : Nat} (later : p ≤ q) : Ahead s U q w := fun i behind inside =>
  ahead i (later.trans behind) inside

theorem scanSextet_source (source : Source s out src U) (ahead : Ahead s U p w) (inside : p < s.length) {fuel : Nat} :
    scanSextet src s.length fuel p w = scanSextet (given s) s.length fuel p w := by
  induction fuel generalizing p with
  | zero => rw [scanSextet, scanSextet]
  | succ fuel ih =>
    unfold scanSextet
    rw [source.bind (ahead p le_rfl inside), pure_bind]
    by_cases more : base64DecodeTable (memOf s p) = 0xff ∧ p + 1 < s.length
    · rw [if_pos more, if_pos more]
      exact ih (ahead.mono (Nat.le_succ p)) more.2
    · rw [if_neg more, if_neg more]

theorem nextSextet_source (source : Source s out src U) (ahead : Ahead s U p w) :
    nextSextet src s.length p w = nextSextet (given s) s.length p w := by
  unfold nextSextet
  by_cases more : p < s.length
  · rw [if_pos more, if_pos more]
    exact scanSextet_source source ahead more
  · rw [if_neg more, if_neg more]

/-- One of the nested scans, and what follows it. -/
theorem nextSextet_bind {β : Type} (source : Source s out src U) (here : Rest s p t) (inside : p ≤ s.length)
    (ahead : Ahead s U p w) (k : UInt8 × Nat → Writer Stop β) :
    (nextSextet src s.length p >>= k) w = k ((takeSextet t).1, s.length - (takeSextet t).2.length) w := by
  have run := nextSextet_source source ahead
  rw [nextSextet_given here inside] at run
  exact Method.bind_ok run

/-- The four nested scans, and what follows them. -/
theorem scans_source {β : Type} (source : Source s out src U) (here : Rest s p t) (inside : p ≤ s.length)
    (ahead : Ahead s U p w) (k : UInt8 → UInt8 → UInt8 → UInt8 → Nat → Writer Stop β) :
    (do
      let (a, inPtr) ← nextSextet src s.length p
      let (b, inPtr) ← nextSextet src s.length inPtr
      let (c, inPtr) ← nextSextet src s.length inPtr
      let (d, inPtr) ← nextSextet src s.length inPtr
      k a b c d inPtr) w =
      k (Round.of t).a (Round.of t).b (Round.of t).c (Round.of t).d (s.length - (Round.of t).left.length) w := by
  have position := index_of_rest here inside
  have first := rest_of_suffix here (takeSextet_rest t)
  have second := rest_of_suffix first (takeSextet_rest _)
  have third := rest_of_suffix second (takeSextet_rest _)
  have shorter₁ := (takeSextet_rest t).length_le
  have shorter₂ := (takeSextet_rest (takeSextet t).2).length_le
  have shorter₃ := (takeSextet_rest (takeSextet (takeSextet t).2).2).length_le
  rw [nextSextet_bind source here inside ahead]
  dsimp only
  rw [nextSextet_bind source first (Nat.sub_le _ _) (ahead.mono (by omega))]
  dsimp only
  rw [nextSextet_bind source second (Nat.sub_le _ _) (ahead.mono (by omega))]
  dsimp only
  rw [nextSextet_bind source third (Nat.sub_le _ _) (ahead.mono (by omega))]
  rfl

theorem fourSextets_source (source : Source s out src U) (ahead : Ahead s U p w) :
    fourSextets src s.length p w = fourSextets (given s) s.length p w := by
  unfold fourSextets
  by_cases four : p + 3 < s.length
  · rw [if_pos four, if_pos four]
    rw [source.bind (ahead p le_rfl (by omega)), source.bind (ahead (p + 1) (by omega) (by omega)),
      source.bind (ahead (p + 2) (by omega) (by omega)), source.bind (ahead (p + 3) (by omega) (by omega))]
    simp only [pure_bind]
  · rw [if_neg four, if_neg four]

/-- A round takes more characters than it gives bytes. -/
theorem Round.bytes_le (t : Bytes) : (Round.of t).bytes.length + (Round.of t).left.length ≤ t.length := by
  have shorter₁ := (takeSextet_rest t).length_le
  have shorter₂ := (takeSextet_rest (takeSextet t).2).length_le
  have shorter₃ := (takeSextet_rest (takeSextet (takeSextet t).2).2).length_le
  have shorter₄ := (takeSextet_rest (takeSextet (takeSextet (takeSextet t).2).2).2).length_le
  unfold Round.bytes Round.of joined
  dsimp only
  by_cases a : (takeSextet t).1 = 0xff
  · simp [a, ofSextets]
    omega
  obtain ⟨-, used₁, -⟩ := takeSextet_valid a
  by_cases b : (takeSextet (takeSextet t).2).1 = 0xff
  · simp [a, b, ofSextets]
    omega
  obtain ⟨-, used₂, -⟩ := takeSextet_valid b
  by_cases c : (takeSextet (takeSextet (takeSextet t).2).2).1 = 0xff
  · simp [a, b, c, ofSextets]
    omega
  obtain ⟨-, used₃, -⟩ := takeSextet_valid c
  by_cases d : (takeSextet (takeSextet (takeSextet (takeSextet t).2).2).2).1 = 0xff
  · simp [a, b, c, d, ofSextets]
    omega
  · simp [a, b, c, d, ofSextets]
    omega

/-- What follows a block store depends on the state it leaves. -/
theorem storeAll_bind_congr {β : Type} {bytes : Bytes} {k k' : Unit → Writer Stop β}
    (same : k () ((storeAll j bytes : Writer Stop Unit) w).2 = k' () ((storeAll j bytes : Writer Stop Unit) w).2) :
    (storeAll j bytes >>= k) w = (storeAll j bytes >>= k') w := by
  obtain ⟨w', run, -⟩ := @storeAll_run Stop j bytes w
  rw [run] at same
  rw [Method.bind_ok run, Method.bind_ok run]
  exact same

/-- The loop of the decoder stays behind what it has read. -/
theorem decodeLoop_source (source : Source s out src U) {fuel outPtr : Nat} (here : Rest s p t) (inside : p ≤ s.length)
    (ahead : Ahead s U p w) (low : outPtr ≤ out + p) :
    decodeLoop src s.length fuel p outPtr w = decodeLoop (given s) s.length fuel p outPtr w := by
  induction fuel generalizing p t outPtr w with
  | zero => rw [decodeLoop, decodeLoop]
  | succ fuel ih =>
    have position := index_of_rest here inside
    have shorter := congrArg List.length here
    rw [List.length_drop] at shorter
    have fewer := Round.bytes_le t
    have rest := rest_of_suffix here ((Round.left_suffix t).trans (List.tail_suffix t))
    have later : (storeAll outPtr (Round.of t).bytes >>= fun _ =>
          decodeLoop src s.length fuel (s.length - (Round.of t).left.length) (outPtr + (Round.of t).bytes.length)) w =
        (storeAll outPtr (Round.of t).bytes >>= fun _ =>
          decodeLoop (given s) s.length fuel (s.length - (Round.of t).left.length) (outPtr + (Round.of t).bytes.length)) w := by
      apply storeAll_bind_congr
      apply ih rest (Nat.sub_le _ _)
      · intro i behind inside'
        exact source.storeAll (ahead i (by omega) inside') (by omega)
      · omega
    have four := fourSextets_source source ahead
    unfold decodeLoop
    rcases fourSextets_given here with none | ⟨some, next, -⟩
    · rw [none] at four
      rw [Method.bind_ok four, none, pure_bind]
      dsimp only
      by_cases more : p < s.length
      · rw [if_pos more, if_pos more]
        have scans := scans_source source here inside ahead fun a b c d inPtr => do
          let outPtr ← storeSextets outPtr a b c d
          decodeLoop src s.length fuel inPtr outPtr
        have copied := scans_given here inside fun a b c d inPtr => do
          let outPtr ← storeSextets outPtr a b c d
          decodeLoop (given s) s.length fuel inPtr outPtr
        refine scans.trans (Eq.trans ?_ (congrFun copied.symm w))
        simp only [Round.store, bind_assoc, pure_bind]
        exact later
      · rw [if_neg more, if_neg more]
    · rw [some] at four
      rw [Method.bind_ok four, some, pure_bind, next]
      dsimp only
      simp only [Round.store, bind_assoc, pure_bind]
      exact later

/-- Decoding in place does what it does on a copy. -/
theorem rbpgBase64Decode_source (source : Source s out src U) (unread : ∀ i < s.length, U i w) :
    rbpgBase64Decode src out s.length w = rbpgBase64Decode (given s) out s.length w := by
  have loop : decodeLoop src s.length (s.length + 1) 0 out w = decodeLoop (given s) s.length (s.length + 1) 0 out w :=
    decodeLoop_source source (Rest.zero s) (Nat.zero_le _) (fun i _ => unread i) le_rfl
  exact Method.bind_same loop _

end Decoding

/-- **Base64.** Decoding takes encoding back; both give the same bytes in place as in a new buffer, and never read
a byte that they have written over; decoding depends only on the characters of the alphabet, and never gives
more bytes than the size of the buffer that is taken for them. -/
theorem base64_codec :
    (∀ x, ∃ y, base64String x = .ok y ∧ unbase64String y = .ok x) ∧
    (∀ s out mem, Holds s out mem → ∀ src, src = inPlace out ∨ src = checked out →
      (∃ w, rbpgBase64Encode src out s.length ⟨mem, []⟩ = (.ok (), w) ∧
        base64String s = .ok (w.mem.slice out (base64EncodedSize s.length))) ∧
      ∃ n w, rbpgBase64Decode src out s.length ⟨mem, []⟩ = (.ok n, w) ∧ unbase64String s = .ok (w.mem.slice out n)) ∧
    (∀ s, unbase64String s = unbase64String (s.filter (· ∈ alphabet))) ∧
    ∀ s, ∃ y, unbase64String s = .ok y ∧ y.length ≤ base64DecodedSize s.length := by
  refine ⟨?_, ?_, ?_, ?_⟩
  · intro x
    refine ⟨text x, base64String_eq x, ?_⟩
    rw [unbase64String_eq, decoded_text]
  · intro s out mem holds src place
    have unread : ∃ U, Source s out src U ∧ ∀ i < s.length, U i ⟨mem, []⟩ := by
      rcases place with rfl | rfl
      · exact ⟨_, source_inPlace, holds⟩
      · exact ⟨_, source_checked, fun i inside => ⟨holds i inside, List.not_mem_nil⟩⟩
    obtain ⟨U, source, unread⟩ := unread
    constructor
    · obtain ⟨w, run, slice, -⟩ := rbpgBase64Encode_fills s out ⟨mem, []⟩
      rw [length_text] at slice
      refine ⟨w, ?_, ?_⟩
      · exact (rbpgBase64Encode_source source unread).trans run
      · rw [base64String_eq, slice]
    · obtain ⟨w, run, slice⟩ := rbpgBase64Decode_run s out ⟨mem, []⟩
      refine ⟨(decoded s).length, w, ?_, ?_⟩
      · exact (rbpgBase64Decode_source source unread).trans run
      · rw [unbase64String_eq, slice]
  · intro s
    rw [unbase64String_eq, unbase64String_eq, decoded_filter]
  · intro s
    exact ⟨decoded s, unbase64String_eq s, length_decoded s⟩

/-- `Zm9v` in place, checked. -/
theorem base64_codec_foo :
    ∃ n w, rbpgBase64Decode (checked 0) 0 4 ⟨memOf [0x5a, 0x6d, 0x39, 0x76], []⟩ = (.ok n, w) ∧
      unbase64String [0x5a, 0x6d, 0x39, 0x76] = .ok (w.mem.slice 0 n) := by
  have holds : Holds [0x5a, 0x6d, 0x39, 0x76] 0 (memOf [0x5a, 0x6d, 0x39, 0x76]) := by
    intro i _
    rw [Nat.zero_add]
  exact (base64_codec.2.1 [0x5a, 0x6d, 0x39, 0x76] 0 _ holds _ (.inr rfl)).2

end RubyPg.Base64
