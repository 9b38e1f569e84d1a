import RubyPg.Binary.CopyRow
import RubyPg.OutputBuffer
import RubyPg.Text.CopyRow
import RubyPg.Text.QuotedLiteral
import RubyPg.Text.Record

/-!
# The writers of the growing output String

`quote_string`, `write_array`, `pg_text_enc_quoted_literal`, `quote_identifier` and
`pg_text_enc_identifier` of `ext/pg_text_encoder.c`, `pg_text_enc_record` and both `CopyRow` encoders, by
where they write and what they reserve for it. The writers take their output as they find it; the ones
that begin with `PG_RB_STR_NEW` find it empty.
-/

namespace RubyPg.Writers
set_option autoImplicit false
open Ascii

section Code

variable (a : Allocator)

/-- `quote_string`. The sizes are `int`s, also those of the quoting functions. -/
def quoteString (this : Encoder) (value : Value) (withQuote : Bool) (quoteBuffer : Bytes → Bytes) : Writing Unit := do
  match ← call (this value) with
  | .string subint => do
    let strlen ← call (Binary.rstringLenint subint)
    if withQuote then do
      let quoted := (quoteBuffer subint).length
      Logged.note fun b => ⟨strlen.toNat, quoted, b.cur, b.str.capa⟩
      pgRbStrEnsureCapa a (int32 (strlen * 2 + 2))
      writeBytes quoted
      moveOut (int32 quoted)
    else do
      pgRbStrEnsureCapa a strlen
      putBytes strlen.toNat
  | .size strlen second =>
    if withQuote then do
      Logged.note fun b => ⟨strlen, match second with
        | .ok written => (quoteBuffer written).length
        | .error _ => 0, b.cur, b.str.capa⟩
      pgRbStrEnsureCapa a (int32 (2 * strlen + 2))
      let written ← call second
      writeBytes written.length
      writeBytes (quoteBuffer written).length
      moveOut (int32 (quoteBuffer written).length)
    else do
      pgRbStrEnsureCapa a strlen
      let written ← call second
      putBytes written.length

/-- `pg_text_enc_quoted_literal`. -/
def quotedLiteral (this : CompositeCoder) (value : Value) : Writing Unit :=
  quoteString a this.elem value this.needsQuotation Text.quoteLiteralBuffer

/-- A few bytes that are written one by one. -/
def putFew (reserved n : Nat) : Writing Unit := do
  pgRbStrEnsureCapa a reserved
  putBytes n

/-- The `default:` branch of `write_array`. -/
def writeElement (this : CompositeCoder) (entry : Value) (dimension : Int) : Writing Unit :=
  if decide (0 ≤ this.dimensions) && dimension != this.dimensions then
    call (Text.lessDimensions dimension this.dimensions)
  else quoteString a this.elem entry this.needsQuotation (Text.quoteArrayBuffer this.delimiter)

mutual

/-- `write_array`. -/
def writeArray (this : CompositeCoder) (value : List Value) (dimension : Int) : Writing Unit := do
  putFew a 2 1
  if value.isEmpty && decide (0 ≤ this.dimensions) && dimension != this.dimensions then
    call (Text.lessDimensions dimension this.dimensions)
  else do
    writeEntries this value dimension
    putFew a 1 1

/-- The loop of `write_array`. -/
def writeEntries (this : CompositeCoder) (value : List Value) (dimension : Int) : Writing Unit :=
  match value with
  | [] => pure ()
  | [entry] => writeEntry this entry dimension
  | entry :: rest => do
    writeEntry this entry dimension
    putFew a 1 1
    writeEntries this rest dimension

/-- One entry. -/
def writeEntry (this : CompositeCoder) (entry : Value) (dimension : Int) : Writing Unit :=
  match entry with
  | .nil =>
    if decide (0 ≤ this.dimensions) && dimension != this.dimensions then
      call (Text.lessDimensions dimension this.dimensions)
    else putFew a 4 4
  | .ary sub =>
    if decide (this.dimensions < 0) || decide (dimension < this.dimensions) then
      writeArray this sub (dimension + 1)
    else writeElement a this (.ary sub) dimension
  | other => writeElement a this other dimension

end

/-- The loop of `quote_identifier`. -/
def quoteIdentifierLoop : Bytes → Writing Unit
  | [] => pure ()
  | c :: rest => do
    if c = dquote then do
      pgRbStrEnsureCapaMacro a ((rest.length + 3 : Nat) : Int)
      putBytes 1
    else if c = nul then call (rbRaise .argumentError "string contains null byte")
    else pure ()
    putBytes 1
    quoteIdentifierLoop rest

/-- `quote_identifier`. -/
def quoteIdentifier (value : Bytes) : Writing Unit := do
  -- `end_capa = current_out`
  Logged.step fun b => .ok { b with endCapa := (b.str.base + b.cur).toNat }
  pgRbStrEnsureCapaMacro a ((value.length + 2 : Nat) : Int)
  putBytes 1
  quoteIdentifierLoop a value
  pgRbStrEnsureCapaMacro a (1 : Nat)
  putBytes 1

/-- `StringValue`. -/
def stringValue : Value → Outcome Bytes
  | .str s => pure s
  | _ => rbRaise .typeError "no implicit conversion into String"

/-- The loop of `pg_text_enc_array_identifier`. -/
def arrayIdentifier : List Value → Writing Unit
  | [] => pure ()
  | [entry] => do quoteIdentifier a (← call (stringValue entry))
  | entry :: rest => do
    quoteIdentifier a (← call (stringValue entry))
    putFew a 1 1
    arrayIdentifier rest

/-- `pg_text_enc_identifier`. -/
def identifier : Value → Writing Unit
  | .ary entries => arrayIdentifier a entries
  | value => do quoteIdentifier a (← call (stringValue value))

/-- Some bytes behind the inline check. -/
def putChecked (n : Nat) : Writing Unit := do
  pgRbStrEnsureCapaMacro a n
  putBytes n

/-- One column of `pg_text_enc_record`. -/
def recordColumn (typemap : EncoderMap) (entry : Value) (i : Nat) : Writing Unit :=
  match entry with
  | .nil => pure ()
  | entry => do
    match ← call (typemap.typecastQueryParam entry i entry) with
    | .string subint => do
      pgRbStrEnsureCapaMacro a ((subint.length * 2 + 2 : Nat) : Int)
      putBytes 1
      putBytes (Text.recordEscape subint).length
      putBytes 1
    | .size strlen second => do
      pgRbStrEnsureCapaMacro a ((strlen * 2 + 2 : Nat) : Int)
      putBytes 1
      let written ← call second
      writeBytes written.length
      putBytes (written.length + written.countP Text.recordSpecial)
      putBytes 1

/-- One column of `pg_text_enc_copy_row`. -/
def copyColumn (this : Text.CopyCoder) (typemap : EncoderMap) (entry : Value) (i : Nat) : Writing Unit :=
  match entry with
  | .nil => putChecked a this.nullString.length
  | entry => do
    match ← call (typemap.typecastQueryParam entry i entry) with
    | .string subint => do
      let strlen ← call (Binary.rstringLenint subint)
      pgRbStrEnsureCapaMacro a ((strlen.toNat * 2 : Nat) : Int)
      putBytes (Text.copyEscape this.delimiter subint).length
    | .size strlen second => do
      pgRbStrEnsureCapaMacro a ((strlen * 2 : Nat) : Int)
      let written ← call second
      writeBytes written.length
      putBytes (written.length + written.countP (Text.copySpecial this.delimiter))

/-- One column of `pg_bin_enc_copy_row`. -/
def binCopyColumn (typemap : EncoderMap) (entry : Value) (i : Nat) : Writing Unit :=
  match entry with
  | .nil => putChecked a 4
  | entry => do
    match ← call (typemap.typecastQueryParam entry i entry) with
    | .string subint => do
      let strlen ← call (Binary.rstringLenint subint)
      pgRbStrEnsureCapaMacro a ((4 + strlen.toNat : Nat) : Int)
      putBytes 4
      putBytes strlen.toNat
    | .size strlen second => do
      pgRbStrEnsureCapaMacro a ((4 + strlen : Nat) : Int)
      putBytes 4
      let written ← call second
      putBytes written.length

/-- The loop over the columns of a row, with something in front of each but the first. -/
def columns (between : Writing Unit) (column : Value → Nat → Writing Unit) : List Value → Nat → Writing Unit
  | [], _ => pure ()
  | entry :: rest, i => do
    if i > 0 then between
    column entry i
    columns between column rest (i + 1)

/-- `pg_text_enc_record`. -/
def record (typemap : EncoderMap) (value : Value) : Writing Unit := do
  call (typemap.fitToQuery value)
  match value with
  | .ary entries => do
    putChecked a 1
    columns (putChecked a 1) (recordColumn a typemap) entries 0
    putChecked a 1
  | _ => call (.error .undefined)

/-- `pg_text_enc_copy_row`. -/
def copyRow (this : Text.CopyCoder) (typemap : EncoderMap) (value : List Value) : Writing Unit := do
  call (typemap.fitToQuery (.ary value))
  columns (putChecked a 1) (copyColumn a this typemap) value 0
  putChecked a 1

/-- `pg_bin_enc_copy_row`. -/
def binCopyRow (typemap : EncoderMap) (value : List Value) : Writing Unit :=
  let length := value.length
  if length ≥ 32768 then
    call (rbRaise .argumentError s!"too many columns in array for PG::BinaryEncoder::CopyRow: {length}")
  else do
    call (typemap.fitToQuery (.ary value))
    putChecked a 2
    columns (pure ()) (binCopyColumn a typemap) value 0

end Code

/-- What is quoted here is reserved for: twice the announced size is an `int`, or the negative one it
wraps to is refused, or there is room anyway. -/
def Reserved (q : Quoting) : Prop :=
  q.announced < 2 ^ 30 - 1 ∨ q.cur < 2 ^ 32 - 2 * q.announced - 2 ∨ q.cur + q.quoted ≤ q.capa ∧ q.quoted < 2 ^ 31

instance (q : Quoting) : Decidable (Reserved q) := inferInstanceAs (Decidable (_ ∨ _))

/-- What an encoder makes of a value is no longer than an `int` counts, and the second call keeps to the
first. -/
structure Bounded (enc : Encoder) (value : Value) : Prop where
  string : ∀ s, enc value = .ok (.string s) → s.length < 2 ^ 31
  contract : KeepsContract enc value

/-- A quoting function writes at least the text and at most each character twice, between quotes. -/
structure Quotes (quoteBuffer : Bytes → Bytes) : Prop where
  least : ∀ s, s.length ≤ (quoteBuffer s).length
  most : ∀ s, (quoteBuffer s).length ≤ 2 * s.length + 2

section Quoted

variable {a : Allocator}

theorem quotes_array (delimiter : UInt8) : Quotes (Text.quoteArrayBuffer delimiter) := by
  have size : ∀ s, s.length ≤ (Text.quoteArrayBuffer delimiter s).length ∧
      (Text.quoteArrayBuffer delimiter s).length ≤ 2 * s.length + 2 := by
    intro s
    have marks := List.countP_le_length (p := Text.needsBackslash) (l := s)
    rw [← Text.arrayReference_eq]
    by_cases quoted : Text.needquote delimiter s = true
    · rw [Text.length_arrayReference quoted]
      omega
    · rw [Text.arrayReference, if_neg quoted]
      omega
  exact ⟨fun s => (size s).1, fun s => (size s).2⟩

theorem quotes_literal : Quotes Text.quoteLiteralBuffer := by
  have size : ∀ s, s.length ≤ (Text.quoteLiteralBuffer s).length ∧
      (Text.quoteLiteralBuffer s).length ≤ 2 * s.length + 2 := by
    intro s
    have marks := List.countP_le_length (p := Text.literalSpecial) (l := s)
    rw [← Text.literalReference_eq, Text.length_literalReference]
    omega
  exact ⟨fun s => (size s).1, fun s => (size s).2⟩

theorem int32_wraps {n : Nat} (announced : n < 2 ^ 31) (large : 2 ^ 30 - 1 ≤ n) :
    int32 (2 * n + 2) = 2 * n + 2 - 2 ^ 32 := by
  unfold int32
  rw [Int.bmod_def]
  omega

/-- The length behind a wrapped size, as `size_t`. -/
theorem sizeT_wraps {cur size : Int} (start : 0 ≤ cur) (few : cur < 2 ^ 62) (low : -2 ^ 32 ≤ size) (early : cur < -size) :
    (sizeT cur + sizeT size) % 2 ^ 64 = (cur + size + 2 ^ 64).toNat := by
  unfold sizeT
  omega

/-- The `long` that a wrapped length gives is negative. -/
theorem bmod_wraps {needed capa : Int} (low : 2 ^ 64 - 2 ^ 32 ≤ needed) (high : needed < 2 ^ 64) (nonneg : 0 ≤ capa)
    (few : capa < 2 ^ 62) : Int.bmod (needed * 2 - capa) (2 ^ 64) < 0 := by
  rw [Int.bmod_def]
  omega

/-- Where the size has wrapped to a negative one and fewer bytes are written, the reservation is refused. -/
theorem ensureCapa_refused {b b' : Buffer} {n : Nat} (inside : b.Roomy false 0) (announced : n < 2 ^ 31)
    (large : 2 ^ 30 - 1 ≤ n) (early : b.cur < 2 ^ 32 - 2 * n - 2) : ensureCapa a (int32 (2 * n + 2)) b ≠ .ok b' := by
  have start := inside.start
  have stop := inside.room
  have below := b.str.below
  have needed := @sizeT_wraps b.cur (2 * n + 2 - 2 ^ 32) start (by omega) (by omega) (by omega)
  have negative := @bmod_wraps (b.cur + (2 * n + 2 - 2 ^ 32) + 2 ^ 64) b.str.capa (by omega) (by omega) (by omega) (by omega)
  have refused : rbStrModifyExpand a b.str (sizeT b.cur)
      (Int.bmod (((b.cur + (2 * n + 2 - 2 ^ 32) + 2 ^ 64).toNat : Int) * 2 - b.str.capa) (2 ^ 64)) =
        rbRaise .argumentError "negative expanding string size" := by
    rw [Int.toNat_of_nonneg (by omega), rbStrModifyExpand, if_pos negative]
  unfold ensureCapa
  dsimp only
  rw [int32_wraps announced large, needed, refused]
  intro ensured
  split at ensured
  · split at ensured
    · cases ensured
    · cases ensured
  · omega

/-- Where the size has wrapped and as many bytes are written, nothing is reserved. -/
theorem ensureCapa_skipped {b : Buffer} {n : Nat} (inside : b.Roomy false 0) (announced : n < 2 ^ 31)
    (large : 2 ^ 30 - 1 ≤ n) (late : 2 ^ 32 - 2 * (n : Int) - 2 ≤ b.cur) :
    ensureCapa a (int32 (2 * n + 2)) b = .ok b := by
  have start := inside.start
  have stop := inside.room
  have below := b.str.below
  unfold ensureCapa sizeT
  dsimp only
  rw [int32_wraps announced large, if_neg (by omega)]

/-- A reservation for a quoted text that is as expected leaves room for it. -/
theorem ensure_quoted_triple {n quoted : Nat} (announced : n < 2 ^ 31) (most : quoted ≤ 2 * n + 2) :
    Logged.Triple Reserved .outside (fun b => b.Roomy false 0 ∧ Reserved ⟨n, quoted, b.cur, b.str.capa⟩)
      (pgRbStrEnsureCapa a (int32 (2 * n + 2))) fun _ b => b.Roomy false quoted ∧ quoted < 2 ^ 31 := by
  apply Logged.Triple.step
  · rintro b b' ⟨inside, reserved⟩ ensured
    by_cases small : n < 2 ^ 30 - 1
    · have exact' : int32 (2 * n + 2) = ((2 * n + 2 : Nat) : Int) := by
        unfold int32
        rw [Int.bmod_def]
        omega
      rw [exact'] at ensured
      obtain ⟨cur, room, -⟩ := ensureCapa_ok (by omega) inside ensured
      have start := inside.start
      exact ⟨⟨by omega, by omega, Bool.noConfusion⟩, by omega⟩
    · by_cases early : b.cur < 2 ^ 32 - 2 * n - 2
      · exact absurd ensured (ensureCapa_refused inside announced (by omega) early)
      · rcases reserved with small' | early' | ⟨room, short⟩
        · exact absurd small' small
        · exact absurd early' early
        · rw [ensureCapa_skipped inside announced (by omega) (by omega)] at ensured
          cases ensured
          exact ⟨⟨inside.start, room, Bool.noConfusion⟩, short⟩
  · rintro b e ⟨inside, -⟩ refused
    exact ensureCapa_error inside refused

/-- The quoted text is written where it is reserved for, and `current_out` goes behind it. -/
theorem write_quoted_triple {expected : Quoting → Prop} {quoted : Nat} :
    Logged.Triple expected .outside (fun b => b.Roomy false quoted ∧ quoted < 2 ^ 31) (do
      writeBytes quoted
      moveOut (int32 quoted)) fun _ => Buffer.Roomy false 0 := by
  refine .bind (write_triple fun b roomy => roomy.1) fun _ => .step ?_ ?_
  · rintro b b' ⟨roomy, short⟩ moved
    have same : int32 quoted = quoted := by
      unfold int32
      rw [Int.bmod_def]
      omega
    cases moved
    have start := roomy.start
    have room := roomy.room
    refine ⟨?_, ?_, Bool.noConfusion⟩
    · show 0 ≤ b.cur + int32 quoted
      omega
    · show b.cur + int32 quoted + (0 : Nat) ≤ b.str.capa
      omega
  · intro b e roomy moved
    cases moved

/-- Note what is quoted. -/
theorem note_triple {n quoted : Nat} :
    Logged.Triple Reserved .outside (Buffer.Roomy false 0)
      (Logged.note fun b => ⟨n, quoted, b.cur, b.str.capa⟩ : Writing Unit)
      fun _ b => b.Roomy false 0 ∧ Reserved ⟨n, quoted, b.cur, b.str.capa⟩ :=
  .note fun _ inside reserved => ⟨inside, reserved⟩

theorem rstringLenint_ok {s : Bytes} {strlen : Int} (fits : Binary.rstringLenint s = .ok strlen) :
    strlen = s.length ∧ s.length < 2 ^ 31 := by
  by_cases large : s.length ≥ 2 ^ 31
  · rw [Binary.rstringLenint, if_pos large] at fits
    cases fits
  · rw [Binary.rstringLenint, if_neg large] at fits
    cases fits
    exact ⟨rfl, Nat.lt_of_not_le large⟩

theorem rstringLenint_fits {s : Bytes} (short : s.length < 2 ^ 31) : Binary.rstringLenint s = .ok (s.length : Int) := by
  by_cases large : s.length ≥ 2 ^ 31
  · omega
  · rw [Binary.rstringLenint, if_neg large]
    rfl

/-- **`quote_string`** writes inside the String, if what it quotes is as expected. -/
theorem quoteString_triple {this : Encoder} {value : Value} {withQuote : Bool} {quoteBuffer : Bytes → Bytes}
    (contract : KeepsContract this value) (quotes : Quotes quoteBuffer) :
    Logged.Triple Reserved .outside (Buffer.Roomy false 0) (quoteString a this value withQuote quoteBuffer)
      fun _ => Buffer.Roomy false 0 := by
  refine call_bind fun answer first => ?_
  cases answer with
  | string subint =>
    refine call_bind fun strlen fits => ?_
    obtain ⟨rfl, short⟩ := rstringLenint_ok fits
    rw [Int.toNat_natCast]
    have order : (subint.length : Int) * 2 + 2 = 2 * subint.length + 2 := by omega
    cases withQuote with
    | true =>
      rw [if_pos rfl, order]
      refine note_triple.bind fun _ => ?_
      exact (ensure_quoted_triple short (quotes.most subint)).bind fun _ => write_quoted_triple
    | false =>
      rw [if_neg Bool.false_ne_true]
      exact (ensure_triple (by omega)).bind fun _ => put_all_triple
  | size strlen second =>
    obtain ⟨announced, bound⟩ := contract strlen second first
    dsimp only
    cases withQuote with
    | true =>
      rw [if_pos rfl]
      cases second with
      | error stop =>
        refine note_triple.bind fun _ => ?_
        refine (ensure_quoted_triple announced (Nat.zero_le (2 * strlen + 2))).bind fun _ => call_bind fun _ wrote => ?_
        cases wrote
      | ok written =>
        have less := bound written rfl
        have least := quotes.least written
        have most := quotes.most written
        have fits : (quoteBuffer written).length ≤ 2 * strlen + 2 := by omega
        refine note_triple.bind fun _ => ?_
        refine (ensure_quoted_triple announced fits).bind fun _ => call_bind fun _ wrote => ?_
        cases wrote
        exact .bind (write_triple fun b roomy => roomy.1.less least) fun _ => write_quoted_triple
    | false =>
      rw [if_neg Bool.false_ne_true]
      refine (ensure_triple (by omega)).bind fun _ => call_bind fun written wrote => ?_
      refine (put_all_triple.conseq (fun b roomy => ?_) fun _ _ done => done)
      exact roomy.less (bound written wrote)

end Quoted

section Arrays

variable {a : Allocator} {this : CompositeCoder}

theorem putFew_triple {expected : Quoting → Prop} {reserved n : Nat} (few : reserved < 2 ^ 33) (fewer : n ≤ reserved) :
    Logged.Triple expected .outside (Buffer.Roomy false 0) (putFew a reserved n) fun _ => Buffer.Roomy false 0 :=
  (ensure_triple few).bind fun _ => put_all_triple.conseq (fun _ roomy => roomy.less fewer) fun _ _ done => done

theorem writeElement_triple (contract : ∀ value, KeepsContract this.elem value) (entry : Value) (dimension : Int) :
    Logged.Triple Reserved .outside (Buffer.Roomy false 0) (writeElement a this entry dimension)
      fun _ => Buffer.Roomy false 0 := by
  unfold writeElement
  split
  · exact call_triple
  · exact quoteString_triple (contract entry) (quotes_array _)

mutual

/-- **`write_array`** writes inside the String, if what it quotes is as expected. -/
theorem writeArray_triple (contract : ∀ value, KeepsContract this.elem value) (value : List Value) (dimension : Int) :
    Logged.Triple Reserved .outside (Buffer.Roomy false 0) (writeArray a this value dimension)
      fun _ => Buffer.Roomy false 0 := by
  unfold writeArray
  refine (putFew_triple (by decide) (by decide)).bind fun _ => ?_
  split
  · exact call_triple
  · exact (writeEntries_triple contract value dimension).bind fun _ => putFew_triple (by decide) (by decide)

theorem writeEntries_triple (contract : ∀ value, KeepsContract this.elem value) (value : List Value) (dimension : Int) :
    Logged.Triple Reserved .outside (Buffer.Roomy false 0) (writeEntries a this value dimension)
      fun _ => Buffer.Roomy false 0 := by
  match value with
  | [] =>
    unfold writeEntries
    exact .pure fun _ inside => inside
  | [entry] =>
    unfold writeEntries
    exact writeEntry_triple contract entry dimension
  | entry :: next :: rest =>
    unfold writeEntries
    refine (writeEntry_triple contract entry dimension).bind fun _ => ?_
    exact (putFew_triple (by decide) (by decide)).bind fun _ => writeEntries_triple contract (next :: rest) dimension

theorem writeEntry_triple (contract : ∀ value, KeepsContract this.elem value) (entry : Value) (dimension : Int) :
    Logged.Triple Reserved .outside (Buffer.Roomy false 0) (writeEntry a this entry dimension)
      fun _ => Buffer.Roomy false 0 := by
  match entry with
  | .nil =>
    unfold writeEntry
    split
    · exact call_triple
    · exact putFew_triple (by decide) (by decide)
  | .ary sub =>
    unfold writeEntry
    split
    · exact writeArray_triple contract sub (dimension + 1)
    · exact writeElement_triple contract _ dimension
  | .true | .false | .int _ | .float _ | .str _ | .time _ _ _ | .date _ _ _ | .obj _ =>
    unfold writeEntry
    exact writeElement_triple contract _ dimension

end

end Arrays

section Identifiers

variable {a : Allocator} {expected : Quoting → Prop}

theorem quoteIdentifierLoop_triple {value : Bytes} (short : value.length < 2 ^ 32) :
    Logged.Triple expected .outside (Buffer.Roomy true (value.length + 1)) (quoteIdentifierLoop a value)
      fun _ => Buffer.Roomy true 0 := by
  induction value with
  | nil => exact .pure fun _ roomy => roomy.less (Nat.zero_le _)
  | cons c rest ih =>
    rw [List.length_cons] at short ⊢
    have later := ih (by omega)
    have one : Logged.Triple expected .outside (Buffer.Roomy true (1 + (rest.length + 1)))
        (putBytes 1 >>= fun _ => quoteIdentifierLoop a rest) fun _ => Buffer.Roomy true 0 :=
      put_triple.bind fun _ => later
    have order : rest.length + 1 + 1 = 1 + (rest.length + 1) := Nat.add_comm _ _
    unfold quoteIdentifierLoop
    by_cases isQuote : c = dquote
    · rw [if_pos isQuote]
      have reserve : Logged.Triple expected .outside (Buffer.Roomy true (rest.length + 1 + 1))
          (pgRbStrEnsureCapaMacro a ((rest.length + 3 : Nat) : Int)) fun _ => Buffer.Roomy true (rest.length + 3) :=
        (ensureMacro_triple (by omega)).conseq (fun _ roomy => roomy.less (Nat.zero_le _)) fun _ _ done => done
      have total : rest.length + 3 = 1 + (1 + (rest.length + 1)) := by omega
      rw [total] at reserve ⊢
      exact reserve.bind fun _ => put_triple.bind fun _ => one
    · rw [if_neg isQuote, order]
      split
      · exact call_triple.bind fun _ => one
      · exact one

/-- **`quote_identifier`** writes inside the String, wherever it begins. -/
theorem quoteIdentifier_triple {value : Bytes} (short : value.length < 2 ^ 31) :
    Logged.Triple expected .outside (Buffer.Roomy false 0) (quoteIdentifier a value) fun _ => Buffer.Roomy false 0 := by
  refine .bind (Q := fun _ => Buffer.Roomy true 0) ?_ fun _ => ?_
  · apply Logged.Triple.step
    · intro b b' inside started
      cases started
      have start := inside.start
      have room := inside.room
      refine ⟨start, room, fun _ => ?_⟩
      show (b.str.base + b.cur).toNat ≤ b.str.base + b.str.capa
      omega
    · intro b e inside started
      cases started
  · refine (ensureMacro_triple (by omega)).bind fun _ => ?_
    have total : value.length + 2 = 1 + (value.length + 1) := by omega
    rw [total]
    refine put_triple.bind fun _ => (quoteIdentifierLoop_triple (by omega)).bind fun _ => ?_
    refine (ensureMacro_triple (by decide)).bind fun _ => ?_
    exact put_all_triple.conseq (fun _ roomy => roomy) fun _ _ done => done.uncached

theorem arrayIdentifier_triple {entries : List Value} (short : ∀ s, .str s ∈ entries → s.length < 2 ^ 31) :
    Logged.Triple expected .outside (Buffer.Roomy false 0) (arrayIdentifier a entries) fun _ => Buffer.Roomy false 0 := by
  have one : ∀ entry ∈ entries, Logged.Triple expected .outside (Buffer.Roomy false 0)
      (call (stringValue entry) >>= quoteIdentifier a) fun _ => Buffer.Roomy false 0 := by
    intro entry member
    refine call_bind fun s known => quoteIdentifier_triple ?_
    cases entry with
    | str s' =>
      cases known
      exact short s member
    | _ => cases known
  induction entries with
  | nil => exact .pure fun _ inside => inside
  | cons entry rest ih =>
    have later := ih (fun s member => short s (List.mem_cons_of_mem entry member)) fun e member =>
      one e (List.mem_cons_of_mem entry member)
    have first := one entry List.mem_cons_self
    cases rest with
    | nil => exact first
    | cons next rest =>
      have sequence : arrayIdentifier a (entry :: next :: rest) = call (stringValue entry) >>= quoteIdentifier a >>= fun _ =>
          putFew a 1 1 >>= fun _ => arrayIdentifier a (next :: rest) := by
        rw [Method.bind_assoc]
        rfl
      rw [sequence]
      exact first.bind fun _ => (putFew_triple (by decide) (by decide)).bind fun _ => later

end Identifiers

section Rows

variable {a : Allocator} {expected : Quoting → Prop} {typemap : EncoderMap}

theorem putChecked_triple {n : Nat} (few : n < 2 ^ 33) :
    Logged.Triple expected .outside (Buffer.Roomy true 0) (putChecked a n) fun _ => Buffer.Roomy true 0 :=
  (ensureMacro_triple few).bind fun _ => put_all_triple

theorem columns_triple {between : Writing Unit} {column : Value → Nat → Writing Unit}
    (separated : Logged.Triple expected .outside (Buffer.Roomy true 0) between fun _ => Buffer.Roomy true 0)
    {entries : List Value} {i : Nat}
    (one : ∀ k entry, entries[k]? = some entry →
      Logged.Triple expected .outside (Buffer.Roomy true 0) (column entry (i + k)) fun _ => Buffer.Roomy true 0) :
    Logged.Triple expected .outside (Buffer.Roomy true 0) (columns between column entries i) fun _ => Buffer.Roomy true 0 := by
  induction entries generalizing i with
  | nil => exact .pure fun _ inside => inside
  | cons entry rest ih =>
    have later := @ih (i + 1) fun k e found => by
      rw [Nat.add_assoc, Nat.add_comm 1 k]
      exact one (k + 1) e found
    have first := (one 0 entry rfl).bind fun _ => later
    unfold columns
    split
    · exact separated.bind fun _ => first
    · exact first

theorem length_recordEscape (s : Bytes) : (Text.recordEscape s).length ≤ 2 * s.length := by
  induction s with
  | nil => exact Nat.le_refl 0
  | cons c s ih =>
    unfold Text.recordEscape
    split
    · simp only [List.length_cons]
      omega
    · simp only [List.length_cons]
      omega

theorem length_copyEscape (delimiter : UInt8) (s : Bytes) : (Text.copyEscape delimiter s).length ≤ 2 * s.length := by
  induction s with
  | nil => exact Nat.le_refl 0
  | cons c s ih =>
    unfold Text.copyEscape
    split
    · simp only [List.length_cons]
      omega
    · simp only [List.length_cons]
      omega

/-- The marks are placed in what was reserved for twice the text. -/
theorem marks_triple {strlen more reserved : Nat} {written : Bytes} {special : UInt8 → Bool}
    (bound : written.length ≤ strlen) (enough : strlen * 2 + more ≤ reserved) :
    Logged.Triple expected .outside (Buffer.Roomy true reserved) (putBytes (written.length + written.countP special))
      fun _ => Buffer.Roomy true more := by
  have marks := List.countP_le_length (p := special) (l := written)
  exact put_triple.conseq (fun _ roomy => roomy.less (by omega)) fun _ _ done => done

theorem recordColumn_triple {entry : Value} {i : Nat} (bounded : Bounded (typemap.typecastQueryParam entry i) entry) :
    Logged.Triple expected .outside (Buffer.Roomy true 0) (recordColumn a typemap entry i) fun _ => Buffer.Roomy true 0 := by
  by_cases null : entry = .nil
  · subst null
    exact .pure fun _ inside => inside
  have column : recordColumn a typemap entry i = (do
      match ← call (typemap.typecastQueryParam entry i entry) with
      | .string subint => do
        pgRbStrEnsureCapaMacro a ((subint.length * 2 + 2 : Nat) : Int)
        putBytes 1
        putBytes (Text.recordEscape subint).length
        putBytes 1
      | .size strlen second => do
        pgRbStrEnsureCapaMacro a ((strlen * 2 + 2 : Nat) : Int)
        putBytes 1
        let written ← call second
        writeBytes written.length
        putBytes (written.length + written.countP Text.recordSpecial)
        putBytes 1) := by
    cases entry with
    | nil => exact absurd rfl null
    | _ => rfl
  rw [column]
  refine call_bind fun answer first => ?_
  cases answer with
  | string subint =>
    have short := bounded.string subint first
    have size := length_recordEscape subint
    refine (ensureMacro_triple (by omega)).bind fun _ => ?_
    have open' : Logged.Triple expected .outside (Buffer.Roomy true (subint.length * 2 + 2)) (putBytes 1)
        fun _ => Buffer.Roomy true ((Text.recordEscape subint).length + 1) :=
      put_triple.conseq (fun _ roomy => roomy.less (by omega)) fun _ _ done => done
    exact open'.bind fun _ => put_triple.bind fun _ => put_all_triple
  | size strlen second =>
    obtain ⟨announced, bound⟩ := bounded.contract strlen second first
    refine (ensureMacro_triple (by omega)).bind fun _ => ?_
    have open' : Logged.Triple expected .outside (Buffer.Roomy true (strlen * 2 + 2)) (putBytes 1)
        fun _ => Buffer.Roomy true (strlen * 2 + 1) :=
      put_triple.conseq (fun _ roomy => roomy.less (by omega)) fun _ _ done => done
    refine open'.bind fun _ => call_bind fun written wrote => ?_
    have less := bound written wrote
    refine .bind (write_triple fun b roomy => (roomy.less (by omega)).uncached) fun _ => ?_
    exact (marks_triple less (Nat.le_refl _)).bind fun _ => put_all_triple

theorem copyColumn_triple {this : Text.CopyCoder} (null : this.nullString.length < 2 ^ 31) {entry : Value} {i : Nat}
    (bounded : Bounded (typemap.typecastQueryParam entry i) entry) :
    Logged.Triple expected .outside (Buffer.Roomy true 0) (copyColumn a this typemap entry i)
      fun _ => Buffer.Roomy true 0 := by
  by_cases absent : entry = .nil
  · subst absent
    exact putChecked_triple (by omega)
  have column : copyColumn a this typemap entry i = (do
      match ← call (typemap.typecastQueryParam entry i entry) with
      | .string subint => do
        let strlen ← call (Binary.rstringLenint subint)
        pgRbStrEnsureCapaMacro a ((strlen.toNat * 2 : Nat) : Int)
        putBytes (Text.copyEscape this.delimiter subint).length
      | .size strlen second => do
        pgRbStrEnsureCapaMacro a ((strlen * 2 : Nat) : Int)
        let written ← call second
        writeBytes written.length
        putBytes (written.length + written.countP (Text.copySpecial this.delimiter))) := by
    cases entry with
    | nil => exact absurd rfl absent
    | _ => rfl
  rw [column]
  refine call_bind fun answer first => ?_
  cases answer with
  | string subint =>
    refine call_bind fun strlen fits => ?_
    obtain ⟨rfl, short⟩ := rstringLenint_ok fits
    have size := length_copyEscape this.delimiter subint
    rw [Int.toNat_natCast]
    refine (ensureMacro_triple (by omega)).bind fun _ => ?_
    exact put_all_triple.conseq (fun _ roomy => roomy.less (by omega)) fun _ _ done => done
  | size strlen second =>
    obtain ⟨announced, bound⟩ := bounded.contract strlen second first
    refine (ensureMacro_triple (by omega)).bind fun _ => ?_
    refine call_bind fun written wrote => ?_
    have less := bound written wrote
    refine .bind (write_triple fun b roomy => (roomy.less (by omega)).uncached) fun _ => ?_
    exact marks_triple less (Nat.le_refl _)

theorem binCopyColumn_triple {entry : Value} {i : Nat} (bounded : Bounded (typemap.typecastQueryParam entry i) entry) :
    Logged.Triple expected .outside (Buffer.Roomy true 0) (binCopyColumn a typemap entry i)
      fun _ => Buffer.Roomy true 0 := by
  by_cases null : entry = .nil
  · subst null
    exact putChecked_triple (by decide)
  have column : binCopyColumn a typemap entry i = (do
      match ← call (typemap.typecastQueryParam entry i entry) with
      | .string subint => do
        let strlen ← call (Binary.rstringLenint subint)
        pgRbStrEnsureCapaMacro a ((4 + strlen.toNat : Nat) : Int)
        putBytes 4
        putBytes strlen.toNat
      | .size strlen second => do
        pgRbStrEnsureCapaMacro a ((4 + strlen : Nat) : Int)
        putBytes 4
        let written ← call second
        putBytes written.length) := by
    cases entry with
    | nil => exact absurd rfl null
    | _ => rfl
  rw [column]
  refine call_bind fun answer first => ?_
  cases answer with
  | string subint =>
    refine call_bind fun strlen fits => ?_
    obtain ⟨rfl, short⟩ := rstringLenint_ok fits
    rw [Int.toNat_natCast]
    refine (ensureMacro_triple (by omega)).bind fun _ => ?_
    exact put_triple.bind fun _ => put_all_triple
  | size strlen second =>
    obtain ⟨announced, bound⟩ := bounded.contract strlen second first
    refine (ensureMacro_triple (by omega)).bind fun _ => put_triple.bind fun _ => call_bind fun written wrote => ?_
    exact put_all_triple.conseq (fun _ roomy => roomy.less (bound written wrote)) fun _ _ done => done

/-- **`pg_text_enc_record`** writes inside the String. -/
theorem record_triple {value : Value} (bounded : ∀ entry i, Bounded (typemap.typecastQueryParam entry i) entry) :
    Logged.Triple expected .outside (Buffer.Roomy true 0) (record a typemap value) fun _ => Buffer.Roomy true 0 := by
  refine call_triple.bind fun _ => ?_
  cases value with
  | ary entries =>
    refine (putChecked_triple (by decide)).bind fun _ => ?_
    refine (columns_triple (putChecked_triple (by decide)) fun k entry _ => ?_).bind fun _ => putChecked_triple (by decide)
    apply recordColumn_triple
    exact bounded entry _
  | _ => exact call_triple

/-- **`pg_text_enc_copy_row`** writes inside the String. -/
theorem copyRow_triple {this : Text.CopyCoder} {value : List Value} (null : this.nullString.length < 2 ^ 31)
    (bounded : ∀ entry i, Bounded (typemap.typecastQueryParam entry i) entry) :
    Logged.Triple expected .outside (Buffer.Roomy true 0) (copyRow a this typemap value)
      fun _ => Buffer.Roomy true 0 := by
  refine call_triple.bind fun _ => ?_
  refine (columns_triple (putChecked_triple (by decide)) fun k entry _ => ?_).bind fun _ => putChecked_triple (by decide)
  apply copyColumn_triple null
  exact bounded entry _

/-- **`pg_bin_enc_copy_row`** writes inside the String. -/
theorem binCopyRow_triple {value : List Value} (bounded : ∀ entry i, Bounded (typemap.typecastQueryParam entry i) entry) :
    Logged.Triple expected .outside (Buffer.Roomy true 0) (binCopyRow a typemap value)
      fun _ => Buffer.Roomy true 0 := by
  unfold binCopyRow
  dsimp only
  split
  · exact call_triple
  · refine call_triple.bind fun _ => (putChecked_triple (by decide)).bind fun _ => ?_
    refine columns_triple (.pure fun _ inside => inside) fun k entry _ => ?_
    apply binCopyColumn_triple
    exact bounded entry _

end Rows

/-- The writers, with what they write. -/
inductive Writer where
  | array (this : CompositeCoder) (value : List Value)
  | quotedLiteral (this : CompositeCoder) (value : Value)
  | identifier (value : Value)
  | record (typemap : EncoderMap) (value : Value)
  | copyRow (this : Text.CopyCoder) (typemap : EncoderMap) (value : List Value)
  | binCopyRow (typemap : EncoderMap) (value : List Value)

namespace Writer

/-- What a writer does to its output. -/
def write (a : Allocator) : Writer → Writing Unit
  | array this value => writeArray a this value 1
  | quotedLiteral this value => Writers.quotedLiteral a this value
  | identifier value => Writers.identifier a value
  | record typemap value => Writers.record a typemap value
  | copyRow this typemap value => Writers.copyRow a this typemap value
  | binCopyRow typemap value => Writers.binCopyRow a typemap value

/-- Everything that is written at once is no longer than an `int` counts. -/
def Bounded : Writer → Prop
  | array this _ => ∀ value, KeepsContract this.elem value
  | quotedLiteral this _ => ∀ value, KeepsContract this.elem value
  | identifier (.ary entries) => ∀ s, .str s ∈ entries → s.length < 2 ^ 31
  | identifier value => ∀ s, value = .str s → s.length < 2 ^ 31
  | record typemap _ => ∀ entry i, Writers.Bounded (typemap.typecastQueryParam entry i) entry
  | copyRow this typemap _ =>
    this.nullString.length < 2 ^ 31 ∧ ∀ entry i, Writers.Bounded (typemap.typecastQueryParam entry i) entry
  | binCopyRow typemap _ => ∀ entry i, Writers.Bounded (typemap.typecastQueryParam entry i) entry

/-- The writers that use `quote_string`. -/
def Quotes : Writer → Prop
  | array _ _ => True
  | quotedLiteral _ _ => True
  | _ => False

end Writer

section Writers

variable {a : Allocator}

theorem identifier_triple {expected : Quoting → Prop} {value : Value} (bounded : (Writer.identifier value).Bounded) :
    Logged.Triple expected .outside (Buffer.Roomy false 0) (identifier a value) fun _ => Buffer.Roomy false 0 := by
  cases value with
  | ary entries => exact arrayIdentifier_triple bounded
  | str s =>
    refine call_bind fun s' known => ?_
    cases known
    apply quoteIdentifier_triple
    exact bounded s rfl
  | _ =>
    refine call_bind fun s' known => ?_
    cases known

/-- The writers that do not use `quote_string` write inside the String. -/
theorem checked_triple {expected : Quoting → Prop} {writer : Writer} (bounded : writer.Bounded) (checked : ¬writer.Quotes) :
    Logged.Triple expected .outside (Buffer.Roomy true 0) (writer.write a) fun _ => Buffer.Roomy false 0 := by
  cases writer with
  | array this value => exact absurd trivial checked
  | quotedLiteral this value => exact absurd trivial checked
  | identifier value => exact (identifier_triple bounded).conseq (fun _ inside => inside.uncached) fun _ _ done => done
  | record typemap value => exact (record_triple bounded).conseq (fun _ inside => inside) fun _ _ done => done.uncached
  | copyRow this typemap value =>
    exact (copyRow_triple bounded.1 bounded.2).conseq (fun _ inside => inside) fun _ _ done => done.uncached
  | binCopyRow typemap value =>
    exact (binCopyRow_triple bounded).conseq (fun _ inside => inside) fun _ _ done => done.uncached

/-- All writers write inside the String, if what they quote is as expected. -/
theorem writer_triple {writer : Writer} (bounded : writer.Bounded) :
    Logged.Triple Reserved .outside (Buffer.Roomy true 0) (writer.write a) fun _ => Buffer.Roomy false 0 := by
  cases writer with
  | array this value =>
    exact (writeArray_triple bounded value 1).conseq (fun _ inside => inside.uncached) fun _ _ done => done
  | quotedLiteral this value =>
    exact (quoteString_triple (bounded value) quotes_literal).conseq (fun _ inside => inside.uncached) fun _ _ done => done
  | identifier value => exact checked_triple bounded id
  | record typemap value => exact checked_triple bounded id
  | copyRow this typemap value => exact checked_triple bounded id
  | binCopyRow typemap value => exact checked_triple bounded id

/-- An allocator that gives what it is asked for, if there is so much memory. -/
def exactAllocator : Allocator where
  resize _ n := if small : n < 2 ^ 61 then pure ⟨0, n, by omega⟩ else rbRaise .argumentError "argument too big"
  enough _ n str' given := by
    split at given
    · cases given
      exact Nat.le_refl n
    · cases given

/-- What `rb_str_new(NULL, 0)` gives: a String with 23 bytes inside the object. -/
def newString : Logged Buffer Quoting := ⟨⟨⟨0, 23, by decide⟩, 0, 0⟩, []⟩

theorem newString_roomy {cached : Bool} : newString.state.Roomy cached 0 := ⟨by decide, by decide, fun _ => by decide⟩

/-- What is not reserved for is written outside, when there is no room. -/
theorem quoteString_outside {this : Encoder} {value : Value} {quoteBuffer : Bytes → Bytes} {subint : Bytes}
    (finished : this value = .ok (.string subint)) (short : subint.length < 2 ^ 31) {s : Logged Buffer Quoting}
    (inside : s.state.Roomy false 0) (late : 2 ^ 32 ≤ s.state.cur + 2 * subint.length + 2) (large : 2 ^ 30 - 1 ≤ subint.length)
    (beyond : s.state.str.capa < s.state.cur + (quoteBuffer subint).length) :
    (quoteString a this value true quoteBuffer s).1 = .error .outside := by
  have fits := rstringLenint_fits short
  have order : (subint.length : Int) * 2 + 2 = 2 * subint.length + 2 := by omega
  have skipped := @ensureCapa_skipped a s.state subint.length inside short large (by omega)
  let noted : Logged Buffer Quoting :=
    ⟨s.state, ⟨subint.length, (quoteBuffer subint).length, s.state.cur, s.state.str.capa⟩ :: s.log⟩
  have first : call (this value) s = (.ok (.string subint), s) := by
    rw [finished]
    rfl
  have second : call (Binary.rstringLenint subint) s = (.ok (subint.length : Int), s) := by
    rw [fits]
    rfl
  have note : (Logged.note fun b => ⟨subint.length, (quoteBuffer subint).length, b.cur, b.str.capa⟩ : Writing Unit) s =
      (.ok (), noted) := rfl
  have ensure : pgRbStrEnsureCapa a (int32 (2 * subint.length + 2)) noted = (.ok (), noted) := Logged.step_ok skipped
  have write : writeBytes (quoteBuffer subint).length noted = (.error .outside, noted) := by
    apply Logged.step_error
    apply if_neg
    rintro ⟨-, room⟩
    exact absurd room (Int.not_le_of_gt beyond)
  unfold quoteString
  rw [Method.bind_ok first]
  dsimp only
  rw [Method.bind_ok second, if_pos rfl, order, Int.toNat_natCast, Method.bind_ok note, Method.bind_ok ensure,
    Method.bind_error write]

end Writers

end RubyPg.Writers
