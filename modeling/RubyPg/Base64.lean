import RubyPg.Value
import RubyPg.Lib.Buffer

/-!
# Base64

`rbpg_base64_encode` and `rbpg_base64_decode` of `ext/pg_util.c`. The input is read through
`src`, which loads from the output buffer itself where the caller works in place.
Encoding `len` bytes writes `base64EncodedSize len` bytes, decoding them writes at most
three quarters of `len`.
-/

namespace RubyPg
set_option autoImplicit false
open Writer

/-- `BASE64_ENCODED_SIZE`. -/
def base64EncodedSize (strlen : Nat) : Nat := (strlen + 2) / 3 * 4

/-- `BASE64_DECODED_SIZE`. -/
def base64DecodedSize (base64len : Nat) : Nat := (base64len + 3) / 4 * 3

/-- `base64_encode_table`. -/
def base64EncodeTable (i : Nat) : UInt8 :=
  if i < 26 then (65 + i).toUInt8
  else if i < 52 then (97 + (i - 26)).toUInt8
  else if i < 62 then (48 + (i - 52)).toUInt8
  else if i = 62 then 43
  else 47

/-- `base64_decode_table`: the index in the table above, else `0xff`. -/
def base64DecodeTable (c : UInt8) : UInt8 :=
  if 65 ≤ c ∧ c ≤ 90 then c - 65
  else if 97 ≤ c ∧ c ≤ 122 then c - 97 + 26
  else if 48 ≤ c ∧ c ≤ 57 then c - 48 + 52
  else if c = 43 then 62
  else if c = 47 then 63
  else 0xff

/-- The character for the `k`th group of six bits of a triple, from the right. -/
def sextet (triple k : Nat) : UInt8 := base64EncodeTable (triple >>> (k * 6) &&& 0x3F)

variable (src : Nat → Writer Stop UInt8)

/-- The loop over the full groups of three bytes, from right to left. -/
def encodeGroups (out : Nat) : Nat → Writer Stop Unit
  | 0 => pure ()
  | g + 1 => do
    let byte2 ← src (3 * g + 2)
    let byte1 ← src (3 * g + 1)
    let byte0 ← src (3 * g)
    let triple := (byte0.toNat <<< 16) + (byte1.toNat <<< 8) + byte2.toNat
    store (out + 4 * g + 3) (sextet triple 0)
    store (out + 4 * g + 2) (sextet triple 1)
    store (out + 4 * g + 1) (sextet triple 2)
    store (out + 4 * g) (sextet triple 3)
    encodeGroups out g

/-- The byte at an index, or 0 where the group has none. -/
def byteOrZero (present : Bool) (i : Nat) : Writer Stop UInt8 := if present then src i else pure 0

/-- The last group, of one or two bytes. -/
def encodePart (out len : Nat) : Writer Stop Unit := do
  let g := len / 3
  let two := decide (len % 3 > 1)
  let byte1 ← byteOrZero src two (3 * g + 1)
  let byte0 ← src (3 * g)
  let triple := (byte0.toNat <<< 16) + (byte1.toNat <<< 8)
  store (out + 4 * g + 3) Ascii.equals
  store (out + 4 * g + 2) (if two then sextet triple 1 else Ascii.equals)
  store (out + 4 * g + 1) (sextet triple 2)
  store (out + 4 * g) (sextet triple 3)

/-- `rbpg_base64_encode`. -/
def rbpgBase64Encode (out len : Nat) : Writer Stop Unit :=
  if len % 3 > 0 then do
    encodePart src out len
    encodeGroups src out (len / 3)
  else encodeGroups src out (len / 3)

/-- `while ((a = base64_decode_table[*in_ptr++]) == 0xff && in_ptr < iend_ptr) {}`. -/
def scanSextet (len : Nat) : Nat → Nat → Writer Stop (UInt8 × Nat)
  | 0, _ => Method.raise .fuel
  | fuel + 1, inPtr => do
    let a := base64DecodeTable (← src inPtr)
    if a = 0xff ∧ inPtr + 1 < len then scanSextet len fuel (inPtr + 1) else pure (a, inPtr + 1)

/-- The next character, unless the input is over. -/
def nextSextet (len inPtr : Nat) : Writer Stop (UInt8 × Nat) :=
  if inPtr < len then scanSextet src len (len - inPtr) inPtr else pure (0xff, inPtr)

/-- Four characters at once, where all of them belong to the alphabet. -/
def fourSextets (len inPtr : Nat) : Writer Stop (Option (UInt8 × UInt8 × UInt8 × UInt8)) := do
  if inPtr + 3 < len then
    let a := base64DecodeTable (← src inPtr)
    let b := base64DecodeTable (← src (inPtr + 1))
    let c := base64DecodeTable (← src (inPtr + 2))
    let d := base64DecodeTable (← src (inPtr + 3))
    if a ≠ 0xff ∧ b ≠ 0xff ∧ c ≠ 0xff ∧ d ≠ 0xff then pure (some (a, b, c, d)) else pure none
  else pure none

/-- The bytes of up to four characters. -/
def storeSextets (out : Nat) (a b c d : UInt8) : Writer Stop Nat := do
  if a ≠ 0xff ∧ b ≠ 0xff then
    store out ((a <<< 2) ||| (b >>> 4))
    if c ≠ 0xff then
      store (out + 1) ((b <<< 4) ||| (c >>> 2))
      if d ≠ 0xff then
        store (out + 2) ((c <<< 6) ||| d)
        pure (out + 3)
      else pure (out + 2)
    else pure (out + 1)
  else pure out

/-- The loop of `rbpg_base64_decode`. Each round takes at least one character. -/
def decodeLoop (len : Nat) : Nat → Nat → Nat → Writer Stop Nat
  | 0, _, _ => Method.raise .fuel
  | fuel + 1, inPtr, outPtr => do
    match ← fourSextets src len inPtr with
    | some (a, b, c, d) =>
      let outPtr ← storeSextets outPtr a b c d
      decodeLoop len fuel (inPtr + 4) outPtr
    | none =>
      if inPtr < len then
        let (a, inPtr) ← nextSextet src len inPtr
        let (b, inPtr) ← nextSextet src len inPtr
        let (c, inPtr) ← nextSextet src len inPtr
        let (d, inPtr) ← nextSextet src len inPtr
        let outPtr ← storeSextets outPtr a b c d
        decodeLoop len fuel inPtr outPtr
      else pure outPtr

/-- `rbpg_base64_decode`. -/
def rbpgBase64Decode (out len : Nat) : Writer Stop Nat := do
  let outPtr ← decodeLoop src len (len + 1) 0 out
  pure (outPtr - out)

/-- Reading the input writes nothing. -/
def ReadOnly : Prop := ∀ i lo hi, Writes lo hi (fun _ => True) (src i)

theorem reads_load (out : Nat) : ReadOnly fun i => Writer.load (out + i) := fun _ _ _ => .load _

section Bounds

variable {src}

theorem encodeGroups_writes (reads : ReadOnly src) {lo hi out g : Nat} (low : lo ≤ out) (high : out + 4 * g ≤ hi) :
    Writes lo hi (fun _ => True) (encodeGroups src out g) := by
  induction g with
  | zero => exact .pure trivial
  | succ g ih =>
    refine .bind (reads _ lo hi) fun byte2 _ => .bind (reads _ lo hi) fun byte1 _ =>
      .bind (reads _ lo hi) fun byte0 _ => ?_
    refine .bind (.store _ (by omega) (by omega)) fun _ _ => .bind (.store _ (by omega) (by omega)) fun _ _ => ?_
    refine .bind (.store _ (by omega) (by omega)) fun _ _ => .bind (.store _ (by omega) (by omega)) fun _ _ => ?_
    exact ih (by omega)

theorem encodePart_writes (reads : ReadOnly src) {lo hi out len : Nat} (low : lo ≤ out)
    (high : out + 4 * (len / 3) + 4 ≤ hi) : Writes lo hi (fun _ => True) (encodePart src out len) := by
  refine .bind (Q := fun _ => True) ?_ fun byte1 _ => .bind (reads _ lo hi) fun byte0 _ => ?_
  · unfold byteOrZero
    split
    · exact reads _ lo hi
    · exact .pure trivial
  · refine .bind (.store _ (by omega) (by omega)) fun _ _ => .bind (.store _ (by omega) (by omega)) fun _ _ => ?_
    exact .bind (.store _ (by omega) (by omega)) fun _ _ => .store _ (by omega) (by omega)

/-- Encoding stays inside the encoded size. -/
theorem rbpgBase64Encode_writes (reads : ReadOnly src) {lo hi out len : Nat} (low : lo ≤ out)
    (high : out + base64EncodedSize len ≤ hi) : Writes lo hi (fun _ => True) (rbpgBase64Encode src out len) := by
  unfold base64EncodedSize at high
  unfold rbpgBase64Encode
  split
  · exact .bind (encodePart_writes reads low (by omega)) fun _ _ => encodeGroups_writes reads low (by omega)
  · exact encodeGroups_writes reads low (by omega)

/-- How many bytes up to four characters give. -/
def sextetBytes (a b c d : UInt8) : Nat :=
  if a ≠ 0xff ∧ b ≠ 0xff then if c ≠ 0xff then if d ≠ 0xff then 3 else 2 else 1 else 0

theorem storeSextets_writes {lo hi out : Nat} {a b c d : UInt8} (low : lo ≤ out)
    (high : out + sextetBytes a b c d ≤ hi) :
    Writes lo hi (fun r => r = out + sextetBytes a b c d) (storeSextets out a b c d) := by
  unfold storeSextets
  unfold sextetBytes at *
  split
  · rename_i two
    simp only [two, ne_eq, not_false_eq_true, and_self, if_true] at high ⊢
    refine .bind (.store _ (by omega) (by split at high <;> (try split at high) <;> omega)) fun _ _ => ?_
    split
    · rename_i three
      simp only [three, not_false_eq_true, if_true] at high ⊢
      refine .bind (.store _ (by omega) (by split at high <;> omega)) fun _ _ => ?_
      split
      · rename_i four
        simp only [four, not_false_eq_true, if_true] at high ⊢
        exact .bind (.store _ (by omega) (by omega)) fun _ _ => .pure rfl
      · exact .pure rfl
    · exact .pure rfl
  · exact .pure rfl

theorem fourSextets_writes (reads : ReadOnly src) {lo hi len inPtr : Nat} :
    Writes lo hi (fun r => r.isSome = true → inPtr + 4 ≤ len) (fourSextets src len inPtr) := by
  unfold fourSextets
  split
  · refine .bind (reads _ lo hi) fun _ _ => .bind (reads _ lo hi) fun _ _ => .bind (reads _ lo hi) fun _ _ =>
      .bind (reads _ lo hi) fun _ _ => ?_
    dsimp only
    split
    · exact .pure fun _ => by omega
    · exact .pure fun some => by cases some
  · exact .pure fun some => by cases some

theorem scanSextet_writes (reads : ReadOnly src) {lo hi len fuel inPtr : Nat} (inside : inPtr < len) :
    Writes lo hi (fun r => inPtr < r.2 ∧ r.2 ≤ len) (scanSextet src len fuel inPtr) := by
  induction fuel generalizing inPtr with
  | zero => exact .raise _
  | succ fuel ih =>
    refine .bind (reads _ lo hi) fun c _ => ?_
    dsimp only
    split
    · rename_i more
      exact (ih more.2).mono (Nat.le_refl _) (Nat.le_refl _) fun r h => ⟨by omega, h.2⟩
    · exact .pure ⟨by simp, by simp only; omega⟩

theorem nextSextet_writes (reads : ReadOnly src) {lo hi len inPtr : Nat} (inside : inPtr ≤ len) :
    Writes lo hi (fun r => inPtr ≤ r.2 ∧ r.2 ≤ len ∧ (r.1 ≠ 0xff → inPtr < r.2)) (nextSextet src len inPtr) := by
  unfold nextSextet
  split
  · rename_i more
    exact (scanSextet_writes reads more).mono (Nat.le_refl _) (Nat.le_refl _) fun r h => ⟨by omega, h.2, fun _ => h.1⟩
  · exact .pure ⟨Nat.le_refl _, inside, fun given => absurd rfl given⟩

/-- `n` bytes take more than `n` characters. -/
theorem sextetBytes_le {len p : Nat} {ra rb rc rd : UInt8 × Nat}
    (ha : p ≤ ra.2 ∧ ra.2 ≤ len ∧ (ra.1 ≠ 0xff → p < ra.2))
    (hb : ra.2 ≤ rb.2 ∧ rb.2 ≤ len ∧ (rb.1 ≠ 0xff → ra.2 < rb.2))
    (hc : rb.2 ≤ rc.2 ∧ rc.2 ≤ len ∧ (rc.1 ≠ 0xff → rb.2 < rc.2))
    (hd : rc.2 ≤ rd.2 ∧ rd.2 ≤ len ∧ (rd.1 ≠ 0xff → rc.2 < rd.2)) :
    4 * sextetBytes ra.1 rb.1 rc.1 rd.1 ≤ 3 * (rd.2 - p) := by
  unfold sextetBytes
  split
  · rename_i two
    have first := ha.2.2 two.1
    have second := hb.2.2 two.2
    split
    · rename_i three
      have third := hc.2.2 three
      split
      · rename_i four
        have fourth := hd.2.2 four
        omega
      · omega
    · omega
  · omega

/-- What the loop has written is at most three quarters of what it has read. -/
theorem decodeLoop_writes (reads : ReadOnly src) {out len fuel inPtr outPtr : Nat} (low : out ≤ outPtr)
    (inside : inPtr ≤ len) (ratio : 4 * (outPtr - out) ≤ 3 * inPtr) :
    Writes out (out + 3 * len / 4) (fun r => out ≤ r ∧ 4 * (r - out) ≤ 3 * len)
      (decodeLoop src len fuel inPtr outPtr) := by
  induction fuel generalizing inPtr outPtr with
  | zero => exact .raise _
  | succ fuel ih =>
    refine .bind (fourSextets_writes reads) fun four read => ?_
    match four with
    | some (a, b, c, d) =>
      have taken : inPtr + 4 ≤ len := read rfl
      have bytes : sextetBytes a b c d ≤ 3 := by unfold sextetBytes; split <;> (try split) <;> (try split) <;> omega
      refine .bind (storeSextets_writes low (by omega)) fun next stored => ?_
      exact ih (by omega) (by omega) (by omega)
    | none =>
      dsimp only
      split
      · refine .bind (nextSextet_writes reads inside) fun ra ha => ?_
        refine .bind (nextSextet_writes reads ha.2.1) fun rb hb => ?_
        refine .bind (nextSextet_writes reads hb.2.1) fun rc hc => ?_
        refine .bind (nextSextet_writes reads hc.2.1) fun rd hd => ?_
        have bytes : 4 * sextetBytes ra.1 rb.1 rc.1 rd.1 ≤ 3 * (rd.2 - inPtr) := sextetBytes_le ha hb hc hd
        refine .bind (storeSextets_writes low (by omega)) fun next stored => ?_
        exact ih (by omega) (by omega) (by omega)
      · exact .pure ⟨low, by omega⟩

/-- Decoding `len` characters writes at most three quarters of `len`, and returns how much. -/
theorem rbpgBase64Decode_writes (reads : ReadOnly src) {out len : Nat} :
    Writes out (out + 3 * len / 4) (fun r => 4 * r ≤ 3 * len) (rbpgBase64Decode src out len) :=
  .bind (decodeLoop_writes reads (Nat.le_refl _) (Nat.zero_le _) (by omega)) fun _ h => .pure h.2

end Bounds

section Ending

variable {src}

/-- Reading the input always succeeds. -/
def Readable (src : Nat → Writer Stop UInt8) : Prop := ∀ i, Ends (fun _ _ => True) (src i)

theorem readable_load (out : Nat) : Readable fun i => Writer.load (out + i) := fun _ => .load _

theorem encodeGroups_ends (readable : Readable src) (out g : Nat) :
    Ends (fun _ w => 0 < g → out + 4 * g - 1 ∈ w) (encodeGroups src out g) := by
  induction g with
  | zero => exact .pure fun positive => absurd positive (by omega)
  | succ g ih =>
    refine .bind (readable _) fun byte2 _ _ => .bind (readable _) fun byte1 _ _ => .bind (readable _) fun byte0 _ _ => ?_
    refine .bind (.store _ _) fun _ w last => .bind (.store _ _) fun _ _ _ => .bind (.store _ _) fun _ _ _ =>
      .bind (.store _ _) fun _ _ _ => ih.mono fun _ _ _ _ => ?_
    have index : out + 4 * (g + 1) - 1 = out + 4 * g + 3 := by omega
    rw [index]
    simp [last]

/-- Encoding returns, and writes the last byte of the encoded size. -/
theorem rbpgBase64Encode_ends (readable : Readable src) (out len : Nat) :
    Ends (fun _ w => 0 < len → out + base64EncodedSize len - 1 ∈ w) (rbpgBase64Encode src out len) := by
  unfold base64EncodedSize rbpgBase64Encode
  split
  · rename_i part
    have index : out + (len + 2) / 3 * 4 - 1 = out + 4 * (len / 3) + 3 := by omega
    rw [index]
    refine .bind (P := fun _ w => out + 4 * (len / 3) + 3 ∈ w) ?_ fun _ w last =>
      (encodeGroups_ends readable out _).mono fun _ _ _ _ => List.mem_append_right _ last
    refine .bind (P := fun _ _ => True) ?_ fun byte1 _ _ => .bind (readable _) fun byte0 _ _ => ?_
    · unfold byteOrZero
      split
      · exact readable _
      · exact .pure trivial
    · refine .bind (.store _ _) fun _ w last => .bind (.store _ _) fun _ _ _ => .bind (.store _ _) fun _ _ _ =>
        (Ends.store _ _).mono fun _ _ _ => ?_
      simp [last]
  · have index : out + (len + 2) / 3 * 4 - 1 = out + 4 * (len / 3) - 1 := by omega
    rw [index]
    exact (encodeGroups_ends readable out _).mono fun _ _ last positive => last (by omega)

theorem scanSextet_ends (readable : Readable src) {len fuel inPtr : Nat} (inside : inPtr < len)
    (enough : len - inPtr ≤ fuel) : Ends (fun r _ => inPtr < r.2 ∧ r.2 ≤ len) (scanSextet src len fuel inPtr) := by
  induction fuel generalizing inPtr with
  | zero => omega
  | succ fuel ih =>
    refine .bind (readable _) fun c _ _ => ?_
    dsimp only
    split
    · rename_i more
      exact (ih more.2 (by omega)).mono fun r _ h => ⟨by omega, h.2⟩
    · exact .pure ⟨by simp, by simp only; omega⟩

theorem nextSextet_ends (readable : Readable src) {len inPtr : Nat} (inside : inPtr ≤ len) :
    Ends (fun r _ => inPtr ≤ r.2 ∧ r.2 ≤ len ∧ (inPtr < len → inPtr < r.2)) (nextSextet src len inPtr) := by
  unfold nextSextet
  split
  · rename_i more
    exact (scanSextet_ends readable more (Nat.le_refl _)).mono fun r _ h => ⟨by omega, h.2, fun _ => h.1⟩
  · exact .pure ⟨Nat.le_refl _, inside, fun less => by omega⟩

theorem storeSextets_ends (out : Nat) (a b c d : UInt8) : Ends (fun _ _ => True) (storeSextets out a b c d) := by
  unfold storeSextets
  split
  · refine .bind (.store _ _) fun _ _ _ => ?_
    split
    · refine .bind (.store _ _) fun _ _ _ => ?_
      split
      · exact .bind (.store _ _) fun _ _ _ => .pure trivial
      · exact .pure trivial
    · exact .pure trivial
  · exact .pure trivial

theorem fourSextets_ends (readable : Readable src) (len inPtr : Nat) :
    Ends (fun r _ => r.isSome = true → inPtr + 4 ≤ len) (fourSextets src len inPtr) := by
  unfold fourSextets
  split
  · refine .bind (readable _) fun _ _ _ => .bind (readable _) fun _ _ _ => .bind (readable _) fun _ _ _ =>
      .bind (readable _) fun _ _ _ => ?_
    dsimp only
    split
    · exact .pure fun _ => by omega
    · exact .pure fun some => by cases some
  · exact .pure fun some => by cases some

theorem decodeLoop_ends (readable : Readable src) {len fuel inPtr : Nat} (enough : len - inPtr < fuel) (outPtr : Nat) :
    Ends (fun _ _ => True) (decodeLoop src len fuel inPtr outPtr) := by
  induction fuel generalizing inPtr outPtr with
  | zero => omega
  | succ fuel ih =>
    refine .bind (fourSextets_ends readable len inPtr) fun four _ read => ?_
    match four with
    | some (a, b, c, d) =>
      have taken : inPtr + 4 ≤ len := read rfl
      exact .bind (storeSextets_ends _ _ _ _ _) fun next _ _ => ih (by omega) next
    | none =>
      dsimp only
      split
      · rename_i more
        refine .bind (nextSextet_ends readable (Nat.le_of_lt more)) fun ra _ ha => ?_
        refine .bind (nextSextet_ends readable ha.2.1) fun rb _ hb => ?_
        refine .bind (nextSextet_ends readable hb.2.1) fun rc _ hc => ?_
        refine .bind (nextSextet_ends readable hc.2.1) fun rd _ hd => ?_
        have first := ha.2.2 more
        exact .bind (storeSextets_ends _ _ _ _ _) fun next _ _ => ih (by omega) next
      · exact .pure trivial

/-- Decoding always comes to its end. -/
theorem rbpgBase64Decode_ends (readable : Readable src) (out len : Nat) :
    Ends (fun _ _ => True) (rbpgBase64Decode src out len) :=
  .bind (decodeLoop_ends readable (by omega) out) fun _ _ _ => .pure trivial

end Ending

end RubyPg
