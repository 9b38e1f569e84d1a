import RubyPg.Sql.StringConstant
import RubyPg.Text.InPlace

/-!
# `PG::TextEncoder::QuotedLiteral`

`quote_literal_buffer` and `pg_text_enc_quoted_literal` of `ext/pg_text_encoder.c`, and what the server
reads in the literal. Only quotes are doubled and no `E` is put in front, as `PQescapeLiteral` does for
backslashes.
-/

namespace RubyPg.Text
set_option autoImplicit false
open Ascii

/-- `quote_literal_buffer`: the end quote, the characters from right to left with the quotes doubled,
the start quote. -/
def quoteLiteralBuffer (input : Bytes) : Bytes := quote :: escapeBack literalSpecial (fun _ => quote) input.reverse [quote]

/-- `pg_text_enc_quoted_literal`. -/
def pgTextEncQuotedLiteral (this : CompositeCoder) : Encoder := fun value => do
  let outStr ← quoteString this.elem value this.needsQuotation quoteLiteralBuffer
  pure (.string outStr)

/-- What the function writes in memory. -/
theorem literalReference_eq (word : Bytes) : literalReference word = quoteLiteralBuffer word := by
  rw [quoteLiteralBuffer, escapeBack_eq, List.reverse_reverse]
  rfl

theorem quoteLiteralBuffer_eq (word : Bytes) : quoteLiteralBuffer word = quote :: Sql.doubled word ++ [quote] := by
  rw [← literalReference_eq, literalReference]
  have same : (fun c => if c = quote then [quote, quote] else [c]) = markEsc literalSpecial fun _ => quote := by
    funext c
    by_cases isQuote : c = quote <;> simp [markEsc, literalSpecial, isQuote]
  rw [← same]
  rfl

theorem encode_quotedLiteral (rt : Runtime) (s : Bytes) :
    (pgTextEncQuotedLiteral { elem := pgCoderEncToS rt }).encode (.str s) = .ok (quote :: Sql.doubled s ++ [quote]) := by
  rw [← quoteLiteralBuffer_eq]
  rfl

/-- A string in a literal is read as itself by this server exactly if it has no backslash or
`standard_conforming_strings` is on. -/
theorem isConstant_literal_iff {rt : Runtime} {server : Sql.Server} {s out : Bytes}
    (encoded : (pgTextEncQuotedLiteral { elem := pgCoderEncToS rt }).encode (.str s) = .ok out) :
    Sql.IsConstant server out s ↔ (server.standardConformingStrings = false → backslash ∉ s) := by
  rw [encode_quotedLiteral] at encoded
  cases encoded
  exact Sql.isConstant_doubled_iff

/-- A server whose encoding has ASCII only. -/
def asciiServer (standardConformingStrings : Bool) : Sql.Server where
  standardConformingStrings
  backslashQuote := true
  fromUnicode c := if c < 128 then some [c.toUInt8] else none
  fromUnicode_length c bytes converted := by
    split at converted <;> cases converted
    rw [List.length_singleton]
    omega

/-- **A quoted literal** is one string constant that denotes the string on every server, whatever its
settings, exactly if the string has no backslash. -/
theorem quoted_literal_safe_iff (rt : Runtime) (s : Bytes) :
    (∃ out, (pgTextEncQuotedLiteral { elem := pgCoderEncToS rt }).encode (.str s) = .ok out ∧
      ∀ server, Sql.IsConstant server out s) ↔ backslash ∉ s := by
  constructor
  · rintro ⟨out, encoded, constant⟩
    exact (isConstant_literal_iff encoded).1 (constant (asciiServer false)) rfl
  · intro plain
    refine ⟨_, encode_quotedLiteral rt s, fun server => ?_⟩
    exact (isConstant_literal_iff (encode_quotedLiteral rt s)).2 fun _ => plain

/-- Without `standard_conforming_strings` the backslash takes one of the quotes away from the string
`\' OR 1=1 --`: the constant ends there, and the rest is SQL. -/
theorem quoted_literal_injected :
    (pgTextEncQuotedLiteral { elem := pgCoderEncToS .sample }).encode
        (.str [0x5c, 0x27, 0x20, 0x4f, 0x52, 0x20, 0x31, 0x3d, 0x31, 0x20, 0x2d, 0x2d]) =
      .ok [0x27, 0x5c, 0x27, 0x27, 0x20, 0x4f, 0x52, 0x20, 0x31, 0x3d, 0x31, 0x20, 0x2d, 0x2d, 0x27] ∧
    Sql.stringConstant (asciiServer false)
        [0x27, 0x5c, 0x27, 0x27, 0x20, 0x4f, 0x52, 0x20, 0x31, 0x3d, 0x31, 0x20, 0x2d, 0x2d, 0x27] =
      some ([0x27], [0x20, 0x4f, 0x52, 0x20, 0x31, 0x3d, 0x31, 0x20, 0x2d, 0x2d, 0x27]) ∧
    ¬Sql.IsConstant (asciiServer false)
        [0x27, 0x5c, 0x27, 0x27, 0x20, 0x4f, 0x52, 0x20, 0x31, 0x3d, 0x31, 0x20, 0x2d, 0x2d, 0x27]
        [0x5c, 0x27, 0x20, 0x4f, 0x52, 0x20, 0x31, 0x3d, 0x31, 0x20, 0x2d, 0x2d] := by
  refine ⟨by decide, by decide, fun constant => ?_⟩
  exact absurd (constant [] Sql.not_goesOn_nil) (by decide)

end RubyPg.Text
