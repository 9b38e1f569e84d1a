import RubyPg.Lib.Regex
import RubyPg.Sql.Lexer

/-!
# `PG::Connection#embed_params`

`PLACEHOLDER_RE` and `embed_params` of `lib/pg/connection.rb`, with `query_param_encoders` of
`ext/pg_type_map.c`. The parameters are rendered first; then one `gsub` over the SQL text puts
them in the place of the matches that captured a placeholder.
-/

namespace RubyPg.Query
set_option autoImplicit false
open Ascii Sql Regex

/-- `[A-Za-z_]`. -/
def tagStart (c : UInt8) : Bool := identStart c && decide (c < 0x80)

/-- `[A-Za-z_0-9]`. -/
def tagCont (c : UInt8) : Bool := dolqCont c && decide (c < 0x80)

/-- `.` of a multi-line expression. -/
def anyChar : Regex UInt8 := .set fun _ => true

/-- `'(?:''|[^'])*'` and the same for double quotes. -/
def quotedRe (mark : UInt8) : Regex UInt8 :=
  seq (word [mark]) (seq (star (alt (word [mark, mark]) (set (· != mark)))) (word [mark]))

/-- `--[^\n]*` -/
def lineCommentRe : Regex UInt8 := seq (word [minus, minus]) (star (set (· != newline)))

/-- `\/\*.*?\*\/` -/
def blockCommentRe : Regex UInt8 :=
  seq (word [slash, asterisk]) (seq (lazyStar anyChar) (word [asterisk, slash]))

/-- `\$\$.*?\$\$` -/
def dollarQuotedRe : Regex UInt8 := seq (word [dollar, dollar]) (seq (lazyStar anyChar) (word [dollar, dollar]))

/-- `\$(?<__dq_tag>[A-Za-z_][A-Za-z_0-9]*)\$.*?\$\k<__dq_tag>\$` -/
def namedQuotedRe : Regex UInt8 :=
  seq (word [dollar]) (seq (group "__dq_tag" (seq (set tagStart) (star (set tagCont)))) (seq (word [dollar])
    (seq (lazyStar anyChar) (seq (word [dollar]) (seq (backref "__dq_tag") (word [dollar]))))))

/-- `(?<placeholder>\$(?:[1-9]\d*))` -/
def paramRe : Regex UInt8 :=
  group "placeholder" (seq (word [dollar]) (seq (set fun c => isDigit c && c != zero) (star (set isDigit))))

/-- `PLACEHOLDER_RE`. -/
def placeholderRe : Regex UInt8 :=
  alt (quotedRe quote) (alt (quotedRe dquote) (alt lineCommentRe (alt blockCommentRe (alt dollarQuotedRe
    (alt namedQuotedRe paramRe)))))

/-- A Hash as parameter: its entries, with the `to_s` of the value and of the type name. -/
structure EmbedHash where
  value : Option Bytes
  format : Option Int
  type : Option Int
  typename : Bytes

/-- A parameter. -/
inductive EmbedParam where
  | nil
  /-- `PG::BasicTypeMapForQueries::BinaryData`. -/
  | binaryData (s : Bytes)
  | hash (h : EmbedHash)
  /-- Any other object, by its `to_s`. -/
  | other (toS : Bytes)

/-- A coder that a type map has for a parameter. -/
structure EmbedEncoder where
  format : Int
  oid : Int
  name : Bytes
  inspect : String
  encode : EmbedParam → Outcome Bytes

/-- The functions of the type map that are called. -/
structure EmbedTypeMap where
  fitToQuery : List EmbedParam → Outcome Unit
  typecastQueryParam : EmbedParam → Nat → Option EmbedEncoder

/-- The methods of the connection that are called. -/
structure Escaping where
  escape : Bytes → Outcome Bytes
  escapeBytea : Bytes → Outcome Bytes

/-- `pg_typemap_query_param_encoders`. -/
def queryParamEncoders (typeMap : EmbedTypeMap) (params : List EmbedParam) : Outcome (List (Option EmbedEncoder)) := do
  typeMap.fitToQuery params
  pure (params.zipIdx.map fun (param, i) => typeMap.typecastQueryParam param i)

/-- `oid_to_typecast`. -/
def oidToTypecast (oid : Option Int) (tname : Bytes) (errtext : String) : Outcome Bytes :=
  match oid with
  | none => pure []
  | some oid =>
    if 0 < oid then
      if tname = [] then rbRaise .argumentError s!"Database type name of OID {oid} missing{errtext}"
      else pure (colon :: colon :: tname)
    else pure []

/-- The bytes of `"bytea"`. -/
def byteaName : Bytes := [0x62, 0x79, 0x74, 0x65, 0x61]

/-- A string between apostrophes. -/
def embedQuoted (inside : Bytes) : Bytes := quote :: inside ++ [quote]

/-- A Hash without a coder. -/
def renderHash (conn : Escaping) (h : EmbedHash) : Outcome Bytes := do
  let typename ←
    if h.format = some 1 ∧ h.type = some 17 then pure (colon :: colon :: byteaName)
    else oidToTypecast h.type h.typename " - please set parameter key :typename"
  match h.value with
  | none => pure (null ++ typename)
  | some value =>
    if h.format = some 1 then
      match h.type with
      | some oid =>
        if oid ≠ 17 then
          rbRaise .argumentError s!"binary encoded parameter with OID {oid} cannot be inserted into SQL text"
        else pure (embedQuoted (← conn.escapeBytea value) ++ typename)
      | none => pure (embedQuoted (← conn.escapeBytea value) ++ typename)
    else pure (embedQuoted (← conn.escape value) ++ typename)

/-- One parameter as SQL text. -/
def renderParam (conn : Escaping) (enc : Option EmbedEncoder) (value : EmbedParam) : Outcome Bytes :=
  match value, enc with
  | .nil, _ => pure null
  | .binaryData s, _ => do pure (embedQuoted (← conn.escapeBytea s))
  | value, some enc => do
    let inspected := enc.inspect
    if enc.format ≠ 0 then
      rbRaise .argumentError s!"binary encoded parameter from {inspected} cannot be inserted into SQL text"
    else do
      let inside ← conn.escape (← enc.encode value)
      let typename ← oidToTypecast (some enc.oid) enc.name s!" - please set name of encoder {inspected}"
      pure (embedQuoted inside ++ typename)
  | .hash h, none => renderHash conn h
  | .other toS, none => do pure (embedQuoted (← conn.escape toS))

/-- All parameters. -/
def renderParams (conn : Escaping) (encoders : List (Option EmbedEncoder)) (params : List EmbedParam) :
    Outcome (List Bytes) :=
  encoders.zipIdx.mapM fun (enc, i) => renderParam conn enc (params.getD i .nil)

/-- The block of the `gsub`. A placeholder without a parameter gives `nil`, which is no text. -/
def replacePlaceholder (params : List Bytes) (matched : Found UInt8) : Bytes :=
  match matched.captures.lookup "placeholder" with
  | none => matched.taken
  | some placeholder => params.getD (readDigits 0 (placeholder.drop 1) - 1) []

/-- `embed_params`. -/
def embedParams (conn : Escaping) (typeMap : EmbedTypeMap) (sql : Bytes) (params : List EmbedParam) : Outcome Bytes := do
  if params.isEmpty then pure sql
  else
    let encoders ← queryParamEncoders typeMap params
    let params ← renderParams conn encoders params
    pure (placeholderRe.substitute (replacePlaceholder params) sql)

end RubyPg.Query
