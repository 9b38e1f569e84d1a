import RubyPg.Coder

/-!
# Type maps

A type map as `struct pg_typemap_funcs` has it: function pointers for the two uses the
row coders make of it. `PG::TypeMapAllStrings` is the default map; `PG::TypeMapByColumn`
has one coder per column and falls back to its default map where it has none.
-/

namespace RubyPg
set_option autoImplicit false

/-- The functions that choose encoders for the columns of a row. -/
structure EncoderMap where
  fitToQuery : Value → Outcome Unit
  typecastQueryParam : Value → Nat → Encoder

/-- The function that decodes the columns of a row. -/
structure DecoderMap where
  typecastCopyGet : Bytes → Nat → Outcome Value

/-- `PG::TypeMapAllStrings` on the encoding side: no coder, hence `pg_coder_enc_to_s`. -/
def EncoderMap.allStrings (rt : Runtime) : EncoderMap where
  fitToQuery _ := pure ()
  typecastQueryParam _ _ := pgCoderEncToS rt

/-- `pg_tmas_typecast_copy_get`: the field itself. -/
def DecoderMap.allStrings : DecoderMap where
  typecastCopyGet fieldStr _ := pure (.str fieldStr)

/-- `PG::TypeMapByColumn` on the encoding side (`pg_tmbc_fit_to_query`,
`pg_tmbc_typecast_query_param`). -/
def EncoderMap.byColumn (convs : List (Option Encoder)) (defaultTm : EncoderMap) : EncoderMap where
  fitToQuery
    | .ary params =>
      if convs.length ≠ params.length then
        let nfields := params.length
        let columns := convs.length
        rbRaise .argumentError
          s!"number of result fields ({nfields}) does not match number of mapped columns ({columns})"
      else defaultTm.fitToQuery (.ary params)
    | _ => rbRaise .typeError "wrong argument type (expected Array)"
  typecastQueryParam paramValue field :=
    (convs.getD field none).getD (defaultTm.typecastQueryParam paramValue field)

/-- `PG::TypeMapByColumn` on the decoding side (`pg_tmbc_typecast_copy_get`). -/
def DecoderMap.byColumn (convs : List (Option Decoder)) (defaultTm : DecoderMap) : DecoderMap where
  typecastCopyGet fieldStr fieldno :=
    if convs.length ≤ fieldno then
      let columns := convs.length
      rbRaise .argumentError
        s!"number of copy fields ({fieldno}) exceeds number of mapped columns ({columns})"
    else
      match convs.getD fieldno none with
      | none => defaultTm.typecastCopyGet fieldStr fieldno
      | some decFunc => decFunc fieldStr

end RubyPg
