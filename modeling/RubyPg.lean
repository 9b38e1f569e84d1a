import RubyPg.Text.Nested
import RubyPg.Query.ParamsPool
import RubyPg.Conn.DiscardResults
import RubyPg.Conn.CopyCoders
import RubyPg.Connect.Restarts
import RubyPg.TimestampAgreement
import RubyPg.TwoPass.Encoding
import RubyPg.TwoPass.Overflow
import RubyPg.TypeMap.ByOidCopies
import RubyPg.TypeMap.ByClass
import RubyPg.Binary.CopyRowFormat
import RubyPg.DateAgreement
import RubyPg.Text.InPlace
import RubyPg.Binary.ArrayRoundTrip
import RubyPg.Tuple.LazyView
import RubyPg.Text.ArrayBounds
import RubyPg.Text.ArrayStrict
import RubyPg.Binary.CopyRowLength
import RubyPg.Text.QuotedLiteral
import RubyPg.TwoPass.ArrayShape
import RubyPg.Binary.ArrayExact
import RubyPg.OutputWriters
import RubyPg.BasicTypeRegistry
import RubyPg.Result.Streaming
import RubyPg.Binary.TimeEncoders
import RubyPg.Binary.Integers
import RubyPg.Text.Identifier
import RubyPg.Text.ArrayDimensions
import RubyPg.Text.RecordGrammar
import RubyPg.Text.CopyRowCut
import RubyPg.TimestampInstant
import RubyPg.TwoPass.ArraySize
import RubyPg.Text.MultibyteEscaping
import RubyPg.Query.EmbedExactly
import RubyPg.Base64Unpack
import RubyPg.TwoPass.Base64Size
import RubyPg.Text.IntegerLong
import RubyPg.TwoPass.FloatDigits
import RubyPg.Text.InetRoundTrip
import RubyPg.Connect.Conninfo
import RubyPg.TypeMap.WideRows
import RubyPg.TypeMap.ForQueries
import RubyPg.Text.LeadingZeros
import RubyPg.TwoPass.FloatLayout
import RubyPg.TypeMap.ByMriType
import RubyPg.CoderMap
import RubyPg.Conn.Exec
import RubyPg.Conn.ExecAnswers
import RubyPg.Conn.ExecResults
import RubyPg.Conn.Flushing
import RubyPg.Conn.Transaction
import RubyPg.Conn.Notifications
import RubyPg.Errors
import RubyPg.TypeMap.WarningTypeMap
import RubyPg.TypeMap.QueryChain
