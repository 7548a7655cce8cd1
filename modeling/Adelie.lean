import Adelie.Exec.HashJoin
import Adelie.Exec.Swapped
import Adelie.Sql.Scoping
import Adelie.Storage.Zone
import Adelie.Manifest.Altered
import Adelie.Manifest.Covered
import Adelie.Manifest.Follows
import Adelie.Manifest.Sourced
import Adelie.Storage.Compaction
import Adelie.Storage.Resurrect
import Adelie.Storage.Reverted
import Adelie.Storage.Scanned
import Adelie.Storage.Skip
import Adelie.Store.Reopen
import Adelie.Types.Fit
import Adelie.Types.Preorder
import Adelie.Types.Text
import Adelie.Storage.Ledger
import Adelie.Storage.Append
import Adelie.Storage.Arrival
import Adelie.Sql.Deleted
import Adelie.Types.Lawful
import Adelie.Exec.GroupKey
import Adelie.Segment.Writer
import Adelie.Exec.Trimming
import Adelie.Exec.Window
import Adelie.Types.Lossless
import Adelie.Types.RoundTrip
import Adelie.Exec.Building
import Adelie.Exec.Like
import Adelie.Exec.Budget
import Adelie.Exec.Hll
import Adelie.Exec.Cast
import Adelie.Exec.Casting
import Adelie.Exec.Arith
import Adelie.Exec.Arithmetic
import Adelie.Exec.Sums
import Adelie.Exec.Summing
import Adelie.Exec.TopK
import Adelie.Exec.Heavy
import Adelie.Exec.Frequent
import Adelie.Exec.Finishing
import Adelie.Lib.Times
import Adelie.Exec.Regexp
import Adelie.Exec.Thompson
import Adelie.Exec.Compiled
import Adelie.Exec.Pike
import Adelie.Exec.Matching
import Adelie.Exec.Sized
import Adelie.Segment.Codec
import Adelie.Lib.Fresh
import Adelie.Manifest.Ids
import Adelie.Lib.Calendar
import Adelie.Types.CivilDate
import Adelie.Exec.Time
import Adelie.Exec.Extracting
import Adelie.Lib.Boundary
import Adelie.Exec.Bucketing
import Adelie.Sql.Csv
import Adelie.Lib.Bits
import Adelie.Lib.Runs
import Adelie.Segment.Bitpack
import Adelie.Segment.Nulls
import Adelie.Segment.IntLike
import Adelie.Segment.Xor
import Adelie.Segment.Dict
import Adelie.Exec.Parts
import Adelie.Segment.Encode
import Adelie.Lib.Utf8
import Adelie.Sql.Lexer
import Adelie.Sql.Lexing
import Adelie.Sql.Spelling
import Adelie.Sql.Written
import Adelie.Sql.Json
import Adelie.Sql.JsonText
import Adelie.Sql.JsonParsing
import Adelie.Sql.JsonValues
import Adelie.Sql.JsonLine
import Adelie.Exec.Sampled
import Adelie.Segment.Encoded
import Adelie.Segment.Chunk
import Adelie.Segment.Footer
import Adelie.Segment.Reader
import Adelie.Segment.Laid
import Adelie.Exec.Pushed
import Adelie.Segment.File
import Adelie.Segment.Blob
