import Secondary.Lib.Fallible
import Secondary.Lib.Comparator
import Secondary.Lib.Bucket
import Secondary.Lib.Store
import Secondary.Fault
import Secondary.Skiplist.Basic
import Secondary.Skiplist.Links
import Secondary.Skiplist.State
import Secondary.Index
import Secondary.IndexChange
import Secondary.IndexMap
import Secondary.Find
import Secondary.FindSpec
import Secondary.QueryExact
import Secondary.Skiplist.Memory
import Secondary.Released
import Secondary.Lib.Codec
import Secondary.Lib.Float
import Secondary.Rdb
import Secondary.RdbSpec
import Secondary.Into
import Secondary.IntoSpec
import Secondary.IntoUpdate
import Secondary.CursorSpec
import Secondary.Query.PlanExact
import Secondary.Aof
import Secondary.AofSpec
import Secondary.Lib.Grammar
import Secondary.Lib.Pattern
import Secondary.Lib.ShiftReduce
import Secondary.Parser.Ast
import Secondary.Parser.Conditions
import Secondary.Parser.Language
import Secondary.Parser.Precedence
import Secondary.Query.Parse
import Secondary.Query.ParseSpec
import Secondary.HashIndexSpec
import Secondary.KeyLaws
import Secondary.SchemaIndex
import Secondary.ValueVector
import Secondary.Skiplist.Sorted
import Secondary.BinarySafe
import Secondary.Query.LikePrefix
import Secondary.Ingest
import Secondary.Parser.Constants
import Secondary.IndexApply
import Secondary.Query.Types
import Secondary.TypeSafe
import Secondary.TypeSound
import Secondary.Cast
import Secondary.Query.Normalize
import Secondary.Query.PlanArrays
import Secondary.CursorMemory
import Secondary.SchemaSyntax
import Secondary.ProxySpec
import Secondary.Lib.RefCount
import Secondary.Query.CountedSpec
import Secondary.Parser.CountedSpec
import Secondary.SelectCounted
import Secondary.HashedIndex
import Secondary.Lib.Placed
import Secondary.Lib.Dialogue
import Secondary.Sessions
import Secondary.Parser.LexYYCalls
