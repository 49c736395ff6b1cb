import ScriptLiteral.Datum.Basic
import ScriptLiteral.Datum.Convert
import ScriptLiteral.Decimal
import ScriptLiteral.Digits
import ScriptLiteral.Double.Basic
import ScriptLiteral.Double.Shortest
import ScriptLiteral.HostObject
import ScriptLiteral.Json.Basic
import ScriptLiteral.Json.Error
import ScriptLiteral.Json.Number
import ScriptLiteral.Json.Numeral
import ScriptLiteral.Json.Quoted
import ScriptLiteral.Json.Reader
import ScriptLiteral.Literal.Draft
import ScriptLiteral.Literal.Emit
import ScriptLiteral.Literal.Quoted
import ScriptLiteral.Literal.Sources
import ScriptLiteral.MachineInt
import ScriptLiteral.OrderedMap
import ScriptLiteral.Rank
import ScriptLiteral.Value
import ScriptLiteral.Proofs.BuilderHistory
import ScriptLiteral.Proofs.Composition
import ScriptLiteral.Proofs.DatumCalls
import ScriptLiteral.Proofs.Emission
import ScriptLiteral.Proofs.Equality
import ScriptLiteral.Proofs.EquivalentData
import ScriptLiteral.Proofs.Failure
import ScriptLiteral.Proofs.FifteenDigits
import ScriptLiteral.Proofs.FloatText
import ScriptLiteral.Proofs.IndexedHistory
import ScriptLiteral.Proofs.Instants
import ScriptLiteral.Proofs.IntegerKeys
import ScriptLiteral.Proofs.JsonAcceptance
import ScriptLiteral.Proofs.JsonDecimals
import ScriptLiteral.Proofs.JsonIntegers
import ScriptLiteral.Proofs.JsonLiteral
import ScriptLiteral.Proofs.JsonLookahead
import ScriptLiteral.Proofs.JsonNumbers
import ScriptLiteral.Proofs.JsonPosition
import ScriptLiteral.Proofs.JsonReading
import ScriptLiteral.Proofs.JsonRoutes
import ScriptLiteral.Proofs.JsonText
import ScriptLiteral.Proofs.JsonTokens
import ScriptLiteral.Proofs.MapHistory
import ScriptLiteral.Proofs.Nearest
import ScriptLiteral.Proofs.PlainNumber
import ScriptLiteral.Proofs.PlainValue
import ScriptLiteral.Proofs.PropertyNames
import ScriptLiteral.Proofs.ReadBack
import ScriptLiteral.Proofs.Reader
import ScriptLiteral.Proofs.ReducedNumber
import ScriptLiteral.Proofs.Replacing
import ScriptLiteral.Proofs.SelfDelimiting
import ScriptLiteral.Proofs.Settled
import ScriptLiteral.Proofs.Shape
import ScriptLiteral.Proofs.ShortestDecimal
import ScriptLiteral.Proofs.Term
import ScriptLiteral.Proofs.TextBytes
import ScriptLiteral.Proofs.Trace
import ScriptLiteral.Proofs.VariantTags
import ScriptLiteral.Proofs.Walk
import ScriptLiteral.Proofs.WideIntegers
import ScriptLiteral.Proofs.Widening
import ScriptLiteral.Proofs.Wrappers
