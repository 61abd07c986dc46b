import ScorePortfolio.Market.Asset
import ScorePortfolio.Series.Cut
import ScorePortfolio.Text.Quoted
import ScorePortfolio.Entries

/-!
# Market clients

A client knows a universe of assets, and answers queries for the series of a field of an asset as of
a moment.  How a query can fail is listed here once for all clients.
-/

namespace ScorePortfolio

/-- The kind of failure of a source of market data. -/
inductive SourceKind where
  /-- The source cannot be reached. -/
  | connection
  /-- The source refuses the value of the request. -/
  | value
  /-- The source does not know the key of the request. -/
  | key
  /-- The source delivers no valid series. -/
  | series
deriving DecidableEq, Repr

/-- Why a client has no answer. -/
inductive ClientError where
  /-- There is no asset with the symbol. -/
  | assetNotFound (symbol : String)
  /-- There is no such field, but others are available. -/
  | unknownField (field : String) (available : List String)
  /-- The field has no column for the asset. -/
  | noData (field symbol : String)
  /-- The column is no series. -/
  | series (cause : SeriesError)
  /-- A date of the column lies beyond the range of an index. -/
  | dateOutOfRange (cause : OutOfRange)
  /-- The moment of the query lies beyond the range of an index. -/
  | momentOutOfRange (cause : OutOfRange)
  /-- There is no relative price change at exactly the moment. -/
  | noChange (t : Option Instant)
  /-- The source of the data fails. -/
  | source (kind : SourceKind) (message : String)
deriving DecidableEq

namespace ClientError

/-- The message for an unknown symbol. -/
def assetNotFoundText (symbol : String) : String := s!"Asset with symbol '{symbol}' not found"

/-- The text of an error. -/
def text : ClientError → String
  | assetNotFound symbol => assetNotFoundText symbol
  | unknownField field available =>
    Text.quoted (s!"Unknown field '{field}'; available: " ++ Text.quotedList available)
  | noData field symbol => Text.quoted s!"Field '{field}' has no data for {symbol}"
  | series cause => cause.message
  | dateOutOfRange cause => s!"Out of bounds nanosecond timestamp: {cause.instant.text}"
  | momentOutOfRange cause =>
    s!"Cannot cast {cause.instant.text} to unit='ns' without overflow."
  | noChange t => s!"no relative price change at {Instant.textOf t}"
  | source .key message => Text.quoted message
  | source _ message => message

end ClientError

/-- A source of market data. -/
structure Client (α : Type) where
  /-- The universe, by symbol. -/
  assets : List (String × Asset)
  /-- The asset of a symbol. -/
  asset : String → Except ClientError Asset
  /-- The series of a field of an asset as of a moment; without a field, of the default one. -/
  query : Asset → Option Instant → Option String → Except ClientError (Series α)

namespace Client

variable {α : Type}

/-- The universe in the order of the symbols. -/
def sortedAssets (c : Client α) : List Asset := Asset.sort (c.assets.map (·.2))

/-- A client that takes every symbol for an asset, and fails every query. -/
def failing (symbols : List String) (error : ClientError) : Client α where
  assets := Entries.ofList (· == ·) (symbols.map fun s ↦ (s, ⟨s⟩))
  asset symbol := .ok ⟨symbol⟩
  query _ _ _ := .error error

end Client

end ScorePortfolio
