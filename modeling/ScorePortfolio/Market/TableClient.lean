import ScorePortfolio.Market.Client
import ScorePortfolio.Market.Table
import ScorePortfolio.Log

/-!
# Clients over tables

A market is a table of prices with further fields.  The prices are the field `close`; their relative
changes are a field of their own.  A query cuts the full history of a column at its moment, so an
answer holds nothing from later.  `Market.queryCached` keeps histories for later queries, which
changes no answer.
-/

namespace ScorePortfolio

/-- The field of the prices. -/
def closeField : String := "close"

/-- The field of the relative price changes. -/
def changeField : String := "relative_price_change"

/-- Prices and further fields. -/
structure Market (α : Type) where
  /-- The prices; their labels make the universe. -/
  prices : Table α
  /-- The further fields; one named like the prices or their changes takes their place. -/
  fields : List (String × Table α)
  /-- The field that a query without one reads. -/
  defaultField : String

namespace Market

variable {α : Type}

/-- The market of prices and a list of fields in which names may repeat. -/
def ofTables (prices : Table α) (fields : List (String × Table α)) (defaultField : String) :
    Market α :=
  ⟨prices, Entries.ofList (· == ·) fields, defaultField⟩

/-- The label of each symbol; of labels with the same text the last one counts. -/
def labels (m : Market α) : List (String × Scalar) :=
  Entries.ofList (· == ·) (m.prices.columns.map fun (label, _) ↦ (label.asText, label))

/-- The universe, in the order of the columns. -/
def assets (m : Market α) : List (String × Asset) :=
  m.labels.map fun (symbol, _) ↦ (symbol, ⟨symbol⟩)

/-- The asset of a symbol. -/
def asset (m : Market α) (symbol : String) : Except ClientError Asset :=
  match m.assets.lookup symbol with
  | some a => .ok a
  | none => .error (.assetNotFound symbol)

/-- The names of all fields, in order. -/
def fieldNames (m : Market α) : List String :=
  (closeField :: changeField :: m.fields.map (·.1)).eraseDups.mergeSort (· ≤ ·)

/-- The record of a new market. -/
def record (m : Market α) : Record :=
  ⟨.info, s!"FrameDataClient: {m.assets.length} assets, {m.prices.dates.length} dates, " ++
    s!"fields={Text.quotedList m.fieldNames}"⟩

/-- The latest date of the prices. -/
def today (m : Market α) : Option Instant :=
  ((m.prices.dates.mergeSort Instant.missingLastLE).getLast?).join

variable [Quantity α]

/-- The cells of a field, by label; a field that is not there has none. -/
def items? (m : Market α) (field : String) :
    Option (Scalar → Option (List (Option Instant × α))) :=
  match m.fields.lookup field with
  | some table => some table.items?
  | none =>
    if field = closeField then some m.prices.items?
    else if field = changeField then some m.prices.changeItems?
    else none

/-- The full history of a field of an asset. -/
def history (m : Market α) (field : String) (asset : Asset) : Except ClientError (Series α) :=
  match m.labels.lookup asset.symbol with
  | none => .error (.assetNotFound asset.symbol)
  | some label =>
    match m.items? field with
    | none => .error (.unknownField field m.fieldNames)
    | some items =>
      match items label with
      | none => .error (.noData field asset.symbol)
      | some cells =>
        match Series.ofCells cells with
        | .ok s => .ok s
        | .error (.inl e) => .error (.dateOutOfRange e)
        | .error (.inr e) => .error (.series e)

/-- A history as of a moment. -/
def asOf (history : Series α) (t : Option Instant) : Except ClientError (Series α) :=
  ((Instant.fitOf t).map history.upTo).mapError .momentOutOfRange

/-- The field that a query reads: an empty name is none. -/
def chosenField (m : Market α) (field : Option String) : String :=
  match field with
  | some f => if f = "" then m.defaultField else f
  | none => m.defaultField

/-- The series of a field of an asset as of a moment. -/
def query (m : Market α) (asset : Asset) (t : Option Instant) (field : Option String) :
    Except ClientError (Series α) := do
  asOf (← m.history (m.chosenField field) asset) t

/-- The client of a market. -/
def client (m : Market α) : Client α := ⟨m.assets, m.asset, m.query⟩

/-! ## Kept histories -/

/-- Histories by field and symbol. -/
abbrev Cache (α : Type) := List ((String × String) × Series α)

/-- The asset has to be known, and then the field. -/
def check (m : Market α) (field : String) (asset : Asset) : Except ClientError Unit :=
  if (m.labels.lookup asset.symbol).isNone then .error (.assetNotFound asset.symbol)
  else if (m.items? field).isNone then .error (.unknownField field m.fieldNames)
  else .ok ()

/-- The history of a field of an asset, from the cache if it is there, and the cache afterwards.
The asset and the field are checked all the same, and a history that cannot be built is not kept. -/
def historyCached (m : Market α) (cache : Cache α) (field : String) (asset : Asset) :
    Except ClientError (Series α) × Cache α :=
  match m.check field asset with
  | .error e => (.error e, cache)
  | .ok () =>
    match cache.lookup (field, asset.symbol) with
    | some s => (.ok s, cache)
    | none =>
      match m.history field asset with
      | .ok s => (.ok s, ((field, asset.symbol), s) :: cache)
      | .error e => (.error e, cache)

/-- A query that keeps the history it reads. -/
def queryCached (m : Market α) (cache : Cache α) (asset : Asset) (t : Option Instant)
    (field : Option String) : Except ClientError (Series α) × Cache α :=
  let (history, cache) := m.historyCached cache (m.chosenField field) asset
  (history.bind (asOf · t), cache)

end Market

end ScorePortfolio
