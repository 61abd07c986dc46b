import ScorePortfolio.Document.Basic
import ScorePortfolio.Decimal.Literal

/-!
# Settings

The settings of a run, read from the section `engine` of a configuration.  The size of the worker
pool is kept as it is written, and looked at only when there is more than one asset to score.
-/

namespace ScorePortfolio

/-- The settings of a run. -/
structure Settings where
  /-- The size of the worker pool, null for any. -/
  maxWorkers : Doc
  /-- The periods of a year, for annual figures. -/
  periodsPerYear : Int
  /-- Whether all calculations have to hang together with the score. -/
  strictComponents : Bool

/-- Why a configuration gives no settings. -/
inductive SettingsError where
  /-- The section is something else than a mapping. -/
  | noMapping
  /-- The text for the periods spells no integer. -/
  | unreadablePeriods
  /-- The value for the periods is no number. -/
  | noPeriods
  /-- The value for the periods is infinite. -/
  | infinitePeriods
deriving DecidableEq

/-- Why a worker pool cannot be made. -/
inductive PoolError where
  /-- The size is zero or negative. -/
  | notPositive
  /-- The size is no number. -/
  | noNumber
deriving DecidableEq

namespace Settings

/-- The settings where none are given. -/
def standard : Settings := ⟨.null, 252, true⟩

/-- The integer of a value: a fraction is dropped, a text is read. -/
def integer : Doc → Except SettingsError Int
  | .scalar (.bool b) => .ok (if b then 1 else 0)
  | .scalar (.int n) => .ok n
  | .scalar (.float x) =>
    match Binary.nonFinite? x with
    | none => .ok (Binary.truncate x)
    | some .nan => .error .unreadablePeriods
    | some _ => .error .infinitePeriods
  | .scalar (.text s) =>
    match Decimal.integer? s with
    | some n => .ok n
    | none => .error .unreadablePeriods
  | _ => .error .noPeriods

/-- The section of the settings; what counts as a no is an empty one. -/
def sectionOf (config : Doc) : Doc :=
  let found := Doc.nested (.map []) ["engine"] config
  if found.isTruthy then found else .map []

/-- The settings of a configuration. -/
def ofDoc (config : Doc) : Except SettingsError Settings := do
  let found := sectionOf config
  if !found.isMap then throw .noMapping
  let periods ← integer ((found.field? "periods_per_year").getD (.int standard.periodsPerYear))
  return ⟨(found.field? "max_workers").getD .null, periods,
    ((found.field? "strict_components").elim true Doc.isTruthy)⟩

/-- Checks the worker pool for a number of assets.  One asset, or a pool of one, needs none. -/
def checkPool (s : Settings) (assets : Nat) : Except PoolError Unit :=
  if assets ≤ 1 || s.maxWorkers.same (.int 1) then .ok ()
  else
    match s.maxWorkers with
    | .scalar .null => .ok ()
    | .scalar (.bool b) => if b then .ok () else .error .notPositive
    | .scalar (.int n) => if n ≤ 0 then .error .notPositive else .ok ()
    | .scalar (.float x) => if x ≤ 0.0 then .error .notPositive else .ok ()
    | _ => .error .noNumber

end Settings

end ScorePortfolio
