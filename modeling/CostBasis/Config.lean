import CostBasis.Fee

/-!
# Settings

The settings of a report come from environment variables.  They are read in a fixed order, and the
first one that is missing or makes no sense is reported.
-/

namespace CostBasis

/-- The variables that are set, with their values. -/
abbrev Environment := List (String × String)

/-- How a report is given out.
Source: `ReportFormat`. -/
inductive ReportFormat where
  /-- In lines of the log. -/
  | text
  /-- As one JSON document. -/
  | json
deriving DecidableEq, Repr

/-- The name of a format. -/
def ReportFormat.toText : ReportFormat → String
  | .text => "text"
  | .json => "json"

/-- What is wrong with the settings.
Source: `ConfigError`. -/
inductive ConfigError where
  /-- A variable that has to be set is not. -/
  | missing (name : String)
  /-- A variable has a value that makes no sense. -/
  | invalid (name reason : String)
deriving DecidableEq, Repr

/-- The wording of an error. -/
def ConfigError.message : ConfigError → String
  | .missing name => "Missing required environment variable: " ++ name
  | .invalid name reason => "Invalid value for " ++ name ++ ": " ++ reason

/-- The settings of a report.
Source: `Config`; specification, section A9. -/
structure Config where
  /-- The symbol that is traded. -/
  symbol : String
  /-- The path of the trade export. -/
  path : String
  /-- The price at which the open amount is valued. -/
  currentPrice : Decimal
  /-- The currency in which the exchange prefers to take its fees. -/
  feeCurrency : String
  /-- The currency that is bought and sold. -/
  baseCurrency : String
  /-- The currency that prices are in. -/
  quoteCurrency : String
  /-- The number of places of a price. -/
  pricePrecision : UInt32
  /-- The number of places of a quantity. -/
  volumePrecision : UInt32
  /-- The first instant of the report. -/
  since : Option Instant
  /-- How the report is given out. -/
  format : ReportFormat
deriving DecidableEq

namespace Config

/-- The text with its ASCII letters in upper case. -/
def upperCase (s : String) : String := String.ofList (s.toList.map Char.toUpper)

/-- The text with its ASCII letters in lower case. -/
def lowerCase (s : String) : String := String.ofList (s.toList.map Char.toLower)

/-- The quote currencies that symbols are known to end in, in the order in which they are tried.
Source: `KNOWN_QUOTE_CURRENCIES`. -/
def knownQuoteCurrencies : List String :=
  ["USDT", "USDC", "BUSD", "TWD", "USD", "BTC", "ETH", "BNB"]

/-- The text before an ending, if there is any. -/
def before? (s ending : String) : Option String :=
  if ending.toList.isSuffixOf s.toList then
    let base := s.toList.take (s.toList.length - ending.toList.length)
    if base.isEmpty then none else some (String.ofList base)
  else none

/-- The two currencies that a symbol is made of.
Source: `split_symbol`. -/
def splitSymbol? (symbol : String) : Option (String × String) :=
  knownQuoteCurrencies.findSome? fun quote => (before? symbol quote).map (·, quote)

/-- The two currencies: those that are set if both are, and otherwise those of the symbol. -/
def readCurrencies (env : Environment) (symbol : String) :
    Except ConfigError (String × String) :=
  match env.lookup "BASE_CURRENCY", env.lookup "QUOTE_CURRENCY" with
  | some base, some quote => .ok (upperCase base, upperCase quote)
  | _, _ =>
    match splitSymbol? symbol with
    | some currencies => .ok currencies
    | none => .error (.invalid "SYMBOL" ("cannot derive currencies from " ++ symbol ++
        ", set BASE_CURRENCY and QUOTE_CURRENCY"))

/-- A number of places.
Source: `parse_u32`. -/
def readPrecision (env : Environment) (name : String) (otherwise : UInt32) :
    Except ConfigError UInt32 :=
  match env.lookup name with
  | none => .ok otherwise
  | some s =>
    match Text.readUInt32 s.toList .decimal with
    | .ok n => .ok n
    | .error _ => .error (.invalid name "must be a valid u32")

/-- The first instant of the report. -/
def readSince (env : Environment) : Except ConfigError (Option Instant) :=
  match env.lookup "PNL_SINCE_MS" with
  | none => .ok none
  | some s =>
    match Text.readInt64 s.toList .decimal with
    | .ok n => .ok (some ⟨n⟩)
    | .error _ => .error (.invalid "PNL_SINCE_MS" "must be a valid i64")

/-- How the report is given out. -/
def readFormat (env : Environment) : Except ConfigError ReportFormat :=
  match (env.lookup "REPORT_FORMAT").map fun s => lowerCase (Text.trim s) with
  | none => .ok .text
  | some name =>
    if name = "text" then .ok .text
    else if name = "json" then .ok .json
    else .error (.invalid "REPORT_FORMAT" "must be text or json")

/-- The settings of an environment.
Source: `from_env_map`. -/
def ofEnvironment (env : Environment) : Except ConfigError Config := do
  let symbol := upperCase (Text.trim ((env.lookup "SYMBOL").getD ""))
  if symbol = "" then throw (.missing "SYMBOL")
  let some path := env.lookup "TRADES_CSV_PATH" | throw (.missing "TRADES_CSV_PATH")
  let some price := env.lookup "CURRENT_PRICE" | throw (.missing "CURRENT_PRICE")
  let currentPrice ← match Decimal.ofText price with
    | .ok d => pure d
    | .error _ => throw (.invalid "CURRENT_PRICE" "must be a decimal number")
  let feeCurrency := upperCase ((env.lookup "TRADING_FEE_CURRENCY").getD "BNB")
  let (baseCurrency, quoteCurrency) ← readCurrencies env symbol
  let pricePrecision ← readPrecision env "PRICE_PRECISION" 2
  let volumePrecision ← readPrecision env "VOLUME_PRECISION" 8
  if Decimal.maxScale < pricePrecision.toNat + volumePrecision.toNat then
    throw (.invalid "VOLUME_PRECISION" "price and volume precision together must not exceed 28")
  let since ← readSince env
  let format ← readFormat env
  return { symbol, path, currentPrice, feeCurrency, baseCurrency, quoteCurrency, pricePrecision,
           volumePrecision, since, format }

/-- The market of the report.
Source: `market`. -/
def market (c : Config) : Market where
  symbol := c.symbol
  baseCurrency := c.baseCurrency
  quoteCurrency := c.quoteCurrency
  pricePrecision := c.pricePrecision
  volumePrecision := c.volumePrecision

end Config

end CostBasis
