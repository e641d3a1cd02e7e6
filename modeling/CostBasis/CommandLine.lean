import CostBasis.Config
import CostBasis.Csv.TradeFile
import CostBasis.Json.Records
import CostBasis.Text.Basic

/-!
# The command

The command reads the settings and the trade export, and gives out the report.  All it does is
decided here; the surrounding program only passes the environment in, reads the file that it is
asked for, and writes what it is told.
-/

namespace CostBasis.CommandLine

/-- What a run of the command comes to. -/
structure Outcome where
  /-- The exit code, zero for success. -/
  exitCode : UInt8
  /-- The text of the standard output. -/
  output : String
  /-- The text of the error output. -/
  errors : String
deriving DecidableEq, Repr

/-- The text of a log. -/
def logText (entries : List LogEntry) : String :=
  String.join (entries.map fun e => e.toText ++ "\n")

/-- The end of a run by an error, which has a cause.
Source: the text of an error with its context, as `main` ends with it. -/
def Outcome.failure (output : String) (attempt cause : String) : Outcome where
  exitCode := 1
  output
  errors := "Error: " ++ attempt ++ "\n\nCaused by:\n    " ++ Text.indentRest "    " cause ++ "\n"

/-- The end of a run by a fault of the arithmetic.
Source: what a stopped program leaves.  Where it stopped in the code is left out of the message. -/
def Outcome.crash (output : String) (fault : Fault) : Outcome where
  exitCode := 101
  output
  errors := fault.message ++ "\n"

/-- What is asked of the report.
Source: the calculator that `main` builds. -/
def request (c : Config) : ReportRequest where
  terms := ⟨c.market, .unknown⟩
  feeCurrency := c.feeCurrency
  window := ⟨c.since, none⟩
  currentPrice := c.currentPrice

/-- A report in the format of the settings: an entry of the log for each line, or a document.
Source: `log` of `ProfitAndLossReport`, and its indented serialization. -/
def present (format : ReportFormat) (r : Report) : String :=
  match format with
  | .text => logText ((Text.lines r.toText).map fun line => ⟨.info, line, []⟩)
  | .json => Json.write .indented r.toJson ++ "\n"

/-- The entry that tells how many trades there are. -/
def loadedEntry (c : Config) (ts : List Trade) : LogEntry :=
  ⟨.info, "trades loaded", [("symbol", c.symbol), ("count", Text.integer ts.length)]⟩

/-- The report about trades. -/
def report (c : Config) (ts : List Trade) : Outcome :=
  let q := request c
  let output := logText (loadedEntry c ts :: q.warnings ts)
  match q.calculate ts with
  | .error fault => .crash output fault
  | .ok (.error e) => .failure output "failed to calculate profit report" e.message
  | .ok (.ok r) => ⟨0, output ++ present c.format r, ""⟩

/-- The run of the command with its settings and what was read from the file. -/
def answer (c : Config) (content : Except String (List UInt8)) : Outcome :=
  let q : TradeQuery := ⟨⟨c.since, none⟩, none, none⟩
  match (Csv.queryTrades c.path content c.symbol q).run with
  | .error fault => .crash "" fault
  | .ok (.error e) => .failure "" ("failed to load trades from " ++ c.path) e.message
  | .ok (.ok ts) => report c ts

/-- The run of the command.  `read` gives the bytes of the file at a path, or the reason why it
cannot be read.
Source: `main`; specification, section A9.  The time at the start of a log line is left out. -/
def run {m : Type → Type} [Monad m] (read : String → m (Except String (List UInt8)))
    (env : Environment) : m Outcome := do
  match Config.ofEnvironment env with
  | .error e => return .failure "" "configuration error" e.message
  | .ok c => return answer c (← read c.path)

end CostBasis.CommandLine
