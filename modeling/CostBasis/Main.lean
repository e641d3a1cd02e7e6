import CostBasis.CommandLine

/-!
# The program

The environment, the file and the two outputs of the command.
-/

open CostBasis

namespace CostBasis.CommandLine

/-- The variables that the command looks at. -/
def variableNames : List String :=
  ["SYMBOL", "TRADES_CSV_PATH", "CURRENT_PRICE", "TRADING_FEE_CURRENCY", "BASE_CURRENCY",
    "QUOTE_CURRENCY", "PRICE_PRECISION", "VOLUME_PRECISION", "PNL_SINCE_MS", "REPORT_FORMAT"]

/-- The reason why a file cannot be read, in the words of the operating system. -/
def describe : IO.Error → String
  | .noFileOrDirectory .. => "No such file or directory (os error 2)"
  | .permissionDenied .. => "Permission denied (os error 13)"
  | .inappropriateType _ 20 _ => "Not a directory (os error 20)"
  | .inappropriateType .. => "Is a directory (os error 21)"
  | e => toString e

/-- The bytes of a file, or the reason why it cannot be read. -/
def readBytes (path : String) : IO (Except String (List UInt8)) := do
  try
    let bytes ← IO.FS.readBinFile path
    return .ok bytes.toList
  catch e => return .error (describe e)

end CostBasis.CommandLine

/-- Runs the command. -/
def main : IO UInt32 := do
  let env ← CommandLine.variableNames.filterMapM fun name => do
    return (← IO.getEnv name).map (name, ·)
  let outcome ← CommandLine.run CommandLine.readBytes env
  IO.print outcome.output
  IO.eprint outcome.errors
  return outcome.exitCode.toUInt32
