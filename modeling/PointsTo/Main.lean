import PointsTo.Command.Run

/-! The command line on the machine at hand. -/
namespace PointsTo

def FileError.ofError : IO.Error → FileError
  | .noFileOrDirectory .. => notFound
  | .inappropriateType .. => isDirectory
  | e => other (toString e)

def machine : Host IO where
  read path := do
    return (← (IO.FS.readFile path).toBaseIO).mapError .ofError
  write path contents := do
    return (← (IO.FS.writeFile path contents).toBaseIO).mapError .ofError
  clock := IO.monoMsNow

end PointsTo

def main (args : List String) : IO UInt32 := do
  let report ← PointsTo.runCommandLine PointsTo.machine args
  IO.print report.output
  IO.eprint report.diagnostics
  return report.exitCode.toUInt32
