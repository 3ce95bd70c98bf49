import PointsTo.Answers
import PointsTo.Config.Basic
import PointsTo.Host.Basic
import PointsTo.Log

/-! Writing answers to a file. -/
namespace PointsTo

structure SaveError where
  path : String
  error : FileError
  deriving DecidableEq, Repr

def SaveError.message (e : SaveError) : String :=
  "Result sink error: " ++ e.path ++ ": " ++ e.error.message

namespace Answers

def contents (a : Answers) : OutputFormat → String
  | .text => a.toText
  | .json => a.toJson.renderPretty

/-- Writes the answers and gives what there is to report. -/
def save {m : Type → Type} [Monad m] (host : Host m) (o : Output) (a : Answers) :
    m (Except SaveError Event) := do
  match ← host.write o.path (a.contents o.format) with
  | .error e => return .error ⟨o.path, e⟩
  | .ok () => return .ok (.resultsWritten a.size o.path)

end Answers

end PointsTo
