import PointsTo.Config.Document
import PointsTo.Host.Basic
import PointsTo.Program.Json

/-! Programs and settings in files. -/
namespace PointsTo

inductive LoadError where
  | file (error : FileError)
  | json (error : JsonError)
  | config (error : ConfigError)
  deriving DecidableEq, Repr

def LoadError.message : LoadError → String
  | file e => "IO error: " ++ e.message
  | json e => "JSON error: " ++ e.message
  | config e => e.message

variable {m : Type → Type} [Monad m]

def Program.load (host : Host m) (path : String) : m (Except LoadError Program) := do
  match ← host.read path with
  | .error e => return .error (.file e)
  | .ok text => return (Program.parse text).mapError .json

/-- Loads a document of settings, which are validated. -/
def Config.load (host : Host m) (path : String) : m (Except LoadError Config) := do
  match ← host.read path with
  | .error e => return .error (.file e)
  | .ok text => return (Config.ofDocument text).mapError .config

end PointsTo
