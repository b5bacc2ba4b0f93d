import CfiSlack.Complexity
import CfiSlack.Text.Blank

/-!
# Settings of an evaluation
-/
namespace CfiSlack

structure Settings where
  /-- Most workers that may share the call sites; without a value, one for each core. -/
  maxWorkers : Option Nat := none
  /-- Largest subgraph explored for a call site. -/
  nodeCap : Nat := Corridor.defaultCap
  /-- Binary whose call sites are counted; all of them without one. -/
  mainBinary : Option String := none
  /-- Program size that relates the numbers of targets; the number of blocks without one. -/
  totalSize : Option Nat := none
  deriving DecidableEq, Repr

namespace Settings

/-- A limit on workers from the environment; zero and what is no number are passed over. -/
def workersOfEnv (value : Option String) : Option Nat :=
  ((value.bind fun s => (Numeral.word? 10 (Text.trim s.toList)).map UInt64.toNat)).filter (0 < ·)

/-- Settings without arguments. -/
def ofEnv (value : Option String) : Settings := { maxWorkers := workersOfEnv value }

end Settings
end CfiSlack
