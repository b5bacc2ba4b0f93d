import CfiSlack.CallRecord
import CfiSlack.Text.Lines

/-!
# Call dumps

A dump is a text of call records. A record may run over several lines; it ends with the first line
that ends with a quote.
-/
namespace CfiSlack

namespace CallDump

/-- Read the records of some lines; `pending` holds the lines of the record so far, latest first. -/
def parseLines : List (List Char) → List (List Char) → Except BadCallRecord (List CallRecord)
  | _, [] => .ok []
  | pending, line :: lines => do
    if line.getLast? = some '"' then
      let record ← CallRecord.parse (line :: pending).reverse.flatten
      return record :: (← parseLines [] lines)
    else parseLines (line :: pending) lines

def parse (cs : List Char) : Except BadCallRecord (List CallRecord) := parseLines [] (Text.lines cs)

end CallDump

structure CallPlace where
  file : String
  place : Place
  deriving DecidableEq, Repr

abbrev CallDump := Table CallPlace CallRecord

namespace CallDump

/-- Add the records with a known place; a later record of the same place wins. -/
def extend (d : CallDump) (records : List CallRecord) : CallDump :=
  d.insertAll (records.filterMap fun r => r.place.map fun p => (⟨r.file, p⟩, r))

end CallDump

structure SiteLocation where
  key : SiteKey
  place : CallPlace
  deriving DecidableEq, Repr

/-- Parameter types of the call sites whose place has a record. -/
def CallDump.siteSignatures (d : CallDump) (locations : List SiteLocation) : SiteSignatures :=
  Table.ofRows (locations.filterMap fun l => (d.find? l.place).map fun r => (l.key, r.params))

end CfiSlack
