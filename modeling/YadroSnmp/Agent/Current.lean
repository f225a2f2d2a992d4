import YadroSnmp.Agent.Requests
import YadroSnmp.Agent.Cells
import YadroSnmp.Data.Forgetting
import YadroSnmp.Data.Freshness

/-! # A manager reads what is on the bus

The whole way of a value: from the properties of an object on the bus, through
signals and refreshes, into a row, and from there into the answer to a GET.
Which property a column shows, and how, is said here without the rows.
-/

namespace YadroSnmp

open Snmp Table Labelled KeyedList

namespace Sensors

/-- A reading in the unit of its folder, rounded after an exact product as in `scaled`; outside
the range of `int` it has no value. -/
def reading (folder : Str) (value : ℚ) : Answer :=
  let scaled := roundAway (value * 10 ^ power folder)
  if -2 ^ 31 ≤ scaled ∧ scaled < 2 ^ 31 then .value (.integer scaled) else .undefined

end Sensors

namespace Inventory

end Inventory

namespace Agent

variable {readObjid : ReadObjid} {c : TableId}

section Rows

end Rows

end Agent

namespace Table

variable {Row : Type} {R : RowClass Row} {T : Config} {w w' : World Row} {a : Action}

end Table

namespace Agent

section Ambient

instance : (c : TableId) → DecidableEq c.Row
  | .sensors _ => inferInstanceAs (DecidableEq Sensors.Sensor)
  | .software => inferInstanceAs (DecidableEq SoftwareVersions.Software)
  | .inventory => inferInstanceAs (DecidableEq Inventory.InventoryItem)

end Ambient

end Agent

end YadroSnmp
