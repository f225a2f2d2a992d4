import YadroSnmp.SnmpCfg.Persistence
import YadroSnmp.SnmpCfg.Failures
import YadroSnmp.SnmpCfg.LineCodec
import YadroSnmp.SnmpCfg.Retries
import YadroSnmp.Data.Freshness
import YadroSnmp.Data.Walk
import YadroSnmp.Data.Interleaving
import YadroSnmp.Data.Confinement
import YadroSnmp.Data.FailedReads
import YadroSnmp.Data.Presence
import YadroSnmp.Data.Reconcile
import YadroSnmp.Data.Locality
import YadroSnmp.Data.Redelivery
import YadroSnmp.Yadro.Software
import YadroSnmp.Yadro.SensorHistory
import YadroSnmp.Yadro.Inventory
import YadroSnmp.Yadro.RowTypes
import YadroSnmp.Yadro.PowerState
import YadroSnmp.Yadro.SensorScale
import YadroSnmp.Yadro.TrapOids
import YadroSnmp.Snmp.Sources
import YadroSnmp.Agent.Manager
import YadroSnmp.Agent.Walks
import YadroSnmp.Agent.Cells
import YadroSnmp.Agent.Repetition
import YadroSnmp.Agent.Traffic
import YadroSnmp.Agent.Conformance
import YadroSnmp.Agent.HostPower
import YadroSnmp.Agent.Restart
import YadroSnmp.Agent.Current
