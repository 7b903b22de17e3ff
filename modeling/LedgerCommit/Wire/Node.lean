import LedgerCommit.Node.Config
import LedgerCommit.Wire.Codec

/-!
# Wire forms of configurations

All settings have defaults, so fields may be missing from an object, and the
last ones from an array. Capacities of zero are not refused here.
-/

namespace LedgerCommit

open Wire

instance : Wire FaultModel where
  encode m := .str m.name
  decode := decodeNamed FaultModel.names

instance : Wire LogFormat where
  encode f := .str f.name
  decode := decodeNamed LogFormat.names

def SyncResult.names : List (String × SyncResult) :=
  [("Commit", .commit), ("Reject", .reject), ("Nothing", .nothing)]

def SyncResult.name : SyncResult → String
  | commit => "Commit"
  | reject => "Reject"
  | nothing => "Nothing"

instance : Wire SyncResult where
  encode r := .str r.name
  decode := decodeNamed SyncResult.names

instance : Wire SyncLimits where
  encode l := .obj [("max_requests_per_peer", encode l.maxRequests)]
  decode j := do
    let f ← readRecord [field UInt64 "max_requests_per_peer"] j 1
    let usual : SyncLimits := {}
    return ⟨← orDefault "max_requests_per_peer" usual.maxRequests f⟩

instance : Wire Config where
  encode c := .obj [
    ("consistency_model", encode c.model), ("decision_capacity", encode c.decisionCapacity),
    ("event_capacity", encode c.eventCapacity), ("gate_input_capacity", encode c.inputCapacity),
    ("log_format", encode c.logFormat), ("log_level", encode c.logLevel),
    ("sync", encode c.sync)]
  decode j := do
    let f ← readRecord [
      field FaultModel "consistency_model", field UInt64 "gate_input_capacity",
      field UInt64 "decision_capacity", field UInt64 "event_capacity",
      field LogFormat "log_format", field String "log_level", field SyncLimits "sync"] j 7
    let usual : Config := {}
    return {
      model := ← orDefault "consistency_model" usual.model f
      inputCapacity := ← orDefault "gate_input_capacity" usual.inputCapacity f
      decisionCapacity := ← orDefault "decision_capacity" usual.decisionCapacity f
      eventCapacity := ← orDefault "event_capacity" usual.eventCapacity f
      logFormat := ← orDefault "log_format" usual.logFormat f
      logLevel := ← orDefault "log_level" usual.logLevel f
      sync := ← orDefault "sync" usual.sync f }

end LedgerCommit
