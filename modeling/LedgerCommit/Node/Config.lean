import LedgerCommit.Sync.Synchronizer
import LedgerCommit.Toml.Document

/-!
# Configuration

The configuration of a node is kept as a document. Every setting has a
default, and what the document holds besides is ignored. Capacities of zero
are refused, because nothing could ever pass through the queues. Printing gives
a document that holds every setting.
-/

namespace LedgerCommit

inductive LogFormat where
  | human
  | json
  deriving DecidableEq, Repr

namespace LogFormat

def names : List (String × LogFormat) := [("human", human), ("json", json)]

def name : LogFormat → String
  | human => "human"
  | json => "json"

end LogFormat

structure SyncLimits where
  /-- How often one peer is asked while it keeps delivering valid blocks. -/
  maxRequests : UInt64 := 16
  deriving DecidableEq

/-- The configuration of a node. -/
structure Config where
  /-- The fault model that seals are counted under. -/
  model : FaultModel := .byzantine
  /-- The capacity of the gate's mailboxes. -/
  inputCapacity : UInt64 := 64
  /-- The capacity of the decision queue and of the decision broadcast. -/
  decisionCapacity : UInt64 := 256
  /-- The capacity of the event broadcast. -/
  eventCapacity : UInt64 := 256
  logFormat : LogFormat := .human
  logLevel : String := "info"
  sync : SyncLimits := {}
  deriving DecidableEq

inductive ConfigError where
  | missingFile
  /-- The bytes of the file are not text. -/
  | notText
  /-- The text is no document, or a setting has a value of the wrong kind. -/
  | malformed
  /-- A capacity is zero. -/
  | zero (setting : String)
  /-- A capacity is larger than any integer of a document. -/
  | tooLarge
  deriving DecidableEq, Repr

/-- The reason in words. What exactly is malformed or too large is not told. -/
def ConfigError.reason? : ConfigError → Option String
  | missingFile => some "No such file or directory (os error 2)"
  | notText => some "stream did not contain valid UTF-8"
  | malformed | tooLarge => none
  | zero setting => some (setting ++ " must be greater than zero")

namespace Config

open Toml (Item Entries)

/-! ## Reading -/

/-- A capacity: an integer that is not negative. -/
def readCapacity : Item → Option UInt64
  | .integer n => if 0 ≤ n then some (UInt64.ofNat n.toNat) else none
  | _ => none

def readText : Item → Option String
  | .string s => some s
  | _ => none

def isEmptyItem : Item → Bool
  | .array [] | .table _ [] => true
  | _ => false

/-- One of several names: as a text, or as the only key of a table, where it
stands for nothing. -/
def readNamed {α : Type} (names : List (String × α)) : Item → Option α
  | .string s => names.lookup s
  | .table _ [(key, item)] => if isEmptyItem item then names.lookup key else none
  | _ => none

/-- A setting of a table; its default, if it is not there. -/
def setting {α : Type} (es : Entries) (key : String) (read : Item → Option α) (default : α) :
    Option α :=
  match es.lookup key with
  | none => some default
  | some item => read item

/-- The limits of a download: by name in a table, or in order in an array. A
moment sets nothing. -/
def readLimits : Item → Option SyncLimits
  | .table _ es =>
      let usual : SyncLimits := {}
      (setting es "max_requests_per_peer" readCapacity usual.maxRequests).map SyncLimits.mk
  | .array (item :: _) => (readCapacity item).map SyncLimits.mk
  | .array [] | .moment => some {}
  | _ => none

/-- The configuration that a document holds. -/
def ofEntries? (es : Entries) : Option Config := do
  let usual : Config := {}
  return {
    model := ← setting es "consistency_model" (readNamed FaultModel.names) usual.model
    inputCapacity := ← setting es "gate_input_capacity" readCapacity usual.inputCapacity
    decisionCapacity := ← setting es "decision_capacity" readCapacity usual.decisionCapacity
    eventCapacity := ← setting es "event_capacity" readCapacity usual.eventCapacity
    logFormat := ← setting es "log_format" (readNamed LogFormat.names) usual.logFormat
    logLevel := ← setting es "log_level" readText usual.logLevel
    sync := ← setting es "sync" readLimits usual.sync }

/-- The capacities that have to be positive, with the names of their settings. -/
def capacities (c : Config) : List (String × UInt64) :=
  [("gate_input_capacity", c.inputCapacity), ("decision_capacity", c.decisionCapacity),
   ("event_capacity", c.eventCapacity), ("sync.max_requests_per_peer", c.sync.maxRequests)]

/-- Refuse a capacity of zero; the first one is reported. -/
def validate (c : Config) : Except ConfigError Unit :=
  match c.capacities.find? (·.2 = 0) with
  | some (name, _) => .error (.zero name)
  | none => .ok ()

/-- Read a configuration. -/
def parse (text : String) : Except ConfigError Config := do
  match (Toml.document? text).bind ofEntries? with
  | none => throw .malformed
  | some c =>
      c.validate
      return c

/-- Read a configuration from the bytes of a file, if there is one. -/
def parseFile (bytes : Option (List UInt8)) : Except ConfigError Config :=
  match bytes with
  | none => .error .missingFile
  | some bytes =>
      match String.fromUTF8? ⟨bytes.toArray⟩ with
      | none => .error .notText
      | some text => parse text

/-! ## Printing -/

def settingLine (key value : String) : String := key ++ " = " ++ value ++ "\n"

def quoted (s : String) : String := String.ofList (Toml.quote s.toList)

/-- The document that holds a configuration. -/
def render (c : Config) : String :=
  settingLine "consistency_model" (quoted c.model.name)
    ++ settingLine "gate_input_capacity" (toString c.inputCapacity)
    ++ settingLine "decision_capacity" (toString c.decisionCapacity)
    ++ settingLine "event_capacity" (toString c.eventCapacity)
    ++ settingLine "log_format" (quoted c.logFormat.name)
    ++ settingLine "log_level" (quoted c.logLevel)
    ++ "\n[sync]\n"
    ++ settingLine "max_requests_per_peer" (toString c.sync.maxRequests)

/-- Print a configuration. The integers of a document have a sign. -/
def print (c : Config) : Except ConfigError String :=
  if c.capacities.all fun (_, n) => Toml.fitsSigned n.toNat then .ok c.render
  else .error .tooLarge

/-! ## Use -/

/-- How chains are downloaded under a configuration. -/
def policy (c : Config) : SyncPolicy := ⟨c.model, c.sync.maxRequests.toNat⟩

end Config

end LedgerCommit
