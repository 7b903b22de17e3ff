import LedgerCommit.Node.Config
import LedgerCommit.Proofs.FlatDocument

/-!
# Configurations survive printing

A configuration is printed as a flat document: a line for each setting, and a
table for the limits of downloads. Read again it is the same configuration, if
its capacities are positive and fit into 64 bits with sign and its log level is
plain text. No configuration that is read has a capacity of zero.
-/

namespace LedgerCommit.Config

open Toml (Setting)

variable {c : Config}

/-- The integers of a document can hold the capacities, and the log level has
neither control characters nor single quotes. -/
structure IsPrintable (c : Config) : Prop where
  fits : ∀ p ∈ c.capacities, (p.2.toNat : Int) ≤ Int64.maxValue.toInt
  plain : ∀ a ∈ c.logLevel.toList, Toml.isPlain a = true

theorem IsPrintable.fitsSigned (h : c.IsPrintable) {p : String × UInt64} (hp : p ∈ c.capacities) :
    Toml.fitsSigned p.2.toNat = true := by
  simp [Toml.fitsSigned, h.fits p hp]

/-! ## The document of a configuration -/

theorem isPlain_of_model (m : FaultModel) : ∀ a ∈ m.name.toList, Toml.isPlain a = true := by
  cases m <;> exact List.all_eq_true.mp (by decide)

theorem isPlain_of_format (f : LogFormat) : ∀ a ∈ f.name.toList, Toml.isPlain a = true := by
  cases f <;> exact List.all_eq_true.mp (by decide)

/-- The settings before the limits of downloads. -/
def settings (c : Config) (h : c.IsPrintable) : List Setting :=
  [.ofText "consistency_model" (by decide) c.model.name (isPlain_of_model c.model),
   .ofNumber "gate_input_capacity" (by decide) c.inputCapacity.toNat
     (h.fitsSigned (p := ("gate_input_capacity", c.inputCapacity)) (by simp [capacities])),
   .ofNumber "decision_capacity" (by decide) c.decisionCapacity.toNat
     (h.fitsSigned (p := ("decision_capacity", c.decisionCapacity)) (by simp [capacities])),
   .ofNumber "event_capacity" (by decide) c.eventCapacity.toNat
     (h.fitsSigned (p := ("event_capacity", c.eventCapacity)) (by simp [capacities])),
   .ofText "log_format" (by decide) c.logFormat.name (isPlain_of_format c.logFormat),
   .ofText "log_level" (by decide) c.logLevel h.plain]

def limitSettings (c : Config) (h : c.IsPrintable) : List Setting :=
  [.ofNumber "max_requests_per_peer" (by decide) c.sync.maxRequests.toNat
     (h.fitsSigned (p := ("sync.max_requests_per_peer", c.sync.maxRequests))
       (by simp [capacities]))]

theorem toList_render (h : c.IsPrintable) :
    c.render.toList = Toml.flatText (c.settings h) "sync" (c.limitSettings h) := by
  have hword : ∀ w : UInt64, (toString w).toList = Nat.toDigits 10 w.toNat :=
    fun w => Nat.toList_repr
  simp [render, settingLine, quoted, Toml.flatText, Toml.flatLines, settings, limitSettings,
    Setting.line, Setting.ofText, Setting.ofNumber, Toml.pairLine, Toml.headerLine, hword]

theorem print_eq_ok (h : c.IsPrintable) : c.print = .ok c.render := by
  refine if_pos ?_
  rw [List.all_eq_true]
  exact fun p hp => h.fitsSigned hp

theorem document?_render (h : c.IsPrintable) :
    Toml.document? c.render
      = some (Toml.flatEntries (c.settings h) "sync" (c.limitSettings h)) := by
  refine Toml.document?_of_flatText (toList_render h) (by decide) ?_ ?_
  · show ["consistency_model", "gate_input_capacity", "decision_capacity", "event_capacity",
      "log_format", "log_level", "sync"].Nodup
    decide
  · show ["max_requests_per_peer"].Nodup
    decide

theorem ofEntries?_flatEntries (h : c.IsPrintable) :
    ofEntries? (Toml.flatEntries (c.settings h) "sync" (c.limitSettings h)) = some c := by
  have hmodel : readNamed FaultModel.names (.string c.model.name) = some c.model := by
    cases c.model <;> decide
  have hformat : readNamed LogFormat.names (.string c.logFormat.name) = some c.logFormat := by
    cases c.logFormat <;> decide
  have hcapacity : ∀ w : UInt64, readCapacity (.integer w.toNat) = some w := by
    intro w
    simp [readCapacity]
  simp [ofEntries?, setting, Toml.flatEntries, settings, limitSettings, Setting.entry,
    Setting.ofText, Setting.ofNumber, List.lookup_cons, hmodel, hformat, hcapacity, readText,
    readLimits]

/-! ## Reading -/

theorem validate_eq_ok_iff : c.validate = .ok () ↔ ∀ p ∈ c.capacities, 0 < p.2 := by
  have hpos : ∀ w : UInt64, ¬ w = 0 ↔ 0 < w := by
    intro w
    rw [UInt64.pos_iff_ne_zero]
  unfold validate
  cases hzero : c.capacities.find? (·.2 = 0) with
  | none =>
      simp only [List.find?_eq_none, decide_eq_true_eq, hpos] at hzero
      exact ⟨fun _ => hzero, fun _ => rfl⟩
  | some p =>
      have hp : p.2 = 0 := by simpa using List.find?_some hzero
      refine ⟨fun h => ?_, fun h => ?_⟩
      · cases h
      · exact absurd hp ((hpos _).mpr (h p (List.mem_of_find?_eq_some hzero)))

theorem parse_eq_ok_iff {text : String} : parse text = .ok c
    ↔ (Toml.document? text).bind ofEntries? = some c ∧ c.validate = .ok () := by
  unfold parse
  cases hread : (Toml.document? text).bind ofEntries? with
  | none => simp [throw, throwThe, MonadExceptOf.throw]
  | some d =>
      show (d.validate >>= fun _ => .ok d) = _ ↔ _
      cases hvalid : d.validate with
      | error e =>
          refine ⟨fun h => ?_, fun ⟨hd, hc⟩ => ?_⟩
          · cases h
          · cases hd
            rw [hvalid] at hc
            cases hc
      | ok =>
          refine ⟨fun h => ?_, fun ⟨hd, _⟩ => ?_⟩
          · cases h
            exact ⟨rfl, hvalid⟩
          · cases hd
            rfl

theorem bind_parse (text : String) : (Except.ok text).bind parse = parse text := rfl

/-- **Configurations survive printing.** A configuration that passes the check,
whose capacities fit into 64 bits with sign and whose log level holds no control
character and no single quote, is printed, and from what is printed the same
configuration is read. And whatever text a configuration is read from, all its
capacities are positive. -/
theorem configurations_survive_printing :
    (∀ c : Config, c.validate = .ok () → c.IsPrintable → c.print.bind parse = .ok c)
      ∧ ∀ text c, parse text = .ok c → 0 < c.inputCapacity ∧ 0 < c.decisionCapacity
          ∧ 0 < c.eventCapacity ∧ 0 < c.sync.maxRequests := by
  constructor
  · intro c hvalid h
    rw [print_eq_ok h, bind_parse, parse_eq_ok_iff, document?_render h]
    exact ⟨ofEntries?_flatEntries h, hvalid⟩
  · intro text c h
    have hpos := validate_eq_ok_iff.mp (parse_eq_ok_iff.mp h).2
    simpa [capacities] using hpos

/-- A configuration with the largest capacity that fits, and with quotes and a
backslash in its log level. -/
def withQuotedLevel : Config where
  model := .crash
  inputCapacity := 9223372036854775807
  decisionCapacity := 1
  logFormat := .json
  logLevel := "a\\b=\"é\""
  sync := { maxRequests := 10 }

theorem quoted_level_is_read_back :
    withQuotedLevel.validate = .ok () ∧ withQuotedLevel.IsPrintable
      ∧ withQuotedLevel.print.bind parse = .ok withQuotedLevel
      ∧ parse withQuotedLevel.render = .ok withQuotedLevel
      ∧ 0 < withQuotedLevel.sync.maxRequests := by
  have hvalid : withQuotedLevel.validate = .ok () := by rfl
  have hprintable : withQuotedLevel.IsPrintable :=
    ⟨by decide, List.all_eq_true.mp (by decide)⟩
  obtain ⟨hsurvives, hpositive⟩ := configurations_survive_printing
  have hprinted := hsurvives withQuotedLevel hvalid hprintable
  have hread : parse withQuotedLevel.render = .ok withQuotedLevel := by
    rw [print_eq_ok hprintable, bind_parse] at hprinted
    exact hprinted
  exact ⟨hvalid, hprintable, hprinted, hread, (hpositive _ _ hread).2.2.2⟩

end LedgerCommit.Config
