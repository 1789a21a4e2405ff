import LinkRepair.Diagnostic.Basic
import LinkRepair.Text.Blank

/-!
# Settings

How a forest is linked: whether broken parts are repaired or refused, and how serious the report
of a repair is.

* `Mode.parse?`, `Severity.parse?`   the words for them, read without regard to blanks around them
                                     and to the case of letters;
* `SettingError.message`             the wording of a word that is not understood;
* `Settings.ofWords`                 settings from words that may be absent or not understood.
-/

namespace LinkRepair

inductive Mode where
  | enabled
  | disabled
deriving DecidableEq

structure Settings where
  mode : Mode
  /-- the severity of the report of a repair -/
  severity : Severity
deriving DecidableEq

/-- repair, and warn -/
def Settings.standard : Settings := ⟨.enabled, .warning⟩

def Settings.isEnabled (s : Settings) : Bool := s.mode == .enabled

/-- a word that is not understood, as it was written -/
inductive SettingError where
  | unknownMode (word : String)
  | unknownSeverity (word : String)
deriving DecidableEq

def SettingError.message : SettingError → String
  | .unknownMode word =>
    "unknown partial linkage mode `" ++ word ++ "` (expected `enable` or `disable`)"
  | .unknownSeverity word =>
    "unknown partial linkage log level `" ++ word
      ++ "` (expected `info`, `warning` or `error`)"

/-- a word in its plain form.  Lowering ASCII letters is enough: the only letters outside ASCII
whose lower case contains an ASCII letter are the Kelvin sign, which lowers to `k`, and the dotted
capital I, which lowers to two characters; no word below has a `k` or a combining dot. -/
def plainWord (word : String) : String :=
  String.ofList ((Text.trimChars word.toList).map Char.toLower)

def Mode.parse? (word : String) : Except SettingError Mode :=
  let plain := plainWord word
  if plain ∈ ["enable", "enabled", "on", "true", "1"] then .ok .enabled
  else if plain ∈ ["disable", "disabled", "off", "false", "0"] then .ok .disabled
  else .error (.unknownMode word)

def Severity.parse? (word : String) : Except SettingError Severity :=
  let plain := plainWord word
  if plain = "info" then .ok .info
  else if plain ∈ ["warning", "warn"] then .ok .warning
  else if plain = "error" then .ok .error
  else .error (.unknownSeverity word)

/-- settings from two words; a word that is absent or not understood leaves the standard -/
def Settings.ofWords (mode severity : Option String) : Settings :=
  ⟨(mode.bind fun w => (Mode.parse? w).toOption).getD Settings.standard.mode,
    (severity.bind fun w => (Severity.parse? w).toOption).getD Settings.standard.severity⟩

theorem Settings.ofWords_none : Settings.ofWords none none = Settings.standard := rfl

end LinkRepair
