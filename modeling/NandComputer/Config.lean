import NandComputer.FileError
import NandComputer.Json.Printer
import NandComputer.Json.Reader

/-!
Machine configurations: the width of a data address and the arithmetic unit. In
JSON both fields are optional and no others are allowed.
-/

namespace NandComputer

/-- Which arithmetic unit a processor has. -/
inductive AluKind where
  | standard
  /-- With multiplication and shifts, chosen by instruction bits 14 and 13. -/
  | extended
  deriving DecidableEq, Repr, Inhabited

namespace AluKind

def name : AluKind → String
  | .standard => "standard"
  | .extended => "extended"

def ofName? : String → Option AluKind
  | "standard" => some .standard
  | "extended" => some .extended
  | _ => none

end AluKind

structure Config where
  addressBits : Nat
  alu : AluKind
  deriving DecidableEq, Repr

/-- Why there is no machine to build. -/
inductive ConfigError where
  | unreadable (error : FileError)
  | malformed
  | addressBits (bits : Nat)
  deriving DecidableEq, Repr, Inhabited

def ConfigError.message : ConfigError → String
  | .unreadable error => s!"IO error: {error.message}"
  | .malformed => "invalid config: not a machine configuration"
  | .addressBits bits => s!"data_address_bits must be 3..=15, got {bits}"

namespace Config

def default : Config := ⟨14, .standard⟩

instance : Inhabited Config := ⟨default⟩

/-- Number of words in data memory. -/
def dataWords (config : Config) : Nat := 1 <<< config.addressBits

/-- The address widths that machines are built with. -/
def IsValid (config : Config) : Prop :=
  3 ≤ config.addressBits ∧ config.addressBits ≤ 15

instance (config : Config) : Decidable config.IsValid := by
  unfold IsValid; infer_instance

def validate (config : Config) : Except ConfigError Config :=
  if config.IsValid then .ok config else .error (.addressBits config.addressBits)

/-- The configuration that a value describes. An address width has eight bits. -/
def ofJson? (json : Json) : Option Config := do
  match ← json.fields? ["data_address_bits", "alu"] true with
  | [bits?, alu?] =>
    let bits ← bits?.elim (some default.addressBits) (Json.naturalBelow? 256)
    let alu ← alu?.elim (some default.alu) fun alu => alu.plainVariant?.bind AluKind.ofName?
    some ⟨bits, alu⟩
  | _ => none

def toJson (config : Config) : Json :=
  .ofFields [("data_address_bits", .ofNat config.addressBits),
    ("alu", .ofString config.alu.name)]

/-- The valid configuration that a text describes. -/
def parse (text : String) : Except ConfigError Config :=
  match (Json.parse text).bind ofJson? with
  | some config => config.validate
  | none => .error .malformed

/-- The valid configuration in a file. -/
def ofFile (contents : Except FileError String) : Except ConfigError Config := do
  parse (← contents.mapError .unreadable)

end Config

end NandComputer
