import NandComputer.Instruction.Basic
import NandComputer.Json.Printer
import NandComputer.Json.Reader

/-!
Instructions as JSON: an object with one entry, named for the kind of the
instruction. The fields of a computation are given by name or by position.
-/

namespace NandComputer

/-- A word, as a number. -/
def Json.word? (json : Json) : Option Word := (json.naturalBelow? UInt16.size).map (BitVec.ofNat 16)

def Json.ofWord (word : Word) : Json := .ofNat word.toNat

namespace Comp

/-- Any word is taken as the field, also one with more than nine bits. -/
def ofJson? (json : Json) : Option Comp := do
  match ← json.fields? ["bits"] false with
  | [some bits] => return ⟨← bits.word?⟩
  | _ => none

def toJson (comp : Comp) : Json := .ofFields [("bits", .ofWord comp.bits)]

end Comp

namespace Dest

def ofJson? (json : Json) : Option Dest := do
  match ← json.fields? ["a", "d", "m"] false with
  | [some a, some d, some m] => return ⟨← a.bool?, ← d.bool?, ← m.bool?⟩
  | _ => none

def toJson (dest : Dest) : Json :=
  .ofFields [("a", .bool dest.a), ("d", .bool dest.d), ("m", .bool dest.m)]

end Dest

namespace Jump

def name : Jump → String
  | .never => "Never"
  | .gt => "Jgt"
  | .eq => "Jeq"
  | .ge => "Jge"
  | .lt => "Jlt"
  | .ne => "Jne"
  | .le => "Jle"
  | .always => "Jmp"

def ofJson? (json : Json) : Option Jump := do
  let name ← json.plainVariant?
  all.find? (·.name = name)

def toJson (jump : Jump) : Json := .ofString jump.name

end Jump

namespace Instruction

def ofJson? (json : Json) : Option Instruction := do
  match ← json.variant? with
  | ("Address", some value) => return .address (← value.word?)
  | ("Compute", some value) =>
    match ← value.fields? ["comp", "dest", "jump"] false with
    | [some comp, some dest, some jump] =>
      return .compute (← Comp.ofJson? comp) (← Dest.ofJson? dest) (← Jump.ofJson? jump)
    | _ => none
  | _ => none

def toJson : Instruction → Json
  | .address value => .ofFields [("Address", .ofWord value)]
  | .compute comp dest jump =>
    .ofFields [("Compute", .ofFields [("comp", comp.toJson), ("dest", dest.toJson),
      ("jump", jump.toJson)])]

/-- The instruction that a text describes. -/
def parseJson (text : String) : Option Instruction := (Json.parse text).bind ofJson?

end Instruction

end NandComputer
