import NandComputer.Assembly.Listing
import NandComputer.Computer
import NandComputer.Json.Printer

/-!
What a run tells: a report of its result, as text or as JSON.
-/

namespace NandComputer.Cli

structure Report where
  summary : RunResult
  ticks : Nat
  circuit : NodeCounts
  /-- The first words of data memory, as many as were asked for. -/
  memory : List Word
  deriving DecidableEq, Repr, Inhabited

namespace Report

/-- The report on a computer after a run. -/
def ofComputer (c : Computer) (summary : RunResult) (dump : Nat) : Report where
  summary
  ticks := c.ticks
  circuit := c.counts
  memory := (List.range (min dump c.dataSize)).filterMap c.cell?

def toJson (report : Report) : Json :=
  .ofFields [
    ("summary", .ofFields [
      ("cycles", .ofNat report.summary.cycles),
      ("state", .ofString report.summary.state.name),
      ("pc", .ofNat report.summary.pc.toNat),
      ("a", .ofNat report.summary.a.toNat),
      ("d", .ofNat report.summary.d.toNat)]),
    ("ticks", .ofNat report.ticks),
    ("circuit", .ofFields [
      ("nodes", .ofNat report.circuit.nodes),
      ("nands", .ofNat report.circuit.nands),
      ("flip_flops", .ofNat report.circuit.flipFlops),
      ("inputs", .ofNat report.circuit.inputs)]),
    ("memory", .array (report.memory.map fun word => .ofNat word.toNat))]

/-- A word as a number without and with a sign. -/
def bothSigns (word : Word) : String := s!"{word.toNat} ({word.toInt})"

/-- Blanks in front of a text up to `width` characters. -/
def rightAligned (width : Nat) (text : List Char) : String :=
  String.ofList (text.leftpad width ' ')

def memoryLine (address : Nat) (word : Word) : String :=
  "RAM[" ++ rightAligned 5 (Text.decimal address) ++ "] = " ++
    rightAligned 6 (Text.signedDecimal word.toInt) ++
    " (" ++ String.ofList (Text.binary 16 word.toNat) ++ ")"

/-- The lines of the report, without those about the circuit. -/
def lines (report : Report) : List String :=
  ["", "━━━ Result ━━━", s!"Cycles: {report.summary.cycles}",
    "State: " ++ report.summary.state.name, s!"PC: {report.summary.pc.toNat}",
    "A:  " ++ bothSigns report.summary.a, "D:  " ++ bothSigns report.summary.d] ++
  report.memory.zipIdx.map fun (word, address) => memoryLine address word

/-- Lines about a program that was stopped. -/
def limitLines (report : Report) (maxCycles : Nat) : List String :=
  if report.summary.state = .running ∧ report.summary.cycles ≥ maxCycles then
    ["", s!"⚠️  Reached max cycles limit ({maxCycles}). Use --max-cycles to increase."]
  else []

end Report

/-- A line of a trace: an instruction by its address, and the registers after it. -/
def traceLine (pc : Word) (text : String) (after : Computer) : String :=
  String.ofList (Text.paddedDecimal 5 pc.toNat) ++ ": " ++ Assembly.padded 16 text ++
    s!" A={after.a.toNat} D={after.d.toInt}"

end NandComputer.Cli
