import NandComputer.Assembly.Assembler
import NandComputer.Computer
import NandComputer.WordMachine

/-!
A demonstration program, and checks of the whole machine from source text to
gates.
-/

namespace NandComputer.Cli

/-- Multiplies R0 by R1 into R2 by repeated addition. -/
def demoProgram : String :=
  "\n    @R2\n    M=0\n(LOOP)\n    @R1\n    D=M\n    @END\n    D;JLE\n    @R0\n    D=M\n" ++
  "    @R2\n    M=D+M\n    @R1\n    M=M-1\n    @LOOP\n    0;JMP\n(END)\n    @END\n    0;JMP\n"

/-- A computer after a run of a source. -/
def runSource (config : Config) (source : String) (cycles : Nat) : Option Computer := do
  let words ← (Assembly.assemble source).toOption
  let computer ← (Computer.build config).toOption
  let computer ← (computer.load words.toArray).toOption
  return (computer.run cycles).2

/-- A computer with a program and the first two words of memory set. -/
def withOperands (config : Config) (words : List Word) (x y : Word) :
    Except ComputerError Computer := do
  let computer ← Computer.build config
  let computer ← computer.poke 0 x
  let computer ← computer.poke 1 y
  computer.load words.toArray

/-- Whether the arithmetic units give 0 and keep x where they should. -/
def aluKeeps (x : Word) : Bool :=
  Word.alu x x 0b101010 = ⟨0, true, false⟩ ∧ (Word.extendedAlu x 1 0).out = x

/-- Whether computer and word machine agree after a run of the same program. -/
def agree (config : Config) (ticks : Nat) : Bool :=
  match Assembly.assemble demoProgram with
  | .error _ => false
  | .ok words =>
    match withOperands config words 3 4 with
    | .error _ => false
    | .ok computer =>
      let computer := ticks.repeat Computer.step computer
      let start := WordMachine.zeroed config.dataWords config.alu
      let machine := WordMachine.run words.toArray ticks
        { start with ram := (start.ram.setIfInBounds 0 3).setIfInBounds 1 4 }
      computer.a = machine.a ∧ computer.d = machine.d ∧ computer.pc = machine.pc ∧
        (List.range config.dataWords).all (fun a => computer.cell? a = machine.ram[a]?) ∧
        machine.ram[2]? = some 12

/-- The checks on machines of a size, by name. -/
def checks (addressBits : Nat) : List (String × Bool) :=
  let small : Config := ⟨addressBits, .standard⟩
  let extended : Config := ⟨addressBits, .extended⟩
  [("CPU load then add", (runSource small "@5\nD=D+A" 2).any fun c =>
      c.d = 5 ∧ c.pc = 2 ∧ (List.range 16).all fun a => c.cell? a = some 0),
    ("Memory store/load", (runSource small "@1234\nD=A\n@9\nM=D\nD=0\nD=M" 6).any fun c =>
      c.cell? 9 = some 1234 ∧ c.d = 1234),
    ("Idle loop halts", (runSource small "(END)\n@END\n0;JMP" 100).any fun c =>
      c.state = .halted),
    ("Extended ALU multiply", (runSource extended "@300\nD=A\n@7\nD=D*A" 4).any fun c =>
      c.d = 2100),
    ("ALU identities", [0, 1, 0x7FFF, 0x8000, 0xFFFF].all aluKeeps),
    ("Gates match reference machine", agree small 60)]

end NandComputer.Cli
