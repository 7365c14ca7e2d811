import NandComputer.Computer
import NandComputer.Proofs.Computer.Step

/-!
A computer without gates: the word machine with a program beside it. It takes
the same calls as the gate-level computer, and every tick is one step of the
word machine on the program word at the program counter.
-/

namespace NandComputer

/-- A call on a computer. -/
inductive ComputerCall where
  | load (program : Array Word)
  | poke (address : Nat) (value : Word)
  | step
  | run (maxCycles : Nat)
  | reset
  deriving DecidableEq

/-- What a call returns. -/
inductive ComputerAnswer where
  | done
  | executed (instruction : Instruction)
  | ran (result : RunResult)
  | refused (error : ComputerError)
  deriving DecidableEq

/-- A refused call leaves the computer as it was. -/
def Computer.call (c : Computer) : ComputerCall → ComputerAnswer × Computer
  | .load program =>
    match c.load program with
    | .ok c => (.done, c)
    | .error error => (.refused error, c)
  | .poke address value =>
    match c.poke address value with
    | .ok c => (.done, c)
    | .error error => (.refused error, c)
  | .step => (.executed c.next, c.step)
  | .run maxCycles => (.ran (c.run maxCycles).1, (c.run maxCycles).2)
  | .reset => (.done, c.reset)

structure WordComputer where
  machine : WordMachine
  rom : Array Word
  state : RunState
  ticks : Nat
  deriving DecidableEq

namespace WordComputer

/-- At the start everything is 0 and there is no program. -/
def initial (config : Config) : WordComputer where
  machine := .zeroed config.dataWords config.alu
  rom := #[]
  state := .running
  ticks := 0

def load (c : WordComputer) (program : Array Word) : Except ComputerError WordComputer :=
  if romWords < program.size then .error (.programTooLarge program.size)
  else .ok { c with rom := program, state := .running }

def poke (c : WordComputer) (address : Nat) (value : Word) : Except ComputerError WordComputer :=
  if address < c.machine.ram.size then
    .ok { c with machine := { c.machine with ram := c.machine.ram.setIfInBounds address value } }
  else .error (.addressOutOfRange address c.machine.ram.size)

/-- The program word at an address, or 0 past the end of the program. -/
def fetch (c : WordComputer) (address : Word) : Word := c.rom.getD address.toNat 0

def next (c : WordComputer) : Instruction := .decode (c.fetch c.machine.pc)

/-- Whether the program counter is at a jump to itself, or at the instruction
that loads its own address for the jump after it. -/
def isIdle (c : WordComputer) : Bool :=
  match c.next with
  | .address target =>
    target == c.machine.pc && (Instruction.decode (c.fetch (c.machine.pc + 1))).isPlainJump
  | .compute .. => c.next.isPlainJump && WordMachine.addressOf c.machine.a == c.machine.pc

def noteIdle (c : WordComputer) : WordComputer :=
  if c.isIdle then { c with state := .halted } else c

/-- A tick of the word machine. -/
def tick (c : WordComputer) (reset : Bool) : WordComputer :=
  { c with machine := c.machine.tick (c.fetch c.machine.pc) reset, ticks := c.ticks + 1 }

def step (c : WordComputer) : WordComputer := noteIdle (c.tick false)

def reset (c : WordComputer) : WordComputer := { c.tick true with state := .running }

/-- Takes at most so many steps, as long as the program runs, and counts them. -/
def advance : Nat → Nat → WordComputer → Nat × WordComputer
  | 0, cycles, c => (cycles, c)
  | fuel + 1, cycles, c =>
    if c.state = .running then advance fuel (cycles + 1) c.step else (cycles, c)

def run (maxCycles : Nat) (c : WordComputer) : RunResult × WordComputer :=
  let (cycles, c) := advance maxCycles 0 c.noteIdle
  (⟨cycles, c.state, c.machine.pc, c.machine.a, c.machine.d⟩, c)

def call (c : WordComputer) : ComputerCall → ComputerAnswer × WordComputer
  | .load program =>
    match c.load program with
    | .ok c => (.done, c)
    | .error error => (.refused error, c)
  | .poke address value =>
    match c.poke address value with
    | .ok c => (.done, c)
    | .error error => (.refused error, c)
  | .step => (.executed c.next, c.step)
  | .run maxCycles => (.ran (c.run maxCycles).1, (c.run maxCycles).2)
  | .reset => (.done, c.reset)

variable (c : WordComputer)

theorem machine_noteIdle : c.noteIdle.machine = c.machine := by
  unfold noteIdle
  split <;> rfl

theorem withState_noteIdle (state : RunState) :
    { c.noteIdle with state } = { c with state } := by
  unfold noteIdle
  split <;> rfl

theorem rom_noteIdle : c.noteIdle.rom = c.rom := by
  unfold noteIdle
  split <;> rfl

/-- The word machine of a run takes the steps that the run counts, and no others, since
noticing an idle loop changes nothing of the machine. -/
theorem machine_advance (fuel cycles : Nat) : ∃ ticks ≤ fuel,
    (advance fuel cycles c).1 = cycles + ticks ∧
      (advance fuel cycles c).2.machine = WordMachine.run c.rom ticks c.machine := by
  induction fuel generalizing cycles c with
  | zero => exact ⟨0, Nat.le_refl 0, rfl, rfl⟩
  | succ fuel ih =>
    rw [advance]
    split
    case isTrue =>
      obtain ⟨ticks, hle, hcycles, hmachine⟩ := ih c.step (cycles + 1)
      refine ⟨ticks + 1, Nat.succ_le_succ hle, ?_, ?_⟩
      · rw [hcycles, Nat.add_assoc, Nat.add_comm 1]
      · rw [hmachine, step, rom_noteIdle, machine_noteIdle]
        rfl
    case isFalse => exact ⟨0, Nat.zero_le _, rfl, rfl⟩

/-- A run counts at most the steps that it may take, and its machine is the one after as many
steps as it counts. -/
theorem machine_run (maxCycles : Nat) : (c.run maxCycles).1.cycles ≤ maxCycles ∧
    (c.run maxCycles).2.machine =
      WordMachine.run c.rom (c.run maxCycles).1.cycles c.machine := by
  obtain ⟨ticks, hle, hcycles, hmachine⟩ := machine_advance c.noteIdle maxCycles 0
  rw [Nat.zero_add] at hcycles
  rw [rom_noteIdle, machine_noteIdle, ← hcycles] at hmachine
  exact ⟨by rwa [← hcycles] at hle, hmachine⟩

end WordComputer

end NandComputer
