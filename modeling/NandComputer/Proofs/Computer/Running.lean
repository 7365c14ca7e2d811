import Mathlib.Logic.Function.Iterate
import Mathlib.Order.Bounds.Defs
import NandComputer.Computer
import NandComputer.Proofs.Netlist.Interaction

/-!
Runs as repeated steps. An idle loop is noticed before the first step of a run and
after every step, so nothing is left to be noticed where a run ends, and a run can
be cut anywhere. It ends at the first state that is halted or in an idle loop.
-/

namespace NandComputer

namespace Computer

variable (c : Computer)

theorem noteIdle_of_isIdle_eq_false {c : Computer} (h : c.isIdle = false) : c.noteIdle = c := by
  rw [noteIdle, h]
  rfl

/-- Whether a computer counts as halted does not matter to what is noticed, so noticing twice
is noticing once. -/
theorem noteIdle_noteIdle : c.noteIdle.noteIdle = c.noteIdle := by
  cases hidle : c.isIdle with
  | false => rw [noteIdle_of_isIdle_eq_false hidle, noteIdle_of_isIdle_eq_false hidle]
  | true =>
    have hnoted : c.noteIdle = { c with state := .halted } := by
      rw [noteIdle, hidle, if_pos rfl]
    rw [hnoted, noteIdle, ite_eq_left_iff]
    exact fun _ => rfl

theorem noteIdle_step : c.step.noteIdle = c.step := noteIdle_noteIdle _

theorem ticks_noteIdle : c.noteIdle.ticks = c.ticks := by
  rw [noteIdle]
  split <;> rfl

theorem ticks_step : c.step.ticks = c.ticks + 1 := by
  rw [step, ticks_noteIdle]
  dsimp only [ticks, Simulation.tick, Simulation.commit]
  rw [Simulation.ticks_settle, Simulation.ticks_setBus]

/-- Every cycle counted is a tick, and there are no other ticks in a run. -/
theorem ticks_advance (fuel cycles : Nat) :
    (advance fuel cycles c).2.ticks + cycles = c.ticks + (advance fuel cycles c).1 := by
  induction fuel generalizing cycles c with
  | zero => rfl
  | succ fuel ih =>
    rw [advance]
    split
    case isTrue =>
      have hrest := ih c.step (cycles + 1)
      rw [ticks_step] at hrest
      omega
    case isFalse => rfl

theorem le_cycles_advance (fuel cycles : Nat) : cycles ≤ (advance fuel cycles c).1 := by
  induction fuel generalizing cycles c with
  | zero => exact Nat.le_refl cycles
  | succ fuel ih =>
    rw [advance]
    split
    case isTrue => exact Nat.le_of_succ_le (ih c.step (cycles + 1))
    case isFalse => exact Nat.le_refl cycles

/-- After a step nothing is left to be noticed, so nothing is after the steps of a run. -/
theorem noteIdle_advance {c : Computer} (h : c.noteIdle = c) (fuel cycles : Nat) :
    (advance fuel cycles c).2.noteIdle = (advance fuel cycles c).2 := by
  induction fuel generalizing cycles c with
  | zero => exact h
  | succ fuel ih =>
    rw [advance]
    split
    case isTrue => exact ih c.noteIdle_step (cycles + 1)
    case isFalse => exact h

theorem advance_of_not_running {c : Computer} (h : c.state ≠ .running) (fuel cycles : Nat) :
    advance fuel cycles c = (cycles, c) := by
  cases fuel with
  | zero => rfl
  | succ fuel => exact if_neg h

/-- The steps of a run are taken in two parts. If the first part stops early, the second takes
none. -/
theorem advance_add (m n cycles : Nat) : advance (m + n) cycles c =
    advance n (advance m cycles c).1 (advance m cycles c).2 := by
  induction m generalizing cycles c with
  | zero => rw [Nat.zero_add, advance]
  | succ m ih =>
    rw [Nat.succ_add, advance, advance]
    split
    case isTrue => exact ih c.step (cycles + 1)
    case isFalse hhalted => exact (advance_of_not_running hhalted n cycles).symm

/-- What is counted before does not matter to the steps, and is added to their number. -/
theorem advance_eq (fuel cycles : Nat) :
    advance fuel cycles c = (cycles + (advance fuel 0 c).1, (advance fuel 0 c).2) := by
  induction fuel generalizing cycles c with
  | zero => rfl
  | succ fuel ih =>
    rw [advance, advance]
    split
    case isTrue => rw [ih c.step (cycles + 1), ih c.step (0 + 1), Nat.zero_add, Nat.add_assoc]
    case isFalse => rfl

theorem run_zero : c.run 0 = (c.noteIdle.result 0, c.noteIdle) := rfl

/-- In an idle loop from the start, nothing is executed, as the loop is noticed before the
first step. -/
theorem cycles_run_of_isIdle {c : Computer} (h : c.isIdle = true) (maxCycles : Nat) :
    (c.run maxCycles).1.cycles = 0 := by
  have hnoted : c.noteIdle.state ≠ .running := by
    rw [noteIdle, h, if_pos rfl]
    exact RunState.noConfusion
  dsimp only [run]
  rw [advance_of_not_running hnoted]
  rfl

/-- Halted, or in an idle loop that may still have to be noticed. -/
def Stopped : Prop := c.state = .halted ∨ c.isIdle = true

theorem state_noteIdle_eq_halted_iff : c.noteIdle.state = .halted ↔ c.Stopped := by
  rw [noteIdle, Stopped]
  cases c.isIdle <;> simp

theorem not_stopped_of_running {c : Computer} (h : c.noteIdle = c) (hrunning : c.state = .running) :
    ¬ c.Stopped := by
  rw [← state_noteIdle_eq_halted_iff, h, hrunning]
  exact RunState.noConfusion

/-- Where nothing is left to be noticed, steps are taken up to the first stop, or as many as
they may be. The induction is on this number. -/
theorem exists_advance_eq {c : Computer} (h : c.noteIdle = c) (fuel cycles : Nat) :
    ∃ k, advance fuel cycles c = (cycles + k, step^[k] c) ∧
      IsLeast {j | (step^[j] c).Stopped ∨ j = fuel} k := by
  induction fuel generalizing cycles c with
  | zero => exact ⟨0, rfl, .inr rfl, fun _ _ => Nat.zero_le _⟩
  | succ fuel ih =>
    rw [advance]
    split
    case isTrue hrunning =>
      obtain ⟨k, hsteps, hstop, hfirst⟩ := ih c.noteIdle_step (cycles + 1)
      refine ⟨k + 1, ?_, hstop.imp_right (congrArg (· + 1)), fun j hj => ?_⟩
      · rw [hsteps, Nat.add_assoc, Nat.add_comm 1]
        rfl
      · cases j with
        | zero =>
          exact absurd (hj.resolve_right (Nat.succ_ne_zero fuel).symm)
            (not_stopped_of_running h hrunning)
        | succ j => exact Nat.succ_le_succ (hfirst (hj.imp_right Nat.succ.inj))
    case isFalse hhalted =>
      have hstopped : c.Stopped := by
        cases hstate : c.state with
        | running => exact absurd hstate hhalted
        | halted => exact .inl hstate
      exact ⟨0, rfl, .inl hstopped, fun _ _ => Nat.zero_le _⟩

/-- Nothing is left to be noticed after a run, which is why another run can follow. -/
theorem noteIdle_run (maxCycles : Nat) : (c.run maxCycles).2.noteIdle = (c.run maxCycles).2 :=
  noteIdle_advance c.noteIdle_noteIdle maxCycles 0

/-- A run may be interrupted anywhere: two runs one after the other take the same steps as one
with the sum of their bounds. -/
theorem run_add (m n : Nat) : ((c.run m).2.run n).2 = (c.run (m + n)).2 ∧
    (c.run m).1.cycles + ((c.run m).2.run n).1.cycles = (c.run (m + n)).1.cycles := by
  have hsecond : (c.run m).2.run n =
      ((advance n 0 (c.run m).2).2.result (advance n 0 (c.run m).2).1,
        (advance n 0 (c.run m).2).2) := by
    rw [run, noteIdle_run]
  have hwhole : advance (m + n) 0 c.noteIdle =
      ((c.run m).1.cycles + (advance n 0 (c.run m).2).1, (advance n 0 (c.run m).2).2) := by
    rw [advance_add, advance_eq]
    rfl
  rw [hsecond]
  dsimp only [run]
  rw [hwhole]
  exact ⟨rfl, rfl⟩

/-- A run takes the steps up to the first stop, as far as it may, and notices the stop. What
it counts is the least number with this property. -/
theorem isLeast_cycles_run (maxCycles : Nat) :
    IsLeast {k | (step^[k] c).Stopped ∨ k = maxCycles} (c.run maxCycles).1.cycles ∧
      (c.run maxCycles).2 = (step^[(c.run maxCycles).1.cycles] c).noteIdle := by
  by_cases hstopped : c.Stopped
  · have hhalted : c.noteIdle.state = .halted := c.state_noteIdle_eq_halted_iff.mpr hstopped
    have hstay : c.noteIdle.state ≠ .running := by
      rw [hhalted]
      exact RunState.noConfusion
    dsimp only [run]
    rw [advance_of_not_running hstay]
    exact ⟨⟨.inl hstopped, fun _ _ => Nat.zero_le _⟩, rfl⟩
  · have hidle : c.isIdle = false := by
      simpa using fun hidle => hstopped (.inr hidle)
    have hnoted := noteIdle_of_isIdle_eq_false hidle
    obtain ⟨k, hsteps, hleast⟩ := exists_advance_eq hnoted maxCycles 0
    have hlast := noteIdle_advance hnoted maxCycles 0
    rw [hsteps] at hlast
    dsimp only [run]
    rw [hnoted, hsteps]
    dsimp only [result]
    rw [Nat.zero_add]
    exact ⟨hleast, hlast.symm⟩

/-- Two runs one after the other are one run, and every run takes the least number of steps
after which the computer is halted or in an idle loop, or else as many as it may. This is so
in every state, whether a loop has been noticed in it or not, and the result of a run is that
of its last state. -/
theorem run_resumes_and_stops_first :
    (∀ m n, ((c.run m).2.run n).2 = (c.run (m + n)).2 ∧
        (c.run (m + n)).1 = { ((c.run m).2.run n).1 with
          cycles := (c.run m).1.cycles + ((c.run m).2.run n).1.cycles }) ∧
      ∀ maxCycles, IsLeast {k | (step^[k] c).Stopped ∨ k = maxCycles} (c.run maxCycles).1.cycles ∧
        (c.run maxCycles).2 = (step^[(c.run maxCycles).1.cycles] c).noteIdle ∧
        ((c.run maxCycles).2.state = .halted ↔
          (step^[(c.run maxCycles).1.cycles] c).Stopped) ∧
        (c.run maxCycles).2.ticks = c.ticks + (c.run maxCycles).1.cycles := by
  refine ⟨fun m n => ?_, fun maxCycles => ?_⟩
  · obtain ⟨hlast, hcycles⟩ := c.run_add m n
    refine ⟨hlast, ?_⟩
    rw [hcycles]
    exact congrArg (result · (c.run (m + n)).1.cycles) hlast.symm
  · obtain ⟨hleast, hlast⟩ := c.isLeast_cycles_run maxCycles
    refine ⟨hleast, hlast, ?_, ?_⟩
    · rw [hlast, state_noteIdle_eq_halted_iff]
    · have hticks := c.noteIdle.ticks_advance maxCycles 0
      rw [ticks_noteIdle] at hticks
      exact hticks

end Computer

end NandComputer
