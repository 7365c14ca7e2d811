import NandComputer.Netlist.Basic

/-!
The combinational gates. Only `Build.nand` touches the primitive; every other
gate is composed of gates before it. The order in which a gate appends its
nodes is part of its contract, because a wire is the index of its node.
-/

namespace NandComputer.Chip

open Build

def not (a : Wire) : Build Wire := nand a a

def and (a b : Wire) : Build Wire := do
  not (← nand a b)

def or (a b : Wire) : Build Wire := do
  let notA ← not a
  let notB ← not b
  nand notA notB

def xor (a b : Wire) : Build Wire := do
  let both ← nand a b
  let left ← nand a both
  let right ← nand b both
  nand left right

/-- `b` if `sel` is 1 and `a` otherwise, given the inverse of `sel`. -/
def muxPair (a b sel notSel : Wire) : Build Wire := do
  let left ← nand a notSel
  let right ← nand b sel
  nand left right

/-- `b` if `sel` is 1 and `a` otherwise. -/
def mux (a b sel : Wire) : Build Wire := do
  muxPair a b sel (← not sel)

/-- Routes `input` to the first output if `sel` is 0 and to the second if it is
1. The other output is 0. -/
def demux (input sel : Wire) : Build (Wire × Wire) := do
  let notSel ← not sel
  let low ← and input notSel
  let high ← and input sel
  return (low, high)

def notBus (a : Bus) : Build Bus := a.mapM not

def andBus (a b : Bus) : Build Bus := (a.zip b).mapM fun (a, b) => and a b

def orBus (a b : Bus) : Build Bus := (a.zip b).mapM fun (a, b) => or a b

/-- `b` if `sel` is 1 and `a` otherwise, with one inverter for all bits. -/
def muxBus (a b : Bus) (sel : Wire) : Build Bus := do
  let notSel ← not sel
  (a.zip b).mapM fun (a, b) => muxPair a b sel notSel

/-- Forces every bit to 0 unless `enable` is 1. -/
def enableBus (a : Bus) (enable : Wire) : Build Bus := andBus a (Bus.splat a.length enable)

/-- Joins wires as a balanced tree: the lower half first, then the upper half. -/
def balanced (unit : Build Wire) (join : Wire → Wire → Build Wire) (inputs : List Wire) :
    Build Wire :=
  match inputs with
  | [] => unit
  | [single] => pure single
  | first :: second :: rest => do
    let half := (first :: second :: rest).length / 2
    let low ← balanced unit join ((first :: second :: rest).take half)
    let high ← balanced unit join ((first :: second :: rest).drop half)
    join low high
  termination_by inputs.length
  decreasing_by all_goals simp; omega

/-- 1 if any input is 1. -/
def anyOf (inputs : List Wire) : Build Wire := balanced zero or inputs

/-- 1 if all inputs are 1. -/
def allOf (inputs : List Wire) : Build Wire := balanced one and inputs

end NandComputer.Chip
