import NandComputer.Chip.Register
import NandComputer.Chip.Select

/-!
Random-access memory. A memory is a tree of banks over a register per cell: at
each level up to three address wires route the load wire to one bank and choose
the bank whose word is shown. Groups of three wires are counted from the least
significant end, so only the top level may have fewer.
-/

namespace NandComputer.Chip

/-- A memory: the addressed word, and the wires of every cell by address. -/
structure Memory where
  out : Bus
  cells : List Bus
  deriving DecidableEq, Repr, Inhabited

/-- Cuts a list into threes; the last part may be shorter. -/
def inThrees : List Wire → List (List Wire)
  | a :: b :: c :: rest => [a, b, c] :: inThrees rest
  | [] => []
  | short => [short]

/-- A memory whose address comes in groups, the most significant group first. -/
def memoryBank (input : Bus) : List Bus → Wire → Build Memory
  | [], load => do
    let out ← register input load
    return ⟨out, [out]⟩
  | bits :: lower, load => do
    let loads ← route load bits
    let banks ← loads.mapM fun load => memoryBank input lower load
    let out ← select (banks.map (·.out)) bits
    return ⟨out, banks.flatMap (·.cells)⟩

/-- Memory of one word for every value of `address`. -/
def memory (input : Bus) (load : Wire) (address : Bus) : Build Memory :=
  memoryBank input (inThrees address).reverse load

/-- A memory, if its address width is from 3 to 15. -/
def memory? (input : Bus) (load : Wire) (address : Bus) : Option (Build Memory) :=
  if 3 ≤ address.length ∧ address.length ≤ 15 then some (memory input load address) else none

end NandComputer.Chip
