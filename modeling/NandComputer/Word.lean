/-!
The machine word: 16 bits, in two's complement where a sign matters. Addresses
of the program and of data have 15.
-/

namespace NandComputer

abbrev Word := BitVec 16

/-- Number of instructions that a program can have. -/
def romWords : Nat := 1 <<< 15

end NandComputer
