import NandComputer.Assembly.Mnemonic

/-!
Listings: words written as assembly text that assembles to the same words.
-/

namespace NandComputer.Assembly

/-- The assembly text of a word. -/
def wordText (word : Word) : String := (Instruction.decode word).text

/-- The text followed by blanks up to `width` characters. -/
def padded (width : Nat) (text : String) : String :=
  String.ofList (text.toList.rightpad width ' ')

/-- A line of a listing: the assembly text, and address and bits as a comment. -/
def listingLine (address : Nat) (word : Word) : String :=
  padded 16 (wordText word) ++ " // " ++ String.ofList (Text.paddedDecimal 5 address) ++ ": " ++
    String.ofList (Text.binary 16 word.toNat) ++ "\n"

def listingHeader : String := "// Hack Disassembly\n// ----------------\n\n"

/-- The listing of a program. -/
def listing (words : List Word) : String :=
  listingHeader ++ String.join (words.zipIdx.map fun (word, address) => listingLine address word)

end NandComputer.Assembly
