import NandComputer.Config
import NandComputer.Proofs.Json.Reading
import NandComputer.Proofs.Program.Reading

/-!
The file of a program is read back as the program. It is no configuration, whatever the
program: read as JSON it is a number or nothing.
-/

namespace NandComputer

namespace Program

theorem ofFile_render (words : List Word) : ofFile (.ok (render words)) = .ok words := by
  simp only [ofFile, Except.mapError, bind, Except.bind, parse_render]

end Program

/-- A text that starts with a bit denotes a number or nothing, so it is no configuration. -/
theorem Json.exists_number_of_parse {text : String} {json : Json} {c : Char} {rest : List Char}
    (htext : text.toList = c :: rest) (hbit : Text.isBit c) (h : parse text = some json) :
    ∃ value, json = .number value := by
  rw [parse, htext, (readValue_of_isDigit (Text.isDigit_of_isBit hbit) _ rest).2] at h
  cases hnumber : readNumber (c :: rest) with
  | none =>
    rw [hnumber] at h
    cases h
  | some found =>
    simp only [hnumber, Option.map_some] at h
    split at h
    case isTrue => exact ⟨found.1, (Option.some.inj h).symm⟩
    case isFalse => cases h

/-- The text of a program is no configuration, not even that of a program without words. -/
theorem Config.parse_render (words : List Word) :
    parse (Program.render words) = .error .malformed := by
  have hjson : (Json.parse (Program.render words)).bind ofJson? = none := by
    cases words with
    | nil => rfl
    | cons word rest =>
      cases hdigits : Text.digitsOf word with
      | nil => exact absurd hdigits (Program.digitsOf_ne_nil word)
      | cons c digits =>
        have hmem : c ∈ Text.digitsOf word := by
          rw [hdigits]
          exact List.mem_cons_self
        have hbit : Text.isBit c := Text.isBit_iff.mpr ((Program.isWordText_digitsOf word).2 c hmem)
        have htext := Program.toList_render (word :: rest)
        rw [List.map_cons, List.flatMap_cons, hdigits] at htext
        cases hparse : Json.parse (Program.render (word :: rest)) with
        | none => rfl
        | some json =>
          obtain ⟨value, rfl⟩ := Json.exists_number_of_parse htext hbit hparse
          rfl
  rw [parse, hjson]

end NandComputer
