/-!
# Splitting

The parts of a text between the occurrences of a character.  There is one part more
than there are occurrences, and parts may be empty.
-/

namespace SchemaRecords.Text

/-- The parts of a text between the occurrences of a character. -/
def splitAtChar (separator : Char) : List Char → List (List Char)
  | [] => [[]]
  | c :: rest =>
    if c = separator then [] :: splitAtChar separator rest
    else
      match splitAtChar separator rest with
      | [] => [[c]]
      | part :: parts => (c :: part) :: parts

/-- What stands before the first occurrence of a character and after it, if it occurs. -/
def splitAtFirst? (separator : Char) (text : List Char) : Option (List Char × List Char) :=
  match text.dropWhile (· ≠ separator) with
  | [] => none
  | _ :: after => some (text.takeWhile (· ≠ separator), after)

end SchemaRecords.Text
