/-! # Lines of text

Text is put together from lines. Widths count characters.
-/

namespace Concord.Lines

/-- The lines as one text, each with a line break behind it. -/
def terminated (lines : List String) : String :=
  String.join (lines.map (· ++ "\n"))

/-- The text, with blanks behind it up to the given width. -/
def padded (width : Nat) (text : String) : String :=
  text ++ String.ofList (List.replicate (width - text.length) ' ')

end Concord.Lines
