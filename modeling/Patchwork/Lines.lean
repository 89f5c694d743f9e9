import Patchwork.Utf8

/-!
# Lines

Three readings of a text as lines: a patch is split at line feeds and loses one carriage return
per line, a file is split at line feeds without the empty piece behind a final one, and a diff
keeps the line feed as part of its line, so that a missing final one is visible.
-/

namespace Patchwork

namespace Lines

/-- Joins lines with line feeds between them. -/
def join (lines : List Bytes) : Bytes :=
  List.intercalate [Bytes.newline] lines

/-- Removes one carriage return at the end of a line. -/
def dropCarriageReturn (line : Bytes) : Bytes :=
  if line.getLast? == some Bytes.carriageReturn then line.dropLast else line

/-- The lines of a patch text. -/
def ofPatch (patch : Bytes) : List Bytes :=
  (Bytes.splitAt Bytes.newline patch).map dropCarriageReturn

/-- The lines of a file: the empty piece that a final line feed leaves is no line. -/
def ofFile (content : Bytes) : List Bytes :=
  let lines := Bytes.splitAt Bytes.newline content
  if lines.getLast? == some [] then lines.dropLast else lines

/-- The content of a file with the given lines. A last line that is empty stands for the line
feed that ends the line before it; behind any other last line that line feed is added. -/
def toFile (lines : List Bytes) : Bytes :=
  match lines.getLast? with
  | some (_ :: _) | none => join (lines ++ [[]])
  | some [] => join lines

/-- The lines of a content, each with the line feed that ends it. -/
def withEnds (content : Bytes) : List Bytes :=
  content.foldr step []
where
  /-- Puts one byte in front of the lines found behind it. -/
  step (byte : UInt8) : List Bytes → List Bytes
    | [] => [[byte]]
    | line :: rest => if byte == Bytes.newline then [byte] :: line :: rest
        else (byte :: line) :: rest

end Lines

end Patchwork
