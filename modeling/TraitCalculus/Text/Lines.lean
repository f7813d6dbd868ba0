/-! Lines of a text: the line ends of all scripts for the outline of a tree, and the three
line ends `\n`, `\r`, `\r\n` for text that comes from outside. -/
namespace TraitCalculus.Text

/-- Characters that end a line. -/
def isLineEnd (c : Char) : Bool :=
  let n := c.toNat
  (0x0a ≤ n && n ≤ 0x0d) || (0x1c ≤ n && n ≤ 0x1e) || n == 0x85 || n == 0x2028 || n == 0x2029

/-- The lines of a text, without their ends. `\r\n` is one end, and no empty line follows the
last end. `line` holds the characters of the current line and `done` the lines before it, both
last first. -/
def splitLines (done : List (List Char)) (line : List Char) : List Char → List (List Char)
  | [] => (if line.isEmpty then done else line.reverse :: done).reverse
  | '\r' :: '\n' :: cs => splitLines (line.reverse :: done) [] cs
  | c :: cs =>
    if isLineEnd c then splitLines (line.reverse :: done) [] cs
    else splitLines done (c :: line) cs

def lines (s : String) : List String :=
  (splitLines [] [] s.toList).map String.ofList

/-- Each line of `s` behind `pad`, divided by newlines. -/
def indentLines (pad s : String) : String :=
  "\n".intercalate ((lines s).map (pad ++ ·))

/-- Makes `\r\n` and `\r` newlines. `done` holds the result so far, last character first. -/
def plainNewlines (done : List Char) : List Char → List Char
  | [] => done.reverse
  | '\r' :: '\n' :: cs => plainNewlines ('\n' :: done) cs
  | '\r' :: cs => plainNewlines ('\n' :: done) cs
  | c :: cs => plainNewlines (c :: done) cs

/-- A text as it is read from a file or a terminal. -/
def fromOutside (s : String) : String :=
  String.ofList (plainNewlines [] s.toList)

end TraitCalculus.Text
