import TraitCalculus.Text.Digit
import TraitCalculus.Token

/-! The lexer. It cuts a text into lexemes that cover it, and gives each lexeme that is neither
blank nor comment its place as a token. -/
namespace TraitCalculus

structure Lexeme where
  kind : Kind
  text : List Char
deriving Repr, DecidableEq

namespace Lexeme

def isBlankChar (c : Char) : Bool := c = ' ' || c = '\t' || c = '\r' || c = '\n'

def isWordStart (c : Char) : Bool :=
  ('a' ≤ c && c ≤ 'z') || ('A' ≤ c && c ≤ 'Z') || c = '_'

def isWordChar (c : Char) : Bool := isWordStart c || ('0' ≤ c && c ≤ '9')

/-- Operators and punctuation of two characters. -/
def pairKind? (c d : Char) : Option Kind :=
  if c = '-' ∧ d = '>' then some .arrow
  else if c = '=' ∧ d = '=' then some .eq
  else if c = '!' ∧ d = '=' then some .neq
  else if c = '<' ∧ d = '=' then some .leq
  else if c = '>' ∧ d = '=' then some .geq
  else if c = '&' ∧ d = '&' then some .and
  else if c = '|' ∧ d = '|' then some .or
  else none

/-- Operators and punctuation of one character, each with its kind. -/
def marks : List (Char × Kind) :=
  [('(', .lparen), (')', .rparen), ('[', .lbracket), (']', .rbracket), ('\x7b', .lbrace),
    ('\x7d', .rbrace), ('.', .dot), (',', .comma), (':', .colon), (';', .semicolon),
    ('=', .assign), ('<', .lt), ('>', .gt), ('+', .add), ('-', .sub), ('*', .mult),
    ('/', .div), ('%', .mod), ('!', .not), ('\\', .backslash), ('@', .atSign)]

def markKind? (c : Char) : Option Kind := marks.lookup c

/-- The digits behind a number's point, with the point. -/
def fraction : List Char → List Char
  | '.' :: d :: cs => if Text.isDigit d then '.' :: d :: cs.takeWhile Text.isDigit else []
  | _ => []

/-- A number that starts with the digit `c`. -/
def number (c : Char) (cs : List Char) : Lexeme :=
  ⟨.number, c :: cs.takeWhile Text.isDigit ++ fraction (cs.dropWhile Text.isDigit)⟩

/-- A text that starts with the quote `q`; a quote that is not closed on its line is none. -/
def quoted (q : Char) (cs : List Char) : Lexeme :=
  let body := cs.takeWhile fun c => c ≠ q && c ≠ '\n'
  if (cs.drop body.length).head? = some q then ⟨.string, q :: body ++ [q]⟩ else ⟨.mismatch, [q]⟩

/-- What `c` starts when it is no digit, quote, letter or blank. -/
def symbol (c : Char) (cs : List Char) : Lexeme :=
  match cs.head?.bind (pairKind? c), cs.head? with
  | some k, some d => ⟨k, [c, d]⟩
  | _, _ => ⟨(markKind? c).getD .mismatch, [c]⟩

def wordKind (w : List Char) : Kind := (Kind.keywords.lookup (String.ofList w)).getD .ident

/-- The lexeme at the front of `c :: cs`. -/
def first (c : Char) (cs : List Char) : Lexeme :=
  if Text.isDigit c then number c cs
  else if c = '"' ∨ c = '\x27' then quoted c cs
  else if c = '/' ∧ cs.head? = some '/' then ⟨.comment, c :: cs.takeWhile (· ≠ '\n')⟩
  else if isWordStart c then
    let w := c :: cs.takeWhile isWordChar
    ⟨wordKind w, w⟩
  else if isBlankChar c then ⟨.blank, c :: cs.takeWhile isBlankChar⟩
  else symbol c cs

/-- Cuts a text into lexemes. `skip` counts the characters that still belong to the lexeme
found last, and `done` holds the lexemes, last first. -/
def cut (done : List Lexeme) : Nat → List Char → List Lexeme
  | _, [] => done.reverse
  | skip + 1, _ :: cs => cut done skip cs
  | 0, c :: cs =>
    let x := first c cs
    cut (x :: done) (x.text.length - 1) cs

/-- The lexemes of a text, in order. -/
def all (cs : List Char) : List Lexeme := cut [] 0 cs

/-- In quotes, a backslash with an `n` stands for a newline. -/
def unescape : List Char → List Char
  | '\\' :: 'n' :: cs => '\n' :: unescape cs
  | c :: cs => c :: unescape cs
  | [] => []

/-- The text a token keeps of its lexeme. -/
def value (x : Lexeme) : String :=
  if x.kind = .string then String.ofList (unescape (x.text.drop 1).dropLast)
  else String.ofList x.text

end Lexeme

/-- A place in a text, both counts from one. -/
structure Position where
  line : Nat := 1
  column : Nat := 1
deriving Repr, DecidableEq

namespace Position

def step (p : Position) (c : Char) : Position :=
  if c = '\n' then ⟨p.line + 1, 1⟩ else ⟨p.line, p.column + 1⟩

/-- The place behind a text that starts at `p`. -/
def after (p : Position) (cs : List Char) : Position := cs.foldl step p

end Position

namespace Token

/-- Places lexemes from `p` on. `done` holds the tokens so far, last first. -/
def place (done : List Token) (p : Position) : List Lexeme → Except SyntaxError (List Token)
  | [] => .ok done.reverse
  | x :: xs =>
    match x.kind with
    | .blank | .comment => place done (p.after x.text) xs
    | .mismatch => .error ⟨some p.line, .unexpectedChar (x.text.headD ' ')⟩
    | k => place (⟨k, x.value, p.line, p.column⟩ :: done) (p.after x.text) xs

/-- The tokens of a text. -/
def ofText (code : String) : Except SyntaxError (List Token) :=
  place [] {} (Lexeme.all code.toList)

end Token

end TraitCalculus
