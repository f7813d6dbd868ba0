import TraitCalculus.Text.Quoted

/-! Tokens: their kinds, positions and the faults found while reading them. -/
namespace TraitCalculus

/-- The kinds of lexemes. `comment`, `blank` and `mismatch` never reach a token list, and
`finish` marks its end. -/
inductive Kind where
  | number | string | ident | comment
  | lparen | rparen | lbracket | rbracket | lbrace | rbrace
  | dot | comma | colon | semicolon | assign
  | add | sub | mult | div | mod
  | arrow | eq | neq | lt | leq | gt | geq | and | or | not
  | trueWord | falseWord | backslash | atSign
  | ifWord | elseWord | thenWord | traitWord | structWord | implWord
  | letWord | inWord | forWord | forallWord | typeWord
  | blank | mismatch | finish
deriving Repr, DecidableEq, Inhabited

namespace Kind

def all : List Kind :=
  [number, string, ident, comment, lparen, rparen, lbracket, rbracket, lbrace, rbrace, dot, comma,
    colon, semicolon, assign, add, sub, mult, div, mod, arrow, eq, neq, lt, leq, gt, geq, and, or,
    not, trueWord, falseWord, backslash, atSign, ifWord, elseWord, thenWord, traitWord, structWord,
    implWord, letWord, inWord, forWord, forallWord, typeWord, blank, mismatch, finish]

/-- The name of a kind in messages. -/
def label : Kind → String
  | number => "NUMBER" | string => "STRING" | ident => "IDENT" | comment => "COMMENT"
  | lparen => "LPAREN" | rparen => "RPAREN" | lbracket => "LBRACKET" | rbracket => "RBRACKET"
  | lbrace => "LBRACE" | rbrace => "RBRACE" | dot => "DOT" | comma => "COMMA"
  | colon => "COLON" | semicolon => "SEMICOLON" | assign => "ASSIGN" | add => "ADD"
  | sub => "SUB" | mult => "MULT" | div => "DIV" | mod => "MOD" | arrow => "ARROW"
  | eq => "EQ" | neq => "NEQ" | lt => "LT" | leq => "LEQ" | gt => "GT" | geq => "GEQ"
  | and => "AND" | or => "OR" | not => "NOT" | trueWord => "TRUE" | falseWord => "FALSE"
  | backslash => "BACKSLASH" | atSign => "AT" | ifWord => "IF" | elseWord => "ELSE"
  | thenWord => "THEN" | traitWord => "TRAIT" | structWord => "STRUCT" | implWord => "IMPL"
  | letWord => "LET" | inWord => "IN" | forWord => "FOR" | forallWord => "FORALL"
  | typeWord => "TYPE" | blank => "WHITESPACE" | mismatch => "MISMATCH" | finish => "EOF"

def ofLabel? (s : String) : Option Kind := all.find? (·.label = s)

/-- The words that are no identifiers. -/
def keywords : List (String × Kind) :=
  [("true", trueWord), ("false", falseWord), ("if", ifWord), ("else", elseWord),
    ("then", thenWord), ("trait", traitWord), ("struct", structWord), ("impl", implWord),
    ("let", letWord), ("in", inWord), ("for", forWord), ("forall", forallWord),
    ("type", typeWord)]

end Kind

structure Token where
  kind : Kind
  text : String
  line : Nat
  column : Nat
deriving Repr, DecidableEq, Inhabited

/-- The token that stands behind the last one. -/
def Token.finishOf (tokens : List Token) : Token :=
  match tokens.getLast? with
  | none => ⟨.finish, "EOF", 0, 0⟩
  | some t => ⟨.finish, "EOF", t.line, t.column + t.text.length⟩

inductive SyntaxFault where
  | unexpectedChar (c : Char)
  | expected (kinds : List Kind) (found : String)
  | expectedKind (kind found : Kind)
  | duplicateLabel (label : String)
  | remark (text : String)
deriving Repr, DecidableEq

def SyntaxFault.message : SyntaxFault → String
  | unexpectedChar c => "Unexpected character " ++ Text.quote (String.singleton c)
  | expected kinds found =>
    "Expected " ++ ", ".intercalate (kinds.map fun k => "'" ++ k.label ++ "'")
      ++ ", got '" ++ found ++ "'"
  | expectedKind kind found =>
    "Expected token of type 'TokenType." ++ kind.label ++ "', got 'TokenType." ++ found.label ++ "'"
  | duplicateLabel label => "Duplicate field name: " ++ label
  | remark text => text

/-- A fault at a line, or behind all input. -/
structure SyntaxError where
  line : Option Nat
  fault : SyntaxFault
deriving Repr, DecidableEq

def SyntaxError.message (e : SyntaxError) : String :=
  let place := match e.line with
    | some n => "[Line " ++ toString n ++ "]"
    | none => "[End of Input]"
  place ++ " Syntax Error: " ++ e.fault.message

namespace Token

/-- Accepts a token of one of the kinds. -/
def check (kinds : List Kind) (t : Token) : Except SyntaxError Token :=
  if t.kind ∈ kinds then .ok t else .error ⟨some t.line, .expected kinds t.text⟩

/-- Accepts a token of the kind. -/
def checkKind (kind : Kind) (t : Token) : Except SyntaxError Token :=
  if t.kind = kind then .ok t else .error ⟨some t.line, .expectedKind kind t.kind⟩

end Token

end TraitCalculus
