import TraitCalculus.Ty

/-! The functions every program can use, with their names and types. -/
namespace TraitCalculus

inductive Builtin where
  | print | println | read | stringToInt | intToString | head | tail | cons
deriving Repr, DecidableEq

namespace Builtin

def all : List Builtin := [print, println, read, stringToInt, intToString, head, tail, cons]

def name : Builtin → String
  | print => "print"
  | println => "println"
  | read => "read"
  | stringToInt => "string_to_int"
  | intToString => "int_to_string"
  | head => "head"
  | tail => "tail"
  | cons => "cons"

def ofName? (x : String) : Option Builtin := all.find? (·.name = x)

def type : Builtin → Ty
  | print | println => .arrow none .string .string
  | read => .string
  | stringToInt => .arrow none .string .int
  | intToString => .arrow none .int .string
  | head => .all none "a" [] (.arrow none (.list none a) a)
  | tail => .all none "a" [] (.arrow none (.list none a) (.list none a))
  | cons => .all none "a" [] (.arrow none a (.arrow none (.list none a) (.list none a)))
where
  a : Ty := .name none "a"

theorem ofName?_name (b : Builtin) : ofName? b.name = some b := by
  cases b <;> decide

end Builtin

end TraitCalculus
