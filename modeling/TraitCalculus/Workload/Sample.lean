/-! A program that uses every form of the language. -/
namespace TraitCalculus.Workload

def sampleLines : List String :=
  ["",
   "// arithmetic, boolean, relational, string, list, record, if, lambda, type-lambda",
   "type MyInt = Int;",
   "type Pair = \x7ba: Int, b: Int\x7d;",
   "type IntFn = Int -> Int;",
   "type Nested = (Int -> Int) -> Int;",
   "type Poly = forall q. q -> q;",
   "type PolyB = forall q impl Show. q -> String;",
   "type L = [Int];",
   "",
   "x = 3;",
   "y = 5;",
   "x + y;",
   "x - y;",
   "x * y;",
   "x / (y - 3);",
   "x % 2;",
   "-x;",
   "-(x + 1);",
   "\"hi\" + \"there\";",
   "\"esc\\n\" + 'quote';",
   "x == y;",
   "x != y;",
   "x > y;",
   "x >= y;",
   "x < y;",
   "x <= y;",
   "true && false;",
   "true || false;",
   "false || false;",
   "true && true;",
   "!(true);",
   "!false;",
   "if x > 0 then 1 else 2;",
   "if false then \"a\" else \"b\";",
   "",
   "id = \\T. \\v:T. v;",
   "id @Int 4;",
   "id @String \"s\";",
   "id 4;",
   "id false;",
   "id id;",
   "",
   "add = \\a:Int. \\b:Int. a + b;",
   "add 1 2;",
   "inc = \\v:MyInt. v + 1;",
   "inc 10;",
   "",
   "lst = [1, 2, 3, 4];",
   "[1] + [2, 3];",
   "head lst;",
   "tail lst;",
   "cons 0 lst;",
   "cons @Int 9 [1];",
   "head @Int [7, 8];",
   "tail @Int [7, 8];",
   "",
   "rec = \x7ba = 1, b = \"two\", c = true\x7d;",
   "rec.a;",
   "rec.b;",
   "rec.c;",
   "(1 + 2): Int;",
   "\x7bk = 1\x7d.k;",
   "",
   "int_to_string 42;",
   "string_to_int \"17\";",
   "",
   "trait Show a \x7b",
   "    show: a -> String;",
   "\x7d",
   "trait Eq a \x7b",
   "    eq: a -> a -> Bool;",
   "\x7d",
   "struct Point \x7b",
   "    px: Int;",
   "    py: Int;",
   "\x7d",
   "impl Show for Int \x7b",
   "    show = int_to_string;",
   "\x7d",
   "impl Show for String \x7b",
   "    show = \\s:String. s;",
   "\x7d",
   "impl Show for Point \x7b",
   "    show = \\p:Point. \"(\" + (int_to_string p.px) + \",\" + (int_to_string p.py) + \")\";",
   "\x7d",
   "impl Show for [Int] \x7b",
   "    show = \\xs:[Int]. int_to_string (head xs);",
   "\x7d",
   "impl Eq for Int \x7b",
   "    eq = \\a:Int. \\b:Int. a == b;",
   "\x7d",
   "impl Eq for Point \x7b",
   "    eq = \\p:Point. \\q:Point. p.px == q.px && p.py == q.py;",
   "\x7d",
   "",
   "show 1;",
   "show \"A\";",
   "show (Point 1 2);",
   "show [5, 6, 7];",
   "eq 1 1;",
   "eq (Point 1 2) (Point 1 2);",
   "",
   "show_twice = \\T impl Show. \\v:T. (show v) + (show v);",
   "show_twice 1;",
   "show_twice \"A\";",
   "show_twice (Point 3 4);",
   "",
   "show_if_eq = \\T impl Show + Eq. \\a:T. \\b:T.",
   "    if (eq a b) then (show a) else \"neq\";",
   "show_if_eq 1 1;",
   "show_if_eq (Point 1 2) (Point 9 9);",
   "",
   "apply = \\U. \\f:(U -> U). \\v:U. f v;",
   "apply @Int inc 3;",
   "",
   "poly = \\T. \\v:T. if true then v else v;",
   "poly @Bool true;",
   "",
   "nested = \\T. \\xs:[T]. head xs;",
   "nested [1, 2];",
   "nested @Int [1, 2];",
   "",
   "annot = (\\v:Int. v): (Int -> Int);",
   "annot 3;",
   "",
   "pp = Point 7 8;",
   "pp.px + pp.py;",
   ";",
   "1 + 1;",
   ""]

/-- The sample program. It ends with a line end, so that copies can follow each other. -/
def sample : String := "\n".intercalate sampleLines

/-- The sample program so many times over, and nothing for a number below one. -/
def copies (n : Int) : String := String.join (List.replicate n.toNat sample)

end TraitCalculus.Workload
