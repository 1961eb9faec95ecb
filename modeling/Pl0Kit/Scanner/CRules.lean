import Pl0Kit.Scanner.Build

/-!
# Tokens of C

The rules of a scanner for the tokens of C.
-/

namespace Pl0Kit.Scanner.CRules

def tokens : List String :=
  ["ID", "TYPEID", "ICONST", "FCONST", "SCONST", "CCONST",
    "PLUS", "MINUS", "TIMES", "DIVIDE", "MOD",
    "OR", "AND", "NOT", "XOR", "LSHIFT", "RSHIFT",
    "LOR", "LAND", "LNOT",
    "LT", "LE", "GT", "GE", "EQ", "NE",
    "EQUALS", "TIMESEQUAL", "DIVEQUAL", "MODEQUAL", "PLUSEQUAL", "MINUSEQUAL",
    "LSHIFTEQUAL", "RSHIFTEQUAL", "ANDEQUAL", "XOREQUAL", "OREQUAL",
    "PLUSPLUS", "MINUSMINUS",
    "ARROW",
    "TERNARY",
    "LPAREN", "RPAREN",
    "LBRACKET", "RBRACKET",
    "LBRACE", "RBRACE",
    "COMMA", "PERIOD", "SEMI", "COLON",
    "ELLIPSIS"]

def patterns : List (String × String) :=
  [("PLUS", "\\+"), ("MINUS", "-"), ("TIMES", "\\*"), ("DIVIDE", "/"), ("MODULO", "%"),
    ("OR", "\\|"), ("AND", "&"), ("NOT", "~"), ("XOR", "\\^"), ("LSHIFT", "<<"), ("RSHIFT", ">>"),
    ("LOR", "\\|\\|"), ("LAND", "&&"), ("LNOT", "!"), ("LT", "<"), ("GT", ">"), ("LE", "<="),
    ("GE", ">="), ("EQ", "=="), ("NE", "!="),
    ("EQUALS", "="), ("TIMESEQUAL", "\\*="), ("DIVEQUAL", "/="), ("MODEQUAL", "%="),
    ("PLUSEQUAL", "\\+="), ("MINUSEQUAL", "-="), ("LSHIFTEQUAL", "<<="), ("RSHIFTEQUAL", ">>="),
    ("ANDEQUAL", "&="), ("OREQUAL", "\\|="), ("XOREQUAL", "^="),
    ("INCREMENT", "\\+\\+"), ("DECREMENT", "--"), ("ARROW", "->"), ("TERNARY", "\\?"),
    ("LPAREN", "\\("), ("RPAREN", "\\)"), ("LBRACKET", "\\["), ("RBRACKET", "\\]"),
    ("LBRACE", "\\\x7b"), ("RBRACE", "\\\x7d"), ("COMMA", ","), ("PERIOD", "\\."), ("SEMI", ";"),
    ("COLON", ":"), ("ELLIPSIS", "\\.\\.\\."),
    ("ID", "[A-Za-z_][A-Za-z0-9_]*"),
    ("INTEGER", "\\d+([uU]|[lL]|[uU][lL]|[lL][uU])?"),
    ("FLOAT", "((\\d+)(\\.\\d+)(e(\\+|-)?(\\d+))? | (\\d+)e(\\+|-)?(\\d+))([lL]|[fF])?"),
    ("STRING", "\\\"([^\\\\\\n]|(\\\\.))*?\\\""),
    ("CHARACTER", "(L)?\\'([^\\\\\\n]|(\\\\.))*?\\'")]

def functions : List Function :=
  [{ name := "t_COMMENT", doc := some "/\\*(.|\\n)*?\\*/", line := 1, action := .keepLines },
    { name := "t_CPPCOMMENT", doc := some "//.*\\n", line := 2, action := .keepLine }]

def spec (ignore : Option String) : Spec :=
  (Spec.ofList (
    ("tokens", .value (.list (tokens.map .str))) ::
    patterns.map (fun e => ("t_" ++ e.1, .value (.str e.2))) ++
    functions.map (fun f => (f.name, .function f)) ++
    ignore.toList.map (fun s => ("t_ignore", .value (.str s))))).sorted

end Pl0Kit.Scanner.CRules
