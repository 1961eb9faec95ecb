import Pl0Kit.Fault

/-!
# Tokens of PL/0

The kinds of tokens, the word each kind is called by, and tokens with their place in the text.
-/

namespace Pl0Kit

inductive Keyword where
  | odd | call | begin | «end» | «if» | «then» | «while» | «do» | const | var | procedure | write
  | writeln
  deriving DecidableEq, Inhabited, Repr

namespace Keyword

def word : Keyword → String
  | odd => "ODD" | call => "CALL" | begin => "BEGIN" | «end» => "END" | «if» => "IF"
  | «then» => "THEN" | «while» => "WHILE" | «do» => "DO" | const => "CONST" | var => "VAR"
  | procedure => "PROCEDURE" | write => "WRITE" | writeln => "WRITELN"

def all : List Keyword :=
  [odd, call, begin, «end», «if», «then», «while», «do», const, var, procedure, write, writeln]

/-- the keyword spelled by an upper-case word -/
def ofWord? (w : String) : Option Keyword := all.find? fun k => k.word == w

end Keyword

inductive Kind where
  | name | number | dot | eos | update | comma | lparen | rparen
  | lt | lte | gt | gte | e | ne
  | plus | minus | times | divide | assign | print
  | keyword (k : Keyword)
  deriving DecidableEq, Inhabited, Repr

namespace Kind

/-- the word that messages and token lists use for a kind -/
def label : Kind → String
  | name => "NAME" | number => "NUMBER" | dot => "DOT" | eos => "EOS" | update => "UPDATE"
  | comma => "COMMA" | lparen => "LPAREN" | rparen => "RPAREN"
  | lt => "LT" | lte => "LTE" | gt => "GT" | gte => "GTE" | e => "E" | ne => "NE"
  | plus => "PLUS" | minus => "MINUS" | times => "TIMES" | divide => "DIVIDE"
  | assign => "ASSIGN" | print => "PRINT"
  | keyword k => k.word

end Kind

/-- what a token carries: its text, or the number it spells -/
inductive Payload where
  | text (s : String)
  | number (n : Nat)
  deriving DecidableEq, Inhabited, Repr

namespace Payload

def toValue : Payload → Value
  | text s => .str s
  | number n => .int n

end Payload

/-- a token with its kind, payload, line, and offset in the text -/
structure Token where
  kind : Kind
  payload : Payload
  line : Int
  pos : Int
  deriving DecidableEq, Inhabited, Repr

namespace Token

def toValue (t : Token) : Value := .token t.kind.label t.payload.toValue t.line t.pos

/-- the token as a line of the token listing shows it -/
def listing (t : Token) : String := t.toValue.text

end Token

end Pl0Kit
