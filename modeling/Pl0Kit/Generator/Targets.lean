import Pl0Kit.Generator.Walk

/-!
# Targets

The texts of the four targets: assembly of the stack machine, and the Forth dialects Retro 11,
Retro 12 and Parable.
-/

namespace Pl0Kit.Generator

/-- labels with the serial number behind an underscore -/
def serialLabel (hint : String) (n : Nat) : String := "t_" ++ hint ++ "_" ++ toString n

/-- assembly: the comparison is part of the instruction's name -/
def assembly : Target where
  label := serialLabel
  varHint := "var_"
  procHint := "proc_"
  testFirst := true
  hasOdd := false
  savesText := true
  loadsText := false
  relation
    | .str w => .ok w
    | _ => .error .wrongType
  text
    | .start => "JMP main\n"
    | .cell l => l ++ ":\n    0\n"
    | .procHead p => "# Procedure " ++ p ++ "\n"
    | .procOpen l => l ++ ":\n"
    | .procClose _ => "\tRET\n"
    | .mainOpen => "main:\n"
    | .mainClose => "\tHALT\n"
    | .loopOpen top _ => top ++ ":\n"
    | .loopExit _ bottom => "\tJE " ++ bottom ++ "\n"
    | .loopClose top bottom => "\tJMP " ++ top ++ "\n" ++ bottom ++ ":\n"
    | .branch l => "\tJE " ++ l ++ "\n"
    | .join l => l ++ ":\n"
    | .odd => ""
    | .compare w => "\tCMP" ++ w ++ "\n"
    | .save l => "\tSAVE " ++ l ++ "\n"
    | .call l => "\tCALL " ++ l ++ "\n"
    | .mul => "\tMUL\n"
    | .div => "\tDIV\n"
    | .add => "\tADD\n"
    | .sub => "\tSUB\n"
    | .negate => "\tPUSH -1\n\tMUL\n"
    | .print => "\tPRINT\n\tPOP\n"
    | .number t => "\tPUSH " ++ t ++ "\n"
    | .load l => "\tLOAD " ++ l ++ "\n"
    | .constant t => "\tPUSH " ++ t ++ "\n"

def forthRelations : List (String × String) :=
  [("LT", "<"), ("LTE", "<="), ("GT", ">"), ("GTE", ">="), ("E", "="), ("NE", "<>")]

def wordRelations : List (String × String) :=
  [("LT", "lt?"), ("LTE", "lteq?"), ("GT", "gt?"), ("GTE", "gteq?"), ("E", "eq?"), ("NE", "-eq?")]

def retro11 : Target where
  label := serialLabel
  varHint := "var_"
  procHint := "proc_"
  testFirst := false
  hasOdd := false
  savesText := false
  loadsText := true
  relation := relationIn forthRelations
  text
    | .start => ""
    | .cell l => "variable " ++ l ++ "\n"
    | .procHead p => "( Procedure " ++ p ++ " )\n"
    | .procOpen l => " : " ++ l ++ " \n"
    | .procClose _ => ";\n"
    | .mainOpen => ": main \n"
    | .mainClose => ";\nmain bye\n"
    | .loopOpen _ _ => "[\n"
    | .loopExit _ _ => ""
    | .loopClose _ _ => "] while\n"
    | .branch _ => " if \n"
    | .join _ => " then\n"
    | .odd => ""
    | .compare w => " " ++ w ++ "\n"
    | .save l => " !" ++ l ++ "\n"
    | .call l => " ( call ) " ++ l ++ "\n"
    | .mul => " *\n"
    | .div => " / floor\n"
    | .add => " +\n"
    | .sub => " -\n"
    | .negate => " -1 *\n"
    | .print => " putn space\n"
    | .number t => " #" ++ t ++ "\n"
    | .load l => " @" ++ l ++ "\n"
    | .constant t => " " ++ t ++ "\n"

def parable : Target where
  label := serialLabel
  varHint := "var_"
  procHint := "proc_"
  testFirst := false
  hasOdd := false
  savesText := false
  loadsText := true
  relation := relationIn wordRelations
  text
    | .start => "'Output' var\n&Output pop drop\n"
    | .cell l => "'" ++ l ++ "' var\n"
    | .procHead p => "\"Procedure " ++ p ++ "\"\n"
    | .procOpen l => "[ ] '" ++ l ++ "' :\n[\n"
    | .procClose l => "] '" ++ l ++ "' :\n"
    | .mainOpen => "[\n"
    | .mainClose => "] 'main' :\nmain Output\n"
    | .loopOpen _ _ => "[\n"
    | .loopExit _ _ => ""
    | .loopClose _ _ => "] while\n"
    | .branch _ => "[\n"
    | .join _ => "] if-true\n"
    | .odd => ""
    | .compare w => " " ++ w ++ "\n"
    | .save l => " !" ++ l ++ "\n"
    | .call l => " |" ++ l ++ "\n"
    | .mul => " *\n"
    | .div => " / floor\n"
    | .add => " +\n"
    | .sub => " -\n"
    | .negate => " -1 *\n"
    | .print => " &Output push\n"
    | .number t => " #" ++ t ++ "\n"
    | .load l => " @" ++ l ++ "\n"
    | .constant t => " " ++ t ++ "\n"

def retro12 : Target where
  label hint n := "PL0:" ++ hint ++ toString n
  varHint := "v:"
  procHint := "p:"
  testFirst := false
  hasOdd := true
  savesText := false
  loadsText := true
  relation := relationIn wordRelations
  text
    | .start => ""
    | .cell l => "'" ++ l ++ " var\n"
    | .procHead p => "````\n\n# Procedure " ++ p ++ "\n\n````\n"
    | .procOpen l => ":" ++ l ++ "\n"
    | .procClose _ => ";\n\n"
    | .mainOpen => ":main\n"
    | .mainClose => ";\nmain\n"
    | .loopOpen _ _ => "[ "
    | .loopExit _ _ => ""
    | .loopClose _ _ => "] while "
    | .branch _ => "[ "
    | .join _ => "] if "
    | .odd => "n:odd?\n"
    | .compare w => w ++ " "
    | .save l => "!" ++ l ++ " "
    | .call l => l ++ " "
    | .mul => "* "
    | .div => "/ "
    | .add => "+ "
    | .sub => "- "
    | .negate => "n:negate "
    | .print => "putn nl "
    | .number t => "#" ++ t ++ " "
    | .load l => "@" ++ l ++ " "
    | .constant t => "(a) #" ++ t ++ " (b) "

end Pl0Kit.Generator
