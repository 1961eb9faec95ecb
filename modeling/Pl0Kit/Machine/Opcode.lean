import Pl0Kit.Value

/-!
# Instructions of the stack machine

Their names in assembly and their numbers in memory.
-/

namespace Pl0Kit.Machine

inductive Opcode where
  | nop | halt | load | save | push | pop | dup | jmp | call | ret
  | jlt | jlte | je | jne | jgte | jgt
  | cmplt | cmplte | cmpe | cmpne | cmpgte | cmpgt
  | mul | div | add | sub | print | debug
  deriving DecidableEq, Inhabited, Repr

namespace Opcode

def code : Opcode → Nat
  | nop => 0 | halt => 1 | load => 6 | save => 7 | push => 10 | pop => 11 | dup => 12
  | jmp => 16 | call => 17 | ret => 18
  | jlt => 20 | jlte => 21 | je => 22 | jne => 23 | jgte => 24 | jgt => 25
  | cmplt => 30 | cmplte => 31 | cmpe => 32 | cmpne => 33 | cmpgte => 34 | cmpgt => 35
  | mul => 43 | div => 44 | add => 45 | sub => 46 | print => 50 | debug => 51

def name : Opcode → String
  | nop => "NOP" | halt => "HALT" | load => "LOAD" | save => "SAVE" | push => "PUSH"
  | pop => "POP" | dup => "DUP" | jmp => "JMP" | call => "CALL" | ret => "RET"
  | jlt => "JLT" | jlte => "JLTE" | je => "JE" | jne => "JNE" | jgte => "JGTE" | jgt => "JGT"
  | cmplt => "CMPLT" | cmplte => "CMPLTE" | cmpe => "CMPE" | cmpne => "CMPNE"
  | cmpgte => "CMPGTE" | cmpgt => "CMPGT"
  | mul => "MUL" | div => "DIV" | add => "ADD" | sub => "SUB" | print => "PRINT"
  | debug => "DEBUG"

def all : List Opcode :=
  [nop, halt, load, save, push, pop, dup, jmp, call, ret, jlt, jlte, je, jne, jgte, jgt,
   cmplt, cmplte, cmpe, cmpne, cmpgte, cmpgt, mul, div, add, sub, print, debug]

def ofCode? (n : Int) : Option Opcode := all.find? fun o => (o.code : Int) == n

def ofName? (s : String) : Option Opcode := all.find? fun o => o.name == s

theorem ofCode?_code (o : Opcode) : ofCode? o.code = some o := by cases o <;> rfl

end Opcode

end Pl0Kit.Machine
