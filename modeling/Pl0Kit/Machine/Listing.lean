import Pl0Kit.Machine.Step

/-!
# Code as a list

Code written as a bracketed list of integers and instruction names, as the machine reads it.
-/

namespace Pl0Kit.Machine

/-- one item of a listing -/
def readItem (cs : List Char) : Except Fault Value :=
  let go (negative : Bool) (ds : List Char) : Except Fault Value :=
    match Text.readNat? ds with
    | some n => .ok (.int (if negative then -(n : Int) else n))
    | none =>
      let w := String.ofList ds
      if ds.all Text.isWord && !ds.isEmpty && !(ds.head?.any Text.isDigit) then
        match Opcode.ofName? w with
        | some o => .ok (.int (if negative then -(o.code : Int) else o.code))
        | none => .error (.wrongKind ("name '" ++ w ++ "' is not defined"))
      else .error .malformed
  match Text.trim cs with
  | '-' :: ds => go true (Text.trimLeft ds)
  | '+' :: ds => go false (Text.trimLeft ds)
  | ds => go false ds

/-- the pieces of a text between commas -/
def commaPieces (cur : List Char) : List Char → List (List Char)
  | [] => [cur.reverse]
  | ',' :: cs => cur.reverse :: commaPieces [] cs
  | c :: cs => commaPieces (c :: cur) cs

/-- the code that a bracketed list stands for; a comma may follow the last item -/
def readListing (s : String) : Except Fault (List Value) :=
  match Text.trim s.toList with
  | '[' :: rest =>
    match rest.reverse with
    | ']' :: inner =>
      let pieces := commaPieces [] inner.reverse
      let pieces := match pieces.getLast? with
        | some p => if (Text.trim p).isEmpty then pieces.dropLast else pieces
        | none => pieces
      pieces.mapM readItem
    | _ => .error .malformed
  | _ => .error .malformed

end Pl0Kit.Machine
