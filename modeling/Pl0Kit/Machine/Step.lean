import Pl0Kit.Machine.Assemble
import Pl0Kit.Value.Access

/-!
# The stack machine

One memory holds code and data, beside a stack that holds operands and return addresses.  Places
count from 0; a negative place counts from the end of the memory.  A binary operation takes the top
of the stack as its left operand.

A step that faults keeps what it had done before: the offset moved, the operands taken.
-/

namespace Pl0Kit.Machine

structure State where
  memory : List Value
  /-- the top is first -/
  stack : List Value := []
  offset : Value := .int 0
  out : String := ""
  deriving Inhabited

abbrev StepM (α : Type) := ExceptT Fault (StateM State) α

namespace State

def place (s : State) (a : Value) : Except Fault Nat :=
  match a.toInt? with
  | none => .error .wrongType
  | some i =>
    let n : Int := s.memory.length
    let j := if i < 0 then i + n else i
    if 0 ≤ j ∧ j < n then .ok j.toNat else .error .outOfRange

def cell (s : State) (a : Value) : Except Fault Value := do
  let i ← s.place a
  match s.memory[i]? with
  | some v => .ok v
  | none => .error .outOfRange

def debug (s : State) : String :=
  "-- Machine State --\n" ++
    "Sequence: " ++ (Value.list s.memory).text ++ "\n" ++
    "Stack: " ++ (Value.list s.stack.reverse).text ++ "\n" ++
    "Offset: " ++ s.offset.quoted ++ "\n"

def inside (s : State) : Except Fault Bool :=
  match s.offset.toInt? with
  | some i => .ok (0 ≤ i && i < (s.memory.length : Int))
  | none => .error .wrongType

end State

def lift {α : Type} (r : Except Fault α) : StepM α := ExceptT.mk (pure r)

def next : StepM Unit := do
  let s ← get
  let o ← lift (s.offset.add (.int 1))
  set { s with offset := o }

def fetch : StepM Value := do
  let s ← get
  lift (s.cell s.offset)

def jump (a : Value) : StepM Unit := modify fun s => { s with offset := a }

def pushCell (v : Value) : StepM Unit := modify fun s => { s with stack := v :: s.stack }

def popCell : StepM Value := do
  let s ← get
  match s.stack with
  | [] => throw .outOfRange
  | v :: rest =>
    set { s with stack := rest }
    pure v

def printText (t : String) : StepM Unit := modify fun s => { s with out := s.out ++ t }

/-- takes two operands, the upper one first -/
def binary (f : Value → Value → Except Fault Value) : StepM Unit := do
  next
  let a ← popCell
  let b ← popCell
  pushCell (← lift (f a b))

/-- compares the second element with the top -/
def comparison (f : Value → Value → Except Fault Bool) : StepM Unit :=
  binary fun b a => do return .int (if ← f a b then 1 else 0)

def jumpIf (f : Value → Except Fault Bool) : StepM Unit := do
  next
  let address ← fetch
  let v ← popCell
  next
  if ← lift (f v) then jump address

def ordered (p : Ordering → Bool) (a b : Value) : Except Fault Bool := do return p (← a.order b)

def perform : Opcode → StepM Unit
  | .nop => next
  | .halt => jump (.int (-1))
  | .load => do
    next
    let address ← fetch
    pushCell (← lift ((← get).cell address))
    next
  | .save => do
    next
    let address ← fetch
    let v ← popCell
    let s ← get
    let i ← lift (s.place address)
    set { s with memory := s.memory.set i v }
    next
  | .push => do
    next
    pushCell (← fetch)
    next
  | .pop => do
    next
    let _ ← popCell
  | .dup => do
    next
    match (← get).stack with
    | [] => throw .outOfRange
    | v :: _ => pushCell v
  | .jmp => do
    next
    jump (← fetch)
  | .call => do
    next
    pushCell (← lift ((← get).offset.add (.int 1)))
    jump (← fetch)
  | .ret => do jump (← popCell)
  | .jlt => jumpIf fun v => ordered (· == .gt) v (.int 0)
  | .jlte => jumpIf fun v => ordered (· != .lt) v (.int 0)
  | .je => jumpIf fun v => .ok (v.same (.int 0))
  | .jne => jumpIf fun v => .ok (!v.same (.int 0))
  | .jgte => jumpIf fun v => ordered (· != .gt) v (.int 0)
  | .jgt => jumpIf fun v => ordered (· == .lt) v (.int 0)
  | .cmplt => comparison (ordered (· == .lt))
  | .cmplte => comparison (ordered (· != .gt))
  | .cmpe => comparison fun a b => .ok (a.same b)
  | .cmpne => comparison fun a b => .ok (!a.same b)
  | .cmpgte => comparison (ordered (· != .lt))
  | .cmpgt => comparison (ordered (· == .gt))
  | .mul => binary Value.mul
  | .div => binary Value.floorDiv
  | .add => binary Value.add
  | .sub => binary Value.sub
  | .print => do
    next
    match (← get).stack with
    | [] => throw .outOfRange
    | v :: _ => printText (v.text ++ "\n")
  | .debug => do
    next
    printText (← get).debug

def decode (v : Value) : Except Fault Opcode :=
  match v.toInt? with
  | some n =>
    match Opcode.ofCode? n with
    | some o => .ok o
    | none => .error (.missingKey v)
  | none => if v.isKey then .error (.missingKey v) else .error .wrongType

/-- executes one instruction; answers whether the machine goes on -/
def step : StepM Bool := do
  let o ← lift (decode (← fetch))
  perform o
  lift (← get).inside

def State.step (s : State) : Except Fault Bool × State := (Machine.step).run.run s

/-- how a run of steps went: how many steps were tried, and the outcome of the last one -/
structure Run where
  outcome : Except Fault Bool
  count : Nat
  state : State
  deriving Inhabited

def State.runFor (s : State) (fuel : Nat) : Run := go fuel 0 s
where
  go : Nat → Nat → State → Run
    | 0, done, s => ⟨.ok true, done, s⟩
    | fuel + 1, done, s =>
      match s.step with
      | (.ok true, s') => go fuel (done + 1) s'
      | (r, s') => ⟨r, done + 1, s'⟩

end Pl0Kit.Machine
