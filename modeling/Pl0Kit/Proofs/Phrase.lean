import Pl0Kit.Ast
import Pl0Kit.Token

/-!
# The grammar of PL/0

Each relation below says which lists of tokens are a phrase of one kind, and which tree the phrase
stands for.  They follow the rules

    program    = block DOT
    block      = [CONST define {COMMA define} EOS] [VAR NAME {COMMA NAME} EOS]
                 {PROCEDURE NAME EOS block EOS} statement
    define     = [NAME ASSIGN NUMBER]
    statement  = NAME UPDATE expression | CALL NAME | BEGIN statement {EOS statement} END |
                 IF condition THEN statement | WHILE condition DO statement | PRINT expression
    condition  = ODD expression | expression (LT | LTE | GT | GTE | E | NE) expression
    expression = [PLUS | MINUS] term {(PLUS | MINUS) term}
    term       = factor {(TIMES | DIVIDE) factor}
    factor     = NAME | NUMBER | LPAREN expression RPAREN

and mention neither the parser nor its cursor.  A repetition in braces has a relation of its own,
named in the plural.
-/

namespace Pl0Kit

namespace AddOp

/-- the kind of token that spells an operator -/
def kind : AddOp → Kind
  | plus => .plus
  | minus => .minus

end AddOp

namespace MulOp

def kind : MulOp → Kind
  | times => .times
  | divide => .divide

end MulOp

namespace RelOp

def kind : RelOp → Kind
  | lt => .lt | lte => .lte | gt => .gt | gte => .gte | e => .e | ne => .ne

end RelOp

namespace Token

/-- a token that spells the name `x` -/
def IsName (t : Token) (x : String) : Prop := t.kind = .name ∧ t.payload = .text x

/-- a token that spells the number `n` -/
def IsNumber (t : Token) (n : Nat) : Prop := t.kind = .number ∧ t.payload = .number n

/-- a name carries its text and a number its value -/
def Proper (t : Token) : Prop :=
  (t.kind = .name → ∃ x, t.payload = .text x) ∧ (t.kind = .number → ∃ n, t.payload = .number n)

end Token

/-! ## expressions -/

inductive SignPhrase : List Token → Option AddOp → Prop
  | absent : SignPhrase [] none
  | present {t : Token} {op : AddOp} : t.kind = op.kind → SignPhrase [t] (some op)

mutual

inductive ExprPhrase : List Token → Expr → Prop
  | mk {ss ts us : List Token} {sign : Option AddOp} {first : Term} {rest : List (AddOp × Term)} :
      SignPhrase ss sign → TermPhrase ts first → TermsPhrase us rest →
        ExprPhrase (ss ++ (ts ++ us)) (.mk sign first rest)

inductive TermsPhrase : List Token → List (AddOp × Term) → Prop
  | nil : TermsPhrase [] []
  | cons {t : Token} {ts us : List Token} {op : AddOp} {x : Term} {rest : List (AddOp × Term)} :
      t.kind = op.kind → TermPhrase ts x → TermsPhrase us rest →
        TermsPhrase (t :: (ts ++ us)) ((op, x) :: rest)

inductive TermPhrase : List Token → Term → Prop
  | mk {ts us : List Token} {first : Factor} {rest : List (MulOp × Factor)} :
      FactorPhrase ts first → FactorsPhrase us rest → TermPhrase (ts ++ us) (.mk first rest)

inductive FactorsPhrase : List Token → List (MulOp × Factor) → Prop
  | nil : FactorsPhrase [] []
  | cons {t : Token} {ts us : List Token} {op : MulOp} {x : Factor} {rest : List (MulOp × Factor)} :
      t.kind = op.kind → FactorPhrase ts x → FactorsPhrase us rest →
        FactorsPhrase (t :: (ts ++ us)) ((op, x) :: rest)

inductive FactorPhrase : List Token → Factor → Prop
  | name {t : Token} {x : String} : t.IsName x → FactorPhrase [t] (.name x)
  | number {t : Token} {n : Nat} : t.IsNumber n → FactorPhrase [t] (.number n)
  | paren {l r : Token} {ts : List Token} {e : Expr} :
      l.kind = .lparen → ExprPhrase ts e → r.kind = .rparen →
        FactorPhrase (l :: (ts ++ [r])) (.paren e)

end

/-! ## statements -/

inductive ConditionPhrase : List Token → Condition → Prop
  | odd {t : Token} {ts : List Token} {e : Expr} :
      t.kind = .keyword .odd → ExprPhrase ts e → ConditionPhrase (t :: ts) (.odd e)
  | compare {t : Token} {ts us : List Token} {l r : Expr} {op : RelOp} :
      ExprPhrase ts l → t.kind = op.kind → ExprPhrase us r →
        ConditionPhrase (ts ++ t :: us) (.compare l op r)

mutual

inductive StatementPhrase : List Token → Statement → Prop
  | assign {t u : Token} {ts : List Token} {x : String} {e : Expr} :
      t.IsName x → u.kind = .update → ExprPhrase ts e → StatementPhrase (t :: u :: ts) (.assign x e)
  | call {t u : Token} {p : String} :
      t.kind = .keyword .call → u.IsName p → StatementPhrase [t, u] (.call p)
  | block {t u : Token} {ts us : List Token} {s : Statement} {rest : List Statement} :
      t.kind = .keyword .begin → StatementPhrase ts s → StatementsPhrase us rest →
        u.kind = .keyword .end → StatementPhrase (t :: (ts ++ (us ++ [u]))) (.block (s :: rest))
  | ifThen {t u : Token} {ts us : List Token} {c : Condition} {s : Statement} :
      t.kind = .keyword .if → ConditionPhrase ts c → u.kind = .keyword .then →
        StatementPhrase us s → StatementPhrase (t :: (ts ++ u :: us)) (.ifThen c s)
  | whileDo {t u : Token} {ts us : List Token} {c : Condition} {s : Statement} :
      t.kind = .keyword .while → ConditionPhrase ts c → u.kind = .keyword .do →
        StatementPhrase us s → StatementPhrase (t :: (ts ++ u :: us)) (.whileDo c s)
  | print {t : Token} {ts : List Token} {e : Expr} :
      t.kind = .print → ExprPhrase ts e → StatementPhrase (t :: ts) (.print e)

inductive StatementsPhrase : List Token → List Statement → Prop
  | nil : StatementsPhrase [] []
  | cons {t : Token} {ts us : List Token} {s : Statement} {rest : List Statement} :
      t.kind = .eos → StatementPhrase ts s → StatementsPhrase us rest →
        StatementsPhrase (t :: (ts ++ us)) (s :: rest)

end

/-! ## declarations -/

/-- one constant definition, which may be missing -/
inductive DefinePhrase : List Token → List (String × Nat) → Prop
  | absent : DefinePhrase [] []
  | present {t u v : Token} {x : String} {n : Nat} :
      t.IsName x → u.kind = .assign → v.IsNumber n → DefinePhrase [t, u, v] [(x, n)]

inductive DefinesPhrase : List Token → List (String × Nat) → Prop
  | last {ts : List Token} {d : List (String × Nat)} : DefinePhrase ts d → DefinesPhrase ts d
  | more {t : Token} {ts us : List Token} {d ds : List (String × Nat)} :
      DefinePhrase ts d → t.kind = .comma → DefinesPhrase us ds →
        DefinesPhrase (ts ++ t :: us) (d ++ ds)

inductive ConstantsPhrase : List Token → Option (List (String × Nat)) → Prop
  | absent : ConstantsPhrase [] none
  | present {t u : Token} {ts : List Token} {ds : List (String × Nat)} :
      t.kind = .keyword .const → DefinesPhrase ts ds → u.kind = .eos →
        ConstantsPhrase (t :: (ts ++ [u])) (some ds)

inductive NamesPhrase : List Token → List String → Prop
  | last {t : Token} {x : String} : t.IsName x → NamesPhrase [t] [x]
  | more {t u : Token} {ts : List Token} {x : String} {xs : List String} :
      t.IsName x → u.kind = .comma → NamesPhrase ts xs → NamesPhrase (t :: u :: ts) (x :: xs)

inductive VariablesPhrase : List Token → Option (List String) → Prop
  | absent : VariablesPhrase [] none
  | present {t u : Token} {ts : List Token} {xs : List String} :
      t.kind = .keyword .var → NamesPhrase ts xs → u.kind = .eos →
        VariablesPhrase (t :: (ts ++ [u])) (some xs)

/-! ## blocks and programs -/

mutual

inductive BlockPhrase : List Token → Block → Prop
  | mk {cs vs ps ss : List Token} {consts : Option (List (String × Nat))}
      {vars : Option (List String)} {procs : List (String × Block)} {body : Statement} :
      ConstantsPhrase cs consts → VariablesPhrase vs vars → ProceduresPhrase ps procs →
        StatementPhrase ss body →
          BlockPhrase (cs ++ (vs ++ (ps ++ ss))) (.mk consts vars procs body)

inductive ProceduresPhrase : List Token → List (String × Block) → Prop
  | nil : ProceduresPhrase [] []
  | cons {t u v w : Token} {bs ps : List Token} {p : String} {b : Block}
      {procs : List (String × Block)} :
      t.kind = .keyword .procedure → u.IsName p → v.kind = .eos → BlockPhrase bs b →
        w.kind = .eos → ProceduresPhrase ps procs →
          ProceduresPhrase (t :: u :: v :: (bs ++ w :: ps)) ((p, b) :: procs)

end

inductive ProgramPhrase : List Token → Program → Prop
  | mk {t : Token} {bs : List Token} {b : Block} :
      BlockPhrase bs b → t.kind = .dot → ProgramPhrase (bs ++ [t]) ⟨b⟩

end Pl0Kit
