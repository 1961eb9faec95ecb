import Pl0Kit.Proofs.Labels
import Pl0Kit.Proofs.Places
import Pl0Kit.Proofs.Scopes

/-!
# Graphs are syntax trees

The graph of a parsed program, whenever one is drawn, is its tree with the terms taken out: it has a
line for each other node, and an edge from the nearest of them above.

* `Hangs p xs`   the visit `p`, made below a node, adds lines for the nodes `xs` and leaves the
                 stack as it was;
* `hangs_node`   a node that is drawn, by what is drawn inside of it;
* `draws_block`  every block of a program is drawn as its nodes say;
* `Mirrors`      what it is for lines to be those of a tree.
-/

namespace Pl0Kit.Graph

open Act

/-! ## lines of text -/

/-- text without a line end -/
def OneLine (t : String) : Prop := '\n' ∉ t.toList

instance (t : String) : Decidable (OneLine t) := inferInstanceAs (Decidable (_ ∉ _))

@[simp] theorem oneLine_append {s t : String} : OneLine (s ++ t) ↔ OneLine s ∧ OneLine t := by
  simp only [OneLine, String.toList_append, List.mem_append, not_or]

theorem OneLine.ofIdentifier {x : String} (h : Identifier x) : OneLine x :=
  fun hmem => absurd (Generator.nameChars_of_identifier h _ hmem) (by decide)

theorem oneLine_digits (n : Nat) : OneLine (Text.intText n) := by
  rw [OneLine, Text.toList_intText]
  intro hmem
  exact absurd (Text.isDigit_of_mem_toDigits hmem) (by decide)

theorem oneLine_nodeName {v : Value} (h : OneLine v.tag) (n : Nat) : OneLine (nodeName v n) := by
  have hn : OneLine (toString n) := oneLine_digits n
  exact oneLine_append.2 ⟨oneLine_append.2 ⟨h, by decide⟩, hn⟩

namespace Line

/-- a single line of text -/
def IsSingle (l : Line) : Prop := ∃ t, OneLine t ∧ l.text = t ++ "\n"

/-- the edge of a line: the node above, and the line's own -/
def edge (l : Line) : Option String × String := (l.parent, l.name)

theorem isSingle {l : Line} (hshape : OneLine l.shape) (hlabel : OneLine l.label)
    (hcolor : OneLine l.color) (hparent : ∀ p, l.parent = some p → OneLine p)
    (hname : OneLine l.name) : l.IsSingle := by
  have hend : ∀ t : String, t ++ ";\n" = t ++ ";" ++ "\n" := by
    intro t
    rw [String.append_assoc]
    rfl
  refine ⟨_, ?_, hend _⟩
  cases hl : l.parent with
  | none =>
    simp only [oneLine_append, hshape, hlabel, hcolor, hname, and_true]
    simp [OneLine]
  | some p =>
    simp only [oneLine_append, hshape, hlabel, hcolor, hparent p hl, hname, and_true]
    simp [OneLine]

end Line

/-! ## lines drawn below a node -/

/-- the edge of a node in a tree that hangs on the node `top` -/
def Node.edge (top : String) (x : Node) : Option String × String :=
  (some (x.above.elim top Prod.snd), x.name)

@[simp] theorem Node.edge_shift (top : String) (i : Nat) (x : Node) :
    (x.shift i).edge top = x.edge top := by
  cases x with
  | mk place name above => cases above <;> rfl

@[simp] theorem Node.edge_hang (top root : String) (x : Node) :
    (x.hang root).edge top = x.edge root := by
  cases x with
  | mk place name above => cases above <;> rfl

/-- below the node `top`, lines are added for nodes -/
structure Adds (top : String) (xs : List Node) (s s' : Printer) : Prop where
  stack : s'.stack = s.stack
  next : s'.next = s.next + xs.length
  drawn : ∃ ls, s'.drawn.getD [] = s.drawn.getD [] ++ ls ∧
    ls.map Line.edge = xs.map (Node.edge top) ∧ ∀ l ∈ ls, l.IsSingle

variable {top : String} {s s' s'' : Printer} {α β : Type}

theorem Adds.nil : Adds top [] s s := ⟨rfl, rfl, [], by simp⟩

theorem Adds.append {xs ys : List Node} (h : Adds top xs s s') (h' : Adds top ys s' s'') :
    Adds top (xs ++ ys) s s'' := by
  obtain ⟨ls, hls, hedges, hsingle⟩ := h.drawn
  obtain ⟨ls', hls', hedges', hsingle'⟩ := h'.drawn
  refine ⟨h'.stack.trans h.stack, ?_, ls ++ ls', ?_, ?_,
    List.forall_mem_append.2 ⟨hsingle, hsingle'⟩⟩
  · rw [h'.next, h.next, List.length_append, Nat.add_assoc]
  · rw [hls', hls, List.append_assoc]
  · rw [List.map_append, List.map_append, hedges, hedges']

/-- made below a node, a visit that answers adds lines for nodes, by the number of the first of
them -/
def Hangs (p : GraphM α) (xs : Nat → List Node) : Prop :=
  ∀ ⦃top : String⦄ ⦃rest : List String⦄ ⦃s s' : Printer⦄ ⦃a : α⦄, OneLine top →
    s.stack = top :: rest → exec p s = (.ok a, s') → Adds top (xs s.next) s s'

theorem hangs_pure (a : α) : Hangs (pure a) fun _ => [] := by
  intro top rest s s' b _ _ h
  cases h
  exact .nil

theorem Hangs.bind {p : GraphM α} {f : α → GraphM β} {xs ys : Nat → List Node} (hp : Hangs p xs)
    (hf : ∀ a, Hangs (f a) ys) : Hangs (p >>= f) fun n => xs n ++ ys (n + (xs n).length) := by
  intro top rest s s' b htop hstack h
  obtain ⟨a, s₁, hrun, hrun'⟩ := exec_bind_ok.1 h
  have hadds := hp htop hstack hrun
  have hadds' := hf a htop (hadds.stack.trans hstack) hrun'
  rw [hadds.next] at hadds'
  exact hadds.append hadds'

/-- the visit of a tree adds lines for its nodes -/
def Draws (v : Value) : Prop := Hangs (Site.survey visit v).act fun n => nodes n v

/-- the nodes among the parts of a tree add lines for their nodes -/
def DrawsParts (xs : List Value) : Prop := ∀ x ∈ xs, x.isNode = true → Draws x

namespace DrawsParts

variable {x : Value} {xs : List Value}

theorem nil : DrawsParts [] := List.forall_mem_nil _

theorem cons (hx : Draws x) (h : DrawsParts xs) : DrawsParts (x :: xs) :=
  List.forall_mem_cons.2 ⟨fun _ => hx, h⟩

/-- parts that are no nodes are passed over -/
theorem leaf (hx : x.isNode = false) (h : DrawsParts xs) : DrawsParts (x :: xs) :=
  List.forall_mem_cons.2 ⟨fun hnode => absurd (hx.symm.trans hnode) Bool.false_ne_true, h⟩

theorem ofAll (h : ∀ x ∈ xs, Draws x) : DrawsParts xs := fun x hx _ => h x hx

end DrawsParts

theorem hangs_parts {xs : List Value} (h : DrawsParts xs) (i : Nat) :
    Hangs (visitNodes (Site.surveyAll visit xs)) fun n => partNodes n i xs := by
  induction xs generalizing i with
  | nil => exact hangs_pure []
  | cons x xs ih =>
    obtain ⟨hx, hxs⟩ := List.forall_mem_cons.1 h
    have hvalue : (Site.survey visit x).value = x := by cases x <;> rfl
    rw [Site.surveyAll, visitNodes, hvalue]
    intro top rest s s' a htop hstack hrun
    simp only [partNodes]
    split at hrun
    · rename_i hnode
      obtain ⟨v, s₁, hfirst, hrun⟩ := exec_bind_ok.1 hrun
      obtain ⟨vs, s₂, hrest, hrun⟩ := exec_bind_ok.1 hrun
      cases hrun
      have hadds := hx hnode htop hstack hfirst
      have hadds' := ih hxs (i + 1) htop (hadds.stack.trans hstack) hrest
      rw [hadds.next] at hadds'
      refine Adds.append ?_ hadds'
      obtain ⟨ls, hls, hedges, hsingle⟩ := hadds.drawn
      refine ⟨hadds.stack, by rw [hadds.next, List.length_map], ls, hls, ?_, hsingle⟩
      simpa [Function.comp_def] using hedges
    · rename_i hnode
      rw [nodes_leaf (Bool.not_eq_true _ ▸ hnode)]
      exact ih hxs (i + 1) htop hstack hrun

theorem partNodes_leaves {xs : List Value} (h : ∀ x ∈ xs, x.isNode = false) (n i : Nat) :
    partNodes n i xs = [] := by
  induction xs generalizing n i with
  | nil => rfl
  | cons x xs ih =>
    obtain ⟨hx, hxs⟩ := List.forall_mem_cons.1 h
    rw [partNodes, nodes_leaf hx, ih hxs]
    rfl

/-! ## nodes -/

/-- a list or tuple that begins with a tag -/
structure Tagged (v : Value) (tag : String) (xs : List Value) : Prop where
  isNode : v.isNode = true
  parts : v.nodeParts = .str tag :: xs

namespace Tagged

variable {v : Value} {tag : String} {xs : List Value}

theorem tag_eq (h : Tagged v tag xs) : v.tag = tag := by
  rw [Value.tag, h.parts]
  rfl

theorem isDrawn (h : Tagged v tag xs) (hterm : tag ≠ "TERM") : v.IsDrawn :=
  ⟨h.isNode, h.tag_eq ▸ hterm⟩

theorem fetch (h : Tagged v tag xs) {i : Nat} {x : Value} (hx : (.str tag :: xs)[i]? = some x) :
    fetch v i = pure x := by
  rw [← h.parts] at hx
  cases v with
  | list ys | tuple ys =>
    rw [Graph.fetch]
    split
    · rename_i y hy
      cases hx.symm.trans hy
      rfl
    · rename_i hy
      cases hx.symm.trans hy
  | _ => cases h.isNode

theorem survey (h : Tagged v tag xs) :
    (Site.survey visit v).parts = Site.surveyAll visit (.str tag :: xs) := by
  rw [← h.parts]
  cases v with
  | list ys | tuple ys => rfl
  | _ => cases h.isNode

theorem act (h : Tagged v tag xs) : (Site.survey visit v).act =
    (rule tag.toLower v (Site.survey visit v).parts >>= fun _ => pure Value.none) := by
  have hact : (Site.survey visit v).act = visit v (Site.survey visit v).parts [] := by
    cases v with
    | list ys | tuple ys => rfl
    | _ => cases h.isNode
  rw [hact, h.survey]
  rfl

/-- a tree is drawn as the rule for its tag draws it -/
theorem draws (h : Tagged v tag xs)
    (hrule : Hangs (rule tag.toLower v (Site.survey visit v).parts) fun n => nodes n v) :
    Draws v := by
  rw [Draws, h.act]
  simpa using hrule.bind fun _ => hangs_pure Value.none

theorem hangs_below (h : Tagged v tag xs) (hxs : DrawsParts xs) :
    Hangs (below v (Site.survey visit v).parts) fun n => partNodes n 0 v.nodeParts := by
  have hparts : Hangs (do let _ ← visitNodes (Site.surveyAll visit xs)) fun n =>
      partNodes n 1 xs := by
    simpa using (hangs_parts hxs 1).bind fun _ => hangs_pure ()
  have hskip : ∀ n, partNodes n 0 (.str tag :: xs) = partNodes n 1 xs := by
    intro n
    rw [partNodes, nodes_leaf rfl]
    rfl
  simp only [h.parts, h.survey, hskip]
  cases v with
  | list ys | tuple ys => exact hparts
  | _ => cases h.isNode

theorem hangs_leaves (h : Tagged v tag xs) (hxs : ∀ x ∈ xs, x.isNode = false) :
    Hangs (pure ()) fun n => partNodes n 0 v.nodeParts := by
  have hnone : ∀ n, partNodes n 0 v.nodeParts = [] := by
    rw [h.parts]
    exact fun n => partNodes_leaves (List.forall_mem_cons.2 ⟨rfl, hxs⟩) n 0
  simp only [hnone]
  exact hangs_pure ()

end Tagged

/-- a label in one line is made, and nothing is drawn -/
def Labels (label : String → GraphM String) : Prop :=
  ∀ ⦃name l : String⦄ ⦃s s' : Printer⦄, exec (label name) s = (.ok l, s') →
    OneLine l ∧ s'.stack = s.stack ∧ s'.next = s.next ∧ s'.drawn = s.drawn

theorem labels_pure {l : String} (h : OneLine l) : Labels fun _ => pure l := by
  intro name l s s' hrun
  cases hrun
  exact ⟨h, rfl, rfl, rfl⟩

section Node

variable {v : Value} {tag : String} {xs : List Value}

theorem exec_enter (h : Tagged v tag xs) (s : Printer) : exec (enter v) s =
    (.ok (nodeName v s.next),
      { s with stack := nodeName v s.next :: s.stack, next := s.next + 1 }) := by
  rw [enter, h.fetch rfl, nodeName, h.tag_eq]
  rfl

theorem exec_parent {own : String} {rest : List String} (h : s.stack = own :: top :: rest) :
    exec parent s = (.ok top, s) := by
  rw [parent, exec_bind, exec_get]
  simp only [h]
  rfl

/-- the lines of a node: its own, and below that those of its parts -/
theorem hangs_node (h : Tagged v tag xs) (hterm : tag ≠ "TERM") (htag : OneLine tag)
    {shape color : String} (hshape : OneLine shape) (hcolor : OneLine color)
    {label : String → GraphM String} (hlabel : Labels label) {inside : GraphM Unit}
    (hinside : Hangs inside fun n => partNodes n 0 v.nodeParts) :
    Hangs (node shape color label v inside) fun n => nodes n v := by
  intro top rest s s' a htop hstack hrun
  have hname : OneLine (nodeName v s.next) := oneLine_nodeName (h.tag_eq ▸ htag) s.next
  rw [node, exec_then (exec_enter h s), exec_then (exec_parent (congrArg _ hstack))] at hrun
  obtain ⟨l, s₁, hl, hrun⟩ := exec_bind_ok.1 hrun
  obtain ⟨hone, hstack₁, hnext₁, hdrawn₁⟩ := hlabel hl
  rw [draw, exec_then (exec_modify _ s₁)] at hrun
  -- while the inside is drawn, the node itself is on top of the stack
  obtain ⟨_, s₂, hin, hrun⟩ := exec_bind_ok.1 hrun
  cases hrun
  have hadds := @hinside _ s.stack _ _ _ hname (by exact hstack₁) hin
  obtain ⟨ls, hls, hedges, hsingle⟩ := hadds.drawn
  have hnext : s₂.next = s.next + 1 + (partNodes (s.next + 1) 0 v.nodeParts).length := by
    rw [hadds.next]
    simp only [hnext₁]
  show Adds top (nodes s.next v) s _
  rw [nodes_node h.isNode, around, if_pos (h.isDrawn hterm)]
  refine ⟨?_, ?_, ⟨shape, l, color, some top, nodeName v s.next⟩ :: ls, ?_, ?_, ?_⟩
  · simp [hadds.stack, hstack₁]
  · simp [hnext]
    omega
  · simpa [hdrawn₁] using hls
  · simp only [hnext₁] at hedges
    rw [List.map_cons, hedges, List.map_cons, List.map_map]
    congr 1
    exact List.map_congr_left fun x _ => (Node.edge_hang top (nodeName v s.next) x).symm
  · refine List.forall_mem_cons.2 ⟨Line.isSingle hshape hone hcolor ?_ hname, hsingle⟩
    rintro p ⟨rfl⟩
    exact htop

/-! ## kinds of nodes -/

/-- kinds of nodes that have a rule of their own -/
def ownRules : List String :=
  ["program", "define", "condition", "name", "number", "procedure", "expression", "call", "term"]

theorem rule_ordinary {kind : String} (h : kind ∉ ownRules) (v : Value)
    (parts : List (Spot Printer)) : rule kind v parts =
      node "circle" "black" (fun _ => do return (← fetch v 0).text) v (below v parts) := by
  unfold rule
  split
  case h_10 => rfl
  all_goals exact absurd (by decide) h

/-- tags of nodes that are drawn alike -/
def ordinaryTags : List String :=
  ["BLOCK", "CONSTANTS", "VARIABLES", "PROCEDURES", "SET", "BEGIN", "IF", "WHILE", "PRINT",
    "ODD", "PLUS", "MINUS", "TIMES", "DIVIDE"]

theorem ordinary_tag :
    ∀ tag ∈ ordinaryTags, tag.toLower ∉ ownRules ∧ tag ≠ "TERM" ∧ OneLine tag := by
  decide +kernel

theorem labels_fetch (h : Tagged v tag xs) {i : Nat} {x : Value}
    (hx : (.str tag :: xs)[i]? = some x) (hone : OneLine x.text) :
    Labels fun _ => do return (← fetch v i).text := by
  simp only [h.fetch hx, pure_bind]
  exact labels_pure hone

theorem draws_ordinary (h : Tagged v tag xs) (htag : tag ∈ ordinaryTags) (hxs : DrawsParts xs) :
    Draws v := by
  obtain ⟨hrule, hterm, hone⟩ := ordinary_tag tag htag
  refine h.draws ?_
  rw [rule_ordinary hrule]
  exact hangs_node h hterm hone (by decide) (by decide)
    (labels_fetch h (i := 0) (x := .str tag) rfl hone) (h.hangs_below hxs)

theorem draws_name {x : String} (hx : OneLine x) : Draws (nameValue x) := by
  have h : Tagged (nameValue x) "NAME" [.str x] := ⟨rfl, rfl⟩
  refine h.draws ?_
  rw [ruleNames.name]
  exact hangs_node h (by decide) (by decide) (by decide) (by decide)
    (labels_fetch h (i := 1) rfl hx) (h.hangs_leaves (List.forall_mem_singleton.2 rfl))

theorem draws_number (n : Nat) : Draws (.tuple [.str "NUMBER", .int n]) := by
  have h : Tagged (.tuple [.str "NUMBER", .int n]) "NUMBER" [.int n] := ⟨rfl, rfl⟩
  refine h.draws ?_
  rw [ruleNames.number]
  exact hangs_node h (by decide) (by decide) (by decide) (by decide)
    (labels_pure (oneLine_digits n))
    (h.hangs_leaves (List.forall_mem_singleton.2 rfl))

theorem draws_call {q : String} (hq : OneLine q) : Draws (.tuple [.str "CALL", .str q]) := by
  have h : Tagged (.tuple [.str "CALL", .str q]) "CALL" [.str q] := ⟨rfl, rfl⟩
  have hlabel : Labels fun _ => callLabel (.tuple [.str "CALL", .str q]) := by
    intro name l s s' hrun
    rw [callLabel, h.fetch (i := 1) rfl, pure_bind] at hrun
    obtain ⟨_, _, hget, hfound⟩ := (exec_bind_ok (p := (get : GraphM Printer))).1 hrun
    cases hget
    split at hfound
    · cases hfound
    · cases hfound
      exact ⟨oneLine_append.2 ⟨oneLine_append.2 ⟨by decide, hq⟩, by decide⟩, rfl, rfl, rfl⟩
  refine h.draws ?_
  rw [ruleNames.call]
  exact hangs_node h (by decide) (by decide) (by decide) (by decide) hlabel
    (h.hangs_leaves (List.forall_mem_singleton.2 rfl))

theorem draws_define {d : String × Nat} (hd : OneLine d.1) : Draws (defineValue d) := by
  have h : Tagged (defineValue d) "DEFINE" [.str d.1, .int d.2] := ⟨rfl, rfl⟩
  have hlower : "DEFINE".toLower = "define" := by decide +kernel
  refine h.draws ?_
  rw [hlower]
  exact hangs_node h (by decide) (by decide) (by decide) (by decide)
    (labels_pure (oneLine_append.2 ⟨oneLine_append.2 ⟨hd, by decide⟩, oneLine_digits d.2⟩))
    (h.hangs_below (.leaf rfl (.leaf rfl .nil)))

theorem draws_procedure {q : String} (hq : OneLine q) {b : Value} (hb : Draws b) :
    Draws (.tuple [.str "PROCEDURE", .str q, b]) := by
  have h : Tagged (.tuple [.str "PROCEDURE", .str q, b]) "PROCEDURE" [.str q, b] := ⟨rfl, rfl⟩
  have hlower : "PROCEDURE".toLower = "procedure" := by decide +kernel
  have hlabel : Labels (procedureLabel (.tuple [.str "PROCEDURE", .str q, b])) := by
    intro name l s s' hrun
    cases hrun
    exact ⟨hq, rfl, rfl, rfl⟩
  refine h.draws ?_
  rw [hlower]
  exact hangs_node h (by decide) (by decide) (by decide) (by decide) hlabel
    (h.hangs_below (.leaf rfl (.cons hb .nil)))

theorem draws_expression (h : Tagged v "EXPRESSION" xs) (hxs : DrawsParts xs) : Draws v := by
  refine h.draws ?_
  rw [ruleNames.expression]
  exact hangs_node h (by decide) (by decide) (by decide) (by decide)
    (labels_pure (by decide)) (h.hangs_below hxs)

theorem draws_comparison {l r : Value} (hl : Draws l) (op : RelOp) (hr : Draws r) :
    Draws (.tuple [.str "CONDITION", l, .str op.word, r]) := by
  have h : Tagged (.tuple [.str "CONDITION", l, .str op.word, r]) "CONDITION"
    [l, .str op.word, r] := ⟨rfl, rfl⟩
  have hop : OneLine op.word := by cases op <;> decide
  refine h.draws ?_
  rw [ruleNames.condition]
  exact hangs_node h (by decide) (by decide) (by decide) (by decide)
    (labels_fetch h (i := 2) rfl hop) (h.hangs_below (.cons hl (.leaf rfl (.cons hr .nil))))

/-- a term is not drawn; its parts are, on the node above it -/
theorem draws_term (h : Tagged v "TERM" xs) (hxs : DrawsParts xs) : Draws v := by
  have hnodes : ∀ n, nodes n v = partNodes n 0 v.nodeParts := by
    intro n
    rw [nodes_node h.isNode, around, if_neg fun hdrawn => hdrawn.2 h.tag_eq]
  refine h.draws ?_
  rw [ruleNames.term]
  simp only [hnodes]
  exact h.hangs_below hxs

end Node

/-! ## programs -/

section Program

open Pl0Kit.Symbol

mutual

theorem draws_expr : ∀ e : Expr, Names OneLine e.symbols → Draws e.toValue
  | .mk none first rest, h => by
    rw [Expr.symbols, names_append] at h
    exact draws_expression ⟨rfl, rfl⟩
      (.leaf rfl (.cons (draws_termTree first h.1) (.ofAll (draws_terms rest h.2))))
  | .mk (some op) first rest, h => by
    rw [Expr.symbols, names_sign, names_append] at h
    exact draws_expression ⟨rfl, rfl⟩
      (.leaf rfl (.cons (draws_termTree first h.1) (.ofAll (draws_terms rest h.2))))

theorem draws_terms : ∀ rest : List (AddOp × Term), Names OneLine (Expr.tailSymbols rest) →
    ∀ v ∈ Expr.tailValues rest, Draws v
  | [], _ => List.forall_mem_nil _
  | (op, t) :: rest, h => by
    rw [Expr.tailSymbols, names_sign, names_append] at h
    have hop : op.word ∈ ordinaryTags := by cases op <;> decide
    exact List.forall_mem_cons.2
      ⟨draws_ordinary ⟨rfl, rfl⟩ hop (.cons (draws_termTree t h.1) .nil), draws_terms rest h.2⟩

theorem draws_termTree : ∀ t : Term, Names OneLine t.symbols → Draws t.toValue
  | .mk first rest, h => by
    rw [Term.symbols, names_append] at h
    exact draws_term ⟨rfl, rfl⟩ (.cons (draws_factor first h.1) (.ofAll (draws_factors rest h.2)))

theorem draws_factors : ∀ rest : List (MulOp × Factor), Names OneLine (Term.tailSymbols rest) →
    ∀ v ∈ Term.tailValues rest, Draws v
  | [], _ => List.forall_mem_nil _
  | (op, f) :: rest, h => by
    rw [Term.tailSymbols, names_sign, names_append] at h
    have hop : op.word ∈ ordinaryTags := by cases op <;> decide
    exact List.forall_mem_cons.2
      ⟨draws_ordinary ⟨rfl, rfl⟩ hop (.cons (draws_factor f h.1) .nil), draws_factors rest h.2⟩

theorem draws_factor : ∀ f : Factor, Names OneLine f.symbols → Draws f.toValue
  | .name _, h => draws_name (names_name.1 h).1
  | .number n, _ => draws_number n
  | .paren e, h => draws_expr e (names_append.1 (names_sign.1 h)).1

end

theorem draws_condition (c : Condition) (h : Names OneLine c.symbols) : Draws c.toValue := by
  cases c with
  | odd e =>
    exact draws_ordinary ⟨rfl, rfl⟩ (by decide) (.cons (draws_expr e (names_keyword.1 h)) .nil)
  | compare l op r =>
    rw [Condition.symbols, names_append, names_sign] at h
    exact draws_comparison (draws_expr l h.1) op (draws_expr r h.2)

mutual

theorem draws_statement : ∀ s : Statement, Names OneLine s.symbols → Draws s.toValue
  | .assign _ e, h => by
    rw [Statement.symbols, names_name, names_sign] at h
    exact draws_ordinary ⟨rfl, rfl⟩ (by decide)
      (.cons (draws_name h.1) (.cons (draws_expr e h.2) .nil))
  | .call q, h => draws_call (names_name.1 (names_keyword.1 h)).1
  | .block [], _ => draws_ordinary ⟨rfl, rfl⟩ (by decide) .nil
  | .block (s :: ss), h => by
    rw [Statement.symbols, names_keyword, names_append, names_append] at h
    exact draws_ordinary ⟨rfl, rfl⟩ (by decide)
      (.cons (draws_statement s h.1) (.ofAll (draws_body ss h.2.1)))
  | .ifThen c s, h => by
    rw [Statement.symbols, names_keyword, names_append, names_keyword] at h
    exact draws_ordinary ⟨rfl, rfl⟩ (by decide)
      (.cons (draws_condition c h.1) (.cons (draws_statement s h.2) .nil))
  | .whileDo c s, h => by
    rw [Statement.symbols, names_keyword, names_append, names_keyword] at h
    exact draws_ordinary ⟨rfl, rfl⟩ (by decide)
      (.cons (draws_condition c h.1) (.cons (draws_statement s h.2) .nil))
  | .print e, h =>
    draws_ordinary ⟨rfl, rfl⟩ (by decide) (.cons (draws_expr e (names_sign.1 h)) .nil)

theorem draws_body : ∀ ss : List Statement, Names OneLine (Statement.symbols.laterSymbols ss) →
    ∀ v ∈ Statement.toValue.bodyValues ss, Draws v
  | [], _ => List.forall_mem_nil _
  | s :: ss, h => by
    rw [Statement.symbols.laterSymbols, names_sign, names_append] at h
    exact List.forall_mem_cons.2 ⟨draws_statement s h.1, draws_body ss h.2⟩

end

theorem draws_consts (consts : Option (List (String × Nat)))
    (h : Names OneLine (constsSymbols consts)) {xs : List Value} (hxs : DrawsParts xs) :
    DrawsParts (constsValue consts :: xs) := by
  cases consts with
  | none => exact .leaf rfl hxs
  | some ds =>
    rw [constsSymbols, names_keyword, names_append, names_commaList] at h
    refine .cons (draws_ordinary ⟨rfl, rfl⟩ (by decide) (.ofAll fun v hv => ?_)) hxs
    obtain ⟨d, hd, rfl⟩ := List.mem_map.1 hv
    exact draws_define (names_name.1 (h.1 _ (List.mem_map_of_mem hd))).1

theorem draws_vars (vars : Option (List String)) (h : Names OneLine (varsSymbols vars))
    {xs : List Value} (hxs : DrawsParts xs) : DrawsParts (varsValue vars :: xs) := by
  cases vars with
  | none => exact .leaf rfl hxs
  | some ys =>
    rw [varsSymbols, names_keyword, names_append, names_commaList] at h
    refine .cons (draws_ordinary ⟨rfl, rfl⟩ (by decide) (.ofAll fun v hv => ?_)) hxs
    obtain ⟨y, hy, rfl⟩ := List.mem_map.1 hv
    exact draws_name (names_name.1 (h.1 _ (List.mem_map_of_mem hy))).1

theorem draws_procsValue {ps xs : List Value} (h : ∀ v ∈ ps, Draws v) (hxs : DrawsParts xs) :
    DrawsParts (procsValue ps :: xs) := by
  cases ps with
  | nil => exact .leaf rfl hxs
  | cons p ps => exact .cons (draws_ordinary ⟨rfl, rfl⟩ (by decide) (.ofAll h)) hxs

mutual

/-- **The visit of a block adds a line for each of its nodes.** -/
theorem draws_block : ∀ b : Block, Names OneLine b.symbols → Draws b.toValue
  | .mk consts vars procs body, h => by
    rw [Block.symbols, names_append, names_append, names_append] at h
    obtain ⟨hconsts, hvars, hprocs, hbody⟩ := h
    exact draws_ordinary ⟨rfl, rfl⟩ (by decide) (draws_consts consts hconsts (draws_vars vars hvars
      (draws_procsValue (draws_procs procs hprocs) (.cons (draws_statement body hbody) .nil))))

theorem draws_procs : ∀ procs : List (String × Block), Names OneLine (Block.procSymbols procs) →
    ∀ v ∈ Block.procValues procs, Draws v
  | [], _ => List.forall_mem_nil _
  | (q, b) :: rest, h => by
    rw [Block.procSymbols, names_keyword, names_name, names_sign, names_append, names_sign] at h
    exact List.forall_mem_cons.2 ⟨draws_procedure h.1 (draws_block b h.2.1), draws_procs rest h.2.2⟩

end

end Program

/-! ## the graph of a tree -/

/-- the edge of a node of a whole tree: the root has none above it -/
def Node.link (x : Node) : Option String × String := (x.above.map Prod.snd, x.name)

theorem Node.link_hang (root : String) (x : Node) : (x.hang root).link = x.edge root := by
  cases x with
  | mk place name above => cases above <;> rfl

theorem root_draws {v : Value} {tag : String} {xs : List Value} (h : Tagged v tag xs)
    (hterm : tag ≠ "TERM") (htag : OneLine tag) (hxs : DrawsParts xs) {q : Printer}
    (hrun : exec (root v (Site.survey visit v).parts) { drawn := some [] } = (.ok (), q)) :
    q.stack = [] ∧ q.next = (nodes 0 v).length ∧
      (q.drawn.getD []).map Line.edge = (nodes 0 v).map Node.link ∧ ∀ l ∈ q.drawn.getD [],
      l.IsSingle := by
  have hname : OneLine (nodeName v 0) := oneLine_nodeName (h.tag_eq ▸ htag) 0
  rw [root, exec_then (exec_enter h _), h.fetch (i := 0) rfl, pure_bind, draw,
    exec_then (exec_modify _ _)] at hrun
  obtain ⟨_, s₁, hin, hrun⟩ := exec_bind_ok.1 hrun
  cases hrun
  have hbelow := h.hangs_below hxs
  have hadds := @hbelow _ [] _ _ _ hname rfl hin
  obtain ⟨ls, hls, hedges, hsingle⟩ := hadds.drawn
  rw [nodes_node h.isNode, around, if_pos (h.isDrawn hterm)]
  refine ⟨congrArg (List.drop 1) hadds.stack, ?_, ?_, ?_⟩
  · rw [List.length_cons, List.length_map, Nat.add_comm]
    exact hadds.next
  · simp only [hls]
    simp only [Option.getD_some, List.nil_append, List.cons_append, List.map_cons,
      List.map_map, hedges]
    congr 1
    exact List.map_congr_left fun x _ => (Node.link_hang (nodeName v 0) x).symm
  · simp only [hls]
    refine List.forall_mem_cons.2 ⟨Line.isSingle (show OneLine "doublecircle" by decide) htag
      (show OneLine "green" by decide) ?_ hname, hsingle⟩
    rintro p ⟨⟩

theorem drawTree_ok {v : Value} {text : String} {q : Printer} : drawTree v {} = (.ok text, q) ↔
    ∃ q', exec (root v (Site.survey visit v).parts) { drawn := some [] } = (.ok (), q') ∧
      text = Printer.text (q'.drawn.getD []) ++ footer ∧ q = { q' with drawn := none } := by
  have hdraw : drawTree v {} = match exec (root v (Site.survey visit v).parts)
      { drawn := some [] } with
      | (.ok _, q) => (.ok (Printer.text (q.drawn.getD []) ++ footer), { q with drawn := none })
      | (.error e, q) => (.error e, q) := rfl
  rw [hdraw]
  rcases exec (root v (Site.survey visit v).parts) { drawn := some [] } with ⟨e | u, q'⟩
  · constructor
    · rintro ⟨⟩
    · rintro ⟨_, ⟨⟩, _⟩
  · constructor
    · rintro ⟨⟩
      exact ⟨q', rfl, rfl, rfl⟩
    · rintro ⟨_, ⟨⟩, rfl, rfl⟩
      rfl

/-! ## lines of a tree -/

theorem nodeName_inj {v w : Value} {n m : Nat} (h : nodeName v n = nodeName w m) : n = m := by
  have hlabel : ∀ (v : Value) (n : Nat), Generator.serialLabel v.tag n = "t_" ++ nodeName v n := by
    intro v n
    rw [Generator.serialLabel, nodeName, String.append_assoc, String.append_assoc,
      String.append_assoc]
  have hlabels : Generator.serialLabel v.tag n = Generator.serialLabel w.tag m := by
    rw [hlabel, hlabel, h]
  exact (Generator.serialLabel_inj hlabels).2

/-- nothing comes before a place above it -/
theorem not_lex_append (b c : Place) : ¬ List.Lex (· < ·) (b ++ c) b := by
  induction b with
  | nil =>
    intro h
    cases c <;> cases h
  | cons i b ih =>
    intro h
    cases h with
    | rel hlt => exact Nat.lt_irrefl i hlt
    | cons h => exact ih h

/-- `lines` draw the tree `v`, each the subtree at the place that is in the same position of
`places`: every list or tuple but the terms has its line, in preorder, with its number in its name;
the first line is the root, and each later one has an edge from an earlier one, that of the nearest
node above -/
structure Mirrors (v : Value) (places : List Place) (lines : List Line) : Prop where
  length_eq : lines.length = places.length
  mem_places : ∀ a, a ∈ places ↔ DrawnAt v a
  preorder : places.Pairwise (List.Lex (· < ·))
  name : ∀ {i : Nat} {a : Place} {l : Line}, places[i]? = some a → lines[i]? = some l →
    ∃ y, v.subtree? a = some y ∧ l.name = nodeName y i
  root : ∃ l : Line, places[0]? = some [] ∧ lines[0]? = some l ∧ l.parent = none
  later : ∀ {i : Nat} {l : Line}, 0 < i → lines[i]? = some l →
    ∃ (j : Nat) (k : Line), j < i ∧ lines[j]? = some k ∧ l.parent = some k.name
  edge_iff : ∀ {i j : Nat} {a b : Place} {l k : Line}, places[i]? = some a → lines[i]? = some l →
    places[j]? = some b → lines[j]? = some k → (l.parent = some k.name ↔ NearestAbove v b a)

section Mirrors

variable {v : Value} {i j : Nat} {x y : Node}

theorem nodes_root (hdrawn : v.IsDrawn) : (nodes 0 v)[0]? = some ⟨[], nodeName v 0, none⟩ := by
  rw [nodes_node hdrawn.1, around, if_pos hdrawn]
  rfl

theorem eq_of_name (hx : (nodes 0 v)[i]? = some x) (hy : (nodes 0 v)[j]? = some y)
    (h : x.name = y.name) : i = j := by
  obtain ⟨w, -, hw⟩ := name_nodes hx
  obtain ⟨w', -, hw'⟩ := name_nodes hy
  have hnum := nodeName_inj (hw.symm.trans (h.trans hw'))
  omega

/-- a node comes before those below it -/
theorem le_of_above (hx : (nodes 0 v)[i]? = some x) (hy : (nodes 0 v)[j]? = some y)
    (h : y.place <+: x.place) : j ≤ i := by
  by_contra hlt
  obtain ⟨c, hc⟩ := h
  have hpair := List.pairwise_iff_getElem.1 (nodes_pairwise (n := 0) (v := v))
  obtain ⟨hi, rfl⟩ := List.getElem?_eq_some_iff.1 hx
  obtain ⟨hj, rfl⟩ := List.getElem?_eq_some_iff.1 hy
  have hlex := hpair i j (by simpa using hi) (by simpa using hj) (by omega)
  rw [List.getElem_map, List.getElem_map, ← hc] at hlex
  exact not_lex_append _ _ hlex

theorem NearestAbove.unique {a b c : Place} (hb : NearestAbove v b a) (hc : NearestAbove v c a) :
    b = c :=
  (hc.nearest b hb.drawn hb.above hb.proper).eq_of_length_le
    (hb.nearest c hc.drawn hc.above hc.proper).length_le

/-- the node above, by its position -/
theorem exists_above (hx : (nodes 0 v)[i]? = some x) {b : Place} (hb : NearestAbove v b x.place) :
    ∃ (j : Nat) (z : Node), (nodes 0 v)[j]? = some z ∧ x.above = some (z.place, z.name) ∧
    z.place = b := by
  rcases above_nodes (List.mem_of_getElem? hx) with ⟨-, htop⟩ | ⟨z, hz, habove, hnear⟩
  · exact absurd (htop b hb.drawn hb.above) hb.proper
  · obtain ⟨j, hj⟩ := List.mem_iff_getElem?.1 hz
    exact ⟨j, z, hj, habove, hnear.unique hb⟩

theorem link_iff (hx : (nodes 0 v)[i]? = some x) (hy : (nodes 0 v)[j]? = some y) :
    x.link.1 = some y.name ↔ NearestAbove v y.place x.place := by
  rw [Node.link]
  constructor
  · intro h
    rcases above_nodes (List.mem_of_getElem? hx) with ⟨hnone, -⟩ | ⟨z, hz, habove, hnear⟩
    · simp [hnone] at h
    · obtain ⟨k, hk⟩ := List.mem_iff_getElem?.1 hz
      have hname : z.name = y.name := by simpa [habove] using h
      obtain rfl := eq_of_name hk hy hname
      cases hk.symm.trans hy
      exact hnear
  · intro h
    obtain ⟨k, z, hk, habove, hplace⟩ := exists_above hx h
    -- nodes at the same place are the same, since each comes no later than the other
    have hle : k ≤ j := le_of_above hy hk (hplace ▸ List.prefix_refl _)
    have hge : j ≤ k := le_of_above hk hy (hplace ▸ List.prefix_refl _)
    obtain rfl := Nat.le_antisymm hle hge
    cases hk.symm.trans hy
    simp [habove]

/-- a node that is not the root has an earlier one above it -/
theorem exists_earlier (hdrawn : v.IsDrawn) (hpos : 0 < i) (hx : (nodes 0 v)[i]? = some x) :
    ∃ (j : Nat) (z : Node), j < i ∧ (nodes 0 v)[j]? = some z ∧ x.link.1 = some z.name := by
  rcases above_nodes (List.mem_of_getElem? hx) with ⟨-, htop⟩ | ⟨z, hz, habove, hnear⟩
  · have hplace : [] = x.place := htop [] (drawnAt_nil.2 hdrawn) List.nil_prefix
    have hle : i ≤ 0 := le_of_above (nodes_root hdrawn) hx (hplace ▸ List.prefix_refl _)
    omega
  · obtain ⟨j, hj⟩ := List.mem_iff_getElem?.1 hz
    have hle : j ≤ i := le_of_above hx hj hnear.above
    have hne : j ≠ i := by
      rintro rfl
      cases hj.symm.trans hx
      exact hnear.proper rfl
    exact ⟨j, z, by omega, hj, by rw [Node.link, habove]; rfl⟩

/-- **Lines with the edges of the nodes of a tree are the lines of the tree.** -/
theorem mirrors_of_edges (hdrawn : v.IsDrawn) {lines : List Line}
    (h : lines.map Line.edge = (nodes 0 v).map Node.link) :
    Mirrors v ((nodes 0 v).map Node.place) lines := by
  have hlength : lines.length = (nodes 0 v).length := by simpa using congrArg List.length h
  have hline : ∀ {i : Nat} {l : Line} {x : Node}, lines[i]? = some l → (nodes 0 v)[i]? = some x →
      l.edge = x.link := by
    intro i l x hl hx
    have hat := congrArg (fun es => es[i]?) h
    simpa [hl, hx] using hat
  have hexists : ∀ {i : Nat} {l : Line}, lines[i]? = some l → ∃ x, (nodes 0 v)[i]? = some x := by
    intro i l hl
    have hlt := (List.getElem?_eq_some_iff.1 hl).1
    exact ⟨_, List.getElem?_eq_getElem (hlength ▸ hlt)⟩
  have hline' : ∀ {i : Nat} {x : Node}, (nodes 0 v)[i]? = some x → ∃ l, lines[i]? = some l := by
    intro i x hx
    have hlt := (List.getElem?_eq_some_iff.1 hx).1
    exact ⟨_, List.getElem?_eq_getElem (hlength ▸ hlt)⟩
  refine ⟨by simpa using hlength, fun a => mem_nodes, nodes_pairwise, ?_, ?_, ?_, ?_⟩
  · intro i a l ha hl
    obtain ⟨x, hx, rfl⟩ := Option.map_eq_some_iff.1 (List.getElem?_map.symm.trans ha)
    obtain ⟨y, hy, hname⟩ := name_nodes hx
    have hedge := congrArg Prod.snd (hline hl hx)
    exact ⟨y, hy, hedge.trans (hname.trans (congrArg _ (Nat.zero_add i)))⟩
  · obtain ⟨l, hl⟩ := hline' (nodes_root hdrawn)
    exact ⟨l, by simp [nodes_root hdrawn], hl, congrArg Prod.fst (hline hl (nodes_root hdrawn))⟩
  · intro i l hpos hl
    obtain ⟨x, hx⟩ := hexists hl
    obtain ⟨j, z, hlt, hj, hlink⟩ := exists_earlier hdrawn hpos hx
    obtain ⟨k, hk⟩ := hline' hj
    have hname : k.name = z.name := congrArg Prod.snd (hline hk hj)
    have hparent : l.parent = x.link.1 := congrArg Prod.fst (hline hl hx)
    exact ⟨j, k, hlt, hk, hparent.trans (hname ▸ hlink)⟩
  · intro i j a b l k ha hl hb hk
    obtain ⟨x, hx, rfl⟩ := Option.map_eq_some_iff.1 (List.getElem?_map.symm.trans ha)
    obtain ⟨y, hy, rfl⟩ := Option.map_eq_some_iff.1 (List.getElem?_map.symm.trans hb)
    have hname : k.name = y.name := congrArg Prod.snd (hline hk hy)
    have hparent : l.parent = x.link.1 := congrArg Prod.fst (hline hl hx)
    rw [hparent, hname]
    exact link_iff hx hy

end Mirrors

/-- **The graph of a parsed program is its tree without the terms.**  Whenever a graph is drawn, its
text is a header, the lines of the tree and a footer; no node is left open, and the next number is
that of the lines. -/
theorem graph_mirrors_tree {source text : String} {p : Program} {q : Printer}
    (hparse : (parseText source).1 = .ok p) (hdraw : drawTree p.toValue {} = (.ok text, q)) :
    ∃ (places : List Place) (lines : List Line),
      text = header ++ String.join (lines.map Line.text) ++ footer ∧ (∀ l ∈ lines, l.IsSingle) ∧
        Mirrors p.toValue places lines ∧ q.stack = [] ∧ q.next = lines.length := by
  have hnames : Symbol.Names OneLine p.block.symbols := by
    intro x hx
    exact .ofIdentifier ((shaped_of_parse hparse).names x (List.mem_append_left _ hx))
  have htagged : Tagged p.toValue "PROGRAM" [p.block.toValue] := ⟨rfl, rfl⟩
  have hterm : "PROGRAM" ≠ "TERM" := by decide
  obtain ⟨q', hroot, rfl, rfl⟩ := drawTree_ok.1 hdraw
  obtain ⟨hstack, hnext, hedges, hsingle⟩ :=
    root_draws htagged hterm (by decide) (.cons (draws_block p.block hnames) .nil) hroot
  have hmirrors := mirrors_of_edges (htagged.isDrawn hterm) hedges
  refine ⟨_, q'.drawn.getD [], rfl, hsingle, hmirrors, hstack, ?_⟩
  rw [hmirrors.length_eq, List.length_map]
  exact hnext

/-- an assignment whose expression has a product -/
def doubling : Program :=
  ⟨.mk none (some ["x"]) [] (.assign "x" (.mk none (.mk (.number 2) [(.times, .name "x")]) []))⟩

def doublingLines : List Line :=
  [⟨"doublecircle", "PROGRAM", "green", none, "PROGRAM_0"⟩,
    ⟨"circle", "BLOCK", "black", some "PROGRAM_0", "BLOCK_1"⟩,
    ⟨"circle", "VARIABLES", "black", some "BLOCK_1", "VARIABLES_2"⟩,
    ⟨"square", "x", "blue", some "VARIABLES_2", "NAME_3"⟩,
    ⟨"circle", "SET", "black", some "BLOCK_1", "SET_4"⟩,
    ⟨"square", "x", "blue", some "SET_4", "NAME_5"⟩,
    ⟨"circle", "EXPR", "blue", some "SET_4", "EXPRESSION_6"⟩,
    ⟨"square", "2", "blue", some "EXPRESSION_6", "NUMBER_7"⟩,
    ⟨"circle", "TIMES", "black", some "EXPRESSION_6", "TIMES_8"⟩,
    ⟨"square", "x", "blue", some "TIMES_8", "NAME_9"⟩]

theorem doubling_drawn :
    (exec (root doubling.toValue (Site.survey visit doubling.toValue).parts)
      { drawn := some [] }).1.isOk = true ∧
    (exec (root doubling.toValue (Site.survey visit doubling.toValue).parts)
      { drawn := some [] }).2.drawn = some doublingLines := by
  decide +kernel

/-- the parts of the product hang on the expression -/
theorem doubling_graph_mirrors_tree :
    (parseText "var x; x := 2 * x.").1 = .ok doubling ∧
    ∃ q, drawTree doubling.toValue {} = (.ok (Printer.text doublingLines ++ footer), q) ∧
      ∃ (places : List Place) (lines : List Line),
        Printer.text doublingLines ++ footer = header ++ String.join (lines.map Line.text) ++
          footer ∧
          (∀ l ∈ lines, l.IsSingle) ∧ Mirrors doubling.toValue places lines ∧ q.stack = [] ∧
            q.next = lines.length := by
  have hparse : (parseText "var x; x := 2 * x.").1 = .ok doubling := by with_unfolding_all rfl
  obtain ⟨hok, hlines⟩ := doubling_drawn
  rcases hroot : exec (root doubling.toValue (Site.survey visit doubling.toValue).parts)
      { drawn := some [] } with
    ⟨e | u, q⟩
  · rw [hroot] at hok
    cases hok
  · rw [hroot] at hlines
    have hdraw := drawTree_ok.2 ⟨q, hroot, rfl, rfl⟩
    rw [hlines] at hdraw
    exact ⟨hparse, _, hdraw, graph_mirrors_tree hparse hdraw⟩

end Pl0Kit.Graph
