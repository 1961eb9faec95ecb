import Pl0Kit.Graph

/-!
# Places in trees

A place says which part to take at each node on the way from the root of a tree down to a subtree.
In lexicographic order places are in preorder: a node comes before what is below it, and that before
its right neighbours.

A graph has a node for each list or tuple of a tree that is no term.  `nodes n v` lists them,
numbered from `n` on, each with its place and with the node above it.  The lemmas say what the list
is, without its recursion:

* `mem_nodes`       it has all places of drawn subtrees and no others;
* `nodes_pairwise`  they are in preorder;
* `name_nodes`      the names have the numbers from `n` on, without a gap;
* `above_nodes`     the node above is the nearest one on the way up that is drawn.
-/

namespace Pl0Kit

abbrev Place := List Nat

namespace Value

/-- the parts of a list or tuple -/
def nodeParts : Value → List Value
  | list xs => xs
  | tuple xs => xs
  | _ => []

/-- the part of a tree at a place -/
def subtree? : Value → Place → Option Value
  | v, [] => some v
  | v, i :: a =>
    match v.nodeParts[i]? with
    | some x => x.subtree? a
    | Option.none => Option.none

/-- the word that a node begins with -/
def tag (v : Value) : String :=
  match v.nodeParts with
  | [] => ""
  | x :: _ => x.text

/-- a list or tuple that is no term -/
def IsDrawn (v : Value) : Prop := v.isNode = true ∧ v.tag ≠ "TERM"

instance (v : Value) : Decidable v.IsDrawn := inferInstanceAs (Decidable (_ ∧ _))

/-- induction on lists and tuples -/
theorem node_induction {P : Value → Prop} (leaf : ∀ v, v.isNode = false → P v)
    (node : ∀ v, v.isNode = true → (∀ x ∈ v.nodeParts, P x) → P v) (v : Value) : P v :=
  match v with
  | list xs => node (list xs) rfl fun x (_ : x ∈ xs) => node_induction leaf node x
  | tuple xs => node (tuple xs) rfl fun x (_ : x ∈ xs) => node_induction leaf node x
  | none | bool _ | int _ | str _ | dict _ | procedure _ _ | token _ _ _ _ | symbol _ => leaf _ rfl

theorem nodeParts_of_leaf {v : Value} (h : v.isNode = false) : v.nodeParts = [] := by
  cases v with
  | list xs | tuple xs => cases h
  | _ => rfl

end Value

namespace Graph

/-! ## nodes of a graph -/

/-- the name of the node for `v` that has the number `n` -/
def nodeName (v : Value) (n : Nat) : String := v.tag ++ "_" ++ toString n

/-- a node of a graph: the place of its subtree, its name, and the place and name of the node above
it, unless that is outside of the tree -/
structure Node where
  place : Place
  name : String
  above : Option (Place × String)

namespace Node

/-- a node of part number `i` -/
def shift (i : Nat) (x : Node) : Node :=
  ⟨i :: x.place, x.name, x.above.map fun b => (i :: b.1, b.2)⟩

/-- a node below the root, whose name is given -/
def hang (root : String) (x : Node) : Node := { x with above := some (x.above.getD ([], root)) }

@[simp] theorem shift_place (i : Nat) (x : Node) : (x.shift i).place = i :: x.place := rfl
@[simp] theorem shift_name (i : Nat) (x : Node) : (x.shift i).name = x.name := rfl
@[simp] theorem shift_above (i : Nat) (x : Node) :
    (x.shift i).above = x.above.map fun b => (i :: b.1, b.2) := rfl
@[simp] theorem hang_place (root : String) (x : Node) : (x.hang root).place = x.place := rfl
@[simp] theorem hang_name (root : String) (x : Node) : (x.hang root).name = x.name := rfl
@[simp] theorem hang_above (root : String) (x : Node) :
    (x.hang root).above = some (x.above.getD ([], root)) := rfl

end Node

/-- the nodes of a tree whose parts have the nodes `inner m`, if they are numbered from `m` on -/
def around (v : Value) (n : Nat) (inner : Nat → List Node) : List Node :=
  if v.IsDrawn then ⟨[], nodeName v n, none⟩ ::
    (inner (n + 1)).map (.hang (nodeName v n)) else inner n

mutual

/-- the nodes of a tree, numbered from `n` on -/
def nodes (n : Nat) : Value → List Node
  | .list xs => around (.list xs) n fun m => partNodes m 0 xs
  | .tuple xs => around (.tuple xs) n fun m => partNodes m 0 xs
  | _ => []

/-- the nodes of the parts of a tree, from number `i` on -/
def partNodes (n i : Nat) : List Value → List Node
  | [] => []
  | x :: xs => (nodes n x).map (.shift i) ++ partNodes (n + (nodes n x).length) (i + 1) xs

end

theorem nodes_leaf {v : Value} (h : v.isNode = false) (n : Nat) : nodes n v = [] := by
  cases v with
  | list xs | tuple xs => cases h
  | _ =>
    rw [nodes]
    all_goals
      intro xs hxs
      cases hxs

theorem nodes_node {v : Value} (h : v.isNode = true) (n : Nat) :
    nodes n v = around v n fun m => partNodes m 0 v.nodeParts := by
  cases v with
  | list xs | tuple xs =>
    rw [nodes]
    rfl
  | _ => cases h

variable {v : Value} {n i j : Nat} {xs : List Value} {x : Node} {a b : Place}

/-! ## parts -/

/-- each node of the parts is a node of one of them, with its number, and the other nodes of that
part are there -/
theorem of_partNodes (h : (partNodes n i xs)[j]? = some x) :
    ∃ k y m t z, xs[k]? = some y ∧ (nodes m y)[t]? = some z ∧ x = z.shift (i + k) ∧ m + t = n + j ∧
      ∀ z' ∈ nodes m y, z'.shift (i + k) ∈ partNodes n i xs := by
  induction xs generalizing n i j with
  | nil => simp [partNodes] at h
  | cons y xs ih =>
    rw [partNodes, List.getElem?_append] at h
    split at h
    · obtain ⟨z, hz, rfl⟩ := List.getElem?_map.symm.trans h |> Option.map_eq_some_iff.1
      refine ⟨0, y, n, j, z, rfl, hz, rfl, rfl, fun z' hz' => ?_⟩
      rw [partNodes]
      exact List.mem_append_left _ (List.mem_map_of_mem hz')
    · rename_i hj
      rw [List.length_map] at h hj
      obtain ⟨k, y', m, t, z, hy', hz, hx, hm, hall⟩ := ih h
      refine ⟨k + 1, y', m, t, z, hy', hz, ?_, by omega, fun z' hz' => ?_⟩
      · rw [hx, Nat.add_right_comm, Nat.add_assoc]
      · rw [partNodes, ← Nat.add_assoc, Nat.add_right_comm]
        exact List.mem_append_right _ (hall z' hz')

theorem mem_partNodes {y : Value} {k : Nat} (hy : xs[k]? = some y) :
    ∃ m, ∀ z ∈ nodes m y, z.shift (i + k) ∈ partNodes n i xs := by
  induction xs generalizing n i k with
  | nil => cases hy
  | cons y' xs ih =>
    cases k with
    | zero =>
      cases hy
      refine ⟨n, fun z hz => ?_⟩
      rw [partNodes]
      exact List.mem_append_left _ (List.mem_map_of_mem hz)
    | succ k =>
      obtain ⟨m, hm⟩ := ih (n := n + (nodes n y').length) (i := i + 1) hy
      refine ⟨m, fun z hz => ?_⟩
      rw [partNodes, ← Nat.add_assoc, Nat.add_right_comm]
      exact List.mem_append_right _ (hm z hz)

theorem place_partNodes (h : x ∈ partNodes n i xs) : ∃ k c, x.place = (i + k) :: c := by
  obtain ⟨j, hj⟩ := List.mem_iff_getElem?.1 h
  obtain ⟨k, y, m, t, z, -, -, rfl, -, -⟩ := of_partNodes hj
  exact ⟨k, z.place, rfl⟩

/-! ## places of nodes -/

/-- the tree has a subtree at the place, and that is drawn -/
def DrawnAt (v : Value) (a : Place) : Prop := ∃ x, v.subtree? a = some x ∧ x.IsDrawn

theorem drawnAt_nil : DrawnAt v [] ↔ v.IsDrawn := by
  constructor
  · rintro ⟨x, hx, hdrawn⟩
    cases hx
    exact hdrawn
  · exact fun h => ⟨v, rfl, h⟩

theorem drawnAt_cons : DrawnAt v (i :: a) ↔ ∃ y, v.nodeParts[i]? = some y ∧ DrawnAt y a := by
  unfold DrawnAt
  rw [Value.subtree?]
  cases hi : v.nodeParts[i]? with
  | none => simp
  | some y => simp

theorem not_drawnAt_of_leaf (h : v.isNode = false) : ¬ DrawnAt v a := by
  cases a with
  | nil =>
    rw [drawnAt_nil]
    exact fun hdrawn => Bool.false_ne_true (h.symm.trans hdrawn.1)
  | cons i a =>
    rw [drawnAt_cons, Value.nodeParts_of_leaf h]
    rintro ⟨y, hy, -⟩
    cases hy

/-- **A graph has a node for each subtree that is drawn**, and for nothing else. -/
theorem mem_nodes : a ∈ (nodes n v).map Node.place ↔ DrawnAt v a := by
  induction v using Value.node_induction generalizing n a with
  | leaf v h =>
    rw [nodes_leaf h]
    simpa using not_drawnAt_of_leaf h
  | node v h ih =>
    have hparts : ∀ m, a ∈ (partNodes m 0 v.nodeParts).map Node.place ↔ a ≠ [] ∧ DrawnAt v a := by
      intro m
      constructor
      · intro ha
        obtain ⟨x, hx, rfl⟩ := List.mem_map.1 ha
        obtain ⟨j, hj⟩ := List.mem_iff_getElem?.1 hx
        obtain ⟨k, y, m', t, z, hy, hz, rfl, -, -⟩ := of_partNodes hj
        refine ⟨List.cons_ne_nil _ _, drawnAt_cons.2 ⟨y, ?_, ?_⟩⟩
        · rw [Nat.zero_add]
          exact hy
        · exact (ih y (List.mem_of_getElem? hy)).1 (List.mem_map_of_mem (List.mem_of_getElem? hz))
      · rintro ⟨hne, hdrawn⟩
        obtain ⟨k, c, rfl⟩ := List.exists_cons_of_ne_nil hne
        obtain ⟨y, hy, hc⟩ := drawnAt_cons.1 hdrawn
        obtain ⟨m', hm'⟩ := mem_partNodes (n := m) (i := 0) hy
        obtain ⟨z, hz, rfl⟩ := List.mem_map.1 ((ih y (List.mem_of_getElem? hy) (n := m')).2 hc)
        exact List.mem_map.2 ⟨_, hm' z hz, by simp⟩
    rw [nodes_node h, around]
    split
    · rename_i hdrawn
      rw [List.map_cons, List.map_map, List.mem_cons]
      show a = [] ∨ a ∈ (partNodes (n + 1) 0 v.nodeParts).map Node.place ↔ _
      rw [hparts]
      by_cases ha : a = []
      · subst ha
        simpa using drawnAt_nil.2 hdrawn
      · simp [ha]
    · rename_i hdrawn
      rw [hparts, and_iff_right_iff_imp]
      rintro hat rfl
      exact hdrawn (drawnAt_nil.1 hat)

/-! ## order -/

/-- **The nodes of a graph are in preorder.** -/
theorem nodes_pairwise : ((nodes n v).map Node.place).Pairwise (List.Lex (· < ·)) := by
  induction v using Value.node_induction generalizing n with
  | leaf v h =>
    rw [nodes_leaf h]
    exact .nil
  | node v h ih =>
    have hparts : ∀ (xs : List Value) (m i : Nat), (∀ x ∈ xs, x ∈ v.nodeParts) →
        ((partNodes m i xs).map Node.place).Pairwise (List.Lex (· < ·)) := by
      intro xs
      induction xs with
      | nil =>
        intro m i _
        exact .nil
      | cons x xs ihxs =>
        intro m i hxs
        obtain ⟨hx, hxs⟩ := List.forall_mem_cons.1 hxs
        rw [partNodes, List.map_append, List.map_map, List.pairwise_append]
        refine ⟨?_, ihxs _ _ hxs, ?_⟩
        · have hfirst : ((nodes m x).map Node.place).Pairwise (List.Lex (· < ·)) := ih x hx
          rw [List.pairwise_map] at hfirst ⊢
          exact hfirst.imp fun hlex => .cons hlex
        · intro c hc d hd
          obtain ⟨z, -, rfl⟩ := List.mem_map.1 hc
          obtain ⟨z', hz', rfl⟩ := List.mem_map.1 hd
          obtain ⟨k, e, he⟩ := place_partNodes hz'
          rw [he]
          exact .rel (by omega)
    have hinner := fun m => hparts v.nodeParts m 0 fun _ => id
    rw [nodes_node h, around]
    split
    · rw [List.map_cons, List.pairwise_cons, List.map_map]
      refine ⟨fun c hc => ?_, hinner (n + 1)⟩
      obtain ⟨z, hz, rfl⟩ := List.mem_map.1 hc
      obtain ⟨k, e, he⟩ := place_partNodes hz
      show List.Lex (· < ·) [] z.place
      rw [he]
      exact .nil
    · exact hinner n

/-! ## names -/

/-- **Nodes are numbered from `n` on, without a gap**, and named after their subtrees. -/
theorem name_nodes (h : (nodes n v)[j]? = some x) :
    ∃ y, v.subtree? x.place = some y ∧ x.name = nodeName y (n + j) := by
  induction v using Value.node_induction generalizing n j x with
  | leaf v hv =>
    rw [nodes_leaf hv] at h
    cases h
  | node v hv ih =>
    have hparts : ∀ {m j : Nat} {x : Node}, (partNodes m 0 v.nodeParts)[j]? = some x →
        ∃ y, v.subtree? x.place = some y ∧ x.name = nodeName y (m + j) := by
      intro m j x hx
      obtain ⟨k, y, m', t, z, hy, hz, rfl, hnum, -⟩ := of_partNodes hx
      obtain ⟨w, hw, hname⟩ := ih y (List.mem_of_getElem? hy) hz
      refine ⟨w, ?_, hname.trans (congrArg _ hnum)⟩
      rw [Node.shift_place, Nat.zero_add, Value.subtree?, hy]
      exact hw
    rw [nodes_node hv, around] at h
    split at h
    · cases j with
      | zero =>
        cases h
        exact ⟨v, rfl, rfl⟩
      | succ j =>
        rw [List.getElem?_cons_succ, List.getElem?_map] at h
        obtain ⟨z, hz, rfl⟩ := Option.map_eq_some_iff.1 h
        obtain ⟨y, hy, hname⟩ := hparts hz
        exact ⟨y, hy, hname.trans (congrArg _ (by omega))⟩
    · exact hparts h

/-! ## the node above -/

/-- of the places above `a` that are drawn, `b` is the nearest one -/
structure NearestAbove (v : Value) (b a : Place) : Prop where
  drawn : DrawnAt v b
  above : b <+: a
  proper : b ≠ a
  nearest : ∀ c, DrawnAt v c → c <+: a → c ≠ a → c <+: b

/-- no place above `a` is drawn, apart from the root -/
def Topmost (v : Value) (a : Place) : Prop := ∀ c, c ≠ [] → DrawnAt v c → c <+: a → c = a

/-- what is nearest in a part is nearest in the whole -/
theorem NearestAbove.shift {y : Value} {k : Nat} (hy : v.nodeParts[k]? = some y)
    (h : NearestAbove y b a) : NearestAbove v (k :: b) (k :: a) where
  drawn := drawnAt_cons.2 ⟨y, hy, h.drawn⟩
  above := List.cons_prefix_cons.2 ⟨rfl, h.above⟩
  proper he := h.proper (List.cons.inj he).2
  nearest c hc hca hne := by
    cases c with
    | nil => exact List.nil_prefix
    | cons i c =>
      obtain ⟨rfl, hbelow⟩ := List.cons_prefix_cons.1 hca
      obtain ⟨y', hy', hc⟩ := drawnAt_cons.1 hc
      cases hy.symm.trans hy'
      exact List.cons_prefix_cons.2 ⟨rfl, h.nearest c hc hbelow fun he => hne (he ▸ rfl)⟩

theorem topmost_cons {y : Value} {k : Nat} (hy : v.nodeParts[k]? = some y)
    (h : ∀ c, DrawnAt y c → c <+: a → c = a) : Topmost v (k :: a) := by
  intro c hne hc hca
  obtain ⟨i, c, rfl⟩ := List.exists_cons_of_ne_nil hne
  obtain ⟨rfl, hbelow⟩ := List.cons_prefix_cons.1 hca
  obtain ⟨y', hy', hc⟩ := drawnAt_cons.1 hc
  cases hy.symm.trans hy'
  rw [h c hc hbelow]

/-- **The node above is the nearest one that is drawn.**  A node has none in the tree only if
nothing above it is drawn. -/
theorem above_nodes (h : x ∈ nodes n v) :
    (x.above = none ∧ ∀ c, DrawnAt v c → c <+: x.place → c = x.place) ∨
      ∃ z ∈ nodes n v, x.above = some (z.place, z.name) ∧ NearestAbove v z.place x.place := by
  induction v using Value.node_induction generalizing n x with
  | leaf v hv =>
    rw [nodes_leaf hv] at h
    cases h
  | node v hv ih =>
    have hparts : ∀ {m : Nat} {x : Node}, x ∈ partNodes m 0 v.nodeParts →
        (x.above = none ∧ Topmost v x.place) ∨ ∃ z ∈ partNodes m 0 v.nodeParts,
          x.above = some (z.place, z.name) ∧ NearestAbove v z.place x.place := by
      intro m x hx
      obtain ⟨j, hj⟩ := List.mem_iff_getElem?.1 hx
      obtain ⟨k, y, m', t, z, hy, hz, rfl, -, hall⟩ := of_partNodes hj
      rw [Nat.zero_add] at hall ⊢
      rcases ih y (List.mem_of_getElem? hy)
        (List.mem_of_getElem? hz) with ⟨hnone, htop⟩ | ⟨z', hz', hab, hnear⟩
      · exact .inl ⟨by simp [hnone], topmost_cons hy htop⟩
      · exact .inr ⟨z'.shift k, hall z' hz', by simp [hab], hnear.shift hy⟩
    rw [nodes_node hv] at h ⊢
    rw [around] at h ⊢
    split at h
    · rename_i hdrawn
      rw [if_pos hdrawn]
      rcases List.mem_cons.1 h with rfl | h
      · exact .inl ⟨rfl, fun c _ hc => List.prefix_nil.1 hc⟩
      · obtain ⟨z, hz, rfl⟩ := List.mem_map.1 h
        right
        rcases hparts hz with ⟨hnone, htop⟩ | ⟨z', hz', hab, hnear⟩
        · -- nothing is drawn in between, so the node hangs on the root
          refine ⟨_, List.mem_cons_self, by simp [hnone], ?_⟩
          obtain ⟨k, e, he⟩ := place_partNodes hz
          refine ⟨drawnAt_nil.2 hdrawn, List.nil_prefix, fun hnil => ?_, fun c hc hca hne => ?_⟩
          · have hplace : z.place = [] := hnil.symm
            rw [he] at hplace
            cases hplace
          · by_cases hnil : c = []
            · exact hnil ▸ List.prefix_refl _
            · exact absurd (htop c hnil hc hca) hne
        · exact ⟨z'.hang (nodeName v n),
            List.mem_cons_of_mem _ (List.mem_map_of_mem hz'), by simp [hab], hnear⟩
    · rename_i hdrawn
      rw [if_neg hdrawn]
      rcases hparts h with ⟨hnone, htop⟩ | hbelow
      · refine .inl ⟨hnone, fun c hc hca => htop c ?_ hc hca⟩
        rintro rfl
        exact hdrawn (drawnAt_nil.1 hc)
      · exact .inr hbelow

end Graph

end Pl0Kit
