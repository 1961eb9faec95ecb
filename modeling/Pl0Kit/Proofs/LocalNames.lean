import Mathlib.Logic.Equiv.Basic
import Pl0Kit.Proofs.Fragment
import Pl0Kit.Proofs.Lockstep

/-!
# Names of local variables

The declaration of a local variable governs the statement of its block and the blocks inside, down
to those that declare the name themselves.  `Block.RenamesLocal` puts a new name for a local
variable where its declaration governs it, and only there.

A run finds names in the blocks that are running, whatever block they are used in, so a procedure
that uses a variable of the program takes the local variable of its caller if that has the same name
(`caller_hides_variable`).  The new name cannot be noticed if every block that uses the old one
declares it, or if the old one is used for nothing else (`renamed_local_agrees`).  In the first case
blocks need different renamings, in the second one renaming is enough for all of them; both are
instances of `Paired`.
-/

namespace Pl0Kit

variable {v w : String}

/-! ## renaming a local variable -/

/-- `w` instead of `v` -/
def instead (v w : String) : String → String := Function.update id v w

mutual

/-- a block inside the one that declares `v`, with the new name -/
def Block.renameFree (v w : String) : Block → Block
  | .mk consts vars procs body =>
    if v ∈ (Block.mk consts vars procs body).names then .mk consts vars procs body
    else .mk consts vars (Block.renameFreeAll v w procs) (body.rename (instead v w))

def Block.renameFreeAll (v w : String) : List (String × Block) → List (String × Block)
  | [] => []
  | (q, b) :: procs => (q, b.renameFree v w) :: Block.renameFreeAll v w procs

end

/-- the block that declares the variable `v`, with the new name -/
def Block.renameLocal (v w : String) : Block → Block
  | .mk consts vars procs body =>
    .mk consts (renameVars (instead v w) vars) (Block.renameFreeAll v w procs)
      (body.rename (instead v w))

/-- a variable of a block that is nothing else there -/
def Block.Local (v : String) : Block → Prop
  | .mk consts vars procs _ =>
    v ∈ vars.getD [] ∧ v ∉ (consts.getD []).map Prod.fst ∧ v ∉ procs.map Prod.fst

/-- the variable `v` of one of the procedures is renamed to `w` where its declaration governs it -/
inductive Block.RenamesLocal (v w : String) : Block → Block → Prop
  | here {consts : Option (List (String × Nat))} {vars : Option (List String)} {body : Statement}
      {pre post : List (String × Block)} {q : String} {b : Block} (h : b.Local v) :
      RenamesLocal v w (.mk consts vars (pre ++ (q, b) :: post) body)
        (.mk consts vars (pre ++ (q, b.renameLocal v w) :: post) body)
  | inside {consts : Option (List (String × Nat))} {vars : Option (List String)} {body : Statement}
      {pre post : List (String × Block)} {q : String} {b b' : Block} (h : RenamesLocal v w b b') :
      RenamesLocal v w (.mk consts vars (pre ++ (q, b) :: post) body)
        (.mk consts vars (pre ++ (q, b') :: post) body)

mutual

/-- all blocks that use `v` declare it -/
def Block.UsesOwn (v : String) : Block → Prop
  | .mk consts vars procs body =>
    (Symbol.name v ∈ body.symbols → v ∈ (Block.mk consts vars procs body).names) ∧
      Block.allUseOwn v procs

def Block.allUseOwn (v : String) : List (String × Block) → Prop
  | [] => True
  | (_, b) :: procs => b.UsesOwn v ∧ Block.allUseOwn v procs

end

/-! ## names that are not there -/

theorem agreeOn_instead {xs : List Symbol} (hw : Symbol.name w ∉ xs) :
    AgreeOn (instead v w) (Equiv.swap v w) xs := by
  intro x hx
  have hxw : x ≠ w := fun h => hw (h ▸ hx)
  by_cases hxv : x = v
  · rw [hxv, instead, Function.update_self, Equiv.swap_apply_left]
  · rw [instead, Function.update_of_ne hxv, Equiv.swap_apply_of_ne_of_ne hxv hxw]
    rfl

theorem agreeOn_id {xs : List Symbol} (hv : Symbol.name v ∉ xs) : AgreeOn (instead v w) id xs := by
  intro x hx
  have hxv : x ≠ v := fun h => hv (h ▸ hx)
  rw [instead, Function.update_of_ne hxv]

theorem swap_eq_self {xs : List String} (hv : v ∉ xs) (hw : w ∉ xs) :
    ∀ x ∈ xs, Equiv.swap v w x = x :=
  fun _ hx => Equiv.swap_apply_of_ne_of_ne (fun h => hv (h ▸ hx)) fun h => hw (h ▸ hx)

theorem renameConsts_eq_self {r : String → String} {consts : Option (List (String × Nat))}
    (h : ∀ x ∈ (consts.getD []).map Prod.fst, r x = x) : renameConsts r consts = consts := by
  cases consts with
  | none => rfl
  | some ds =>
    refine congrArg some ((List.map_congr_left fun d hd => ?_).trans (List.map_id ds))
    rw [h d.1 (List.mem_map_of_mem hd)]
    rfl

theorem renameVars_eq_self {r : String → String} {vars : Option (List String)}
    (h : ∀ x ∈ vars.getD [], r x = x) : renameVars r vars = vars := by
  cases vars with
  | none => rfl
  | some xs => exact congrArg some ((List.map_congr_left h).trans (List.map_id xs))

/-- a name that does not occur in a block -/
theorem Block.not_mem_symbols {consts : Option (List (String × Nat))} {vars : Option (List String)}
    {procs : List (String × Block)} {body : Statement} {x : String}
    (h : Symbol.name x ∉ (Block.mk consts vars procs body).symbols) :
    x ∉ (consts.getD []).map Prod.fst ∧ x ∉ vars.getD [] ∧
      Symbol.name x ∉ Block.procSymbols procs ∧ Symbol.name x ∉ body.symbols := by
  rw [Block.symbols, List.mem_append, List.mem_append, List.mem_append, not_or, not_or, not_or] at h
  obtain ⟨hconsts, hvars, hrest⟩ := h
  refine ⟨fun hx => hconsts ?_, fun hx => hvars ?_, hrest⟩
  · cases consts with
    | none => cases hx
    | some ds =>
      obtain ⟨d, hd, rfl⟩ := List.mem_map.1 hx
      have hmem : Symbol.name d.1 ∈ Symbol.commaList (ds.map defineSymbols) :=
        mem_commaList List.mem_cons_self (List.mem_map_of_mem hd)
      exact List.mem_cons_of_mem _ (List.mem_append_left _ hmem)
  · cases vars with
    | none => cases hx
    | some xs =>
      have hmem : Symbol.name x ∈ Symbol.commaList (xs.map fun y => [.name y]) :=
        mem_commaList List.mem_cons_self (List.mem_map_of_mem hx)
      exact List.mem_cons_of_mem _ (List.mem_append_left _ hmem)

theorem Block.not_mem_procSymbols {q x : String} {b : Block} {procs : List (String × Block)}
    (h : Symbol.name x ∉ Block.procSymbols ((q, b) :: procs)) :
    x ≠ q ∧ Symbol.name x ∉ b.symbols ∧ Symbol.name x ∉ Block.procSymbols procs := by
  rw [Block.procSymbols] at h
  grind

theorem Block.procSymbols_append (ps qs : List (String × Block)) :
    Block.procSymbols (ps ++ qs) = Block.procSymbols ps ++ Block.procSymbols qs := by
  induction ps with
  | nil => rfl
  | cons p ps ih => simp [Block.procSymbols, ih]

theorem Block.not_mem_procs {x : String} {procs : List (String × Block)}
    (h : Symbol.name x ∉ Block.procSymbols procs) : x ∉ procs.map Prod.fst := by
  induction procs with
  | nil => exact List.not_mem_nil
  | cons p procs ih =>
    obtain ⟨hq, -, hrest⟩ := Block.not_mem_procSymbols h
    rw [List.map_cons, List.mem_cons, not_or]
    exact ⟨hq, ih hrest⟩

theorem Block.not_mem_names {x : String} {b : Block} (h : Symbol.name x ∉ b.symbols) :
    x ∉ b.names := by
  obtain ⟨consts, vars, procs, body⟩ := b
  obtain ⟨hconsts, hvars, hprocs, -⟩ := Block.not_mem_symbols h
  rw [Block.names, List.mem_append, List.mem_append, not_or, not_or]
  exact ⟨hconsts, hvars, Block.not_mem_procs hprocs⟩

/-- a name that does not occur in procedures, one of which is singled out -/
theorem Block.not_mem_around {x q : String} {b : Block} {pre post : List (String × Block)}
    (h : Symbol.name x ∉ Block.procSymbols (pre ++ (q, b) :: post)) :
    Symbol.name x ∉ Block.procSymbols pre ∧ x ≠ q ∧ Symbol.name x ∉ b.symbols ∧
      Symbol.name x ∉ Block.procSymbols post := by
  rw [Block.procSymbols_append, List.mem_append, not_or] at h
  exact ⟨h.1, Block.not_mem_procSymbols h.2⟩

/-! ## blocks that use their own names only -/

theorem Block.allUseOwn_append {ps qs : List (String × Block)} :
    Block.allUseOwn v (ps ++ qs) ↔ Block.allUseOwn v ps ∧ Block.allUseOwn v qs := by
  induction ps with
  | nil => exact ⟨fun h => ⟨trivial, h⟩, fun h => h.2⟩
  | cons p ps ih => rw [List.cons_append, Block.allUseOwn, Block.allUseOwn, ih, and_assoc]

mutual

theorem Block.renameFree_eq_self : ∀ {b : Block}, b.UsesOwn v → b.renameFree v w = b
  | .mk consts vars procs body, hown => by
    rw [Block.renameFree]
    split
    · rfl
    · rename_i hv
      have hbody : body.rename (instead v w) = body :=
        (Statement.rename_congr (agreeOn_id fun h => hv (hown.1 h))).trans body.rename_id
      rw [Block.renameFreeAll_eq_self hown.2, hbody]

theorem Block.renameFreeAll_eq_self : ∀ {procs : List (String × Block)},
    Block.allUseOwn v procs → Block.renameFreeAll v w procs = procs
  | [], _ => rfl
  | (q, b) :: procs, hown => by
    rw [Block.renameFreeAll, Block.renameFree_eq_self hown.1, Block.renameFreeAll_eq_self hown.2]

end

/-! ## programs that lose the old name -/

mutual

theorem Block.renameFree_eq_rename : ∀ {b : Block}, Symbol.name w ∉ b.symbols →
    Symbol.name v ∉ (b.renameFree v w).symbols → b.renameFree v w = b.rename (Equiv.swap v w)
  | .mk consts vars procs body, hw, hv => by
    by_cases hnames : v ∈ (Block.mk consts vars procs body).names
    · rw [Block.renameFree, if_pos hnames] at hv
      exact absurd hnames (Block.not_mem_names hv)
    · rw [Block.renameFree, if_neg hnames] at hv ⊢
      obtain ⟨hwc, hwv, hwp, hwb⟩ := Block.not_mem_symbols hw
      obtain ⟨hvc, hvv, hvp, -⟩ := Block.not_mem_symbols hv
      rw [Block.rename, renameConsts_eq_self (swap_eq_self hvc hwc),
        renameVars_eq_self (swap_eq_self hvv hwv), Block.renameFreeAll_eq_rename hwp hvp,
        Statement.rename_congr (agreeOn_instead hwb)]

theorem Block.renameFreeAll_eq_rename : ∀ {procs : List (String × Block)},
    Symbol.name w ∉ Block.procSymbols procs →
      Symbol.name v ∉ Block.procSymbols (Block.renameFreeAll v w procs) →
        Block.renameFreeAll v w procs = Block.renameProcs (Equiv.swap v w) procs
  | [], _, _ => rfl
  | (q, b) :: procs, hw, hv => by
    obtain ⟨hwq, hwb, hwrest⟩ := Block.not_mem_procSymbols hw
    obtain ⟨hvq, hvb, hvrest⟩ := Block.not_mem_procSymbols hv
    rw [Block.renameFreeAll, Block.renameProcs, Equiv.swap_apply_of_ne_of_ne hvq.symm hwq.symm,
      Block.renameFree_eq_rename hwb hvb, Block.renameFreeAll_eq_rename hwrest hvrest]

end

theorem Block.renameLocal_eq_rename {b : Block} (hw : Symbol.name w ∉ b.symbols)
    (hv : Symbol.name v ∉ (b.renameLocal v w).symbols) :
    b.renameLocal v w = b.rename (Equiv.swap v w) := by
  obtain ⟨consts, vars, procs, body⟩ := b
  rw [Block.renameLocal] at hv ⊢
  have hagree : AgreeOn (instead v w) (Equiv.swap v w) _ := agreeOn_instead hw
  obtain ⟨hwc, -, hwp, hwb⟩ := Block.not_mem_symbols hw
  obtain ⟨hvc, -, hvp, -⟩ := Block.not_mem_symbols hv
  rw [Block.rename, renameConsts_eq_self (swap_eq_self hvc hwc),
    renameVars_congr hagree.split.2.split.1, Block.renameFreeAll_eq_rename hwp hvp,
    Statement.rename_congr (agreeOn_instead hwb)]

theorem agreeOn_swap {xs : List Symbol} (hv : Symbol.name v ∉ xs) (hw : Symbol.name w ∉ xs) :
    AgreeOn (Equiv.swap v w) id xs :=
  fun _ hx => Equiv.swap_apply_of_ne_of_ne (fun h => hv (h ▸ hx)) fun h => hw (h ▸ hx)

theorem Block.renameProcs_append (r : String → String) (ps qs : List (String × Block)) :
    Block.renameProcs r (ps ++ qs) = Block.renameProcs r ps ++ Block.renameProcs r qs := by
  induction ps with
  | nil => rfl
  | cons p ps ih => rw [List.cons_append, Block.renameProcs, ih]; rfl

section Around

variable {consts : Option (List (String × Nat))} {vars : Option (List String)} {body : Statement}
  {pre post : List (String × Block)} {q : String} {c c' : Block}

/-- what stands around a renamed procedure has neither of the two names -/
theorem Block.eq_rename_around
    (hw : Symbol.name w ∉ (Block.mk consts vars (pre ++ (q, c) :: post) body).symbols)
    (hv : Symbol.name v ∉ (Block.mk consts vars (pre ++ (q, c') :: post) body).symbols)
    (hc : Symbol.name w ∉ c.symbols → Symbol.name v ∉ c'.symbols →
      c' = c.rename (Equiv.swap v w)) :
    Block.mk consts vars (pre ++ (q, c') :: post) body =
      (Block.mk consts vars (pre ++ (q, c) :: post) body).rename (Equiv.swap v w) := by
  obtain ⟨hwc, hwv, hwp, hwb⟩ := Block.not_mem_symbols hw
  obtain ⟨hvc, hvv, hvp, hvb⟩ := Block.not_mem_symbols hv
  obtain ⟨hwpre, hwq, hwin, hwpost⟩ := Block.not_mem_around hwp
  obtain ⟨hvpre, hvq, hvin, hvpost⟩ := Block.not_mem_around hvp
  rw [Block.rename, renameConsts_eq_self (swap_eq_self hvc hwc),
    renameVars_eq_self (swap_eq_self hvv hwv), Block.renameProcs_append, Block.renameProcs,
    Block.renameProcs_congr (agreeOn_swap hvpre hwpre), Block.renameProcs_id,
    Block.renameProcs_congr (agreeOn_swap hvpost hwpost), Block.renameProcs_id,
    Equiv.swap_apply_of_ne_of_ne hvq.symm hwq.symm, hc hwin hvin,
    Statement.rename_congr (agreeOn_swap hvb hwb), Statement.rename_id]

end Around

/-- if the old name is gone, all of it has become the new one -/
theorem Block.RenamesLocal.eq_rename {b b' : Block} (h : b.RenamesLocal v w b')
    (hw : Symbol.name w ∉ b.symbols) (hv : Symbol.name v ∉ b'.symbols) :
    b' = b.rename (Equiv.swap v w) := by
  induction h with
  | here _ => exact Block.eq_rename_around hw hv Block.renameLocal_eq_rename
  | inside _ ih => exact Block.eq_rename_around hw hv ih

namespace Evaluator

section Pairs

variable {P : (String → String) → Prop} {ρ : String → String}
  {consts consts' : Option (List (String × Nat))} {vars vars' : Option (List String)}
  {body body' : Statement} {procs procs' : List (String × Block)}

theorem Paired.of_parts (hρ : P ρ) (hconsts : renameConsts ρ consts = consts')
    (hvars : renameVars ρ vars = vars') (hprocs : PairedAll P ρ procs procs')
    (hbody : body.rename ρ = body') (hseen : ∀ x, Symbol.name x ∈ body.symbols →
      x ∈ (Block.mk consts vars procs body).names ∨ ∀ κ, P κ → κ x = ρ x) :
    Paired P (.mk consts vars procs body) (.mk consts' vars' procs' body') := by
  subst hconsts hvars hbody
  exact .mk hρ hprocs hseen

theorem PairedAll.append {ps ps' qs qs' : List (String × Block)} (h : PairedAll P ρ ps ps')
    (h' : PairedAll P ρ qs qs') : PairedAll P ρ (ps ++ qs) (ps' ++ qs') := by
  induction ps generalizing ps' with
  | nil =>
    cases h with
    | nil => exact h'
  | cons p ps ih =>
    cases h with
    | cons hb hrest => exact .cons hb (ih hrest)

/-! ## one renaming for all blocks -/

mutual

theorem paired_rename (ρ : String → String) : ∀ b : Block, Paired (· = ρ) b (b.rename ρ)
  | .mk _ _ procs _ =>
    .mk rfl (pairedAll_rename ρ procs) fun x _ => .inr fun _ hκ => congrFun hκ x

theorem pairedAll_rename (ρ : String → String) : ∀ procs : List (String × Block),
    PairedAll (· = ρ) ρ procs (Block.renameProcs ρ procs)
  | [] => .nil
  | (_, b) :: procs => .cons (paired_rename ρ b) (pairedAll_rename ρ procs)

end

/-! ## blocks with renamings of their own -/

/-- a block keeps its names, or one of them is exchanged for the new one -/
def KeepsOrSwaps (v w : String) (κ : String → String) : Prop := κ = id ∨ κ = Equiv.swap v w

namespace KeepsOrSwaps

theorem injective {κ : String → String} (h : KeepsOrSwaps v w κ) : κ.Injective := by
  rcases h with rfl | rfl
  · exact Function.injective_id
  · exact (Equiv.swap v w).injective

theorem eq_self {κ : String → String} (h : KeepsOrSwaps v w κ) {x : String} (hv : x ≠ v)
    (hw : x ≠ w) : κ x = x := by
  rcases h with rfl | rfl
  · rfl
  · exact Equiv.swap_apply_of_ne_of_ne hv hw

/-- what a block sees that declares `v` if it uses it -/
theorem seen {b : Block} (hρ : KeepsOrSwaps v w ρ) (hw : Symbol.name w ∉ body.symbols)
    (hv : Symbol.name v ∈ body.symbols → v ∈ b.names) (x : String)
    (hx : Symbol.name x ∈ body.symbols) : x ∈ b.names ∨ ∀ κ, KeepsOrSwaps v w κ → κ x = ρ x := by
  by_cases hxv : x = v
  · exact .inl (hxv ▸ hv (hxv ▸ hx))
  · have hxw : x ≠ w := fun h => hw (h ▸ hx)
    exact .inr fun κ hκ => (hκ.eq_self hxv hxw).trans (hρ.eq_self hxv hxw).symm

end KeepsOrSwaps

mutual

theorem paired_self : ∀ {b : Block}, Symbol.name w ∉ b.symbols → b.UsesOwn v →
    Paired (KeepsOrSwaps v w) b b
  | .mk consts vars procs body, hw, hown => by
    obtain ⟨-, -, hwp, hwb⟩ := Block.not_mem_symbols hw
    exact .of_parts (.inl rfl) (renameConsts_eq_self fun _ _ => rfl)
      (renameVars_eq_self fun _ _ => rfl) (pairedAll_self hwp hown.2 fun _ _ => rfl) body.rename_id
      (KeepsOrSwaps.seen (.inl rfl) hwb hown.1)

theorem pairedAll_self {ρ : String → String} : ∀ {procs : List (String × Block)},
    Symbol.name w ∉ Block.procSymbols procs → Block.allUseOwn v procs →
      (∀ q ∈ procs.map Prod.fst, ρ q = q) → PairedAll (KeepsOrSwaps v w) ρ procs procs
  | [], _, _, _ => .nil
  | (q, b) :: procs, hw, hown, hρ => by
    obtain ⟨-, hwb, hwrest⟩ := Block.not_mem_procSymbols hw
    have hrest := pairedAll_self hwrest hown.2 fun q' hq' => hρ q' (List.mem_cons_of_mem q hq')
    have hq : ρ q = q := hρ q List.mem_cons_self
    have hall := PairedAll.cons (q := q) (paired_self hwb hown.1) hrest
    rwa [hq] at hall

end

/-- the block of the variable has the swap, all other blocks keep their names -/
theorem paired_renameLocal {b : Block} (hlocal : b.Local v) (hw : Symbol.name w ∉ b.symbols)
    (hown : b.UsesOwn v) : Paired (KeepsOrSwaps v w) b (b.renameLocal v w) := by
  obtain ⟨consts, vars, procs, body⟩ := b
  obtain ⟨-, hvc, hvp⟩ := hlocal
  have hagree : AgreeOn (Equiv.swap v w) (instead v w) _ :=
    fun x hx => (agreeOn_instead hw x hx).symm
  obtain ⟨hwc, -, hwp, hwb⟩ := Block.not_mem_symbols hw
  rw [Block.renameLocal, Block.renameFreeAll_eq_self hown.2]
  exact .of_parts (.inr rfl) (renameConsts_eq_self (swap_eq_self hvc hwc))
    (renameVars_congr hagree.split.2.split.1)
    (pairedAll_self hwp hown.2 (swap_eq_self hvp (Block.not_mem_procs hwp)))
    (Statement.rename_congr hagree.split.2.split.2.split.2)
    (KeepsOrSwaps.seen (.inr rfl) hwb hown.1)

theorem paired_around {pre post : List (String × Block)} {q : String} {c c' : Block}
    (hw : Symbol.name w ∉ (Block.mk consts vars (pre ++ (q, c) :: post) body).symbols)
    (hown : (Block.mk consts vars (pre ++ (q, c) :: post) body).UsesOwn v)
    (hc : Symbol.name w ∉ c.symbols → c.UsesOwn v → Paired (KeepsOrSwaps v w) c c') :
    Paired (KeepsOrSwaps v w) (.mk consts vars (pre ++ (q, c) :: post) body)
      (.mk consts vars (pre ++ (q, c') :: post) body) := by
  obtain ⟨-, -, hwp, hwb⟩ := Block.not_mem_symbols hw
  obtain ⟨hwpre, -, hwin, hwpost⟩ := Block.not_mem_around hwp
  obtain ⟨hbody, hprocs⟩ := hown
  obtain ⟨hpre, hin, hpost⟩ := Block.allUseOwn_append.1 hprocs
  have hpaired : PairedAll (KeepsOrSwaps v w) id (pre ++ (q, c) :: post) (pre ++ (q, c') :: post) :=
    .append (pairedAll_self hwpre hpre fun _ _ => rfl)
      (.cons (hc hwin hin) (pairedAll_self hwpost hpost fun _ _ => rfl))
  exact .of_parts (.inl rfl) (renameConsts_eq_self fun _ _ => rfl)
    (renameVars_eq_self fun _ _ => rfl) hpaired body.rename_id
    (KeepsOrSwaps.seen (.inl rfl) hwb hbody)

theorem paired_renamesLocal {b b' : Block} (h : b.RenamesLocal v w b')
    (hw : Symbol.name w ∉ b.symbols) (hown : b.UsesOwn v) : Paired (KeepsOrSwaps v w) b b' := by
  induction h with
  | here hlocal => exact paired_around hw hown (paired_renameLocal hlocal)
  | inside _ ih => exact paired_around hw hown ih

end Pairs

/-- what can be seen of two runs in step -/
theorem EndsAlike.observed {P : (String → String) → Prop} {Δ : List Layer} {α β : Type}
    {V : α → β → Prop} {r : Except Fault α × Evaluator} {r' : Except Fault β × Evaluator}
    (h : EndsAlike P Δ V r r') : r.2.out = r'.2.out ∧ r.1.isOk = r'.1.isOk ∧
      (r.1 = .error .outOfFuel ↔ r'.1 = .error .outOfFuel) := by
  cases h with
  | ok _ hst => exact ⟨hst.out, rfl, nofun, nofun⟩
  | error hed hout => exact ⟨hout, rfl, by rw [Except.error.injEq, Except.error.injEq, hed]⟩

end Evaluator

/-- **A local variable may get a new name.**  Let the variable `v` of some procedure be renamed to a
name that the program does not have, where its declaration governs it.  If every block that uses `v`
declares it, or if nothing else was called `v`, then with any budget the program prints what it
printed before, and it ends with an answer, with a fault or for want of fuel as it did before. -/
theorem renamed_local_agrees {p p' : Program} (h : p.block.RenamesLocal v w p'.block)
    (hw : Symbol.name w ∉ p.symbols) (hv : p.block.UsesOwn v ∨ Symbol.name v ∉ p'.symbols)
    (fuel : Nat) :
    let r := Evaluator.run fuel p.toValue {}
    let r' := Evaluator.run fuel p'.toValue {}
    r.2.out = r'.2.out ∧ r.1.isOk = r'.1.isOk ∧
      (r.1 = .error .outOfFuel ↔ r'.1 = .error .outOfFuel) := by
  have hwb : Symbol.name w ∉ p.block.symbols := fun hmem => hw (List.mem_append_left _ hmem)
  rcases hv with hown | hv
  · -- nobody looks for `v` in the frames of another block, so one block alone can be renamed
    have hpaired := Evaluator.paired_renamesLocal h hwb hown
    exact (Evaluator.run_alike (fun κ hκ => hκ.injective) hpaired fuel).observed
  · -- all occurrences are renamed, so the frames of all blocks can be
    have hvb : Symbol.name v ∉ p'.block.symbols := fun hmem => hv (List.mem_append_left _ hmem)
    have hpaired := Evaluator.paired_rename (Equiv.swap v w) p.block
    rw [← h.eq_rename hwb hvb] at hpaired
    refine (Evaluator.run_alike (fun κ hκ => ?_) hpaired fuel).observed
    rw [hκ]
    exact (Equiv.swap v w).injective

/-- `q` sets its own variable, calls `p` and prints the variable; the program sets `x` and calls
`q` -/
def callThrough (p : Block) (y : String) : Program :=
  ⟨.mk none (some ["x"])
    [("p", p),
      ("q", .mk none (some [y]) []
        (.block [.assign y (justNumber 5), .call "p", .print (justName y)]))]
    (.block [.assign "x" (justNumber 1), .call "q"])⟩

theorem callThrough_renamed (p : Block) :
    (callThrough p "x").block.RenamesLocal "x" "y" (callThrough p "y").block := by
  let q : Block :=
    .mk none (some ["x"]) [] (.block [.assign "x" (justNumber 5), .call "p", .print (justName "x")])
  have hq : q.renameLocal "x" "y" = .mk none (some ["y"]) []
      (.block [.assign "y" (justNumber 5), .call "p", .print (justName "y")]) := by
    with_unfolding_all rfl
  have hlocal : q.Local "x" := ⟨by decide, by decide, by decide⟩
  have h := @Block.RenamesLocal.here "x" "y" none (some ["x"])
    (.block [.assign "x" (justNumber 1), .call "q"]) [("p", p)] [] "q" q hlocal
  rw [hq] at h
  exact h

/-- sets and prints a variable of its own -/
def printOwn : Block :=
  .mk none (some ["x"]) [] (.block [.assign "x" (justNumber 2), .print (justName "x")])

theorem callThrough_printOwn_agrees :
    (Evaluator.run 60 (callThrough printOwn "x").toValue {}).2.out = "2\n5\n" ∧
      (Evaluator.run 60 (callThrough printOwn "y").toValue {}).2.out = "2\n5\n" := by
  have hout : (Evaluator.run 60 (callThrough printOwn "x").toValue {}).2.out = "2\n5\n" := by
    decide +kernel
  have hfresh : Symbol.name "y" ∉ (callThrough printOwn "x").symbols := by decide +kernel
  have hown : (callThrough printOwn "x").block.UsesOwn "x" :=
    ⟨fun _ => by decide, ⟨fun _ => by decide, trivial⟩, ⟨fun _ => by decide, trivial⟩, trivial⟩
  have hagree := renamed_local_agrees (callThrough_renamed printOwn) hfresh (.inl hown) 60
  exact ⟨hout, hagree.1.symm.trans hout⟩

/-- prints a variable of the program, or so it seems -/
def printOuter : Block := .mk none none [] (.print (justName "x"))

def callThroughText : String :=
  "var x; procedure p; ! x; procedure q; var x; begin x := 5; call p; ! x end; " ++
    "begin x := 1; call q end."

set_option maxRecDepth 2000 in
theorem callThrough_parses :
    (parseText callThroughText).1 = .ok (callThrough printOuter "x") := by
  with_unfolding_all rfl

/-- Names are looked up where a procedure is called from: `p` prints the variable `x` of its caller,
and once that is called `y` it prints the variable of the program. -/
theorem caller_hides_variable :
    (parseText callThroughText).1 = .ok (callThrough printOuter "x") ∧
      (callThrough printOuter "x").block.RenamesLocal "x" "y" (callThrough printOuter "y").block ∧
      Symbol.name "y" ∉ (callThrough printOuter "x").symbols ∧
      (Evaluator.run 60 (callThrough printOuter "x").toValue {}).1.isOk = true ∧
      (Evaluator.run 60 (callThrough printOuter "x").toValue {}).2.out = "5\n5\n" ∧
      (Evaluator.run 60 (callThrough printOuter "y").toValue {}).1.isOk = true ∧
      (Evaluator.run 60 (callThrough printOuter "y").toValue {}).2.out = "1\n5\n" := by
  refine ⟨callThrough_parses, callThrough_renamed printOuter, ?_, ?_, ?_, ?_, ?_⟩
  all_goals decide +kernel

end Pl0Kit
