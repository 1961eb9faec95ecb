import Pl0Kit.Proofs.Outcome

/-!
# Contracts of visits

A visitor walks any tree, well formed or not, and may fail at any place.  What holds of every such
walk is shown by a `Contract`: a property of visits that answers and faults have, and sequences
inherit from their parts.  If the rules of a visitor keep a contract, given that the visits of the
parts do, then so does the visit of every tree (`Contract.sound_spot`).

* `C.Keeps V p`  the visit `p` keeps the contract, and its answers are in `V`;
* `C.Sound s`    the visits of the site `s`, of its parts and of its keys keep the contract.
-/

namespace Pl0Kit

/-- a property of visits, together with one of their answers -/
structure Contract (σ : Type) where
  Keeps {α : Type} (V : α → Prop) (p : Act σ α) : Prop
  answer {α : Type} {V : α → Prop} {a : α} : V a → Keeps V (pure a)
  fault {α : Type} {V : α → Prop} (e : Fault) : Keeps V (throw e)
  bind {α β : Type} {V : α → Prop} {W : β → Prop} {p : Act σ α} {f : α → Act σ β} :
    Keeps V p → (∀ a, V a → Keeps W (f a)) → Keeps W (p >>= f)

namespace Contract

variable {σ α β : Type} {C : Contract σ} {V : α → Prop} {W : β → Prop}

/-- any answer -/
def Any {α : Type} (_ : α) : Prop := True

namespace Keeps

theorem bind {p : Act σ α} {f : α → Act σ β} (h : C.Keeps V p) (hf : ∀ a, V a → C.Keeps W (f a)) :
    C.Keeps W (p >>= f) := C.bind h hf

/-- a visit whose answer is not used -/
theorem andThen {p : Act σ α} {f : α → Act σ β} (h : C.Keeps V p) (hf : ∀ a, C.Keeps W (f a)) :
    C.Keeps W (p >>= f) := h.bind fun a _ => hf a

end Keeps

/-- a site whose visit keeps the contract, as the visits of its parts and keys do -/
inductive Sound (C : Contract σ) : Spot σ → Prop
  | mk {v : Value} {a : Act σ Value} {ps ks : List (Spot σ)} : C.Keeps Any a →
      (∀ p ∈ ps, C.Sound p) → (∀ k ∈ ks, C.Sound k) → C.Sound (.mk v a ps ks)

namespace Sound

variable {s : Spot σ}

theorem act (h : C.Sound s) : C.Keeps Any s.act := by
  cases h with
  | mk ha _ _ => exact ha

theorem parts (h : C.Sound s) : ∀ p ∈ s.parts, C.Sound p := by
  cases h with
  | mk _ hp _ => exact hp

theorem keys (h : C.Sound s) : ∀ k ∈ s.keys, C.Sound k := by
  cases h with
  | mk _ _ hk => exact hk

theorem letters (cs : List Char) : ∀ p ∈ cs.map Spot.letter, C.Sound p := by
  intro p hp
  obtain ⟨c, -, rfl⟩ := List.mem_map.1 hp
  exact .mk (C.answer trivial) (List.forall_mem_nil _) (List.forall_mem_nil _)

theorem ofEntry {i : Int} : ∀ {es : List (Value × Value)} {ps : List (Spot σ)} {p : Spot σ},
    (∀ p ∈ ps, C.Sound p) → Spot.entry? i es ps = some p → C.Sound p
  | [], _, _, _, h => by cases h
  | _ :: _, [], _, _, h => by cases h
  | (k, _) :: es, p :: ps, r, hps, h => by
    obtain ⟨hp, hps⟩ := List.forall_mem_cons.1 hps
    unfold Spot.entry? at h
    split at h
    · cases h
      exact hp
    · exact ofEntry hps h

end Sound

/-! ## parts of sites -/

section Parts

variable {s : Spot σ} {ss : List (Spot σ)}

theorem keeps_item (h : C.Sound s) (i : Nat) : C.Keeps C.Sound (s.item i) := by
  unfold Spot.item
  split
  case h_1 | h_2 =>
    split
    · rename_i p hp
      exact C.answer (h.parts p (List.mem_of_getElem? hp))
    · exact C.fault _
  case h_3 =>
    split
    · exact C.answer (Sound.letters [_] _ (List.mem_singleton.2 rfl))
    · exact C.fault _
  case h_4 =>
    split
    · rename_i p hp
      exact C.answer (.ofEntry h.parts hp)
    · exact C.fault _
  case h_5 => exact C.fault _

theorem keeps_slice (h : C.Sound s) (i j : Nat) :
    C.Keeps (fun ps => ∀ p ∈ ps, C.Sound p) (s.slice i j) := by
  unfold Spot.slice
  split
  case h_1 | h_2 =>
    exact C.answer fun p hp => h.parts p (List.mem_of_mem_take (List.mem_of_mem_drop hp))
  case h_3 => exact C.answer (Sound.letters _)
  case h_4 => exact C.fault _

theorem keeps_items (h : C.Sound s) : C.Keeps (fun ps => ∀ p ∈ ps, C.Sound p) s.items := by
  unfold Spot.items
  split
  case h_1 | h_2 => exact C.answer h.parts
  case h_3 => exact C.answer (Sound.letters _)
  case h_4 => exact C.answer h.keys
  case h_5 => exact C.fault _

theorem keeps_pair (h : C.Sound s) : C.Keeps (fun r => C.Sound r.1 ∧ C.Sound r.2) s.pair := by
  refine (keeps_items h).bind fun ps hps => ?_
  split
  · exact C.answer ⟨hps _ (by simp), hps _ (by simp)⟩
  · exact C.fault _

theorem keeps_argument (h : ∀ s ∈ ss, C.Sound s) (i : Nat) : C.Keeps C.Sound (argument ss i) := by
  unfold argument
  split
  · rename_i p hp
    exact C.answer (h p (List.mem_of_getElem? hp))
  · exact C.fault _

theorem keeps_visitNodes (h : ∀ s ∈ ss, C.Sound s) : C.Keeps Any (visitNodes ss) := by
  induction ss with
  | nil => exact C.answer trivial
  | cons s ss ih =>
    obtain ⟨hs, hss⟩ := List.forall_mem_cons.1 h
    rw [visitNodes]
    split
    · exact hs.act.andThen fun _ => (ih hss).andThen fun _ => C.answer trivial
    · exact ih hss

theorem keeps_visitAll (h : ∀ s ∈ ss, C.Sound s) : C.Keeps Any (visitAll ss) := by
  rw [visitAll, map_eq_pure_bind]
  exact (keeps_visitNodes h).andThen fun _ => C.answer trivial

end Parts

/-! ## trees -/

section Trees

variable {R : Rules σ}

/-- the rules keep the contract wherever the visits of the parts do -/
def Governs (C : Contract σ) (R : Rules σ) : Prop :=
  ∀ ⦃tag : String⦄ ⦃rule : List (Spot σ) → Act σ Value⦄, R tag = some rule →
    ∀ ⦃args : List (Spot σ)⦄, (∀ s ∈ args, C.Sound s) → C.Keeps Any (rule args)

theorem Governs.apply (hR : C.Governs R) {tag : Value} {args : List (Spot σ)}
    (h : ∀ s ∈ args, C.Sound s) : C.Keeps Any (R.apply tag args) := by
  unfold Rules.apply
  split
  · split
    · rename_i hrule
      exact hR hrule h
    · exact keeps_visitAll fun s hs => h s (List.mem_of_mem_drop hs)
  · exact C.fault _

theorem Governs.visit (hR : C.Governs R) (v : Value) {ps ks : List (Spot σ)}
    (hp : ∀ p ∈ ps, C.Sound p) (hk : ∀ k ∈ ks, C.Sound k) : C.Keeps Any (R.visit v ps ks) := by
  unfold Rules.visit
  split
  case h_1 => exact C.answer trivial
  case h_2 | h_3 =>
    split
    · exact C.fault _
    · exact hR.apply hp
  case h_4 =>
    split
    · exact C.fault _
    · exact C.answer trivial
  case h_5 =>
    split
    · exact hR.apply hk
    · exact C.fault _
  case h_6 => exact C.fault _

theorem Governs.leaf (hR : C.Governs R) (v : Value) : C.Sound (.mk v (R.visit v [] []) [] []) := by
  have hnone : ∀ s ∈ ([] : List (Spot σ)), C.Sound s := List.forall_mem_nil _
  exact .mk (hR.visit v hnone hnone) hnone hnone

mutual

theorem sound_survey (hR : C.Governs R) : ∀ v : Value, C.Sound (Site.survey R.visit v)
  | .list xs =>
    .mk (hR.visit _ (sound_surveyAll hR xs) (List.forall_mem_nil _)) (sound_surveyAll hR xs)
      (List.forall_mem_nil _)
  | .tuple xs =>
    .mk (hR.visit _ (sound_surveyAll hR xs) (List.forall_mem_nil _)) (sound_surveyAll hR xs)
      (List.forall_mem_nil _)
  | .dict es =>
    .mk (hR.visit _ (sound_surveyItems hR es) (sound_surveyKeys hR es)) (sound_surveyItems hR es)
      (sound_surveyKeys hR es)
  | .none | .bool _ | .int _ | .str _ | .procedure _ _ | .token _ _ _ _ | .symbol _ => hR.leaf _

theorem sound_surveyAll (hR : C.Governs R) :
    ∀ xs : List Value, ∀ s ∈ Site.surveyAll R.visit xs, C.Sound s
  | [] => List.forall_mem_nil _
  | x :: xs => List.forall_mem_cons.2 ⟨sound_survey hR x, sound_surveyAll hR xs⟩

theorem sound_surveyItems (hR : C.Governs R) :
    ∀ es : List (Value × Value), ∀ s ∈ Site.surveyItems R.visit es, C.Sound s
  | [] => List.forall_mem_nil _
  | (_, v) :: es => List.forall_mem_cons.2 ⟨sound_survey hR v, sound_surveyItems hR es⟩

theorem sound_surveyKeys (hR : C.Governs R) :
    ∀ es : List (Value × Value), ∀ s ∈ Site.surveyKeys R.visit es, C.Sound s
  | [] => List.forall_mem_nil _
  | (k, _) :: es => List.forall_mem_cons.2 ⟨sound_survey hR k, sound_surveyKeys hR es⟩

end

/-- **The visits of all parts of a tree keep a contract that the rules keep**, whatever the tree
is. -/
theorem sound_spot (hR : C.Governs R) (v : Value) : C.Sound (R.spot v) := sound_survey hR v

end Trees

end Contract

end Pl0Kit
