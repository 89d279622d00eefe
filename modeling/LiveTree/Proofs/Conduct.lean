import LiveTree.Kind.Catalog
import LiveTree.Proofs.Tree

namespace LiveTree
set_option autoImplicit true

mutual

/-- Whether a test holds of an action and of every action in the script that it defines. -/
def Action.all (p : Action → Bool) : Action → Bool
  | .define kind method script => p (.define kind method script) && scriptAll p script
  | action => p action

def scriptAll (p : Action → Bool) : List (Subject × Action) → Bool
  | [] => true
  | (_, action) :: rest => action.all p && scriptAll p rest

end

theorem scriptAll_eq_true {p : Action → Bool} {script : Script} :
    scriptAll p script = true ↔ ∀ step ∈ script, step.2.all p = true := by
  induction script with
  | nil => simp [scriptAll]
  | cons step rest ih => rw [scriptAll, Bool.and_eq_true, ih, List.forall_mem_cons]

theorem Action.all_define {p : Action → Bool} (h : (Action.define kind method script).all p = true) :
    ∀ step ∈ script, step.2.all p = true := by
  rw [Action.all, Bool.and_eq_true] at h
  exact scriptAll_eq_true.1 h.2

theorem Action.all_invoke (p : Action → Bool) (method : String) :
    (Action.invoke method).all p = p (.invoke method) :=
  rfl

theorem Action.all_render (p : Action → Bool) (tree : Tree) :
    (Action.render tree).all p = p (.render tree) :=
  rfl

/-- A method is called by no script, but by listeners only. -/
def Action.Plain (action : Action) : Prop :=
  action.all (fun | .invoke _ => false | _ => true) = true

/-- Every tree that is rendered gives no prop twice and no slot. -/
def Action.Proper (action : Action) : Prop :=
  action.all (fun | .render tree => decide tree.Distinct | _ => true) = true

instance : DecidablePred Action.Plain :=
  fun action => inferInstanceAs (Decidable (action.all _ = true))

instance : DecidablePred Action.Proper :=
  fun action => inferInstanceAs (Decidable (action.all _ = true))

/-- Conduct that extends to the scripts that scripts define, and that trees which are read keep to. -/
structure Lawful (spent : Prop) (allowed : Action → Prop) : Prop where
  defined : ∀ {kind method script}, allowed (.define kind method script) →
    ∀ step ∈ script, allowed step.2
  parsed : ∀ {json tree}, Tree.parse json = .ok tree → allowed (.render tree)
  direct : ∀ {method}, allowed (.invoke method) → spent

theorem lawful_true : Lawful True (fun _ => True) :=
  ⟨fun _ _ _ => trivial, fun _ => trivial, fun _ => trivial⟩

theorem Action.not_plain_invoke (method : String) : ¬(Action.invoke method).Plain := by
  intro h
  rw [Action.Plain, Action.all_invoke] at h
  cases h

theorem lawful_plain : Lawful spent Action.Plain where
  defined h := Action.all_define h
  parsed _ := by rw [Action.Plain, Action.all_render]
  direct h := (Action.not_plain_invoke _ h).elim

theorem Action.proper_render {tree : Tree} : Action.Proper (.render tree) ↔ tree.Distinct := by
  rw [Action.Proper, Action.all_render, decide_eq_true_eq]

theorem lawful_proper : Lawful True Action.Proper where
  defined h := Action.all_define h
  parsed h := Action.proper_render.2 (Tree.distinct_of_parse h)
  direct _ := trivial

namespace Catalog

def Obeys (catalog : Catalog) (allowed : Action → Prop) : Prop :=
  ∀ profile ∈ catalog.profiles, ∀ entry ∈ profile.methods, ∀ step ∈ entry.2, allowed step.2

instance (catalog : Catalog) (allowed : Action → Prop) [DecidablePred allowed] :
    Decidable (catalog.Obeys allowed) :=
  inferInstanceAs (Decidable (∀ profile ∈ catalog.profiles, _))

theorem obeys_true (catalog : Catalog) : catalog.Obeys (fun _ => True) := by
  intro profile _ entry _ step _
  trivial

theorem standard_plain : standard.Obeys Action.Plain := by
  decide +kernel

theorem standard_proper : standard.Obeys Action.Proper := by
  decide +kernel

variable {catalog : Catalog} {allowed : Action → Prop}

theorem Obeys.method? (h : catalog.Obeys allowed) (hm : catalog.method? kind name = some script) :
    ∀ step ∈ script, allowed step.2 := by
  obtain ⟨profile, hp, hs⟩ := Option.bind_eq_some_iff.1 hm
  have hmem : (name, script) ∈ profile.methods := OrderedMap.mem_of_lookup hs
  exact h profile (List.mem_of_find?_eq_some hp) _ hmem

theorem Obeys.define (h : catalog.Obeys allowed) (kind : Kind) (method : String)
    (hs : ∀ step ∈ script, allowed step.2) : (catalog.define kind method script).Obeys allowed := by
  intro profile hp
  obtain ⟨old, hold, rfl⟩ := List.mem_map.1 hp
  have hm := h old hold
  split
  · apply OrderedMap.forall_mem_update (P := fun script : Script => ∀ step ∈ script, allowed step.2)
    · exact hm
    · intro _ _
      exact hs
  · exact hm

theorem get?_define (catalog : Catalog) (kind other : Kind) (method : String) (script : Script) :
    (catalog.define kind method script).get? other =
      (catalog.get? other).map fun profile =>
        if profile.kind = kind then profile.withMethod method script else profile := by
  have hk (profile : Profile) :
      (if profile.kind = kind then profile.withMethod method script else profile).kind =
        profile.kind := by
    split <;> rfl
  simp only [get?, define, List.find?_map, Function.comp_def, hk]

end Catalog

end LiveTree
