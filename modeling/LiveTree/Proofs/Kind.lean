import LiveTree.Kind.Catalog

namespace LiveTree
set_option autoImplicit true

theorem Kind.ofName?_name (kind : Kind) : ofName? kind.name = some kind := by
  cases kind <;> decide

theorem Kind.name_inj {kind kind' : Kind} (h : kind.name = kind'.name) : kind = kind' := by
  have hk := ofName?_name kind
  rw [h, ofName?_name] at hk
  exact (Option.some.inj hk).symm

theorem Kind.ofName?_eq_some {kind : Kind} {label : String} :
    ofName? label = some kind ↔ kind.name = label := by
  constructor
  · intro h
    simpa using List.find?_some h
  · rintro rfl
    exact ofName?_name kind

namespace Catalog

/-- Whether a kind with this name is registered. -/
def knows (catalog : Catalog) (component : String) : Bool :=
  catalog.profiles.any (·.kind.name = component)

theorem get?_ofName? (catalog : Catalog) (name : String) :
    (Kind.ofName? name).bind catalog.get? = catalog.profiles.find? (·.kind.name = name) := by
  cases h : Kind.ofName? name with
  | none =>
    symm
    rw [Option.bind_none, List.find?_eq_none]
    intro profile _ hn
    rw [Kind.ofName?_eq_some.2 (of_decide_eq_true hn)] at h
    cases h
  | some kind =>
    have hkind := Kind.ofName?_eq_some.1 h
    rw [Option.bind_some, get?]
    congr 1
    funext profile
    rw [decide_eq_decide, ← hkind]
    exact ⟨fun hk => by rw [hk], Kind.name_inj⟩

theorem named_of_knows {catalog : Catalog} (h : catalog.knows component = true) :
    ∃ profile, catalog.named component = .ok profile := by
  have hs : (catalog.profiles.find? (·.kind.name = component)).isSome = true :=
    List.find?_isSome.2 (List.any_eq_true.1 h)
  obtain ⟨profile, hp⟩ := Option.isSome_iff_exists.1 hs
  exact ⟨profile, by rw [named, get?_ofName?, hp]⟩

theorem named_of_not_knows {catalog : Catalog} (h : catalog.knows component = false) :
    catalog.named component = .error (.unknownKind component) := by
  rw [knows, List.any_eq_false] at h
  rw [named, get?_ofName?, List.find?_eq_none.2 h]

theorem knows_iff {catalog : Catalog} :
    catalog.knows component = true ↔ ∃ profile, catalog.named component = .ok profile := by
  constructor
  · exact named_of_knows
  · rintro ⟨profile, hp⟩
    cases h : catalog.knows component with
    | true => rfl
    | false =>
      rw [named_of_not_knows h] at hp
      cases hp

end Catalog

end LiveTree
