import LiveTree.Proofs.Engine.Loading

namespace LiveTree
set_option autoImplicit true

theorem Attribute.exists_encode_eq (v : Json) : ∃ raw, encode v = .str raw := by
  cases v <;> exact ⟨_, rfl⟩

theorem Profile.exists_stored_eq {profile : Profile} (h : profile.isEncoded key = true) (v : Json) :
    ∃ raw, profile.stored key v = .str raw := by
  rw [stored, if_pos h]
  exact Attribute.exists_encode_eq v

theorem OrderedMap.mem_of_mem_insertAll {α : Type} {m entries : OrderedMap α} {entry : String × α}
    (h : entry ∈ m.insertAll entries) : entry ∈ m ∨ entry ∈ entries := by
  induction entries generalizing m with
  | nil => exact .inl h
  | cons first rest ih =>
    rcases ih h with hm | hrest
    · rcases mem_of_mem_insert hm with hm | rfl
      · exact .inl hm
      · exact .inr List.mem_cons_self
    · exact .inr (List.mem_cons_of_mem _ hrest)

namespace Catalog

theorem kind_of_get? {catalog : Catalog} (h : catalog.get? kind = some profile) :
    profile.kind = kind := by
  have hk := List.find?_some h
  exact of_decide_eq_true hk

theorem get?_register (catalog : Catalog) (profile : Profile) (kind : Kind) :
    (catalog.register profile).get? kind =
      if kind = profile.kind then some profile else catalog.get? kind := by
  rw [register, get?]
  split
  · rename_i hs
    have hk (other : Profile) :
        (if other.kind = profile.kind then profile else other).kind = other.kind := by
      split
      · rename_i h
        exact h.symm
      · rfl
    simp only [List.find?_map, Function.comp_def, hk]
    cases hg : catalog.get? kind with
    | none =>
      rw [get?] at hg
      rw [hg, if_neg, Option.map_none]
      rintro rfl
      rw [get?, hg] at hs
      cases hs
    | some other =>
      have hother := kind_of_get? hg
      rw [get?] at hg
      rw [hg, Option.map_some, hother]
      split <;> rfl
  · rename_i hs
    rw [List.find?_append, List.find?_singleton]
    by_cases hk : kind = profile.kind
    · subst hk
      have hnone := Option.not_isSome_iff_eq_none.1 hs
      rw [get?] at hnone
      rw [hnone, Option.none_or, if_pos (decide_eq_true rfl), if_pos rfl]
    · rw [if_neg (mt of_decide_eq_true (Ne.symm hk)), Option.or_none, if_neg hk, get?]

def Registers (catalog catalog' : Catalog) : Prop :=
  ∃ profile, catalog' = catalog.register profile

theorem Registers.keepsKinds (h : Registers catalog catalog') : catalog.KeepsKinds catalog' := by
  obtain ⟨profile, rfl⟩ := h
  intro kind hk
  rw [get?_register]
  split
  · rfl
  · exact hk

end Catalog

/-- Wherever an element has this attribute, it is a string. -/
def Element.KeepsText (x : Element) (key : String) : Prop :=
  ∀ v, x.attribute? key = some v → ∃ raw, v = .str raw

namespace Engine

theorem exists_of_mem_storedProps (h : (key, v) ∈ storedProps profile props) :
    ∃ w, v = profile.stored key w := by
  rcases OrderedMap.mem_of_mem_insertAll h with h | h
  · cases h
  · obtain ⟨entry, -, he⟩ := List.mem_map.1 h
    cases he
    exact ⟨entry.2, rfl⟩

/-- A value was there before an edit, or the kind of the element has given it its form. -/
inductive Origin (e : Engine) (y : Element) (key : String) (v : Json) : Prop
  | kept (hx : x ∈ e.document.elements) (hk : y.kind = x.kind) (hv : x.attribute? key = some v)
  | stored (w : Json) (hp : e.catalog.get? y.kind = some profile) (hv : v = profile.stored key w)

theorem Origin.of_content {e : Engine} (hx : x ∈ e.document.elements)
    (hc : (y.kind, y.attributes) = (x.kind, x.attributes)) (hv : y.attribute? key = some v) :
    Origin e y key v := by
  obtain ⟨hk, ha⟩ := Prod.mk.inj hc
  rw [Element.attribute?, ha] at hv
  exact .kept hx hk hv

theorem Build.origin (hs : Build e e') (hy : y ∈ e'.document.elements)
    (hv : y.attribute? key = some v) : Origin e y key v := by
  cases hs with
  | create props placeName hp =>
    rcases List.mem_append.1 hy with hx | hx
    · exact .kept hx rfl hv
    · cases List.mem_singleton.1 hx
      obtain ⟨w, hw⟩ := exists_of_mem_storedProps (OrderedMap.mem_of_lookup hv)
      exact .stored w hp hw
  | adopt slot hp hc hr hlt hm =>
    obtain ⟨z, hz, hyz⟩ := exists_of_mem_modify (fun x => (x.kind, x.attributes)) hy fun _ => rfl
    obtain ⟨x, hx, hzx⟩ := exists_of_mem_modify (fun x => (x.kind, x.attributes)) hz fun _ => rfl
    exact .of_content hx (hyz.trans hzx) hv

theorem origin_rewritten {e : Engine} (hk : (e.catalog.get? x.kind).isSome)
    (hx : x ∈ e.document.elements)
    (hv : (rewritten x changed (e.catalog.stored x.kind changed w) x).attribute? key = some v) :
    Origin e (rewritten x changed (e.catalog.stored x.kind changed w) x) key v := by
  have hkind := rewritten_kind x changed (e.catalog.stored x.kind changed w) x
  rw [attribute?_rewritten] at hv
  split at hv
  · rename_i hkey
    subst hkey
    cases hv
    obtain ⟨profile, hp⟩ := Option.isSome_iff_exists.1 hk
    refine .stored w (hkind ▸ hp) ?_
    rw [Catalog.stored, hp]
  · exact .kept hx hkind hv

theorem Act.origin (hs : Act e e') (hc : Coherent e) (hk : AllKnown e)
    (hy : y ∈ e'.document.elements) (hv : y.attribute? key = some v) : Origin e y key v := by
  cases hs with
  | mount hr hn =>
    simp only [mounted, loadAll_eq] at hy
    obtain ⟨x, hx, rfl⟩ := List.mem_map.1 hy
    apply Origin.of_content hx _ hv
    split
    · rw [loaded]
      split <;> rfl
    · rfl
  | remove hr =>
    obtain ⟨x, hx, rfl⟩ := List.mem_map.1 hy
    exact .of_content (List.mem_filter.1 hx).1 rfl hv
  | assign changed value hx hn =>
    rw [document_assigned] at hy
    obtain ⟨z, hz, rfl⟩ := List.mem_map.1 hy
    split at hv
    · rename_i hi
      have hg := hc.forest.get?_of_mem hz
      rw [hi, hx] at hg
      cases hg
      rw [if_pos rfl]
      exact origin_rewritten (hk _ hz) hz hv
    · rename_i hi
      rw [if_neg hi]
      exact .kept hz rfl hv
  | touch hx =>
    obtain ⟨x, hx, hc⟩ := exists_of_mem_modify (fun x => (x.kind, x.attributes)) hy fun _ => rfl
    exact .of_content hx hc hv
  | flush =>
    obtain ⟨x, hx, rfl⟩ := List.mem_map.1 hy
    apply Origin.of_content hx _ hv
    rw [refresh]
    split <;> rfl
  | call method hx => exact .kept hy rfl hv
  | log line => exact .kept hy rfl hv

theorem Edit.origin (hs : Edit e e') (hc : Coherent e) (hk : AllKnown e)
    (hy : y ∈ e'.document.elements) (hv : y.attribute? key = some v) : Origin e y key v := by
  cases hs with
  | build hs => exact hs.origin hy hv
  | act hs => exact hs.origin hc hk hy hv
  | depth n => exact .kept hy rfl hv
  | define kind method script => exact .kept hy rfl hv

/-- The attributes that `keys` picks are kept as strings, and no exchange of profiles makes it pick more. -/
structure Lasting (exchange : Catalog → Catalog → Prop) (keys : Profile → List String) : Prop where
  encoded : ∀ {profile key}, key ∈ keys profile → profile.isEncoded key = true
  method : ∀ profile name script, keys (profile.withMethod name script) = keys profile
  exchanged : ∀ {catalog catalog'}, exchange catalog catalog' → catalog.KeepsKinds catalog' ∧
    ∀ {kind old new key}, catalog.get? kind = some old → catalog'.get? kind = some new →
      key ∈ keys new → key ∈ keys old

structure Textual (keys : Profile → List String) (e : Engine) : Prop where
  known : AllKnown e
  texts : ∀ {x profile key}, x ∈ e.document.elements → e.catalog.get? x.kind = some profile →
    key ∈ keys profile → x.KeepsText key

section Keys

variable {exchange : Catalog → Catalog → Prop} {keys : Profile → List String}

theorem Lasting.before (hl : Lasting exchange keys) (hs : Edit e e')
    (hp : e'.catalog.get? kind = some profile) (hkey : key ∈ keys profile) :
    ∃ old, e.catalog.get? kind = some old ∧ key ∈ keys old := by
  rcases hs.catalog_cases with hk | ⟨other, method, script, hk⟩
  · exact ⟨profile, hk ▸ hp, hkey⟩
  · rw [hk, Catalog.get?_define] at hp
    obtain ⟨old, hold, rfl⟩ := Option.map_eq_some_iff.1 hp
    refine ⟨old, hold, ?_⟩
    split at hkey
    · rwa [hl.method] at hkey
    · exact hkey

theorem Edit.textual (hl : Lasting exchange keys) (hs : Edit e e') (hc : Coherent e)
    (h : Textual keys e) : Textual keys e' where
  known := hs.allKnown h.known
  texts := by
    intro y profile key hy hp hkey v hv
    obtain ⟨old, hold, hkey⟩ := hl.before hs hp hkey
    cases hs.origin hc h.known hy hv with
    | kept hx hk hv => exact h.texts hx (hk ▸ hold) hkey v hv
    | stored w hp hv =>
      rw [hold] at hp
      cases hp
      rw [hv]
      exact Profile.exists_stored_eq (hl.encoded hkey) w

theorem Textual.refit {catalog : Catalog} (hl : Lasting exchange keys) (h : Textual keys e)
    (hx : exchange e.catalog catalog) (operations : Operations) (recorder : Option Recorder) :
    Textual keys { e with catalog, operations, recorder } where
  known := fun x hm => (hl.exchanged hx).1 _ (h.known x hm)
  texts := by
    intro x profile key hm hp hkey
    obtain ⟨old, hold⟩ := Option.isSome_iff_exists.1 (h.known x hm)
    exact h.texts hm hold ((hl.exchanged hx).2 hold hp hkey)

theorem Visited.textual {allowed : Action → Prop} (hl : Lasting exchange keys)
    (ha : Lawful True allowed) (h : Visited allowed exchange stack e) : Textual keys e :=
  (h.keep_edit ha (P := Textual keys)
    (fun _ _ _ _ => ⟨fun _ hx => (List.not_mem_nil hx).elim, fun hx => (List.not_mem_nil hx).elim⟩)
    (fun hc h hs => hs.textual hl hc h) fun operations recorder h hx =>
      h.refit hl hx operations recorder).2

theorem lasting_common
    (hx : ∀ catalog catalog', exchange catalog catalog' → catalog.KeepsKinds catalog') :
    Lasting exchange fun _ => commonEncoded where
  encoded h := by rw [Profile.isEncoded, List.contains_iff_mem.2 h, Bool.true_or]
  method _ _ _ := rfl
  exchanged h := ⟨hx _ _ h, fun _ _ hk => hk⟩

def furtherKeys (kind : Kind) (profile : Profile) : List String :=
  if profile.kind = kind then profile.encoded else []

theorem mem_furtherKeys : key ∈ furtherKeys kind profile ↔ profile.kind = kind ∧ key ∈ profile.encoded := by
  rw [furtherKeys]
  split
  · rename_i h
    exact (and_iff_right h).symm
  · rename_i h
    exact ⟨fun hk => (List.not_mem_nil hk).elim, fun hk => (h hk.1).elim⟩

theorem lasting_further
    (hx : ∀ catalog catalog', exchange catalog catalog' → catalog.KeepsKinds catalog')
    (hkept : ∀ catalog catalog', exchange catalog catalog' → ∀ profile,
      catalog.get? kind = some profile → catalog'.get? kind = some profile) :
    Lasting exchange (furtherKeys kind) where
  encoded h := by rw [Profile.isEncoded, List.contains_iff_mem.2 (mem_furtherKeys.1 h).2, Bool.or_true]
  method _ _ _ := rfl
  exchanged h := by
    refine ⟨hx _ _ h, ?_⟩
    intro other old new key hold hnew hkey
    obtain ⟨hkind, -⟩ := mem_furtherKeys.1 hkey
    cases (Catalog.kind_of_get? hnew).symm.trans hkind
    rw [hkept _ _ h old hold] at hnew
    cases hnew
    exact hkey

end Keys

/-- Encoded attributes are strings wherever an engine passes, as long as profiles are only registered. -/
theorem encoded_strings {exchange : Catalog → Catalog → Prop}
    (hx : ∀ catalog catalog', exchange catalog catalog' → catalog.Registers catalog')
    (h : Visited (fun _ => True) exchange stack e) :
    (∀ x ∈ e.document.elements, ∀ key ∈ ["css", "events", "listeners"], ∀ v,
      x.attribute? key = some v → ∃ raw, v = .str raw) ∧
    (∀ kind, (∀ catalog catalog', exchange catalog catalog' → ∀ profile,
        catalog.get? kind = some profile → catalog'.get? kind = some profile) →
      ∀ x ∈ e.document.elements, x.kind = kind → ∀ profile, e.catalog.get? kind = some profile →
        ∀ key ∈ profile.encoded, ∀ v, x.attribute? key = some v → ∃ raw, v = .str raw) := by
  have hkinds (catalog catalog' : Catalog) (h : exchange catalog catalog') :
      catalog.KeepsKinds catalog' :=
    (hx catalog catalog' h).keepsKinds
  constructor
  · intro x hm key hkey
    have ht := h.textual (lasting_common hkinds) lawful_true
    obtain ⟨profile, hp⟩ := Option.isSome_iff_exists.1 (ht.known x hm)
    exact ht.texts hm hp hkey
  · rintro _ hkept x hm rfl profile hp key hkey
    have ht := h.textual (lasting_further hkinds hkept) lawful_true
    exact ht.texts hm hp (mem_furtherKeys.2 ⟨Catalog.kind_of_get? hp, hkey⟩)

def RegistersButton (catalog catalog' : Catalog) : Prop :=
  ∃ profile : Profile, profile.kind = .button ∧ catalog' = catalog.register profile

def taggedButton : Profile :=
  (Catalog.builtin .button).withEncoded "tag"

/-- A button that is rendered before buttons keep `tag` as a string. -/
def earlyButton : Engine :=
  let press : Json := .obj [("css", .arr [.bool false]), ("events", .obj [("click", .null)])]
  after 0 (fresh {} .standard (fun _ => none) none)
    [ .renderAndMount ((((Tree.leaf "Button").withProp "name" (.str "save")).withProp "tag"
        (.bool true)).withProp "listeners" (.obj [("press", press)])) ]

def taggedLater : Engine :=
  after 0 { earlyButton with
      catalog := earlyButton.catalog.register taggedButton, operations := fun _ => none, recorder := none }
    [ .emit "save.press", .renderAndMount ((Tree.leaf "Navbar").withProp "links" (.arr [])),
      .setAttribute 1 "links" .null ]

theorem encoded_strings_taggedLater :
    (∃ x css events, taggedLater.document.get? 0 = some x ∧ x.attribute? "css" = some (.str css) ∧
      x.attribute? "events" = some (.str events) ∧ (x.attribute? "tag").map Json.str? = some none) ∧
    ∃ y links, taggedLater.document.get? 1 = some y ∧ y.attribute? "links" = some (.str links) := by
  have h : Visited (fun _ => True) RegistersButton [] taggedLater := by
    have h₀ : Visited (fun _ => True) RegistersButton [] earlyButton := visited_after _ _ _ _ _ _
    have h₁ := h₀.refit (fun _ => none) none ⟨taggedButton, rfl, rfl⟩ (Catalog.obeys_true _)
    exact h₁.after 0 fun operation _ => operation.allowed_of_forall fun _ => trivial
  have hregisters : ∀ catalog catalog', RegistersButton catalog catalog' → catalog.Registers catalog' := by
    rintro catalog _ ⟨profile, -, rfl⟩
    exact ⟨profile, rfl⟩
  have hkept : ∀ catalog catalog', RegistersButton catalog catalog' → ∀ profile,
      catalog.get? .navbar = some profile → catalog'.get? .navbar = some profile := by
    rintro catalog _ ⟨other, hk, rfl⟩ profile hp
    rw [Catalog.get?_register, hk, if_neg (by decide)]
    exact hp
  obtain ⟨hcommon, hfurther⟩ := encoded_strings hregisters h
  have hbutton : (taggedLater.document.get? 0).map (fun x => ((x.attribute? "css").isSome,
      (x.attribute? "events").isSome, (x.attribute? "tag").map Json.str?)) =
      some (true, true, some none) := by
    decide +kernel
  have hbar : (taggedLater.document.get? 1).map (fun y => (y.kind, (y.attribute? "links").isSome)) =
      some (.navbar, true) := by
    decide +kernel
  have hlinks : (taggedLater.catalog.get? .navbar).map (·.encoded) = some ["links"] := by
    decide +kernel
  obtain ⟨x, hx, hxs⟩ := Option.map_eq_some_iff.1 hbutton
  obtain ⟨y, hy, hys⟩ := Option.map_eq_some_iff.1 hbar
  obtain ⟨profile, hp, hl⟩ := Option.map_eq_some_iff.1 hlinks
  simp only [Prod.mk.injEq, Option.isSome_iff_exists] at hxs hys
  obtain ⟨⟨css, hcss⟩, ⟨events, hevents⟩, htag⟩ := hxs
  obtain ⟨hkind, links, hlink⟩ := hys
  have hxm := Document.mem_of_get? hx
  obtain ⟨rawCss, rfl⟩ := hcommon x hxm "css" (by decide) css hcss
  obtain ⟨rawEvents, rfl⟩ := hcommon x hxm "events" (by decide) events hevents
  obtain ⟨rawLinks, rfl⟩ := hfurther .navbar hkept y (Document.mem_of_get? hy) hkind profile hp "links"
    (hl ▸ List.mem_singleton_self _) links hlink
  exact ⟨⟨x, rawCss, rawEvents, hx, hcss, hevents, htag⟩, y, rawLinks, hy, hlink⟩

end Engine

end LiveTree
