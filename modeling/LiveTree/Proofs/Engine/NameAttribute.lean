import LiveTree.Proofs.Engine.Hosts
import LiveTree.Proofs.Engine.Meaning
import LiveTree.Proofs.Engine.Naming

namespace LiveTree
set_option autoImplicit true

theorem Attribute.text?_eq_none : text? value = none ↔ value = .null := by
  cases value <;> simp [text?]

namespace Element

def readName? (x : Element) : Option String :=
  (x.attribute? "name").bind Attribute.text?

def declaredName? (x : Element) : Option String :=
  if x.declared then some x.name else none

def label (x : Element) : ElementId × Option Json × Option String :=
  (x.id, x.attribute? "name", x.declaredName?)

/-- The attribute holds the last value that was given, and the last that is a name is declared. -/
structure Follows (given : List Json) (x : Element) : Prop where
  shown : x.attribute? "name" = given.getLast?
  declared : x.declaredName? = (given.filterMap Attribute.text?).getLast?

theorem Follows.readName? {x : Element} (h : x.Follows given) (hn : x.attribute? "name" ≠ some .null) :
    x.declaredName? = x.readName? := by
  rw [h.declared, Element.readName?, h.shown]
  rw [h.shown] at hn
  cases hl : given.getLast? with
  | none =>
    cases List.getLast?_eq_none_iff.1 hl
    rfl
  | some value =>
    obtain ⟨rest, rfl⟩ := List.getLast?_eq_some_iff.1 hl
    rw [hl] at hn
    have ht : Attribute.text? value ≠ none := fun ht => hn (congrArg some (Attribute.text?_eq_none.1 ht))
    obtain ⟨name, ht⟩ := Option.ne_none_iff_exists'.1 ht
    rw [List.filterMap_append, List.filterMap_cons_some ht, List.filterMap_nil, List.getLast?_concat,
      Option.bind_some, ht]

theorem Follows.declared_iff {x : Element} (h : x.Follows given) :
    x.declared = true ↔ ∃ value ∈ given, value ≠ .null := by
  have hd : x.declared = true ↔ x.declaredName? ≠ none := by
    rw [declaredName?]
    cases x.declared <;> simp
  rw [hd, h.declared, Ne, List.getLast?_eq_none_iff, List.filterMap_eq_nil_iff]
  simp only [Attribute.text?_eq_none, not_forall, exists_prop]

end Element

namespace Patch

def giveName (i : ElementId) (given : List Json) : Patch → List Json
  | .create j _ _ => if j = i then [] else given
  | .setAttribute j key value => if j = i ∧ key = "name" then given ++ [value] else given
  | _ => given

/-- The values that an element's name was given since its creation. -/
def namesGiven (ps : List Patch) (i : ElementId) : List Json :=
  ps.foldl (giveName i) []

theorem namesGiven_append (ps qs : List Patch) (i : ElementId) :
    namesGiven (ps ++ qs) i = qs.foldl (giveName i) (namesGiven ps i) :=
  List.foldl_append

theorem namesGiven_concat (ps : List Patch) (p : Patch) (i : ElementId) :
    namesGiven (ps ++ [p]) i = giveName i (namesGiven ps i) p :=
  namesGiven_append ps [p] i

theorem namesGiven_silent {qs : List Patch} (h : ∀ q ∈ qs, ∀ given, giveName i given q = given)
    (ps : List Patch) : namesGiven (ps ++ qs) i = namesGiven ps i := by
  rw [namesGiven_append]
  generalize namesGiven ps i = given
  induction qs with
  | nil => rfl
  | cons q qs ih =>
    obtain ⟨hq, hqs⟩ := List.forall_mem_cons.1 h
    rw [List.foldl_cons, hq, ih hqs]

theorem giveName_setAttributes (i : ElementId) (given : List Json) {entries : OrderedMap Json}
    (h : entries.keys.Nodup) :
    (entries.map fun entry => setAttribute i entry.1 entry.2).foldl (giveName i) given =
      given ++ (entries.lookup "name").toList := by
  induction entries generalizing given with
  | nil => exact (List.append_nil given).symm
  | cons entry rest ih =>
    obtain ⟨hk, hrest⟩ := List.nodup_cons.1 h
    rw [List.map_cons, List.foldl_cons, ih _ hrest, OrderedMap.lookup_cons, giveName]
    by_cases hn : entry.1 = "name"
    · rw [hn] at hk
      rw [if_pos ⟨rfl, hn⟩, if_pos hn.symm, OrderedMap.lookup_of_not_mem hk]
      exact List.append_nil _
    · rw [if_neg (fun h => hn h.2), if_neg (Ne.symm hn)]

end Patch

/-- The kinds keep `name` as it is given. -/
def Catalog.NamesPlain (catalog : Catalog) : Prop :=
  ∀ profile ∈ catalog.profiles, profile.isEncoded "name" = false

instance (catalog : Catalog) : Decidable catalog.NamesPlain :=
  inferInstanceAs (Decidable (∀ profile ∈ catalog.profiles, _))

theorem Catalog.standard_namesPlain : standard.NamesPlain := by
  decide +kernel

theorem Catalog.namesPlain_define (catalog : Catalog) (kind : Kind) (method : String) (script : Script) :
    (catalog.define kind method script).NamesPlain ↔ catalog.NamesPlain := by
  rw [NamesPlain, NamesPlain, define, List.forall_mem_map]
  apply forall₂_congr
  intro profile _
  split <;> rfl

theorem Profile.stored_plain {profile : Profile} (h : profile.isEncoded key = false) (value : Json) :
    profile.stored key value = value := by
  rw [stored, h]
  rfl

theorem Catalog.NamesPlain.stored {catalog : Catalog} (h : catalog.NamesPlain) (kind : Kind)
    (value : Json) : catalog.stored kind "name" value = value := by
  rw [Catalog.stored]
  cases hp : catalog.get? kind with
  | none => rfl
  | some profile => exact Profile.stored_plain (h profile (List.mem_of_find?_eq_some hp)) value

namespace Engine

open Patch (namesGiven namesGiven_append namesGiven_concat namesGiven_silent)

/-- The names of all elements are as the host was told. -/
def Traced (ps : List Patch) (e : Engine) : Prop :=
  ∀ x ∈ e.document.elements, x.Follows (namesGiven ps x.id)

/-- The host is told of a step, and then the names are as it was told. -/
def Retraced (ps : List Patch) (e e' : Engine) : Prop :=
  ∃ qs, e'.recorder = (e.tell qs).recorder ∧ Traced (ps ++ qs) e'

theorem Retraced.untold (h : Traced ps e') (hr : e'.recorder = e.recorder) : Retraced ps e e' := by
  use []
  constructor
  · rw [hr, tell_nil]
  · rw [List.append_nil]
    exact h

theorem Traced.mapElements {e e' : Engine} {f : Element → Element} (h : Traced ps e)
    (hd : e'.document = e.document.mapElements f) (hf : ∀ x, (f x).label = x.label) :
    Traced ps e' := by
  intro y hy
  rw [hd] at hy
  obtain ⟨x, hx, rfl⟩ := List.mem_map.1 hy
  have hl := hf x
  simp only [Element.label, Prod.mk.injEq] at hl
  obtain ⟨hi, ha, hn⟩ := hl
  rw [hi]
  exact ⟨ha.trans (h x hx).shown, hn.trans (h x hx).declared⟩

theorem rename_newName? (x : Element) (h : Attribute.text? value = some name) :
    (newName? x "name" value).elim x x.rename = x.rename name := by
  rw [newName?, if_pos rfl, h, Option.filter_some]
  cases hs : x.declared && x.name == name with
  | false => rfl
  | true =>
    rw [Bool.and_eq_true, beq_iff_eq] at hs
    obtain ⟨hd, rfl⟩ := hs
    cases x
    cases hd
    rfl

theorem declaredName?_newName? (x : Element) (value : Json) :
    ((newName? x "name" value).elim x x.rename).declaredName? =
      (Attribute.text? value).or x.declaredName? := by
  cases ht : Attribute.text? value with
  | none =>
    rw [newName?, if_pos rfl, ht]
    rfl
  | some name =>
    rw [rename_newName? x ht]
    rfl

theorem follows_write {x : Element} (h : x.Follows given) (key : String) (value : Json) :
    (rewritten x key value x).Follows
      (Patch.giveName x.id given (.setAttribute x.id key value)) := by
  rw [rewritten, Patch.giveName]
  by_cases hk : key = "name"
  · subst hk
    rw [if_pos ⟨rfl, rfl⟩]
    constructor
    · rw [List.getLast?_concat]
      exact (OrderedMap.lookup_insert _ _ _ _).trans (if_pos rfl)
    · rw [List.filterMap_append, List.getLast?_append, ← h.declared]
      refine (declaredName?_newName? x value).trans ?_
      cases ht : Attribute.text? value with
      | none => rw [List.filterMap_cons_none ht, List.filterMap_nil, List.getLast?_nil]
      | some name => rw [List.filterMap_cons_some ht, List.filterMap_nil, List.getLast?_singleton]
  · rw [if_neg fun h => hk h.2, newName?, if_neg hk]
    constructor
    · refine ((OrderedMap.lookup_insert _ _ _ _).trans (if_neg (Ne.symm hk))).trans h.shown
    · exact h.declared

theorem retraced_assigned {e : Engine} (hc : Coherent e) (hx : e.document.get? x.id = some x)
    (h : Traced ps e) (key : String) (value : Json) : Retraced ps e (e.assigned x key value) := by
  use [.setAttribute x.id key value]
  constructor
  · rw [assigned]
    cases newName? x key value <;> rfl
  · rw [Traced, document_assigned]
    intro y hy
    obtain ⟨z, hz, rfl⟩ := List.mem_map.1 hy
    have hf := h z hz
    split
    · rename_i hi
      have hget := hc.forest.get?_of_mem hz
      rw [hi, hx] at hget
      cases hget
      rw [rewritten_id, namesGiven_concat]
      exact follows_write hf key value
    · rename_i hi
      rw [namesGiven_concat, Patch.giveName, if_neg fun h => hi h.1.symm]
      exact hf

theorem label_loaded (e : Engine) (x : Element) : (e.loaded x).label = x.label := by
  rw [loaded]
  split <;> rfl

theorem label_refresh (catalog : Catalog) (x : Element) : (refresh catalog x).label = x.label := by
  rw [refresh]
  split <;> rfl

theorem label_ite {f : Element → Element} (hf : ∀ x, (f x).label = x.label) (x : Element) (p : Prop)
    [Decidable p] : (if p then f x else x).label = x.label := by
  split
  · exact hf x
  · rfl

theorem exists_label_of_mem_modify {d : Document} {f : Element → Element}
    (hf : ∀ x, (f x).label = x.label) (hy : y ∈ (d.modify i f).elements) :
    ∃ x ∈ d.elements, y.label = x.label := by
  rw [d.modify_eq_mapElements] at hy
  obtain ⟨x, hx, rfl⟩ := List.mem_map.1 hy
  exact ⟨x, hx, label_ite hf x _⟩

theorem retraced_removed {e : Engine} (h : Traced ps e) (root : ElementId) :
    Retraced ps e (e.removed root) := by
  refine ⟨_, rfl, ?_⟩
  intro y hy
  obtain ⟨x, hx, rfl⟩ := List.mem_map.1 hy
  have hf := h x (List.mem_of_mem_filter hx)
  rw [namesGiven_silent]
  · exact ⟨hf.shown, hf.declared⟩
  · intro q hq given
    obtain ⟨z, -, rfl⟩ := List.mem_map.1 hq
    rfl

theorem Act.retraced (hs : Act e e') (hc : Coherent e) (h : Traced ps e) : Retraced ps e e' := by
  cases hs with
  | mount hr hn =>
    exact .untold (h.mapElements (e.loadAll_eq _) fun x => label_ite e.label_loaded x _) rfl
  | remove hr => exact retraced_removed h _
  | assign key value hx hn => exact retraced_assigned hc hx h key _
  | touch hx =>
    exact .untold (h.mapElements (e.document.modify_eq_mapElements _ _)
      fun x => label_ite (f := (·.markDirty)) (fun _ => rfl) x _) rfl
  | flush => exact .untold (h.mapElements rfl (label_refresh e.catalog)) rfl
  | call method hx =>
    refine ⟨_, rfl, ?_⟩
    intro x hm
    rw [namesGiven_concat]
    exact h x hm
  | log line => exact .untold h rfl

/-- Rendering tells nothing of the names of older elements, and of newer ones what their attributes hold. -/
structure Sprouts (e e' : Engine) (qs : List Patch) : Prop where
  told : e'.recorder = (e.tell qs).recorder
  nextId : e.document.nextId ≤ e'.document.nextId
  older : ∀ ps i, i < e.document.nextId → namesGiven (ps ++ qs) i = namesGiven ps i
  newer : ∀ ps, ∀ x ∈ e'.document.elements, e.document.nextId ≤ x.id →
    namesGiven (ps ++ qs) x.id = (x.attribute? "name").toList

theorem namesGiven_creation (ps : List Patch) (i : ElementId) (profile : Profile)
    (props : OrderedMap Json) :
    namesGiven (ps ++ creation i profile props) i =
      ((storedProps profile props).lookup "name").toList := by
  rw [namesGiven_append, creation, List.foldl_cons,
    Patch.giveName_setAttributes _ _ (nodup_keys_storedProps profile props), Patch.giveName, if_pos rfl,
    List.nil_append]

theorem namesGiven_creation_ne (ps : List Patch) (profile : Profile) (props : OrderedMap Json)
    (h : j ≠ i) : namesGiven (ps ++ creation i profile props) j = namesGiven ps j := by
  apply namesGiven_silent
  intro q hq given
  rw [creation, List.mem_cons, List.mem_map] at hq
  obtain rfl | ⟨entry, -, rfl⟩ := hq
  · exact if_neg (Ne.symm h)
  · exact if_neg fun hi => h hi.1.symm

namespace Sprouts

theorem refl (hc : Coherent e) : Sprouts e e [] where
  told := by rw [tell_nil]
  nextId := Nat.le_refl _
  older ps i _ := by rw [List.append_nil]
  newer ps x hx hi := (Nat.not_lt.2 hi (hc.forest.bounded (hc.forest.get?_of_mem hx))).elim

theorem created (h : Sprouts e e' qs) (hc : Coherent e') (profile : Profile) (props : OrderedMap Json)
    (placeName : String) :
    Sprouts e (e'.created profile props placeName)
      (qs ++ creation e'.document.nextId profile props) where
  told := tell_told h.told _
  nextId := Nat.le_succ_of_le h.nextId
  older ps i hi := by
    rw [← List.append_assoc, namesGiven_creation_ne _ _ _ (Nat.ne_of_lt (Nat.lt_of_lt_of_le hi h.nextId)),
      h.older ps i hi]
  newer ps x hx hi := by
    rw [← List.append_assoc]
    rcases List.mem_append.1 hx with hx | hx
    · have hlt := hc.forest.bounded (hc.forest.get?_of_mem hx)
      rw [namesGiven_creation_ne _ _ _ (Nat.ne_of_lt hlt), h.newer ps x hx hi]
    · cases List.mem_singleton.1 hx
      exact namesGiven_creation _ _ profile props

theorem adopted (h : Sprouts e e' qs) (p : ElementId) (slot : String) (c : ElementId) :
    Sprouts e (e'.adopted p slot c) (qs ++ [.appendToSlot p slot c]) where
  told := tell_told h.told _
  nextId := h.nextId
  older ps i hi := by
    rw [← List.append_assoc, namesGiven_concat]
    exact h.older ps i hi
  newer ps x hx hi := by
    rw [← List.append_assoc, namesGiven_concat]
    obtain ⟨y, hy, hxy⟩ := exists_label_of_mem_modify (f := (·.addChild slot c)) (fun _ => rfl) hx
    obtain ⟨z, hz, hyz⟩ :=
      exists_label_of_mem_modify (f := ({ · with parent := some p })) (fun _ => rfl) hy
    have hl := hxy.trans hyz
    simp only [Element.label, Prod.mk.injEq] at hl
    obtain ⟨hid, hattr, -⟩ := hl
    rw [hid] at hi ⊢
    rw [hattr]
    exact h.newer ps z hz hi

end Sprouts

theorem Builds.sprouts (hb : Builds e e') (hc : Coherent e) : ∃ qs, Sprouts e e' qs := by
  induction hb with
  | refl => exact ⟨[], .refl hc⟩
  | tail hs hb ih =>
    obtain ⟨qs, h⟩ := ih
    cases hb with
    | create props placeName _ => exact ⟨_, h.created (Builds.coherent hs hc) _ props placeName⟩
    | adopt slot _ _ _ _ _ => exact ⟨_, h.adopted _ slot _⟩

theorem attribute?_depicts {catalog : Catalog} (h : Depicts catalog node x) (hk : catalog.NamesPlain)
    (hu : node.HasDistinctKeys) : x.attribute? "name" = node.props.lookup "name" := by
  obtain ⟨profile, placeName, parent, slots, hp, he⟩ := h
  have hplain : profile.isEncoded "name" = false :=
    hk profile (List.mem_of_find?_eq_some (get?_of_named hp))
  have hvalue : profile.stored "name" = id := funext (Profile.stored_plain hplain)
  rw [he, Element.attribute?]
  dsimp only [newElement]
  rw [lookup_storedProps profile hu.1, hvalue, Option.map_id, id]

theorem readName?_depicts {catalog : Catalog} (h : Depicts catalog node x) (hk : catalog.NamesPlain)
    (hu : node.HasDistinctKeys) : x.declaredName? = x.readName? := by
  have hread : x.readName? = declaredName? node.props := by
    rw [Element.readName?, attribute?_depicts h hk hu, declaredName?]
  obtain ⟨profile, placeName, parent, slots, -, he⟩ := h
  have hname (name? : Option String) :
      (if name?.isSome then some (name?.getD placeName) else none) = name? := by
    cases name? <;> rfl
  rw [hread, he]
  exact hname (declaredName? node.props)

theorem Sprouts.rendered {e e' : Engine} {tree : Tree} (h : Sprouts e e' qs)
    (hok : checkKinds e.catalog tree = .ok ())
    (hd : e'.document.elements =
      e.document.elements ++ elementsOf e.catalog none placeName e.document.nextId tree)
    (ps : List Patch) (hx : x ∈ elementsOf e.catalog none placeName e.document.nextId tree) :
    namesGiven (ps ++ qs) x.id = (x.attribute? "name").toList := by
  have hid : x.id ∈ List.range' e.document.nextId tree.size := by
    rw [← ids_elementsOf tree hok]
    exact List.mem_map_of_mem hx
  apply h.newer ps x _ (List.mem_range'_1.1 hid).1
  rw [hd]
  exact List.mem_append_right _ hx

theorem Sprouts.given_props {e e' : Engine} {tree : Tree} (h : Sprouts e e' qs)
    (hok : checkKinds e.catalog tree = .ok ())
    (hd : e'.document.elements =
      e.document.elements ++ elementsOf e.catalog none placeName e.document.nextId tree)
    (hk : e.catalog.NamesPlain) (hu : tree.Distinct) (ps : List Patch) :
    List.Forall₂ (fun node i => namesGiven (ps ++ qs) i = (node.props.lookup "name").toList)
      tree.nodes (List.range' e.document.nextId tree.size) := by
  have hids : (elementsOf e.catalog none placeName e.document.nextId tree).map (·.id) =
      List.range' e.document.nextId tree.size := ids_elementsOf tree hok
  have hdepicts : List.Forall₂ (Depicts e.catalog) tree.nodes
      (elementsOf e.catalog none placeName e.document.nextId tree) := forall₂_elementsOf tree hok
  obtain ⟨hlen, hget⟩ := List.forall₂_iff_get.1 hdepicts
  rw [← hids, List.forall₂_map_right_iff, List.forall₂_iff_get]
  refine ⟨hlen, fun k hn hx => ?_⟩
  have hattr := attribute?_depicts (hget k hn hx) hk (hu _ (List.get_mem _ ⟨k, hn⟩))
  rw [h.rendered hok hd ps (List.get_mem _ ⟨k, hx⟩), hattr]

theorem retraced_render {e : Engine} (hc : Coherent e) (hk : e.catalog.NamesPlain) (hu : tree.Distinct)
    (h : Traced ps e) (hr : (render tree).run e = .done root e') : Retraced ps e e' := by
  obtain ⟨hb, hok⟩ := builds_of_render hc hr
  obtain ⟨profile, e'', -, hr', -, hd⟩ := run_render hc hok
  cases hr'.symm.trans hr
  obtain ⟨qs, hs⟩ := hb.sprouts hc
  refine ⟨qs, hs.told, ?_⟩
  intro x hx
  rw [hd, List.mem_append] at hx
  rcases hx with hx | hx
  · rw [hs.older ps _ (hc.forest.bounded (hc.forest.get?_of_mem hx))]
    exact h x hx
  · rw [hs.rendered hok (congrArg Document.elements hd) ps hx]
    obtain ⟨node, hn, hdep⟩ := exists_depicted hok hx
    have hdecl := readName?_depicts hdep hk (hu node hn)
    constructor
    · cases x.attribute? "name" <;> rfl
    · rw [hdecl, Element.readName?]
      cases hv : x.attribute? "name" with
      | none => rfl
      | some value => cases ht : Attribute.text? value <;> simp [ht]

/-- There is a host, and the names of all elements are as it was told. -/
def NamesFollow (e : Engine) : Prop :=
  ∃ r, e.recorder = some r ∧ Traced r.patches e

theorem Retraced.follow (h : Retraced r.patches e e') (hr : e.recorder = some r) : NamesFollow e' := by
  obtain ⟨qs, ht, h⟩ := h
  rw [tell, hr, Option.map_some] at ht
  rw [← Recorder.patches_replay] at h
  exact ⟨_, ht, h⟩

theorem NamesFollow.flushed (h : NamesFollow e) : NamesFollow e.flushed := by
  obtain ⟨r, hr, h⟩ := h
  exact ⟨r, hr, h.mapElements rfl (label_refresh e.catalog)⟩

theorem Act.namesFollow (hs : Act e e') (hc : Coherent e) (h : NamesFollow e) : NamesFollow e' := by
  obtain ⟨r, hr, h⟩ := h
  exact (hs.retraced hc h).follow hr

theorem invariant_names (given : Settings) :
    Invariant True (max 1 given.maxDispatchDepth) Action.Proper
      (fun stack e => (e.catalog.NamesPlain → NamesFollow e) ∧ Level Action.Proper given stack e) where
  coherent h := h.2.coherent
  bounded _ := .inl trivial
  act h hs := by
    constructor
    · rw [hs.frame.2.2]
      exact fun hk => hs.namesFollow h.2.coherent (h.1 hk)
    · exact h.2.act hs
  render {stack tree e root e'} ha h hr := by
    constructor
    · have hcat : e'.catalog = e.catalog := by
        obtain ⟨d, r, rfl⟩ := (builds_of_render h.2.coherent hr).1.frame
        rfl
      rw [hcat]
      intro hk
      obtain ⟨r, hrec, ht⟩ := h.1 hk
      exact (retraced_render h.2.coherent hk (Action.proper_render.1 ha) ht hr).follow hrec
    · exact (invariant_level lawful_proper given).render ha h.2 hr
  define ha h := by
    constructor
    · rw [Catalog.namesPlain_define]
      exact h.1
    · exact (invariant_level lawful_proper given).define ha h.2
  enter raw h hl := ⟨h.1, h.2.enter hl raw⟩
  leave {stack raw e} h := by
    constructor
    · exact leave_keep (P := fun e => e.catalog.NamesPlain → NamesFollow e) h.1
        fun h hk => (h hk).flushed
    · exact h.2.leave
  parsed h := lawful_proper.parsed h
  body h hm := h.2.methods.method? hm
  direct _ := trivial

/-- What is heard of an engine whose kinds stay and whose trees give each prop once. -/
abbrev Overheard : List Patch → List String → Engine → Prop :=
  Heard Action.Proper fun catalog catalog' => catalog' = catalog

theorem Overheard.traced (h : Overheard ps stack e) (hk : e.catalog.NamesPlain) : Traced ps e := by
  obtain ⟨-, hn, -⟩ := h.keep invariant_names
    (fun settings catalog operations hm => by
      refine ⟨fun _ => ⟨{}, rfl, ?_⟩, level_fresh settings operations (some {}) hm⟩
      intro x hx
      cases hx)
    (fun {settings stack e catalog} operations h hx hm => by
      cases hx
      exact ⟨h.1, h.2.refit operations e.recorder hm⟩)
  obtain ⟨r, hr, ht⟩ := hn hk
  cases hr
  exact ht

theorem run_setAttribute_null {e : Engine} (hc : Coherent e) (hk : e.catalog.NamesPlain)
    (hx : e.document.get? i = some x) :
    (setAttribute i "name" .null).run e = .done () (e.written i "name" .null) := by
  cases Document.id_of_get? hx
  have hr : (setAttribute x.id "name" .null).run e =
      .done () (e.assigned x "name" (e.catalog.stored x.kind "name" .null)) := by
    apply run_setAttribute hc.names hx
    rw [hk.stored]
    intro name hn
    cases hn
  rw [hr, hk.stored]
  rfl

theorem hearing_assigned (ps : List Patch) (e : Engine) (x : Element) (key : String) (value : Json) :
    (e.hearing ps).assigned x key value =
      (e.assigned x key value).hearing (ps ++ [.setAttribute x.id key value]) := by
  rw [assigned, assigned]
  cases newName? x key value <;> rfl

/-- A value that is written to the name is given to the element. -/
theorem Overheard.write (h : Overheard ps stack e) (hk : e.catalog.NamesPlain)
    (hx : e.document.get? i = some x) (hr : (setAttribute i "name" value).run e = .done () e') :
    Overheard (ps ++ [.setAttribute i "name" value]) stack e' := by
  cases Document.id_of_get? hx
  have hc := h.coherent lawful_proper
  obtain ⟨hd, hn⟩ | ⟨name, hf, -⟩ := run_setAttribute_live hc hx "name" value
  · have ht : (setAttribute x.id "name" value).run (e.hearing ps) =
        .done () ((e.hearing ps).assigned x "name" (e.catalog.stored x.kind "name" value)) :=
      run_setAttribute hc.names hx hn
    rw [hk.stored, hearing_assigned] at ht
    rw [hk.stored, hr] at hd
    cases hd
    exact h.done (.setAttribute x.id "name" value) 0 trivial hr ht
  · cases hr.symm.trans hf

/-- A tree gives each new element the value of its prop, and the older ones nothing. -/
theorem Overheard.render (h : Overheard ps stack e) (hk : e.catalog.NamesPlain) (hu : tree.Distinct)
    (hr : (render tree).run e = .done root e') :
    ∃ qs, Overheard (ps ++ qs) stack e' ∧
      (∀ i < e.document.nextId, namesGiven (ps ++ qs) i = namesGiven ps i) ∧
      List.Forall₂ (fun node i => namesGiven (ps ++ qs) i = (node.props.lookup "name").toList)
        tree.nodes (List.range' e.document.nextId tree.size) := by
  have hc := h.coherent lawful_proper
  obtain ⟨-, hok⟩ := builds_of_render hc hr
  obtain ⟨profile, d, -, hrun, hb, hd⟩ := run_render (hc.hearing ps) hok
  obtain ⟨qs, hs⟩ := hb.sprouts (hc.hearing ps)
  have hdone : ((Operation.render tree).perform 0).run e = .done () e' :=
    EngineM.run_bind_done hr fun _ => pure ()
  have hdone' : ((Operation.render tree).perform 0).run (e.hearing ps) = .done () d :=
    EngineM.run_bind_done hrun fun _ => pure ()
  obtain ⟨rs, ht⟩ := exists_hearing (.render tree) 0 hc ps
  rw [hdone] at ht
  have h' := h.done (.render tree) 0 (Action.proper_render.2 hu) hdone ht
  cases hdone'.symm.trans ht
  have hrs := hs.told
  rw [hearing_tell] at hrs
  cases hrs
  exact ⟨qs, h', hs.older ps, hs.given_props hok (congrArg Document.elements hd) hk hu ps⟩

/-- An element declares the last name that it was given, by its tree or a write, whether or not anybody was
told; a null is no name, and to write one changes the attribute only. -/
theorem name_attribute
    (h : Visited Action.Proper (fun catalog catalog' => catalog' = catalog) stack e)
    (hk : e.catalog.NamesPlain) :
    Catalog.standard.NamesPlain ∧ (∃ told, Overheard told stack e) ∧ ∀ told, Overheard told stack e →
      (∀ tree root e', tree.Distinct → (render tree).run e = .done root e' →
        ∃ qs, Overheard (told ++ qs) stack e' ∧
          (∀ i < e.document.nextId, namesGiven (told ++ qs) i = namesGiven told i) ∧
          List.Forall₂ (fun node i => namesGiven (told ++ qs) i = (node.props.lookup "name").toList)
            tree.nodes (List.range' e.document.nextId tree.size)) ∧
      ∀ i x, e.document.get? i = some x →
        (∀ value e', (setAttribute i "name" value).run e = .done () e' →
          Overheard (told ++ [.setAttribute i "name" value]) stack e') ∧
        x.attribute? "name" = (namesGiven told i).getLast? ∧
        (x.declared = true ↔ ∃ value ∈ namesGiven told i, value ≠ .null) ∧
        x.declaredName? = ((namesGiven told i).filterMap Attribute.text?).getLast? ∧
        (∀ n, i ∈ e.names.idsOf n ↔ x.mounted = true ∧ x.declaredName? = some n) ∧
        (x.attribute? "name" ≠ some .null → x.declaredName? = x.readName? ∧
          ∀ n, i ∈ e.names.idsOf n ↔ x.mounted = true ∧ x.readName? = some n) ∧
        ∃ e', (setAttribute i "name" .null).run e = .done () e' ∧ e'.names = e.names ∧
          e'.document.get? i = some (x.setAttribute "name" .null).markDirty := by
  obtain ⟨hl, ha⟩ := h.keep_edit lawful_proper (P := Agrees) agrees_fresh
    (fun hc h hs => hs.agrees hc h) (fun _ _ h _ => h)
  refine ⟨Catalog.standard_namesPlain, h.heard lawful_proper, fun told ht => ⟨?_, ?_⟩⟩
  · intro tree root e' hu hr
    exact ht.render hk hu hr
  intro i x hx
  have hf : x.Follows (namesGiven told i) := by
    cases Document.id_of_get? hx
    exact ht.traced hk x (Document.mem_of_get? hx)
  have hlisted (n : String) :
      i ∈ e.names.idsOf n ↔ x.mounted = true ∧ x.declaredName? = some n := by
    rw [ha n i, hx]
    simp only [Option.some.injEq, exists_eq_left', holds_iff, Element.declaredName?]
    cases x.declared <;> simp
  refine ⟨fun value e' hr => ht.write hk hx hr, hf.shown, hf.declared_iff, hf.declared, hlisted, ?_, ?_⟩
  · intro hn
    rw [← hf.readName? hn]
    exact ⟨rfl, hlisted⟩
  · exact ⟨_, run_setAttribute_null hl.coherent hk hx, rfl,
      Document.get?_modify_self (f := fun x => (x.setAttribute "name" .null).markDirty) (fun _ => rfl) hx⟩

def chipRequests : List Operation :=
  let chip (name : Json) : Tree := (Tree.leaf "Chip").withProp "name" name
  [ .renderAndMount (((Tree.leaf "Row").withChild "items" (chip (.str "tag"))).withChild "items"
      (chip (.str "flag"))),
    .setAttribute 1 "name" .null,
    .setAttribute 2 "name" (.bool true) ]

def renamedChips : Engine :=
  after 0 (fresh {} .standard (fun _ => none) (some {})) chipRequests

def unheardChips : Engine :=
  after 0 (fresh {} .standard (fun _ => none) none) chipRequests

theorem overheard_unheardChips : Overheard renamedChips.patches [] unheardChips := by
  have hfresh : Overheard [] [] (fresh {} .standard (fun _ => none) none) :=
    .fresh _ _ none Catalog.standard_proper
  apply hfresh.after lawful_proper 0
  rw [chipRequests, List.forall_mem_cons]
  constructor
  · apply Action.proper_render.2
    decide +kernel
  · simp [Operation.Allowed]

/-- A name outlives the attribute that gave it. -/
theorem null_keeps_name :
    Run (fresh {} .standard (fun _ => none) (some {})) renamedChips ∧
      ∃ x, renamedChips.document.get? 1 = some x ∧ x.mounted = true ∧
        x.attribute? "name" = some .null ∧
        ¬(x.declared = true ↔ ∃ value, x.attribute? "name" = some value ∧ value ≠ .null) ∧
        ¬(1 ∈ renamedChips.names.idsOf "tag" ↔ x.readName? = some "tag") := by
  have hrun : Run (fresh {} .standard (fun _ => none) (some {})) renamedChips := run_after _ _ _
  have hids : renamedChips.names.idsOf "tag" = [1] := by decide +kernel
  have hchip : (renamedChips.document.get? 1).map (fun x =>
      (x.mounted, x.declared, (x.attribute? "name").isSome, x.readName?)) =
        some (true, true, true, none) := by decide +kernel
  obtain ⟨x, hx, hp⟩ := Option.map_eq_some_iff.1 hchip
  simp only [Prod.mk.injEq] at hp
  obtain ⟨hm, hd, hsome, hread⟩ := hp
  obtain ⟨value, hv⟩ := Option.isSome_iff_exists.1 hsome
  rw [Element.readName?, hv, Option.bind_some, Attribute.text?_eq_none] at hread
  subst hread
  refine ⟨hrun, x, hx, hm, hv, ?_, ?_⟩
  · intro h
    obtain ⟨value, hv', hn⟩ := h.1 hd
    rw [hv] at hv'
    cases hv'
    exact hn rfl
  · intro h
    have hr := h.1 (by rw [hids]; decide)
    rw [Element.readName?, hv] at hr
    cases hr

theorem name_attribute_unheardChips :
    unheardChips.catalog.NamesPlain ∧ unheardChips.recorder.isNone ∧
      (∃ x, unheardChips.document.get? 1 = some x ∧ Overheard renamedChips.patches [] unheardChips ∧
        (namesGiven renamedChips.patches 1).filterMap Attribute.text? = ["tag"] ∧
        x.declaredName? = some "tag") ∧
      ∃ x, unheardChips.document.get? 2 = some x ∧ x.readName? = some "true" ∧
        x.declaredName? = some "true" ∧ 2 ∈ unheardChips.names.idsOf "true" := by
  have hk : unheardChips.catalog.NamesPlain := by decide +kernel
  have hgiven : (namesGiven renamedChips.patches 1).filterMap Attribute.text? = ["tag"] := by
    decide +kernel
  have hlive : unheardChips.recorder.isNone ∧ (unheardChips.document.get? 1).isSome := by decide +kernel
  have hchip : (unheardChips.document.get? 2).map (fun x => (x.mounted, x.readName?)) =
      some (true, some "true") := by decide +kernel
  have ht := overheard_unheardChips
  obtain ⟨-, -, hall⟩ := name_attribute ht.visited hk
  obtain ⟨x, hx⟩ := Option.isSome_iff_exists.1 hlive.2
  obtain ⟨y, hy, hp⟩ := Option.map_eq_some_iff.1 hchip
  simp only [Prod.mk.injEq] at hp
  obtain ⟨-, -, -, hdx, -⟩ := (hall _ ht).2 1 x hx
  obtain ⟨-, -, -, -, -, hagree, -⟩ := (hall _ ht).2 2 y hy
  have hnull : y.attribute? "name" ≠ some .null := by
    intro hn
    rw [Element.readName?, hn] at hp
    cases hp.2
  obtain ⟨hdy, hlisted⟩ := hagree hnull
  refine ⟨hk, hlive.1, ⟨x, hx, ht, hgiven, ?_⟩, y, hy, hp.2, hdy.trans hp.2, (hlisted "true").2 hp⟩
  rw [hdx, hgiven]
  rfl

end Engine

end LiveTree
