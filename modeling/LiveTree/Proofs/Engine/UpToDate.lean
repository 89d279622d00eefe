import LiveTree.Proofs.Engine.Visit

namespace LiveTree
set_option autoImplicit true

/-- The text of an element is the one that its kind gives to its name and attributes. -/
def Element.UpToDate (catalog : Catalog) (x : Element) : Prop :=
  ∃ profile, catalog.get? x.kind = some profile ∧ x.text = profile.text x.name x.attributes

def Catalog.KeepsTexts (catalog catalog' : Catalog) : Prop :=
  ∀ kind profile, catalog.get? kind = some profile →
    ∃ profile', catalog'.get? kind = some profile' ∧ profile'.text = profile.text

theorem Catalog.keepsTexts_define (catalog : Catalog) (kind : Kind) (method : String)
    (script : Script) : catalog.KeepsTexts (catalog.define kind method script) := by
  intro other profile h
  rw [get?_define, h, Option.map_some]
  refine ⟨_, rfl, ?_⟩
  split
  · rfl
  · rfl

def Element.face (x : Element) : Kind × String × OrderedMap Json × Option String × RenderState :=
  (x.kind, x.name, x.attributes, x.text, x.state)

/-- An element is of a known kind, and up to date if it is clean. -/
structure Element.Honest (catalog : Catalog) (x : Element) : Prop where
  known : ∃ profile, catalog.get? x.kind = some profile
  clean : x.state = .clean → x.UpToDate catalog

namespace Element.Honest

variable {catalog : Catalog}

theorem congr {x y : Element} (h : x.Honest catalog) (hf : y.face = x.face) : y.Honest catalog := by
  simp only [face, Prod.mk.injEq] at hf
  obtain ⟨hk, hn, ha, ht, hs⟩ := hf
  constructor
  · rw [hk]
    exact h.known
  · rw [hs, UpToDate, hk, hn, ha, ht]
    exact h.clean

theorem of_dirty {x : Element} (h : ∃ profile, catalog.get? x.kind = some profile)
    (hs : x.state = .dirty) : x.Honest catalog where
  known := h
  clean hc := by
    rw [hs] at hc
    cases hc

theorem keepsTexts {x : Element} {catalog' : Catalog} (h : x.Honest catalog)
    (hx : catalog.KeepsTexts catalog') : x.Honest catalog' where
  known := by
    obtain ⟨profile, hp⟩ := h.known
    obtain ⟨profile', hp', -⟩ := hx _ _ hp
    exact ⟨profile', hp'⟩
  clean hc := by
    obtain ⟨profile, hp, ht⟩ := h.clean hc
    obtain ⟨profile', hp', he⟩ := hx _ _ hp
    exact ⟨profile', hp', by rw [ht, he]⟩

end Element.Honest

namespace Engine

theorem upToDate_refresh {x : Element} {catalog : Catalog} (h : x.Honest catalog) :
    (refresh catalog x).isDirty = false ∧ (refresh catalog x).UpToDate catalog := by
  rw [refresh]
  split
  · obtain ⟨profile, hp⟩ := h.known
    refine ⟨rfl, profile, hp, ?_⟩
    simp only [Element.rendered, Catalog.text, hp, Option.bind_some]
  · rename_i hd
    have hs : x.state = .clean := by
      cases hx : x.state with
      | clean => rfl
      | dirty => exact (hd (by rw [Element.isDirty, hx]; rfl)).elim
    exact ⟨Bool.eq_false_iff.2 hd, h.clean hs⟩

def AllHonest (e : Engine) : Prop :=
  ∀ x ∈ e.document.elements, x.Honest e.catalog

/-- All are honest but one that may be so only after it is marked. -/
def HonestBut (i : ElementId) (e : Engine) : Prop :=
  ∀ x ∈ e.document.elements, (∃ profile, e.catalog.get? x.kind = some profile) ∧
    (x.id ≠ i → x.Honest e.catalog)

theorem AllHonest.but (h : AllHonest e) (i : ElementId) : HonestBut i e := by
  intro x hx
  exact ⟨(h x hx).known, fun _ => h x hx⟩

theorem AllHonest.mapElements {e e' : Engine} {f : Element → Element} (h : AllHonest e)
    (hc : e'.catalog = e.catalog) (hd : e'.document = e.document.mapElements f)
    (hf : ∀ x, x.Honest e.catalog → (f x).Honest e.catalog) : AllHonest e' := by
  rw [AllHonest, hc, hd]
  intro y hy
  obtain ⟨x, hx, rfl⟩ := List.mem_map.1 hy
  exact hf x (h x hx)

theorem HonestBut.renamed (h : HonestBut i e) (hi : x.id = i) (name : String) :
    HonestBut i (e.renamed x name) := by
  refine Document.forall_mem_modify h ?_ fun y hy _ => hy
  intro y hy hyx
  exact ⟨hy.1, fun hne => (hne (hyx.trans hi)).elim⟩

theorem HonestBut.written (h : HonestBut i e) (key : String) (value : Json) :
    AllHonest (e.written i key value) := by
  refine Document.forall_mem_modify h ?_ fun x hx hi => hx.2 hi
  intro x hx _
  exact .of_dirty hx.1 rfl

theorem honest_loaded (e : Engine) {x : Element} {catalog : Catalog} (h : x.Honest catalog) :
    (e.loaded x).Honest catalog := by
  rw [loaded]
  split
  · exact h
  · exact h.congr rfl

theorem AllHonest.adopted (h : AllHonest e) (p : ElementId) (slot : String) (c : ElementId) :
    AllHonest (e.adopted p slot c) := by
  have hc : ∀ x ∈ (e.document.modify c ({ · with parent := some p })).elements, x.Honest e.catalog :=
    Document.forall_mem_modify h (fun x hx _ => hx.congr rfl) fun x hx _ => hx
  exact Document.forall_mem_modify hc (fun x hx _ => hx.congr rfl) fun x hx _ => hx

theorem Build.honest (hs : Build e e') (h : AllHonest e) : AllHonest e' := by
  cases hs with
  | create props placeName hp =>
    intro x hx
    rcases List.mem_append.1 hx with hx | hx
    · exact h x hx
    · cases List.mem_singleton.1 hx
      exact ⟨⟨_, hp⟩, fun _ => ⟨_, hp, rfl⟩⟩
  | adopt slot hp hc hr hlt hm =>
    exact h.adopted _ slot _

theorem Act.honest (hs : Act e e') (h : AllHonest e) : AllHonest e' := by
  cases hs with
  | mount hx hn =>
    refine h.mapElements rfl (e.loadAll_eq _) ?_
    intro x hx
    split
    · exact honest_loaded e hx
    · exact hx
  | remove hx =>
    intro y hy
    obtain ⟨x, hx, rfl⟩ := List.mem_map.1 hy
    exact (h x (List.mem_filter.1 hx).1).congr rfl
  | assign key value hx hn =>
    -- an element that is renamed is not up to date before it is marked
    have hb := h.but
    rw [assigned]
    cases newName? _ key _ with
    | none => exact (hb _).written key _
    | some name => exact ((hb _).renamed rfl name).written key _
  | touch hx =>
    exact Document.forall_mem_modify h (fun x hx _ => .of_dirty hx.known rfl) fun x hx _ => hx
  | flush =>
    refine h.mapElements rfl rfl ?_
    intro x hx
    obtain ⟨-, profile, hp, ht⟩ := upToDate_refresh hx
    exact ⟨⟨profile, hp⟩, fun _ => ⟨profile, hp, ht⟩⟩
  | call method hx => exact h
  | log line => exact h

theorem Edit.honest (hs : Edit e e') (h : AllHonest e) : AllHonest e' := by
  cases hs with
  | build hs => exact hs.honest h
  | act hs => exact hs.honest h
  | depth n => exact h
  | define kind method script =>
    intro x hx
    exact (h x hx).keepsTexts (e.catalog.keepsTexts_define kind method script)

def AllShown (e : Engine) : Prop :=
  e.document.dirty = [] ∧ ∀ x ∈ e.document.elements, x.UpToDate e.catalog

theorem AllHonest.flushed (h : AllHonest e) : AllShown e.flushed := by
  constructor
  · rw [Document.dirty, List.map_eq_nil_iff, List.filter_eq_nil_iff]
    intro y hy
    obtain ⟨x, hx, rfl⟩ := List.mem_map.1 hy
    rw [(upToDate_refresh (h x hx)).1]
    exact Bool.false_ne_true
  · intro y hy
    obtain ⟨x, hx, rfl⟩ := List.mem_map.1 hy
    exact (upToDate_refresh (h x hx)).2

theorem AllHonest.leave (h : AllHonest e) (hd : e.dispatchDepth = 1) (ha : e.settings.autoFlush = true) :
    AllShown e.leave := by
  rw [Engine.leave]
  dsimp only
  rw [if_pos ⟨by rw [hd], ha⟩]
  exact AllHonest.flushed (e := { e with dispatchDepth := e.dispatchDepth - 1 }) h

theorem AllHonest.emit (h : AllHonest e) (hl : Level (fun _ => True) given [] e)
    (ha : given.autoFlush = true) (fuel : Nat) (raw : String) :
    ((emit fuel raw).run e).Ends AllShown := by
  have hI := (Invariant.of_edit fun _ h hs => Edit.honest hs h).and (invariant_level lawful_true given)
    fun _ _ => trivial
  have hlimit : e.atLimit = false := by
    rw [atLimit, hl.depth]
    rfl
  have he : AllHonest e.enter := h
  have hs := hI.agree_applyListener (hI.agree_same fuel [raw]) (.parse raw) e.enter
    ⟨⟨⟨hl.coherent.forest, hl.coherent.names⟩, he⟩, hl.enter hlimit raw⟩
  rw [Engine.emit, run_emitWith, hlimit, if_neg Bool.false_ne_true]
  apply hs.2.mapEngine
  rintro e' ⟨⟨-, hh⟩, hl'⟩
  exact hh.leave hl'.depth (hl'.settings ▸ ha)

/-- What is clean is up to date, and whatever flushes brings everything up to date. -/
theorem clean_upToDate (h : Visited (fun _ => True) Catalog.KeepsTexts stack e) :
    (∀ x ∈ e.document.elements, x.state = .clean → x.UpToDate e.catalog) ∧
    (∃ n e', flush.run e = .done n e' ∧ AllShown e') ∧
    (stack = [] → e.settings.autoFlush = true → ∀ fuel raw e',
      ((emit fuel raw).run e = .done () e' ∨ ∃ error, (emit fuel raw).run e = .failed error e') →
        AllShown e') := by
  obtain ⟨hl, hh⟩ := h.keep_edit lawful_true (P := AllHonest) (fun _ _ _ _ _ hx => nomatch hx)
    (fun _ h hs => hs.honest h) (fun _ _ h hx x hm => (h x hm).keepsTexts hx)
  refine ⟨fun x hx => (hh x hx).clean, ⟨_, _, rfl, hh.flushed⟩, ?_⟩
  rintro rfl ha fuel raw e' hr
  have hs := hh.emit hl ha fuel raw
  rcases hr with hr | ⟨error, hr⟩
  · rw [hr] at hs
    exact hs
  · rw [hr] at hs
    exact hs

def relabelled : Engine :=
  let store : Json :=
    .obj [("label", .str "Stored"), ("$call", .arr [.obj [("method", .str "print")]])]
  let save : Tree :=
    (((Tree.leaf "Button").withProp "name" (.str "save")).withProp "label" (.str "Save")).withProp
      "listeners" (.obj [("store", store)])
  after 0 (fresh {} .standard (fun _ => none) none)
    [.renderAndMount save, .setAttribute 0 "label" (.str "Save all")]

theorem clean_upToDate_relabelled :
    relabelled.document.dirty = [0] ∧
      relabelled.document.elements.map (·.text) = [some "Save"] ∧
      ∃ e', (emit 2 "save.store").run relabelled = .failed (.methodNotFound "save" "print") e' ∧
        AllShown e' := by
  have h : Visited (fun _ => True) Catalog.KeepsTexts [] relabelled := visited_after _ _ _ _ _ _
  have hflush : relabelled.settings.autoFlush = true := by decide +kernel
  have herror : ((emit 2 "save.store").run relabelled).error? =
      some (.methodNotFound "save" "print") := by decide +kernel
  obtain ⟨e', hr⟩ := Outcome.error?_eq_some.1 herror
  obtain ⟨-, -, hemit⟩ := clean_upToDate h
  refine ⟨?_, ?_, e', hr, hemit rfl hflush 2 "save.store" e' (.inr ⟨_, hr⟩)⟩
  · decide +kernel
  · decide +kernel

end Engine

end LiveTree
