import LiveTree.Proofs.Engine.Naming

namespace LiveTree.Engine
set_option autoImplicit true

variable {e : Engine}

theorem get?_assigned_ne (e : Engine) (h : j ≠ x.id) (key : String) (value : Json) :
    (e.assigned x key value).document.get? j = e.document.get? j := by
  rw [document_assigned]
  exact Document.get?_modify_ne (rewritten_id x key value) h

theorem assigned_assigned_frame (e : Engine) (x y : Element) (key key' : String) (value value' : Json) :
    ∃ d index, (e.assigned x key value).assigned y key' value' =
      { e with document := d, names := index }.tell
        [.setAttribute x.id key value, .setAttribute y.id key' value'] := by
  obtain ⟨d, index, h⟩ := e.assigned_frame x key value
  obtain ⟨d', index', h'⟩ := (e.assigned x key value).assigned_frame y key' value'
  rw [h', h]
  exact ⟨d', index', (tell_append { e with document := d', names := index' } [_] [_]).symm⟩

/-- Two writes to different elements come to the same, but for the order in which the host is told. -/
theorem assigned_comm (hc : Coherent e) (ha : Agrees e) (hx : e.document.get? x.id = some x)
    (hy : e.document.get? y.id = some y) (hne : x.id ≠ y.id) (key key' : String) (value value' : Json) :
    ∃ d index,
      (e.assigned x key value).assigned y key' value' =
        { e with document := d, names := index }.tell
          [.setAttribute x.id key value, .setAttribute y.id key' value'] ∧
      (e.assigned y key' value').assigned x key value =
        { e with document := d, names := index }.tell
          [.setAttribute y.id key' value', .setAttribute x.id key value] := by
  have hy' := (e.get?_assigned_ne hne.symm key value).trans hy
  have hx' := (e.get?_assigned_ne hne key' value').trans hx
  have hcx := hc.assigned x key value
  have hcy := hc.assigned y key' value'
  have hd : ((e.assigned x key value).assigned y key' value').document =
      ((e.assigned y key' value').assigned x key value).document := by
    simp only [document_assigned]
    exact e.document.modify_comm (rewritten_id x key value) (rewritten_id y key' value') hne
  have hn : ((e.assigned x key value).assigned y key' value').names =
      ((e.assigned y key' value').assigned x key value).names :=
    (agrees_assigned (agrees_assigned ha hc hy key' value') hcy hx' key value).names_eq
      (hcy.assigned x key value)
      (agrees_assigned (agrees_assigned ha hc hx key value) hcx hy' key' value')
      (hcx.assigned y key' value') hd
  obtain ⟨d, index, h⟩ := e.assigned_assigned_frame x y key key' value value'
  obtain ⟨d', index', h'⟩ := e.assigned_assigned_frame y x key' key value' value
  rw [h, h'] at hd hn
  cases hd
  cases hn
  exact ⟨d, index, h, h'⟩

theorem run_setAttribute_firstMatch (hc : Coherent e) (hp : e.settings.namePolicy = .firstMatch)
    (hx : e.document.get? x.id = some x) (key : String) (value : Json) :
    (setAttribute x.id key value).run e =
      .done () (e.assigned x key (e.catalog.stored x.kind key value)) := by
  rcases run_setAttribute_live hc hx key value with ⟨hr, -⟩ | ⟨name, -, hreject, -⟩
  · exact hr
  · rw [hp] at hreject
    cases hreject

theorem run_setAttribute_twice (hc : Coherent e) (hp : e.settings.namePolicy = .firstMatch)
    (hx : e.document.get? x.id = some x) (hy : e.document.get? y.id = some y) (hne : x.id ≠ y.id)
    (key key' : String) (value value' : Json) :
    (setAttribute x.id key value >>= fun _ => setAttribute y.id key' value').run e =
      .done () ((e.assigned x key (e.catalog.stored x.kind key value)).assigned y key'
        (e.catalog.stored y.kind key' value')) := by
  rw [EngineM.run_bind_done (run_setAttribute_firstMatch hc hp hx key value)]
  have hc' := hc.assigned x key (e.catalog.stored x.kind key value)
  have hy' := (e.get?_assigned_ne hne.symm key (e.catalog.stored x.kind key value)).trans hy
  obtain ⟨d, index, h⟩ := e.assigned_frame x key (e.catalog.stored x.kind key value)
  rw [h] at hc' hy' ⊢
  exact run_setAttribute_firstMatch hc' hp hy' key' value'

/-- Where names may be shared, writes to different elements may be exchanged, names or not. -/
theorem independent_writes (h : Passed stack e) (hp : e.settings.namePolicy = .firstMatch)
    (hx : e.document.get? a = some x) (hy : e.document.get? b = some y) (hne : a ≠ b)
    (key key' : String) (value value' : Json) :
    let p : Patch := .setAttribute a key (e.catalog.stored x.kind key value)
    let q : Patch := .setAttribute b key' (e.catalog.stored y.kind key' value')
    ∃ e' : Engine,
      (setAttribute a key value >>= fun _ => setAttribute b key' value').run e =
        .done () (e'.tell [p, q]) ∧
      (setAttribute b key' value' >>= fun _ => setAttribute a key value).run e =
        .done () (e'.tell [q, p]) ∧
      (∀ n, (e'.tell [p, q]).names.idsOf n = (e'.tell [q, p]).names.idsOf n ∧
        (e'.tell [p, q]).find? n = (e'.tell [q, p]).find? n) ∧
      e' = { e with document := e'.document, names := e'.names } := by
  have hc := (h.level lawful_true).coherent
  cases Document.id_of_get? hx
  cases Document.id_of_get? hy
  obtain ⟨d, index, h₁, h₂⟩ := assigned_comm hc (h.agrees lawful_true) hx hy hne key key'
    (e.catalog.stored x.kind key value) (e.catalog.stored y.kind key' value')
  refine ⟨{ e with document := d, names := index }, ?_, ?_, fun n => ⟨rfl, rfl⟩, rfl⟩
  · rw [run_setAttribute_twice hc hp hx hy hne, h₁]
  · rw [run_setAttribute_twice hc hp hy hx hne.symm, h₂]

def namedPair : Engine :=
  let button (name : String) : Tree := (Tree.leaf "Button").withProp "name" (.str name)
  after 0 (fresh {} .standard (fun _ => none) (some {}))
    [.renderAndMount (button "save"), .renderAndMount (button "load")]

theorem independent_writes_namedPair :
    ∃ e₁ e₂, (setAttribute 0 "name" (.str "load") >>= fun _ =>
        setAttribute 1 "name" (.str "save")).run namedPair = .done () e₁ ∧
      (setAttribute 1 "name" (.str "save") >>= fun _ =>
        setAttribute 0 "name" (.str "load")).run namedPair = .done () e₂ ∧
      e₁.document = e₂.document ∧ e₁.find? "save" = some 1 ∧ e₂.find? "save" = some 1 := by
  have h : Passed [] namedPair := visited_after _ _ _ _ _ _
  have hp : namedPair.settings.namePolicy = .firstMatch := by decide +kernel
  have hx : (namedPair.document.get? 0).isSome = true := by decide +kernel
  have hy : (namedPair.document.get? 1).isSome = true := by decide +kernel
  have hfind : ((setAttribute 0 "name" (.str "load") >>= fun _ =>
      setAttribute 1 "name" (.str "save")).run namedPair).engine?.map (·.find? "save") =
      some (some 1) := by decide +kernel
  obtain ⟨x, hx⟩ := Option.isSome_iff_exists.1 hx
  obtain ⟨y, hy⟩ := Option.isSome_iff_exists.1 hy
  obtain ⟨e', h₁, h₂, hsame, -⟩ := independent_writes h hp hx hy (by decide) "name" "name"
    (.str "load") (.str "save")
  rw [h₁] at hfind
  have hfind₁ := Option.some.inj hfind
  exact ⟨_, _, h₁, h₂, rfl, hfind₁, (hsame "save").2 ▸ hfind₁⟩

end LiveTree.Engine
