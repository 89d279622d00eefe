import LiveTree.Proofs.Engine.Naming
import LiveTree.Proofs.Engine.Nesting

namespace LiveTree
set_option autoImplicit true

namespace Element

def fixture (x : Element) : Element :=
  { x with name := "", attributes := [], text := none, state := .clean, renderCount := 0 }

/-- A mounted element with a declared name. -/
def Addressable (x : Element) : Prop :=
  x.mounted = true ∧ x.declared = true

theorem Addressable.congr {x y : Element} (h : x.Addressable) (hf : y.fixture = x.fixture) :
    y.Addressable := by
  have hm : y.fixture.mounted = x.fixture.mounted := by rw [hf]
  have hd : y.fixture.declared = x.fixture.declared := by rw [hf]
  exact ⟨hm.trans h.1, hd.trans h.2⟩

end Element

def Patch.Addresses (d : Document) : Patch → Prop
  | .setAttribute i _ _ => ∃ x, d.get? i = some x ∧ x.Addressable
  | .invokeMethod i _ => ∃ x, d.get? i = some x ∧ x.Addressable
  | _ => False

/-- The errors that a dispatch of standard methods may end with. -/
def Error.OfDispatch (settings : Settings) : Error → Prop
  | .methodNotFound _ _ => True
  | .malformedCalls _ _ => True
  | .depthExceeded _ _ => True
  | .duplicateName _ => settings.namePolicy = .reject
  | _ => False

theorem Document.get?_fixture {d d' : Document}
    (h : d'.elements.map Element.fixture = d.elements.map Element.fixture) (i : ElementId) :
    (d'.get? i).map Element.fixture = (d.get? i).map Element.fixture := by
  have hfind (d : Document) :
      (d.get? i).map Element.fixture = (d.elements.map Element.fixture).find? (·.id = i) := by
    rw [List.find?_map]
    rfl
  rw [hfind, hfind, h]

namespace Engine

/-- The structure is the same, and the host was told of writes to and calls of addressable elements only. -/
structure Undisturbed (e e' : Engine) : Prop where
  nextId : e'.document.nextId = e.document.nextId
  elements : e'.document.elements.map Element.fixture = e.document.elements.map Element.fixture
  told : ∃ ps, e'.recorder = (e.tell ps).recorder ∧ ∀ p ∈ ps, p.Addresses e.document

namespace Undisturbed

theorem refl (e : Engine) : Undisturbed e e where
  nextId := rfl
  elements := rfl
  told := ⟨[], congrArg recorder e.tell_nil.symm, fun _ hp => (List.not_mem_nil hp).elim⟩

theorem get? (h : Undisturbed e e') (hx : e.document.get? i = some x) :
    ∃ y, e'.document.get? i = some y ∧ y.fixture = x.fixture := by
  have hy := Document.get?_fixture h.elements i
  rw [hx, Option.map_some] at hy
  exact Option.map_eq_some_iff.1 hy

theorem addressable (h : Undisturbed e e')
    (hy : ∃ y, e'.document.get? i = some y ∧ y.Addressable) :
    ∃ x, e.document.get? i = some x ∧ x.Addressable := by
  obtain ⟨y, hy, ha⟩ := hy
  have hx := Document.get?_fixture h.elements i
  rw [hy, Option.map_some] at hx
  obtain ⟨x, hx, hf⟩ := Option.map_eq_some_iff.1 hx.symm
  exact ⟨x, hx, ha.congr hf⟩

theorem addresses (h : Undisturbed e e') (hp : Patch.Addresses e'.document p) :
    p.Addresses e.document := by
  cases p with
  | setAttribute i key value => exact h.addressable hp
  | invokeMethod i method => exact h.addressable hp
  | create => exact hp
  | appendToSlot => exact hp
  | remove => exact hp

theorem trans (h : Undisturbed e₁ e₂) (h' : Undisturbed e₂ e₃) : Undisturbed e₁ e₃ where
  nextId := h'.nextId.trans h.nextId
  elements := h'.elements.trans h.elements
  told := by
    obtain ⟨ps, hr, hp⟩ := h.told
    obtain ⟨qs, hr', hq⟩ := h'.told
    use ps ++ qs
    constructor
    · rw [hr', tell_append, tell, hr]
      rfl
    · intro p hm
      rcases List.mem_append.1 hm with hm | hm
      · exact hp p hm
      · exact h.addresses (hq p hm)

theorem silent {e e' : Engine} {f : Element → Element} (hr : e'.recorder = e.recorder)
    (hd : e'.document = e.document.mapElements f) (hf : ∀ x, (f x).fixture = x.fixture) :
    Undisturbed e e' where
  nextId := by rw [hd, Document.mapElements]
  elements := by simp only [hd, Document.mapElements, List.map_map, Function.comp_def, hf]
  told := by
    rw [hr]
    exact (refl e).told

end Undisturbed

/-- The steps of a dispatch of standard methods. -/
inductive Quiet : Engine → Engine → Prop
  | write (key : String) (value : Json) (h : e.document.get? x.id = some x) (hx : x.Addressable)
    (hn : ∀ name, newName? x key (e.catalog.stored x.kind key value) = some name →
      x.mounted = true → e.names.check e.settings.namePolicy name x.id = .ok ()) :
    Quiet e (e.assigned x key (e.catalog.stored x.kind key value))
  | call (method : String) (h : e.document.get? i = some x) (hx : x.Addressable) :
    Quiet e (e.tell [.invokeMethod i method])
  | mark (h : e.document.get? i = some x) :
    Quiet e { e with document := e.document.modify i (·.markDirty) }
  | flush : Quiet e e.flushed
  | depth (n : Nat) : Quiet e { e with dispatchDepth := n }

def Quiets : Engine → Engine → Prop :=
  Relation.ReflTransGen Quiet

theorem Quiet.edit (h : Quiet e e') : Edit e e' := by
  cases h with
  | write key value h hx hn => exact .act (.assign key value h hn)
  | call method h hx => exact .act (.call method h)
  | mark h => exact .act (.touch h)
  | flush => exact .act .flush
  | depth n => exact .depth n

theorem Quiet.frame (h : Quiet e e') : e'.settings = e.settings ∧ e'.catalog = e.catalog := by
  cases h with
  | write key value h hx hn =>
    obtain ⟨hs, -, hk⟩ := (Act.assign key value h hn).frame
    exact ⟨hs, hk⟩
  | _ => exact ⟨rfl, rfl⟩

theorem undisturbed_written {e : Engine} (h : e.document.get? i = some x) (hx : x.Addressable)
    (key : String) (value : Json) : Undisturbed e (e.written i key value) where
  nextId := rfl
  elements := by
    rw [written, tell, Document.modify_eq_mapElements, Document.mapElements, List.map_map]
    apply List.map_congr_left
    intro y _
    rw [Function.comp_apply]
    split <;> rfl
  told := ⟨_, rfl, List.forall_mem_singleton.2 ⟨x, h, hx⟩⟩

theorem undisturbed_renamed {e : Engine} (hc : Coherent e) (h : e.document.get? x.id = some x)
    (hx : x.Addressable) (name : String) : Undisturbed e (e.renamed x name) where
  nextId := rfl
  elements := by
    rw [renamed, Document.modify_eq_mapElements, Document.mapElements, List.map_map]
    apply List.map_congr_left
    intro y hy
    rw [Function.comp_apply]
    split
    · rename_i hi
      have hxy : x = y := by
        have hg := hc.forest.get?_of_mem hy
        rw [hi, h] at hg
        exact Option.some.inj hg
      subst hxy
      rw [Element.fixture, Element.fixture, Element.rename, hx.2]
    · rfl
  told := (Undisturbed.refl e).told

theorem Quiet.undisturbed (h : Quiet e e') (hc : Coherent e) : Undisturbed e e' := by
  cases h with
  | write key value h hx hn =>
    rw [assigned]
    cases newName? _ key _ with
    | none => exact undisturbed_written h hx key _
    | some name =>
      have hr := undisturbed_renamed hc h hx name
      obtain ⟨y, hy, hf⟩ := hr.get? h
      exact hr.trans (undisturbed_written hy (hx.congr hf) key _)
  | call method h hx =>
    have hp : ∀ p ∈ [Patch.invokeMethod _ method], p.Addresses e.document :=
      List.forall_mem_singleton.2 ⟨_, h, hx⟩
    exact ⟨rfl, rfl, _, rfl, hp⟩
  | mark h =>
    have hf (i : ElementId) (x : Element) :
        (if x.id = i then x.markDirty else x).fixture = x.fixture := by
      split <;> rfl
    exact .silent rfl (e.document.modify_eq_mapElements _ _) (hf _)
  | flush =>
    have hf (x : Element) : (refresh e.catalog x).fixture = x.fixture := by
      rw [refresh]
      split <;> rfl
    exact .silent rfl rfl hf
  | depth n => exact .silent (f := id) rfl (by simp only [Document.mapElements, List.map_id]) fun _ => rfl

/-- Names are found where they are declared, and no methods but the standard ones are known. -/
structure Standard (e : Engine) : Prop where
  coherent : Coherent e
  agrees : Agrees e
  catalog : e.catalog = .standard

theorem Standard.quiet (h : Standard e) (hs : Quiet e e') : Standard e' where
  coherent := hs.edit.coherent h.coherent
  agrees := hs.edit.agrees h.coherent h.agrees
  catalog := hs.frame.2.trans h.catalog

theorem Standard.quiets (h : Standard e) (hs : Quiets e e') : Standard e' := by
  induction hs with
  | refl => exact h
  | tail _ hs ih => exact ih.quiet hs

theorem Quiets.undisturbed (hs : Quiets e e') (h : Standard e) : Undisturbed e e' := by
  induction hs with
  | refl => exact .refl e
  | tail hq hs ih => exact ih.trans (hs.undisturbed (h.quiets hq).coherent)

theorem Quiets.settings (hs : Quiets e e') : e'.settings = e.settings := by
  induction hs with
  | refl => rfl
  | tail _ hs ih => exact hs.frame.1.trans ih

theorem quiets_leave (e : Engine) : Quiets e e.leave :=
  leave_keep (P := Quiets e) (.single (.depth _)) fun hs => hs.tail .flush

theorem Standard.find? (h : Standard e) (hf : e.find? name = some i) :
    ∃ x, e.document.get? i = some x ∧ x.Addressable := by
  rw [h.agrees.find?_eq] at hf
  obtain ⟨x, hx, hn⟩ := (h.agrees name i).1 (List.mem_of_head? hf)
  obtain ⟨hm, hd, -⟩ := holds_iff.1 hn
  exact ⟨x, hx, hm, hd⟩

end Engine

def Outcome.Calm (e : Engine) : Outcome Unit → Prop
  | .done _ e' => Engine.Quiets e e'
  | .failed error e' => Engine.Quiets e e' ∧ error.OfDispatch e.settings
  | .exhausted => True

namespace Engine

/-- The courses that dispatches of standard methods take; a nested one has a course of its own. -/
inductive Course : Engine → Engine → Prop
  | refl (e : Engine) : Course e e
  | write (key : String) (value : Json) (h : e.document.get? x.id = some x) (hx : x.Addressable)
    (hn : ∀ name, newName? x key (e.catalog.stored x.kind key value) = some name →
      x.mounted = true → e.names.check e.settings.namePolicy name x.id = .ok ()) :
    Course e (e.assigned x key (e.catalog.stored x.kind key value))
  | call (h : e.document.get? i = some x) (hx : x.Addressable) (hm : method ≠ "refresh") :
    Course e (e.tell [.invokeMethod i method])
  | refresh (h : e.document.get? i = some x) (hx : x.Addressable) :
    Course e ({ e with document := e.document.modify i (·.markDirty) }.tell
      [.invokeMethod i "refresh"])
  | emit (h : Course e.enter e') : Course e e'.leave
  | trans (h : Course e₁ e₂) (h' : Course e₂ e₃) : Course e₁ e₃

theorem Course.quiets (h : Course e e') : Quiets e e' := by
  induction h with
  | refl e => exact .refl
  | write key value h hx hn => exact .single (.write key value h hx hn)
  | call h hx hm => exact .single (.call _ h hx)
  | refresh h hx => exact .tail (.single (.call _ h hx)) (.mark h)
  | emit h ih => exact .head (.depth _) (Relation.ReflTransGen.trans ih (quiets_leave _))
  | trans h h' ih ih' => exact Relation.ReflTransGen.trans ih ih'

end Engine

def Outcome.OnCourse (e : Engine) : Outcome Unit → Prop
  | .done _ e' => Engine.Course e e'
  | .failed error e' => Engine.Course e e' ∧ error.OfDispatch e.settings
  | .exhausted => True

theorem Outcome.OnCourse.calm {o : Outcome Unit} (h : o.OnCourse e) : o.Calm e := by
  cases o with
  | done _ e' => exact Engine.Course.quiets h
  | failed error e' => exact ⟨h.1.quiets, h.2⟩
  | exhausted => trivial

namespace Engine

theorem Course.onCourse {o : Outcome Unit} (hs : Course e e') (h : o.OnCourse e') : o.OnCourse e := by
  cases o with
  | done _ e'' => exact hs.trans h
  | failed error e'' =>
    constructor
    · exact hs.trans h.1
    · rw [← hs.quiets.settings]
      exact h.2
  | exhausted => trivial

theorem onCourse_bind {x : EngineM Unit} {f : Unit → EngineM Unit} (hx : (x.run e).OnCourse e)
    (hf : ∀ e', Course e e' → ((f ()).run e').OnCourse e') : ((x >>= f).run e).OnCourse e := by
  rw [EngineM.run_bind]
  cases hr : x.run e with
  | done _ e' =>
    rw [hr] at hx
    exact Course.onCourse hx (hf e' hx)
  | failed error e' =>
    rw [hr] at hx
    exact hx
  | exhausted => trivial

theorem onCourse_forM {f : α → EngineM Unit} {xs : List α} (h : Standard e)
    (hf : ∀ a ∈ xs, ∀ e', Standard e' → ((f a).run e').OnCourse e') :
    ((xs.forM f).run e).OnCourse e := by
  induction xs generalizing e with
  | nil => exact .refl e
  | cons a rest ih =>
    obtain ⟨ha, hrest⟩ := List.forall_mem_cons.1 hf
    apply onCourse_bind (ha e h)
    intro e' hs
    exact ih (h.quiets hs.quiets) hrest

theorem onCourse_setAttribute (h : Standard e) (hx : e.document.get? i = some x) (ha : x.Addressable)
    (key : String) (value : Json) : ((setAttribute i key value).run e).OnCourse e := by
  cases Document.id_of_get? hx
  rcases run_setAttribute_live h.coherent hx key value with ⟨hr, hn⟩ | ⟨name, hr, hp, -⟩
  · rw [hr]
    exact .write key value hx ha hn
  · rw [hr]
    exact ⟨.refl e, hp⟩

/-- A way to call methods of addressable elements that takes a course from every state. -/
def Tame (call : Caller) : Prop :=
  ∀ {e i x} method, Standard e → e.document.get? i = some x → x.Addressable →
    ((call i method).run e).OnCourse e

section Calls

variable {call : Caller} (hcall : Tame call)
include hcall

theorem onCourse_applyEffects (h : Standard e) (hx : e.document.get? i = some x) (ha : x.Addressable)
    (effects : List Effect) : ((applyEffects call i effects).run e).OnCourse e := by
  induction effects generalizing e x with
  | nil => exact .refl e
  | cons effect rest ih =>
    rw [applyEffects, EngineM.run_bind_done (EngineM.run_get e),
      if_pos (Document.contains_iff.2 ⟨x, hx⟩)]
    have he : ((applyEffect call i effect).run e).OnCourse e := by
      cases effect with
      | write key value => exact onCourse_setAttribute h hx ha key value
      | call method => exact hcall method h hx ha
    apply onCourse_bind he
    intro e' hs
    obtain ⟨y, hy, hf⟩ := (hs.quiets.undisturbed h).get? hx
    exact ih (h.quiets hs.quiets) hy (ha.congr hf)

theorem onCourse_applyListener (h : Standard e) (target : Target) :
    ((applyListener call target).run e).OnCourse e := by
  rw [applyListener, EngineM.run_bind_done (EngineM.run_get e)]
  split
  · rename_i i listener hf _
    obtain ⟨x, hx, ha⟩ := h.find? hf
    rw [EngineM.run_bind_done (run_element_some hx)]
    cases hl : Effect.ofListener (x.attribute? "listeners") x.name listener with
    | error error =>
      cases Effect.eq_of_ofListener_error hl
      exact ⟨.refl e, trivial⟩
    | ok effects => exact onCourse_applyEffects hcall h hx ha effects
  · exact .refl e

theorem onCourse_emitWith (h : Standard e) (raw : String) :
    ((emitWith call raw).run e).OnCourse e := by
  rw [run_emitWith]
  split
  · exact ⟨.refl e, trivial⟩
  · have hin : Quiet e e.enter := .depth _
    have hl := onCourse_applyListener hcall (h.quiet hin) (.parse raw)
    cases hr : (applyListener call (.parse raw)).run e.enter with
    | done _ e' =>
      rw [hr] at hl
      exact .emit hl
    | failed error e' =>
      rw [hr] at hl
      exact ⟨.emit hl.1, hl.2⟩
    | exhausted => trivial

theorem onCourse_dispatchWith (h : Standard e) (hx : e.document.get? i = some x) (event : String) :
    ((dispatchWith call i event).run e).OnCourse e := by
  rw [dispatchWith, EngineM.run_bind_done (run_element_some hx)]
  apply onCourse_forM h
  intro raw _ e' h'
  exact onCourse_emitWith hcall h' raw

theorem calm_emitWith (h : Standard e) (raw : String) : ((emitWith call raw).run e).Calm e :=
  (onCourse_emitWith hcall h raw).calm

theorem calm_dispatchWith (h : Standard e) (hx : e.document.get? i = some x) (event : String) :
    ((dispatchWith call i event).run e).Calm e :=
  (onCourse_dispatchWith hcall h hx event).calm

end Calls

/-- Whether a method does as the standard methods do, all of which are about the element itself. -/
def isStandardMethod (entry : String × Script) : Bool :=
  match entry.2 with
  | [(.receiver, .markDirty)] => entry.1 == "refresh"
  | [(.receiver, .setAttribute _ _)] => entry.1 != "refresh"
  | [(.receiver, .dispatch _)] => entry.1 != "refresh"
  | _ => false

theorem standard_method_cases (h : Catalog.standard.method? kind method = some script) :
    method = "refresh" ∧ script = .single .markDirty ∨
      method ≠ "refresh" ∧ ((∃ key value, script = .single (.setAttribute key value)) ∨
        ∃ event, script = .single (.dispatch event)) := by
  have hall : ∀ profile ∈ Catalog.standard.profiles, ∀ entry ∈ profile.methods,
      isStandardMethod entry = true := by
    decide +kernel
  obtain ⟨profile, hp, hs⟩ := Option.bind_eq_some_iff.1 h
  have hentry := hall profile (List.mem_of_find?_eq_some hp) _ (OrderedMap.mem_of_lookup hs)
  rw [isStandardMethod] at hentry
  split at hentry
  · rename_i hscript
    exact .inl ⟨by simpa using hentry, hscript⟩
  · rename_i key value hscript
    exact .inr ⟨by simpa using hentry, .inl ⟨key, value, hscript⟩⟩
  · rename_i event hscript
    exact .inr ⟨by simpa using hentry, .inr ⟨event, hscript⟩⟩
  · cases hentry

theorem run_invoke_single {e : Engine} (hx : e.document.get? i = some x)
    (hm : e.catalog.method? x.kind method = some (.single action)) (fuel : Nat) :
    (invoke (fuel + 1) i method).run e =
      (perform (invoke fuel) i action).run (e.tell [.invokeMethod i method]) := by
  rw [invoke, EngineM.run_bind_done (run_element_some hx), EngineM.run_bind_done (EngineM.run_get e), hm]
  dsimp only
  rw [EngineM.run_bind_done (run_record _ e), runScript, Script.single, EngineM.forM_cons,
    EngineM.run_bind]
  dsimp only [performOn]
  cases (perform (invoke fuel) i action).run (e.tell [.invokeMethod i method]) <;> rfl

theorem tame_invoke (fuel : Nat) : Tame (invoke fuel) := by
  induction fuel with
  | zero =>
    intro e i x method _ _ _
    trivial
  | succ fuel ih =>
    intro e i x method h hx ha
    cases hm : e.catalog.method? x.kind method with
    | none =>
      rw [invoke, EngineM.run_bind_done (run_element_some hx),
        EngineM.run_bind_done (EngineM.run_get e), hm]
      exact ⟨.refl e, trivial⟩
    | some script =>
      have hcall : Quiet e (e.tell [.invokeMethod i method]) := .call method hx ha
      rcases standard_method_cases (h.catalog ▸ hm) with
        ⟨rfl, rfl⟩ | ⟨hne, ⟨key, value, rfl⟩ | ⟨event, rfl⟩⟩
      · rw [run_invoke_single hx hm, perform, run_markDirty (e := e.tell _) hx]
        exact .refresh hx ha
      · rw [run_invoke_single hx hm]
        exact (Course.call hx ha hne).onCourse (onCourse_setAttribute (h.quiet hcall) hx ha key value)
      · rw [run_invoke_single hx hm]
        exact (Course.call hx ha hne).onCourse (onCourse_dispatchWith ih (h.quiet hcall) hx event)

/-- With the standard methods, emits and events end, keep the structure, and fail in four ways only. -/
theorem standard_dispatch (h : Passed stack e) (hk : e.catalog = .standard) {operation : Operation}
    (ho : (∃ raw, operation = .emit raw) ∨
      ∃ i event, e.document.contains i = true ∧ operation = .dispatch i event) :
    ∃ outcome,
      (∀ fuel, max 1 e.settings.maxDispatchDepth < fuel → (operation.perform fuel).run e = outcome) ∧
      ((∃ e', outcome = .done () e' ∧ Undisturbed e e') ∨
        ∃ error e', outcome = .failed error e' ∧ Undisturbed e e' ∧ error.OfDispatch e.settings) := by
  obtain ⟨hl, ha⟩ := h.keep_edit lawful_true (P := Agrees) agrees_fresh
    (fun hc h hs => hs.agrees hc h) (fun _ _ h _ => h)
  have hs : Standard e := ⟨hl.coherent, ha, hk⟩
  have hl' : Level Action.Plain e.settings stack e := { hl with methods := hk ▸ Catalog.standard_plain }
  have hallowed : operation.Allowed Action.Plain := by
    rcases ho with ⟨raw, rfl⟩ | ⟨i, event, -, rfl⟩
    · trivial
    · trivial
  let fuel := max 1 e.settings.maxDispatchDepth + 1
  have hcalm : ((operation.perform fuel).run e).Calm e := by
    rcases ho with ⟨raw, rfl⟩ | ⟨i, event, hi, rfl⟩
    · exact calm_emitWith (tame_invoke fuel) hs raw
    · obtain ⟨x, hx⟩ := Document.contains_iff.1 hi
      exact calm_dispatchWith (tame_invoke fuel) hs hx event
  use (operation.perform fuel).run e
  constructor
  · intro fuel' hf
    exact (hl'.perform hallowed hf (Nat.lt_succ_self _)).1
  · have hends := (hl'.perform hallowed (Nat.lt_succ_self _) (Nat.lt_succ_self _)).2
    cases hr : (operation.perform fuel).run e with
    | done _ e' =>
      rw [hr] at hcalm
      exact .inl ⟨e', rfl, Quiets.undisturbed hcalm hs⟩
    | failed error e' =>
      rw [hr] at hcalm
      exact .inr ⟨error, e', rfl, Quiets.undisturbed hcalm.1 hs, hcalm.2⟩
    | exhausted =>
      rw [hr] at hends
      exact hends.elim

def reportedClick : Engine :=
  let click : Json := .obj [("$call", .arr [.obj [("method", .str "click")]])]
  let report : Json :=
    .obj [("value", .str "saved"), ("$call", .arr [.obj [("method", .str "print")]])]
  let save : Tree :=
    (((Tree.leaf "Button").withProp "name" (.str "save")).withProp "events"
      (.obj [("click", .str "status.report")])).withProp "listeners" (.obj [("press", click)])
  let status : Tree :=
    ((Tree.leaf "Text").withProp "name" (.str "status")).withProp "listeners" (.obj [("report", report)])
  after 0 (fresh {} .standard (fun _ => none) (some {})) [.renderAndMount save, .renderAndMount status]

theorem standard_dispatch_reportedClick :
    ∃ e', (emit 33 "save.press").run reportedClick = .failed (.methodNotFound "status" "print") e' ∧
      (dispatch 33 0 "click").run reportedClick ≠ .exhausted ∧ Undisturbed reportedClick e' := by
  have h : Passed [] reportedClick := visited_after _ _ _ _ _ _
  have hk : reportedClick.catalog = .standard := rfl
  have hlimit : max 1 reportedClick.settings.maxDispatchDepth < 33 := by decide +kernel
  have hlive : reportedClick.document.contains 0 = true := by decide +kernel
  have herror : ((emit 33 "save.press").run reportedClick).error? =
      some (.methodNotFound "status" "print") := by decide +kernel
  obtain ⟨outcome, hr, hcases⟩ := standard_dispatch h hk (.inl ⟨"save.press", rfl⟩)
  obtain ⟨outcome', hr', hcases'⟩ := standard_dispatch h hk (.inr ⟨0, "click", hlive, rfl⟩)
  obtain ⟨e', he⟩ := Outcome.error?_eq_some.1 herror
  have hdispatch : (dispatch 33 0 "click").run reportedClick = outcome' := hr' 33 hlimit
  have hemit : (emit 33 "save.press").run reportedClick = outcome := hr 33 hlimit
  use e'
  constructor
  · exact he
  constructor
  · rw [hdispatch]
    rcases hcases' with ⟨_, rfl, -⟩ | ⟨_, _, rfl, -⟩
    · nofun
    · nofun
  · rw [he] at hemit
    rcases hcases with ⟨_, rfl, -⟩ | ⟨_, _, rfl, hu, -⟩
    · cases hemit
    · cases hemit
      exact hu

end Engine

end LiveTree
