import LiveTree.Proofs.Engine.IdleDispatch
import LiveTree.Proofs.Engine.StandardDispatch
import LiveTree.Proofs.Engine.UniqueNames

namespace LiveTree
set_option autoImplicit true

namespace Effect

def ownWrite? : String → Option (String × Json)
  | "show" => some ("hidden", .bool false)
  | "hide" => some ("hidden", .bool true)
  | "dismiss" => some ("hidden", .bool true)
  | "clear" => some ("value", .str "")
  | _ => none

/-- What an effect writes to an element of a kind, in the form in which it is kept. -/
def writes (kind : Kind) : Effect → List (String × Json)
  | .write key value => [(key, Catalog.standard.stored kind key value)]
  | .call method => (ownWrite? method).toList

def patches (x : Element) : Effect → List Patch
  | .write key value => [.setAttribute x.id key (Catalog.standard.stored x.kind key value)]
  | .call method =>
    .invokeMethod x.id method ::
      (ownWrite? method).toList.map fun entry => .setAttribute x.id entry.1 entry.2

/-- Why an effect on an element fails, where some names are taken by others. -/
def failure? (taken : String → Bool) (x : Element) : Effect → Option Error
  | .write key value =>
    if key = "name" then
      ((Attribute.text? (Catalog.standard.stored x.kind key value)).filter taken).map .duplicateName
    else none
  | .call method =>
    if (Catalog.standard.method? x.kind method).isSome then none
    else some (.methodNotFound x.name method)

end Effect

namespace Element

def nameAfter (name : String) (writes : List (String × Json)) : String :=
  writes.foldl
    (fun name entry => if entry.1 = "name" then (Attribute.text? entry.2).getD name else name) name

/-- An element after effects on it. What they write is kept in their order. -/
def affected (effects : List Effect) (x : Element) : Element :=
  let writes := effects.flatMap (·.writes x.kind)
  { x with
    name := nameAfter x.name writes
    attributes := x.attributes.insertAll writes
    state := if effects.isEmpty then x.state else .dirty }

theorem affected_affected (effects rest : List Effect) (x : Element) :
    (x.affected effects).affected rest = x.affected (effects ++ rest) := by
  simp only [affected, nameAfter, OrderedMap.insertAll, List.flatMap_append, List.foldl_append]
  cases effects <;> cases rest <;> rfl

theorem affected_congr {x : Element} {effect effect' : Effect}
    (h : effect.writes x.kind = effect'.writes x.kind) :
    x.affected [effect] = x.affected [effect'] := by
  simp only [affected, List.flatMap_singleton, h]
  rfl

end Element

/-- The effects on an element up to the first that fails, and why that one does. -/
def Effect.upToFailure (taken : String → Bool) : Element → List Effect → List Effect × Option Error
  | _, [] => ([], none)
  | x, effect :: rest =>
    match effect.failure? taken x with
    | some error => ([], some error)
    | none =>
      let (applied, error?) := upToFailure taken (x.affected [effect]) rest
      (effect :: applied, error?)

theorem Effect.upToFailure_failed (h : failure? taken x effect = some error) :
    upToFailure taken x (effect :: rest) = ([], some error) := by
  rw [upToFailure, h]

theorem Effect.upToFailure_applied (h : failure? taken x effect = none) :
    upToFailure taken x (effect :: rest) =
      (effect :: (upToFailure taken (x.affected [effect]) rest).1,
        (upToFailure taken (x.affected [effect]) rest).2) := by
  rw [upToFailure, h]

def Outcome.ending (error? : Option Error) (e : Engine) : Outcome Unit :=
  match error? with
  | none => .done () e
  | some error => .failed error e

namespace Effect

def ownAction (method : String) : Action :=
  match ownWrite? method with
  | some entry => .setAttribute entry.1 entry.2
  | none => .markDirty

theorem of_mem_methods_builtin (h : entry ∈ (Catalog.builtin kind).methods) :
    entry.1 = "click" ∨ entry.2 = .single (ownAction entry.1) := by
  have hcommon : ∀ entry ∈ Profile.commonMethods, entry.2 = .single (ownAction entry.1) := by
    simp [Profile.commonMethods, ownAction, ownWrite?]
  have hdefined (method : String) (script : Script)
      (hm : entry ∈ Profile.commonMethods.insert method script)
      (hs : method = "click" ∨ script = .single (ownAction method)) :
      entry.1 = "click" ∨ entry.2 = .single (ownAction entry.1) := by
    rcases OrderedMap.mem_of_mem_insert hm with hm | rfl
    · exact .inr (hcommon entry hm)
    · exact hs
  cases kind with
  | navLink => exact hdefined "click" _ h (.inl rfl)
  | button => exact hdefined "click" _ h (.inl rfl)
  | chip => exact hdefined "dismiss" _ h (.inr rfl)
  | inputbox => exact hdefined "clear" _ h (.inr rfl)
  | _ => exact .inr (hcommon entry h)

theorem eq_ownAction (h : Catalog.standard.method? kind method = some script) (hm : method ≠ "click") :
    script = .single (ownAction method) := by
  obtain ⟨profile, hp, hs⟩ := Option.bind_eq_some_iff.1 h
  obtain ⟨kind', -, rfl⟩ := List.mem_map.1 (List.mem_of_find?_eq_some hp)
  exact (of_mem_methods_builtin (OrderedMap.mem_of_lookup hs)).resolve_left hm

theorem key_of_ownWrite? (h : ownWrite? method = some entry) :
    entry.1 = "hidden" ∨ entry.1 = "value" := by
  unfold ownWrite? at h
  split at h <;> cases h <;> simp

theorem stored_own (h : ownWrite? method = some entry) (kind : Kind) :
    Catalog.standard.stored kind entry.1 entry.2 = entry.2 := by
  have hall : ∀ profile ∈ Catalog.standard.profiles,
      profile.isEncoded "hidden" = false ∧ profile.isEncoded "value" = false := by
    decide +kernel
  rw [Catalog.stored]
  split
  · rename_i profile hp
    obtain ⟨hh, hv⟩ := hall profile (List.mem_of_find?_eq_some hp)
    rcases key_of_ownWrite? h with hk | hk
    · rw [Profile.stored, hk, hh]
      rfl
    · rw [Profile.stored, hk, hv]
      rfl
  · rfl

end Effect

theorem Outcome.mapEngine_ending (error? : Option Error) (e : Engine) (f : Engine → Engine) :
    (ending error? e).mapEngine f = ending error? (f e) := by
  cases error? <;> rfl

theorem Document.modify_self (d : Document) (i : ElementId) : d.modify i (fun y => y) = d := by
  simp [modify]

namespace Engine

def taken (e : Engine) (i : ElementId) (name : String) : Bool :=
  e.settings.namePolicy = .reject && e.document.elements.any fun y => y.id != i && y.holds name

theorem check_eq_taken {e : Engine} (hc : Coherent e) (ha : Agrees e) (i : ElementId) (name : String) :
    e.names.check e.settings.namePolicy name i =
      if e.taken i name then .error (.duplicateName name) else .ok () := by
  have hany : (e.names.idsOf name).any (· != i) =
      e.document.elements.any fun y => y.id != i && y.holds name := by
    rw [Bool.eq_iff_iff, List.any_eq_true, List.any_eq_true]
    constructor
    · rintro ⟨j, hj, hne⟩
      obtain ⟨y, hy, hn⟩ := (ha name j).1 hj
      cases Document.id_of_get? hy
      exact ⟨y, Document.mem_of_get? hy, by rw [hne, hn]; rfl⟩
    · rintro ⟨y, hy, h⟩
      obtain ⟨hne, hn⟩ := Bool.and_eq_true_iff.1 h
      exact ⟨y.id, (ha name y.id).2 ⟨y, hc.forest.get?_of_mem hy, hn⟩, hne⟩
  simp only [NameIndex.check, taken, hany, Bool.and_eq_true, decide_eq_true_eq]

/-- The host was told patches, one element was changed, and besides it only the index of names. -/
structure Changes (e : Engine) (i : ElementId) (ps : List Patch) (f : Element → Element) (e' : Engine) :
    Prop where
  quiets : Quiets e e'
  state : { e' with names := e.names } = { e with document := e.document.modify i f }.tell ps

namespace Changes

variable {f g : Element → Element}

theorem document (h : Changes e i ps f e') : e'.document = e.document.modify i f :=
  congrArg Engine.document h.state

theorem taken_eq (h : Changes e i ps f e') (hf : ∀ y, (f y).id = y.id) : e'.taken i = e.taken i := by
  funext name
  rw [taken, taken, h.quiets.settings, h.document, Document.modify, List.any_map]
  congr 2
  funext y
  rw [Function.comp_apply]
  split
  · rename_i hi
    simp [hf, hi]
  · rfl

theorem refl (e : Engine) (i : ElementId) : Changes e i [] (fun y => y) e where
  quiets := .refl
  state := by rw [Document.modify_self, tell_nil]

theorem tell {e : Engine} (h : Quiet e (e.tell ps)) (i : ElementId) :
    Changes e i ps (fun y => y) (e.tell ps) where
  quiets := .single h
  state := by
    rw [Document.modify_self]
    rfl

theorem trans (h : Changes e i ps f e₁) (h' : Changes e₁ i qs g e₂) (hf : ∀ y, (f y).id = y.id) :
    Changes e i (ps ++ qs) (fun y => g (f y)) e₂ where
  quiets := Relation.ReflTransGen.trans h.quiets h'.quiets
  state := by
    calc
      { e₂ with names := e.names } =
          { ({ e₂ with names := e₁.names } : Engine) with names := e.names } := rfl
      _ = { ({ e₁ with names := e.names } : Engine) with
            document := e₁.document.modify i g }.tell qs := by
        rw [h'.state]
        rfl
      _ = _ := by
        rw [h.state, h.document, tell_append, Document.modify_modify _ hf]
        rfl

end Changes

theorem write_eq_affected {x : Element} (hd : x.declared = true) (key : String) (value : Json)
    (hv : v = Catalog.standard.stored x.kind key value) :
    rewritten x key v x = x.affected [.write key value] := by
  have hname : ((newName? x key v).elim x x.rename).name = Element.nameAfter x.name [(key, v)] := by
    simp only [newName?, Element.nameAfter, List.foldl_cons, List.foldl_nil]
    split
    · cases Attribute.text? v with
      | none => rfl
      | some name =>
        rw [Option.filter_some, hd, Bool.true_and]
        by_cases hn : x.name = name
        · simp [hn]
        · simp [hn, Element.rename]
    · rfl
  subst hv
  rw [rewritten]
  cases hn : newName? x key (Catalog.standard.stored x.kind key value) with
  | none =>
    rw [hn] at hname
    simp only [Element.affected, List.flatMap_singleton, Effect.writes, ← hname]
    rfl
  | some name =>
    rw [hn] at hname
    simp only [Element.affected, List.flatMap_singleton, Effect.writes, ← hname]
    cases x
    cases hd
    rfl

theorem text_of_newName? (h : newName? x key v = some name) : Attribute.text? v = some name := by
  rw [newName?] at h
  split at h
  · exact (Option.filter_eq_some_iff.1 h).1
  · cases h

section Steps

variable (h : Standard e) (hx : e.document.get? x.id = some x) (ha : x.Addressable)
include h hx ha

theorem changes_write (hf : (Effect.write key value).failure? (e.taken x.id) x = none) :
    ∃ e', (setAttribute x.id key value).run e = .done () e' ∧
      Changes e x.id ((Effect.write key value).patches x) (·.affected [.write key value]) e' := by
  have hn (name : String) (hs : newName? x key (e.catalog.stored x.kind key value) = some name)
      (_ : x.mounted = true) : e.names.check e.settings.namePolicy name x.id = .ok () := by
    cases key_of_newName? hs
    have ht := text_of_newName? hs
    rw [h.catalog] at ht
    rw [Effect.failure?, if_pos rfl, ht, Option.filter_some] at hf
    rw [check_eq_taken h.coherent h.agrees]
    cases htaken : e.taken x.id name with
    | false => rfl
    | true =>
      rw [htaken] at hf
      cases hf
  refine ⟨_, run_setAttribute h.coherent.names hx hn, ?_⟩
  rw [h.catalog] at hn ⊢
  have hd : (e.assigned x key (Catalog.standard.stored x.kind key value)).document =
      e.document.modify x.id (·.affected [.write key value]) := by
    rw [document_assigned]
    exact h.coherent.forest.modify_congr hx (write_eq_affected ha.2 key value rfl)
  constructor
  · have hq := Quiet.write key value hx ha (h.catalog ▸ hn)
    rw [h.catalog] at hq
    exact .single hq
  · rw [assigned_eq, hd]
    rfl

theorem run_write_failure (hex : Exclusive e)
    (hf : (Effect.write key value).failure? (e.taken x.id) x = some error) :
    (setAttribute x.id key value).run e = .failed error e := by
  rw [Effect.failure?] at hf
  split at hf
  · rename_i hk
    subst hk
    obtain ⟨name, hname, rfl⟩ := Option.map_eq_some_iff.1 hf
    obtain ⟨ht, htaken⟩ := Option.filter_eq_some_iff.1 hname
    apply run_setAttribute_clash hx _ ha.1
    · rw [check_eq_taken h.coherent h.agrees, if_pos htaken]
    · rw [taken, Bool.and_eq_true, decide_eq_true_eq, List.any_eq_true] at htaken
      obtain ⟨hp, y, hy, hyn⟩ := htaken
      obtain ⟨hne, hyn⟩ := Bool.and_eq_true_iff.1 hyn
      rw [h.catalog, newName?, if_pos rfl, ht, Option.filter_some, if_pos]
      rw [ha.2, Bool.true_and, Bool.not_eq_true', beq_eq_false_iff_ne]
      -- a write of its own name would be let pass, but no two elements share one
      intro hxn
      have hxy := hex.eq_of_holds h.coherent h.agrees hp (Document.mem_of_get? hx) hy
        (holds_iff.2 ⟨ha.1, ha.2, hxn⟩) hyn
      rw [hxy] at hne
      simp at hne
  · cases hf

theorem changes_call (hm : Catalog.standard.method? x.kind method = some script)
    (hc : method ≠ "click") :
    ∃ e', (∀ fuel, (invoke (fuel + 1) x.id method).run e = .done () e') ∧
      Changes e x.id ((Effect.call method).patches x) (·.affected [.call method]) e' := by
  have hq : Quiet e (e.tell [.invokeMethod x.id method]) := .call method hx ha
  have hrun (fuel : Nat) : (invoke (fuel + 1) x.id method).run e =
      (perform (invoke fuel) x.id (Effect.ownAction method)).run
        (e.tell [.invokeMethod x.id method]) := by
    rw [Effect.eq_ownAction hm hc, ← h.catalog] at hm
    exact run_invoke_single hx hm fuel
  simp only [hrun, Effect.ownAction, Effect.patches]
  cases how : Effect.ownWrite? method with
  | none =>
    refine ⟨_, fun _ => run_markDirty hx, .tail (.single hq) (.mark hx), ?_⟩
    have hf : (fun y : Element => y.affected [.call method]) = (·.markDirty) := by
      funext y
      simp only [Element.affected, List.flatMap_singleton, Effect.writes, how]
      rfl
    rw [hf]
    rfl
  | some entry =>
    -- the method writes as an effect would, after the host was told of the call
    have hk : (Effect.write entry.1 entry.2).failure?
        (taken (e.tell [.invokeMethod x.id method]) x.id) x = none := by
      rcases Effect.key_of_ownWrite? how with hk | hk
      · rw [hk]
        rfl
      · rw [hk]
        rfl
    obtain ⟨e', hw, hchange⟩ := changes_write (h.quiet hq) hx ha hk
    refine ⟨e', fun _ => hw, ?_⟩
    have hf : (fun y : Element => y.affected [.call method]) =
        fun y => y.affected [.write entry.1 entry.2] := by
      funext y
      apply Element.affected_congr
      simp only [Effect.writes, how, Effect.stored_own how]
      rfl
    have hall := (Changes.tell hq x.id).trans hchange fun _ => rfl
    rw [Effect.patches, Effect.stored_own how] at hall
    rw [hf]
    exact hall

theorem changes_effect (hf : effect.failure? (e.taken x.id) x = none)
    (hc : ∀ method, effect = .call method →
      method ≠ "click" ∨ Catalog.standard.method? x.kind method = none) :
    ∃ e', (∀ fuel, (applyEffect (invoke (fuel + 1)) x.id effect).run e = .done () e') ∧
      Changes e x.id (effect.patches x) (·.affected [effect]) e' := by
  cases effect with
  | write key value =>
    obtain ⟨e', hr, hchange⟩ := changes_write h hx ha hf
    exact ⟨e', fun _ => hr, hchange⟩
  | call method =>
    cases hm : Catalog.standard.method? x.kind method with
    | none =>
      rw [Effect.failure?, hm] at hf
      cases hf
    | some script =>
      have hne : method ≠ "click" := by
        rcases hc method rfl with hne | hnone
        · exact hne
        · rw [hm] at hnone
          cases hnone
      exact changes_call h hx ha hm hne

theorem run_failure (hex : Exclusive e) (hf : effect.failure? (e.taken x.id) x = some error)
    (fuel : Nat) : (applyEffect (invoke (fuel + 1)) x.id effect).run e = .failed error e := by
  cases effect with
  | write key value => exact run_write_failure h hx ha hex hf
  | call method =>
    rw [Effect.failure?] at hf
    split at hf
    · cases hf
    · rename_i hm
      cases hf
      rw [applyEffect, invoke, EngineM.run_bind_done (run_element_some hx),
        EngineM.run_bind_done (EngineM.run_get e), h.catalog, Option.not_isSome_iff_eq_none.1 hm]
      rfl

end Steps

theorem Exclusive.quiets (hex : Exclusive e) (hs : Quiets e e') (h : Standard e) : Exclusive e' := by
  induction hs with
  | refl => exact hex
  | tail hq hs ih => exact hs.edit.exclusive (h.quiets hq).coherent ih

/-- The effects of a list are applied one after the other, up to the first that fails. -/
theorem run_applyEffects (h : Standard e) (hex : Exclusive e) (hx : e.document.get? x.id = some x)
    (ha : x.Addressable) (hc : ∀ method, .call method ∈ effects →
      method ≠ "click" ∨ Catalog.standard.method? x.kind method = none) :
    ∃ e', (∀ fuel, (applyEffects (invoke (fuel + 1)) x.id effects).run e =
        .ending (Effect.upToFailure (e.taken x.id) x effects).2 e') ∧
      Changes e x.id ((Effect.upToFailure (e.taken x.id) x effects).1.flatMap (·.patches x))
        (·.affected (Effect.upToFailure (e.taken x.id) x effects).1) e' := by
  induction effects generalizing e x with
  | nil => exact ⟨e, fun _ => rfl, .refl e x.id⟩
  | cons effect rest ih =>
    have hlive : e.document.contains x.id = true := Document.contains_iff.2 ⟨x, hx⟩
    have hrun (call : Caller) : (applyEffects call x.id (effect :: rest)).run e =
        (applyEffect call x.id effect >>= fun _ => applyEffects call x.id rest).run e := by
      rw [applyEffects, EngineM.run_bind_done (EngineM.run_get e), if_pos hlive]
    cases hf : effect.failure? (e.taken x.id) x with
    | some error =>
      rw [Effect.upToFailure_failed hf]
      refine ⟨e, ?_, .refl e x.id⟩
      intro fuel
      rw [hrun, EngineM.run_bind_failed (run_failure h hx ha hex hf fuel)]
      rfl
    | none =>
      obtain ⟨e₁, hr₁, h₁⟩ :=
        changes_effect h hx ha hf fun method hm => hc method (hm ▸ List.mem_cons_self)
      have hx₁ : e₁.document.get? x.id = some (x.affected [effect]) := by
        rw [h₁.document]
        exact Document.get?_modify_self (f := (·.affected [effect])) (fun _ => rfl) hx
      -- the element is another one now, but its id and its kind are the same
      obtain ⟨e₂, hr₂, h₂⟩ := ih (x := x.affected [effect]) (h.quiets h₁.quiets)
        (hex.quiets h₁.quiets h) hx₁ ha fun method hm => hc method (List.mem_cons_of_mem _ hm)
      have htaken : e₁.taken (x.affected [effect]).id = e.taken x.id := h₁.taken_eq fun _ => rfl
      rw [htaken] at hr₂ h₂
      rw [Effect.upToFailure_applied hf]
      refine ⟨e₂, ?_, ?_⟩
      · intro fuel
        rw [hrun, EngineM.run_bind_done (hr₁ fuel)]
        exact hr₂ fuel
      · have hall := h₁.trans h₂ fun _ => rfl
        simp only [Element.affected_affected] at hall
        exact hall

/-- The effects on an element have come true, and nothing else has. -/
structure Served (e : Engine) (x : Element) (effects : List Effect) (e' : Engine) : Prop where
  told : e'.recorder = e.recorder.map fun r => { patches := r.patches ++ effects.flatMap (·.patches x) }
  target : e'.document.get? x.id = some (e.shown (x.affected effects))
  others : ∀ j, j ≠ x.id → e'.document.get? j = (e.document.get? j).map e.shown
  order : e'.document.elements.map (·.id) = e.document.elements.map (·.id)
  nextId : e'.document.nextId = e.document.nextId
  names : Agrees e'
  frame : { e' with document := e.document, names := e.names, recorder := e.recorder } = e

theorem Changes.served (h : Standard e) (hd : e.dispatchDepth = 0) (hx : e.document.get? x.id = some x)
    (hc : Changes e.enter x.id (effects.flatMap (·.patches x)) (·.affected effects) e₁) :
    Served e x effects e₁.leave := by
  have hdepth : e₁.dispatchDepth = 1 := (congrArg dispatchDepth hc.state).trans (congrArg (· + 1) hd)
  have hq : Quiets e e₁.leave :=
    Relation.ReflTransGen.head (.depth _) (Relation.ReflTransGen.trans hc.quiets (quiets_leave e₁))
  have hcatalog : e₁.catalog = e.catalog := (congrArg catalog hc.state :)
  have hshown : shown { e₁ with dispatchDepth := 0 } = e.shown := by
    funext y
    rw [shown, shown, hc.quiets.settings, hcatalog]
    rfl
  have hdocument : e₁.leave.document =
      (e.document.modify x.id (·.affected effects)).mapElements e.shown := by
    rw [leave_outermost hdepth, settled_eq, hshown]
    exact congrArg (Document.mapElements · e.shown) hc.document
  have hid (y : Element) : (y.affected effects).id = y.id := rfl
  constructor
  · rw [leave_outermost hdepth, settled_recorder]
    have hr := congrArg recorder hc.state
    simp only [Engine.tell, Recorder.replay_eq] at hr
    exact hr
  · rw [hdocument, Document.get?_mapElements _ e.shown_id, Document.get?_modify_self hid hx,
      Option.map_some]
  · intro j hj
    rw [hdocument, Document.get?_mapElements _ e.shown_id, Document.get?_modify_ne hid hj]
  · rw [hdocument, Document.ids_mapElements _ e.shown_id, Document.ids_modify _ hid]
  · rw [hdocument]
    rfl
  · exact (h.quiets hq).agrees
  · rw [leave_outermost hdepth, settled_eq]
    calc
      _ = { e with dispatchDepth := 0 } := congrArg (fun s : Engine =>
        { s with document := e.document, recorder := e.recorder, dispatchDepth := 0 }) hc.state
      _ = e := by rw [← hd]

/-- An outermost emit applies the effects of its listener up to the first that fails, and nothing else. -/
theorem listener_effects (h : Passed stack e) (hd : e.dispatchDepth = 0) (hk : e.catalog = .standard)
    (hx : e.elementNamed? (Target.parse raw).component = some x)
    (hl : (Target.parse raw).listener = some listener) (hdec : x.Declares listener (.obj entries))
    (hs : Effect.Spells entries effects)
    (hc : ∀ method, .call method ∈ effects →
      method ≠ "click" ∨ Catalog.standard.method? x.kind method = none) :
    ∃ e', (∀ fuel, (emit (fuel + 1) raw).run e =
        .ending (Effect.upToFailure (e.taken x.id) x effects).2 e') ∧
      Served e x (Effect.upToFailure (e.taken x.id) x effects).1 e' := by
  obtain ⟨hlevel, hex⟩ := h.keep_edit lawful_true (P := Exclusive) exclusive_fresh
    (fun hc h hs => hs.exclusive hc h) (fun _ _ h _ => h)
  have ha : Agrees e := h.agrees lawful_true
  have hstd : Standard e := ⟨hlevel.coherent, ha, hk⟩
  have hget := (elementNamed?_eq_some.1 hx).2
  obtain ⟨hm, hdecl, -⟩ := holds_iff.1 (ha.holds_of_elementNamed? hx)
  have hin : Quiet e e.enter := .depth _
  obtain ⟨e₁, hrun, hchange⟩ := run_applyEffects (hstd.quiet hin)
    (hin.edit.exclusive hlevel.coherent hex) hget ⟨hm, hdecl⟩ hc
  refine ⟨e₁.leave, ?_, hchange.served hstd hd hget⟩
  intro fuel
  have hx' : e.enter.elementNamed? (Target.parse raw).component = some x := hx
  rw [emit, run_emitWith_outermost hd, run_applyListener hx' hl, Effect.ofListener_declared hdec,
    Effect.ofDescriptor, hs.ofDescriptor?, EngineM.ofExcept_ok,
    EngineM.run_bind_done (EngineM.run_pure _ _), hrun fuel, Outcome.mapEngine_ending]
  rfl

def storeEntries : List (String × Json) :=
  [ ("css", .obj [("color", .str "red")]), ("name", .str "stored"),
    ("$call", .arr [.obj [("method", .str "hide")], .obj [("method", .str "refresh")],
      .obj [("method", .str "print")]]),
    ("label", .str "Saved") ]

def storeEffects : List Effect :=
  [ .write "css" (.obj [("color", .str "red")]), .write "name" (.str "stored"), .call "hide",
    .call "refresh", .call "print", .write "label" (.str "Saved") ]

theorem spells_store : Effect.Spells storeEntries storeEffects := by
  have hname (method : String) : Effect.NamesMethod (.obj [("method", .str method)]) method :=
    ⟨_, rfl, rfl⟩
  have hcalls := List.Forall₂.cons (hname "hide") (.cons (hname "refresh") (.cons (hname "print") .nil))
  apply Effect.Spells.write _ (by decide)
  apply Effect.Spells.write _ (by decide)
  exact .calls hcalls (.write _ (by decide) .nil)

def twoButtons : Engine :=
  let button (name : String) : Tree := (Tree.leaf "Button").withProp "name" (.str name)
  after 0 (fresh { namePolicy := .reject } .standard (fun _ => none) (some {}))
    [ .renderAndMount ((button "save").withProp "listeners" (.obj [("store", .obj storeEntries)])),
      .renderAndMount (button "load") ]

theorem listener_effects_twoButtons :
    ∃ x e', (emit 1 "save.store").run twoButtons = .failed (.methodNotFound "stored" "print") e' ∧
      twoButtons.elementNamed? "save" = some x ∧ Served twoButtons x (storeEffects.take 4) e' ∧
      e'.patches = twoButtons.patches ++
        [ .setAttribute 0 "css" (.str (Json.obj [("color", .str "red")]).text),
          .setAttribute 0 "name" (.str "stored"), .invokeMethod 0 "hide",
          .setAttribute 0 "hidden" (.bool true), .invokeMethod 0 "refresh" ] := by
  have h : Passed [] twoButtons := visited_after _ _ _ _ _ _
  have hd : twoButtons.dispatchDepth = 0 := by decide +kernel
  have hk : twoButtons.catalog = .standard := rfl
  have htext : (twoButtons.elementNamed? "save").bind
      (fun x => (x.attribute? "listeners").bind Json.str?) =
      some (Json.obj [("store", .obj storeEntries)]).text := by
    decide +kernel
  have hplace : (twoButtons.elementNamed? "save").map (fun x => (x.id, x.kind)) = some (0, .button) := by
    decide +kernel
  obtain ⟨x, hx, ht⟩ := Option.bind_eq_some_iff.1 htext
  have hdec : x.Declares "store" (.obj storeEntries) :=
    (Element.declares_text ht rfl (by decide +kernel) (by decide +kernel) (by decide +kernel)).2 rfl
  simp only [hx, Option.map_some, Option.some.injEq, Prod.mk.injEq] at hplace
  obtain ⟨hid, hkind⟩ := hplace
  have hhide : (Catalog.standard.method? .button "hide").isSome = true := by decide +kernel
  have hrefresh : (Catalog.standard.method? .button "refresh").isSome = true := by decide +kernel
  have hprint : (Catalog.standard.method? .button "print").isSome = false := by decide +kernel
  have htaken : twoButtons.taken 0 "stored" = false := by decide +kernel
  have hname : Catalog.standard.stored .button "name" (.str "stored") = .str "stored" := rfl
  have hcss : Catalog.standard.stored .button "css" (.obj [("color", .str "red")]) =
      .str (Json.obj [("color", .str "red")]).text := rfl
  have hup : Effect.upToFailure (twoButtons.taken x.id) x storeEffects =
      (storeEffects.take 4, some (.methodNotFound "stored" "print")) := by
    simp [storeEffects, Effect.upToFailure, Effect.failure?, Element.affected, Element.nameAfter,
      Effect.writes, Effect.ownWrite?, Attribute.text?, Option.filter_some, hid, hkind, htaken, hhide,
      hrefresh, hprint, hname]
  have hclick (method : String) (hm : .call method ∈ storeEffects) :
      method ≠ "click" ∨ Catalog.standard.method? x.kind method = none := by
    left
    rintro rfl
    simp [storeEffects] at hm
  have htarget : Target.parse "save.store" = ⟨"save", some "store"⟩ := by decide +kernel
  have hx' : twoButtons.elementNamed? (Target.parse "save.store").component = some x := htarget ▸ hx
  have hl : (Target.parse "save.store").listener = some "store" := by rw [htarget]
  obtain ⟨e', hrun, hserved⟩ := listener_effects h hd hk hx' hl hdec spells_store hclick
  rw [hup] at hrun hserved
  have hrecorder : twoButtons.recorder.isSome = true := by decide +kernel
  obtain ⟨r, hr⟩ := Option.isSome_iff_exists.1 hrecorder
  refine ⟨x, e', hrun 0, hx, hserved, ?_⟩
  rw [patches, hserved.told, patches, hr]
  simp [storeEffects, Effect.patches, Effect.ownWrite?, hid, hkind, hname, hcss]

end Engine

end LiveTree
