import LiveTree.Proofs.Engine.Batching
import LiveTree.Proofs.Engine.Wiring
import LiveTree.Proofs.Event.Target

namespace LiveTree
set_option autoImplicit true

def Element.address (x : Element) (listener : String) : String :=
  x.name ++ "." ++ listener

def clickCall : Json :=
  .obj [("$call", .arr [.obj [("method", .str "click")]])]

theorem Effect.ofDescriptor_clickCall (component listener : String) :
    ofDescriptor clickCall component listener = .ok [.call "click"] :=
  rfl

namespace Engine

/-- A button whose listener clicks it, and whose clicks go to that listener of the next one. -/
structure Link (e : Engine) (listener : String) (x next : Element) : Prop where
  named : e.elementNamed? x.name = some x
  plain : '.' ∉ x.name.toList
  kind : x.kind = .button
  declares : x.Declares listener clickCall
  bound : ("click", next.address listener) ∈ x.bindings

/-- Buttons in a ring: after the last one the first comes again. -/
structure Ring (e : Engine) (listener : String) (size : Nat) (button : Nat → Element) : Prop where
  plain : '.' ∉ listener.toList
  nonempty : listener ≠ ""
  positive : 0 < size
  link : ∀ i < size, Link e listener (button i) (button ((i + 1) % size))

def clicks (size : Nat) (button : Nat → Element) (places : List Nat) : List Patch :=
  places.map fun i => .invokeMethod (button (i % size)).id "click"

theorem run_click {e : Engine} (hk : e.catalog = .standard) (hx : e.document.get? x.id = some x)
    (hb : x.kind = .button) (ht : x.bindings.targets "click" = [target]) (fuel : Nat) :
    (invoke (fuel + 1) x.id "click").run e =
      (emitWith (invoke fuel) target).run (e.tell [.invokeMethod x.id "click"]) := by
  have hm : e.catalog.method? x.kind "click" = some (.single (.dispatch "click")) := by
    rw [hk, hb]
    rfl
  rw [invoke, EngineM.run_bind_done (run_element_some hx), EngineM.run_bind_done (EngineM.run_get e), hm]
  dsimp only
  rw [EngineM.run_bind_done (run_record _ e), runScript, Script.single, EngineM.run_forM_singleton]
  exact run_dispatchWith_bound (e := e.tell [.invokeMethod x.id "click"]) hx ht (invoke fuel)

theorem leave_told_nested {e : Engine} (hd : 0 < e.dispatchDepth) (ps : List Patch) :
    (e.enter.tell ps).leave = e.tell ps :=
  leave_nested (Nat.succ_lt_succ hd)

theorem leave_told_outermost {e : Engine} (hd : e.dispatchDepth = 0) (ps : List Patch) :
    (e.enter.tell ps).leave = (e.tell ps).settled := by
  have hd' : (e.tell ps).dispatchDepth = 0 := hd
  rw [← leave_enter hd']
  rfl

namespace Ring

variable {button : Nat → Element}

theorem at_place (h : Ring e listener size button) (i : Nat) :
    Link e listener (button (i % size)) (button ((i + 1) % size)) := by
  have hl := h.link (i % size) (Nat.mod_lt i h.positive)
  rwa [Nat.mod_add_mod] at hl

theorem congr {e e' : Engine} (h : Ring e listener size button) (hd : e'.document = e.document)
    (hn : e'.names = e.names) : Ring e' listener size button := by
  have hnamed (name : String) : e'.elementNamed? name = e.elementNamed? name := by
    rw [elementNamed?, elementNamed?, find?, find?, hd, hn]
  refine { h with link := fun i hi => ?_ }
  have hl := h.link i hi
  exact { hl with named := (hnamed _).trans hl.named }

theorem run_applyListener (h : Ring e listener size button) (i : Nat) (call : Caller) :
    (applyListener call (.parse ((button (i % size)).address listener))).run e =
      (call (button (i % size)).id "click").run e := by
  have hl := h.at_place i
  have htarget : Target.parse ((button (i % size)).address listener) =
      ⟨(button (i % size)).name, some listener⟩ :=
    Target.parse_dotted hl.plain h.plain h.nonempty
  have hget := (elementNamed?_eq_some.1 hl.named).2
  have hlive : e.document.contains (button (i % size)).id = true := Document.contains_iff.2 ⟨_, hget⟩
  rw [htarget, Engine.run_applyListener hl.named rfl, Effect.ofListener_declared hl.declares,
    Effect.ofDescriptor_clickCall, EngineM.ofExcept_ok, EngineM.run_bind_done (EngineM.run_pure _ e),
    applyEffects, EngineM.run_bind_done (EngineM.run_get e), if_pos hlive]
  exact EngineM.run_bind_pure _ e

/-- Inside a dispatch, a click goes round while there is room, and then the next emit is refused. -/
theorem run_invoke (h : Ring e listener size button) (hk : e.catalog = .standard)
    (hn : ∀ i, (OrderedMap.keys (button (i % size)).bindings).Nodup) (hpos : 0 < e.dispatchDepth)
    (hroom : e.dispatchDepth + room = max 1 e.settings.maxDispatchDepth) (hf : room < fuel) (i : Nat) :
    (invoke fuel (button (i % size)).id "click").run e =
      .failed
        (.depthExceeded ((button ((i + room + 1) % size)).address listener) e.settings.maxDispatchDepth)
        (e.tell (clicks size button (List.range' i (room + 1)))) := by
  induction room generalizing e i fuel with
  | zero =>
    obtain ⟨fuel, rfl⟩ := Nat.exists_eq_add_one.2 hf
    have hl := h.at_place i
    have hget := (elementNamed?_eq_some.1 hl.named).2
    have hlimit : (e.tell [.invokeMethod (button (i % size)).id "click"]).atLimit = true := by
      have hle : e.settings.maxDispatchDepth ≤ e.dispatchDepth := by omega
      exact Bool.and_eq_true_iff.2 ⟨decide_eq_true hpos, decide_eq_true hle⟩
    rw [run_click hk hget hl.kind (Bindings.targets_of_mem (hn i) hl.bound), run_emitWith_atLimit hlimit]
    rfl
  | succ room ih =>
    obtain ⟨fuel, rfl⟩ := Nat.exists_eq_add_one.2 (Nat.zero_lt_of_lt hf)
    have hl := h.at_place i
    have hget := (elementNamed?_eq_some.1 hl.named).2
    let told := e.tell [.invokeMethod (button (i % size)).id "click"]
    have htold : 0 < told.dispatchDepth := hpos
    have hlimit : told.atLimit = false := by
      have hlt : ¬e.settings.maxDispatchDepth ≤ e.dispatchDepth := by omega
      exact Bool.and_eq_false_iff.2 (.inr (decide_eq_false hlt))
    -- the next button is clicked with one more dispatch in flight
    have hinner : Ring told.enter listener size button := h.congr rfl rfl
    have hroom' : e.dispatchDepth + 1 + room = max 1 e.settings.maxDispatchDepth := by omega
    have hrest := ih hinner hk (Nat.succ_pos _) hroom' (Nat.lt_of_succ_lt_succ hf) (i + 1)
    have hplace : i + 1 + room + 1 = i + (room + 1) + 1 := by omega
    have hclicks : clicks size button (List.range' i (room + 1 + 1)) =
        [.invokeMethod (button (i % size)).id "click"] ++
          clicks size button (List.range' (i + 1) (room + 1)) :=
      rfl
    rw [run_click hk hget hl.kind (Bindings.targets_of_mem (hn i) hl.bound), run_emitWith, hlimit,
      if_neg Bool.false_ne_true, hinner.run_applyListener, hrest, Outcome.mapEngine,
      leave_told_nested htold, hplace, hclicks, tell_append]
    rfl

theorem run_emit (h : Ring e listener size button) (hk : e.catalog = .standard)
    (hn : ∀ i, (OrderedMap.keys (button (i % size)).bindings).Nodup) (hd : e.dispatchDepth = 0)
    (hf : max 1 e.settings.maxDispatchDepth ≤ fuel) :
    (emit fuel ((button 0).address listener)).run e =
      .failed
        (.depthExceeded ((button (max 1 e.settings.maxDispatchDepth % size)).address listener)
          e.settings.maxDispatchDepth)
        (e.tell (clicks size button (List.range (max 1 e.settings.maxDispatchDepth)))).settled := by
  obtain ⟨room, hroom⟩ : ∃ room, max 1 e.settings.maxDispatchDepth = room + 1 :=
    Nat.exists_eq_add_one.2 (Nat.lt_of_lt_of_le Nat.one_pos (Nat.le_max_left 1 _))
  have hinner : Ring e.enter listener size button := h.congr rfl rfl
  have hdepth : e.enter.dispatchDepth + room = max 1 e.enter.settings.maxDispatchDepth := by
    show e.dispatchDepth + 1 + room = max 1 e.settings.maxDispatchDepth
    omega
  have hrun := hinner.run_invoke hk hn (Nat.succ_pos _) hdepth (hroom ▸ hf) 0
  have hfirst := hinner.run_applyListener 0 (invoke fuel)
  rw [Nat.zero_mod] at hrun hfirst
  rw [emit, run_emitWith_outermost hd, hfirst, hrun, Outcome.mapEngine, leave_told_outermost hd, hroom,
    Nat.zero_add, List.range_eq_range']
  rfl

end Ring

theorem content_settled (e : Engine) :
    e.settled.document.elements.map (fun x => (x.id, x.name, x.declared, x.attributes)) =
      e.document.elements.map (fun x => (x.id, x.name, x.declared, x.attributes)) := by
  rw [settled_eq, Document.mapElements, List.map_map]
  apply List.map_congr_left
  intro x _
  rw [Function.comp_apply, shown]
  split
  · rw [refresh]
    split <;> rfl
  · rfl

theorem settled_names (e : Engine) : e.settled.names = e.names := by
  rw [settled_eq]

/-- An emit to a ring of buttons goes round until the limit is reached, and fails where it is refused. -/
theorem listener_ring {button : Nat → Element} (h : Passed stack e) (hd : e.dispatchDepth = 0)
    (hk : e.catalog = .standard) (hr : Ring e listener size button) :
    ∃ e', (∀ fuel, max 1 e.settings.maxDispatchDepth ≤ fuel →
        (emit fuel ((button 0).address listener)).run e =
          .failed
            (.depthExceeded ((button (max 1 e.settings.maxDispatchDepth % size)).address listener)
              e.settings.maxDispatchDepth) e') ∧
      (∀ r, e.recorder = some r → e'.patches = e.patches ++
        (List.range (max 1 e.settings.maxDispatchDepth)).map
          fun i => .invokeMethod (button (i % size)).id "click") ∧
      e'.document.elements.map (fun x => (x.id, x.name, x.declared, x.attributes)) =
        e.document.elements.map (fun x => (x.id, x.name, x.declared, x.attributes)) ∧
      e'.names = e.names ∧
      e' = (e.tell (clicks size button (List.range (max 1 e.settings.maxDispatchDepth)))).settled := by
  have hn (i : Nat) : (OrderedMap.keys (button (i % size)).bindings).Nodup := by
    have hx := (elementNamed?_eq_some.1 (hr.at_place i).named).2
    exact (h.wired lawful_true).once _ (Document.mem_of_get? hx)
  refine ⟨_, fun fuel hf => hr.run_emit hk hn hd hf, ?_, content_settled _, settled_names _, rfl⟩
  intro r hrecorder
  rw [patches, settled_recorder, tell, hrecorder, patches, hrecorder]
  exact Recorder.patches_replay r _

def clickRing (limit : Nat) : Engine :=
  let button (name next : String) : Tree := (((Tree.leaf "Button").withProp "name" (.str name)).withProp
    "listeners" (.obj [("ring", clickCall)])).withProp "events" (.obj [("click", .str (next ++ ".ring"))])
  after 0 (fresh { maxDispatchDepth := limit } .standard (fun _ => none) (some {}))
    [.renderAndMount (button "left" "right"), .renderAndMount (button "right" "left")]

theorem link_of_facts {e : Engine} {next : Element} (hx : e.elementNamed? x.name = some x)
    (hp : '.' ∉ x.name.toList) (hk : x.kind = .button) (ht : next.address "ring" = target)
    (hb : x.bindings = [("click", target)])
    (hl : (x.attribute? "listeners").bind Json.str? = some (Json.obj [("ring", clickCall)]).text) :
    Link e "ring" x next := by
  refine ⟨hx, hp, hk, ?_, ?_⟩
  · exact (Element.declares_text hl rfl (by decide +kernel) (by decide +kernel) (by decide +kernel)).2 rfl
  · rw [ht, hb]
    exact List.mem_singleton_self _

theorem ring_of_two {e : Engine} (hl : (e.elementNamed? "left").map
      (fun x => (x.id, x.name, x.kind, x.bindings)) = some (0, "left", .button, [("click", "right.ring")]))
    (hr : (e.elementNamed? "right").map
      (fun x => (x.id, x.name, x.kind, x.bindings)) = some (1, "right", .button, [("click", "left.ring")]))
    (ht : ∀ name ∈ ["left", "right"], (e.elementNamed? name).bind
      (fun x => (x.attribute? "listeners").bind Json.str?) =
        some (Json.obj [("ring", clickCall)]).text) :
    ∃ button : Nat → Element, Ring e "ring" 2 button ∧
      (button 0).id = 0 ∧ (button 0).address "ring" = "left.ring" ∧
      (button 1).id = 1 ∧ (button 1).address "ring" = "right.ring" := by
  obtain ⟨x, hx, hxf⟩ := Option.map_eq_some_iff.1 hl
  obtain ⟨y, hy, hyf⟩ := Option.map_eq_some_iff.1 hr
  simp only [Prod.mk.injEq] at hxf hyf
  obtain ⟨hxi, hxn, hxk, hxb⟩ := hxf
  obtain ⟨hyi, hyn, hyk, hyb⟩ := hyf
  have hxa : x.address "ring" = "left.ring" := by
    rw [Element.address, hxn]
    decide
  have hya : y.address "ring" = "right.ring" := by
    rw [Element.address, hyn]
    decide
  have hxt := ht "left" (by decide)
  have hyt := ht "right" (by decide)
  rw [hx, Option.bind_some] at hxt
  rw [hy, Option.bind_some] at hyt
  refine ⟨fun i => if i = 0 then x else y, ?_, hxi, hxa, hyi, hya⟩
  refine ⟨by decide, by decide, Nat.two_pos, ?_⟩
  intro i hi
  rcases Nat.le_one_iff_eq_zero_or_eq_one.1 (Nat.le_of_lt_succ hi) with rfl | rfl
  · exact link_of_facts (hxn ▸ hx) (hxn ▸ by decide) hxk hya hxb hxt
  · exact link_of_facts (hyn ▸ hy) (hyn ▸ by decide) hyk hxa hyb hyt

theorem listener_ring_clickRing :
    (∃ e', (∀ fuel, 5 ≤ fuel →
        (emit fuel "left.ring").run (clickRing 5) = .failed (.depthExceeded "right.ring" 5) e') ∧
      e'.patches = (clickRing 5).patches ++ [.invokeMethod 0 "click", .invokeMethod 1 "click",
        .invokeMethod 0 "click", .invokeMethod 1 "click", .invokeMethod 0 "click"]) ∧
    ∃ e', (∀ fuel, 1 ≤ fuel →
        (emit fuel "left.ring").run (clickRing 0) = .failed (.depthExceeded "right.ring" 0) e') ∧
      e'.patches = (clickRing 0).patches ++ [.invokeMethod 0 "click"] := by
  have hround (limit : Nat) (hk : (clickRing limit).catalog = .standard)
      (hd : (clickRing limit).dispatchDepth = 0)
      (hlimit : (clickRing limit).settings.maxDispatchDepth = limit)
      (hrecorder : (clickRing limit).recorder.isSome = true) (hodd : max 1 limit % 2 = 1)
      (hring : ∃ button : Nat → Element, Ring (clickRing limit) "ring" 2 button ∧
        (button 0).id = 0 ∧ (button 0).address "ring" = "left.ring" ∧
        (button 1).id = 1 ∧ (button 1).address "ring" = "right.ring") :
      ∃ e', (∀ fuel, max 1 limit ≤ fuel → (emit fuel "left.ring").run (clickRing limit) =
          .failed (.depthExceeded "right.ring" limit) e') ∧
        e'.patches = (clickRing limit).patches ++
          (List.range (max 1 limit)).map fun i => .invokeMethod (i % 2) "click" := by
    obtain ⟨button, hring, hi, ha, hi', ha'⟩ := hring
    obtain ⟨r, hr⟩ := Option.isSome_iff_exists.1 hrecorder
    have hid (i : Nat) : (button (i % 2)).id = i % 2 := by
      rcases Nat.mod_two_eq_zero_or_one i with h | h
      · rw [h, hi]
      · rw [h, hi']
    have h : Passed [] (clickRing limit) := visited_after _ _ _ _ _ _
    obtain ⟨e', hrun, hpatches, -⟩ := listener_ring h hd hk hring
    rw [hlimit, hodd, ha, ha'] at hrun
    refine ⟨e', hrun, ?_⟩
    rw [hpatches r hr, hlimit]
    simp only [hid]
  constructor
  · exact hround 5 rfl (by decide +kernel) (by decide +kernel) (by decide +kernel) rfl
      (ring_of_two (by decide +kernel) (by decide +kernel) (by decide +kernel))
  · exact hround 0 rfl (by decide +kernel) (by decide +kernel) (by decide +kernel) rfl
      (ring_of_two (by decide +kernel) (by decide +kernel) (by decide +kernel))

end Engine

end LiveTree
