import LiveTree.Proofs.Engine.LiveForest
import LiveTree.Proofs.Engine.Loading

namespace LiveTree
set_option autoImplicit true

namespace Bindings

theorem nodup_keys_filterMap {entries : OrderedMap Json} (h : entries.keys.Nodup) :
    (OrderedMap.keys
      (entries.filterMap fun entry => entry.2.str?.map (Prod.mk entry.1))).Nodup := by
  refine h.sublist ?_
  clear h
  induction entries with
  | nil => exact .slnil
  | cons entry rest ih =>
    rw [List.filterMap_cons]
    cases entry.2.str? with
    | none => exact ih.cons _
    | some target => exact ih.cons_cons _

theorem targets_of_not_mem {bindings : Bindings} (h : ∀ target, (event, target) ∉ bindings) :
    bindings.targets event = [] := by
  rw [targets, List.map_eq_nil_iff, List.filter_eq_nil_iff]
  rintro ⟨bound, target⟩ hb he
  cases of_decide_eq_true he
  exact h target hb

theorem targets_of_mem {bindings : Bindings} (hn : (OrderedMap.keys bindings).Nodup)
    (h : (event, target) ∈ bindings) : bindings.targets event = [target] := by
  induction bindings with
  | nil => cases h
  | cons binding rest ih =>
    obtain ⟨hb, hrest⟩ := List.nodup_cons.1 hn
    rcases List.mem_cons.1 h with rfl | h
    · have hnone : targets rest event = [] :=
        targets_of_not_mem fun _ hm => hb (List.mem_map.2 ⟨_, hm, rfl⟩)
      rw [targets, List.filter_cons, if_pos (decide_eq_true rfl), List.map_cons]
      exact congrArg _ hnone
    · have hne : ¬binding.1 = event := by
        rintro rfl
        exact hb (List.mem_map.2 ⟨_, h, rfl⟩)
      rw [targets, List.filter_cons, if_neg (mt of_decide_eq_true hne)]
      exact ih hrest h

end Bindings

namespace Engine

/-- No element binds an event twice, and none binds anything before it is mounted. -/
structure Wired (e : Engine) : Prop where
  bare : AllBare e
  once : ∀ x ∈ e.document.elements, (OrderedMap.keys x.bindings).Nodup

theorem Edit.wired (hs : Edit e e') (h : Wired e) : Wired e' where
  bare := hs.allBare h.bare
  once := by
    intro y hy
    cases hs.stems hy with
    | new hi hm hb hk =>
      rw [hb.bindings]
      exact .nil
    | kept hx ho =>
      simp only [Element.outfit, Prod.mk.injEq] at ho
      rw [ho.2.2.2.2.1]
      exact h.once _ hx
    | loaded hx hm =>
      rw [((h.bare _ hx hm).loadsTo _ _).bindings]
      exact Bindings.nodup_keys_filterMap (Element.nodup_objectAt _ _)

theorem Visited.wired {allowed : Action → Prop} {exchange : Catalog → Catalog → Prop}
    (hl : Lawful True allowed) (h : Visited allowed exchange stack e) : Wired e :=
  (h.keep_edit hl (P := Wired)
    (fun _ _ _ _ => ⟨fun _ hx _ => (List.not_mem_nil hx).elim, fun _ hx => (List.not_mem_nil hx).elim⟩)
    (fun _ h hs => hs.wired h) fun _ _ h _ => ⟨h.bare, h.once⟩).2

/-- Whoever has this id is mounted and has these bindings. Nobody new will have it. -/
structure Holds (i : ElementId) (bindings : Bindings) (e : Engine) : Prop where
  issued : i < e.document.nextId
  fixed : ∀ y, e.document.get? i = some y → y.mounted = true ∧ y.bindings = bindings

theorem Edit.holds (hs : Edit e e') (hc : Coherent e) (h : Holds i bindings e) :
    Holds i bindings e' where
  issued := hs.issued hc h.issued
  fixed := by
    intro y hy
    have hi := Document.id_of_get? hy
    cases hs.stems (Document.mem_of_get? hy) with
    | new hn hm hb hk => exact (Nat.ne_of_lt h.issued (hi.symm.trans hn)).elim
    | kept hx ho =>
      simp only [Element.outfit, Prod.mk.injEq] at ho
      obtain ⟨hid, -, hm, -, hb, -⟩ := ho
      have hx := h.fixed _ (hc.forest.get?_eq_some.2 ⟨hx, hid.symm.trans hi⟩)
      exact ⟨hm.trans hx.1, hb.trans hx.2⟩
    | loaded hx hm =>
      -- what is mounted now was mounted before, so it is not loaded
      have hx := h.fixed _ (hc.forest.get?_eq_some.2 ⟨hx, hi⟩)
      rw [hx.1] at hm
      cases hm

theorem run_dispatchWith_bound {e : Engine} (hx : e.document.get? i = some x)
    (ht : x.bindings.targets event = [target]) (call : Caller) :
    (dispatchWith call i event).run e = (emitWith call target).run e := by
  rw [dispatchWith, EngineM.run_bind_done (run_element_some hx), ht, EngineM.run_forM_singleton]

theorem run_dispatchWith_unbound {e : Engine} (hx : e.document.get? i = some x)
    (ht : x.bindings.targets event = []) (call : Caller) :
    (dispatchWith call i event).run e = .done () e := by
  rw [dispatchWith, EngineM.run_bind_done (run_element_some hx), ht]
  rfl

/-- A mounted element keeps its bindings, and an event on it is the emit of the one target that is bound. -/
theorem bindings_fixed (h : Passed stack e) :
    (∀ x ∈ e.document.elements,
      (OrderedMap.keys x.bindings).Nodup ∧ (x.mounted = false → x.bindings = [])) ∧
    (∀ i x, e.document.get? i = some x → x.mounted = true → ∀ e', Becomes e e' →
      ∀ y, e'.document.get? i = some y → y.mounted = true ∧ y.bindings = x.bindings) ∧
    (∀ i x event, e.document.get? i = some x →
      (∃ target, (event, target) ∈ x.bindings ∧
        ∀ fuel, (dispatch fuel i event).run e = (emit fuel target).run e) ∨
      (∀ target, (event, target) ∉ x.bindings) ∧
        ∀ fuel, (dispatch fuel i event).run e = .done () e) := by
  have hc : Coherent e := invariant_passed.coherent h
  have hw := h.wired lawful_true
  refine ⟨?_, ?_, ?_⟩
  · intro x hx
    exact ⟨hw.once x hx, fun hm => (hw.bare x hx hm).bindings⟩
  · intro i x hx hm e' he
    have hi : Holds i x.bindings e := by
      refine ⟨hc.forest.bounded hx, ?_⟩
      intro y hy
      rw [hx] at hy
      cases hy
      exact ⟨hm, rfl⟩
    exact (he.keep (P := Holds i x.bindings) (fun hc h hs => hs.holds hc h)
      (fun _ _ _ h => ⟨h.issued, h.fixed⟩) hc hi).2.fixed
  · intro i x event hx
    by_cases hb : ∃ target, (event, target) ∈ x.bindings
    · obtain ⟨target, ht⟩ := hb
      have hn := hw.once x (Document.mem_of_get? hx)
      exact .inl ⟨target, ht, fun fuel =>
        run_dispatchWith_bound hx (Bindings.targets_of_mem hn ht) (invoke fuel)⟩
    · rw [not_exists] at hb
      exact .inr ⟨hb, fun fuel =>
        run_dispatchWith_unbound hx (Bindings.targets_of_not_mem hb) (invoke fuel)⟩

def wiredButton : Engine :=
  let button : Tree := ((Tree.leaf "Button").withProp "name" (.str "save")).withProp "events"
    (.obj [("hover", .null), ("click", .str "card.store")])
  after 0 (fresh {} .standard (fun _ => none) none)
    [.render ((Tree.leaf "Card").withChild "body" button), .mount 1]

def otherEvents : Json :=
  .obj [("click", .str "card.drop"), ("hover", .str "card.open")]

def rewired : Engine :=
  after 0 wiredButton [.setAttribute 1 "events" otherEvents, .mount 0, .mount 1]

theorem bindings_fixed_rewired :
    ∃ y, rewired.document.get? 1 = some y ∧
      (y.attribute? "events").bind Json.str? = some otherEvents.text ∧
      y.bindings = [("click", "card.store")] ∧
      (∀ fuel, (dispatch fuel 1 "click").run rewired = (emit fuel "card.store").run rewired) ∧
      (∀ fuel, (dispatch fuel 1 "hover").run rewired = .done () rewired) ∧
      (wiredButton.document.get? 0).map (·.bindings) = some [] := by
  have h : Passed [] wiredButton := visited_after _ _ _ _ _ _
  have h' : Passed [] rewired := h.after 0 fun operation _ => operation.allowed_of_forall fun _ => trivial
  have hbutton : (wiredButton.document.get? 1).map (fun x => (x.mounted, x.bindings)) =
      some (true, [("click", "card.store")]) := by
    decide +kernel
  have hcard : (wiredButton.document.get? 0).map (·.mounted) = some false := by decide +kernel
  have hevents : (rewired.document.get? 1).bind (fun y => (y.attribute? "events").bind Json.str?) =
      some otherEvents.text := by
    decide +kernel
  obtain ⟨x, hx, hxb⟩ := Option.map_eq_some_iff.1 hbutton
  obtain ⟨card, hc, hcm⟩ := Option.map_eq_some_iff.1 hcard
  obtain ⟨y, hy, hye⟩ := Option.bind_eq_some_iff.1 hevents
  obtain ⟨hxm, hxb⟩ := Prod.mk.inj hxb
  obtain ⟨hbare, hkeep, -⟩ := bindings_fixed h
  obtain ⟨-, -, hdeliver⟩ := bindings_fixed h'
  have hyb : y.bindings = [("click", "card.store")] :=
    (hkeep 1 x hx hxm rewired (run_after _ _ _).becomes y hy).2.trans hxb
  refine ⟨y, hy, hye, hyb, ?_, ?_, ?_⟩
  · rcases hdeliver 1 y "click" hy with ⟨target, ht, hrun⟩ | ⟨hn, -⟩
    · rw [hyb] at ht
      cases List.mem_singleton.1 ht
      exact hrun
    · exact (hn "card.store" (hyb ▸ List.mem_singleton_self _)).elim
  · rcases hdeliver 1 y "hover" hy with ⟨target, ht, -⟩ | ⟨-, hrun⟩
    · simp [hyb] at ht
    · exact hrun
  · rw [hc, Option.map_some, (hbare card (Document.mem_of_get? hc)).2 hcm]

end Engine

end LiveTree
