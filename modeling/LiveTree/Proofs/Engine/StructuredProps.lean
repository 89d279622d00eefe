import LiveTree.Proofs.Engine.Meaning
import LiveTree.Proofs.Engine.Mirroring
import LiveTree.Proofs.Engine.Visit
import LiveTree.Proofs.Event.Listener

namespace LiveTree
set_option autoImplicit true

/-- The value behind a string form is the value that it was made of. -/
theorem Attribute.decode_encode (hr : Json.Readable Json.maxDepth v) (he : v.isExact = true)
    (hs : ∀ s, v ≠ .str s) (fallback : Json) : decode (some (encode v)) fallback = v := by
  have hcode : encode v = .str v.text := by
    cases v with
    | str s => exact (hs s rfl).elim
    | _ => rfl
  have hread : Decoder.decode Reader.value v.text = .ok v := (Reader.takes_value hr he).run
  rw [hcode, decode, parseD, Decoder.decodeD, Option.map_some, hread]

theorem Json.Readable.field? (h : Json.Readable (depth + 1) v) (hf : v.field? key = some w) :
    Json.Readable depth w := by
  cases v with
  | obj fields => exact h.2 _ (OrderedMap.mem_of_lookup hf)
  | _ => cases hf

theorem Attribute.readable_decode (raw : String) (hf : Json.Readable Json.maxDepth fallback) :
    Json.Readable Json.maxDepth (decode (some (.str raw)) fallback) := by
  rw [decode, parseD, Decoder.decodeD, Option.map_some]
  cases hd : Decoder.decode Reader.value raw with
  | ok v => exact (Reader.yields_value _).run hd
  | error fault => exact hf

namespace Effect

theorem not_write_of_ofCalls? (h : ofCalls? v = some effects) : .write key w ∉ effects := by
  intro hm
  cases v with
  | arr calls =>
    obtain ⟨call, -, hc⟩ := exists_of_mem_mapM h hm
    obtain ⟨method, -, hc⟩ := Option.bind_eq_some_iff.1 hc
    obtain ⟨name, -, hc⟩ := Option.map_eq_some_iff.1 hc
    cases hc
  | _ => cases h

theorem mem_of_ofDescriptor? (h : ofDescriptor? descriptor = some effects)
    (hm : .write key v ∈ effects) : ∃ entries, descriptor = .obj entries ∧ (key, v) ∈ entries := by
  cases descriptor with
  | obj entries =>
    obtain ⟨lists, hl, rfl⟩ := Option.map_eq_some_iff.1 h
    obtain ⟨list, hlist, hm⟩ := List.mem_flatten.1 hm
    obtain ⟨entry, he, hentry⟩ := exists_of_mem_mapM hl hlist
    rw [ofPair?] at hentry
    split at hentry
    · exact (not_write_of_ofCalls? hentry hm).elim
    · cases hentry
      cases List.mem_singleton.1 hm
      exact ⟨entries, rfl, he⟩
  | _ =>
    cases h
    cases hm

theorem readable_of_ofListener (h : ofListener (some (.str raw)) component listener = .ok effects)
    (hm : .write key v ∈ effects) : Json.Readable Json.maxDepth v := by
  have hempty : Json.Readable Json.maxDepth (.obj []) :=
    ⟨List.nodup_nil, fun _ he => (List.not_mem_nil he).elim⟩
  have hall := Attribute.readable_decode raw hempty
  rw [ofListener] at h
  split at h
  · rename_i descriptor hd
    have hread : Json.Readable (Json.maxDepth - 1) descriptor := hall.field? hd
    rw [ofDescriptor] at h
    split at h
    · rename_i found hf
      cases h
      obtain ⟨entries, rfl, hentry⟩ := mem_of_ofDescriptor? hf hm
      exact (hread.2 _ hentry).mono (by decide)
    · cases h
  · cases h
    cases hm

end Effect

namespace Engine

/-- Every structured prop that the kind keeps in string form can be had back from the element. -/
def GivesBack (catalog : Catalog) (node : Tree) (x : Element) : Prop :=
  ∃ profile, catalog.named node.component = .ok profile ∧ x.kind = profile.kind ∧
    ∀ entry ∈ node.props, profile.isEncoded entry.1 = true → (∀ s, entry.2 ≠ .str s) →
      entry.2.isExact = true →
        ∀ fallback, Attribute.decode (x.attribute? entry.1) fallback = entry.2

theorem GivesBack.of_node {catalog : Catalog} (h : GivesBack catalog node x) (hn : x'.node = x.node) :
    GivesBack catalog node x' := by
  obtain ⟨profile, hp, hkind, hprops⟩ := h
  refine ⟨profile, hp, (congrArg Node.kind hn).trans hkind, ?_⟩
  intro entry hm hcode hs he fallback
  have hattribute : x'.attribute? entry.1 = x.attribute? entry.1 :=
    congrArg (fun node : Node => node.attributes.lookup entry.1) hn
  rw [hattribute, hprops entry hm hcode hs he]

theorem Depicts.givesBack {catalog : Catalog} (h : Depicts catalog node x) (hr : node.IsRead) :
    GivesBack catalog node x := by
  obtain ⟨profile, placeName, parent, slots, hp, hx⟩ := h
  refine ⟨profile, hp, by rw [hx]; rfl, ?_⟩
  rintro ⟨key, v⟩ hm hcode hs he fallback
  have hstored : x.attribute? key = some (Attribute.encode v) := by
    rw [hx, Element.attribute?]
    dsimp only [newElement]
    rw [lookup_storedProps profile hr.1.1, (OrderedMap.lookup_eq_some_iff hr.1.1).2 hm, Option.map_some,
      Profile.stored, if_pos hcode]
  rw [hstored, Attribute.decode_encode (hr.2 _ hm) he hs]

/-- The components of a tree are elements, in preorder, and these give the structured props back. -/
def Recovers (e : Engine) (tree : Tree) (e' : Engine) : Prop :=
  ∀ (k : Nat) (node : Tree), tree.nodes[k]? = some node →
    ∃ x, e'.document.get? (e.document.nextId + k) = some x ∧ GivesBack e.catalog node x

theorem recovers_rendered {e e' : Engine} (hf : e'.document.Forest)
    (hk : checkKinds e.catalog tree = .ok ()) (hr : ∀ node ∈ tree.nodes, node.IsRead)
    (hd : e'.document.elements =
      e.document.elements ++ elementsOf e.catalog none placeName e.document.nextId tree) :
    Recovers e tree e' := by
  intro k node hnode
  have hids : (elementsOf e.catalog none placeName e.document.nextId tree).map (·.id) =
      List.range' e.document.nextId tree.size := ids_elementsOf tree hk
  have hall : List.Forall₂ (Depicts e.catalog) tree.nodes
      (elementsOf e.catalog none placeName e.document.nextId tree) := forall₂_elementsOf tree hk
  generalize elementsOf e.catalog none placeName e.document.nextId tree = added at hd hids hall
  obtain ⟨hlen, hdepicts⟩ := List.forall₂_iff_get.1 hall
  obtain ⟨hlt, rfl⟩ := List.getElem?_eq_some_iff.1 hnode
  have hlt' : k < added.length := hlen ▸ hlt
  have hid : added[k].id = e.document.nextId + k := by
    have hsize := congrArg List.length hids
    rw [List.length_map, List.length_range'] at hsize
    have hget : (added.map (·.id))[k]? = _ := congrArg (·[k]?) hids
    rw [List.getElem?_map, List.getElem?_eq_getElem hlt', List.getElem?_range' (hsize ▸ hlt')] at hget
    simpa using hget
  have hmem : added[k] ∈ e'.document.elements :=
    hd ▸ List.mem_append_right _ (List.getElem_mem hlt')
  have hback : GivesBack e.catalog tree.nodes[k] added[k] :=
    (hdepicts k hlt hlt').givesBack (hr _ (List.getElem_mem hlt))
  exact ⟨added[k], hid ▸ hf.get?_of_mem hmem, hback⟩

theorem Recovers.mounted {e e' : Engine} (h : Recovers e tree e') (root : ElementId) :
    Recovers e tree (e'.mounted root) := by
  intro k node hnode
  obtain ⟨x, hx, hback⟩ := h k node hnode
  have hsame (y : Element) :
      (if y.id ∈ e'.document.postorder root then e'.loaded y else y).node = y.node := by
    split
    · exact e'.node_loaded y
    · rfl
  have hget : (e'.mounted root).document.get? (e.document.nextId + k) =
      some (if x.id ∈ e'.document.postorder root then e'.loaded x else x) := by
    rw [Engine.mounted, get?_loadAll, hx, Option.map_some]
  exact ⟨_, hget, hback.of_node (hsame x)⟩

theorem attribute?_assigned {e : Engine} (h : e.document.get? x.id = some x) (key : String)
    (value : Json) :
    ∃ x', (e.assigned x key value).document.get? x.id = some x' ∧ x'.attribute? key = some value := by
  rw [document_assigned]
  refine ⟨_, Document.get?_modify_self (rewritten_id x key value) h, ?_⟩
  rw [attribute?_rewritten, if_pos rfl]

/-- Structured props survive their string form, mounted or not, and so does what listeners write. -/
theorem structured_props (h : Passed stack e) :
    (∀ json tree, Tree.parse json = .ok tree →
      (∀ node ∈ tree.nodes, ∃ profile, e.catalog.named node.component = .ok profile) →
      (∃ e', (render tree).run e = .done e.document.nextId e' ∧ Recovers e tree e') ∧
      ((∃ e', (renderJson json).run e = .done e.document.nextId e' ∧ Recovers e tree e') ∨
        ∃ name e', (renderJson json).run e = .failed (.duplicateName name) e' ∧
          e.settings.namePolicy = .reject)) ∧
    ∀ raw component listener effects key v,
      Effect.ofListener (some (.str raw)) component listener = .ok effects →
      .write key v ∈ effects → (∀ s, v ≠ .str s) → v.isExact = true →
      ∀ call i x profile, e.document.get? i = some x → e.catalog.get? x.kind = some profile →
        profile.isEncoded key = true →
        (∃ e' x', (applyEffect call i (.write key v)).run e = .done () e' ∧
          e'.document.get? i = some x' ∧
          ∀ fallback, Attribute.decode (x'.attribute? key) fallback = v) ∨
        ∃ name, (applyEffect call i (.write key v)).run e = .failed (.duplicateName name) e ∧
          e.settings.namePolicy = .reject ∧ key = "name" := by
  have hc : Coherent e := invariant_passed.coherent h
  constructor
  · intro json tree ht hnodes
    have hk := checkKinds_of_nodes tree hnodes
    have hread := Tree.isRead_of_parse ht
    obtain ⟨placeName, e', root, hr, hb, hd, -, hmount⟩ := run_renderAndMount hc hk
    have hback : Recovers e tree e' :=
      recovers_rendered (hb.coherent hc).forest hk hread (congrArg Document.elements hd)
    refine ⟨⟨e', hr, hback⟩, ?_⟩
    rw [renderJson, ht]
    rcases hmount with ⟨-, hrun⟩ | ⟨error, hn, hrun⟩
    · exact .inl ⟨_, hrun, hback.mounted _⟩
    · obtain ⟨hp, name, rfl⟩ := checkNames_error hn
      obtain ⟨d, r, rfl⟩ := hb.frame
      exact .inr ⟨name, _, hrun, hp⟩
  · intro raw component listener effects key v hl hm hs he call i x profile hx hprofile hcode
    have hstored : e.catalog.stored x.kind key v = Attribute.encode v := by
      rw [Catalog.stored, hprofile]
      exact if_pos hcode
    cases Document.id_of_get? hx
    rcases run_setAttribute_live hc hx key v with ⟨hr, -⟩ | ⟨name, hr, hp, hkey⟩
    · obtain ⟨x', hx', hvalue⟩ := attribute?_assigned hx key (e.catalog.stored x.kind key v)
      refine .inl ⟨_, x', hr, hx', fun fallback => ?_⟩
      rw [hvalue, hstored, Attribute.decode_encode (Effect.readable_of_ofListener hl hm) he hs]
    · exact .inr ⟨name, hr, hp, hkey⟩

def quotedStyle : Json :=
  .obj [("depth", .arr [.num (.int (.ofNat 1)), .obj [("a\"b", .null)]])]

def restyling : Json :=
  .obj [("press", .obj [("css", quotedStyle)])]

def restyledCard : String :=
  "\x7b\"component\":\"Card\",\"slots\":\x7b\"body\":[\x7b\"component\":\"Button\",\"props\":\x7b\"listeners\":"
    ++ restyling.text ++ "\x7d\x7d]\x7d\x7d"

def chipped : Engine :=
  after 0 (fresh {} .standard (fun _ => none) none) [.renderAndMount (.leaf "Chip")]

theorem structured_props_restyledCard :
    (∃ e' x v, (renderJson restyledCard).run chipped = .done 1 e' ∧ e'.document.get? 2 = some x ∧
      Json.text v = restyling.text ∧
      ∀ fallback, Attribute.decode (x.attribute? "listeners") fallback = v) ∧
    ∃ effects e' x, Effect.ofListener (some (.str restyling.text)) "table" "press" = .ok effects ∧
      .write "css" quotedStyle ∈ effects ∧
      (applyEffect (fun _ _ => pure ()) 0 (.write "css" quotedStyle)).run chipped = .done () e' ∧
      e'.document.get? 0 = some x ∧
      ∀ fallback, Attribute.decode (x.attribute? "css") fallback = quotedStyle := by
  have h : Passed [] chipped := visited_after _ _ _ _ _ _
  have hpolicy : chipped.settings.namePolicy ≠ .reject := by decide +kernel
  obtain ⟨hrendered, hwritten⟩ := structured_props h
  constructor
  · have hcard : (Tree.parse restyledCard).toOption.map (fun tree =>
        (tree.nodes.all fun node => (chipped.catalog.named node.component).isOk,
          tree.nodes[1]?.bind fun node =>
            (node.props.lookup "listeners").map fun v => (v.text, v.str?, v.isExact))) =
        some (true, some (restyling.text, none, true)) := by
      decide +kernel
    have hnext : chipped.document.nextId = 1 := by decide +kernel
    cases ht : Tree.parse restyledCard with
    | error fault =>
      rw [ht] at hcard
      cases hcard
    | ok tree =>
      rw [ht] at hcard
      obtain ⟨hok, hv⟩ := Prod.mk.inj (Option.some.inj hcard)
      obtain ⟨node, hnode, hv⟩ := Option.bind_eq_some_iff.1 hv
      obtain ⟨v, hlookup, hv⟩ := Option.map_eq_some_iff.1 hv
      simp only [Prod.mk.injEq] at hv
      obtain ⟨htext, hstr, hexact⟩ := hv
      have hnodes : ∀ node ∈ tree.nodes, ∃ profile,
          chipped.catalog.named node.component = .ok profile := by
        intro node hm
        have hone := List.all_eq_true.1 hok node hm
        cases hp : chipped.catalog.named node.component with
        | ok profile => exact ⟨profile, rfl⟩
        | error error => simp [hp, Except.isOk, Except.toBool] at hone
      obtain ⟨-, ⟨e', hrun, hback⟩ | ⟨_, _, _, hreject⟩⟩ := hrendered _ _ ht hnodes
      · obtain ⟨x, hx, profile, -, -, hprops⟩ := hback 1 node hnode
        rw [hnext] at hrun hx
        refine ⟨e', x, v, hrun, hx, htext, ?_⟩
        apply hprops ("listeners", v) (OrderedMap.mem_of_lookup hlookup) rfl _ hexact
        rintro t rfl
        cases hstr
      · exact (hpolicy hreject).elim
  · have hread : Json.Readable 5 restyling := by
      simp [restyling, quotedStyle, Json.Readable, OrderedMap.keys]
    have hdecode : Attribute.decode (some (.str restyling.text)) (.obj []) = restyling :=
      Attribute.decode_encode (hread.mono (by decide)) (by decide +kernel) (fun _ hs => by cases hs) _
    have hl : Effect.ofListener (some (.str restyling.text)) "table" "press" =
        .ok [.write "css" quotedStyle] := by
      rw [Effect.ofListener, hdecode]
      rfl
    have hkind : ((chipped.document.get? 0).bind fun x => chipped.catalog.get? x.kind).isSome = true := by
      decide +kernel
    obtain ⟨profile, hkind⟩ := Option.isSome_iff_exists.1 hkind
    obtain ⟨x, hx, hprofile⟩ := Option.bind_eq_some_iff.1 hkind
    have hplain (s : String) : quotedStyle ≠ .str s := by
      intro hs
      cases hs
    rcases hwritten _ _ _ _ _ _ hl List.mem_cons_self hplain (by decide +kernel) (fun _ _ => pure ()) 0 x
      profile hx hprofile rfl with ⟨e', x', hrun, hx', hback⟩ | ⟨_, _, hreject, _⟩
    · exact ⟨_, e', x', hl, List.mem_cons_self, hrun, hx', hback⟩
    · exact (hpolicy hreject).elim

end Engine

end LiveTree
