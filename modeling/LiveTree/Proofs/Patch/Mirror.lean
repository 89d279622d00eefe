import LiveTree.Patch.Basic
import LiveTree.Proofs.Document.Growth
import LiveTree.Proofs.Document.Pruning

namespace LiveTree
set_option autoImplicit true

/-- What a host knows of an element. -/
structure Node where
  id : ElementId
  kind : Kind
  tag : String
  attributes : OrderedMap Json := []
  parent : Option ElementId := none
  slots : OrderedMap (List ElementId) := []

def Node.dropChild (n : Node) (child : ElementId) : Node :=
  { n with slots := n.slots.mapValues (·.filter (· != child)) }

/-- The live nodes, oldest first, and all ids that were ever created. -/
structure Mirror where
  nodes : List Node := []
  used : List ElementId := []

def Patch.createdId? : Patch → Option ElementId
  | .create id _ _ => some id
  | _ => none

namespace Mirror

def get? (m : Mirror) (id : ElementId) : Option Node :=
  m.nodes.find? (·.id = id)

def isLive (m : Mirror) (id : ElementId) : Bool :=
  m.nodes.any (·.id = id)

def modify (m : Mirror) (id : ElementId) (f : Node → Node) : Mirror :=
  { m with nodes := m.nodes.map (fun n => if n.id = id then f n else n) }

def add (m : Mirror) (n : Node) : Mirror :=
  { nodes := m.nodes ++ [n], used := m.used ++ [n.id] }

/-- Apply a patch. One that names a node that is not live, or creates an id again, cannot be applied. -/
def apply (m : Mirror) : Patch → Option Mirror
  | .create id kind tag =>
    if id ∈ m.used then none else some (m.add { id, kind, tag })
  | .setAttribute id key value =>
    if m.isLive id then
      some (m.modify id fun n => { n with attributes := n.attributes.insert key value })
    else none
  | .appendToSlot parent slot child =>
    if m.isLive parent && m.isLive child then
      some ((m.modify child ({ · with parent := some parent })).modify parent
        fun n => { n with slots := n.slots.push slot child })
    else none
  | .remove id =>
    (m.get? id).map fun n =>
      { m with
        nodes := (m.nodes.filter (·.id != id)).map fun other =>
          if n.parent = some other.id then other.dropChild id else other }
  | .invokeMethod id _ => if m.isLive id then some m else none

def replay (m : Mirror) (ps : List Patch) : Option Mirror :=
  ps.foldlM apply m

theorem replay_append (m : Mirror) (ps qs : List Patch) :
    m.replay (ps ++ qs) = (m.replay ps).bind (·.replay qs) :=
  List.foldlM_append

theorem replay_singleton (m : Mirror) (p : Patch) : m.replay [p] = m.apply p := by
  rw [replay, List.foldlM_cons]
  cases m.apply p <;> rfl

theorem replay_cons (h : apply m p = some m') (ps : List Patch) :
    m.replay (p :: ps) = m'.replay ps := by
  rw [replay, List.foldlM_cons, h]
  rfl

theorem isLive_of_modify {m : Mirror} {f : Node → Node} (h : (m.modify i f).isLive j = true)
    (hf : ∀ n, (f n).id = n.id) : m.isLive j = true := by
  simp only [isLive, modify, List.any_map, List.any_eq_true, Function.comp_apply,
    decide_eq_true_eq] at h ⊢
  obtain ⟨n, hn, hj⟩ := h
  refine ⟨n, hn, ?_⟩
  split at hj
  · exact (hf n).symm.trans hj
  · exact hj

theorem isLive_add (m : Mirror) (n : Node) (i : ElementId) :
    (m.add n).isLive i = (m.isLive i || decide (n.id = i)) := by
  simp [isLive, add]

/-- What a patch does to the ids: it creates one that is new, or it brings none to life. -/
theorem apply_ids (h : apply m p = some m') :
    m'.used = m.used ++ p.createdId?.toList ∧
      ∀ i, m'.isLive i = true → m.isLive i = true ∨ i ∉ m.used := by
  cases p with
  | create j kind tag =>
    obtain ⟨hj, h⟩ := Option.ite_none_left_eq_some.1 h
    cases h
    refine ⟨rfl, fun i hi => ?_⟩
    rw [isLive_add, Bool.or_eq_true, decide_eq_true_eq] at hi
    exact hi.imp_right fun (hi : j = i) => hi ▸ hj
  | setAttribute j key value =>
    obtain ⟨-, h⟩ := Option.ite_none_right_eq_some.1 h
    cases h
    exact ⟨(List.append_nil _).symm, fun i hi => .inl (isLive_of_modify hi fun _ => rfl)⟩
  | appendToSlot parent slot child =>
    obtain ⟨-, h⟩ := Option.ite_none_right_eq_some.1 h
    cases h
    refine ⟨(List.append_nil _).symm, fun i hi => .inl ?_⟩
    exact isLive_of_modify (isLive_of_modify hi fun _ => rfl) fun _ => rfl
  | remove j =>
    obtain ⟨n, -, h⟩ := Option.map_eq_some_iff.1 h
    cases h
    refine ⟨(List.append_nil _).symm, fun i hi => .inl ?_⟩
    simp only [isLive, List.any_map, List.any_eq_true, List.mem_filter, Function.comp_apply,
      decide_eq_true_eq] at hi ⊢
    obtain ⟨other, ⟨hm, -⟩, he⟩ := hi
    refine ⟨other, hm, ?_⟩
    split at he <;> exact he
  | invokeMethod j method =>
    obtain ⟨-, h⟩ := Option.ite_none_right_eq_some.1 h
    cases h
    exact ⟨(List.append_nil _).symm, fun i hi => .inl hi⟩

/-- A replay creates each id once, and ids that were created before it do not come back. -/
theorem replay_ids (h : replay m ps = some m') :
    m'.used = m.used ++ ps.filterMap Patch.createdId? ∧
      ∀ i, m'.isLive i = true → m.isLive i = true ∨ i ∉ m.used := by
  induction ps generalizing m with
  | nil =>
    cases h
    exact ⟨(List.append_nil _).symm, fun i hi => .inl hi⟩
  | cons p ps ih =>
    cases hp : m.apply p with
    | none =>
      rw [replay, List.foldlM_cons, hp] at h
      cases h
    | some m₁ =>
      rw [replay_cons hp] at h
      obtain ⟨hu, hl⟩ := apply_ids hp
      obtain ⟨hu', hl'⟩ := ih h
      refine ⟨?_, fun i hi => ?_⟩
      · rw [hu', hu, List.append_assoc]
        cases hc : p.createdId? <;> simp [hc]
      · rcases hl' i hi with hi | hi
        · exact hl i hi
        · exact .inr fun hm => hi (hu ▸ List.mem_append_left _ hm)

end Mirror

def Element.node (x : Element) : Node :=
  { id := x.id, kind := x.kind, tag := x.kind.tag, attributes := x.attributes, parent := x.parent
    slots := x.slots }

namespace Document

def nodes (d : Document) : List Node :=
  d.elements.map Element.node

theorem nodes_mapElements (d : Document) (hf : ∀ x, (f x).node = x.node) :
    (d.mapElements f).nodes = d.nodes := by
  rw [nodes, mapElements, List.map_map]
  exact List.map_congr_left fun x _ => hf x

theorem nodes_modify_self (d : Document) (i : ElementId) (hf : ∀ x, (f x).node = x.node) :
    (d.modify i f).nodes = d.nodes := by
  refine d.nodes_mapElements fun x => ?_
  split
  · exact hf x
  · rfl

theorem nodes_modify (d : Document) (i : ElementId) {f : Element → Element} {g : Node → Node}
    (hf : ∀ x, (f x).node = g x.node) :
    (d.modify i f).nodes = d.nodes.map (fun n => if n.id = i then g n else n) := by
  rw [nodes, modify, nodes, List.map_map, List.map_map]
  refine List.map_congr_left fun x _ => ?_
  by_cases hi : x.id = i
  · exact (congrArg Element.node (if_pos hi)).trans ((hf x).trans (if_pos (c := x.node.id = i) hi).symm)
  · exact (congrArg Element.node (if_neg hi)).trans (if_neg (c := x.node.id = i) hi).symm

end Document

/-- A mirror shows a document. -/
structure Mirror.Shows (m : Mirror) (d : Document) : Prop where
  nodes : m.nodes = d.nodes
  used : m.used = List.range d.nextId

namespace Mirror.Shows

variable {m : Mirror} {d : Document} {x : Element}

theorem isLive (h : Shows m d) (i : ElementId) : m.isLive i = d.contains i := by
  rw [Mirror.isLive, h.nodes, Document.nodes, List.any_map]
  rfl

theorem isLive_of_get? (h : Shows m d) (hx : d.get? i = some x) : m.isLive i = true :=
  (h.isLive i).trans (Document.contains_iff.2 ⟨x, hx⟩)

theorem modify (h : Shows m d) (i : ElementId) {f : Element → Element} {g : Node → Node}
    (hf : ∀ x, (f x).node = g x.node) : Shows (m.modify i g) (d.modify i f) where
  nodes := by rw [Mirror.modify, h.nodes, d.nodes_modify i hf]
  used := h.used

theorem setAttribute (h : Shows m d) (hx : d.get? i = some x) {f : Element → Element}
    (hf : ∀ x, (f x).node = { x.node with attributes := x.attributes.insert key value }) :
    ∃ m', m.apply (.setAttribute i key value) = some m' ∧ Shows m' (d.modify i f) := by
  rw [apply, if_pos (h.isLive_of_get? hx)]
  exact ⟨_, rfl, h.modify i hf⟩

theorem appendToSlot (h : Shows m d) (hp : d.get? p = some a) (hc : d.get? c = some b)
    (slot : String) :
    ∃ m', m.apply (.appendToSlot p slot c) = some m' ∧ Shows m' (d.attached p slot c) := by
  rw [apply, h.isLive_of_get? hp, h.isLive_of_get? hc]
  exact ⟨_, rfl, (h.modify c fun _ => rfl).modify p fun _ => rfl⟩

theorem invokeMethod (h : Shows m d) (hx : d.get? i = some x) (method : String) :
    m.apply (.invokeMethod i method) = some m := by
  rw [apply, if_pos (h.isLive_of_get? hx)]

theorem apply_create (h : Shows m d) (kind : Kind) (tag : String) :
    m.apply (.create d.nextId kind tag) = some (m.add { id := d.nextId, kind, tag }) := by
  rw [apply, if_neg]
  simp [h.used]

theorem add (h : Shows m d) (hx : x.id = d.nextId) : Shows (m.add x.node) (d.push x) where
  nodes := by rw [Mirror.add, h.nodes, Document.nodes, Document.nodes, Document.push, List.map_append, List.map_singleton]
  used := by rw [Mirror.add, h.used, Document.push, List.range_succ, ← hx, Element.node]

theorem setAttributes (hd : d.Forest) (h : Shows m (d.push x)) (hx : x.id = d.nextId)
    (entries : OrderedMap Json) :
    ∃ m', m.replay (entries.map fun entry => .setAttribute d.nextId entry.1 entry.2) = some m' ∧
      Shows m' (d.push { x with attributes := x.attributes.insertAll entries }) := by
  induction entries generalizing m x with
  | nil => exact ⟨m, rfl, h⟩
  | cons entry rest ih =>
    obtain ⟨m', hm, h'⟩ := h.setAttribute (hd.get?_push_self hx)
      (f := (·.setAttribute entry.1 entry.2)) fun _ => rfl
    rw [hd.modify_push hx] at h'
    rw [List.map_cons, replay_cons hm]
    exact ih h' hx

theorem create (hd : d.Forest) (h : Shows m d) (hx : x.id = d.nextId) (hp : x.parent = none)
    (hs : x.slots = []) (ha : x.attributes.keys.Nodup) :
    ∃ m', m.replay (.create d.nextId x.kind x.kind.tag ::
        x.attributes.map fun entry => .setAttribute d.nextId entry.1 entry.2) = some m' ∧
      Shows m' (d.push x) := by
  -- the host learns of the element first and of its attributes one by one
  let blank : Element := { x with attributes := [] }
  have hb : blank.node = { id := d.nextId, kind := x.kind, tag := x.kind.tag } := by
    simp [blank, Element.node, hx, hp, hs]
  obtain ⟨m', hm, h'⟩ := setAttributes hd (h.add (x := blank) hx) hx x.attributes
  have ha : { blank with attributes := blank.attributes.insertAll x.attributes } = x := by
    rw [OrderedMap.insertAll_nil ha]
  refine ⟨m', ?_, ha ▸ h'⟩
  rw [replay_cons (h.apply_create x.kind x.kind.tag), ← hb, hm]

theorem get?_without (hn : m.nodes = (d.without ids).nodes) (hx : d.get? i = some x)
    (hi : i ∉ ids) : m.get? i = some (x.dropChildren ids).node := by
  rw [Mirror.get?, hn, Document.nodes, List.find?_map]
  exact congrArg (Option.map Element.node) (Document.get?_without_of_some hx hi)

theorem node_dropChild (hd : d.Forest) (hx : d.get? i = some x) (hy : d.get? y.id = some y)
    (ids : List ElementId) :
    (if x.parent = some y.id then (y.dropChildren ids).node.dropChild i
      else (y.dropChildren ids).node) = (y.dropChildren (ids ++ [i])).node := by
  rw [← Element.dropChildren_dropChildren]
  split
  · rw [← Element.dropChild_eq]
    rfl
  · rename_i hp
    have hn : ∀ c ∈ (y.dropChildren ids).children, c ∉ [i] := by
      intro c hc hm
      cases List.mem_singleton.1 hm
      rw [Element.children_dropChildren] at hc
      obtain ⟨b, hb, hq⟩ := hd.listed hy (List.mem_filter.1 hc).1
      cases hx.symm.trans hb
      exact hp hq
    rw [Element.dropChildren_of_not_mem hn]

theorem apply_remove (hd : d.Forest) (hn : m.nodes = (d.without ids).nodes)
    (hx : d.get? i = some x) (hi : i ∉ ids) :
    m.apply (.remove i) = some { m with nodes := (d.without (ids ++ [i])).nodes } := by
  rw [apply, get?_without hn hx hi, Option.map_some, hn]
  congr 2
  simp only [Document.nodes, Document.without, List.map_map, List.filter_map, List.filter_filter]
  have hf : d.elements.filter (fun y =>
      ((fun n : Node => n.id != i) ∘ Element.node ∘ fun y => y.dropChildren ids) y && decide (y.id ∉ ids)) =
      d.elements.filter (fun y => decide (y.id ∉ ids ++ [i])) := by
    refine List.filter_congr fun y _ => ?_
    rw [Bool.eq_iff_iff]
    simp [Element.node, Element.dropChildren, and_comm]
  rw [hf]
  refine List.map_congr_left fun y hy => ?_
  exact node_dropChild hd hx (hd.get?_of_mem (List.mem_of_mem_filter hy)) ids

theorem replay_remove (hd : d.Forest) (hn : m.nodes = (d.without ids).nodes)
    (hids : (ids ++ rest).Nodup) (hrest : ∀ i ∈ rest, ∃ x, d.get? i = some x) :
    m.replay (rest.map Patch.remove) =
      some { m with nodes := (d.without (ids ++ rest)).nodes } := by
  -- `ids` are gone already; halfway through a subtree they need not be a subtree themselves
  induction rest generalizing m ids with
  | nil =>
    rw [List.append_nil, ← hn]
    rfl
  | cons i rest ih =>
    obtain ⟨⟨x, hx⟩, hrest⟩ := List.forall_mem_cons.1 hrest
    have hi : i ∉ ids := fun hm => (List.nodup_append.1 hids).2.2 i hm i List.mem_cons_self rfl
    rw [List.map_cons, replay_cons (apply_remove hd hn hx hi)]
    rw [List.append_cons ids i rest] at hids ⊢
    exact ih (m := { m with nodes := _ }) rfl hids hrest

theorem remove (hd : d.Forest) (h : Shows m d) (hx : d.get? root = some x) :
    ∃ m', m.replay ((d.preorder root).map Patch.remove) = some m' ∧
      Shows m' (d.without (d.preorder root)) := by
  have hn : m.nodes = (d.without []).nodes := d.without_nil.symm ▸ h.nodes
  refine ⟨_, replay_remove hd hn (hd.nodup_preorder hx) fun i hi => ?_, rfl, h.used⟩
  exact Document.Forest.exists_of_under hx (hd.under_of_mem_preorder hx hi)

end Mirror.Shows

end LiveTree
