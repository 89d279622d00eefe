import LiveTree.Proofs.Engine.Visit

namespace LiveTree.Engine
set_option autoImplicit true

variable {catalog : Catalog}

theorem unknown?_eq_some (hn : nodes = before ++ node :: later)
    (hb : ∀ other ∈ before, catalog.knows other.component = true)
    (hk : catalog.knows node.component = false) : unknown? catalog nodes = some node := by
  subst hn
  induction before with
  | nil => rw [List.nil_append, unknown?_cons, hk, if_neg Bool.false_ne_true]
  | cons first rest ih =>
    obtain ⟨hfirst, hrest⟩ := List.forall_mem_cons.1 hb
    rw [List.cons_append, unknown?_cons, if_pos hfirst, ih hrest]

/-- Rendering answers a root, or it fails for the first unknown kind and nothing has changed. -/
theorem render_all_or_nothing (h : Passed stack e) (tree : Tree) :
    (∀ before node later, tree.nodes = before ++ node :: later →
      (∀ other ∈ before, e.catalog.knows other.component = true) →
      e.catalog.knows node.component = false →
        (render tree).run e = .failed (.unknownKind node.component) e ∧
        (renderAndMount tree).run e = .failed (.unknownKind node.component) e) ∧
    ((∀ node ∈ tree.nodes, e.catalog.knows node.component = true) →
      ∃ e', (render tree).run e = .done e.document.nextId e') ∧
    (checkKinds e.catalog tree = .ok () →
      ∀ placeName, ∃ e', (renderAs placeName tree).run e = .done e.document.nextId e') := by
  have hc : Coherent e := invariant_passed.coherent h
  constructor
  · intro before node later hn hb hk
    have hcheck : checkKinds e.catalog tree = .error (.unknownKind node.component) := by
      rw [checkKinds_eq, unknown?_eq_some hn hb hk]
      rfl
    exact ⟨run_render_unknown hcheck, run_renderAndMount_unknown hcheck⟩
  constructor
  · intro hk
    have hcheck := checkKinds_of_nodes tree fun node hm => Catalog.named_of_knows (hk node hm)
    obtain ⟨profile, e', -, hr, -⟩ := run_render hc hcheck
    exact ⟨e', hr⟩
  · intro hcheck placeName
    obtain ⟨e', hr, -⟩ := run_renderAs tree hc hcheck placeName
    exact ⟨e', hr⟩

def fewKinds : Engine :=
  after 0 (fresh {} ⟨[Catalog.builtin .card, Catalog.builtin .button]⟩ (fun _ => none) (some {}))
    [.renderAndMount ((Tree.leaf "Button").withProp "name" (.str "save"))]

def strangers : Tree :=
  ⟨"Card", [],
    [ ("body", [.leaf "Button", (Tree.leaf "Card").withChild "head" (.leaf "Chip")]),
      ("foot", [.leaf "Gadget"]) ]⟩

theorem render_all_or_nothing_strangers :
    strangers.nodes.map (·.component) = ["Card", "Button", "Card", "Chip", "Gadget"] ∧
      (render strangers).run fewKinds = .failed (.unknownKind "Chip") fewKinds ∧
      (renderAndMount strangers).run fewKinds = .failed (.unknownKind "Chip") fewKinds ∧
      ∃ e', (render ((Tree.leaf "Card").withChild "body" (.leaf "Button"))).run fewKinds = .done 1 e' := by
  have h : Passed [] fewKinds := visited_after _ _ _ _ _ _
  have hnext : fewKinds.document.nextId = 1 := by decide +kernel
  obtain ⟨hunknown, -⟩ := render_all_or_nothing h strangers
  obtain ⟨-, hknown, -⟩ := render_all_or_nothing h ((Tree.leaf "Card").withChild "body" (.leaf "Button"))
  have hfail := hunknown (strangers.nodes.take 3) (.leaf "Chip") [.leaf "Gadget"] rfl
    (by decide +kernel) (by decide +kernel)
  refine ⟨by decide +kernel, hfail.1, hfail.2, ?_⟩
  rw [← hnext]
  exact hknown (by decide +kernel)

end LiveTree.Engine
