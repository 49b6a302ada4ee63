import Mathlib.Data.List.Basic
import TermRules.Proofs.Sexp.RoundTrip
import TermRules.Proofs.Term.Reading

/-!
# Reading what was printed

Every term is printed as an S-expression that denotes it (`ofSexp_toSexp`), and which is nested so
little that its written form can be read (`depth_toSexp_le`). So every term reads back from its
written form: `parse_print_and_toSexp`.
-/

namespace TermRules.Term

/-! ## The S-expression of a term denotes it -/

theorem soleAtom?_text? {cls : TermClass} (payload : Payload cls) :
    soleAtom? cls (Payload.text? cls payload).toList = .ok (Payload.text? cls payload) := by
  cases cls <;> cases h : Payload.text? _ payload <;>
    simp_all [soleAtom?, takesAtom, Payload.text?, TermClass.isInstruction]

theorem payloadOf_text? {cls : TermClass} (payload : Payload cls) :
    payloadOf cls (Payload.text? cls payload) = .ok payload := by
  cases cls
  case argument =>
    cases payload with
    | none => rfl
    | some intent => simp [Payload.text?, payloadOf, Intent.read, Intent.ofName?_name]
  all_goals rfl

theorem partsOf_children (t : Term) : partsOf t.cls t.children = .ok t.node.parts := by
  rw [partsOf_of_forall fun s hs => mayContain_of_mem_children hs, children,
    Parts.ofTerms_toTerms]

/-- The items that the S-expression of a term consists of. -/
def items (t : Term) : List Item :=
  (Payload.text? t.cls t.node.payload).toList.map .atom ++
    (t.attrs.toList.map (fun attr => .attr attr.1 attr.2) ++ (t.children.map .child ++ []))

theorem assemble_items (t : Term) : assemble t.cls t.name t.items = .ok t := by
  have hatoms : t.items.filterMap Item.atom? = (Payload.text? t.cls t.node.payload).toList := by
    simp [items, Item.atom?, List.filterMap_append, List.filterMap_map, Function.comp_def]
  have hattrs : t.items.filterMap Item.attr? = t.attrs.toList := by
    simp [items, Item.attr?, List.filterMap_append, List.filterMap_map, Function.comp_def]
  have hchildren : t.items.filterMap Item.child? = t.children := by
    simp [items, Item.child?, List.filterMap_append, List.filterMap_map, Function.comp_def]
  simp only [assemble, hatoms, hattrs, hchildren, soleAtom?_text?, partsOf_children,
    SortedMap.ofList_toList]
  simp only [bind, Except.bind, payloadOf_text?]
  rfl

theorem ofSexp_toSexp (t : Term) : ofSexp t.toSexp = .ok t := by
  induction t using Term.induction with
  | step t ih =>
    have hchild : ∀ s ∈ t.children, itemOf t.cls s.toSexp = .ok (.child s) := fun s hs =>
      itemOf_child (mayContain_of_mem_children hs) (ih s hs)
    have hchildren : itemsOf t.cls (t.children.map toSexp ++ []) =
        .ok (t.children.map .child ++ []) :=
      itemsOf_map_append hchild (itemsOf_nil t.cls)
    have hattrs := itemsOf_map_append
      (fun attr (_ : attr ∈ t.attrs.toList) => itemOf_attrSexp t.cls attr.1 attr.2) hchildren
    have hitems := itemsOf_map_append
      (fun text (_ : text ∈ (Payload.text? t.cls t.node.payload).toList) =>
        itemOf_atom t.cls text) hattrs
    have hsexp := ofSexp_of_items t.name hitems
    rw [List.append_nil] at hsexp
    rw [toSexp_eq, Head.sexps, List.cons_append, List.cons_append, List.append_assoc,
      Option.toList_map]
    exact hsexp.trans (assemble_items t)

/-! ## The nesting of the S-expression of a term -/

theorem depth_le_of_mem_sexps {c : TermClass} {h : Head c} {x : Sexp} (hx : x ∈ h.sexps) :
    x.depth ≤ 1 := by
  obtain ⟨text, rfl⟩ | ⟨key, value, rfl⟩ := Head.eq_atom_or_attrSexp_of_mem_sexps hx
  · simp [Sexp.depth]
  · cases value <;> simp [attrSexp, Sexp.depth, Sexp.depthAll]

/-- Besides the lists of the nodes on a path there is at most the list of an attribute. -/
theorem depth_toSexp_le_height (t : Term) : t.toSexp.depth ≤ t.cls.height + 2 := by
  induction t using Term.induction with
  | step t ih =>
    have hmembers : Sexp.depthAll (t.head.sexps ++ t.children.map toSexp) ≤ t.cls.height + 1 := by
      rw [Sexp.depthAll_le_iff]
      intro x hx
      rcases List.mem_append.mp hx with hx | hx
      · have := depth_le_of_mem_sexps hx
        omega
      · obtain ⟨s, hs, rfl⟩ := List.mem_map.mp hx
        have := ih s hs
        have := TermClass.height_lt_of_mayContain (mayContain_of_mem_children hs)
        omega
    rw [toSexp_eq, Sexp.depth]
    omega

theorem depth_toSexp_le (t : Term) : t.toSexp.depth ≤ Sexp.maxDepth := by
  have hheight : t.cls.height ≤ 3 := by cases t.cls <;> decide
  have := depth_toSexp_le_height t
  have : 3 + 2 ≤ Sexp.maxDepth := by decide
  omega

/-- **Reading what was printed.** Every term reads back from its written form. In particular its
S-expression denotes it, and no term is nested too deep to be read. -/
theorem parse_print_and_toSexp (t : Term) :
    parse t.print = .ok t ∧ ofSexp t.toSexp = .ok t ∧ t.toSexp.depth ≤ Sexp.maxDepth := by
  refine ⟨?_, ofSexp_toSexp t, depth_toSexp_le t⟩
  rw [parse, print, Sexp.parse_print_of_depth_le (depth_toSexp_le t), ofItem, ofSexp_toSexp]

end TermRules.Term
