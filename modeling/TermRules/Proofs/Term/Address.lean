import TermRules.Term.Walk

/-!
# Addresses in trees

The address of a node is the list of the numbers of children on the way to it from the root, so
that its length is the number of ancestors. `Term.subterm?` is the term at an address, and
`Term.addresses` lists all addresses in a tree.

The addresses stand in the order of the words in a dictionary (`pairwise_addresses`), each address
of a node is among them (`mem_addresses_iff`), and the walk over a tree meets the terms at the
addresses in this order (`map_walk_eq_addresses`).
-/

namespace TermRules

/-- The number of ancestors, counted from a child or from its parent. -/
theorem Visit.depth_enter_add_length (v : Visit) (i : Nat) (p : List Nat) :
    v.enter.depth + p.length = v.depth + (i :: p).length := by
  simp only [Visit.enter, List.length_cons]
  omega

namespace Term

/-- What a term has at its root: its class and what the root has of its own. -/
def label (t : Term) : (c : TermClass) × Head c := ⟨t.cls, t.head⟩

/-- The term at an address. -/
def subterm? (t : Term) : List Nat → Option Term
  | [] => some t
  | i :: p => t.children[i]?.bind fun s => s.subterm? p

/-- The addresses in a tree. -/
def addresses (t : Term) : List (List Nat) :=
  [] :: t.children.zipIdx.attach.flatMap fun e => e.1.1.addresses.map (e.1.2 :: ·)
termination_by t.cls.height
decreasing_by
  exact TermClass.height_lt_of_mayContain
    (mayContain_of_mem_children (List.fst_mem_of_mem_zipIdx e.2))

@[simp]
theorem subterm?_nil (t : Term) : t.subterm? [] = some t := rfl

theorem subterm?_cons (t : Term) (i : Nat) (p : List Nat) :
    t.subterm? (i :: p) = t.children[i]?.bind fun s => s.subterm? p := rfl

theorem subterm?_of_mem_zipIdx {t : Term} {e : Term × Nat} (h : e ∈ t.children.zipIdx)
    (p : List Nat) : t.subterm? (e.2 :: p) = e.1.subterm? p := by
  rw [subterm?_cons, List.mem_zipIdx_iff_getElem?.mp h, Option.bind_some]

theorem addresses_eq (t : Term) :
    t.addresses = [] :: t.children.zipIdx.flatMap fun e => e.1.addresses.map (e.2 :: ·) := by
  rw [addresses]
  have h := List.flatMap_map Subtype.val (fun e : Term × Nat => e.1.addresses.map (e.2 :: ·))
    t.children.zipIdx.attach
  rw [← h, List.attach_map_subtype_val]

/-- A term is determined by what its root has and by its children. -/
theorem eq_of_children {t u : Term} (hlabel : t.label = u.label)
    (hchildren : t.children = u.children) : t = u := by
  obtain ⟨c, head, parts⟩ := t
  obtain ⟨d, head', parts'⟩ := u
  cases hlabel
  have hparts : parts = parts' := by
    rw [← Parts.ofTerms_toTerms c parts, ← Parts.ofTerms_toTerms c parts']
    exact congrArg (Parts.ofTerms c) hchildren
  rw [hparts]

/-- A term is determined by what its nodes have of their own. -/
theorem eq_of_labels {t u : Term}
    (h : ∀ p, (t.subterm? p).map label = (u.subterm? p).map label) : t = u := by
  induction t using Term.induction generalizing u with
  | step t ih =>
    have hchild : ∀ (i : Nat) (p : List Nat),
        (t.children[i]?.bind fun s => s.subterm? p).map label =
          (u.children[i]?.bind fun s => s.subterm? p).map label := fun i p => h (i :: p)
    refine eq_of_children (Option.some.inj (h [])) (List.ext_getElem? fun i => ?_)
    cases ht : t.children[i]? with
    | none =>
      have hi := hchild i []
      rw [ht, Option.bind_none, Option.map_none] at hi
      cases hu : u.children[i]? with
      | none => rfl
      | some s => simp [hu] at hi
    | some s =>
      have hi := hchild i
      rw [ht] at hi
      cases hu : u.children[i]? with
      | none => simpa [hu] using hi []
      | some r =>
        rw [hu] at hi
        rw [ih s (List.mem_of_getElem? ht) hi]

/-! ## The addresses of a tree -/

theorem mem_addresses_iff {t : Term} {p : List Nat} :
    p ∈ t.addresses ↔ (t.subterm? p).isSome = true := by
  induction p generalizing t with
  | nil => simp [addresses_eq t]
  | cons i p ih =>
    rw [addresses_eq, subterm?_cons]
    simp only [List.mem_cons, List.mem_flatMap, List.mem_map, reduceCtorEq, false_or,
      List.cons.injEq, Option.isSome_bind]
    constructor
    · rintro ⟨⟨s, j⟩, hs, q, hq, rfl, rfl⟩
      rw [List.mem_zipIdx_iff_getElem?.mp hs]
      exact ih.mp hq
    · intro h
      cases hs : t.children[i]? with
      | none => simp [hs] at h
      | some s =>
        rw [hs] at h
        exact ⟨(s, i), List.mem_zipIdx_iff_getElem?.mpr hs, p, ih.mpr h, rfl, rfl⟩

theorem pairwise_zipIdx {α : Type} (as : List α) :
    as.zipIdx.Pairwise fun a b => a.2 < b.2 := by
  have h : (as.zipIdx.map Prod.snd).Pairwise (· < ·) := by
    rw [List.zipIdx_map_snd]
    exact List.pairwise_lt_range'
  exact List.pairwise_map.mp h

/-- The addresses ascend: a node comes before its descendants, and the descendants of a child
before those of the next one. -/
theorem pairwise_addresses (t : Term) : t.addresses.Pairwise (· < ·) := by
  induction t using Term.induction with
  | step t ih =>
    rw [addresses_eq, List.pairwise_cons, List.pairwise_flatMap]
    refine ⟨?_, ?_, ?_⟩
    · intro p hp
      obtain ⟨e, -, he⟩ := List.mem_flatMap.mp hp
      obtain ⟨q, -, rfl⟩ := List.mem_map.mp he
      exact List.nil_lt_cons e.2 q
    · intro e he
      rw [List.pairwise_map]
      apply (ih e.1 (List.fst_mem_of_mem_zipIdx he)).imp
      intro p q hpq
      exact List.cons_lt_cons_self.mpr hpq
    · apply (pairwise_zipIdx t.children).imp
      intro d e hde p hp q hq
      obtain ⟨p, -, rfl⟩ := List.mem_map.mp hp
      obtain ⟨q, -, rfl⟩ := List.mem_map.mp hq
      exact List.cons_lt_cons_iff.mpr (.inl hde)

/-- The addresses in a tree depend on nothing but its shape. -/
theorem addresses_eq_of_isSome_eq {t u : Term}
    (h : ∀ p, (t.subterm? p).isSome = (u.subterm? p).isSome) : t.addresses = u.addresses := by
  have hnodup : ∀ s : Term, s.addresses.Nodup := by
    intro s
    apply s.pairwise_addresses.imp
    intro p q hpq heq
    exact List.lt_irrefl q (heq ▸ hpq)
  have hperm : t.addresses.Perm u.addresses := by
    rw [List.perm_ext_iff_of_nodup (hnodup t) (hnodup u)]
    intro p
    rw [mem_addresses_iff, mem_addresses_iff, h]
  refine hperm.eq_of_pairwise ?_ t.pairwise_addresses u.pairwise_addresses
  intro p q _ _ hpq hqp
  exact absurd hqp (List.lt_asymm hpq)

/-! ## The walk over a tree -/

theorem flatMap_zipIdx_fst {α β : Type} (as : List α) (f : α → List β) :
    (as.zipIdx.flatMap fun e => f e.1) = as.flatMap f := by
  have h := List.flatMap_map Prod.fst f as.zipIdx
  rw [List.zipIdx_map_fst] at h
  exact h.symm

/-- The walk from the place `v` meets the terms at the addresses. -/
theorem walkFrom_eq_addresses (v : Visit) (t : Term) :
    (t.walkFrom v).map (fun e => (e.1.depth, some e.2)) =
      t.addresses.map fun p => (v.depth + p.length, t.subterm? p) := by
  induction t using Term.induction generalizing v with
  | step t ih =>
    have hchild : ∀ e ∈ t.children.zipIdx,
        (e.1.walkFrom v.enter).map (fun e => (e.1.depth, some e.2)) =
          (e.1.addresses.map (e.2 :: ·)).map fun p => (v.depth + p.length, t.subterm? p) := by
      intro e he
      rw [ih e.1 (List.fst_mem_of_mem_zipIdx he), List.map_map]
      apply List.map_congr_left
      intro p _
      rw [Function.comp_apply, subterm?_of_mem_zipIdx he, v.depth_enter_add_length e.2]
    rw [walkFrom_eq, addresses_eq, ← flatMap_zipIdx_fst, List.map_cons, List.map_cons,
      List.map_flatMap, List.map_flatMap]
    rw [List.flatMap_def, List.flatMap_def, List.map_congr_left hchild]
    rfl

theorem map_walk_eq_addresses (t : Term) : t.walk.map some = t.addresses.map t.subterm? := by
  have h := congrArg (List.map Prod.snd) (walkFrom_eq_addresses .root t)
  simpa [walk, Function.comp_def] using h

theorem size_eq_addresses (t : Term) : t.size = t.addresses.length := by
  have h := congrArg List.length (map_walk_eq_addresses t)
  simpa [size] using h

end Term

end TermRules
