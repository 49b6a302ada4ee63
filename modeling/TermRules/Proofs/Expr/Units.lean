import TermRules.Expr.Flatten
import TermRules.Proofs.Outcome

/-!
# The units of an S-expression

Apart from groups, an S-expression that is to stand for expressions has units (`Sexp.units`): lists
that start with an atom, and atoms outside of these. To flatten it is to read its units from left to
right, up to the first that is no expression: the loop keeps up that the groups on its stack still
stand for their units (`flattenGroups_eq`). So flattening succeeds if all units are expressions, and
otherwise it reports the first that is none (`outcome_flatten`, with `Expr.mapM_ofUnit_eq_ok_iff`
and `Expr.mapM_ofUnit_eq_error_iff`).
-/

namespace TermRules

/-! ## Units -/

namespace Sexp

mutual

/-- The units of an S-expression from left to right: lists that start with an atom, and atoms
outside of these. -/
def units : Sexp → List Sexp
  | .atom text => [.atom text]
  | .list (.atom name :: rest) => [.list (.atom name :: rest)]
  | .list members => unitsAll members

/-- The units of the members of a group. -/
def unitsAll : List Sexp → List Sexp
  | [] => []
  | x :: xs => units x ++ unitsAll xs

end

theorem unitsAll_eq (members : List Sexp) : unitsAll members = members.flatMap units := by
  induction members with
  | nil => rfl
  | cons x xs ih => rw [unitsAll, ih, List.flatMap_cons]

theorem units_group {members : List Sexp} (h : headAtom? members = none) :
    units (.list members) = members.flatMap units := by
  rw [← unitsAll_eq]
  match members, h with
  | [], _ => rfl
  | .list _ :: _, _ => rfl

theorem units_headAtom {members : List Sexp} {name : String}
    (h : headAtom? members = some name) : units (.list members) = [.list members] := by
  match members, h with
  | .atom _ :: _, _ => rfl

end Sexp

/-! ## Reading units -/

namespace Expr

/-- The expression that a unit is. -/
def ofUnit : Sexp → Except CompileError Expr
  | .atom text => .error (.shape .exprs (.atom text))
  | .list members => ofMembers members

/-- What a unit is expected to be, if it is no expression. -/
def expected : Sexp → Shape
  | .atom _ => .exprs
  | .list _ => .expr

theorem ofUnit_toSexp (e : Expr) : ofUnit e.toSexp = .ok e := by
  obtain ⟨name, arg⟩ := e
  cases arg <;> rfl

theorem ofMembers_or (members : List Sexp) :
    (∃ e : Expr, ofMembers members = .ok e ∧ .list members = e.toSexp) ∨
      ofMembers members = .error (.shape .expr (.list members)) := by
  unfold ofMembers
  split
  next name => exact .inl ⟨⟨name, none⟩, rfl, rfl⟩
  next name arg => exact .inl ⟨⟨name, some arg⟩, rfl, rfl⟩
  next => exact .inr rfl

/-- A unit is an expression or of a shape that is not expected. -/
theorem ofUnit_or (u : Sexp) :
    (∃ e : Expr, ofUnit u = .ok e ∧ u = e.toSexp) ∨
      ofUnit u = .error (.shape (expected u) u) := by
  cases u with
  | atom text => exact .inr rfl
  | list members => exact ofMembers_or members

theorem ofUnit_eq_ok_iff (u : Sexp) (e : Expr) : ofUnit u = .ok e ↔ u = e.toSexp := by
  constructor
  · intro h
    obtain ⟨d, hd, hu⟩ | hu := ofUnit_or u
    · rw [hd] at h
      cases h
      exact hu
    · rw [hu] at h
      cases h
  · rintro rfl
    exact ofUnit_toSexp e

theorem ofUnit_eq_error_iff (u : Sexp) (err : CompileError) :
    ofUnit u = .error err ↔ (∀ e : Expr, u ≠ e.toSexp) ∧ err = .shape (expected u) u := by
  constructor
  · intro h
    have hne : ∀ e : Expr, u ≠ e.toSexp := by
      rintro e rfl
      rw [ofUnit_toSexp] at h
      cases h
    obtain ⟨e, -, hu⟩ | hu := ofUnit_or u
    · exact absurd hu (hne e)
    · rw [hu] at h
      cases h
      exact ⟨hne, rfl⟩
  · rintro ⟨hne, rfl⟩
    obtain ⟨e, -, hu⟩ | hu := ofUnit_or u
    · exact absurd hu (hne e)
    · exact hu

/-- Units are all expressions if and only if they are read as such. -/
theorem mapM_ofUnit_eq_ok_iff {us : List Sexp} {es : List Expr} :
    us.mapM ofUnit = .ok es ↔ us = es.map toSexp := by
  have h : us.mapM ofUnit = .ok es ↔ us = es.map toSexp ∧ ∀ e ∈ es, True :=
    mapM_eq_ok_iff fun u e => by rw [ofUnit_eq_ok_iff, and_true]
  simpa using h

/-- The first unit that is no expression is the one that is reported. -/
theorem mapM_ofUnit_eq_error_iff {us : List Sexp} {err : CompileError} :
    us.mapM ofUnit = .error err ↔ ∃ (before : List Expr) (u : Sexp) (after : List Sexp),
      us = before.map toSexp ++ u :: after ∧ (∀ e : Expr, u ≠ e.toSexp) ∧
        err = .shape (expected u) u := by
  rw [mapM_eq_error_iff]
  constructor
  · rintro ⟨before, u, after, rfl, hbefore, hu⟩
    obtain ⟨es, hes⟩ := exists_mapM_eq_ok_iff.mpr hbefore
    exact ⟨es, u, after, by rw [mapM_ofUnit_eq_ok_iff.mp hes], (ofUnit_eq_error_iff u err).mp hu⟩
  · rintro ⟨before, u, after, rfl, hu⟩
    have hbefore : (before.map toSexp).mapM ofUnit = .ok before := mapM_ofUnit_eq_ok_iff.mpr rfl
    exact ⟨before.map toSexp, u, after, rfl, exists_mapM_eq_ok_iff.mp ⟨before, hbefore⟩,
      (ofUnit_eq_error_iff u err).mpr hu⟩

end Expr

/-! ## Flattenings one after the other -/

namespace Flattening

/-- All expressions, or the reason why an S-expression is ill-shaped. -/
def outcome (flat : Flattening) : Except CompileError (List Expr) :=
  match flat.fault with
  | some fault => .error fault
  | none => .ok flat.exprs.toList

/-- No expressions. -/
def nothing : Flattening := ⟨#[], none⟩

/-- One expression, or the fault that stands in its place. -/
def ofExpr : Except CompileError Expr → Flattening
  | .ok e => ⟨#[e], none⟩
  | .error fault => ⟨#[], some fault⟩

/-- The expressions of two parts, one after the other. Nothing follows a fault. -/
def andThen (f g : Flattening) : Flattening :=
  match f.fault with
  | none => ⟨f.exprs ++ g.exprs, g.fault⟩
  | some _ => f

@[simp]
theorem ofExpr_ok (e : Expr) : ofExpr (.ok e) = ⟨#[e], none⟩ := rfl

@[simp]
theorem ofExpr_error (fault : CompileError) : ofExpr (.error fault) = ⟨#[], some fault⟩ := rfl

@[simp]
theorem mk_none_andThen (found : Array Expr) (g : Flattening) :
    andThen ⟨found, none⟩ g = ⟨found ++ g.exprs, g.fault⟩ := rfl

@[simp]
theorem mk_some_andThen (found : Array Expr) (fault : CompileError) (g : Flattening) :
    andThen ⟨found, some fault⟩ g = ⟨found, some fault⟩ := rfl

theorem nothing_andThen (f : Flattening) : nothing.andThen f = f := by
  simp [nothing]

theorem andThen_nothing (f : Flattening) : f.andThen nothing = f := by
  obtain ⟨exprs, fault⟩ := f
  cases fault <;> simp [nothing]

theorem andThen_assoc (f g h : Flattening) :
    (f.andThen g).andThen h = f.andThen (g.andThen h) := by
  obtain ⟨exprs, fault⟩ := f
  obtain ⟨exprs', fault'⟩ := g
  cases fault <;> cases fault' <;> simp

/-- What units give one after the other. -/
def ofUnits : List Sexp → Flattening
  | [] => nothing
  | u :: us => (ofExpr (Expr.ofUnit u)).andThen (ofUnits us)

theorem outcome_ofUnits (us : List Sexp) : (ofUnits us).outcome = us.mapM Expr.ofUnit := by
  induction us with
  | nil => rfl
  | cons u us ih =>
    rw [List.mapM_cons, ← ih, ofUnits]
    cases Expr.ofUnit u with
    | error fault => rfl
    | ok e =>
      generalize ofUnits us = rest
      obtain ⟨exprs, fault⟩ := rest
      cases fault with
      | some fault => rfl
      | none => exact congrArg Except.ok (by simp)

theorem ofUnits_append (us vs : List Sexp) :
    ofUnits (us ++ vs) = (ofUnits us).andThen (ofUnits vs) := by
  induction us with
  | nil => exact (nothing_andThen _).symm
  | cons u us ih => rw [List.cons_append, ofUnits, ih, ofUnits, andThen_assoc]

theorem ofUnits_map_toSexp (es : List Expr) :
    ofUnits (es.map Expr.toSexp) = ⟨es.toArray, none⟩ := by
  induction es with
  | nil => rfl
  | cons e es ih =>
    rw [List.map_cons, ofUnits, Expr.ofUnit_toSexp, ih]
    simp

/-- Behind some expressions, a unit that is no expression is the fault. -/
theorem ofUnits_append_cons (es : List Expr) {u : Sexp} (hu : ∀ e : Expr, u ≠ e.toSexp)
    (after : List Sexp) :
    ofUnits (es.map Expr.toSexp ++ u :: after) =
      ⟨es.toArray, some (.shape (Expr.expected u) u)⟩ := by
  have hunit := (Expr.ofUnit_eq_error_iff u _).mpr ⟨hu, rfl⟩
  rw [ofUnits_append, ofUnits_map_toSexp, ofUnits, hunit]
  simp

end Flattening

/-! ## The loop -/

/-- The units of the members of groups. -/
def groupUnits (groups : List (List Sexp)) : List Sexp := groups.flatMap (List.flatMap Sexp.units)

theorem groupUnits_cons (x : Sexp) (group : List Sexp) (groups : List (List Sexp)) :
    groupUnits ((x :: group) :: groups) = x.units ++ groupUnits (group :: groups) := by
  simp only [groupUnits, List.flatMap_cons, List.append_assoc]

/-- The units of the groups follow the expressions found so far. -/
theorem flattenGroups_eq (found : Array Expr) (groups : List (List Sexp)) :
    flattenGroups found groups =
      Flattening.andThen ⟨found, none⟩ (.ofUnits (groupUnits groups)) := by
  fun_induction flattenGroups found groups with
  | case1 found => exact (Flattening.andThen_nothing _).symm
  | case2 found groups ih => exact ih
  | case3 found text group groups =>
    rw [groupUnits_cons, Sexp.units, List.singleton_append, Flattening.ofUnits, Expr.ofUnit]
    simp
  | case4 found members group groups hhead ih =>
    rw [groupUnits_cons, Sexp.units_group hhead]
    exact ih
  | case5 found members group groups name hhead e he ih =>
    rw [groupUnits_cons, Sexp.units_headAtom hhead, List.singleton_append, Flattening.ofUnits,
      Expr.ofUnit, he, ih]
    simp
  | case6 found members group groups name hhead fault hfault =>
    rw [groupUnits_cons, Sexp.units_headAtom hhead, List.singleton_append, Flattening.ofUnits,
      Expr.ofUnit, hfault]
    simp

theorem flattenInto_eq_ofUnits (found : Array Expr) (x : Sexp) :
    flattenInto found x = Flattening.andThen ⟨found, none⟩ (.ofUnits x.units) := by
  have hunits : groupUnits [[x]] = x.units := by simp [groupUnits]
  rw [flattenInto, flattenGroups_eq, hunits]

/-- An S-expression stands for the expressions that its units are. -/
theorem outcome_flatten (x : Sexp) : (flatten x).outcome = x.units.mapM Expr.ofUnit := by
  rw [flatten, flattenInto_eq_ofUnits, ← Flattening.outcome_ofUnits]
  exact congrArg Flattening.outcome (Flattening.nothing_andThen _)

end TermRules
