import Mathlib.Algebra.GroupWithZero.Nat
import TermRules.Proofs.Expr.Units

/-!
# Flattening is a recursive reading

Flattening goes over an S-expression with a stack of groups. What comes out is the recursive reading
`Sexp.readExprs`, which concatenates what the members of a group give (`flattenInto_eq`). In terms
of units this says that the expressions found before are kept, and followed by those that stand left
of the first unit that is no expression (`flattenInto_eq_none_iff`, `flattenInto_eq_some_iff`).
So it does not matter how expressions are grouped (`IsGrouping.flattenInto_eq`).

The loop ends because of the turns that its groups need: one for an expression, and two for a group
beside those of its members, one to enter it and one to leave it. Every turn uses up one of them
(`work_of_turn`).
-/

namespace TermRules

/-! ## The recursive reading -/

namespace Sexp

mutual

/-- The expressions in an S-expression: an atom is a fault, a list that starts with an atom is one
expression, and any other list gives what its members give. -/
def readExprs : Sexp → Flattening
  | .atom text => ⟨#[], some (.shape .exprs (.atom text))⟩
  | .list (.atom name :: rest) => .ofExpr (Expr.ofMembers (.atom name :: rest))
  | .list members => readAll members

/-- The expressions in some S-expressions, one after the other. -/
def readAll : List Sexp → Flattening
  | [] => .nothing
  | x :: xs => (readExprs x).andThen (readAll xs)

end

theorem readExprs_group {members : List Sexp} (h : headAtom? members = none) :
    readExprs (.list members) = readAll members := by
  match members, h with
  | [], _ => rfl
  | .list _ :: _, _ => rfl

theorem readExprs_headAtom {members : List Sexp} {name : String}
    (h : headAtom? members = some name) :
    readExprs (.list members) = .ofExpr (Expr.ofMembers members) := by
  match members, h with
  | .atom _ :: _, _ => rfl

/-- The reading gives what the units are. -/
theorem readExprs_eq (x : Sexp) : x.readExprs = .ofUnits x.units := by
  induction x using Sexp.induction with
  | atom text => rfl
  | list members ih =>
    cases hhead : headAtom? members with
    | none =>
      rw [readExprs_group hhead, units_group hhead]
      clear hhead
      induction members with
      | nil => rfl
      | cons x xs ihmembers =>
        obtain ⟨hx, hxs⟩ := List.forall_mem_cons.mp ih
        rw [readAll, hx, ihmembers hxs, List.flatMap_cons, Flattening.ofUnits_append]
    | some name =>
      rw [readExprs_headAtom hhead, units_headAtom hhead]
      exact (Flattening.andThen_nothing _).symm

end Sexp

theorem flattenInto_eq (found : Array Expr) (x : Sexp) :
    flattenInto found x = Flattening.andThen ⟨found, none⟩ x.readExprs := by
  rw [flattenInto_eq_ofUnits, Sexp.readExprs_eq]

/-! ## Turns of the loop -/

/-- What a turn of the loop leads to: another turn, or the end. -/
inductive Turn
  | next (found : Array Expr) (groups : List (List Sexp))
  | done (flat : Flattening)

/-- A turn of the loop. It takes one member from the innermost group, or leaves that group. -/
def turn (found : Array Expr) : List (List Sexp) → Turn
  | [] => .done ⟨found, none⟩
  | [] :: groups => .next found groups
  | (.atom text :: _) :: _ => .done ⟨found, some (.shape .exprs (.atom text))⟩
  | (.list members :: group) :: groups =>
    match Sexp.headAtom? members with
    | none => .next found (members :: group :: groups)
    | some _ =>
      match Expr.ofMembers members with
      | .ok e => .next (found.push e) (group :: groups)
      | .error fault => .done ⟨found, some fault⟩

/-- The loop ends after so many turns. -/
inductive EndsAfter : Nat → Array Expr → List (List Sexp) → Flattening → Prop
  | done {found groups flat} (h : turn found groups = .done flat) : EndsAfter 1 found groups flat
  | next {n found groups found' groups' flat} (h : turn found groups = .next found' groups')
    (hrest : EndsAfter n found' groups' flat) : EndsAfter (n + 1) found groups flat

theorem flattenGroups_of_turn (found : Array Expr) (groups : List (List Sexp)) :
    flattenGroups found groups =
      match turn found groups with
      | .next found' groups' => flattenGroups found' groups'
      | .done flat => flat := by
  rw [flattenGroups.eq_def]
  unfold turn
  repeat' split
  all_goals simp_all

namespace Sexp

mutual

/-- The number of turns that an S-expression takes. -/
def turns : Sexp → Nat
  | .atom _ => 1
  | .list (.atom _ :: _) => 1
  | .list members => turnsAll members + 2

/-- The number of turns that some S-expressions take. -/
def turnsAll : List Sexp → Nat
  | [] => 0
  | x :: xs => turns x + turnsAll xs

end

theorem turns_group {members : List Sexp} (h : headAtom? members = none) :
    turns (.list members) = turnsAll members + 2 := by
  match members, h with
  | [], _ => rfl
  | .list _ :: _, _ => rfl

theorem turns_headAtom {members : List Sexp} {name : String}
    (h : headAtom? members = some name) : turns (.list members) = 1 := by
  match members, h with
  | .atom _ :: _, _ => rfl

end Sexp

/-- The number of turns that are left to do, the last one aside. -/
def work (groups : List (List Sexp)) : Nat := (groups.map fun g => Sexp.turnsAll g + 1).sum

theorem work_cons (group : List Sexp) (groups : List (List Sexp)) :
    work (group :: groups) = Sexp.turnsAll group + 1 + work groups := by
  simp [work]

/-- Every turn but the last one brings the loop nearer to its end. -/
theorem work_of_turn {found found' : Array Expr} {groups groups' : List (List Sexp)}
    (h : turn found groups = .next found' groups') : work groups = work groups' + 1 := by
  unfold turn at h
  split at h
  · cases h
  · cases h
    rw [work_cons, Sexp.turnsAll]
    omega
  · cases h
  · split at h
    next hhead =>
      cases h
      simp only [work_cons, Sexp.turnsAll, Sexp.turns_group hhead]
      omega
    next hhead =>
      split at h
      · cases h
        simp only [work_cons, Sexp.turnsAll, Sexp.turns_headAtom hhead]
        omega
      · cases h

/-- The loop ends, with what flattening gives. -/
theorem exists_endsAfter (found : Array Expr) (groups : List (List Sexp)) :
    ∃ n ≤ work groups + 1, EndsAfter n found groups (flattenGroups found groups) := by
  generalize hwork : work groups = k
  induction k generalizing found groups with
  | zero =>
    cases hturn : turn found groups with
    | next found' groups' =>
      have := work_of_turn hturn
      omega
    | done flat =>
      refine ⟨1, Nat.le_refl 1, .done ?_⟩
      rw [flattenGroups_of_turn, hturn]
  | succ k ih =>
    cases hturn : turn found groups with
    | next found' groups' =>
      have hrest : work groups' = k := by
        have := work_of_turn hturn
        omega
      obtain ⟨n, hn, hends⟩ := ih found' groups' hrest
      refine ⟨n + 1, Nat.succ_le_succ hn, .next hturn ?_⟩
      rw [flattenGroups_of_turn, hturn]
      exact hends
    | done flat =>
      refine ⟨1, by omega, .done ?_⟩
      rw [flattenGroups_of_turn, hturn]

/-! ## Groupings -/

/-- The S-expressions are a grouping of the expressions: expressions, and lists of such groupings,
which may be empty. -/
inductive IsGrouping : List Sexp → List Expr → Prop
  | nil : IsGrouping [] []
  | expr {e xs es} (h : IsGrouping xs es) : IsGrouping (Expr.toSexp e :: xs) (e :: es)
  | group {members es xs es'} (hmembers : IsGrouping members es) (h : IsGrouping xs es') :
    IsGrouping (.list members :: xs) (es ++ es')

theorem IsGrouping.headAtom?_eq_none {xs : List Sexp} {es : List Expr} (h : IsGrouping xs es) :
    Sexp.headAtom? xs = none := by
  cases h <;> rfl

theorem IsGrouping.readAll_eq {xs : List Sexp} {es : List Expr} (h : IsGrouping xs es) :
    Sexp.readAll xs = ⟨es.toArray, none⟩ := by
  induction h with
  | nil => rfl
  | @expr e xs es _ ih =>
    have he : e.toSexp.readExprs = ⟨#[e], none⟩ := by
      obtain ⟨name, arg⟩ := e
      cases arg <;> rfl
    rw [Sexp.readAll, ih, he]
    simp
  | group hmembers _ ihmembers ih =>
    rw [Sexp.readAll, Sexp.readExprs_group hmembers.headAtom?_eq_none, ihmembers, ih]
    simp

theorem IsGrouping.flattenInto_eq {x : Sexp} {es : List Expr} (h : IsGrouping [x] es)
    (found : Array Expr) : flattenInto found x = ⟨found ++ es.toArray, none⟩ := by
  have hread : x.readExprs = ⟨es.toArray, none⟩ := by
    rw [← h.readAll_eq, Sexp.readAll, Sexp.readAll, Flattening.andThen_nothing]
  rw [TermRules.flattenInto_eq, hread, Flattening.mk_none_andThen]

/-! ## What flattening gives -/

section Results

variable {x : Sexp} {es : List Expr} {u : Sexp} {after : List Sexp}

theorem flattenInto_of_units (h : x.units = es.map Expr.toSexp) (found : Array Expr) :
    flattenInto found x = ⟨found ++ es.toArray, none⟩ := by
  rw [flattenInto_eq_ofUnits, h, Flattening.ofUnits_map_toSexp, Flattening.mk_none_andThen]

theorem flattenInto_of_fault (h : x.units = es.map Expr.toSexp ++ u :: after)
    (hu : ∀ e : Expr, u ≠ e.toSexp) (found : Array Expr) :
    flattenInto found x = ⟨found ++ es.toArray, some (.shape (Expr.expected u) u)⟩ := by
  rw [flattenInto_eq_ofUnits, h, Flattening.ofUnits_append_cons es hu,
    Flattening.mk_none_andThen]

end Results

/-- Units are expressions up to the first that is none, if there is one. -/
theorem units_cases (us : List Sexp) :
    (∃ es : List Expr, us = es.map Expr.toSexp) ∨
      ∃ (es : List Expr) (u : Sexp) (after : List Sexp),
        us = es.map Expr.toSexp ++ u :: after ∧ ∀ e : Expr, u ≠ e.toSexp := by
  cases h : us.mapM Expr.ofUnit with
  | ok es => exact .inl ⟨es, Expr.mapM_ofUnit_eq_ok_iff.mp h⟩
  | error fault =>
    obtain ⟨es, u, after, hus, hu, -⟩ := Expr.mapM_ofUnit_eq_error_iff.mp h
    exact .inr ⟨es, u, after, hus, hu⟩

theorem flattenInto_eq_none_iff {x : Sexp} {found found' : Array Expr} :
    flattenInto found x = ⟨found', none⟩ ↔
      ∃ es : List Expr, x.units = es.map Expr.toSexp ∧ found' = found ++ es.toArray := by
  constructor
  · intro h
    rcases units_cases x.units with ⟨es, hes⟩ | ⟨es, u, after, hes, hu⟩
    · rw [flattenInto_of_units hes] at h
      cases h
      exact ⟨es, hes, rfl⟩
    · rw [flattenInto_of_fault hes hu] at h
      cases h
  · rintro ⟨es, hes, rfl⟩
    exact flattenInto_of_units hes found

theorem flattenInto_eq_some_iff {x : Sexp} {found found' : Array Expr} {fault : CompileError} :
    flattenInto found x = ⟨found', some fault⟩ ↔
      ∃ (es : List Expr) (u : Sexp) (after : List Sexp),
        x.units = es.map Expr.toSexp ++ u :: after ∧ (∀ e : Expr, u ≠ e.toSexp) ∧
          found' = found ++ es.toArray ∧ fault = .shape (Expr.expected u) u := by
  constructor
  · intro h
    rcases units_cases x.units with ⟨es, hes⟩ | ⟨es, u, after, hes, hu⟩
    · rw [flattenInto_of_units hes] at h
      cases h
    · rw [flattenInto_of_fault hes hu] at h
      cases h
      exact ⟨es, u, after, hes, hu, rfl, rfl⟩
  · rintro ⟨es, u, after, hes, hu, rfl, rfl⟩
    exact flattenInto_of_fault hes hu found

/-- **Flattening is a recursive reading.** The loop with its stack of groups ends, and gives the
expressions found before and those of the recursive reading. It keeps the expressions that stand
left of the first unit that is no expression, and all of them if there is no such unit. How
expressions are grouped does not matter. -/
theorem flattenInto_eq_readExprs (found : Array Expr) (x : Sexp) :
    flattenInto found x = Flattening.andThen ⟨found, none⟩ x.readExprs ∧
      (∀ found', flattenInto found x = ⟨found', none⟩ ↔
        ∃ es : List Expr, x.units = es.map Expr.toSexp ∧ found' = found ++ es.toArray) ∧
      (∀ found' fault, flattenInto found x = ⟨found', some fault⟩ ↔
        ∃ (es : List Expr) (u : Sexp) (after : List Sexp),
          x.units = es.map Expr.toSexp ++ u :: after ∧ (∀ e : Expr, u ≠ e.toSexp) ∧
            found' = found ++ es.toArray ∧ fault = .shape (Expr.expected u) u) ∧
      (∃ n ≤ x.turns + 2, EndsAfter n found [[x]] (flattenInto found x)) ∧
      ∀ y es, IsGrouping [x] es → IsGrouping [y] es →
        flattenInto found x = flattenInto found y := by
  refine ⟨flattenInto_eq found x, fun _ => flattenInto_eq_none_iff,
    fun _ _ => flattenInto_eq_some_iff, ?_, fun y es hx hy => ?_⟩
  · have hwork : work [[x]] + 1 = x.turns + 2 := by
      simp [work, Sexp.turnsAll]
    rw [← hwork]
    exact exists_endsAfter found [[x]]
  · rw [hx.flattenInto_eq, hy.flattenInto_eq]

/-- Two expressions in one group. -/
def ungrouped : Sexp := .list [.list [.atom "a"], .list [.atom "b", .atom "x"]]

/-- The same expressions with an empty group before them and further groups around them. -/
def grouped : Sexp :=
  .list [.list [], .list [.list [.atom "a"], .list [.list [.atom "b", .atom "x"]]]]

theorem flattenInto_eq_readExprs_grouped :
    flattenInto #[⟨"c", none⟩] ungrouped = flattenInto #[⟨"c", none⟩] grouped := by
  have hb : IsGrouping [.list [.atom "b", .atom "x"]] [⟨"b", some "x"⟩] :=
    .expr (e := ⟨"b", some "x"⟩) .nil
  have hungrouped : IsGrouping [ungrouped] [⟨"a", none⟩, ⟨"b", some "x"⟩] :=
    .group (.expr (e := ⟨"a", none⟩) hb) .nil
  have hgrouped : IsGrouping [grouped] [⟨"a", none⟩, ⟨"b", some "x"⟩] :=
    .group (.group .nil (.group (.expr (e := ⟨"a", none⟩) (.group hb .nil)) .nil)) .nil
  exact (flattenInto_eq_readExprs _ ungrouped).2.2.2.2 grouped _ hungrouped hgrouped

end TermRules
