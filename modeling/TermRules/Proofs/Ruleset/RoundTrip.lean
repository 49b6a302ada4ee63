import TermRules.Proofs.Builtin.Nodewise
import TermRules.Proofs.Sexp.Lines

/-!
# Compiling what was printed

The written form of a rule is in general not the text that it was compiled from: groups are
flattened, a single expression stands in a group of its own, and atoms are quoted anew. Yet it
holds the same expressions in the same order (`flatten_toSexp`), and these have the same meanings
as before. So rules and rulesets compile again from their written forms, to the same rules:
`Ruleset.parse_print_of_compile`.
-/

namespace TermRules

/-! ## Expressions -/

namespace Expr

theorem ofMembers_toSexp (e : Expr) :
    ofMembers (.atom e.name :: (e.arg.map Sexp.atom).toList) = .ok e := by
  obtain ⟨name, arg⟩ := e
  cases arg <;> rfl

theorem depth_toSexp (e : Expr) : e.toSexp.depth = 1 := by
  obtain ⟨name, arg⟩ := e
  cases arg <;> rfl

end Expr

theorem flattenGroups_toSexp (exprs : List Expr) (found : Array Expr)
    (groups : List (List Sexp)) :
    flattenGroups found (exprs.map Expr.toSexp :: groups) =
      flattenGroups (found ++ exprs.toArray) groups := by
  induction exprs generalizing found with
  | nil => simp [flattenGroups]
  | cons e exprs ih =>
    rw [List.map_cons, Expr.toSexp, flattenGroups]
    simp only [Sexp.headAtom?, List.head?_cons, Option.bind_some, Sexp.atom?,
      Expr.ofMembers_toSexp]
    rw [ih]
    simp

/-- A group of expressions holds these expressions. -/
theorem flatten_toSexp (exprs : List Expr) :
    flatten (.list (exprs.map Expr.toSexp)) = ⟨exprs.toArray, none⟩ := by
  have hgroup : Sexp.headAtom? (exprs.map Expr.toSexp) = none := by
    cases exprs <;> rfl
  rw [flatten, flattenInto, flattenGroups]
  simp [hgroup, flattenGroups_toSexp, flattenGroups]

theorem depthAll_toSexp_le {φ : Type} (bs : List (Bound φ)) :
    Sexp.depthAll (bs.map fun b => b.expr.toSexp) ≤ 1 := by
  rw [Sexp.depthAll_le_iff]
  intro x hx
  obtain ⟨b, -, rfl⟩ := List.mem_map.mp hx
  exact Nat.le_of_eq b.expr.depth_toSexp

/-- Expressions with the meanings that a namespace gives them compile again from a group. -/
theorem Namespace.outcome_compile_toSexp {φ : Type} {ns : Namespace φ} {bs : List (Bound φ)}
    (h : ∀ b ∈ bs, ns.resolve b.expr = .ok b.meaning) :
    (ns.compile (.list (bs.map fun b => b.expr.toSexp))).outcome = .ok bs := by
  have hexprs : (bs.map fun b => b.expr.toSexp) = (bs.map fun b => b.expr).map Expr.toSexp := by
    rw [List.map_map]
    rfl
  rw [outcome_compile, hexprs, flatten_toSexp]
  refine mapM_map_eq_ok fun b hb => ?_
  rw [h b hb]
  rfl

/-! ## Rules -/

namespace Rule

variable {reg : Registry} {r : Rule}

theorem BoundBy.outcome_compile (h : r.BoundBy reg) : (compile reg r.toSexp).outcome = .ok r := by
  rw [toSexp, compile, Compilation.outcome_bind,
    Namespace.outcome_compile_toSexp h.predicates]
  simp only [Compilation.outcome_bind, Namespace.outcome_compile_toSexp h.actions]
  rfl

theorem depth_toSexp_le (r : Rule) : r.toSexp.depth ≤ Sexp.maxDepth := by
  have hpredicates : Sexp.depthAll (r.predicates.map fun p => p.expr.toSexp) ≤ 1 :=
    depthAll_toSexp_le r.predicates
  have hactions : Sexp.depthAll (r.actions.map fun a => a.expr.toSexp) ≤ 1 :=
    depthAll_toSexp_le r.actions
  have hroom : 1 + 2 ≤ Sexp.maxDepth := by decide
  simp only [toSexp, Sexp.depth, Sexp.depthAll]
  omega

theorem BoundBy.outcome_parse (h : r.BoundBy reg) : (parse reg r.print).outcome = .ok r := by
  rw [parse, print, Sexp.parse_print_of_depth_le r.depth_toSexp_le]
  exact h.outcome_compile

end Rule

/-! ## Rulesets -/

namespace Ruleset

variable {reg : Registry}

theorem print_eq_lines (R : Ruleset) : R.print = Sexp.lines (R.rules.map Rule.toSexp) := by
  rw [Sexp.lines, List.map_map]
  rfl

theorem outcome_parse_print {R : Ruleset} (h : ∀ r ∈ R.rules, r.BoundBy reg) :
    (parse reg R.print).outcome = .ok R := by
  have hdepth : ∀ x ∈ R.rules.map Rule.toSexp, x.depth ≤ Sexp.maxDepth := by
    intro x hx
    obtain ⟨r, -, rfl⟩ := List.mem_map.mp hx
    exact r.depth_toSexp_le
  have hrules : (R.rules.map fun r => .ok r.toSexp).mapM (compileItem reg) = .ok R.rules :=
    mapM_map_eq_ok fun r hr => (h r hr).outcome_compile
  rw [outcome_parse, print_eq_lines, Sexp.items_lines hdepth, List.map_map]
  exact congrArg (Except.map Ruleset.mk) hrules

/-- **Compiling what was printed.** Rulesets and rules that were compiled, whatever the texts, are
compiled again from their written forms: to as many rules, with the same expressions and the same
meanings. -/
theorem parse_print_of_compile (reg : Registry) :
    (∀ sources R, (compile reg sources).outcome = .ok R → (parse reg R.print).outcome = .ok R) ∧
      ∀ x r, (Rule.compile reg x).outcome = .ok r →
        (Rule.parse reg r.print).outcome = .ok r := by
  refine ⟨fun sources R h => ?_, fun x r h => ?_⟩
  · exact outcome_parse_print (compiledBy_of_compile h).boundBy
  · exact (Rule.boundBy_of_compile h).outcome_parse

/-- A text of the rule of `coloring` that is not its written form. -/
def coloringText : String := "((is-root) ((set-color \"red\")))"

/-- The rule of `coloring` as it stands in `coloringText`. -/
def coloringSexp : Sexp :=
  .list [.list [.atom "is-root"], .list [.list [.atom "set-color", .atom "red"]]]

theorem parse_print_coloring :
    ((compile .builtin [coloringText]).outcome = .ok coloring ∧
      (parse .builtin coloring.print).outcome = .ok coloring) ∧
    ∀ r ∈ coloring.rules, (Rule.compile .builtin coloringSexp).outcome = .ok r ∧
      (Rule.parse .builtin r.print).outcome = .ok r := by
  have hrule : ∀ r ∈ coloring.rules, (Rule.compile .builtin coloringSexp).outcome = .ok r := by
    intro r hr
    obtain rfl := List.mem_singleton.mp hr
    rw [coloringSexp, Rule.outcome_compile_eq_units]
    rfl
  have hitems : Sexp.items coloringText = [.ok coloringSexp] := by cbv
  have hcompile : (parse .builtin coloringText).outcome = .ok coloring := by
    rw [outcome_parse_of_items .builtin hitems, hrule _ (List.mem_singleton_self _)]
    rfl
  have h := parse_print_of_compile .builtin
  exact ⟨⟨hcompile, h.1 [coloringText] _ hcompile⟩, fun r hr => ⟨hrule r hr, h.2 _ _ (hrule r hr)⟩⟩

end Ruleset

end TermRules
