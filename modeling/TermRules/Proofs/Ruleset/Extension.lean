import TermRules.Proofs.Registry.Extension
import TermRules.Proofs.Ruleset.Diagnosis
import TermRules.Proofs.Ruleset.RoundTrip

/-!
# Rules in an extension of a registry

If a registry is extended by names that are new in it, then the same rules come out of a sequence of
texts as before, or the same error. Only an error about a missing name may go away, and only if that
name is one of the new ones: `Ruleset.compile_extend`.
-/

namespace TermRules

variable {names : List String} {α β : Type}

namespace Persists

theorem bind {x y : Except CompileError α} (h : Persists names x y)
    {f g : α → Except CompileError β} (hfg : ∀ a, Persists names (f a) (g a)) :
    Persists names (x >>= f) (y >>= g) := by
  cases h with
  | same =>
    cases x with
    | error err => exact .same _
    | ok a => exact hfg a
  | missing h hname => exact .missing h hname _

theorem map {x y : Except CompileError α} (h : Persists names x y) (f : α → β) :
    Persists names (x.map f) (y.map f) := by
  cases h with
  | same => exact .same _
  | missing h hname => exact .missing h hname _

theorem mapM {f g : α → Except CompileError β} (hfg : ∀ a, Persists names (f a) (g a))
    (as : List α) : Persists names (as.mapM f) (as.mapM g) := by
  induction as with
  | nil => exact .same _
  | cons a as ih =>
    rw [List.mapM_cons, List.mapM_cons]
    exact (hfg a).bind fun b => ih.bind fun bs => .same _

theorem ok {x y : Except CompileError α} {a : α} (h : Persists names x y) (hx : x = .ok a) :
    y = .ok a := by
  cases h with
  | same => exact hx
  | missing => cases hx

theorem error {x y : Except CompileError α} {err : CompileError} (h : Persists names x y)
    (hx : x = .error err) (hnew : ∀ name, err.missing? = some name → name ∉ names) :
    y = .error err := by
  cases h with
  | same => exact hx
  | missing h hname =>
    cases hx
    exact absurd hname (hnew _ h)

end Persists

theorem Namespace.Extends.compile {φ : Type} {ns ns' : Namespace φ} (h : Extends names ns ns')
    (x : Sexp) : Persists names (ns.compile x).outcome (ns'.compile x).outcome := by
  rw [outcome_compile, outcome_compile]
  cases (flatten x).fault with
  | some fault => exact .same _
  | none => exact .mapM (fun e => (h.resolve e).bind fun meaning => .same _) _

namespace Registry.Extends

variable {reg reg' : Registry}

theorem compileRule (h : Extends names reg reg') (x : Sexp) :
    Persists names (Rule.compile reg x).outcome (Rule.compile reg' x).outcome := by
  unfold Rule.compile
  split
  · simp only [Compilation.outcome_bind]
    exact (h.predicates.compile _).bind fun ps => (h.actions.compile _).bind fun as => .same _
  · exact .same _

theorem compile (h : Extends names reg reg') (sources : List String) :
    Persists names (Ruleset.compile reg sources).outcome
      (Ruleset.compile reg' sources).outcome := by
  rw [Ruleset.outcome_compile, Ruleset.outcome_compile]
  have hitem : ∀ item, Persists names (Ruleset.compileItem reg item)
      (Ruleset.compileItem reg' item) := fun item => (Persists.same _).bind h.compileRule
  exact (Persists.mapM hitem _).map Ruleset.mk

end Registry.Extends

theorem CompileError.missing?_eq_none {err : CompileError}
    (h : err.kind = .form ∨ err.kind = .argument) : err.missing? = none := by
  cases err with
  | sexp | shape | argument => rfl
  | unbound | arity => obtain h | h := h <;> cases h

namespace Ruleset

/-- **Rules in an extension of a registry.** Let a registry be extended by names that the tables
which they go to do not have. What was compiled before is compiled to the same rules. What failed
because of its form or of an argument fails with the same error, and so does what failed since a
name was missing that is none of the new ones. -/
theorem compile_extend (reg : Registry) (entries : List Registration)
    (hnew : ∀ r ∈ entries, r.IsNewIn reg) (sources : List String) :
    (∀ R, (compile reg sources).outcome = .ok R →
      (compile (reg.extend entries).value sources).outcome = .ok R) ∧
    (∀ err, (compile reg sources).outcome = .error err →
      err.kind = .form ∨ err.kind = .argument →
        (compile (reg.extend entries).value sources).outcome = .error err) ∧
    ∀ err name, (compile reg sources).outcome = .error err → err.missing? = some name →
      (∀ r ∈ entries, r.name ≠ name) →
        (compile (reg.extend entries).value sources).outcome = .error err := by
  have h := (Registry.extends_extend hnew).compile sources
  refine ⟨fun R => h.ok, fun err herr hkind => ?_, fun err name herr hmissing hother => ?_⟩
  · refine h.error herr fun name hname => ?_
    rw [CompileError.missing?_eq_none hkind] at hname
    cases hname
  · refine h.error herr fun name' hname' hmem => ?_
    obtain ⟨r, hr, hrname⟩ := List.mem_map.mp hmem
    rw [hmissing] at hname'
    cases hname'
    exact hother r hr hrname

/-- Two names that are not built in: a predicate, and an action that is built in only with an
argument. -/
def pruning : List Registration :=
  [.predicate "is-leaf" "the term has no children" fun t _ => t.children.isEmpty,
    .action "rename" "remove the name" (Change.rename "").edit]

theorem pruning_isNewIn : ∀ r ∈ pruning, r.IsNewIn .builtin := by
  intro r hr
  rcases List.mem_cons.mp hr with rfl | hr
  · rfl
  · obtain rfl := List.mem_singleton.mp hr
    rfl

theorem compile_extend_pruning :
    let upIntent : CompileError :=
      .argument "set-intent" "up" "unknown intent `up`, expected one of: in, out, both"
    let extended := (Registry.builtin.extend pruning).value
    (∀ r ∈ pruning, r.IsNewIn .builtin) ∧
      (compile extended [coloringText]).outcome = .ok coloring ∧
      (compile extended ["((is-root) (set-intent up))"]).outcome = .error upIntent ∧
      (compile extended ["((is-node) (rename))"]).outcome = .error (.unbound "is-node") := by
  intro upIntent extended
  have hcoloring : (parse .builtin coloringText).outcome = .ok coloring := by
    rw [outcome_parse_of_items _ (by cbv), Rule.outcome_compile_eq_units]
    rfl
  have hintent : (parse .builtin "((is-root) (set-intent up))").outcome = .error upIntent := by
    rw [outcome_parse_of_items _ (by cbv), Rule.outcome_compile_eq_units]
    rfl
  have hnode : (parse .builtin "((is-node) (rename))").outcome =
      .error (.unbound "is-node") := by
    rw [outcome_parse_of_items _ (by cbv), Rule.outcome_compile_eq_units]
    rfl
  have h := compile_extend .builtin pruning pruning_isNewIn
  exact ⟨pruning_isNewIn, (h _).1 _ hcoloring, (h _).2.1 _ hintent (.inr rfl),
    (h _).2.2 _ _ hnode rfl (by decide)⟩

end Ruleset

end TermRules
