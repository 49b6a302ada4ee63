import TermRules.Proofs.Ruleset.Diagnosis
import TermRules.Proofs.Sexp.Placement

/-!
# Offsets in compile errors

The only offsets in the errors of a compilation are those of the reader of S-expressions: what is
wrong with a rule does not tell where (`Rule.Fails.mapOffset_eq`). So if the items of some texts are
moved elsewhere, then the same rules come out of them, or the same error with its offset moved:
`Ruleset.mapError_outcome_compile`.
-/

namespace TermRules

namespace CompileError

/-- The error, with what `f` makes of its offset, if it has one. -/
def mapOffset (f : Nat → Nat) : CompileError → CompileError
  | sexp e => sexp (e.mapOffset f)
  | e => e

/-- The error, its offset aside. -/
def unplaced : CompileError → CompileError := mapOffset fun _ => 0

end CompileError

variable (f : Nat → Nat) {err : CompileError}

theorem Namespace.Fails.mapOffset_eq {φ : Type} {ns : Namespace φ} {x : Sexp}
    (h : ns.Fails x err) : err.mapOffset f = err := by
  cases h with
  | shape => rfl
  | meaning _ _ h => cases h <;> rfl

theorem Rule.Fails.mapOffset_eq {reg : Registry} {x : Sexp} (h : Fails reg x err) :
    err.mapOffset f = err := by
  cases h with
  | pair => rfl
  | predicates h => exact h.mapOffset_eq f
  | actions _ h => exact h.mapOffset_eq f

theorem Rule.mapError_outcome_compile (reg : Registry) (x : Sexp) :
    (compile reg x).outcome.mapError (CompileError.mapOffset f) = (compile reg x).outcome := by
  cases h : (compile reg x).outcome with
  | ok r => rfl
  | error err => exact congrArg Except.error ((outcome_compile_eq_error_iff.mp h).mapOffset_eq f)

namespace Ruleset

/-- Items that are moved elsewhere denote the same rules, or the same error is moved elsewhere. -/
theorem mapError_compileItem (reg : Registry) (item : Except Sexp.ReadError Sexp) :
    (compileItem reg item).mapError (CompileError.mapOffset f) =
      compileItem reg (item.mapError (Sexp.ReadError.mapOffset f)) := by
  cases item with
  | error e => rfl
  | ok x => exact Rule.mapError_outcome_compile f reg x

theorem mapError_outcome_compile (reg : Registry) (sources : List String) :
    (compile reg sources).outcome.mapError (CompileError.mapOffset f) =
      ((Sexp.mapItems f (sources.flatMap Sexp.items)).mapM (compileItem reg)).map Ruleset.mk := by
  have hitems : ((sources.flatMap Sexp.items).mapM (compileItem reg)).mapError
      (CompileError.mapOffset f) =
        (Sexp.mapItems f (sources.flatMap Sexp.items)).mapM (compileItem reg) := by
    rw [mapError_mapM, Sexp.mapItems, List.mapM_map]
    simp only [mapError_compileItem]
    rfl
  rw [outcome_compile, ← hitems]
  cases (sources.flatMap Sexp.items).mapM (compileItem reg) <;> rfl

end Ruleset

end TermRules
