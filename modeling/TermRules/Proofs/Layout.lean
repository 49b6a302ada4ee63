import TermRules.Proofs.Ruleset.Placement
import TermRules.Proofs.Sexp.Layout
import TermRules.Term.Reader

/-!
# Layout does not matter

What is read from a text depends on its tokens alone, but for the offsets of errors: the items of
the text (`Sexp.items_of_tokens_eq`), the rules (`Ruleset.parse_of_tokens_eq`) and the term
(`Term.parse_of_tokens_eq`) that it denotes. And a gap between two lexemes changes no tokens
(`Sexp.tokens_insertGap`). Both together are `readings_of_tokens_eq`.
-/

namespace TermRules

theorem Ruleset.parse_of_tokens_eq {text text' : String}
    (h : Sexp.tokens text = Sexp.tokens text') (reg : Registry) :
    (parse reg text).outcome.mapError CompileError.unplaced =
      (parse reg text').outcome.mapError CompileError.unplaced := by
  rw [CompileError.unplaced, parse, parse, mapError_outcome_compile, mapError_outcome_compile,
    List.flatMap_singleton, List.flatMap_singleton, Sexp.items_of_tokens_eq h]

namespace Term

/-- The error, its offset aside, if it has one. -/
def ReadError.unplaced : ReadError → ReadError
  | sexp e => sexp e.unplaced
  | e => e

theorem parse_of_tokens_eq {text text' : String} (h : Sexp.tokens text = Sexp.tokens text') :
    (parse text).mapError ReadError.unplaced = (parse text').mapError ReadError.unplaced := by
  have hsexp := Sexp.parse_of_tokens_eq h
  unfold parse
  cases hx : Sexp.parse text with
  | error e =>
    rw [hx] at hsexp
    obtain ⟨e', he', hunplaced⟩ := mapError_eq_error.mp hsexp.symm
    rw [he']
    exact congrArg (fun e => Except.error (ReadError.sexp e)) hunplaced.symm
  | ok x =>
    rw [hx] at hsexp
    rw [mapError_eq_ok.mp hsexp.symm]

end Term

/-- **Layout does not matter.** Texts with the same tokens have the same items, up to an error with
which the items end, and consist of the same S-expression, denote the same rules and the same term,
or are in error for the same reason; only the offsets of errors may differ. And if a text has no
invalid token, then a gap (a run of layout characters, or a comment with its line feed) changes no
tokens of it, be it between two lexemes, inside a run of layout characters, or at either end. -/
theorem readings_of_tokens_eq :
    (∀ text text', Sexp.tokens text = Sexp.tokens text' →
      (Sexp.items text).map (Except.mapError Sexp.ReadError.unplaced) =
          (Sexp.items text').map (Except.mapError Sexp.ReadError.unplaced) ∧
        (Sexp.parse text).mapError Sexp.ReadError.unplaced =
          (Sexp.parse text').mapError Sexp.ReadError.unplaced ∧
        (∀ reg, (Ruleset.parse reg text).outcome.mapError CompileError.unplaced =
          (Ruleset.parse reg text').outcome.mapError CompileError.unplaced) ∧
        (Term.parse text).mapError Term.ReadError.unplaced =
          (Term.parse text').mapError Term.ReadError.unplaced) ∧
    (∀ text n k, Sexp.insertGap text n k [] = text) ∧
    ∀ text n k gap, .invalid ∉ Sexp.tokens text → Sexp.IsGap gap →
      Sexp.tokens (Sexp.insertGap text n k gap) = Sexp.tokens text :=
  ⟨fun _ _ h => ⟨Sexp.items_of_tokens_eq h, Sexp.parse_of_tokens_eq h,
    Ruleset.parse_of_tokens_eq h, Term.parse_of_tokens_eq h⟩,
  Sexp.insertGap_nil, fun _ n k _ hvalid hgap => Sexp.tokens_insertGap hvalid n k hgap⟩

/-- A comment behind the atom of a list. -/
theorem readings_commented :
    let comment := [';', ')', '\n']
    .invalid ∉ Sexp.tokens "(a)" ∧ Sexp.IsGap comment ∧
      Sexp.insertGap "(a)" 2 0 comment = "(a;)\n)" ∧
      Sexp.tokens "(a;)\n)" = Sexp.tokens "(a)" ∧
      Term.parse "(a;)\n)" = .error (.unknownClass "a") := by
  intro comment
  have hvalid : .invalid ∉ Sexp.tokens "(a)" := by
    have htokens : Sexp.tokens "(a)" = [.opening, .atom ['a'], .closing] := by cbv
    simp [htokens]
  have hbody : ∀ c ∈ [')'], c ≠ '\n' := by simp
  have hgap : Sexp.IsGap comment := .comment hbody
  have hinsert : Sexp.insertGap "(a)" 2 0 comment = "(a;)\n)" := by cbv
  have htokens := readings_of_tokens_eq.2.2 "(a)" 2 0 comment hvalid hgap
  rw [hinsert] at htokens
  refine ⟨hvalid, hgap, hinsert, htokens, ?_⟩
  obtain ⟨-, -, -, hterm⟩ := readings_of_tokens_eq.1 _ _ htokens
  have ha : Term.parse "(a)" = .error (.unknownClass "a") := by cbv
  rw [ha] at hterm
  obtain ⟨e, he, hunplaced⟩ := mapError_eq_error.mp hterm
  cases e <;> cases hunplaced
  exact he

end TermRules
