import Mathlib
import TermRules.Proofs.Sexp.Grammar

/-!
# Nesting of parentheses

How deep parentheses are nested can be seen on the lexemes alone, by counting: `openLists ls` is
the number of opening parentheses among `ls` less the number of closing ones. In a derivation the
two numbers agree (`Derives.openLists_eq`), and the parentheses are nested as deep as the lists
that are derived (`Derives.nestsWithin_iff`).
-/

namespace TermRules.Sexp

/-! ## Counting open lists -/

/-- What a token adds to the number of open lists. -/
def Token.step : Token → Int
  | .opening => 1
  | .closing => -1
  | .atom _ | .quoted _ | .blank | .invalid => 0

/-- The number of lists that are open behind some lexemes. -/
def openLists (ls : List Lexeme) : Int := (ls.map fun l => l.token.step).sum

@[simp]
theorem openLists_nil : openLists [] = 0 := rfl

@[simp]
theorem openLists_cons (l : Lexeme) (ls : List Lexeme) :
    openLists (l :: ls) = l.token.step + openLists ls := by
  simp [openLists]

@[simp]
theorem openLists_append (ls ms : List Lexeme) :
    openLists (ls ++ ms) = openLists ls + openLists ms := by
  simp [openLists]

/-! ## Bounded nesting -/

/-- With `k` lists open in front of some lexemes, fewer than `maxDepth` lists are open in front of
every opening parenthesis among them. -/
def NestsWithin (k : Int) (ls : List Lexeme) : Prop :=
  ∀ before l after, ls = before ++ l :: after → l.token = .opening →
    k + openLists before < maxDepth

theorem nestsWithin_nil (k : Int) : NestsWithin k [] := by
  intro before l after h
  simp at h

theorem nestsWithin_append {k : Int} {ls ms : List Lexeme} :
    NestsWithin k (ls ++ ms) ↔ NestsWithin k ls ∧ NestsWithin (k + openLists ls) ms := by
  constructor
  · intro h
    refine ⟨fun before l after hls hl => ?_, fun before l after hms hl => ?_⟩
    · exact h before l (after ++ ms) (by simp [hls]) hl
    · have := h (ls ++ before) l after (by simp [hms]) hl
      rw [openLists_append] at this
      omega
  · rintro ⟨hls, hms⟩ before l after heq hl
    rcases List.append_eq_append_iff.mp heq with ⟨between, rfl, h⟩ | ⟨between, rfl, h⟩
    · have := hms between l after h hl
      rw [openLists_append]
      omega
    · cases between with
      | nil =>
        rw [List.nil_append] at h
        have := hms [] l after h.symm hl
        simpa using this
      | cons first between =>
        cases h
        exact hls before l between rfl hl

theorem nestsWithin_cons {k : Int} {l : Lexeme} {ls : List Lexeme} :
    NestsWithin k (l :: ls) ↔
      (l.token = .opening → k < maxDepth) ∧ NestsWithin (k + l.token.step) ls := by
  rw [← List.singleton_append, nestsWithin_append]
  simp only [openLists_cons, openLists_nil, Int.add_zero]
  refine and_congr_left fun _ => ⟨fun h hl => ?_, fun h before l' after heq hl => ?_⟩
  · simpa using h [] l [] rfl hl
  · obtain ⟨rfl, hrest⟩ | ⟨_, _, h'⟩ := List.cons_eq_append_iff.mp heq
    · cases hrest
      simpa using h hl
    · simp at h'

/-! ## Derivations -/

/-- In a derivation there are as many closing as opening parentheses. -/
theorem Derives.openLists_eq {ls : List Lexeme} {xs : List Sexp} (h : Derives ls xs) :
    openLists ls = 0 := by
  induction h with
  | nil => rfl
  | atom hl _ ih => simp [hl, Token.step, ih]
  | quoted hl _ _ ih => simp [hl, Token.step, ih]
  | list hopening hclosing _ _ ihinner ih =>
    simp [hopening, hclosing, Token.step, ihinner, ih]

/-- In a derivation the parentheses are nested as deep as the lists that are derived. -/
theorem Derives.nestsWithin_iff {ls : List Lexeme} {xs : List Sexp} (h : Derives ls xs) {k : Nat}
    (hk : k ≤ maxDepth) : NestsWithin k ls ↔ k + depthAll xs ≤ maxDepth := by
  -- `k` counts the lists around the derivation, of which there is one more for the members
  induction h generalizing k with
  | nil => simp [nestsWithin_nil, depthAll, hk]
  | atom hl _ ih => simp [nestsWithin_cons, hl, Token.step, ih hk, depthAll, depth]
  | quoted hl _ _ ih => simp [nestsWithin_cons, hl, Token.step, ih hk, depthAll, depth]
  | @list opening closing inner members ls xs hopening hclosing hinner h ihinner ih =>
    have hsplit : NestsWithin k (opening :: (inner ++ closing :: ls)) ↔
        k < maxDepth ∧ NestsWithin (k + 1 : Nat) inner ∧ NestsWithin k ls := by
      have hback : (k : Int) + 1 + -1 = k := by omega
      rw [nestsWithin_cons, nestsWithin_append, nestsWithin_cons, hinner.openLists_eq]
      simp [hopening, hclosing, Token.step, hback]
    have hdepth : depthAll (.list members :: xs) = max (depthAll members + 1) (depthAll xs) := rfl
    rw [hsplit, ih hk, hdepth]
    constructor
    · rintro ⟨hroom, hinside, hrest⟩
      have := (ihinner hroom).mp hinside
      omega
    · intro h
      have hroom : k < maxDepth := by omega
      exact ⟨hroom, (ihinner hroom).mpr (by omega), by omega⟩

end TermRules.Sexp
