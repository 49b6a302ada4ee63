import TermRules.Ruleset
import TermRules.Proofs.Outcome

/-!
# What compiled rules consist of

The outcome of a compilation (`Compilation.outcome`) does not depend on its log. In particular, the
rules of texts are those of their items, each of which is compiled on its own
(`Ruleset.outcome_compile`).

If expressions compile, then each has the meaning that the namespace gives it
(`resolve_of_mem_compile`), and this carries over to rules (`Rule.boundBy_of_compile`) and to
rulesets (`Ruleset.CompiledBy.boundBy`).
-/

namespace TermRules

/-! ## Outcomes -/

namespace Compilation

variable {α β : Type}

/-- The outcome of a compilation, without the log. -/
def outcome (x : Compilation α) : Except CompileError α := x.run.value

@[simp]
theorem outcome_pure (a : α) : (pure a : Compilation α).outcome = .ok a := rfl

@[simp]
theorem outcome_throw (e : CompileError) : (throw e : Compilation α).outcome = .error e := rfl

@[simp]
theorem outcome_ofExcept (x : Except CompileError α) : (ofExcept x).outcome = x := rfl

@[simp]
theorem outcome_log (message : Message) : (log message).outcome = .ok () := rfl

@[simp]
theorem outcome_bind (x : Compilation α) (f : α → Compilation β) :
    (x >>= f).outcome = x.outcome >>= fun a => (f a).outcome := by
  change (ExceptT.bindCont (fun a => f a) x.run.value).value = _
  unfold outcome
  cases x.run.value <;> rfl

@[simp]
theorem outcome_map (f : α → β) (x : Compilation α) : (f <$> x).outcome = f <$> x.outcome := by
  rw [← bind_pure_comp, outcome_bind]
  cases x.outcome <;> rfl

@[simp]
theorem outcome_mapM (f : α → Compilation β) (as : List α) :
    (as.mapM f).outcome = as.mapM fun a => (f a).outcome := by
  induction as with
  | nil => rfl
  | cons a as ih =>
    rw [List.mapM_cons, List.mapM_cons]
    simp only [outcome_bind, outcome_pure, ih]
    rfl

end Compilation

/-! ## Namespaces -/

namespace Namespace

variable {φ ψ : Type}

/-- Expressions compile if their shape is right, and then to what each of them resolves to. -/
theorem outcome_compile (ns : Namespace φ) (x : Sexp) :
    (ns.compile x).outcome =
      match (flatten x).fault with
      | some fault => .error fault
      | none => (flatten x).exprs.toList.mapM fun e => return ⟨e, ← ns.resolve e⟩ := by
  unfold compile
  generalize flatten x = flat
  cases hfault : flat.fault with
  | some fault => simp [hfault]
  | none =>
    simp only [hfault, bind_pure_comp, Compilation.outcome_bind, Compilation.outcome_log,
      Compilation.outcome_mapM, Compilation.outcome_map, Compilation.outcome_ofExcept]
    rfl

theorem resolve_of_mem_compile {ns : Namespace φ} {x : Sexp} {bs : List (Bound φ)}
    (h : (ns.compile x).outcome = .ok bs) : ∀ b ∈ bs, ns.resolve b.expr = .ok b.meaning := by
  rw [outcome_compile] at h
  cases hfault : (flatten x).fault with
  | some fault =>
    rw [hfault] at h
    cases h
  | none =>
    rw [hfault] at h
    refine forall_mem_of_mapM ?_ h
    intro e b hb
    obtain ⟨meaning, hmeaning, hb⟩ := bind_eq_ok.mp hb
    cases hb
    exact hmeaning

theorem lookup_map {κ κ' μ μ' : Type} (f : Entry κ → Entry κ') (g : Entry μ → Entry μ')
    (make : κ → κ') (hf : ∀ e, (f e).make = make e.make) (name : String) (arity : Arity)
    (same : Table κ) (other : Table μ) :
    lookup name arity (same.map f) (other.map g) = (lookup name arity same other).map make := by
  simp only [lookup, Table.get?_map, Table.contains_map]
  cases same.get? name with
  | some e => simp [hf, Except.map]
  | none =>
    simp only [Option.map_none]
    split <;> rfl

/-- The meanings in a mapped namespace are the mapped meanings. -/
theorem resolve_map (f : φ → ψ) (ns : Namespace φ) (e : Expr) :
    (ns.map f).resolve e = (ns.resolve e).map f := by
  cases harg : e.arg with
  | none =>
    simp only [resolve, harg, map]
    exact lookup_map _ _ f (fun _ => rfl) ..
  | some arg =>
    simp only [resolve, harg, map]
    rw [lookup_map _ _ (fun make arg => (make arg).map f) (fun _ => rfl)]
    cases lookup e.name .unary ns.unary ns.nullary with
    | error fault => rfl
    | ok make =>
      change ((make arg).map f).mapError _ = ((make arg).mapError _).map f
      cases make arg <;> rfl

theorem exists_of_resolve_map {f : φ → ψ} {ns : Namespace φ} {e : Expr} {meaning : ψ}
    (h : (ns.map f).resolve e = .ok meaning) : ∃ k, ns.resolve e = .ok k ∧ meaning = f k := by
  rw [resolve_map] at h
  cases hk : ns.resolve e with
  | error fault =>
    rw [hk] at h
    cases h
  | ok k =>
    rw [hk] at h
    cases h
    exact ⟨k, rfl, rfl⟩

end Namespace

/-! ## Rules -/

namespace Rule

/-- The expressions of a rule have the meanings that a registry gives them. -/
structure BoundBy (reg : Registry) (r : Rule) : Prop where
  predicates : ∀ p ∈ r.predicates, reg.predicates.resolve p.expr = .ok p.meaning
  actions : ∀ a ∈ r.actions, reg.actions.resolve a.expr = .ok a.meaning

theorem boundBy_of_compile {reg : Registry} {x : Sexp} {r : Rule}
    (h : (compile reg x).outcome = .ok r) : r.BoundBy reg := by
  unfold compile at h
  split at h
  · simp only [Compilation.outcome_bind] at h
    obtain ⟨predicates, hpredicates, h⟩ := bind_eq_ok.mp h
    obtain ⟨actions, hactions, h⟩ := bind_eq_ok.mp h
    cases h
    exact ⟨Namespace.resolve_of_mem_compile hpredicates,
      Namespace.resolve_of_mem_compile hactions⟩
  · cases h

end Rule

namespace Ruleset

/-- The rule that an item of a text denotes. -/
def compileItem (reg : Registry) (item : Except Sexp.ReadError Sexp) : Except CompileError Rule :=
  item.mapError .sexp >>= fun x => (Rule.compile reg x).outcome

/-- Items are compiled one by one. -/
theorem outcome_compileItems (reg : Registry) (index : Nat)
    (items : List (Except Sexp.ReadError Sexp)) :
    (compileItems reg index items).outcome = items.mapM (compileItem reg) := by
  induction items generalizing index with
  | nil => rfl
  | cons item items ih =>
    rw [List.mapM_cons, compileItem, compileItems]
    simp only [Compilation.outcome_bind, ih]
    cases item <;> rfl

theorem outcome_compile (reg : Registry) (sources : List String) :
    (compile reg sources).outcome =
      ((sources.flatMap Sexp.items).mapM (compileItem reg)).map Ruleset.mk := by
  rw [compile, Compilation.outcome_bind, outcome_compileItems]
  cases (sources.flatMap Sexp.items).mapM (compileItem reg) <;> rfl

theorem outcome_parse (reg : Registry) (text : String) :
    (parse reg text).outcome = ((Sexp.items text).mapM (compileItem reg)).map Ruleset.mk := by
  rw [parse, outcome_compile, List.flatMap_singleton]

/-- Texts are compiled in their order, up to the first error. -/
theorem outcome_compile_append (reg : Registry) (texts more : List String) :
    (compile reg (texts ++ more)).outcome =
      (compile reg texts).outcome >>= fun R => (compile reg more).outcome >>= fun S =>
        .ok (R ++ S) := by
  rw [outcome_compile, outcome_compile, outcome_compile, List.flatMap_append, List.mapM_append]
  cases (texts.flatMap Sexp.items).mapM (compileItem reg) with
  | error err => rfl
  | ok rules => cases (more.flatMap Sexp.items).mapM (compileItem reg) <;> rfl

/-- A text that consists of one S-expression denotes the rule that the S-expression denotes. -/
theorem outcome_parse_of_items (reg : Registry) {text : String} {x : Sexp}
    (h : Sexp.items text = [.ok x]) :
    (parse reg text).outcome = (Rule.compile reg x).outcome.map fun r => ⟨[r]⟩ := by
  have hitem : compileItem reg (.ok x) = (Rule.compile reg x).outcome := rfl
  rw [outcome_parse, h, List.mapM_cons, List.mapM_nil, hitem]
  cases (Rule.compile reg x).outcome <;> rfl

/-- Every rule of a ruleset is the outcome of a compilation. -/
def CompiledBy (reg : Registry) (R : Ruleset) : Prop :=
  ∀ r ∈ R.rules, ∃ x, (Rule.compile reg x).outcome = .ok r

/-- Rulesets that texts denote are compiled. -/
theorem compiledBy_of_compile {reg : Registry} {sources : List String} {R : Ruleset}
    (h : (compile reg sources).outcome = .ok R) : R.CompiledBy reg := by
  rw [outcome_compile] at h
  obtain ⟨rules, hrules, rfl⟩ := map_eq_ok.mp h
  refine forall_mem_of_mapM (fun item r hr => ?_) hrules
  obtain ⟨x, -, hx⟩ := bind_eq_ok.mp hr
  exact ⟨x, hx⟩

theorem CompiledBy.boundBy {reg : Registry} {R : Ruleset} (h : R.CompiledBy reg) :
    ∀ r ∈ R.rules, r.BoundBy reg := by
  intro r hr
  obtain ⟨x, hx⟩ := h r hr
  exact Rule.boundBy_of_compile hx

end Ruleset

end TermRules
