import Mathlib
import TermRules.Proofs.Ruleset.Compilation

/-!
# How far a compilation comes

The items of the texts of rules, text after text, are compiled up to the first one that is no rule.
If all of them are rules, then these come out (`Ruleset.outcome_compileItems_eq_ok_iff`), and else
the error of the first one that is none (`Ruleset.outcome_compileItems_eq_error_iff`). In both cases
the log has numbered reports about the rules before the place where the compilation ends
(`Compilation.reports`): `Ruleset.compile_progress`.

The induction is on the items that are rules (`Ruleset.reports_compileItems_append`): what is
compiled after them is numbered from their number on.
-/

namespace TermRules

/-- Whether a message reports a compiled rule. -/
def Message.isReport : Message → Bool
  | compiledRule .. => true
  | _ => false

/-! ## The reports of a compilation -/

namespace Compilation

variable {α β : Type}

/-- The reports about compiled rules in the log of a compilation. -/
def reports (x : Compilation α) : List Message := x.run.events.filter Message.isReport

@[simp]
theorem reports_pure (a : α) : (pure a : Compilation α).reports = [] := rfl

@[simp]
theorem reports_throw (e : CompileError) : (throw e : Compilation α).reports = [] := rfl

@[simp]
theorem reports_ofExcept (x : Except CompileError α) : (ofExcept x).reports = [] := rfl

@[simp]
theorem reports_log (message : Message) :
    (log message).reports = if message.isReport then [message] else [] := by
  cases message <;> rfl

/-- A second step reports something only if the first one succeeds. -/
theorem reports_bind (x : Compilation α) (f : α → Compilation β) :
    (x >>= f).reports = x.reports ++
      match x.outcome with
      | .ok a => (f a).reports
      | .error _ => [] := by
  have hevents : (x >>= f).run.events =
      x.run.events ++ (ExceptT.bindCont (fun a => f a) x.run.value).events := rfl
  rw [reports, hevents, List.filter_append]
  congr 1
  unfold outcome
  cases x.run.value <;> rfl

theorem reports_bind_eq_nil {x : Compilation α} {f : α → Compilation β} (hx : x.reports = [])
    (hf : ∀ a, (f a).reports = []) : (x >>= f).reports = [] := by
  rw [reports_bind, hx]
  cases x.outcome with
  | error e => rfl
  | ok a => exact hf a

theorem reports_mapM {f : α → Compilation β} (hf : ∀ a, (f a).reports = []) (as : List α) :
    (as.mapM f).reports = [] := by
  induction as with
  | nil => rfl
  | cons a as ih =>
    rw [List.mapM_cons]
    exact reports_bind_eq_nil (hf a) fun _ => reports_bind_eq_nil ih fun _ => rfl

end Compilation

theorem Namespace.reports_compile {φ : Type} (ns : Namespace φ) (x : Sexp) :
    (ns.compile x).reports = [] := by
  unfold compile
  cases hfault : (flatten x).fault with
  | some fault => simp [hfault]
  | none =>
    simp only [hfault]
    refine Compilation.reports_bind_eq_nil rfl fun _ => Compilation.reports_mapM (fun e => ?_) _
    exact Compilation.reports_bind_eq_nil rfl fun _ => rfl

/-- What reports a rule is the compilation of a ruleset, not that of the rule. -/
theorem Rule.reports_compile (reg : Registry) (x : Sexp) : (compile reg x).reports = [] := by
  unfold compile
  split
  · refine Compilation.reports_bind_eq_nil (Namespace.reports_compile _ _) fun _ => ?_
    exact Compilation.reports_bind_eq_nil (Namespace.reports_compile _ _) fun _ => rfl
  · rfl

/-! ## The items of texts -/

namespace Ruleset

variable {reg : Registry}

/-- The item is an S-expression that compiles to the rule. -/
def IsRule (reg : Registry) (item : Except Sexp.ReadError Sexp) (r : Rule) : Prop :=
  ∃ x, item = .ok x ∧ (Rule.compile reg x).outcome = .ok r

/-- The item is no rule, for the given reason: it is an error of the reader, or an S-expression that
does not compile. -/
inductive IsFault (reg : Registry) : Except Sexp.ReadError Sexp → CompileError → Prop
  | read (e : Sexp.ReadError) : IsFault reg (.error e) (.sexp e)
  | compile {x err} (h : (Rule.compile reg x).outcome = .error err) : IsFault reg (.ok x) err

theorem compileItem_eq_ok_iff {item : Except Sexp.ReadError Sexp} {r : Rule} :
    compileItem reg item = .ok r ↔ IsRule reg item r := by
  rw [compileItem, bind_eq_ok]
  simp only [mapError_eq_ok]
  rfl

theorem compileItem_eq_error_iff {item : Except Sexp.ReadError Sexp} {err : CompileError} :
    compileItem reg item = .error err ↔ IsFault reg item err := by
  rw [compileItem, bind_eq_error]
  simp only [mapError_eq_error, mapError_eq_ok]
  constructor
  · rintro (⟨e, rfl, rfl⟩ | ⟨x, rfl, h⟩)
    · exact .read e
    · exact .compile h
  · rintro (⟨e⟩ | ⟨h⟩)
    · exact .inl ⟨e, rfl, rfl⟩
    · exact .inr ⟨_, rfl, h⟩

/-- Items compile if all of them are rules. -/
theorem outcome_compileItems_eq_ok_iff {index : Nat} {items : List (Except Sexp.ReadError Sexp)}
    {rules : List Rule} :
    (compileItems reg index items).outcome = .ok rules ↔
      List.Forall₂ (IsRule reg) items rules := by
  rw [outcome_compileItems, mapM_eq_ok_iff_forall₂]
  simp only [compileItem_eq_ok_iff]

/-- Items do not compile if there is one that is no rule behind others that are rules. -/
theorem outcome_compileItems_eq_error_iff {index : Nat}
    {items : List (Except Sexp.ReadError Sexp)} {err : CompileError} :
    (compileItems reg index items).outcome = .error err ↔
      ∃ before rules item after, items = before ++ item :: after ∧
        List.Forall₂ (IsRule reg) before rules ∧ IsFault reg item err := by
  rw [outcome_compileItems, mapM_eq_error_iff]
  constructor
  · rintro ⟨before, item, after, rfl, hbefore, hitem⟩
    obtain ⟨rules, hrules⟩ := exists_mapM_eq_ok_iff.mpr hbefore
    rw [← outcome_compileItems reg index, outcome_compileItems_eq_ok_iff] at hrules
    exact ⟨before, rules, item, after, rfl, hrules, compileItem_eq_error_iff.mp hitem⟩
  · rintro ⟨before, rules, item, after, rfl, hrules, hitem⟩
    have hbefore : before.mapM (compileItem reg) = .ok rules := by
      rw [← outcome_compileItems reg index, outcome_compileItems_eq_ok_iff]
      exact hrules
    exact ⟨before, item, after, rfl, exists_mapM_eq_ok_iff.mp ⟨rules, hbefore⟩,
      compileItem_eq_error_iff.mpr hitem⟩

/-! ## Numbered reports -/

/-- The reports about some rules, of which the first has the number `index`. -/
def reportsFrom (index : Nat) (rules : List Rule) : List Message :=
  rules.mapIdx fun k r => .compiledRule (index + k) r.toSexp

theorem reportsFrom_cons (index : Nat) (r : Rule) (rules : List Rule) :
    reportsFrom index (r :: rules) =
      .compiledRule index r.toSexp :: reportsFrom (index + 1) rules := by
  simp only [reportsFrom, List.mapIdx_cons, Nat.add_zero, Nat.add_assoc, Nat.add_comm 1]

theorem reports_compileItems_of_isRule {item : Except Sexp.ReadError Sexp} {r : Rule}
    (h : IsRule reg item r) (index : Nat) (items : List (Except Sexp.ReadError Sexp)) :
    (compileItems reg index (item :: items)).reports =
      .compiledRule index r.toSexp :: (compileItems reg (index + 1) items).reports := by
  obtain ⟨x, rfl, hx⟩ := h
  rw [compileItems]
  simp only [Compilation.reports_bind, mapError_ok, Compilation.outcome_ofExcept, hx,
    Rule.reports_compile]
  cases (compileItems reg (index + 1) items).outcome <;> simp [Message.isReport]

theorem reports_compileItems_of_isFault {item : Except Sexp.ReadError Sexp} {err : CompileError}
    (h : IsFault reg item err) (index : Nat) (items : List (Except Sexp.ReadError Sexp)) :
    (compileItems reg index (item :: items)).reports = [] := by
  rw [compileItems]
  cases h with
  | read e => rfl
  | compile h => simp [Compilation.reports_bind, mapError_ok, h, Rule.reports_compile]

/-- The items before a place are reported if they are rules, and what follows is numbered from their
number on. -/
theorem reports_compileItems_append {before : List (Except Sexp.ReadError Sexp)}
    {rules : List Rule} (h : List.Forall₂ (IsRule reg) before rules) (index : Nat)
    (after : List (Except Sexp.ReadError Sexp)) :
    (compileItems reg index (before ++ after)).reports =
      reportsFrom index rules ++ (compileItems reg (index + rules.length) after).reports := by
  induction h generalizing index with
  | nil => rfl
  | cons hitem _ ih =>
    rw [List.cons_append, reports_compileItems_of_isRule hitem, ih, reportsFrom_cons,
      List.cons_append, List.length_cons, Nat.add_right_comm, Nat.add_assoc]

/-! ## Rulesets -/

theorem reports_compile (reg : Registry) (sources : List String) :
    (compile reg sources).reports = (compileItems reg 0 (sources.flatMap Sexp.items)).reports := by
  rw [compile, Compilation.reports_bind]
  cases (compileItems reg 0 (sources.flatMap Sexp.items)).outcome <;> exact List.append_nil _

/-- The messages report the rules, one each and in their order: the number of a rule, from zero on,
and its written form. -/
structure ReportedBy (rules : List Rule) (messages : List Message) : Prop where
  messages_eq : messages = rules.mapIdx fun k r => .compiledRule k r.toSexp
  texts_eq : messages.map Message.text = rules.mapIdx fun k r => s!"Compiled rule {k}: {r.print}"

theorem reportedBy_reportsFrom (rules : List Rule) : ReportedBy rules (reportsFrom 0 rules) := by
  have hmessages : reportsFrom 0 rules = rules.mapIdx fun k r => .compiledRule k r.toSexp := by
    simp only [reportsFrom, Nat.zero_add]
  refine ⟨hmessages, ?_⟩
  rw [hmessages, List.mapIdx_eq_zipIdx_map, List.mapIdx_eq_zipIdx_map, List.map_map]
  rfl

theorem ReportedBy.length_eq {rules : List Rule} {messages : List Message}
    (h : ReportedBy rules messages) : messages.length = rules.length := by
  rw [h.messages_eq, List.length_mapIdx]

theorem outcome_compile_eq_map (reg : Registry) (sources : List String) :
    (compile reg sources).outcome =
      (compileItems reg 0 (sources.flatMap Sexp.items)).outcome.map Ruleset.mk := by
  rw [compile, Compilation.outcome_bind]
  cases (compileItems reg 0 (sources.flatMap Sexp.items)).outcome <;> rfl

theorem outcome_compile_eq_ok_iff {sources : List String} {R : Ruleset} :
    (compile reg sources).outcome = .ok R ↔
      List.Forall₂ (IsRule reg) (sources.flatMap Sexp.items) R.rules := by
  rw [outcome_compile_eq_map, map_eq_ok]
  constructor
  · rintro ⟨rules, hrules, rfl⟩
    exact outcome_compileItems_eq_ok_iff.mp hrules
  · intro h
    exact ⟨R.rules, outcome_compileItems_eq_ok_iff.mpr h, rfl⟩

theorem outcome_compile_eq_error_iff {sources : List String} {err : CompileError} :
    (compile reg sources).outcome = .error err ↔ ∃ before rules item after,
      sources.flatMap Sexp.items = before ++ item :: after ∧
        List.Forall₂ (IsRule reg) before rules ∧ IsFault reg item err := by
  rw [outcome_compile_eq_map, map_eq_error, outcome_compileItems_eq_error_iff]

theorem reportedBy_of_ok {sources : List String} {R : Ruleset}
    (h : (compile reg sources).outcome = .ok R) :
    ReportedBy R.rules (compile reg sources).reports := by
  have hreports := reports_compileItems_append (outcome_compile_eq_ok_iff.mp h) 0 []
  rw [List.append_nil, ← reports_compile] at hreports
  have hnone : (compileItems reg (0 + R.rules.length) []).reports = [] := rfl
  rw [hreports, hnone, List.append_nil]
  exact reportedBy_reportsFrom R.rules

theorem reportedBy_of_isFault {sources : List String}
    {before after : List (Except Sexp.ReadError Sexp)} {rules : List Rule}
    {item : Except Sexp.ReadError Sexp} {err : CompileError}
    (hitems : sources.flatMap Sexp.items = before ++ item :: after)
    (hrules : List.Forall₂ (IsRule reg) before rules) (hitem : IsFault reg item err) :
    ReportedBy rules (compile reg sources).reports := by
  rw [reports_compile, hitems, reports_compileItems_append hrules,
    reports_compileItems_of_isFault hitem, List.append_nil]
  exact reportedBy_reportsFrom rules

/-- **All or nothing.** Texts of rules compile if every item of every text is a rule, and then these
rules come out, text after text. Otherwise the error is that of the first item that is no rule. The
log reports the rules that come out, and in the other case the rules before that item, of which
there are as many as items. So texts behind others that compile add their rules, or have their
error. -/
theorem compile_progress (reg : Registry) (sources : List String) :
    let items := sources.flatMap Sexp.items
    let result := compile reg sources
    (∀ R, result.outcome = .ok R ↔ List.Forall₂ (IsRule reg) items R.rules) ∧
      (∀ R, result.outcome = .ok R → ReportedBy R.rules result.reports) ∧
      (∀ err, result.outcome = .error err ↔ ∃ before rules item after,
        items = before ++ item :: after ∧ List.Forall₂ (IsRule reg) before rules ∧
          IsFault reg item err) ∧
      (∀ before rules item after err, items = before ++ item :: after →
        List.Forall₂ (IsRule reg) before rules → IsFault reg item err →
          ReportedBy rules result.reports ∧ result.reports.length = before.length) ∧
      ∀ R more, result.outcome = .ok R →
        (compile reg (sources ++ more)).outcome = (compile reg more).outcome.map (R ++ ·) := by
  intro items result
  refine ⟨fun R => outcome_compile_eq_ok_iff, fun R => reportedBy_of_ok,
    fun err => outcome_compile_eq_error_iff, ?_, fun R more hR => ?_⟩
  · intro before rules item after err hitems hrules hitem
    have hreported := reportedBy_of_isFault hitems hrules hitem
    exact ⟨hreported, hreported.length_eq.trans hrules.length_eq.symm⟩
  · rw [outcome_compile_append, show (compile reg sources).outcome = .ok R from hR]
    cases (compile reg more).outcome <;> rfl

/-- Two texts of rules. The second one has a rule, then a name that is not known, and then a closing
parenthesis of no list. -/
def faltering : List String := ["(() ()) (() (()))", "(() ()) ((x) ()) )"]

theorem compile_progress_faltering :
    let rule : Rule := ⟨[], []⟩
    (compile .empty (faltering.take 1)).outcome = .ok ⟨[rule, rule]⟩ ∧
      ReportedBy [rule, rule] (compile .empty (faltering.take 1)).reports ∧
      (compile .empty faltering).outcome = (compile .empty (faltering.drop 1)).outcome.map
        (⟨[rule, rule]⟩ ++ ·) ∧
      (compile .empty faltering).outcome = .error (.unbound "x") ∧
      ReportedBy [rule, rule, rule] (compile .empty faltering).reports ∧
      (compile .empty faltering).reports.length = 3 := by
  intro rule
  have hitems : faltering.flatMap Sexp.items =
      [.ok (.list [.list [], .list []]), .ok (.list [.list [], .list [.list []]]),
        .ok (.list [.list [], .list []])] ++
      .ok (.list [.list [.atom "x"], .list []]) :: [.error (.unexpectedClose 17)] := by
    cbv
  have hrule : ∀ x : Sexp, (Rule.compile .empty x).outcome = .ok rule →
      IsRule .empty (.ok x) rule := fun x hx => ⟨x, rfl, hx⟩
  have hrules : List.Forall₂ (IsRule .empty) [.ok (.list [.list [], .list []]),
      .ok (.list [.list [], .list [.list []]]), .ok (.list [.list [], .list []])]
      [rule, rule, rule] :=
    .cons (hrule _ (by cbv)) (.cons (hrule _ (by cbv)) (.cons (hrule _ (by cbv)) .nil))
  have hfault : IsFault .empty (.ok (.list [.list [.atom "x"], .list []])) (.unbound "x") :=
    .compile (by cbv)
  have htake : (compile .empty (faltering.take 1)).outcome = .ok ⟨[rule, rule]⟩ := by cbv
  obtain ⟨-, hreported, -, -, happend⟩ := compile_progress .empty (faltering.take 1)
  obtain ⟨-, -, herror, hlog, -⟩ := compile_progress .empty faltering
  obtain ⟨hreports, hlength⟩ := hlog _ _ _ _ _ hitems hrules hfault
  exact ⟨htake, hreported _ htake, happend _ (faltering.drop 1) htake,
    (herror _).mpr ⟨_, _, _, _, hitems, hrules, hfault⟩, hreports, hlength⟩

end Ruleset

end TermRules
