import TermRules.Proofs.Registry.History
import TermRules.Proofs.Ruleset.RoundTrip
import TermRules.Proofs.Sexp.Bareness

/-!
# What the catalogue shows

The catalogue shows an expression for each name of a registry (`catalogueExpr`), with a placeholder
where the name takes an argument. The name stands there as it is, without quotes. So what is shown
reads as this expression just if the name can be written without quotes, and then it denotes what is
registered for the name: `Registry.catalogue_readable_iff`. A name with a blank in it reads as a
name with an argument (`Registry.catalogue_spaced`).

That other names cannot read as themselves is a matter of lengths. A lexeme for an atom that is not
bare has quotes, so it is longer than the atom by two characters at least
(`length_add_le_of_quoted`), and what is shown has no room for them
(`isBare_of_parse_catalogueExpr`).
-/

namespace TermRules

namespace Sexp

/-! ## The lengths of lexemes -/

/-- The number of characters that are needed at least to write an atom. -/
def leastLength (text : String) : Nat :=
  if isBare text.toList then text.length else text.length + 2

theorem length_le_leastLength (text : String) : text.length ≤ leastLength text := by
  rw [leastLength]
  split <;> omega

section Lexemes

variable {text : String} {l : Lexeme} (hl : l ∈ lexemes text)

include hl

theorem length_pos_of_mem_lexemes : 0 < l.text.length := by
  obtain ⟨before, after, hsplit⟩ := List.append_of_mem hl
  exact List.length_pos_iff.mpr (text_ne_nil_of_scan (scan_charsOf hsplit))

theorem leastLength_le_of_atom {cs : List Char} (hatom : l.token = .atom cs) :
    leastLength (String.ofList cs) ≤ l.text.length := by
  have hbare := isBare_of_mem_lexemes hl hatom
  obtain ⟨rest, hlongest⟩ := exists_isLongest_of_mem_lexemes hl
  cases hlongest with
  | token h htext =>
    obtain rfl := htext cs (.inl hatom)
    rw [leastLength, String.toList_ofList, if_pos hbare, String.length_ofList]
  | quote => cases hatom
  | white => cases hatom

/-- A lexeme in quotes has two characters more than what it denotes. -/
theorem length_add_le_of_quoted {cs : List Char} {content : String} (hquoted : l.token = .quoted cs)
    (hcontent : unquote cs = .ok content) : content.length + 2 ≤ l.text.length := by
  obtain ⟨rest, hlongest⟩ := exists_isLongest_of_mem_lexemes hl
  obtain ⟨htext, body, -, rfl⟩ := hlongest.of_quoted hquoted
  have hlength := (unquote_eq_ok_iff.mp hcontent).length_le
  rw [String.length_toList] at hlength
  rw [htext]
  simp only [inQuotes, List.length_cons, List.length_append, List.length_nil]
  omega

end Lexemes

/-- The lexemes of some atoms have as many characters as are needed at least to write them. -/
theorem Derives.leastLength_le {text : String} {ls : List Lexeme} {atoms : List String}
    (hls : ∀ l ∈ ls, l ∈ lexemes text) (h : Derives ls (atoms.map .atom)) :
    (atoms.map leastLength).sum ≤ (charsOf ls).length := by
  induction atoms generalizing ls with
  | nil => exact Nat.zero_le _
  | cons atom atoms ih =>
    rw [List.map_cons] at h ⊢
    cases h with
    | @atom l ls _ cs hl hrest =>
      obtain ⟨hmem, hmems⟩ := List.forall_mem_cons.mp hls
      have hfirst := leastLength_le_of_atom hmem hl
      have hothers := ih hmems hrest
      rw [List.sum_cons, charsOf_cons, List.length_append]
      omega
    | @quoted l ls _ cs _ hl hcontent hrest =>
      obtain ⟨hmem, hmems⟩ := List.forall_mem_cons.mp hls
      have hfirst := length_add_le_of_quoted hmem hl hcontent
      have hothers := ih hmems hrest
      have hleast : leastLength atom ≤ atom.length + 2 := by
        rw [leastLength]
        split <;> omega
      rw [List.sum_cons, charsOf_cons, List.length_append]
      omega

/-- A text that reads as a list of atoms has room for the atoms and for two parentheses. -/
theorem leastLength_le_of_parse {text : String} (atoms : List String)
    (h : parse text = .ok (.list (atoms.map .atom))) :
    (atoms.map leastLength).sum + 2 ≤ text.length := by
  have hitems : items text = [Sexp.list (atoms.map .atom)].map .ok := parse_eq_ok_iff.mp h
  have hderives := (denotes_of_items hitems).derives
  have hmem : ∀ l ∈ solid (lexemes text), l ∈ lexemes text := fun l hl => (List.mem_filter.mp hl).1
  have hlength : (charsOf (solid (lexemes text))).length ≤ text.length := by
    have hsublist : (charsOf (solid (lexemes text))).Sublist (charsOf (lexemes text)) :=
      (List.filter_sublist).flatMap _
    have hall : charsOf (lexemes text) = text.toList := scan_text 0 text.toList
    rw [← String.length_toList, ← hall]
    exact hsublist.length_le
  generalize solid (lexemes text) = ls at hderives hmem hlength
  cases hderives with
  | @list opening closing inner _ rest _ _ _ hinner _ =>
    simp only [List.forall_mem_cons, List.forall_mem_append] at hmem
    obtain ⟨hopening, hmembers, hclosing, -⟩ := hmem
    have hatoms := hinner.leastLength_le hmembers
    have hopen := length_pos_of_mem_lexemes hopening
    have hclose := length_pos_of_mem_lexemes hclosing
    simp only [charsOf_cons, charsOf_append, List.length_append] at hlength
    omega

end Sexp

/-! ## Names as they are -/

namespace Arity

/-- What the catalogue shows behind a name that takes the given number of arguments. -/
def placeholder : Arity → String
  | nullary => ""
  | unary => " ARG"

/-- The expression that the catalogue means by what it shows for a name. -/
def sample (arity : Arity) (name : String) : Expr :=
  match arity with
  | nullary => ⟨name, none⟩
  | unary => ⟨name, some "ARG"⟩

/-- What this expression denotes if the name is registered with the given meaning. -/
def sampleMeaning {φ : Type} (name : String) : (arity : Arity) → arity.Make φ →
    Except CompileError φ
  | nullary, make => .ok make
  | unary, make => (make "ARG").mapError (.argument name "ARG")

end Arity

section Names

variable {arity : Arity} {name : String}

theorem length_catalogueExpr (arg name : String) :
    (catalogueExpr arg name).length = name.length + arg.length + 2 := by
  have hparentheses : "(".length = 1 ∧ ")".length = 1 := by decide
  simp only [catalogueExpr, String.length_append, toString]
  omega

/-- A name without quotes is shown as it is printed. -/
theorem catalogueExpr_eq_print (h : Sexp.isBare name.toList = true) :
    catalogueExpr arity.placeholder name = (arity.sample name).print := by
  rw [← String.toList_inj]
  cases arity with
  | nullary =>
    simp [catalogueExpr, toString, Arity.placeholder, Arity.sample, Expr.print, Expr.toSexp,
      Sexp.print, Sexp.chars, Sexp.membersChars, Sexp.restChars, Sexp.writeAtom, h]
  | unary =>
    have harg : Sexp.isBare ['A', 'R', 'G'] = true := by decide
    simp [catalogueExpr, toString, Arity.placeholder, Arity.sample, Expr.print, Expr.toSexp,
      Sexp.print, Sexp.chars, Sexp.membersChars, Sexp.restChars, Sexp.writeAtom, h, harg]

theorem parse_catalogueExpr_of_isBare (h : Sexp.isBare name.toList = true) :
    Sexp.parse (catalogueExpr arity.placeholder name) = .ok (arity.sample name).toSexp := by
  rw [catalogueExpr_eq_print h]
  refine Sexp.parse_print_of_depth_le ?_
  rw [Expr.depth_toSexp]
  decide

theorem isBare_of_parse_catalogueExpr
    (h : Sexp.parse (catalogueExpr arity.placeholder name) = .ok (arity.sample name).toSexp) :
    Sexp.isBare name.toList = true := by
  by_contra hbare
  have hname : Sexp.leastLength name = name.length + 2 := if_neg hbare
  cases arity with
  | nullary =>
    have hroom := Sexp.leastLength_le_of_parse [name] h
    rw [length_catalogueExpr] at hroom
    simp [hname, Arity.placeholder] at hroom
  | unary =>
    have hroom := Sexp.leastLength_le_of_parse [name, "ARG"] h
    have harg : "ARG".length = 3 ∧ " ARG".length = 4 := by decide
    have hleast := Sexp.length_le_leastLength "ARG"
    rw [length_catalogueExpr] at hroom
    simp only [List.map_cons, List.map_nil, List.sum_cons, List.sum_nil, hname,
      Arity.placeholder] at hroom
    omega

theorem parse_catalogueExpr_iff :
    Sexp.parse (catalogueExpr arity.placeholder name) = .ok (arity.sample name).toSexp ↔
      Sexp.isBare name.toList = true :=
  ⟨isBare_of_parse_catalogueExpr, parse_catalogueExpr_of_isBare⟩

end Names

/-! ## Entries -/

theorem Table.exists_catalogueLine {α : Type} {table : Table α} {name : String} {entry : Entry α}
    (h : table.get? name = some entry) (arg : String) :
    ∃ before after, table.catalogue arg = before ++ catalogueLine arg name entry.doc ++ after := by
  have hmem : (name, entry.doc) ∈ table.docs := Table.mem_docs_iff.mpr ⟨entry.make, h⟩
  obtain ⟨before, after, hdocs⟩ := List.append_of_mem hmem
  rw [Table.catalogue, hdocs]
  simp only [List.map_append, List.map_cons, String.join_append, String.join_cons]
  exact ⟨_, _, (String.append_assoc ..).symm⟩

namespace Namespace

variable {φ : Type} {ns : Namespace φ} {arity : Arity} {name : String}
  {entry : Entry (arity.Make φ)}

theorem resolve_sample (h : (ns.table arity).get? name = some entry) :
    ns.resolve (arity.sample name) = arity.sampleMeaning name entry.make := by
  cases arity with
  | nullary => exact lookup_eq_ok_iff.mpr ⟨entry, h, rfl⟩
  | unary =>
    have hlookup : lookup name .unary ns.unary ns.nullary = .ok entry.make :=
      lookup_eq_ok_iff.mpr ⟨entry, h, rfl⟩
    rw [Arity.sample, resolve_some, hlookup]
    rfl

theorem outcome_compile_sample (h : (ns.table arity).get? name = some entry) :
    (ns.compile (arity.sample name).toSexp).outcome =
      (arity.sampleMeaning name entry.make).map fun meaning => [⟨arity.sample name, meaning⟩] := by
  have hflat : flatten (arity.sample name).toSexp = ⟨#[arity.sample name], none⟩ := by
    rw [flatten, flattenInto]
    exact (flattenGroups_toSexp [arity.sample name] #[] []).trans (by simp [flattenGroups])
  rw [outcome_compile, hflat]
  simp only [List.mapM_cons, List.mapM_nil, resolve_sample h]
  cases arity.sampleMeaning name entry.make <;> rfl

/-- Every entry has its line in the catalogue of a namespace. -/
theorem exists_catalogueLine (h : (ns.table arity).get? name = some entry) :
    ∃ before after, ns.catalogue =
      before ++ catalogueLine arity.placeholder name entry.doc ++ after := by
  obtain ⟨before, after, htable⟩ := Table.exists_catalogueLine h arity.placeholder
  cases arity with
  | nullary =>
    refine ⟨before, after ++ ns.unary.catalogue " ARG", ?_⟩
    rw [← String.append_assoc, ← htable]
    rfl
  | unary =>
    refine ⟨ns.nullary.catalogue "" ++ before, after, ?_⟩
    rw [String.append_assoc, String.append_assoc, ← @String.append_assoc before, ← htable]
    rfl

/-- What the catalogue `text` says of an entry of a namespace: it has the line of the entry, and the
expression that the line shows reads as the name, with the placeholder if there is one, just if the
name is bare. If it is, then the expression has the meaning that the entry gives it. -/
structure IsShownIn (ns : Namespace φ) (text : String) (arity : Arity) (name : String)
    (entry : Entry (arity.Make φ)) : Prop where
  line : ∃ before after, text =
    before ++ catalogueLine arity.placeholder name entry.doc ++ after
  reads_iff : Sexp.parse (catalogueExpr arity.placeholder name) = .ok (arity.sample name).toSexp ↔
    Sexp.isBare name.toList = true
  denotes : Sexp.isBare name.toList = true →
    ∃ x, Sexp.parse (catalogueExpr arity.placeholder name) = .ok x ∧
      (ns.compile x).outcome = (arity.sampleMeaning name entry.make).map fun meaning =>
        [⟨arity.sample name, meaning⟩]

theorem isShownIn_of_catalogue (front back : String)
    (h : (ns.table arity).get? name = some entry) :
    ns.IsShownIn (front ++ ns.catalogue ++ back) arity name entry where
  line := by
    obtain ⟨before, after, hline⟩ := exists_catalogueLine h
    refine ⟨front ++ before, after ++ back, ?_⟩
    rw [hline]
    simp only [String.append_assoc]
  reads_iff := parse_catalogueExpr_iff
  denotes hbare := ⟨_, parse_catalogueExpr_of_isBare hbare, outcome_compile_sample h⟩

end Namespace

namespace Registry

/-- **What the catalogue shows can be typed if the name needs no quotes.** For every entry of a
registry, the catalogue shows an expression that reads as the name of the entry, with the
placeholder for an argument if it takes one, if and only if the name can be written without quotes.
Then the expression denotes the entry. -/
theorem catalogue_readable_iff (reg : Registry) :
    (∀ arity name entry, (reg.predicates.table arity).get? name = some entry →
        reg.predicates.IsShownIn reg.catalogue arity name entry) ∧
      ∀ arity name entry, (reg.actions.table arity).get? name = some entry →
        reg.actions.IsShownIn reg.catalogue arity name entry := by
  constructor
  · intro arity name entry h
    rw [catalogue, @String.append_assoc _ "Actions:\n"]
    exact Namespace.isShownIn_of_catalogue _ _ h
  · intro arity name entry h
    rw [catalogue, ← @String.append_empty (_ ++ reg.actions.catalogue)]
    exact Namespace.isShownIn_of_catalogue _ _ h

/-- A registry with a name that needs quotes and a name that needs none. -/
def spaced : Registry where
  predicates := ⟨.ofList [("two words", ⟨"always holds", fun _ _ => true⟩)], .empty⟩
  actions := ⟨.empty, .ofList
    [("rename", ⟨"set name to ARG", fun name => .ok fun _ _ n => { n with name }⟩)]⟩

theorem catalogue_readable_spaced :
    (spaced.predicates.table .nullary).get? "two words" =
        some ⟨"always holds", fun _ _ => true⟩ ∧
      Sexp.parse "(two words)" ≠ .ok (Expr.mk "two words" none).toSexp ∧
      (spaced.actions.table .unary).get? "rename" =
        some ⟨"set name to ARG", fun name => .ok fun _ _ n => { n with name }⟩ ∧
      ∃ x, Sexp.parse "(rename ARG)" = .ok x ∧ (spaced.actions.compile x).outcome =
        .ok [⟨⟨"rename", some "ARG"⟩, fun _ _ n => { n with name := "ARG" }⟩] := by
  obtain ⟨hpredicates, hactions⟩ := catalogue_readable_iff spaced
  refine ⟨rfl, fun h => ?_, rfl, ?_⟩
  · have hbare := (hpredicates .nullary "two words" _ rfl).reads_iff.mp h
    cases hbare.symm.trans (by decide : Sexp.isBare "two words".toList = false)
  · exact (hactions .unary "rename" _ rfl).denotes (by decide)

/-- The catalogue shows a name that needs quotes without them, and this reads as another name with
an argument. In quotes, as expressions are printed, it would read as the name. -/
theorem catalogue_spaced :
    (spaced.predicates.nullary.get? "two words").map Entry.doc = some "always holds" ∧
      spaced.catalogue = "Predicates:\n  (two words)              always holds\n" ++
        "Actions:\n  (rename ARG)             set name to ARG\n" ∧
      Sexp.parse (catalogueExpr "" "two words") = .ok (.list [.atom "two", .atom "words"]) ∧
      Sexp.parse (catalogueExpr "" "two words") ≠ .ok (.list [.atom "two words"]) ∧
      (Expr.mk "two words" none).print = "(\"two words\")" ∧
      Sexp.parse "(\"two words\")" = .ok (.list [.atom "two words"]) := by
  have hparse : Sexp.parse (catalogueExpr "" "two words") =
      .ok (.list [.atom "two", .atom "words"]) := by cbv
  refine ⟨by cbv, by cbv, hparse, ?_, by cbv, by cbv⟩
  rw [hparse]
  decide

end Registry

end TermRules
