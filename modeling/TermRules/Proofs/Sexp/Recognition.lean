import TermRules.Proofs.Sexp.Escapes
import TermRules.Proofs.Sexp.Nesting

/-!
# Which texts are read without an error

A text is read without an error just if its lexemes, blanks apart, are a derivation of
S-expressions with known escapes and bounded nesting (`Denotes`), and then what is read are the
S-expressions that are derived, each at the offset of its first lexeme: `items_eq_map_ok_iff`.

That derivations are read is `readItem_derives`. For the other direction, `Opens stack read` says
what the lexemes `read` of an unfinished item have to do with the lists that the reader keeps open:
they open these lists and derive the members that the lists have so far. Every lexeme keeps this
up (`Opens.enter`, `Opens.complete`, `Opens.add`), so that a finished item is derived by what was
read of it (`derives_of_readItem`).
-/

namespace TermRules.Sexp

open Text

/-! ## Unfinished items -/

/-- The lexemes `read` open the lists `stack`, the outermost one first, and derive for each list
the members that it has so far. No list is nested too deep. -/
inductive Opens : List OpenList → List Lexeme → Prop
  | nil : Opens [] []
  | push {outer read opening inner members} (h : Opens outer read)
    (hopening : opening.token = .opening) (hinner : Derives inner members)
    (hdepth : outer.length + 1 + depthAll members ≤ maxDepth) :
    Opens (⟨opening.start, members.reverse⟩ :: outer) (read ++ opening :: inner)

namespace Opens

variable {stack outer : List OpenList} {read piece : List Lexeme} {l : Lexeme} {x : Sexp}

theorem length_le (h : Opens stack read) : stack.length ≤ maxDepth := by
  cases h with
  | nil => exact Nat.zero_le _
  | push _ _ _ hdepth =>
    simp only [List.length_cons]
    omega

/-- A lexeme that opens a list. -/
theorem enter {opened : OpenList} (h : Opens stack read) (hmove : move stack l = .enter opened) :
    Opens (opened :: stack) (read ++ [l]) := by
  obtain ⟨hl, hroom, rfl⟩ := of_move_enter hmove
  have hdepth : stack.length + 1 + depthAll [] ≤ maxDepth := hroom
  exact .push h hl .nil hdepth

/-- A lexeme that ends an S-expression. -/
theorem complete (h : Opens stack read) (hmove : move stack l = .complete x outer) :
    ∃ before piece, read ++ [l] = before ++ piece ∧ Opens outer before ∧ Derives piece [x] ∧
      outer.length + x.depth ≤ maxDepth := by
  have hroom := h.length_le
  rcases of_move_complete hmove with
    ⟨innermost, hl, rfl, rfl⟩ | ⟨text, hl, rfl, rfl⟩ | ⟨text, content, hl, hcontent, rfl, rfl⟩
  · cases h with
    | @push _ before opening inner members hbefore hopening hinner hdepth =>
      refine ⟨before, opening :: (inner ++ [l]), by simp, hbefore, ?_, ?_⟩
      · rw [List.reverse_reverse]
        exact .list hopening hl hinner .nil
      · rw [List.reverse_reverse, depth]
        omega
  · exact ⟨read, [l], rfl, h, .atom hl .nil, hroom⟩
  · exact ⟨read, [l], rfl, h, .quoted hl hcontent .nil, hroom⟩

/-- An S-expression that becomes a member of the innermost list. -/
theorem add {innermost : OpenList} (h : Opens (innermost :: outer) read)
    (hpiece : Derives piece [x]) (hdepth : outer.length + 1 + x.depth ≤ maxDepth) :
    Opens (innermost.add x :: outer) (read ++ piece) := by
  cases h with
  | @push _ before opening inner members hbefore hopening hinner hmembers =>
    have hall : depthAll (members ++ [x]) ≤ maxDepth - (outer.length + 1) := by
      have hmembers' : depthAll members ≤ maxDepth - (outer.length + 1) := by omega
      rw [depthAll_le_iff] at hmembers' ⊢
      intro y hy
      rcases List.mem_append.mp hy with hy | hy
      · exact hmembers' y hy
      · rw [List.mem_singleton.mp hy]
        omega
    have hpush := push hbefore hopening (hinner.append hpiece) (by omega)
    simpa [OpenList.add] using hpush

end Opens

/-! ## Finished items -/

/-- An item is derived by the lexemes read so far together with those up to its end. -/
theorem derives_of_readItem {ls : List Lexeme} (hls : ∀ l ∈ ls, l.token ≠ .blank) {start : Nat}
    {stack : List OpenList} {read : List Lexeme} (h : Opens stack read) {x : Sexp}
    (hx : (readItem start stack ls).item = some (.ok x)) :
    ∃ piece, ls = piece ++ (readItem start stack ls).rest ∧ Derives (read ++ piece) [x] ∧
      x.depth ≤ maxDepth := by
  induction ls generalizing start stack read with
  | nil => cases stack <;> simp [readItem] at hx
  | cons l ls ih =>
    obtain ⟨hl, hls⟩ := List.forall_mem_cons.mp hls
    simp only [readItem] at hx ⊢
    cases hmove : move stack l with
    | skip => exact absurd (blank_of_move_skip hmove) hl
    | enter opened =>
      simp only [hmove] at hx ⊢
      obtain ⟨piece, hpiece, hderives, hdepth⟩ := ih hls (h.enter hmove) hx
      refine ⟨l :: piece, congrArg (l :: ·) hpiece, ?_, hdepth⟩
      simpa using hderives
    | complete y outer =>
      obtain ⟨before, piece, hread, hbefore, hpiece, hdepth⟩ := h.complete hmove
      cases outer with
      | nil =>
        simp only [hmove] at hx ⊢
        cases hx
        cases hbefore
        refine ⟨[l], rfl, ?_, by simpa using hdepth⟩
        rw [hread]
        exact hpiece
      | cons innermost outer =>
        simp only [hmove] at hx ⊢
        obtain ⟨rest, hrest, hderives, hdepth⟩ := ih hls (hbefore.add hpiece hdepth) hx
        refine ⟨l :: rest, congrArg (l :: ·) hrest, ?_, hdepth⟩
        rw [← hread] at hderives
        simpa using hderives
    | fail e => simp [hmove] at hx

/-- Without an item there is no open list, and nothing but blanks. -/
theorem of_readItem_item_eq_none {ls : List Lexeme} {start : Nat} {stack : List OpenList}
    (h : (readItem start stack ls).item = none) : stack = [] ∧ ∀ l ∈ ls, l.token = .blank := by
  induction ls generalizing start stack with
  | nil => cases stack <;> simp_all [readItem]
  | cons l ls ih =>
    simp only [readItem] at h
    cases hmove : move stack l with
    | skip =>
      simp only [hmove] at h
      obtain ⟨hstack, hls⟩ := ih h
      exact ⟨hstack, List.forall_mem_cons.mpr ⟨blank_of_move_skip hmove, hls⟩⟩
    | enter opened =>
      simp only [hmove] at h
      cases (ih h).1
    | complete y outer =>
      cases outer with
      | nil => simp [hmove] at h
      | cons innermost outer =>
        simp only [hmove] at h
        cases (ih h).1
    | fail e => simp [hmove] at h

/-! ## All items -/

/-- The lexemes derive the S-expressions one after the other, and each S-expression starts at the
offset that stands with it, which is that of its first lexeme. -/
inductive DerivesAt : List Lexeme → List (Nat × Sexp) → Prop
  | nil : DerivesAt [] []
  | cons {first piece x ls placed} (h : Derives (first :: piece) [x])
    (hrest : DerivesAt ls placed) :
    DerivesAt (first :: (piece ++ ls)) ((first.start, x) :: placed)

theorem DerivesAt.derives {ls : List Lexeme} {placed : List (Nat × Sexp)}
    (h : DerivesAt ls placed) : Derives ls (placed.map (·.2)) := by
  induction h with
  | nil => exact .nil
  | cons hpiece _ ih => exact hpiece.append ih

theorem exists_derivesAt {ls : List Lexeme} {xs : List Sexp} (h : Derives ls xs) :
    ∃ placed, DerivesAt ls placed ∧ placed.map (·.2) = xs := by
  induction h with
  | nil => exact ⟨[], .nil, rfl⟩
  | atom hl _ ih =>
    obtain ⟨placed, hplaced, rfl⟩ := ih
    have hcons := DerivesAt.cons (.atom hl .nil) hplaced
    exact ⟨_, hcons, rfl⟩
  | quoted hl hcontent _ ih =>
    obtain ⟨placed, hplaced, rfl⟩ := ih
    have hcons := DerivesAt.cons (.quoted hl hcontent .nil) hplaced
    exact ⟨_, hcons, rfl⟩
  | @list opening closing inner members ls _ hopening hclosing hinner _ _ ih =>
    obtain ⟨placed, hplaced, rfl⟩ := ih
    refine ⟨(opening.start, .list members) :: placed, ?_, rfl⟩
    have hcons := DerivesAt.cons (.list hopening hclosing hinner .nil) hplaced
    rwa [List.append_assoc, List.cons_append, List.nil_append] at hcons

namespace Reader

/-- What is derived is read, and then what follows it. -/
theorem run_append_of_derivesAt {ls : List Lexeme} {placed : List (Nat × Sexp)}
    (h : DerivesAt ls placed) (hdepth : depthAll (placed.map (·.2)) ≤ maxDepth) (start : Nat)
    (rest : List Lexeme) :
    ∃ start', (run ⟨ls ++ rest, start, false⟩).1 =
      (placed.map fun e => (e.1, .ok e.2)) ++ (run ⟨rest, start', false⟩).1 := by
  induction h generalizing start with
  | nil => exact ⟨start, rfl⟩
  | @cons first piece x ls placed hpiece _ ih =>
    rw [List.map_cons, depthAll, Nat.max_le] at hdepth
    obtain ⟨l, ls', hl, hread⟩ := readItem_derives_singleton hpiece hdepth.1 start (ls ++ rest)
    cases hl
    obtain ⟨start', hrest⟩ := ih hdepth.2 first.start
    refine ⟨start', ?_⟩
    rw [List.cons_append, ← List.append_assoc] at hread
    rw [List.cons_append, run_of_item_ok rfl (x := x) (by rw [hread]), hread, hrest, List.map_cons,
      List.cons_append]

/-- What is derived is read. -/
theorem run_of_derivesAt {ls : List Lexeme} {placed : List (Nat × Sexp)} (h : DerivesAt ls placed)
    (hdepth : depthAll (placed.map (·.2)) ≤ maxDepth) (start : Nat) :
    (run ⟨ls, start, false⟩).1 = placed.map fun e => (e.1, .ok e.2) := by
  obtain ⟨start', hrun⟩ := run_append_of_derivesAt h hdepth start []
  rwa [List.append_nil, run_nil, List.append_nil] at hrun

theorem item_of_run_eq_nil {r : Reader} (hr : r.failed = false) (h : r.run.1 = []) :
    (readItem r.start [] r.rest).item = none := by
  cases hitem : (readItem r.start [] r.rest).item with
  | none => rfl
  | some item =>
    cases item with
    | error e => simp [run_of_item_error hr hitem] at h
    | ok x => simp [run_of_item_ok hr hitem] at h

theorem item_of_run_eq_cons {r : Reader} (hr : r.failed = false) {pos : Nat} {x : Sexp}
    {items : List (Nat × Except ReadError Sexp)} (h : r.run.1 = (pos, .ok x) :: items) :
    (readItem r.start [] r.rest).item = some (.ok x) ∧ (readItem r.start [] r.rest).start = pos ∧
      (run ⟨(readItem r.start [] r.rest).rest, pos, false⟩).1 = items := by
  cases hitem : (readItem r.start [] r.rest).item with
  | none => simp [run_of_item_none hr hitem] at h
  | some item =>
    cases item with
    | error e => simp [run_of_item_error hr hitem] at h
    | ok y =>
      rw [run_of_item_ok hr hitem] at h
      cases h
      exact ⟨rfl, rfl, rfl⟩

theorem item_of_run_eq_error {r : Reader} (hr : r.failed = false) {pos : Nat} {e : ReadError}
    {items : List (Nat × Except ReadError Sexp)} (h : r.run.1 = (pos, .error e) :: items) :
    (readItem r.start [] r.rest).item = some (.error e) ∧ items = [] := by
  cases hitem : (readItem r.start [] r.rest).item with
  | none => simp [run_of_item_none hr hitem] at h
  | some item =>
    cases item with
    | error e' =>
      rw [run_of_item_error hr hitem] at h
      cases h
      exact ⟨rfl, rfl⟩
    | ok x => simp [run_of_item_ok hr hitem] at h

/-- The first item is derived by the first lexemes. -/
theorem derives_of_run_eq_cons {ls : List Lexeme} (hls : ∀ l ∈ ls, l.token ≠ .blank)
    {start pos : Nat} {x : Sexp} {items : List (Nat × Except ReadError Sexp)}
    (h : (run ⟨ls, start, false⟩).1 = (pos, .ok x) :: items) :
    ∃ first piece rest, ls = first :: (piece ++ rest) ∧ Derives (first :: piece) [x] ∧
      x.depth ≤ maxDepth ∧ first.start = pos ∧ (run ⟨rest, pos, false⟩).1 = items := by
  obtain ⟨hitem, hpos, hrest⟩ := item_of_run_eq_cons rfl h
  obtain ⟨piece, hpiece, hderives, hdepth⟩ := derives_of_readItem hls .nil hitem
  simp only at hpos hrest
  generalize hrestls : (readItem start [] ls).rest = rest at hpiece hrest
  subst hpiece
  rw [List.nil_append] at hderives
  obtain ⟨first, piece, rfl, hread⟩ := readItem_derives_singleton hderives hdepth start rest
  rw [hread] at hpos
  exact ⟨first, piece, rest, rfl, hderives, hdepth, hpos, hrest⟩

/-- What is read is derived. -/
theorem derivesAt_of_run {ls : List Lexeme} (hls : ∀ l ∈ ls, l.token ≠ .blank) {start : Nat}
    {placed : List (Nat × Sexp)}
    (h : (run ⟨ls, start, false⟩).1 = placed.map fun e => (e.1, .ok e.2)) :
    DerivesAt ls placed ∧ depthAll (placed.map (·.2)) ≤ maxDepth := by
  induction placed generalizing ls start with
  | nil =>
    have hblank := (of_readItem_item_eq_none (item_of_run_eq_nil rfl h)).2
    obtain rfl : ls = [] := List.eq_nil_iff_forall_not_mem.mpr fun l hl => hls l hl (hblank l hl)
    exact ⟨.nil, Nat.zero_le _⟩
  | cons e placed ih =>
    obtain ⟨first, piece, rest, rfl, hderives, hdepth, hpos, hrest⟩ := derives_of_run_eq_cons hls h
    rw [← List.cons_append] at hls
    obtain ⟨hplaced, hplacedDepth⟩ := ih (fun l hl => hls l (List.mem_append_right _ hl)) hrest
    refine ⟨?_, Nat.max_le.mpr ⟨hdepth, hplacedDepth⟩⟩
    have hcons := DerivesAt.cons hderives hplaced
    rwa [show (first.start, e.2) = e from Prod.ext hpos rfl] at hcons

end Reader

/-! ## Whole texts -/

/-- In the lexeme, if it is a text in quotes, every backslash starts one of the escapes. -/
def Lexeme.WellEscaped (l : Lexeme) : Prop :=
  ∀ text, l.token = .quoted text → ∃ body content, text = inQuotes body ∧ Spells body content

/-- The lexeme stands in the text, at its offset. -/
def Lexeme.StandsIn (l : Lexeme) (text : String) : Prop :=
  ∃ before after, text.toList = before ++ (l.text ++ after) ∧ l.start = utf8Length before

/-- The text denotes the S-expressions: its lexemes, blanks apart, are tokens with known escapes
and bounded nesting, and they derive the S-expressions. -/
structure Denotes (text : String) (xs : List Sexp) : Prop where
  valid : ∀ l ∈ solid (lexemes text), l.token ≠ .invalid
  escapes : ∀ l ∈ solid (lexemes text), l.WellEscaped
  nesting : NestsWithin 0 (solid (lexemes text))
  derives : Derives (solid (lexemes text)) xs

theorem standsIn_of_mem_scan {start : Nat} {cs : List Char} {l : Lexeme} (hl : l ∈ scan start cs) :
    ∃ before after, cs = before ++ (l.text ++ after) ∧ l.start = start + utf8Length before := by
  fun_induction scan start cs with
  | case1 => cases hl
  | case2 start c cs first ih =>
    have hfirst : first.text ++ first.rest = c :: cs := cut_append c cs
    rcases List.mem_cons.mp hl with rfl | hl
    · exact ⟨[], first.rest, hfirst.symm, rfl⟩
    · obtain ⟨before, after, hrest, hstart⟩ := ih hl
      refine ⟨first.text ++ before, after, ?_, ?_⟩
      · rw [← hfirst, hrest, List.append_assoc]
      · rw [hstart, utf8Length_append, Nat.add_assoc]

theorem standsIn_of_mem_lexemes {text : String} {l : Lexeme} (hl : l ∈ lexemes text) :
    l.StandsIn text := by
  obtain ⟨before, after, htext, hstart⟩ := standsIn_of_mem_scan hl
  exact ⟨before, after, htext, by rw [hstart, Nat.zero_add]⟩

/-- The lexemes of a derivation are tokens. -/
theorem Derives.ne_invalid {ls : List Lexeme} {xs : List Sexp} (h : Derives ls xs) :
    ∀ l ∈ ls, l.token ≠ .invalid := by
  induction h with
  | nil => simp
  | atom hl _ ih => simpa [hl] using ih
  | quoted hl _ _ ih => simpa [hl] using ih
  | list hopening hclosing _ _ ihinner ih =>
    simp only [List.forall_mem_cons, List.forall_mem_append]
    exact ⟨by simp [hopening], ihinner, by simp [hclosing], ih⟩

/-- The texts in quotes of a derivation denote atoms. -/
theorem Derives.exists_unquote {ls : List Lexeme} {xs : List Sexp} (h : Derives ls xs) :
    ∀ l ∈ ls, ∀ text, l.token = .quoted text → ∃ content, unquote text = .ok content := by
  induction h with
  | nil => simp
  | atom hl _ ih => simpa [hl] using ih
  | quoted hl hcontent _ ih =>
    refine List.forall_mem_cons.mpr ⟨fun text htext => ?_, ih⟩
    cases hl.symm.trans htext
    exact ⟨_, hcontent⟩
  | list hopening hclosing _ _ ihinner ih =>
    simp only [List.forall_mem_cons, List.forall_mem_append]
    exact ⟨by simp [hopening], ihinner, by simp [hclosing], ih⟩

theorem wellEscaped_of_mem_lexemes {text : String} {l : Lexeme} (hl : l ∈ lexemes text)
    (h : ∀ quoted, l.token = .quoted quoted → ∃ content, unquote quoted = .ok content) :
    l.WellEscaped := by
  intro quoted hquoted
  obtain ⟨body, rfl⟩ := exists_body_of_mem_scan hl hquoted
  obtain ⟨content, hcontent⟩ := h _ hquoted
  exact ⟨body, content.toList, rfl, unquote_eq_ok_iff.mp hcontent⟩

theorem Denotes.of_derives {text : String} {xs : List Sexp}
    (h : Derives (solid (lexemes text)) xs) (hdepth : depthAll xs ≤ maxDepth) :
    Denotes text xs := by
  refine ⟨h.ne_invalid, fun l hl => ?_, ?_, h⟩
  · exact wellEscaped_of_mem_lexemes (List.mem_filter.mp hl).1 (h.exists_unquote l hl)
  · exact (h.nestsWithin_iff (k := 0) (Nat.zero_le _)).mpr (by simpa using hdepth)

theorem Denotes.depthAll_le {text : String} {xs : List Sexp} (h : Denotes text xs) :
    depthAll xs ≤ maxDepth := by
  simpa using (h.derives.nestsWithin_iff (k := 0) (Nat.zero_le _)).mp h.nesting

/-- What a text denotes is read, each S-expression at its place. -/
theorem locatedItems_of_denotes {text : String} {xs : List Sexp} (h : Denotes text xs) :
    ∃ placed, DerivesAt (solid (lexemes text)) placed ∧ placed.map (·.2) = xs ∧
      locatedItems text = placed.map fun e => (e.1, .ok e.2) := by
  obtain ⟨placed, hplaced, rfl⟩ := exists_derivesAt h.derives
  refine ⟨placed, hplaced, rfl, ?_⟩
  rw [locatedItems_eq]
  exact Reader.run_of_derivesAt hplaced h.depthAll_le 0

theorem items_of_denotes {text : String} {xs : List Sexp} (h : Denotes text xs) :
    items text = xs.map .ok := by
  obtain ⟨placed, -, rfl, hitems⟩ := locatedItems_of_denotes h
  simp [items, hitems]

/-- Items without an error, put together from their offsets and the S-expressions. -/
theorem exists_placed {items : List (Nat × Except ReadError Sexp)} {xs : List Sexp}
    (h : items.map (·.2) = xs.map .ok) :
    ∃ placed : List (Nat × Sexp), placed.map (·.2) = xs ∧
      items = placed.map fun e => (e.1, .ok e.2) := by
  induction items generalizing xs with
  | nil =>
    cases List.map_eq_nil_iff.mp h.symm
    exact ⟨[], rfl, rfl⟩
  | cons item items ih =>
    obtain ⟨x, xs, rfl, hx, hxs⟩ := List.map_eq_cons_iff.mp h.symm
    obtain ⟨placed, rfl, rfl⟩ := ih hxs.symm
    exact ⟨(item.1, x) :: placed, rfl, by rw [List.map_cons, hx]⟩

theorem ne_blank_of_mem_solid (ls : List Lexeme) : ∀ l ∈ solid ls, l.token ≠ .blank := by
  intro l hl
  simpa using (List.mem_filter.mp hl).2

theorem denotes_of_items {text : String} {xs : List Sexp} (h : items text = xs.map .ok) :
    Denotes text xs := by
  obtain ⟨placed, rfl, hitems⟩ := exists_placed h
  rw [locatedItems_eq] at hitems
  obtain ⟨hplaced, hdepth⟩ := Reader.derivesAt_of_run (ne_blank_of_mem_solid _) hitems
  exact .of_derives hplaced.derives hdepth

theorem parse_eq_ok_iff {text : String} {x : Sexp} :
    parse text = .ok x ↔ items text = [.ok x] := by
  unfold parse items
  rcases locatedItems text with _ | ⟨⟨start, e | y⟩, _ | ⟨⟨start', e' | y'⟩, rest⟩⟩ <;> simp

/-- **Reading is derivation.** The items of a text are some S-expressions, without an error, if and
only if the text denotes these S-expressions, and the text consists of a single S-expression just
if it denotes that alone. Each S-expression that a text denotes is read at the offset of its first
lexeme. -/
theorem items_eq_map_ok_iff (text : String) (xs : List Sexp) :
    (items text = xs.map .ok ↔ Denotes text xs) ∧
      (∀ x, parse text = .ok x ↔ Denotes text [x]) ∧
      (Denotes text xs →
        (∃ placed, DerivesAt (solid (lexemes text)) placed ∧ placed.map (·.2) = xs ∧
          locatedItems text = placed.map fun e => (e.1, .ok e.2)) ∧
        (∀ l ∈ solid (lexemes text), l.StandsIn text) ∧
        ∀ x, parse text = .ok x ↔ xs = [x]) := by
  have hitems : ∀ ys, items text = ys.map .ok ↔ Denotes text ys := fun _ =>
    ⟨denotes_of_items, items_of_denotes⟩
  refine ⟨hitems xs, fun x => parse_eq_ok_iff.trans (hitems [x]), fun h => ?_⟩
  refine ⟨locatedItems_of_denotes h, fun l hl => ?_, fun x => ?_⟩
  · exact standsIn_of_mem_lexemes (List.mem_filter.mp hl).1
  · rw [parse_eq_ok_iff, items_of_denotes h]
    simp [List.map_eq_cons_iff]

/-- A text with an escape, and with a comment between two items. -/
def commented : String := "(a \"b\\n\") ; c\n()"

theorem items_commented :
    Denotes commented [.list [.atom "a", .atom "b\n"], .list []] ∧
      (∃ placed, DerivesAt (solid (lexemes commented)) placed ∧
        placed.map (·.2) = [.list [.atom "a", .atom "b\n"], .list []] ∧
        locatedItems commented = placed.map fun e => (e.1, .ok e.2)) ∧
      ∀ x, parse commented ≠ .ok x := by
  have hitems := items_eq_map_ok_iff commented [.list [.atom "a", .atom "b\n"], .list []]
  have hdenotes := hitems.1.mp (by cbv)
  obtain ⟨hplaced, -, hparse⟩ := hitems.2.2 hdenotes
  exact ⟨hdenotes, hplaced, fun x hx => by simpa using (hparse x).mp hx⟩

end TermRules.Sexp
