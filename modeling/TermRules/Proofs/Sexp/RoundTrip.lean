import TermRules.Proofs.Sexp.Grammar
import TermRules.Proofs.Sexp.Lexemes

/-!
# Reading what was printed

The written form of an S-expression reads back as that S-expression if its lists are not nested too
deep (`parse_print_of_depth_le`). Otherwise reading stops at the first opening parenthesis of the
text in front of which as many lists are open as may be open at the same time. Both together are
`parse_print`.

Which parentheses those are is said on the S-expression and not on its lexemes: `Sexp.openings`
lists the opening parentheses of a written form, each with its offset and the number of lists
around it.
-/

namespace TermRules.Sexp

open Text

/-! ## Derivations of written forms -/

/-- The lexemes of the members of a list derive the members, up to the closing parenthesis. -/
theorem derives_writtenMembers {xs : List Sexp}
    (h : ∀ x ∈ xs, ∀ pos, Derives (x.writtenLexemes pos) [x]) (gap pos : Nat) :
    ∃ inner closing, writtenMembers gap pos xs = inner ++ [closing] ∧
      closing.token = .closing ∧ Derives inner xs := by
  induction xs generalizing gap pos with
  | nil => exact ⟨[], _, rfl, rfl, .nil⟩
  | cons x xs ih =>
    obtain ⟨inner, closing, heq, hclosing, hinner⟩ :=
      ih (fun y hy => h y (List.mem_cons_of_mem _ hy)) 1 (pos + gap + utf8Length x.chars)
    refine ⟨x.writtenLexemes (pos + gap) ++ inner, closing, ?_, hclosing, ?_⟩
    · rw [writtenMembers, heq, List.append_assoc]
    · exact (h x List.mem_cons_self _).append hinner

theorem derives_writtenLexemes (x : Sexp) (pos : Nat) : Derives (x.writtenLexemes pos) [x] := by
  induction x using Sexp.induction generalizing pos with
  | atom text =>
    rw [writtenLexemes]
    by_cases hbare : isBare text.toList = true
    · have h := Derives.atom (l := ⟨atomToken text.toList, pos, writeAtom text.toList⟩)
        (by rw [atomToken, if_pos hbare]) .nil
      rwa [String.ofList_toList] at h
    · have h := Derives.quoted (l := ⟨atomToken text.toList, pos, writeAtom text.toList⟩)
        (by rw [atomToken, if_neg hbare]) (unquote_quote text.toList) .nil
      rwa [String.ofList_toList] at h
  | list members ih =>
    obtain ⟨inner, closing, heq, hclosing, hinner⟩ := derives_writtenMembers ih 0 (pos + 1)
    rw [writtenLexemes, heq]
    exact .list rfl hclosing hinner .nil

theorem parse_print_of_depth_le {x : Sexp} (h : x.depth ≤ maxDepth) : parse x.print = .ok x := by
  refine parse_of_derives ?_ h
  rw [solid_lexemes_print]
  exact derives_writtenLexemes x 0

/-! ## The opening parentheses of a written form -/

/-- An opening parenthesis: its offset, and the number of lists that it stands in. -/
structure Opening where
  pos : Nat
  nesting : Nat

mutual

/-- The opening parentheses, in order, of a written form that starts at the byte `pos` and stands
in `nesting` lists. -/
def openingsFrom (pos nesting : Nat) : Sexp → List Opening
  | .atom _ => []
  | .list members => ⟨pos, nesting⟩ :: memberOpenings 0 (pos + 1) (nesting + 1) members

/-- The opening parentheses of the written form of members, with `gap` blanks before the first. -/
def memberOpenings (gap pos nesting : Nat) : List Sexp → List Opening
  | [] => []
  | x :: xs =>
    x.openingsFrom (pos + gap) nesting ++
      memberOpenings 1 (pos + gap + utf8Length x.chars) nesting xs

end

/-- The opening parentheses of the written form of an S-expression, in order. -/
def openings (x : Sexp) : List Opening := x.openingsFrom 0 0

theorem nesting_of_mem_memberOpenings {xs : List Sexp}
    (h : ∀ x ∈ xs, ∀ pos nesting, ∀ o ∈ x.openingsFrom pos nesting,
      nesting ≤ o.nesting ∧ o.nesting < nesting + x.depth)
    (gap pos nesting : Nat) {o : Opening} (ho : o ∈ memberOpenings gap pos nesting xs) :
    nesting ≤ o.nesting ∧ o.nesting < nesting + depthAll xs := by
  induction xs generalizing gap pos with
  | nil => simp [memberOpenings] at ho
  | cons x xs ih =>
    rw [memberOpenings, List.mem_append] at ho
    simp only [depthAll]
    rcases ho with ho | ho
    · have := h x List.mem_cons_self _ _ o ho
      omega
    · have := ih (fun y hy => h y (List.mem_cons_of_mem _ hy)) _ _ ho
      omega

/-- The nesting of the parentheses of `x` goes up to the depth of `x`. -/
theorem nesting_of_mem_openingsFrom {x : Sexp} (pos nesting : Nat) {o : Opening}
    (ho : o ∈ x.openingsFrom pos nesting) :
    nesting ≤ o.nesting ∧ o.nesting < nesting + x.depth := by
  induction x using Sexp.induction generalizing pos nesting o with
  | atom text => simp [openingsFrom] at ho
  | list members ih =>
    rw [openingsFrom, List.mem_cons] at ho
    simp only [depth]
    rcases ho with rfl | ho
    · simp only
      omega
    · have := nesting_of_mem_memberOpenings (fun x hx pos nesting o ho => ih x hx pos nesting ho)
        _ _ _ ho
      omega

/-- An offset, counted from `pos`, at which an opening parenthesis stands in the text `cs`. -/
def OpensAt (cs : List Char) (pos offset : Nat) : Prop :=
  ∃ before after, cs = before ++ '(' :: after ∧ offset = pos + utf8Length before

theorem OpensAt.append {cs : List Char} {pos offset : Nat} (h : OpensAt cs pos offset)
    (ds : List Char) : OpensAt (cs ++ ds) pos offset := by
  obtain ⟨before, after, rfl, rfl⟩ := h
  exact ⟨before, after ++ ds, by simp, rfl⟩

theorem OpensAt.prepend {ds : List Char} {pos offset : Nat} (cs : List Char)
    (h : OpensAt ds (pos + utf8Length cs) offset) : OpensAt (cs ++ ds) pos offset := by
  obtain ⟨before, after, rfl, rfl⟩ := h
  exact ⟨cs ++ before, after, by simp, by simp [Nat.add_assoc]⟩

theorem OpensAt.bounds {cs : List Char} {pos offset : Nat} (h : OpensAt cs pos offset) :
    pos ≤ offset ∧ offset < pos + utf8Length cs := by
  obtain ⟨before, after, rfl, rfl⟩ := h
  have : 0 < '('.utf8Size := by decide
  simp only [utf8Length_append, utf8Length_cons]
  omega

/-- The offsets of the opening parentheses of `x` are those of parentheses in the written form. -/
def OpensAsWritten (x : Sexp) : Prop :=
  ∀ (pos nesting : Nat), ∀ o ∈ x.openingsFrom pos nesting, OpensAt x.chars pos o.pos

theorem opensAt_restChars {xs : List Sexp} (h : ∀ x ∈ xs, OpensAsWritten x) (pos nesting : Nat)
    {o : Opening} (ho : o ∈ memberOpenings 1 pos nesting xs) :
    OpensAt (restChars xs) pos o.pos := by
  induction xs generalizing pos with
  | nil => simp [memberOpenings] at ho
  | cons x xs ih =>
    rw [restChars, ← List.singleton_append]
    refine .prepend [' '] ?_
    rw [memberOpenings, List.mem_append] at ho
    rcases ho with ho | ho
    · exact (h x List.mem_cons_self _ _ o ho).append _
    · exact .prepend x.chars (ih (fun y hy => h y (List.mem_cons_of_mem _ hy)) _ ho)

theorem opensAt_membersChars {xs : List Sexp} (h : ∀ x ∈ xs, OpensAsWritten x) (pos nesting : Nat)
    {o : Opening} (ho : o ∈ memberOpenings 0 pos nesting xs) :
    OpensAt (membersChars xs) pos o.pos := by
  cases xs with
  | nil => simp [memberOpenings] at ho
  | cons x xs =>
    rw [membersChars]
    rw [memberOpenings, List.mem_append] at ho
    rcases ho with ho | ho
    · exact (h x List.mem_cons_self _ _ o ho).append _
    · exact .prepend x.chars
        (opensAt_restChars (fun y hy => h y (List.mem_cons_of_mem _ hy)) _ _ ho)

theorem opensAsWritten (x : Sexp) : OpensAsWritten x := by
  induction x using Sexp.induction with
  | atom text =>
    intro pos nesting o ho
    simp [openingsFrom] at ho
  | list members ih =>
    intro pos nesting o ho
    rw [chars]
    rw [openingsFrom, List.mem_cons] at ho
    rcases ho with rfl | ho
    · exact ⟨[], membersChars members, rfl, rfl⟩
    · exact .prepend ['('] (opensAt_membersChars ih _ _ ho)

theorem pairwise_memberOpenings {xs : List Sexp}
    (h : ∀ x ∈ xs, ∀ pos nesting,
      (x.openingsFrom pos nesting).Pairwise fun o o' => o.pos < o'.pos)
    (gap pos nesting : Nat) :
    (memberOpenings gap pos nesting xs).Pairwise fun o o' => o.pos < o'.pos := by
  induction xs generalizing gap pos with
  | nil => exact .nil
  | cons x xs ih =>
    rw [memberOpenings, List.pairwise_append]
    refine ⟨h x List.mem_cons_self _ _, ih (fun y hy => h y (List.mem_cons_of_mem _ hy)) _ _, ?_⟩
    intro o ho o' ho'
    have hx := (opensAsWritten x _ _ o ho).bounds
    have hxs := (opensAt_restChars (fun y _ => opensAsWritten y) _ _ ho').bounds
    omega

theorem pairwise_openingsFrom (x : Sexp) (pos nesting : Nat) :
    (x.openingsFrom pos nesting).Pairwise fun o o' => o.pos < o'.pos := by
  induction x using Sexp.induction generalizing pos nesting with
  | atom text => exact .nil
  | list members ih =>
    rw [openingsFrom, List.pairwise_cons]
    refine ⟨fun o ho => ?_, pairwise_memberOpenings ih _ _ _⟩
    have := (opensAt_membersChars (fun y _ => opensAsWritten y) _ _ ho).bounds
    simp only
    omega

/-! ## Lists that are nested too deep -/

/-- The first of some parentheses that opens a list although `maxDepth` lists are open. -/
def firstTooDeep? (os : List Opening) : Option Opening := os.find? fun o => o.nesting == maxDepth

theorem firstTooDeep?_append_of_lt {os : List Opening} (h : ∀ o ∈ os, o.nesting < maxDepth)
    (os' : List Opening) : firstTooDeep? (os ++ os') = firstTooDeep? os' := by
  have hnone : os.find? (fun o => o.nesting == maxDepth) = none := by
    rw [List.find?_eq_none]
    intro o ho
    have := h o ho
    simp only [beq_iff_eq]
    omega
  rw [firstTooDeep?, List.find?_append, hnone]
  rfl

/-- Reading `x`, inside of open lists that leave too little room for it, stops at the first
parenthesis of `x` that opens one list too many. -/
def StopsTooDeep (x : Sexp) : Prop :=
  ∀ (pos start : Nat) (stack : List OpenList) (rest : List Lexeme), stack.length ≤ maxDepth →
    maxDepth < stack.length + x.depth →
    ∃ o, firstTooDeep? (x.openingsFrom pos stack.length) = some o ∧
      (readItem start stack (x.writtenLexemes pos ++ rest)).item = some (.error (.tooDeep o.pos))

theorem stopsTooDeep_members {xs : List Sexp} (h : ∀ x ∈ xs, StopsTooDeep x)
    (gap pos start : Nat) (innermost : OpenList) (outer : List OpenList) (rest : List Lexeme)
    (hopen : outer.length + 1 ≤ maxDepth) (hdepth : maxDepth < outer.length + 1 + depthAll xs) :
    ∃ o, firstTooDeep? (memberOpenings gap pos (outer.length + 1) xs) = some o ∧
      (readItem start (innermost :: outer) (writtenMembers gap pos xs ++ rest)).item =
        some (.error (.tooDeep o.pos)) := by
  induction xs generalizing gap pos innermost with
  | nil =>
    simp only [depthAll] at hdepth
    omega
  | cons x xs ih =>
    simp only [depthAll] at hdepth
    rw [memberOpenings, writtenMembers, List.append_assoc]
    by_cases hx : maxDepth < outer.length + 1 + x.depth
    · obtain ⟨o, ho, hread⟩ :=
        h x List.mem_cons_self (pos + gap) start (innermost :: outer) _ hopen hx
      simp only [List.length_cons] at ho
      refine ⟨o, ?_, hread⟩
      rw [firstTooDeep?] at ho ⊢
      rw [List.find?_append, ho]
      rfl
    · -- `x` leaves the stack as it was, so the parenthesis is one of the further members
      have hfits : ∀ o ∈ x.openingsFrom (pos + gap) (outer.length + 1), o.nesting < maxDepth := by
        intro o ho
        have := nesting_of_mem_openingsFrom _ _ ho
        omega
      have hroom : outer.length + 1 + depthAll [x] ≤ maxDepth := by
        simp only [depthAll]
        omega
      rw [firstTooDeep?_append_of_lt hfits,
        readItem_derives (derives_writtenLexemes x _) _ _ _ _ hroom]
      exact ih (fun y hy => h y (List.mem_cons_of_mem _ hy)) _ _ _ (by omega)

theorem stopsTooDeep (x : Sexp) : StopsTooDeep x := by
  induction x using Sexp.induction with
  | atom text =>
    intro pos start stack rest hopen hdepth
    simp only [depth] at hdepth
    omega
  | list members ih =>
    intro pos start stack rest hopen hdepth
    simp only [depth] at hdepth
    rw [openingsFrom, writtenLexemes, List.cons_append]
    by_cases hfull : stack.length = maxDepth
    · refine ⟨⟨pos, stack.length⟩, ?_, readItem_opening_tooDeep _ _ rfl (by omega)⟩
      simp [firstTooDeep?, hfull]
    · obtain ⟨o, ho, hread⟩ := stopsTooDeep_members ih 0 (pos + 1)
        (startAfter start ⟨.opening, pos, ['(']⟩ stack) ⟨pos, []⟩ stack rest (by omega) (by omega)
      refine ⟨o, ?_, ?_⟩
      · rw [← List.singleton_append, firstTooDeep?_append_of_lt _ _, ho]
        intro o ho
        rw [List.mem_singleton.mp ho]
        simp only
        omega
      · rw [readItem_opening _ _ rfl (by omega)]
        exact hread

theorem parse_print_of_lt_depth {x : Sexp} (h : maxDepth < x.depth) :
    ∃ o, firstTooDeep? x.openings = some o ∧ parse x.print = .error (.tooDeep o.pos) := by
  obtain ⟨o, ho, hread⟩ := stopsTooDeep x 0 0 [] [] (by simp) (by simpa using h)
  refine ⟨o, ho, parse_of_item_error ?_⟩
  rw [solid_lexemes_print]
  simpa using hread

/-! ## Reading what was printed -/

/-- **Reading what was printed.** An S-expression of depth at most `maxDepth` reads back as itself.
Of a deeper one, reading stops at the first opening parenthesis of the text that stands in
`maxDepth` lists. -/
theorem parse_print (x : Sexp) :
    (x.depth ≤ maxDepth → parse x.print = .ok x) ∧
    (maxDepth < x.depth →
      ∃ o ∈ x.openings, o.nesting = maxDepth ∧
        (∀ o' ∈ x.openings, o'.nesting = maxDepth → o.pos ≤ o'.pos) ∧
        (∃ before after, x.print.toList = before ++ '(' :: after ∧ o.pos = utf8Length before) ∧
        parse x.print = .error (.tooDeep o.pos)) := by
  refine ⟨parse_print_of_depth_le, fun h => ?_⟩
  obtain ⟨o, ho, hparse⟩ := parse_print_of_lt_depth h
  obtain ⟨hnesting, front, back, hsplit, hfront⟩ := List.find?_eq_some_iff_append.mp ho
  have hmem : o ∈ x.openings := by simp [hsplit]
  refine ⟨o, hmem, by simpa using hnesting, fun o' ho' hnesting' => ?_, ?_, hparse⟩
  · have hsorted : (front ++ o :: back).Pairwise fun o o' => o.pos < o'.pos := by
      rw [← hsplit]
      exact pairwise_openingsFrom x 0 0
    rw [hsplit, List.mem_append, List.mem_cons] at ho'
    rcases ho' with ho' | rfl | ho'
    · exact absurd (hfront o' ho') (by simp [hnesting'])
    · exact Nat.le_refl _
    · exact Nat.le_of_lt ((List.pairwise_cons.mp (List.pairwise_append.mp hsorted).2.1).1 o' ho')
  · obtain ⟨before, after, hchars, hpos⟩ := opensAsWritten x 0 0 o hmem
    exact ⟨before, after, by simp [print, hchars], by simpa using hpos⟩

/-- An atom within `n` lists. -/
def nested : Nat → Sexp
  | 0 => .atom "a"
  | n + 1 => .list [nested n]

theorem depth_nested (n : Nat) : (nested n).depth = n := by
  induction n with
  | zero => rfl
  | succ n ih => simp [nested, depth, depthAll, ih]

theorem parse_print_nested :
    ((nested 256).depth ≤ maxDepth ∧ parse (nested 256).print = .ok (nested 256)) ∧
    (maxDepth < (nested 257).depth ∧
      ∃ o ∈ (nested 257).openings, o.nesting = maxDepth ∧
        parse (nested 257).print = .error (.tooDeep o.pos)) := by
  have hfits : (nested 256).depth ≤ maxDepth := by rw [depth_nested]; decide
  have hdeep : maxDepth < (nested 257).depth := by rw [depth_nested]; decide
  obtain ⟨o, ho, hnesting, -, -, hparse⟩ := (parse_print (nested 257)).2 hdeep
  exact ⟨⟨hfits, (parse_print (nested 256)).1 hfits⟩, hdeep, o, ho, hnesting, hparse⟩

end TermRules.Sexp
