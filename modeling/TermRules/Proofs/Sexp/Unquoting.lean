import TermRules.Proofs.Sexp.Bareness

/-!
# Texts in quotes are read unit by unit

The scanner and the reader of a text in quotes find its escapes each by themselves. To the scanner,
what stands between the quotes consists of units: a backslash with the character behind it, or a
single other character (`bodyUnit`). The reader goes from step to step, and takes a backslash
together with the character behind it, or a single character (`pieces`). That its steps are the
units of the scanner, whatever there is in runs of backslashes, is `pieces_flatten`.

So each unit is read by itself: `readPieces_eq_ok_iff` and `readPieces_eq_error_iff` say what comes
of reading pieces, and `exists_units_of_mem_lexemes` says what this is for the lexemes of a text.
-/

namespace TermRules.Sexp

open Text

/-! ## Steps -/

/-- What the reader takes at each of its steps through a text between quotes. -/
def pieces : List Char → List (List Char)
  | [] => []
  | ['\\'] => [['\\']]
  | '\\' :: letter :: rest => ['\\', letter] :: pieces rest
  | c :: rest => [c] :: pieces rest

/-- A piece of a text between quotes stands for a character. -/
inductive StandsFor : List Char → Char → Prop
  | plain {c} (hc : c ≠ '\\') : StandsFor [c] c
  | escape {letter c} (hletter : (letter, c) ∈ escapes) : StandsFor ['\\', letter] c

/-- The character that a piece stands for. -/
def meaning? : List Char → Option Char
  | [c] => if c = '\\' then none else some c
  | [c, letter] => if c = '\\' then escapedBy? letter else none
  | _ => none

/-- The characters that the pieces stand for, where the first piece starts at the byte `offset`. The
error is the offset of the first piece that stands for nothing. -/
def readPieces (offset : Nat) : List (List Char) → Except Nat (List Char)
  | [] => .ok []
  | piece :: ps =>
    match meaning? piece with
    | some c => (readPieces (offset + utf8Length piece) ps).map (c :: ·)
    | none => .error offset

theorem meaning?_eq_some_iff {piece : List Char} {c : Char} :
    meaning? piece = some c ↔ StandsFor piece c := by
  constructor
  · intro h
    unfold meaning? at h
    split at h
    next d =>
      split at h
      · cases h
      next hd =>
        cases h
        exact .plain hd
    next d letter =>
      split at h
      next hd =>
        subst hd
        exact .escape (escapedBy?_eq_some_iff.mp h)
      · cases h
    · cases h
  · intro h
    cases h with
    | plain hc => rw [meaning?, if_neg hc]
    | escape hletter => rw [meaning?, if_pos rfl, escapedBy?_eq_some_iff.mpr hletter]

theorem pieces_cons {c : Char} (hc : c ≠ '\\') (rest : List Char) :
    pieces (c :: rest) = [c] :: pieces rest := by
  rw [pieces]
  · exact fun e _ => hc e
  · exact fun _ _ e _ => hc e

/-- A text between quotes is read piece by piece. -/
theorem decode_eq_readPieces (offset : Nat) (body : List Char) :
    decode offset body = readPieces offset (pieces body) := by
  fun_induction decode offset body with
  | case1 => rfl
  | case2 offset => rfl
  | case3 offset letter rest c hc ih =>
    have hsize : utf8Length ['\\', letter] = 2 := by
      rw [utf8Length_cons, utf8Length_cons,
        utf8Size_of_mem_escapes (escapedBy?_eq_some_iff.mp hc)]
      rfl
    simp only [pieces, readPieces, meaning?, if_pos, hc, hsize, ih]
  | case4 offset letter rest hnone => simp only [pieces, readPieces, meaning?, if_pos, hnone]
  | case5 offset c rest hlast hescape ih =>
    have hc := ne_backslash_of_forall hlast hescape
    rw [pieces_cons hc, readPieces, meaning?_eq_some_iff.mpr (.plain hc), ih]
    rfl

/-- The units of a text between quotes are the pieces that are read. -/
theorem pieces_flatten {units : List (List Char)} (h : ∀ unit ∈ units, unit ∈ bodyUnit) :
    pieces units.flatten = units := by
  induction units with
  | nil => rfl
  | cons unit units ih =>
    obtain ⟨hunit, hunits⟩ := List.forall_mem_cons.mp h
    rw [List.flatten_cons]
    rcases mem_bodyUnit.mp hunit with ⟨c, -, hc, rfl⟩ | ⟨letter, -, rfl⟩
    · rw [List.singleton_append, pieces_cons hc, ih hunits]
    · simp only [List.cons_append, List.nil_append, pieces, ih hunits]

/-! ## What is read -/

section Pieces

variable {offset : Nat} {ps : List (List Char)}

theorem readPieces_eq_ok_iff {content : List Char} :
    readPieces offset ps = .ok content ↔ List.Forall₂ StandsFor ps content := by
  induction ps generalizing offset content with
  | nil => rw [readPieces, List.forall₂_nil_left_iff, Except.ok.injEq, eq_comm]
  | cons piece ps ih =>
    rw [readPieces, List.forall₂_cons_left_iff]
    simp only [← meaning?_eq_some_iff]
    cases meaning? piece with
    | none => simp
    | some c =>
      simp only [map_eq_ok, ih]
      constructor
      · rintro ⟨rest, hrest, rfl⟩
        exact ⟨c, rest, rfl, hrest, rfl⟩
      · rintro ⟨_, rest, ⟨⟩, hrest, rfl⟩
        exact ⟨rest, hrest, rfl⟩

theorem exists_readPieces_iff :
    (∃ content, readPieces offset ps = .ok content) ↔ ∀ piece ∈ ps, ∃ c, StandsFor piece c := by
  simp only [readPieces_eq_ok_iff]
  induction ps with
  | nil => simp
  | cons piece ps ih =>
    rw [List.forall_mem_cons, ← ih]
    constructor
    · rintro ⟨_, h⟩
      cases h with
      | cons hpiece hps => exact ⟨⟨_, hpiece⟩, _, hps⟩
    · rintro ⟨⟨c, hpiece⟩, content, hps⟩
      exact ⟨c :: content, .cons hpiece hps⟩

/-- Reading fails at the first piece that stands for nothing. -/
theorem readPieces_eq_error_iff {pos : Nat} :
    readPieces offset ps = .error pos ↔
      ∃ before piece after, ps = before ++ piece :: after ∧
        (∀ p ∈ before, ∃ c, StandsFor p c) ∧ (∀ c, ¬StandsFor piece c) ∧
        pos = offset + utf8Length before.flatten := by
  constructor
  · intro h
    induction ps generalizing offset with
    | nil => cases h
    | cons piece ps ih =>
      rw [readPieces] at h
      split at h
      next c hc =>
        obtain ⟨before, bad, after, rfl, hbefore, hbad, rfl⟩ := ih (map_eq_error.mp h)
        refine ⟨piece :: before, bad, after, rfl, ?_, hbad, ?_⟩
        · exact List.forall_mem_cons.mpr ⟨⟨c, meaning?_eq_some_iff.mp hc⟩, hbefore⟩
        · rw [List.flatten_cons, utf8Length_append, Nat.add_assoc]
      next hnone =>
        cases h
        refine ⟨[], piece, ps, rfl, by simp, fun c hc => ?_, rfl⟩
        rw [meaning?_eq_some_iff.mpr hc] at hnone
        cases hnone
  · rintro ⟨before, piece, after, rfl, hbefore, hpiece, rfl⟩
    induction before generalizing offset with
    | nil =>
      have hnone : meaning? piece = none := Option.eq_none_iff_forall_ne_some.mpr fun c hc =>
        hpiece c (meaning?_eq_some_iff.mp hc)
      rw [List.nil_append, readPieces, hnone]
      rfl
    | cons p before ih =>
      obtain ⟨⟨c, hc⟩, hbefore⟩ := List.forall_mem_cons.mp hbefore
      rw [List.cons_append, readPieces, meaning?_eq_some_iff.mpr hc, List.flatten_cons,
        utf8Length_append, ← Nat.add_assoc]
      exact map_eq_error.mpr (ih hbefore)

end Pieces

/-! ## Lexemes in quotes -/

/-- The text consists of two quotes and of the units of the scanner between them. -/
structure HasUnits (quoted : List Char) (units : List (List Char)) : Prop where
  mem : ∀ unit ∈ units, unit ∈ bodyUnit
  eq_inQuotes : quoted = inQuotes units.flatten

/-- A unit stands for a character unless it is a backslash with a letter of no escape. -/
theorem exists_standsFor_iff {unit : List Char} (h : unit ∈ bodyUnit) :
    (∃ c, StandsFor unit c) ↔ ∀ letter, unit = ['\\', letter] → ∃ c, (letter, c) ∈ escapes := by
  rcases mem_bodyUnit.mp h with ⟨d, -, hd, rfl⟩ | ⟨letter, -, rfl⟩
  · exact iff_of_true ⟨d, .plain hd⟩ (by simp)
  · constructor
    · rintro ⟨c, hc⟩ _ ⟨⟩
      cases hc with
      | escape hletter => exact ⟨c, hletter⟩
    · intro h
      obtain ⟨c, hletter⟩ := h letter rfl
      exact ⟨c, .escape hletter⟩

/-- All of some units stand for characters unless there is an unknown escape among them. -/
theorem forall_exists_standsFor_iff {units : List (List Char)}
    (h : ∀ unit ∈ units, unit ∈ bodyUnit) :
    (∀ unit ∈ units, ∃ c, StandsFor unit c) ↔
      ∀ letter, ['\\', letter] ∈ units → ∃ c, (letter, c) ∈ escapes := by
  constructor
  · intro hall letter hmem
    exact (exists_standsFor_iff (h _ hmem)).mp (hall _ hmem) letter rfl
  · intro hall unit hmem
    refine (exists_standsFor_iff (h unit hmem)).mpr ?_
    rintro letter rfl
    exact hall letter hmem

/-- A text in quotes is read unit by unit. -/
structure IsReadByUnits (quoted : List Char) (units : List (List Char)) : Prop where
  /-- The steps of the reader are the units of the scanner. -/
  pieces_eq : pieces (interior quoted) = units
  unquote_eq : unquote quoted = (readPieces 1 units).map String.ofList
  /-- At no step is there a backslash with nothing behind it. -/
  not_mem : ['\\'] ∉ units
  /-- The atom has one character for each unit. -/
  eq_ok_iff : ∀ content : String,
    unquote quoted = .ok content ↔ List.Forall₂ StandsFor units content.toList
  /-- There is an atom just if all escapes are known. -/
  exists_iff : (∃ content, unquote quoted = .ok content) ↔
    ∀ letter, ['\\', letter] ∈ units → ∃ c, (letter, c) ∈ escapes
  /-- The error is the number of bytes in front of the first unknown escape. -/
  eq_error_iff : ∀ pos, unquote quoted = .error pos ↔
    ∃ before letter after, units = before ++ ['\\', letter] :: after ∧
      (∀ known, ['\\', known] ∈ before → ∃ c, (known, c) ∈ escapes) ∧
      (∀ c, (letter, c) ∉ escapes) ∧ pos = utf8Length ('"' :: before.flatten)

section Units

variable {quoted : List Char} {units : List (List Char)}

theorem HasUnits.pieces_interior (h : HasUnits quoted units) :
    pieces (interior quoted) = units := by
  rw [h.eq_inQuotes, interior_inQuotes, pieces_flatten h.mem]

theorem HasUnits.unquote_eq (h : HasUnits quoted units) :
    unquote quoted = (readPieces 1 units).map String.ofList := by
  rw [unquote, decode_eq_readPieces, h.pieces_interior]

theorem HasUnits.singleton_backslash_not_mem (h : HasUnits quoted units) : ['\\'] ∉ units := by
  intro hmem
  rcases mem_bodyUnit.mp (h.mem _ hmem) with ⟨c, -, hc, heq⟩ | ⟨c, -, heq⟩
  · exact hc (List.singleton_inj.mp heq).symm
  · cases heq

theorem HasUnits.unquote_eq_ok_iff (h : HasUnits quoted units) (content : String) :
    unquote quoted = .ok content ↔ List.Forall₂ StandsFor units content.toList := by
  rw [h.unquote_eq, map_eq_ok, ← @readPieces_eq_ok_iff 1]
  constructor
  · rintro ⟨cs, hcs, rfl⟩
    rw [hcs, String.toList_ofList]
  · intro hcs
    exact ⟨content.toList, hcs, String.ofList_toList⟩

theorem HasUnits.exists_unquote_iff (h : HasUnits quoted units) :
    (∃ content, unquote quoted = .ok content) ↔
      ∀ letter, ['\\', letter] ∈ units → ∃ c, (letter, c) ∈ escapes := by
  rw [← forall_exists_standsFor_iff h.mem, ← @exists_readPieces_iff 1, h.unquote_eq]
  simp only [map_eq_ok]
  constructor
  · rintro ⟨_, cs, hcs, -⟩
    exact ⟨cs, hcs⟩
  · rintro ⟨cs, hcs⟩
    exact ⟨_, cs, hcs, rfl⟩

/-- Among the units, the one at which reading fails is an unknown escape. -/
theorem HasUnits.unquote_eq_error_iff (h : HasUnits quoted units) (pos : Nat) :
    unquote quoted = .error pos ↔
      ∃ before letter after, units = before ++ ['\\', letter] :: after ∧
        (∀ known, ['\\', known] ∈ before → ∃ c, (known, c) ∈ escapes) ∧
        (∀ c, (letter, c) ∉ escapes) ∧ pos = utf8Length ('"' :: before.flatten) := by
  rw [h.unquote_eq, map_eq_error, readPieces_eq_error_iff]
  have hunits := h.mem
  constructor
  · rintro ⟨before, unit, after, rfl, hbefore, hunit, hpos⟩
    obtain ⟨hbefore', hunit', -⟩ := by
      simpa only [List.forall_mem_append, List.forall_mem_cons] using hunits
    rcases mem_bodyUnit.mp hunit' with ⟨c, -, hc, rfl⟩ | ⟨letter, -, rfl⟩
    · exact absurd (.plain hc) (hunit c)
    · exact ⟨before, letter, after, rfl, (forall_exists_standsFor_iff hbefore').mp hbefore,
        fun c hc => hunit c (.escape hc), hpos⟩
  · rintro ⟨before, letter, after, rfl, hbefore, hletter, hpos⟩
    have hbefore' := (List.forall_mem_append.mp hunits).1
    refine ⟨before, _, after, rfl, (forall_exists_standsFor_iff hbefore').mpr hbefore, ?_, hpos⟩
    intro c hc
    cases hc with
    | escape hmem => exact hletter c hmem

theorem HasUnits.isReadByUnits (h : HasUnits quoted units) : IsReadByUnits quoted units where
  pieces_eq := h.pieces_interior
  unquote_eq := h.unquote_eq
  not_mem := h.singleton_backslash_not_mem
  eq_ok_iff := h.unquote_eq_ok_iff
  exists_iff := h.exists_unquote_iff
  eq_error_iff := h.unquote_eq_error_iff

end Units

theorem exists_hasUnits {body : List Char} (h : body ∈ bodies) :
    ∃ units, HasUnits (inQuotes body) units := by
  obtain ⟨units, rfl, hunits⟩ := Language.mem_kstar.mp h
  exact ⟨units, hunits, rfl⟩

/-- **Scanner and reader find the same escapes.** What stands between the quotes of a lexeme in
quotes consists of units of the scanner, in one way only since they are the steps of the reader. So
it is read unit by unit. -/
theorem exists_units_of_mem_lexemes {text : String} {l : Lexeme} (hl : l ∈ lexemes text)
    {quoted : List Char} (hquoted : l.token = .quoted quoted) :
    l.text = quoted ∧ (∃! units, HasUnits quoted units) ∧
      ∀ units, HasUnits quoted units → IsReadByUnits quoted units := by
  obtain ⟨rest, hlongest⟩ := exists_isLongest_of_mem_lexemes hl
  obtain ⟨htext, body, hbody, rfl⟩ := hlongest.of_quoted hquoted
  obtain ⟨units, hunits⟩ := exists_hasUnits hbody
  have hunique : ∀ us, HasUnits (inQuotes body) us → us = units := fun us hus => by
    rw [← hus.pieces_interior, hunits.pieces_interior]
  exact ⟨htext, ⟨units, hunits, hunique⟩, fun _ => HasUnits.isReadByUnits⟩

/-- A text in quotes in which a backslash that is no escape stands behind one that is, and both
behind a character of two bytes. -/
def unknownEscape : List Char := ['"', 'é', '\\', '\\', '\\', 'q', '"']

theorem unquote_unknownEscape :
    ⟨.quoted unknownEscape, 0, unknownEscape⟩ ∈ lexemes (String.ofList unknownEscape) ∧
      HasUnits unknownEscape [['é'], ['\\', '\\'], ['\\', 'q']] ∧
      unquote unknownEscape = .error 5 := by
  have hl : ⟨.quoted unknownEscape, 0, unknownEscape⟩ ∈
      lexemes (String.ofList unknownEscape) := by
    have hlexemes : lexemes (String.ofList unknownEscape) =
        [⟨.quoted unknownEscape, 0, unknownEscape⟩] := by cbv
    rw [hlexemes]
    exact List.mem_singleton_self _
  have hunits : HasUnits unknownEscape [['é'], ['\\', '\\'], ['\\', 'q']] := by
    refine ⟨?_, rfl⟩
    simp [mem_bodyUnit]
  obtain ⟨-, -, hread⟩ := exists_units_of_mem_lexemes hl rfl
  refine ⟨hl, hunits, ((hread _ hunits).eq_error_iff 5).mpr ?_⟩
  exact ⟨[['é'], ['\\', '\\']], 'q', [], rfl, by simp [escapes], by simp [escapes], rfl⟩

end TermRules.Sexp
