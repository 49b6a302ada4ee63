import TermRules.Proofs.Outcome
import TermRules.Proofs.Sexp.Reading

/-!
# Offsets in what is read

Where the tokens of a text stand matters for the offsets of errors and for nothing else. This is
said for two sequences of lexemes with the same tokens, whose offsets `f` and `g` make equal
(`Lexeme.placed`): the reader moves on both alike (`mapOffset_move`), and the items are the same, up
to errors whose offsets `f` and `g` make equal (`items_of_placed_eq`).

Two uses of it: `f` and `g` may forget the offsets, or `g` may shift them, as happens to the lexemes
of a text that stands behind another one (`placed_scan`).
-/

namespace TermRules.Sexp

open Text

/-! ## Offsets of errors -/

namespace ReadError

/-- The error, with what `f` makes of its offset. -/
def mapOffset (f : Nat → Nat) : ReadError → ReadError
  | unexpectedClose pos => unexpectedClose (f pos)
  | unclosedOpen pos => unclosedOpen (f pos)
  | tooDeep pos => tooDeep (f pos)
  | invalidToken pos => invalidToken (f pos)
  | invalidEscape pos => invalidEscape (f pos)
  | noItem => noItem
  | trailing pos => trailing (f pos)

/-- The error, its offset aside. -/
def unplaced : ReadError → ReadError := mapOffset fun _ => 0

theorem mapOffset_id (e : ReadError) : e.mapOffset id = e := by
  cases e <;> rfl

theorem mapOffset_mapOffset (f g : Nat → Nat) (e : ReadError) :
    (e.mapOffset g).mapOffset f = e.mapOffset fun n => f (g n) := by
  cases e <;> rfl

end ReadError

/-- The token of a lexeme, with what `f` makes of its offset. -/
def Lexeme.placed (f : Nat → Nat) (l : Lexeme) : Token × Nat := (l.token, f l.start)

/-- The open list, with what `f` makes of its offset. -/
def OpenList.mapOffset (f : Nat → Nat) (l : OpenList) : OpenList := { l with start := f l.start }

/-- The move, with what `f` makes of the offsets in it. -/
def Move.mapOffset (f : Nat → Nat) : Move → Move
  | skip => skip
  | enter l => enter (l.mapOffset f)
  | complete x outer => complete x (outer.map (OpenList.mapOffset f))
  | fail e => fail (e.mapOffset f)

namespace Move

variable {f : Nat → Nat} {m : Move}

theorem mapOffset_eq_skip_iff : m.mapOffset f = skip ↔ m = skip := by
  cases m <;> simp [mapOffset]

theorem mapOffset_eq_enter_iff {l : OpenList} :
    m.mapOffset f = enter l ↔ ∃ opened, m = enter opened ∧ opened.mapOffset f = l := by
  cases m <;> simp [mapOffset]

theorem mapOffset_eq_complete_iff {x : Sexp} {outer : List OpenList} :
    m.mapOffset f = complete x outer ↔
      ∃ lists, m = complete x lists ∧ lists.map (OpenList.mapOffset f) = outer := by
  cases m <;> simp [mapOffset, and_assoc]

theorem mapOffset_eq_fail_iff {e : ReadError} :
    m.mapOffset f = fail e ↔ ∃ error, m = fail error ∧ error.mapOffset f = e := by
  cases m <;> simp [mapOffset]

end Move

/-- The items, with what `f` makes of the offset of an error. -/
def mapItems (f : Nat → Nat) (items : List (Except ReadError Sexp)) :
    List (Except ReadError Sexp) :=
  items.map fun item => item.mapError (ReadError.mapOffset f)

theorem mapItems_id (items : List (Except ReadError Sexp)) : mapItems id items = items := by
  refine (List.map_congr_left fun item _ => ?_).trans (List.map_id items)
  cases item with
  | error e => exact congrArg Except.error e.mapOffset_id
  | ok x => rfl

theorem mapItems_mapItems (f g : Nat → Nat) (items : List (Except ReadError Sexp)) :
    mapItems f (mapItems g items) = mapItems (fun n => f (g n)) items := by
  refine List.map_map.trans (List.map_congr_left fun item _ => ?_)
  cases item with
  | error e => exact congrArg Except.error (e.mapOffset_mapOffset f g)
  | ok x => rfl

theorem mapItems_append (f : Nat → Nat) (items items' : List (Except ReadError Sexp)) :
    mapItems f (items ++ items') = mapItems f items ++ mapItems f items' :=
  List.map_append

theorem mapItems_map_ok (f : Nat → Nat) (xs : List Sexp) :
    mapItems f (xs.map .ok) = xs.map .ok :=
  List.map_map

theorem map_placed_solid (f : Nat → Nat) (ls : List Lexeme) :
    (solid ls).map (Lexeme.placed f) = (ls.map (Lexeme.placed f)).filter (·.1 ≠ .blank) := by
  rw [List.filter_map]
  rfl

/-! ## The same tokens at other places -/

section Agreement

variable {f g : Nat → Nat}

theorem OpenList.mapOffset_add (l : OpenList) (x : Sexp) :
    (l.add x).mapOffset f = (l.mapOffset f).add x := rfl

theorem members_of_mapOffset_eq {l l' : OpenList} (h : l.mapOffset f = l'.mapOffset g) :
    l.members = l'.members := by
  have hmembers : (l.mapOffset f).members = (l'.mapOffset g).members := by rw [h]
  exact hmembers

-- Offsets that `f` and `g` make equal stay equal by the same number of bytes further on.
variable (hfg : ∀ p q k, f p = g q → f (p + k) = g (q + k))

include hfg

theorem mapOffset_move {stack stack' : List OpenList} {l l' : Lexeme}
    (hstack : stack.map (OpenList.mapOffset f) = stack'.map (OpenList.mapOffset g))
    (hl : l.placed f = l'.placed g) :
    (move stack l).mapOffset f = (move stack' l').mapOffset g := by
  obtain ⟨htoken, hstart⟩ : l.token = l'.token ∧ f l.start = g l'.start := Prod.mk.inj hl
  have hlength : stack.length = stack'.length := by simpa using congrArg List.length hstack
  unfold move
  rw [htoken, hlength]
  cases l'.token with
  | blank => rfl
  | opening =>
    simp only
    split
    · simp [Move.mapOffset, OpenList.mapOffset, hstart]
    · simp [Move.mapOffset, ReadError.mapOffset, hstart]
  | closing =>
    cases stack with
    | nil =>
      obtain rfl : stack' = [] := List.map_eq_nil_iff.mp hstack.symm
      simp [Move.mapOffset, ReadError.mapOffset, hstart]
    | cons innermost outer =>
      obtain ⟨innermost', outer', rfl, hinnermost, houter⟩ := List.map_eq_cons_iff.mp hstack.symm
      simp [Move.mapOffset, members_of_mapOffset_eq hinnermost, houter]
  | atom text => simp [Move.mapOffset, hstack]
  | quoted text =>
    -- the offset of an unknown escape is counted from the start of the quotation
    simp only
    cases unquote text with
    | ok content => simp [Move.mapOffset, hstack]
    | error offset => simp [Move.mapOffset, ReadError.mapOffset, hfg _ _ offset hstart]
  | invalid => simp [Move.mapOffset, ReadError.mapOffset, hstart]

/-- The reader makes the same of the same tokens, one item at a time. -/
theorem readItem_of_placed_eq {ls ls' : List Lexeme} {stack stack' : List OpenList}
    (hls : ls.map (Lexeme.placed f) = ls'.map (Lexeme.placed g))
    (hstack : stack.map (OpenList.mapOffset f) = stack'.map (OpenList.mapOffset g))
    (start start' : Nat) :
    (readItem start stack ls).item.map (fun item => item.mapError (ReadError.mapOffset f)) =
        (readItem start' stack' ls').item.map (fun item => item.mapError (ReadError.mapOffset g)) ∧
      (readItem start stack ls).rest.map (Lexeme.placed f) =
        (readItem start' stack' ls').rest.map (Lexeme.placed g) := by
  induction ls generalizing ls' stack stack' start start' with
  | nil =>
    obtain rfl : ls' = [] := List.map_eq_nil_iff.mp hls.symm
    cases stack with
    | nil =>
      obtain rfl : stack' = [] := List.map_eq_nil_iff.mp hstack.symm
      exact ⟨rfl, rfl⟩
    | cons innermost outer =>
      obtain ⟨innermost', outer', rfl, hinnermost, -⟩ := List.map_eq_cons_iff.mp hstack.symm
      have hstart : g innermost'.start = f innermost.start := congrArg OpenList.start hinnermost
      simp [readItem, mapError_error, ReadError.mapOffset, hstart]
  | cons l ls ih =>
    obtain ⟨l', ls', rfl, hl, hls⟩ := List.map_eq_cons_iff.mp hls.symm
    have hmove := mapOffset_move hfg hstack hl.symm
    simp only [readItem]
    cases hm : move stack l with
    | skip =>
      rw [hm] at hmove
      rw [Move.mapOffset_eq_skip_iff.mp hmove.symm]
      exact ih hls.symm hstack _ _
    | enter opened =>
      rw [hm] at hmove
      obtain ⟨opened', hm', hopened⟩ := Move.mapOffset_eq_enter_iff.mp hmove.symm
      rw [hm']
      exact ih hls.symm (by simp [hopened, hstack]) _ _
    | complete x outer =>
      rw [hm] at hmove
      obtain ⟨outer', hm', houter⟩ := Move.mapOffset_eq_complete_iff.mp hmove.symm
      rw [hm']
      cases outer with
      | nil =>
        obtain rfl : outer' = [] := List.map_eq_nil_iff.mp houter
        exact ⟨rfl, hls.symm⟩
      | cons innermost outer =>
        obtain ⟨innermost', outer', rfl, hinnermost, houter⟩ := List.map_eq_cons_iff.mp houter
        refine ih hls.symm ?_ _ _
        simp [OpenList.mapOffset_add, hinnermost, houter]
    | fail e =>
      rw [hm] at hmove
      obtain ⟨e', hm', he⟩ := Move.mapOffset_eq_fail_iff.mp hmove.symm
      rw [hm']
      simp [mapError_error, he, hls]

/-- What a reading that has not failed finds in the lexemes ahead. -/
theorem run_of_placed_eq {ls ls' : List Lexeme}
    (hls : ls.map (Lexeme.placed f) = ls'.map (Lexeme.placed g)) (start start' : Nat) :
    mapItems f ((Reader.run ⟨ls, start, false⟩).1.map (·.2)) =
      mapItems g ((Reader.run ⟨ls', start', false⟩).1.map (·.2)) := by
  generalize hn : ls.length = n
  induction n using Nat.strongRecOn generalizing ls ls' start start' with
  | _ n ih =>
    obtain ⟨hitem, hrest⟩ := readItem_of_placed_eq hfg hls (List.map_nil.trans List.map_nil.symm)
      start start'
    cases ho : (readItem start [] ls).item with
    | none =>
      rw [ho] at hitem
      have ho' := Option.map_eq_none_iff.mp hitem.symm
      rw [Reader.run_of_item_none rfl ho, Reader.run_of_item_none rfl ho']
      rfl
    | some item =>
      rw [ho] at hitem
      obtain ⟨item', ho', hitem⟩ := Option.map_eq_some_iff.mp hitem.symm
      cases item with
      | error e =>
        obtain ⟨e', rfl, he⟩ := mapError_eq_error.mp hitem
        rw [Reader.run_of_item_error rfl ho, Reader.run_of_item_error rfl ho']
        simp [mapItems, mapError_error, he]
      | ok x =>
        obtain rfl := mapError_eq_ok.mp hitem
        have htail := ih _ (hn ▸ readItem_rest_length_lt ho) hrest (readItem start [] ls).start
          (readItem start' [] ls').start rfl
        rw [Reader.run_of_item_ok (r := ⟨ls, start, false⟩) rfl ho,
          Reader.run_of_item_ok (r := ⟨ls', start', false⟩) rfl ho']
        simp only [mapItems, List.map_cons] at htail ⊢
        rw [htail]
        rfl

/-- The items of the same tokens are the same, up to the offsets of errors. -/
theorem items_of_placed_eq {text text' : String}
    (h : (solid (lexemes text)).map (Lexeme.placed f) =
      (solid (lexemes text')).map (Lexeme.placed g)) :
    mapItems f (items text) = mapItems g (items text') := by
  rw [items, items, locatedItems_eq, locatedItems_eq]
  exact run_of_placed_eq hfg h 0 0

/-- The lexemes of a text that starts elsewhere. -/
theorem placed_scan (cs : List Char) {pos pos' : Nat} (h : f pos = g pos') :
    (scan pos cs).map (Lexeme.placed f) = (scan pos' cs).map (Lexeme.placed g) := by
  generalize hn : cs.length = n
  induction n using Nat.strongRecOn generalizing cs pos pos' with
  | _ n ih =>
    cases cs with
    | nil => simp [scan]
    | cons c cs =>
      have hlt : (cut c cs).rest.length < n := hn ▸ Nat.lt_succ_of_le (cut_rest_length c cs)
      rw [scan, scan, List.map_cons, List.map_cons, ih _ hlt _ (hfg _ _ _ h) rfl]
      simp [Lexeme.placed, h]

end Agreement

/-! ## Texts with the same tokens -/

theorem map_token_scan (pos pos' : Nat) (cs : List Char) :
    (scan pos cs).map (·.token) = (scan pos' cs).map (·.token) := by
  have hplaced : (scan pos cs).map (Lexeme.placed fun _ => 0) =
      (scan pos' cs).map (Lexeme.placed fun _ => 0) :=
    placed_scan (fun _ _ _ _ => rfl) cs rfl
  have htokens := congrArg (List.map Prod.fst) hplaced
  rwa [List.map_map, List.map_map] at htokens

theorem map_token_solid (ls : List Lexeme) :
    (solid ls).map (·.token) = (ls.map (·.token)).filter (· ≠ .blank) := by
  rw [List.filter_map]
  rfl

theorem tokens_eq (text : String) : tokens text = (solid (lexemes text)).map (·.token) :=
  (map_token_solid _).symm

/-- Texts with the same tokens have the same items, up to the offsets of errors. -/
theorem items_of_tokens_eq {text text' : String} (h : tokens text = tokens text') :
    mapItems (fun _ => 0) (items text) = mapItems (fun _ => 0) (items text') := by
  refine items_of_placed_eq (fun _ _ _ _ => rfl) ?_
  rw [tokens_eq, tokens_eq] at h
  have hplaced := congrArg (List.map fun token => (token, 0)) h
  rwa [List.map_map, List.map_map] at hplaced

/-- The S-expression that the items of a text make up, if the offsets of errors do not matter. -/
def soleItem : List (Except ReadError Sexp) → Except ReadError Sexp
  | [] => .error .noItem
  | .error e :: _ => .error e
  | [.ok x] => .ok x
  | .ok _ :: .error e :: _ => .error e
  | .ok _ :: .ok _ :: _ => .error (.trailing 0)

theorem mapError_parse (text : String) :
    (parse text).mapError ReadError.unplaced = soleItem (mapItems (fun _ => 0) (items text)) := by
  unfold parse items
  split
  next h => simp [h, mapItems, soleItem, mapError_error, ReadError.unplaced, ReadError.mapOffset]
  next h => simp [h, mapItems, soleItem, mapError_error, ReadError.unplaced]
  next h => simp [h, mapItems, soleItem, mapError_ok]
  next h => simp [h, mapItems, soleItem, mapError_ok, mapError_error, ReadError.unplaced]
  next h =>
    simp [h, mapItems, soleItem, mapError_ok, mapError_error, ReadError.unplaced,
      ReadError.mapOffset]

/-- Texts with the same tokens consist of the same S-expression, or of none for the same reason. -/
theorem parse_of_tokens_eq {text text' : String} (h : tokens text = tokens text') :
    (parse text).mapError ReadError.unplaced = (parse text').mapError ReadError.unplaced := by
  rw [mapError_parse, mapError_parse, items_of_tokens_eq h]

end TermRules.Sexp
