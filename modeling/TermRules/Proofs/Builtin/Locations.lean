import TermRules.Proofs.Builtin.Nodewise

/-!
# The locations of a node

What a node has of its own can be read at its locations: its name, its intent, its code, and each
key of its attributes. Together they determine it (`Head.ext_read`).

A built-in action writes blindly. At each location it keeps what is there (`Change.read_apply`), or
else sets it to a value that does not depend on anything (`Change.keepsOrSets_apply`). This is so
for any sequence of actions too, since the last one that sets a location decides
(`Edit.WritesBlindly.foldl`). So to repeat all actions of a rule changes nothing
(`Edit.WritesBlindly.edit_edit`).
-/

namespace TermRules

/-- What can be read and written of a node. -/
inductive Location
  | name
  | intent
  | code
  | attr (key : String)
  deriving DecidableEq

/-- What can stand at a location. An attribute may be absent, or set without a value. -/
def Location.Value : Location → Type
  | name => String
  | intent => Option Intent
  | code => Option String
  | attr _ => Option (Option String)

namespace Head

variable {c : TermClass}

/-- What stands at a location. -/
def read (h : Head c) : (l : Location) → l.Value
  | .name => h.name
  | .intent => h.intent?
  | .code => h.code?
  | .attr key => h.attrs.get? key

theorem ext_read {h h' : Head c} (hread : ∀ l, h.read l = h'.read l) : h = h' := by
  obtain ⟨name, attrs, payload⟩ := h
  obtain ⟨name', attrs', payload'⟩ := h'
  obtain rfl : name = name' := hread .name
  obtain rfl : attrs = attrs' := SortedMap.ext_get? fun key => hread (.attr key)
  have hpayload : payload = payload' := by
    cases c with
    | argument => exact hread .intent
    | phi => exact hread .code
    | definition => exact hread .code
    | jump => exact hread .code
    | program => rfl
    | subroutine => rfl
    | block => rfl
  rw [hpayload]

end Head

/-! ## Blind writes -/

/-- The function keeps what stands at the location, or sets it to the same value in any case. -/
inductive KeepsOrSets {c : TermClass} (f : Head c → Head c) (l : Location) : Prop
  | keeps (h : ∀ head, (f head).read l = head.read l)
  | sets (value : l.Value) (h : ∀ head, (f head).read l = value)

namespace KeepsOrSets

variable {c : TermClass} {f g : Head c → Head c} {l : Location}

/-- What the second function sets is decided by it, and the rest by the first. -/
theorem comp (hf : KeepsOrSets f l) (hg : KeepsOrSets g l) :
    KeepsOrSets (fun head => g (f head)) l := by
  cases hg with
  | sets value hg => exact .sets value fun head => hg (f head)
  | keeps hg =>
    cases hf with
    | sets value hf => exact .sets value fun head => (hg (f head)).trans (hf head)
    | keeps hf => exact .keeps fun head => (hg (f head)).trans (hf head)

/-- What is set to the same value once more is not changed by it. -/
theorem read_apply_apply (h : KeepsOrSets f l) (head : Head c) :
    (f (f head)).read l = (f head).read l := by
  cases h with
  | keeps h => exact h (f head)
  | sets value h => rw [h, h]

end KeepsOrSets

/-- The edit changes what a node has of its own, and there it writes blindly at every location. -/
def Edit.WritesBlindly (edit : Edit) : Prop :=
  ∃ write : (c : TermClass) → Head c → Head c,
    (∀ c v (n : NodeOf c), edit c v n = ⟨write c n.toHead, n.parts⟩) ∧
      ∀ c l, KeepsOrSets (write c) l

namespace Edit.WritesBlindly

theorem id : WritesBlindly fun _ _ n => n :=
  ⟨fun _ head => head, fun _ _ _ => rfl, fun _ _ => .keeps fun _ => rfl⟩

theorem comp {e₁ e₂ : Edit} (h₁ : e₁.WritesBlindly) (h₂ : e₂.WritesBlindly) :
    WritesBlindly fun c v n => e₂ c v (e₁ c v n) := by
  obtain ⟨write₁, hwrite₁, hblind₁⟩ := h₁
  obtain ⟨write₂, hwrite₂, hblind₂⟩ := h₂
  refine ⟨fun c head => write₂ c (write₁ c head), fun c v n => ?_, fun c l => ?_⟩
  · change e₂ c v (e₁ c v n) = _
    rw [hwrite₁, hwrite₂]
  · exact (hblind₁ c l).comp (hblind₂ c l)

/-- Any number of edits, of which the last that sets a location decides about it. -/
theorem foldl {α : Type} {edit : α → Edit} {as : List α} (h : ∀ a ∈ as, (edit a).WritesBlindly) :
    WritesBlindly fun c v n => as.foldl (fun n a => edit a c v n) n := by
  induction as with
  | nil => exact .id
  | cons a as ih =>
    obtain ⟨ha, has⟩ := List.forall_mem_cons.mp h
    exact ha.comp (ih has)

/-- An edit that writes blindly may be made again to no effect. -/
theorem edit_edit {edit : Edit} (h : edit.WritesBlindly) (c : TermClass) (v : Visit)
    (n : NodeOf c) : edit c v (edit c v n) = edit c v n := by
  obtain ⟨write, hwrite, hblind⟩ := h
  have htwice : write c (write c n.toHead) = write c n.toHead :=
    Head.ext_read fun l => (hblind c l).read_apply_apply n.toHead
  rw [hwrite, hwrite, htwice]

end Edit.WritesBlindly

/-! ## Built-in actions -/

/-- The locations that a change may change. -/
def Change.Writes : Change → Location → Prop
  | setAttr key _, l | clearAttr key, l => l = .attr key
  | clearAttrs, l => ∃ key, l = .attr key
  | rename _, l => l = .name
  | setIntent _, l => l = .intent

/-- What stands anywhere but at attributes does not depend on the attributes. -/
theorem Head.read_attrs {c : TermClass} (head : Head c) {attrs : Attrs} {l : Location}
    (h : ∀ key, l = .attr key → attrs.get? key = head.attrs.get? key) :
    { head with attrs }.read l = head.read l := by
  cases l with
  | name => rfl
  | intent => cases c <;> rfl
  | code => cases c <;> rfl
  | attr key => exact h key rfl

theorem Change.read_apply (k : Change) {c : TermClass} (head : Head c) {l : Location}
    (hl : ¬k.Writes l) : (k.apply head).read l = head.read l := by
  cases k with
  | setAttr key value =>
    refine head.read_attrs fun other hother => ?_
    have hne : other ≠ key := fun heq => hl (heq ▸ hother)
    rw [SortedMap.get?_insert, if_neg hne]
  | clearAttr key =>
    refine head.read_attrs fun other hother => ?_
    have hne : other ≠ key := fun heq => hl (heq ▸ hother)
    rw [SortedMap.get?_erase, if_neg hne]
  | clearAttrs => exact head.read_attrs fun key hkey => absurd ⟨key, hkey⟩ hl
  | rename name =>
    cases l with
    | name => exact absurd rfl hl
    | intent => cases c <;> rfl
    | code => cases c <;> rfl
    | attr key => rfl
  | setIntent intent =>
    cases c with
    | argument =>
      cases l with
      | intent => exact absurd rfl hl
      | name | code | attr => rfl
    -- terms of other classes have no intent to set
    | _ => rfl

theorem Change.keepsOrSets_apply (k : Change) (c : TermClass) (l : Location) :
    KeepsOrSets (fun head : Head c => k.apply head) l := by
  by_cases hl : k.Writes l
  · cases k with
    | setAttr key value =>
      obtain rfl : l = .attr key := hl
      exact .sets (some value) fun _ => (SortedMap.get?_insert ..).trans (if_pos rfl)
    | clearAttr key =>
      obtain rfl : l = .attr key := hl
      exact .sets none fun _ => (SortedMap.get?_erase ..).trans (if_pos rfl)
    | clearAttrs =>
      obtain ⟨key, rfl⟩ := hl
      exact .sets none fun _ => rfl
    | rename name =>
      obtain rfl : l = .name := hl
      exact .sets name fun _ => rfl
    | setIntent intent =>
      obtain rfl : l = .intent := hl
      cases c with
      | argument => exact .sets (some intent) fun _ => rfl
      | _ => exact .keeps fun _ => rfl
  · exact .keeps fun head => k.read_apply head hl

theorem Change.writesBlindly_edit (k : Change) : Edit.WritesBlindly k.edit :=
  ⟨fun _ head => k.apply head, fun _ _ _ => rfl, k.keepsOrSets_apply⟩

/-- All actions of a built-in rule together write blindly. -/
theorem Rule.BoundBy.writesBlindly_apply {r : Rule} (h : r.BoundBy .builtin) :
    Edit.WritesBlindly r.apply := by
  refine .foldl fun a ha => ?_
  obtain ⟨k, -, hk⟩ := Namespace.exists_of_resolve_map (h.actions a ha)
  rw [hk]
  exact k.writesBlindly_edit

end TermRules
