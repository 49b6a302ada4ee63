/-!
# Computations with a record of events

A value together with the events that happened while it was computed, in order. Binding two
computations appends their events (`events_bind`), so `Traced ω` is a lawful monad.
-/

namespace TermRules

/-- A value and the events, of type `ω`, that led to it. -/
structure Traced (ω : Type) (α : Type) where
  events : List ω
  value : α
  deriving DecidableEq

namespace Traced

variable {ω α β : Type}

instance : Monad (Traced ω) where
  pure a := ⟨[], a⟩
  bind x f := ⟨x.events ++ (f x.value).events, (f x.value).value⟩

/-- The computation that consists of one event. -/
def emit (e : ω) : Traced ω Unit := ⟨[e], ()⟩

@[simp]
theorem events_pure (a : α) : (pure a : Traced ω α).events = [] := rfl

@[simp]
theorem value_pure (a : α) : (pure a : Traced ω α).value = a := rfl

@[simp]
theorem events_bind (x : Traced ω α) (f : α → Traced ω β) :
    (x >>= f).events = x.events ++ (f x.value).events := rfl

@[simp]
theorem value_bind (x : Traced ω α) (f : α → Traced ω β) :
    (x >>= f).value = (f x.value).value := rfl

@[ext]
theorem ext {x y : Traced ω α} (h₁ : x.events = y.events) (h₂ : x.value = y.value) : x = y := by
  cases x; cases y; cases h₁; cases h₂; rfl

instance : LawfulMonad (Traced ω) := LawfulMonad.mk' _
  (fun x => ext (List.append_nil _) rfl)
  (fun _ _ => rfl)
  (fun _ _ _ => ext (List.append_assoc ..) rfl)

@[simp]
theorem events_map (f : α → β) (x : Traced ω α) : (f <$> x).events = x.events :=
  List.append_nil _

@[simp]
theorem value_map (f : α → β) (x : Traced ω α) : (f <$> x).value = f x.value := rfl

theorem events_mapM (f : α → Traced ω β) (as : List α) :
    (as.mapM f).events = as.flatMap fun a => (f a).events := by
  induction as with
  | nil => rfl
  | cons a as ih => simp [ih]

theorem value_mapM (f : α → Traced ω β) (as : List α) :
    (as.mapM f).value = as.map fun a => (f a).value := by
  induction as with
  | nil => rfl
  | cons a as ih => simp [ih]

end Traced

end TermRules
