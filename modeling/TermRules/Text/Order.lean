/-!
# The order of texts

Texts are ordered by their code points, which is also the order of their UTF-8 bytes. The order
is total (`compare_swap`, `eq_of_compare`) and transitive (`compare_lt_trans`). As a relation it is
`Precedes`.
-/

namespace TermRules

namespace Text

/-- The order of two texts, decided at the first code point in which they differ. -/
def compare : List Char → List Char → Ordering
  | [], [] => .eq
  | [], _ :: _ => .lt
  | _ :: _, [] => .gt
  | c :: cs, d :: ds =>
    if c.toNat < d.toNat then .lt else if d.toNat < c.toNat then .gt else compare cs ds

theorem compare_self (cs : List Char) : compare cs cs = .eq := by
  induction cs with
  | nil => rfl
  | cons c cs ih => simp [compare, ih]

theorem eq_of_compare {cs ds : List Char} (h : compare cs ds = .eq) : cs = ds := by
  induction cs generalizing ds with
  | nil => cases ds <;> simp_all [compare]
  | cons c cs ih =>
    cases ds with
    | nil => simp [compare] at h
    | cons d ds =>
      simp only [compare] at h
      split at h
      · simp at h
      · split at h
        · simp at h
        · have hcd : c.toNat = d.toNat := by omega
          rw [ih h, Char.toNat_inj.mp hcd]

theorem compare_swap (cs ds : List Char) : (compare cs ds).swap = compare ds cs := by
  induction cs generalizing ds with
  | nil => cases ds <;> rfl
  | cons c cs ih =>
    cases ds with
    | nil => rfl
    | cons d ds =>
      simp only [compare]
      by_cases h₁ : c.toNat < d.toNat
      · have h₂ : ¬d.toNat < c.toNat := by omega
        simp [h₁, h₂]
      · by_cases h₂ : d.toNat < c.toNat <;> simp [h₁, h₂, ih]

theorem compare_lt_trans {cs ds es : List Char} (h₁ : compare cs ds = .lt)
    (h₂ : compare ds es = .lt) : compare cs es = .lt := by
  induction cs generalizing ds es with
  | nil => cases es <;> cases ds <;> simp_all [compare]
  | cons c cs ih =>
    cases ds with
    | nil => simp [compare] at h₁
    | cons d ds =>
      cases es with
      | nil => simp [compare] at h₂
      | cons e es =>
        simp only [compare] at h₁ h₂ ⊢
        by_cases hcd : c.toNat < d.toNat
        · have : c.toNat < e.toNat := by
            by_cases hde : d.toNat < e.toNat
            · omega
            · by_cases hed : e.toNat < d.toNat
              · simp [hde, hed] at h₂
              · omega
          simp [this]
        · by_cases hdc : d.toNat < c.toNat
          · simp [hcd, hdc] at h₁
          · simp only [hcd, hdc, if_false] at h₁
            by_cases hde : d.toNat < e.toNat
            · have : c.toNat < e.toNat := by omega
              simp [this]
            · by_cases hed : e.toNat < d.toNat
              · simp [hde, hed] at h₂
              · simp only [hde, hed, if_false] at h₂
                have hce : ¬c.toNat < e.toNat := by omega
                have hec : ¬e.toNat < c.toNat := by omega
                simp [hce, hec, ih h₁ h₂]

end Text

/-- A text stands before another one. -/
def Precedes (k l : String) : Prop := Text.compare k.toList l.toList = .lt

namespace Precedes

theorem irrefl (k : String) : ¬Precedes k k := by simp [Precedes, Text.compare_self]

theorem trans {k l m : String} (h₁ : Precedes k l) (h₂ : Precedes l m) : Precedes k m :=
  Text.compare_lt_trans h₁ h₂

theorem ne {k l : String} (h : Precedes k l) : k ≠ l := fun e => irrefl l (e ▸ h)

theorem asymm {k l : String} (h : Precedes k l) : ¬Precedes l k := fun h' => irrefl k (h.trans h')

theorem trichotomy (k l : String) : Precedes k l ∨ k = l ∨ Precedes l k := by
  cases h : Text.compare k.toList l.toList with
  | lt => exact .inl h
  | eq => exact .inr (.inl (String.toList_inj.mp (Text.eq_of_compare h)))
  | gt =>
    refine .inr (.inr ?_)
    rw [Precedes, ← Text.compare_swap, h]
    rfl

end Precedes

end TermRules
