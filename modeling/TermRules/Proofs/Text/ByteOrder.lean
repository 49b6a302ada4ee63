import TermRules.SortedMap

/-!
# The order of bytes

Texts are compared by code points, and this is the order of their bytes in UTF-8
(`precedes_iff_bytes_lt`): the first byte of a character tells how many there are, longer forms have
greater first bytes, and within forms of one length the bytes hold the digits of the code point
to the base 64, from the highest on.
-/

namespace TermRules

namespace Text

/-- The bytes of a text in UTF-8. -/
def bytes (text : String) : List UInt8 := text.toUTF8.data.toList

theorem bytes_eq_flatMap (text : String) :
    bytes text = text.toList.flatMap String.utf8EncodeChar := by
  have h : text.toUTF8 = (text.toList.flatMap String.utf8EncodeChar).toByteArray :=
    (String.utf8Encode_toList (b := text)).symm
  rw [bytes, h, List.toList_data_toByteArray]

/-! ## Single characters -/

theorem toNat_lt_of_char (c : Char) : c.toNat < 0x110000 := by
  have h := c.valid
  simp only [UInt32.isValidChar, Nat.isValidChar] at h
  change c.val.toNat < _
  omega

/-- The order of two numbers is decided by the first of their digits to the base 64 that differ. -/
theorem digits_lt {m n : Nat} (h : m < n) :
    m / 262144 < n / 262144 ∨ m / 262144 = n / 262144 ∧
      (m / 4096 % 64 < n / 4096 % 64 ∨ m / 4096 % 64 = n / 4096 % 64 ∧
        (m / 64 % 64 < n / 64 % 64 ∨ m / 64 % 64 = n / 64 % 64 ∧ m % 64 < n % 64)) := by
  omega

theorem utf8EncodeChar_lt {c d : Char} (h : c.toNat < d.toNat) (xs ys : List UInt8) :
    String.utf8EncodeChar c ++ xs < String.utf8EncodeChar d ++ ys := by
  have hbound : d.toNat < 0x110000 := toNat_lt_of_char d
  have hdigits := digits_lt h
  simp only [Char.toNat] at h hbound hdigits
  simp only [String.utf8EncodeChar]
  generalize c.val.toNat = m at h hdigits
  generalize d.val.toNat = n at h hdigits hbound
  -- one case for each pair of lengths
  repeat' split
  all_goals
    simp only [List.cons_append, List.nil_append, List.cons_lt_cons_iff, UInt8.lt_iff_toNat_lt,
      ← UInt8.toNat_inj, UInt8.toNat_ofNat']
    simp (disch := omega) only [Nat.mod_eq_of_lt]
    omega

/-! ## Texts -/

theorem flatMap_utf8EncodeChar_lt {cs ds : List Char} (h : compare cs ds = .lt) :
    cs.flatMap String.utf8EncodeChar < ds.flatMap String.utf8EncodeChar := by
  induction cs generalizing ds with
  | nil =>
    cases ds with
    | nil => cases h
    | cons d ds =>
      obtain ⟨b, bs, hb⟩ := List.exists_cons_of_ne_nil (String.utf8EncodeChar_ne_nil (c := d))
      rw [List.flatMap_nil, List.flatMap_cons, hb]
      exact List.nil_lt_cons _ _
  | cons c cs ih =>
    cases ds with
    | nil => cases h
    | cons d ds =>
      simp only [compare] at h
      rw [List.flatMap_cons, List.flatMap_cons]
      split at h
      next hlt => exact utf8EncodeChar_lt hlt _ _
      next hle =>
        split at h
        · cases h
        next hge =>
          have hcd : c = d := Char.toNat_inj.mp (by omega)
          rw [hcd]
          exact List.append_left_lt (ih h)

end Text

/-- Keys stand in the order of their bytes in UTF-8. -/
theorem precedes_iff_bytes_lt {k l : String} : Precedes k l ↔ Text.bytes k < Text.bytes l := by
  have hlt : ∀ {k l : String}, Precedes k l → Text.bytes k < Text.bytes l := fun h => by
    rw [Text.bytes_eq_flatMap, Text.bytes_eq_flatMap]
    exact Text.flatMap_utf8EncodeChar_lt h
  refine ⟨hlt, fun h => ?_⟩
  rcases Precedes.trichotomy k l with hkl | rfl | hlk
  · exact hkl
  · exact absurd h (List.lt_irrefl _)
  · exact absurd h (List.lt_asymm (hlt hlk))

theorem SortedMap.pairwise_bytes_toList {α : Type} (m : SortedMap α) :
    m.toList.Pairwise fun a b => Text.bytes a.1 < Text.bytes b.1 :=
  m.ascending.imp precedes_iff_bytes_lt.mp

end TermRules
