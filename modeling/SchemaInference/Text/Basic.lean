/-!
# Texts

A text is a sequence of code points.  Documents may hold code points that are no
characters: a surrogate may stand without its partner, in an escape as well as in
octets.  Such a surrogate is kept as it is, so that names which differ in one are
different names.  Texts are ordered by the numbers of their code points.
-/

namespace SchemaInference

/-- A code point: a character, or the surrogate at `0xD800 + index`. -/
inductive CodePoint where
  | char (c : Char)
  | surrogate (index : Fin 0x800)
  deriving DecidableEq, Repr

namespace CodePoint

instance : Inhabited CodePoint := ⟨.char ' '⟩

instance : Coe Char CodePoint := ⟨.char⟩

def number : CodePoint → Nat
  | char c => c.toNat
  | surrogate index => 0xD800 + index.val

/-- The code point with a number, which is below `0x110000`. -/
def ofNumber (n : Nat) : CodePoint :=
  if h : n.isValidChar then char (Char.ofNatAux n h) else surrogate (Fin.ofNat 0x800 (n - 0xD800))

/-- The character that is shown for a code point: a surrogate has none of its own. -/
def shown : CodePoint → Char
  | char c => c
  | surrogate _ => '\uFFFD'

instance : LT CodePoint := ⟨fun p q => p.number < q.number⟩

instance : LE CodePoint := ⟨fun p q => p.number ≤ q.number⟩

instance : DecidableLT CodePoint := fun p q => Nat.decLt p.number q.number

theorem number_injective {p q : CodePoint} (h : p.number = q.number) : p = q := by
  cases p with
  | char c =>
      cases q with
      | char d => exact congrArg char (Char.toNat_inj.1 h)
      | surrogate index =>
          have valid := c.valid
          simp only [number, Char.toNat] at h
          simp only [UInt32.isValidChar, Nat.isValidChar] at valid
          omega
  | surrogate index =>
      cases q with
      | char d =>
          have valid := d.valid
          simp only [number, Char.toNat] at h
          simp only [UInt32.isValidChar, Nat.isValidChar] at valid
          omega
      | surrogate other =>
          simp only [number] at h
          exact congrArg surrogate (Fin.ext (by omega))

instance : Std.IsLinearOrder CodePoint where
  le_refl p := Nat.le_refl p.number
  le_trans _ _ _ h g := Nat.le_trans h g
  le_antisymm _ _ h g := number_injective (Nat.le_antisymm h g)
  le_total p q := Nat.le_total p.number q.number

instance : Std.LawfulOrderLT CodePoint where
  lt_iff _ _ := Nat.lt_iff_le_and_not_ge

@[simp] theorem number_ofNumber {n : Nat} (h : n < 0x110000) : (ofNumber n).number = n := by
  by_cases valid : n.isValidChar
  · rw [ofNumber, dif_pos valid]
    rfl
  · rw [ofNumber, dif_neg valid]
    simp only [Nat.isValidChar, not_or, not_and] at valid
    simp only [number, Fin.ofNat]
    omega

@[simp] theorem ofNumber_number (p : CodePoint) : ofNumber p.number = p := by
  apply number_injective
  apply number_ofNumber
  cases p with
  | char c =>
      have valid := c.valid
      simp only [UInt32.isValidChar, Nat.isValidChar] at valid
      simp only [number, Char.toNat]
      omega
  | surrogate index => simp only [number]; omega

end CodePoint

abbrev Text := List CodePoint

namespace Text

def ofString (s : String) : Text := s.toList.map .char

instance : Coe String Text := ⟨ofString⟩

/-- The string that shows a text. -/
def toString (t : Text) : String := String.ofList (t.map CodePoint.shown)

/-- Texts in a row with a separator between them. -/
def joinWith (separator : Text) (ts : List Text) : Text := (ts.intersperse separator).flatten

@[simp] theorem toString_ofString (s : String) : (ofString s).toString = s := by
  simp [ofString, toString, Function.comp_def, CodePoint.shown]

end Text

end SchemaInference
