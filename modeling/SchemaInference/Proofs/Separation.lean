import Mathlib.Data.List.Find
import SchemaInference.Proofs.Lexing
import SchemaInference.Text.Blank

/-!
# Texts before a blank

No word goes on past a blank, and no string past its closing quote.  A text whose tokens
are all complete is therefore cut in the same way when a blank and anything else follow it.
-/

namespace SchemaInference

/-- Whether a text is empty or starts with a blank. -/
def Text.StartsBlank (t : Text) : Prop := ∀ p ∈ t.head?, Text.isBlank p = true

namespace Json

variable {p q : CodePoint} {t gap rest : Text} {token : Token} {used : Nat}

theorem isBlank_text_of_isBlank (h : isBlank p = true) : Text.isBlank p = true := by
  simp only [isBlank, Bool.or_eq_true, decide_eq_true_eq] at h
  rcases h with ((rfl | rfl) | rfl) | rfl
  all_goals rfl

theorem ne_of_isBlank (h : Text.isBlank p = true) (hq : Text.isBlank q = false) : p ≠ q := by
  rintro rfl
  rw [h] at hq
  cases hq

theorem isDigit_of_isBlank (h : Text.isBlank p = true) : isDigit p = false := by
  simp only [Text.isBlank, Bool.or_eq_true, Bool.and_eq_true, decide_eq_true_eq] at h
  simp only [isDigit, Bool.and_eq_false_iff, decide_eq_false_iff_not]
  omega

/-! ## Parts of numbers -/

/-- A scanner that takes a part from the front of a text, and takes nothing from a blank on. -/
structure StopsAtBlank (f : Text → Text) : Prop where
  front : ∀ t, f t <+: t
  append : ∀ {t gap : Text}, gap.StartsBlank → f (t ++ gap) = f t

namespace StopsAtBlank
variable {f : Text → Text}

theorem of_cons (front : ∀ t, f t <+: t)
    (blank : ∀ q rest, Text.isBlank q = true → f (q :: rest) = [])
    (cons : ∀ p t {gap : Text}, gap.StartsBlank → f (p :: (t ++ gap)) = f (p :: t)) :
    StopsAtBlank f := by
  refine ⟨front, fun {t gap} h => ?_⟩
  cases t with
  | cons p t => exact cons p t h
  | nil =>
    cases gap with
    | nil => rfl
    | cons q gap =>
      rw [List.nil_append, blank q gap (h q rfl)]
      exact (List.prefix_nil.1 (front [])).symm

theorem length_le (h : StopsAtBlank f) (t : Text) : (f t).length ≤ t.length := (h.front t).length_le

theorem drop (h : StopsAtBlank f) :
    (t ++ gap).drop (f t).length = t.drop (f t).length ++ gap :=
  List.drop_append_of_le_length (h.length_le t)

end StopsAtBlank

theorem stopsAtBlank_takeWhile : StopsAtBlank (List.takeWhile isDigit) where
  front _ := List.takeWhile_prefix isDigit
  append {t gap} h := by
    have none : gap.takeWhile isDigit = [] := by
      cases gap with
      | nil => rfl
      | cons q gap => rw [List.takeWhile_cons, isDigit_of_isBlank (h q rfl), if_neg (by simp)]
    rw [List.takeWhile_append, none, List.append_nil]
    split
    · next whole => exact ((List.takeWhile_prefix isDigit).eq_of_length whole).symm
    · rfl

/-- The minus sign of a number. -/
def minusSign : Text → Text
  | .char '-' :: _ => ['-']
  | _ => []

theorem minusSign_cons : minusSign (p :: t) = if p = '-' then [.char '-'] else [] := by
  unfold minusSign
  split <;> simp_all

theorem sign_cons : sign (p :: t) =
    if p = '+' then [.char '+'] else if p = '-' then [.char '-'] else [] := by
  unfold sign
  split <;> simp_all

theorem fraction_cons : fraction (p :: t) =
    if p = '.' ∧ t.takeWhile isDigit ≠ [] then p :: t.takeWhile isDigit else [] := by
  unfold fraction
  split
  · next rest same =>
    cases same
    generalize t.takeWhile isDigit = digits
    cases digits <;> simp
  · next other =>
    rw [if_neg]
    rintro ⟨rfl, -⟩
    exact other t rfl

theorem stopsAtBlank_minusSign : StopsAtBlank minusSign := by
  apply StopsAtBlank.of_cons
  · intro t
    cases t with
    | nil => exact List.nil_prefix
    | cons p t =>
      rw [minusSign_cons]
      split <;> simp_all
  · intro q rest hq
    rw [minusSign_cons, if_neg (ne_of_isBlank hq rfl)]
  · intro p t gap _
    rw [minusSign_cons, minusSign_cons]

theorem stopsAtBlank_sign : StopsAtBlank sign := by
  apply StopsAtBlank.of_cons
  · intro t
    cases t with
    | nil => exact List.nil_prefix
    | cons p t =>
      rw [sign_cons]
      split
      · simp_all
      · split <;> simp_all
  · intro q rest hq
    rw [sign_cons, if_neg (ne_of_isBlank hq rfl), if_neg (ne_of_isBlank hq rfl)]
  · intro p t gap _
    rw [sign_cons, sign_cons]

theorem stopsAtBlank_wholeDigits : StopsAtBlank wholeDigits := by
  apply StopsAtBlank.of_cons
  · intro t
    cases t with
    | nil => exact List.nil_prefix
    | cons p t =>
      rw [wholeDigits]
      split
      · exact List.prefix_append [p] t
      · split
        · exact (List.prefix_cons_inj p).2 (List.takeWhile_prefix isDigit)
        · exact List.nil_prefix
  · intro q rest hq
    rw [wholeDigits, if_neg (ne_of_isBlank hq rfl), isDigit_of_isBlank hq, if_neg (by simp)]
  · intro p t gap h
    rw [wholeDigits, wholeDigits, stopsAtBlank_takeWhile.append h]

theorem stopsAtBlank_fraction : StopsAtBlank fraction := by
  apply StopsAtBlank.of_cons
  · intro t
    cases t with
    | nil => exact List.nil_prefix
    | cons p t =>
      rw [fraction_cons]
      split
      · exact (List.prefix_cons_inj p).2 (List.takeWhile_prefix isDigit)
      · exact List.nil_prefix
  · intro q rest hq
    rw [fraction_cons, if_neg]
    exact fun h => ne_of_isBlank hq rfl h.1
  · intro p t gap h
    rw [fraction_cons, fraction_cons, stopsAtBlank_takeWhile.append h]

theorem stopsAtBlank_exponent : StopsAtBlank exponent := by
  apply StopsAtBlank.of_cons
  · intro t
    cases t with
    | nil => exact List.nil_prefix
    | cons e t =>
      have signed : sign t ++ t.drop (sign t).length = t :=
        List.prefix_iff_eq_append.1 (stopsAtBlank_sign.front t)
      have digits := stopsAtBlank_takeWhile.front (t.drop (sign t).length)
      have whole := (List.prefix_append_right_inj (sign t)).2 digits
      rw [signed] at whole
      simp only [exponent]
      split
      · split
        · exact List.nil_prefix
        · exact (List.prefix_cons_inj e).2 whole
      · exact List.nil_prefix
  · intro q rest hq
    rw [exponent, if_neg]
    simp [ne_of_isBlank hq (q := 'e') rfl, ne_of_isBlank hq (q := 'E') rfl]
  · intro e t gap h
    rw [exponent, exponent, stopsAtBlank_sign.append h, stopsAtBlank_sign.drop,
      stopsAtBlank_takeWhile.append h]

/-! ## Words -/

theorem scanNumber_eq : scanNumber t =
    let afterMinus := t.drop (minusSign t).length
    let whole := wholeDigits afterMinus
    let afterWhole := afterMinus.drop whole.length
    let fractional := fraction afterWhole
    let power := exponent (afterWhole.drop fractional.length)
    let literal := minusSign t ++ whole ++ fractional ++ power
    if whole.isEmpty then none
    else if fractional.isEmpty && power.isEmpty then
      some (integerToken (!(minusSign t).isEmpty) whole, literal.length)
    else some (.word (.real literal), literal.length) := rfl

theorem scanNumber_append (h : gap.StartsBlank) : scanNumber (t ++ gap) = scanNumber t := by
  simp only [scanNumber_eq, stopsAtBlank_minusSign.append h, stopsAtBlank_minusSign.drop,
    stopsAtBlank_wholeDigits.append h, stopsAtBlank_wholeDigits.drop,
    stopsAtBlank_fraction.append h, stopsAtBlank_fraction.drop, stopsAtBlank_exponent.append h]

theorem length_of_scanNumber (h : scanNumber t = some (token, used)) : used ≤ t.length := by
  simp only [scanNumber_eq] at h
  generalize hminus : t.drop (minusSign t).length = afterMinus at h
  generalize hwhole : afterMinus.drop (wholeDigits afterMinus).length = afterWhole at h
  generalize hfraction : afterWhole.drop (fraction afterWhole).length = rest at h
  have minus := stopsAtBlank_minusSign.length_le t
  have whole := stopsAtBlank_wholeDigits.length_le afterMinus
  have fractional := stopsAtBlank_fraction.length_le afterWhole
  have power := stopsAtBlank_exponent.length_le rest
  have left := congrArg List.length hminus
  have left' := congrArg List.length hwhole
  have left'' := congrArg List.length hfraction
  rw [List.length_drop] at left left' left''
  split at h
  · cases h
  · split at h
    all_goals
      cases h
      simp only [List.length_append]
      omega

/-- The constants hold no blank, so one that begins before a blank ends before it. -/
theorem scanConstant_append (h : gap.StartsBlank) : scanConstant (t ++ gap) = scanConstant t := by
  unfold scanConstant
  congr 1
  refine List.find?_congr fun c hc => ?_
  have filled : ∀ c ∈ constants, ∀ p ∈ c.1, Text.isBlank p = false := by decide
  rw [Bool.eq_iff_iff, List.isPrefixOf_iff_prefix, List.isPrefixOf_iff_prefix]
  refine ⟨fun begins => ?_, fun begins => begins.trans (List.prefix_append t gap)⟩
  cases gap with
  | nil => rwa [List.append_nil] at begins
  | cons q gap =>
    have blank := h q rfl
    have upTo : t ++ [q] <+: t ++ q :: gap := by simp
    have outside : q ∉ c.1 := by
      intro hq
      rw [filled c hc q hq] at blank
      cases blank
    rcases List.prefix_or_prefix_of_prefix begins upTo with within | beyond
    · rcases List.prefix_concat_iff.1 within with same | within
      · exact absurd (by simp [same]) outside
      · exact within
    · exact absurd (beyond.subset (by simp)) outside

theorem length_of_scanConstant {s : Scalar} (h : scanConstant t = some (s, used)) :
    used ≤ t.length := by
  obtain ⟨c, found, same⟩ := Option.map_eq_some_iff.1 h
  cases same
  have begins := List.find?_some (p := fun c : Text × Scalar => c.1.isPrefixOf t) found
  exact (List.isPrefixOf_iff_prefix.1 begins).length_le

theorem scanWord_append (h : gap.StartsBlank) : scanWord (t ++ gap) = scanWord t := by
  rw [scanWord, scanWord, scanConstant_append h, scanNumber_append h]

theorem length_of_scanWord (h : scanWord t = some (token, used)) : used ≤ t.length := by
  unfold scanWord at h
  split at h
  · next found =>
    cases h
    exact length_of_scanConstant found
  · exact length_of_scanNumber h

/-! ## Strings -/

theorem prependPiece_eq_ok {piece : Piece} {width : Nat} {pieces : List Piece}
    {scanned : Except (Complaint × Nat) (List Piece × Nat)} :
    scanned.map (prependPiece piece width) = .ok (pieces, used) ↔
      ∃ tail length, scanned = .ok (tail, length) ∧ pieces = piece :: tail ∧
        used = length + width := by
  cases scanned with
  | error fault => simp [Except.map]
  | ok tail =>
    obtain ⟨tail, length⟩ := tail
    simp [Except.map, prependPiece, eq_comm]

/-- A string that is closed stays so, whatever follows its closing quote. -/
theorem closes_append (gap : Text) {offset : Nat} {pieces : List Piece}
    (h : scanString offset t = .ok (pieces, used)) :
    Closes (t ++ gap) pieces used ∧ used ≤ t.length := by
  fun_induction scanString offset t generalizing pieces used with
  | case2 offset rest =>
    cases h
    exact ⟨closes_quote (rest ++ gap), by simp⟩
  | case3 offset a b c d rest u followed digits ih =>
    obtain ⟨tail, length, scanned, rfl, rfl⟩ := prependPiece_eq_ok.1 h
    obtain ⟨again, bound⟩ := ih scanned
    have followed' : (rest ++ gap).isEmpty = false := List.isEmpty_eq_false_iff.2 again.ne_nil
    refine ⟨fun offset => ?_, by simp only [List.length_cons]; omega⟩
    simp only [List.cons_append]
    rw [scanString, digits, followed', again (offset + 6)]
    rfl
  | case7 offset e rest _ other c unescaped ih =>
    obtain ⟨tail, length, scanned, rfl, rfl⟩ := prependPiece_eq_ok.1 h
    obtain ⟨again, bound⟩ := ih scanned
    refine ⟨?_, by simp only [List.length_cons]; omega⟩
    cases e with
    | char e => exact again.short unescaped
    | surrogate index => cases unescaped
  | case10 offset p rest quote _ alone escape control ih =>
    obtain ⟨tail, length, scanned, rfl, rfl⟩ := prependPiece_eq_ok.1 h
    obtain ⟨again, bound⟩ := ih scanned
    have backslash : p ≠ .char '\\' := by
      intro same
      cases rest with
      | nil => exact alone same rfl
      | cons e rest => exact escape e rest same rfl
    exact ⟨again.point control quote backslash, by simp only [List.length_cons]; omega⟩
  | _ => cases h

/-! ## Tokens -/

/-- Whether a token was read to its end, so that it does not take the rest of the text. -/
def Token.IsComplete : Token → Prop
  | .stray | .broken .. => False
  | _ => True

/-- A code point is a mark of its own, opens a string, or begins a word if it begins anything. -/
theorem scan_cases (p : CodePoint) : (∃ token, ∀ rest, scan p rest = (token, 0)) ∨
    p = .char '"' ∨ ∀ rest, scan p rest = match scanWord (p :: rest) with
      | some (token, length) => (token, length - 1)
      | none => (.stray, rest.length) := by
  unfold scan
  split
  case h_7 => exact .inr (.inl rfl)
  case h_8 => exact .inr (.inr fun _ => rfl)
  all_goals exact .inl ⟨_, fun _ => rfl⟩

theorem scan_append (h : gap.StartsBlank) (complete : (scan p rest).1.IsComplete) :
    scan p (rest ++ gap) = scan p rest ∧ (scan p rest).2 ≤ rest.length := by
  rcases scan_cases p with ⟨token, mark⟩ | rfl | word
  · rw [mark, mark]
    exact ⟨rfl, Nat.zero_le _⟩
  · rw [scan] at complete ⊢
    rw [scan]
    cases scanned : scanString 1 rest with
    | error fault =>
      rw [scanned] at complete
      exact complete.elim
    | ok closed =>
      obtain ⟨again, bound⟩ := closes_append gap scanned
      rw [again 1]
      exact ⟨rfl, bound⟩
  · rw [word, word, ← List.cons_append, scanWord_append h]
    rw [word] at complete
    cases found : scanWord (p :: rest) with
    | none =>
      rw [found] at complete
      exact complete.elim
    | some scanned =>
      have bound := length_of_scanWord found
      rw [List.length_cons] at bound
      exact ⟨rfl, by simp only; omega⟩

theorem tokens_blank (h : isBlank p = true) : tokens (p :: rest) = tokens rest :=
  @tokens_blanks [p] rest (List.forall_mem_singleton.2 h)

/-- A text of complete tokens keeps them before a blank, and what follows is cut on its own. -/
theorem tokens_append (h : gap.StartsBlank) (complete : ∀ token ∈ tokens t, token.IsComplete) :
    tokens (t ++ gap) = tokens t ++ tokens gap := by
  -- a token may take several code points, hence the induction on the length of the text
  induction bound : t.length using Nat.strongRecOn generalizing t with
  | ind n ih =>
    cases t with
    | nil => rw [tokens_nil, List.nil_append, List.nil_append]
    | cons p rest =>
      rw [List.length_cons] at bound
      cases blank : isBlank p with
      | true =>
        rw [tokens_blank blank] at complete
        rw [List.cons_append, tokens_blank blank, tokens_blank blank]
        exact ih rest.length (by omega) complete rfl
      | false =>
        rw [tokens_cons blank] at complete
        obtain ⟨first, others⟩ := List.forall_mem_cons.1 complete
        obtain ⟨same, within⟩ := scan_append h first
        have shorter : (rest.drop (scan p rest).2).length < n := by
          rw [List.length_drop]
          omega
        rw [List.cons_append, tokens_cons blank, tokens_cons blank, same,
          List.drop_append_of_le_length within, ih _ shorter others rfl, List.cons_append]

theorem tokens_ne_nil (hp : p ∈ t) (filled : Text.isBlank p = false) : tokens t ≠ [] := by
  induction t with
  | nil => cases hp
  | cons q rest ih =>
    cases blank : isBlank q with
    | true =>
      have other : q ≠ p := ne_of_isBlank (isBlank_text_of_isBlank blank) filled
      rw [tokens_blank blank]
      exact ih (List.mem_of_ne_of_mem other.symm hp)
    | false =>
      rw [tokens_cons blank]
      exact List.cons_ne_nil _ _

end Json

end SchemaInference
