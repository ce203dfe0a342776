import BlockEdit.Number.Decimal
import BlockEdit.Number.Integer

/-!
# Numbers read back

A number is written so that reading the text gives the same number again. For whole numbers this
is a fact about decimal digits. For binary64 numbers the search for the fewest digits only ever
keeps decimals that read back, and the exact expansion, which stands behind the search, reads back
because it is rounded to itself; what is left is that the two notations, with and without an
exponent, stand for the decimal that they are made from.

Main statements:

* **`Integer.ofText?_text`**: a whole number reads back.
* **`Binary64.ofDecimal?_mul_pow`**: zeros behind the digits can be moved into the exponent.
* **`Binary64.ofText?_text`**: a finite number reads back.
-/

namespace BlockEdit

/-! ### Digits -/

namespace Text

/-- A number is written with a digit at least. -/
theorem ofNat_ne_nil (n : Nat) : ofNat n ≠ [] := Nat.toDigits_ne_nil

/-- A number is written with digits. -/
theorem isDigit_of_mem_ofNat {n : Nat} {c : Char} (h : c ∈ ofNat n) : c.isDigit = true :=
  Nat.isDigit_of_mem_toDigits (by omega) (by omega) h

/-- A number is written with digits throughout. -/
theorem all_isDigit_ofNat (n : Nat) : (ofNat n).all Char.isDigit = true :=
  List.all_eq_true.mpr fun _ h => isDigit_of_mem_ofNat h

/-- The digits of a number stand for it. -/
theorem foldl_ofNat (n : Nat) :
    (ofNat n).foldl (fun n c => 10 * n + (c.toNat - '0'.toNat)) 0 = n :=
  Nat.ofDigitChars_toDigits (by omega) (by omega)

/-- A text that starts with a digit starts with no sign. -/
theorem head_ofNat (n : Nat) : ∃ c t, ofNat n = c :: t ∧ c.isDigit = true ∧ c ≠ '-' ∧ c ≠ '+' := by
  rcases h : ofNat n with _ | ⟨c, t⟩
  · exact absurd h (ofNat_ne_nil n)
  · have hc : c.isDigit = true := isDigit_of_mem_ofNat (n := n) (by rw [h]; exact List.mem_cons_self)
    refine ⟨c, t, rfl, hc, ?_, ?_⟩
    · rintro rfl
      revert hc
      decide
    · rintro rfl
      revert hc
      decide

end Text

/-! ### Whole numbers -/

namespace Integer

/-- A number is read back from the text that is written for it. -/
theorem natOfText?_ofNat (n : Nat) : natOfText? (Text.ofNat n) = some n := by
  rw [natOfText?, if_neg (by simp [Text.ofNat_ne_nil, Text.all_isDigit_ofNat]), Text.foldl_ofNat]

/-- The value of a bounded integer is in bounds. -/
theorem ofInt?_toInt (i : Int64) : ofInt? i.toInt = some i := by
  have hfits : fits i.toInt = true := by
    have h1 := i.le_toInt
    have h2 := i.toInt_lt
    simp only [fits, Bool.and_eq_true, decide_eq_true_eq]
    omega
  rw [ofInt?, if_pos hfits, Int64.ofInt_toInt]

/-- A text without a sign is read as digits. -/
theorem ofText?_ofNat (n : Nat) : ofText? (Text.ofNat n) = ofInt? n := by
  obtain ⟨c, t, h, -, hminus, hplus⟩ := Text.head_ofNat n
  have hnat := natOfText?_ofNat n
  rw [h] at hnat ⊢
  unfold ofText?
  split
  · next heq => cases heq; exact absurd rfl hminus
  · next heq => cases heq; exact absurd rfl hplus
  · rw [hnat, Option.bind_some]

/-- **A whole number reads back.** -/
theorem ofText?_text (i : Int64) : ofText? (text i) = some i := by
  have hback := ofInt?_toInt i
  rw [text, Text.ofInt]
  split
  · next hneg =>
    rw [ofText?, natOfText?_ofNat, Option.bind_some]
    rwa [show -((i.toInt.natAbs : Nat) : Int) = i.toInt by omega]
  · next hpos =>
    rw [ofText?_ofNat]
    rwa [show ((i.toInt.natAbs : Nat) : Int) = i.toInt by omega]

end Integer

/-! ### Rounding -/

namespace Binary64

/-- Rounding looks at the ratio only. -/
theorem roundHalfEven_mul {k : Nat} (hk : 0 < k) (a b : Nat) :
    roundHalfEven (a * k) (b * k) = roundHalfEven a b := by
  have hlt : ∀ c d : Nat, c * k < d * k ↔ c < d := fun c d => Nat.mul_lt_mul_right hk
  simp only [roundHalfEven, Nat.mul_div_mul_right a b hk, Nat.mul_mod_mul_right, ← Nat.mul_assoc,
    hlt]

/-- A ratio is rounded to the same number whatever factor its parts share. -/
theorem ofRatio?_mul {k : Nat} (hk : 0 < k) (negative : Bool) (a b : Nat) :
    ofRatio? negative (a * k) (b * k) = ofRatio? negative a b := by
  simp only [ofRatio?, Nat.mul_div_mul_right a b hk, Nat.mul_right_comm b k, roundHalfEven_mul hk]

/-- A number has a digit at least. -/
theorem digitCount_pos (n : Nat) : 0 < digitCount n := Nat.length_toDigits_pos

/-- A number has at most so many digits as a power of ten has zeros exactly when it is below it. -/
theorem digitCount_le_iff {n k : Nat} (hk : 0 < k) : digitCount n ≤ k ↔ n < 10 ^ k :=
  Nat.length_toDigits_le_iff (by omega) hk

/-- Zeros behind the digits are digits. -/
theorem digitCount_mul_pow {n : Nat} (hn : 0 < n) (k : Nat) :
    digitCount (n * 10 ^ k) = digitCount n + k := by
  have hpow : 0 < 10 ^ k := Nat.pow_pos (by omega)
  have hle : digitCount (n * 10 ^ k) ≤ digitCount n + k := by
    rw [digitCount_le_iff (by have := digitCount_pos n; omega), Nat.pow_add]
    exact Nat.mul_lt_mul_of_pos_right ((digitCount_le_iff (digitCount_pos n)).mp (Nat.le_refl _)) hpow
  have hge : digitCount n + k ≤ digitCount (n * 10 ^ k) := by
    rw [← Nat.not_lt]
    intro hlt
    have hcount : digitCount (n * 10 ^ k) ≤ digitCount n + k - 1 := by omega
    by_cases hone : digitCount n = 1
    · by_cases hk : k = 0
      · have := digitCount_pos (n * 10 ^ k)
        omega
      · rw [digitCount_le_iff (by omega), hone, Nat.add_sub_cancel_left] at hcount
        have : 10 ^ k ≤ n * 10 ^ k := Nat.le_mul_of_pos_left _ hn
        omega
    · have hpos := digitCount_pos n
      have hsplit : digitCount n + k - 1 = (digitCount n - 1) + k := by omega
      rw [digitCount_le_iff (by omega), hsplit, Nat.pow_add] at hcount
      have hn' : n < 10 ^ (digitCount n - 1) := Nat.lt_of_mul_lt_mul_right hcount
      rw [← digitCount_le_iff (by omega)] at hn'
      omega
  omega

/-- **Zeros behind the digits** can be moved into the exponent. -/
theorem ofDecimal?_mul_pow (negative : Bool) (n k : Nat) (e : Int) :
    ofDecimal? negative (n * 10 ^ k) e = ofDecimal? negative n (e + k) := by
  have hpow : 0 < 10 ^ k := Nat.pow_pos (by omega)
  by_cases hn : n = 0
  · subst hn
    simp [ofDecimal?]
  · have hpos : 0 < n := by omega
    have hne : n * 10 ^ k ≠ 0 := Nat.mul_ne_zero hn (by omega)
    have hpoint : e + ((digitCount n + k : Nat) : Int) = e + k + digitCount n := by
      omega
    simp only [ofDecimal?, hn, hne, if_false, digitCount_mul_pow hpos, hpoint]
    by_cases h1 : 310 < e + (k : Int) + (digitCount n : Int)
    · rw [if_pos h1, if_pos h1]
    rw [if_neg h1, if_neg h1]
    by_cases h2 : e + (k : Int) + (digitCount n : Int) < -340
    · rw [if_pos h2, if_pos h2]
    rw [if_neg h2, if_neg h2]
    -- The two sides are the same ratio, whatever the signs of the exponents are.
    by_cases he : 0 ≤ e
    · have hsum : (e + k).toNat = e.toNat + k := by omega
      rw [if_pos he, if_pos (by omega), hsum, Nat.pow_add, Nat.mul_comm (10 ^ e.toNat),
        ← Nat.mul_assoc]
    · rw [if_neg he]
      by_cases hek : 0 ≤ e + k
      · have hk : k = (e + k).toNat + e.natAbs := by omega
        have hratio : n * 10 ^ k * unitsOfOne =
            n * 10 ^ (e + k).toNat * unitsOfOne * 10 ^ e.natAbs := by
          conv => lhs; rw [hk, Nat.pow_add]
          rw [← Nat.mul_assoc, Nat.mul_right_comm]
        have hscale := ofRatio?_mul (k := 10 ^ e.natAbs) (Nat.pow_pos (by omega)) negative
          (n * 10 ^ (e + k).toNat * unitsOfOne) 1
        rw [Nat.one_mul] at hscale
        rw [if_pos hek, hratio, hscale]
      · have habs : e.natAbs = (e + k).natAbs + k := by omega
        rw [if_neg hek, habs, Nat.pow_add, Nat.mul_right_comm]
        exact ofRatio?_mul hpow negative _ _

/-! ### The decimal of a number -/

/-- A number has canonical fields. -/
theorem ofFields?_fields (x : Binary64) :
    ofFields? x.negative x.significand x.exponent = some x := by
  rw [ofFields?, dif_pos x.canonical]

/-- The exponent can be told from the magnitude. -/
theorem log2_units (x : Binary64) : x.units.log2 - 52 = x.exponent := by
  obtain ⟨hlt, -, hzero | hge⟩ := x.canonical
  · rw [units, hzero, Nat.pow_zero, Nat.mul_one]
    have : x.significand.log2 < 53 := by
      by_cases hs : x.significand = 0
      · rw [hs]
        decide
      · exact (Nat.log2_lt hs).mpr hlt
    omega
  · have hpow : 0 < 2 ^ x.exponent := Nat.pow_pos (by omega)
    have hne : x.units ≠ 0 := Nat.mul_ne_zero (by omega) (by omega)
    have hupper : x.units.log2 < 53 + x.exponent := by
      rw [Nat.log2_lt hne, Nat.pow_add]
      exact Nat.mul_lt_mul_of_pos_right hlt hpow
    have hlower : ¬ x.units.log2 < 52 + x.exponent := by
      rw [Nat.log2_lt hne, Nat.pow_add, Nat.not_lt]
      exact Nat.mul_le_mul_right _ hge
    omega

/-- **A number is rounded to itself.** -/
theorem ofRatio?_units (x : Binary64) : ofRatio? x.negative x.units 1 = some x := by
  have hpow : 0 < 2 ^ x.exponent := Nat.pow_pos (by omega)
  have hround : roundHalfEven x.units (1 * 2 ^ x.exponent) = x.significand := by
    rw [units, roundHalfEven_mul hpow]
    simp [roundHalfEven, Nat.mod_one]
  have hne : x.significand ≠ 2 ^ 53 := Nat.ne_of_lt x.canonical.1
  simp only [ofRatio?, Nat.div_one, log2_units, hround, hne, if_false, ofFields?_fields]

/-- The ratio may be written with any factor. -/
theorem ofRatio?_units_mul (x : Binary64) {k : Nat} (hk : 0 < k) :
    ofRatio? x.negative (x.units * k) k = some x := by
  have hscale := ofRatio?_mul hk x.negative x.units 1
  rw [Nat.one_mul] at hscale
  rw [hscale, ofRatio?_units]

/-- Zero is read off whatever its exponent. -/
theorem ofDecimal?_zero (negative : Bool) (e : Int) :
    ofDecimal? negative 0 e = some (zero negative) := by
  rw [ofDecimal?]
  simp

/-- Apart from its sign there is one zero. -/
theorem eq_zero_of_isZero {x : Binary64} (h : x.isZero = true) : x = zero x.negative := by
  have hs : x.significand = 0 := by simpa [isZero] using h
  have he : x.exponent = 0 := by
    rcases x.canonical.2.2 with h | h
    · exact h
    · omega
  obtain ⟨negative, significand, exponent, canonical⟩ := x
  cases hs
  cases he
  rfl

/-- A number that is not zero has a unit at least. -/
theorem units_pos {x : Binary64} (h : x.isZero = false) : 0 < x.units := by
  have hs : x.significand ≠ 0 := by simpa [isZero] using h
  exact Nat.mul_pos (by omega) (Nat.pow_pos (by omega))

/-- No number has more units than the greatest significand at the greatest exponent. -/
theorem units_lt (x : Binary64) : x.units < 2 ^ 53 * 2 ^ 2045 := by
  rw [units]
  refine Nat.lt_of_lt_of_le
    (Nat.mul_lt_mul_of_pos_right x.canonical.1 (Nat.pow_pos Nat.two_pos)) ?_
  exact Nat.mul_le_mul_left _ (Nat.pow_le_pow_right Nat.two_pos x.canonical.2.1)

/-- A power of five and one of two make a power of ten. -/
theorem mul_five_pow (n k : Nat) : n * 5 ^ k * 2 ^ k = n * 10 ^ k := by
  rw [Nat.mul_assoc, ← Nat.mul_pow]

/-- **The exact expansion** of a number reads back. -/
theorem readsBack_exact {x : Binary64} (h : x.isZero = false) :
    Decimal.readsBack x (Decimal.exact x) = true := by
  have hpos := units_pos h
  have hfive : ∀ k, 0 < 5 ^ k := fun k => Nat.pow_pos (by omega)
  have hne : x.units * 5 ^ 1074 ≠ 0 := Nat.ne_of_gt (Nat.mul_pos hpos (hfive 1074))
  have hupper : digitCount (x.units * 5 ^ 1074) ≤ 1384 := by
    rw [digitCount_le_iff (by omega)]
    refine Nat.lt_of_lt_of_le (Nat.mul_lt_mul_of_pos_right x.units_lt (hfive 1074)) ?_
    decide +kernel
  have hlower : 734 ≤ digitCount (x.units * 5 ^ 1074) := by
    rw [← Nat.not_lt]
    intro hlt
    have hle : digitCount (x.units * 5 ^ 1074) ≤ 733 := by omega
    rw [digitCount_le_iff (by omega)] at hle
    have hbig : 10 ^ 733 ≤ 1 * 5 ^ 1074 := by decide +kernel
    have := Nat.mul_le_mul_right (5 ^ 1074) (show 1 ≤ x.units from hpos)
    omega
  have hratio : x.units * 5 ^ 1074 * unitsOfOne = x.units * 10 ^ 1074 := by
    rw [unitsOfOne]
    exact mul_five_pow x.units 1074
  have hten : ∀ k, 0 < 10 ^ k := fun k => Nat.pow_pos (by omega)
  rw [Decimal.readsBack, beq_iff_eq, Decimal.exact, ofDecimal?]
  dsimp only
  rw [if_neg hne, if_neg (by omega), if_neg (by omega), if_neg (by omega), hratio,
    show (-1074 : Int).natAbs = 1074 from rfl]
  exact x.ofRatio?_units_mul (hten 1074)

/-- A decimal that reads back as a number still does without a zero at its end. -/
theorem ofDecimal?_dropZero {x : Binary64} {d : Decimal}
    (h : Decimal.readsBack x d = true) :
    ofDecimal? x.negative d.dropZero.digits d.dropZero.exponent = some x := by
  rw [Decimal.readsBack, beq_iff_eq] at h
  rw [Decimal.dropZero]
  split
  · next hmod =>
    have hten : d.digits = d.digits / 10 * 10 ^ 1 := by omega
    rw [hten, ofDecimal?_mul_pow] at h
    exact h
  · exact h

/-- **The decimal of a number** stands for it. -/
theorem ofDecimal?_decimal (x : Binary64) :
    ofDecimal? x.negative x.decimal.digits x.decimal.exponent = some x := by
  rw [decimal, Decimal.shortest]
  split
  · next hzero =>
    rw [ofDecimal?_zero]
    exact congrArg some (eq_zero_of_isZero hzero).symm
  · next hzero =>
    rw [Bool.not_eq_true] at hzero
    rcases hs : Decimal.shortestFrom .greater x 17 1 with _ | d
    · have := readsBack_exact hzero
      rwa [Decimal.readsBack, beq_iff_eq] at this
    · exact ofDecimal?_dropZero (Decimal.readsBack_of_shortestFrom 17 1 hs)

/-! ### The two notations -/

/-- The digits of a first text count for more by one power of ten for each digit behind them. -/
theorem digitsValue_append (a b : Text) :
    digitsValue (a ++ b) = digitsValue a * 10 ^ b.length + digitsValue b := by
  have h : ∀ (t : Text) (n : Nat), t.foldl (fun n c => 10 * n + (c.toNat - '0'.toNat)) n =
      10 ^ t.length * n + digitsValue t :=
    fun _ _ => Nat.ofDigitChars_eq_ofDigitChars_zero
  rw [digitsValue, List.foldl_append, h, Nat.mul_comm]
  rfl

/-- The digits of a number that is written stand for it. -/
theorem digitsValue_ofNat (n : Nat) : digitsValue (Text.ofNat n) = n := Text.foldl_ofNat n

/-- Zeros stand for nothing. -/
theorem digitsValue_zeros (n : Nat) : digitsValue (Decimal.zeros n) = 0 := by
  induction n with
  | zero => rfl
  | succ n ih =>
    rw [Decimal.zeros, List.replicate_succ]
    exact ih

/-- The sign that is written before a digit is read as the number's sign. -/
theorem splitSign_signText (x : Binary64) {c : Char} (t : Text) (h : c.isDigit = true) :
    splitSign (x.signText ++ c :: t) = (x.negative, c :: t) := by
  rw [signText]
  rcases hx : x.negative with _ | _
  · have h1 : c ≠ '-' := by
      rintro rfl
      revert h
      decide
    have h2 : c ≠ '+' := by
      rintro rfl
      revert h
      decide
    rw [if_neg Bool.false_ne_true, List.nil_append]
    unfold splitSign
    split
    · next heq => cases heq; exact absurd rfl h1
    · next heq => cases heq; exact absurd rfl h2
    · rfl
  · rw [if_pos rfl]
    rfl

/-- The text goes on with something that is no digit. -/
def StopsDigits (rest : Text) : Prop := ∀ c t, rest = c :: t → c.isDigit = false

/-- At the end of a text there is no digit. -/
theorem stopsDigits_nil : StopsDigits [] := fun _ _ h => by cases h

/-- A text that starts with no digit has none at its start. -/
theorem stopsDigits_cons {c : Char} {t : Text} (h : c.isDigit = false) : StopsDigits (c :: t) :=
  fun _ _ heq => by cases heq; exact h

/-- Digits are read as far as they go, and what follows is left. -/
theorem takeWhile_digits {ds rest : Text} (hd : ds.all Char.isDigit = true)
    (hr : StopsDigits rest) :
    (ds ++ rest).takeWhile Char.isDigit = ds ∧ (ds ++ rest).dropWhile Char.isDigit = rest := by
  have hall : ∀ c ∈ ds, c.isDigit = true := List.all_eq_true.mp hd
  rw [List.takeWhile_append_of_pos hall, List.dropWhile_append_of_pos hall]
  rcases rest with _ | ⟨c, t⟩
  · simp
  · have hc := hr c t rfl
    rw [List.takeWhile_cons_of_neg (by simp [hc]), List.dropWhile_cons_of_neg (by simp [hc]),
      List.append_nil]
    exact ⟨rfl, rfl⟩

/-- **Digits without a point** stand for a whole number of powers of ten. -/
theorem ofText?_whole (x : Binary64) (c : Char) (ds : Text) {rest : Text} {e : Int}
    (hd : (c :: ds).all Char.isDigit = true) (hr : StopsDigits rest)
    (hpoint : ∀ t, rest ≠ '.' :: t) (he : readExponent? rest = some e) :
    ofText? (x.signText ++ (c :: ds ++ rest)) =
      ofDecimal? x.negative (digitsValue (c :: ds)) e := by
  have hc : c.isDigit = true := List.all_eq_true.mp hd c List.mem_cons_self
  obtain ⟨htake, hdrop⟩ := takeWhile_digits hd hr
  rw [ofText?, List.cons_append, splitSign_signText x _ hc, ← List.cons_append]
  dsimp only
  rw [htake, hdrop]
  split
  · next more => exact absurd rfl (hpoint more)
  · rw [if_neg (by simp), he]
    simp

/-- **Digits with a point** among them. -/
theorem ofText?_point (x : Binary64) (c : Char) (ds : Text) {fraction rest : Text} {e : Int}
    (hd : (c :: ds).all Char.isDigit = true) (hf : fraction.all Char.isDigit = true)
    (hr : StopsDigits rest) (he : readExponent? rest = some e) :
    ofText? (x.signText ++ (c :: ds ++ '.' :: (fraction ++ rest))) =
      ofDecimal? x.negative (digitsValue (c :: ds ++ fraction)) (e - fraction.length) := by
  have hc : c.isDigit = true := List.all_eq_true.mp hd c List.mem_cons_self
  obtain ⟨htake, hdrop⟩ := takeWhile_digits hd
    (stopsDigits_cons (c := '.') (t := fraction ++ rest) rfl)
  obtain ⟨htake', hdrop'⟩ := takeWhile_digits hf hr
  rw [ofText?, List.cons_append, splitSign_signText x _ hc, ← List.cons_append]
  dsimp only
  rw [htake, hdrop]
  simp only [htake', hdrop', he]
  rw [if_neg (by simp)]
  rfl

/-- A natural number is written without a sign. -/
theorem splitSign_ofNat (n : Nat) : splitSign (Text.ofNat n) = (false, Text.ofNat n) := by
  obtain ⟨c, t, h, -, hminus, hplus⟩ := Text.head_ofNat n
  rw [h]
  unfold splitSign
  split
  · next heq => cases heq; exact absurd rfl hminus
  · next heq => cases heq; exact absurd rfl hplus
  · rfl

/-- An integer is written as its sign and its magnitude. -/
theorem splitSign_ofInt (e : Int) :
    splitSign (Text.ofInt e) = (decide (e < 0), Text.ofNat e.natAbs) := by
  rw [Text.ofInt]
  by_cases he : e < 0
  · rw [if_pos he, decide_eq_true he]
    rfl
  · rw [if_neg he, decide_eq_false he, splitSign_ofNat]

/-- An exponent is read back as it is written. -/
theorem readExponent?_ofInt (e : Int) : readExponent? ('e' :: Text.ofInt e) = some e := by
  have hvalue := digitsValue_ofNat e.natAbs
  have hall := Text.all_isDigit_ofNat e.natAbs
  rw [readExponent?, if_pos (Or.inl rfl), splitSign_ofInt]
  dsimp only
  rw [if_neg (by simp [hall, Text.ofNat_ne_nil]), hvalue]
  by_cases he : e < 0
  · rw [if_pos (decide_eq_true he)]
    exact congrArg some (by omega)
  · rw [if_neg (by simp [he])]
    exact congrArg some (by omega)

/-- **The notation without an exponent** reads as its decimal. -/
theorem ofText?_positional (x : Binary64) (d : Decimal) :
    ofText? (x.signText ++ d.positional) = ofDecimal? x.negative d.digits d.exponent := by
  obtain ⟨c, t, h, -, -, -⟩ := Text.head_ofNat d.digits
  have hvalue := digitsValue_ofNat d.digits
  have hall := Text.all_isDigit_ofNat d.digits
  have hzeros : ∀ n, (Decimal.zeros n).all Char.isDigit = true := fun n =>
    List.all_eq_true.mpr fun c hc => by rw [List.eq_of_mem_replicate hc]; rfl
  rw [Decimal.positional, Decimal.digitText]
  dsimp only
  -- The point stands behind all digits, between two of them, or in front of all.
  split
  · next hpos =>
    have hdigits : (Text.ofNat d.digits ++ Decimal.zeros d.exponent.toNat).all Char.isDigit = true := by
      rw [List.all_append, hall, hzeros]
      rfl
    have hread := ofText?_whole x c (t ++ Decimal.zeros d.exponent.toNat)
      (by rw [← List.cons_append, ← h]; exact hdigits) stopsDigits_nil (fun _ => by simp) rfl
    rw [List.append_nil, ← List.cons_append, ← h, digitsValue_append, hvalue, digitsValue_zeros,
      Nat.add_zero, Decimal.zeros, List.length_replicate, ofDecimal?_mul_pow] at hread
    rw [Decimal.zeros, hread]
    congr 1
    omega
  · next hneg =>
    split
    · next hlt =>
      generalize hn : (Text.ofNat d.digits).length - d.exponent.natAbs = n
      have hn0 : 0 < n := by omega
      obtain ⟨m, rfl⟩ : ∃ m, n = m + 1 := ⟨n - 1, by omega⟩
      have hjoin : (Text.ofNat d.digits).take (m + 1) ++ (Text.ofNat d.digits).drop (m + 1) =
          Text.ofNat d.digits := List.take_append_drop _ _
      have hlength : ((Text.ofNat d.digits).drop (m + 1)).length = d.exponent.natAbs := by
        rw [List.length_drop]
        omega
      have htake : (Text.ofNat d.digits).take (m + 1) = c :: t.take m := by
        rw [h, List.take_succ_cons]
      rw [← hjoin, List.all_append, Bool.and_eq_true, htake] at hall
      have hread := ofText?_point x _ _ hall.1 hall.2 stopsDigits_nil
        (show readExponent? [] = some 0 from rfl)
      rw [List.append_nil, ← htake, hjoin, hvalue, hlength] at hread
      rw [hread]
      congr 1
      omega
    · next hge =>
      have hfraction : (Decimal.zeros (d.exponent.natAbs - (Text.ofNat d.digits).length) ++
          Text.ofNat d.digits).all Char.isDigit = true := by
        rw [List.all_append, hzeros, hall]
        rfl
      have hread := ofText?_point x '0' [] rfl hfraction stopsDigits_nil
        (show readExponent? [] = some 0 from rfl)
      rw [List.append_nil, List.singleton_append] at hread
      rw [hread]
      have hdigits : digitsValue ('0' :: (Decimal.zeros
          (d.exponent.natAbs - (Text.ofNat d.digits).length) ++ Text.ofNat d.digits)) = d.digits := by
        rw [← List.cons_append, digitsValue_append, hvalue,
          show digitsValue ('0' :: Decimal.zeros _) = digitsValue (Decimal.zeros _) from rfl,
          digitsValue_zeros, Nat.zero_mul, Nat.zero_add]
      have hlength : (Decimal.zeros (d.exponent.natAbs - (Text.ofNat d.digits).length) ++
          Text.ofNat d.digits).length = d.exponent.natAbs := by
        rw [List.length_append, Decimal.zeros, List.length_replicate]
        omega
      rw [List.singleton_append, hdigits, hlength]
      congr 1
      omega

/-- **The notation with an exponent** reads as its decimal. -/
theorem ofText?_scientific (x : Binary64) (d : Decimal) :
    ofText? (x.signText ++ d.scientific []) = ofDecimal? x.negative d.digits d.exponent := by
  have hvalue := digitsValue_ofNat d.digits
  have hall := Text.all_isDigit_ofNat d.digits
  have hstop : ∀ t, StopsDigits ('e' :: t) := fun t => stopsDigits_cons rfl
  rw [Decimal.scientific, Decimal.digitText, List.nil_append, ite_self]
  split
  · next first second rest hds =>
    rw [hds] at hvalue hall
    have hfirst : [first].all Char.isDigit = true := by
      rw [List.all_cons, Bool.and_eq_true] at hall
      rw [List.all_cons, hall.1]
      rfl
    have hrest : (second :: rest).all Char.isDigit = true := by
      rw [List.all_cons, Bool.and_eq_true] at hall
      exact hall.2
    have hread := ofText?_point x _ _ hfirst hrest (hstop _)
      (readExponent?_ofInt (d.exponent + (Text.ofNat d.digits).length - 1))
    have hjoin : [first] ++ (second :: rest) = first :: second :: rest := rfl
    rw [hjoin, hvalue] at hread
    refine Eq.trans ?_ (hread.trans ?_)
    · rw [hds]
      simp
    · rw [hds]
      simp only [List.length_cons]
      congr 1
      omega
  · next hds =>
    obtain ⟨c, t, h, -, -, -⟩ := Text.head_ofNat d.digits
    have ht : t = [] := by
      rcases t with _ | ⟨second, rest⟩
      · rfl
      · exact absurd h (hds c second rest)
    subst ht
    rw [h] at hvalue hall ⊢
    rw [ofText?_whole x _ _ hall (hstop _) (fun _ heq => by cases heq) (readExponent?_ofInt _), hvalue]
    congr 1
    simp

/-- **A finite number reads back.** -/
theorem ofText?_text (x : Binary64) : ofText? x.text = some x := by
  rw [text]
  split
  · rw [ofText?_scientific, ofDecimal?_decimal]
  · rw [positionalText, ofText?_positional, ofDecimal?_decimal]

end Binary64

end BlockEdit
