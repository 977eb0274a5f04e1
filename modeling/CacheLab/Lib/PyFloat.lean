import Mathlib.Tactic

/-!
# Finite floats of Python

A `PyFloat` is a finite binary64 number in its canonical form: the value is
`mantissa * 2 ^ exponent / 2 ^ 1074`, with the sign apart, so that the two zeros are different floats with
one value. Values are compared exactly, as Python compares an `int` with a `float`.

`PyFloat.repr` is the shortest decimal that reads back as the float, the closest one where there are two,
in the layout of `float.__repr__`: at most sixteen digits in front of the point and at most four places
behind it before the first digit, else with an exponent. All comparisons are made in whole numbers, in
units of `10 ^ -400 * 2 ^ -1076`.
-/

namespace CacheLab

/-- A finite binary64 number. -/
structure PyFloat where
  negative : Bool
  mantissa : ℕ
  exponent : ℕ
  mantissa_lt : mantissa < 2 ^ 53
  exponent_le : exponent ≤ 2045
  normal : exponent = 0 ∨ 2 ^ 52 ≤ mantissa

namespace PyFloat

variable (x y : PyFloat)

/-- The magnitude, in units of `2 ^ -1074`. -/
def magnitude : ℕ := x.mantissa * 2 ^ x.exponent

/-- The value, in units of `2 ^ -1074`. -/
def scaled : ℤ := if x.negative then -x.magnitude else x.magnitude

/-- One, in units of `2 ^ -1074`. -/
def one : ℤ := 2 ^ 1074

theorem one_pos : 0 < one := pow_pos (by decide) _

/-- Whether the value is a whole number (`float.is_integer`). -/
def isInteger : Bool := decide (one ∣ x.scaled)

/-- The whole part (`int`, exact for a whole number). -/
def toInt : ℤ := x.scaled / one

/-! ### The shortest decimal -/

/-- The float itself. -/
def center : ℕ := 4 * x.magnitude * 10 ^ 400

/-- Half the distance to the next float below; it is halved once more at a power of two. -/
def below : ℕ :=
  if x.mantissa = 2 ^ 52 ∧ x.exponent ≠ 0 then 2 ^ x.exponent * 10 ^ 400 else 2 * 2 ^ x.exponent * 10 ^ 400

/-- Half the distance to the next float above. -/
def above : ℕ := 2 * 2 ^ x.exponent * 10 ^ 400

/-- The decimal `d * 10 ^ (q - 400)`. -/
def decimal (d q : ℕ) : ℕ := d * 10 ^ q * 2 ^ 1076

/-- The decimal rounds to the float; a tie goes to the even mantissa. -/
def readsBack (d q : ℕ) : Bool :=
  if x.mantissa % 2 = 0 then
    decide (x.center ≤ decimal d q + x.below ∧ decimal d q ≤ x.center + x.above)
  else decide (x.center < decimal d q + x.below ∧ decimal d q < x.center + x.above)

/-- The place of the first digit: `10 ^ (leading - 400)` is the largest power of ten up to the float. -/
def leading : ℕ := (Nat.toDigits 10 (x.center / 2 ^ 1076)).length - 1

/-- The decimal with `n` digits that reads back as the float, the closest one if there are two. -/
def candidate (n : ℕ) : Option (ℕ × ℕ) :=
  let q := x.leading + 1 - n
  let d := x.center / (10 ^ q * 2 ^ 1076)
  match x.readsBack d q, x.readsBack (d + 1) q with
  | true, true =>
      let low := x.center - decimal d q
      let high := decimal (d + 1) q - x.center
      if low < high ∨ (low = high ∧ d % 2 = 0) then some (d, q) else some (d + 1, q)
  | true, false => some (d, q)
  | false, true => some (d + 1, q)
  | false, false => none

/-- The shortest decimal that reads back as the float; seventeen digits are always enough. -/
def shortest : ℕ × ℕ :=
  ((List.range 17).findSome? fun i => x.candidate (i + 1)).getD
    (x.center / (10 ^ (x.leading - 16) * 2 ^ 1076), x.leading - 16)

/-! ### The layout -/

/-- Digits of an exponent, at least two. -/
def exponentDigits (n : ℕ) : List Char :=
  let digits := Nat.toDigits 10 n
  if digits.length < 2 then '0' :: digits else digits

/-- The digits behind the point, with the point. -/
def fraction : List Char → List Char
  | [] => []
  | c :: cs => '.' :: c :: cs

/-- The layout with an exponent. -/
def scientific (digits : List Char) (e : ℤ) : List Char :=
  digits.take 1 ++ fraction (digits.drop 1) ++
    'e' :: (if e < 0 then '-' else '+') :: exponentDigits e.natAbs

/-- The layout of a string of digits whose point stands behind the first `point` digits. -/
def layout (digits : List Char) (point : ℤ) : List Char :=
  if point ≤ -4 ∨ 16 < point then scientific digits (point - 1)
  else if point ≤ 0 then '0' :: '.' :: (List.replicate (-point).toNat '0' ++ digits)
  else if (digits.length : ℤ) ≤ point then
    digits ++ List.replicate (point.toNat - digits.length) '0' ++ ['.', '0']
  else digits.take point.toNat ++ '.' :: digits.drop point.toNat

/-- The digits of the magnitude and the place of the point. -/
def magnitudeRepr : List Char :=
  if x.mantissa = 0 then ['0', '.', '0']
  else
    let digits := Nat.toDigits 10 x.shortest.1
    layout ((digits.reverse.dropWhile fun c => c = '0').reverse) (digits.length + x.shortest.2 - 400)

/-- `float.__repr__` -/
protected def repr : List Char := if x.negative then '-' :: x.magnitudeRepr else x.magnitudeRepr

/-! ### Value and layout -/

variable {x y}

/-- A float has one canonical form. -/
theorem eq_of_magnitude_eq (h : x.magnitude = y.magnitude) (hx : x.mantissa ≠ 0) :
    x.mantissa = y.mantissa ∧ x.exponent = y.exponent := by
  -- the float with the smaller exponent would need a mantissa beyond 53 bits
  have hle : ∀ a b : PyFloat, a.magnitude = b.magnitude → a.mantissa ≠ 0 → b.exponent ≤ a.exponent := by
    intro a b hab ha
    by_contra hlt
    have hb : 2 ^ 52 ≤ b.mantissa := by
      rcases b.normal with hzero | hb
      · omega
      · exact hb
    obtain ⟨k, hk⟩ : ∃ k, b.exponent = a.exponent + (k + 1) := ⟨b.exponent - a.exponent - 1, by omega⟩
    have hcancel : a.mantissa = b.mantissa * 2 ^ (k + 1) := by
      have hpos : 0 < 2 ^ a.exponent := Nat.two_pow_pos _
      apply Nat.eq_of_mul_eq_mul_right hpos
      rw [magnitude, magnitude, hk, pow_add] at hab
      rw [hab]
      ring
    have hbig : 2 ^ 52 * 2 ≤ b.mantissa * 2 ^ (k + 1) := by
      refine Nat.mul_le_mul hb ?_
      calc 2 = 2 ^ 1 := rfl
        _ ≤ 2 ^ (k + 1) := Nat.pow_le_pow_right (by decide) (by omega)
    have hsmall := a.mantissa_lt
    omega
  have hy : y.mantissa ≠ 0 := by
    intro hzero
    rw [magnitude, magnitude, hzero, zero_mul] at h
    exact hx ((Nat.mul_eq_zero.mp h).resolve_right (Nat.two_pow_pos _).ne')
  have hexp : x.exponent = y.exponent := le_antisymm (hle y x h.symm hy) (hle x y h hx)
  refine ⟨?_, hexp⟩
  rw [magnitude, magnitude, hexp] at h
  exact Nat.eq_of_mul_eq_mul_right (Nat.two_pow_pos _) h

theorem natAbs_scaled (x : PyFloat) : x.scaled.natAbs = x.magnitude := by
  unfold scaled
  split_ifs <;> simp

/-- A whole number that is a float is below `2 ^ 1024`. -/
theorem natAbs_lt_of_mul_one_eq {n : ℤ} (h : n * one = x.scaled) : n.natAbs < 2 ^ 1024 := by
  have habs : n.natAbs * 2 ^ 1074 = x.mantissa * 2 ^ x.exponent := by
    rw [← magnitude, ← natAbs_scaled, ← h, Int.natAbs_mul, one, Int.natAbs_pow, show Int.natAbs 2 = 2 from rfl]
  have hlt : ∀ j k l : ℕ, x.exponent ≤ j → 53 + j = k + l → x.mantissa * 2 ^ x.exponent < 2 ^ k * 2 ^ l := by
    intro j k l hj hkl
    calc x.mantissa * 2 ^ x.exponent < 2 ^ 53 * 2 ^ x.exponent :=
          Nat.mul_lt_mul_of_pos_right x.mantissa_lt (Nat.two_pow_pos _)
      _ ≤ 2 ^ 53 * 2 ^ j := Nat.mul_le_mul_left _ (Nat.pow_le_pow_right (by decide) hj)
      _ = 2 ^ k * 2 ^ l := by rw [← pow_add, ← pow_add, hkl]
  exact Nat.lt_of_mul_lt_mul_right (habs.trans_lt (hlt 2045 1024 1074 x.exponent_le rfl))

/-- Floats of one value are the same float, or two zeros. -/
theorem eq_or_zero_of_scaled_eq (h : x.scaled = y.scaled) :
    x = y ∨ (x.mantissa = 0 ∧ y.mantissa = 0) := by
  have hmag : x.magnitude = y.magnitude := by
    rw [← natAbs_scaled x, ← natAbs_scaled y, h]
  have hzero : ∀ a : PyFloat, a.magnitude = 0 → a.mantissa = 0 := by
    intro a ha
    exact (Nat.mul_eq_zero.mp ha).resolve_right (Nat.two_pow_pos _).ne'
  by_cases hx : x.mantissa = 0
  · refine .inr ⟨hx, hzero y ?_⟩
    rw [← hmag, magnitude, hx, zero_mul]
  · obtain ⟨hm, he⟩ := eq_of_magnitude_eq hmag hx
    have hpos : 0 < y.magnitude := by
      rw [← hmag]
      exact Nat.pos_of_ne_zero fun h0 => hx (hzero x h0)
    have hneg : x.negative = y.negative := by
      unfold scaled at h
      rw [hmag] at h
      cases hxn : x.negative <;> cases hyn : y.negative <;> simp only [hxn, hyn] at h ⊢ <;>
        simp at h <;> omega
    left
    cases x
    cases y
    simp_all

/-- The characters of a float literal. -/
def IsFloatChar (c : Char) : Prop := c.isDigit = true ∨ c = '.' ∨ c = 'e' ∨ c = '+' ∨ c = '-'

instance (c : Char) : Decidable (IsFloatChar c) := inferInstanceAs (Decidable (_ ∨ _))

theorem isFloatChar_toDigits {n : ℕ} {c : Char} (h : c ∈ Nat.toDigits 10 n) : IsFloatChar c :=
  .inl (Nat.isDigit_of_mem_toDigits (by decide) (by decide) h)

section Layout

variable {digits : List Char} (h : ∀ c ∈ digits, IsFloatChar c)

theorem isFloatChar_exponentDigits {n : ℕ} {c : Char} (hc : c ∈ exponentDigits n) : IsFloatChar c := by
  unfold exponentDigits at hc
  dsimp only at hc
  split_ifs at hc
  · rcases List.mem_cons.mp hc with rfl | hc
    · exact .inl rfl
    · exact isFloatChar_toDigits hc
  · exact isFloatChar_toDigits hc

theorem isFloatChar_fraction {cs : List Char} (hcs : ∀ c ∈ cs, IsFloatChar c) {c : Char}
    (hc : c ∈ fraction cs) : IsFloatChar c := by
  cases cs with
  | nil => cases hc
  | cons d cs =>
      rcases List.mem_cons.mp hc with rfl | hc
      · exact .inr (.inl rfl)
      · exact hcs c hc

include h

theorem scientific_spec (e : ℤ) :
    (∀ c ∈ scientific digits e, IsFloatChar c) ∧ 'e' ∈ scientific digits e := by
  refine ⟨fun c hc => ?_, by simp [scientific]⟩
  simp only [scientific, List.mem_append, List.mem_cons] at hc
  rcases hc with (hc | hc) | rfl | rfl | hc
  · exact h c (List.mem_of_mem_take hc)
  · exact isFloatChar_fraction (fun c hc => h c (List.mem_of_mem_drop hc)) hc
  · exact .inr (.inr (.inl rfl))
  · split_ifs
    · exact .inr (.inr (.inr (.inr rfl)))
    · exact .inr (.inr (.inr (.inl rfl)))
  · exact isFloatChar_exponentDigits hc

/-- The layout adds a point or an exponent, and nothing else than characters of a float literal. -/
theorem layout_spec (point : ℤ) :
    (∀ c ∈ layout digits point, IsFloatChar c) ∧ ('.' ∈ layout digits point ∨ 'e' ∈ layout digits point) := by
  have hzeros : ∀ n, ∀ c ∈ List.replicate n '0', IsFloatChar c := fun n c hc =>
    .inl ((List.mem_replicate.mp hc).2 ▸ rfl)
  unfold layout
  split_ifs with hbig hneg hlong
  · exact ⟨(scientific_spec h _).1, .inr (scientific_spec h _).2⟩
  · refine ⟨fun c hc => ?_, .inl (by simp)⟩
    simp only [List.mem_append, List.mem_cons] at hc
    rcases hc with rfl | rfl | hc | hc
    · exact .inl rfl
    · exact .inr (.inl rfl)
    · exact hzeros _ c hc
    · exact h c hc
  · refine ⟨fun c hc => ?_, .inl (by simp)⟩
    simp only [List.mem_append, List.mem_cons, List.not_mem_nil, or_false] at hc
    rcases hc with (hc | hc) | rfl | rfl
    · exact h c hc
    · exact hzeros _ c hc
    · exact .inr (.inl rfl)
    · exact .inl rfl
  · refine ⟨fun c hc => ?_, .inl (by simp)⟩
    simp only [List.mem_append, List.mem_cons] at hc
    rcases hc with hc | rfl | hc
    · exact h c (List.mem_of_mem_take hc)
    · exact .inr (.inl rfl)
    · exact h c (List.mem_of_mem_drop hc)

end Layout

/-- What `repr` of a float is made of: a point or an exponent, and characters of a float literal. -/
theorem repr_spec (x : PyFloat) :
    (∀ c ∈ x.repr, IsFloatChar c) ∧ ('.' ∈ x.repr ∨ 'e' ∈ x.repr) := by
  have hmag : (∀ c ∈ x.magnitudeRepr, IsFloatChar c) ∧ ('.' ∈ x.magnitudeRepr ∨ 'e' ∈ x.magnitudeRepr) := by
    unfold magnitudeRepr
    split_ifs
    · refine ⟨fun c hc => ?_, .inl (by decide)⟩
      simp only [List.mem_cons, List.not_mem_nil, or_false] at hc
      rcases hc with rfl | rfl | rfl
      · exact .inl rfl
      · exact .inr (.inl rfl)
      · exact .inl rfl
    · refine layout_spec (fun c hc => ?_) _
      rw [List.mem_reverse] at hc
      exact isFloatChar_toDigits (List.mem_reverse.mp ((List.dropWhile_sublist _).subset hc))
  unfold PyFloat.repr
  split_ifs
  · refine ⟨fun c hc => ?_, ?_⟩
    · rcases List.mem_cons.mp hc with rfl | hc
      · exact .inr (.inr (.inr (.inr rfl)))
      · exact hmag.1 c hc
    · exact hmag.2.imp (List.mem_cons_of_mem _) (List.mem_cons_of_mem _)
  · exact hmag

/-- The two zeros are written differently. -/
theorem repr_zero_eq_iff (hx : x.mantissa = 0) (hy : y.mantissa = 0) :
    x.repr = y.repr ↔ x.negative = y.negative := by
  unfold PyFloat.repr magnitudeRepr
  rw [if_pos hx, if_pos hy]
  cases x.negative <;> cases y.negative <;> simp

end PyFloat

end CacheLab
