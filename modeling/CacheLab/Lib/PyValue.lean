import CacheLab.Lib.PyFloat

/-!
# Hashable values of Python

`None`, booleans, integers, finite floats, strings and tuples of these, with the two functions of the
language that disagree on them: equality compares numbers by value, across their types, and `repr` writes
them by type.

* A string is a list of code points, lone surrogates included. `repr` of a string escapes what is not
  printable; which characters beyond ASCII are printable is a table of the interpreter. A surrogate never
  is, so what `repr` gives is a list of characters.
* An interpreter refuses to write an integer with too many digits; `prints` says that a value has none.
* `repr_eq_iff` says when two equal values are written alike: at every place inside the tuples they must
  have values of one type, and zeros of one sign (`spelledAlike`).
-/

namespace CacheLab

/-- What `repr` depends on besides the value. -/
structure Interpreter where
  /-- `str.isprintable` of a character beyond ASCII. -/
  printable : Char → Bool
  /-- `sys.get_int_max_str_digits()`; zero stands for no limit. -/
  maxStrDigits : ℕ
  maxStrDigits_ok : maxStrDigits = 0 ∨ 640 ≤ maxStrDigits

/-- The interpreter writes an integer; beyond the limit it raises a `ValueError`. -/
def Interpreter.writes (py : Interpreter) (n : ℤ) : Bool :=
  decide (py.maxStrDigits = 0 ∨ (Nat.toDigits 10 n.natAbs).length ≤ py.maxStrDigits)

/-- A code point. -/
abbrev CodePoint : Type := Fin 0x110000

/-- There are code points, so numerals stand for them. -/
instance neZero_codePoints : NeZero 0x110000 := ⟨by decide⟩

/-- A hashable value. -/
inductive PyValue
  | none
  | bool (b : Bool)
  | int (n : ℤ)
  | float (x : PyFloat)
  | str (s : List CodePoint)
  | tuple (items : List PyValue)

namespace PyValue

/-! ### Equality -/

/-- The value of a number, in units of `2 ^ -1074`. -/
def number? : PyValue → Option ℤ
  | bool b => some (if b then PyFloat.one else 0)
  | int n => some (n * PyFloat.one)
  | float x => some x.scaled
  | _ => .none

mutual

/-- `a == b` -/
def pyEq : PyValue → PyValue → Bool
  | tuple xs, tuple ys => pyEqs xs ys
  | none, none => true
  | str s, str t => decide (s = t)
  | a, b =>
      match a.number?, b.number? with
      | some x, some y => decide (x = y)
      | _, _ => false

/-- Tuples are compared item by item. -/
def pyEqs : List PyValue → List PyValue → Bool
  | [], [] => true
  | x :: xs, y :: ys => pyEq x y && pyEqs xs ys
  | _, _ => false

end

/-- Induction over the items of tuples. -/
theorem ind {P : PyValue → Prop} (hleaf : ∀ a, (∀ xs, a ≠ tuple xs) → P a)
    (htuple : ∀ xs, (∀ x ∈ xs, P x) → P (tuple xs)) (a : PyValue) : P a := by
  refine @PyValue.rec P (fun xs => ∀ x ∈ xs, P x) (hleaf _ (by simp))
    (fun b => hleaf _ (by simp)) (fun n => hleaf _ (by simp)) (fun x => hleaf _ (by simp))
    (fun s => hleaf _ (by simp)) htuple (by simp) ?_ a
  intro x xs hx hxs y hy
  rcases List.mem_cons.mp hy with rfl | hy
  · exact hx
  · exact hxs y hy

variable {a b c : PyValue} {xs ys : List PyValue}

theorem pyEqs_iff : pyEqs xs ys = true ↔ List.Forall₂ (fun x y => pyEq x y = true) xs ys := by
  induction xs generalizing ys with
  | nil => cases ys <;> simp [pyEqs]
  | cons x xs ih => cases ys <;> simp [pyEqs, ih]

/-- When two values are equal. -/
theorem pyEq_cases (h : pyEq a b = true) :
    (∃ x, a.number? = some x ∧ b.number? = some x) ∨ (a = none ∧ b = none) ∨
      (∃ s, a = str s ∧ b = str s) ∨
      ∃ xs ys, a = tuple xs ∧ b = tuple ys ∧ List.Forall₂ (fun x y => pyEq x y = true) xs ys := by
  have hone := PyFloat.one_pos.ne'
  cases a <;> cases b <;> simp_all [pyEq, number?, pyEqs_iff]

/-- Numbers of one value are equal. -/
theorem pyEq_of_number {x : ℤ} (ha : a.number? = some x) (hb : b.number? = some x) : pyEq a b = true := by
  cases a <;> cases b <;> simp_all [pyEq, number?]

theorem pyEq_tuple (h : List.Forall₂ (fun x y => pyEq x y = true) xs ys) :
    pyEq (tuple xs) (tuple ys) = true := by
  rw [pyEq]
  exact pyEqs_iff.mpr h

theorem pyEq_refl (a : PyValue) : pyEq a a = true := by
  induction a using ind with
  | hleaf a ha =>
      cases a with
      | tuple xs => exact absurd rfl (ha xs)
      | _ => simp [pyEq, number?]
  | htuple xs ih =>
      apply pyEq_tuple
      rw [List.forall₂_same]
      exact ih

/-- What equals a tuple. -/
theorem pyEq_tuple_left (h : pyEq (tuple xs) b = true) :
    ∃ ys, b = tuple ys ∧ List.Forall₂ (fun x y => pyEq x y = true) xs ys := by
  rcases pyEq_cases h with ⟨n, hn, -⟩ | ⟨hx, -⟩ | ⟨s, hx, -⟩ | ⟨xs', ys, hx, hb, hys⟩
  · cases hn
  · cases hx
  · cases hx
  · obtain rfl : xs = xs' := by simpa using hx
    exact ⟨ys, hb, hys⟩

/-- Induction over two equal values. -/
theorem eqInduction {P : PyValue → PyValue → Prop}
    (hnumber : ∀ a b n, a.number? = some n → b.number? = some n → P a b) (hnone : P none none)
    (hstr : ∀ s, P (str s) (str s))
    (htuple : ∀ xs ys, List.Forall₂ (fun x y => pyEq x y = true ∧ P x y) xs ys → P (tuple xs) (tuple ys))
    (h : pyEq a b = true) : P a b := by
  induction a using ind generalizing b with
  | hleaf a ha =>
      rcases pyEq_cases h with ⟨n, hn, hn'⟩ | ⟨rfl, rfl⟩ | ⟨s, rfl, rfl⟩ | ⟨xs, ys, rfl, -, -⟩
      · exact hnumber a b n hn hn'
      · exact hnone
      · exact hstr s
      · exact absurd rfl (ha xs)
  | htuple xs ih =>
      obtain ⟨ys, rfl, hys⟩ := pyEq_tuple_left h
      apply htuple
      clear h
      induction hys with
      | nil => exact .nil
      | cons hxy _ ih' =>
          refine .cons ⟨hxy, ih _ List.mem_cons_self hxy⟩ (ih' fun x hx => ?_)
          exact ih x (List.mem_cons_of_mem _ hx)

theorem pyEq_symm (h : pyEq a b = true) : pyEq b a = true := by
  refine eqInduction (P := fun a b => pyEq b a = true) ?_ rfl (fun s => pyEq_refl _) ?_ h
  · intro a b n hn hn'
    exact pyEq_of_number hn' hn
  · intro xs ys hys
    apply pyEq_tuple
    exact (hys.imp fun x y hxy => hxy.2).flip

theorem pyEq_trans (h : pyEq a b = true) (h' : pyEq b c = true) : pyEq a c = true := by
  refine eqInduction (P := fun a b => ∀ c, pyEq b c = true → pyEq a c = true) ?_ ?_ ?_ ?_ h c h'
  · intro a b n hn hn' c h'
    rcases pyEq_cases h' with ⟨m, hm, hm'⟩ | ⟨rfl, -⟩ | ⟨s, rfl, -⟩ | ⟨xs, ys, rfl, -, -⟩
    · obtain rfl : n = m := Option.some.inj (hn'.symm.trans hm)
      exact pyEq_of_number hn hm'
    · cases hn'
    · cases hn'
    · cases hn'
  · exact fun c h' => h'
  · exact fun s c h' => h'
  · intro xs ys hys c h'
    obtain ⟨zs, rfl, hzs⟩ := pyEq_tuple_left h'
    apply pyEq_tuple
    clear h'
    induction hys generalizing zs with
    | nil => exact hzs
    | cons hxy _ ih =>
        cases hzs with
        | cons hyz hzs => exact .cons (hxy.2 _ hyz) (ih _ hzs)

/-- Values up to equality, as a dictionary sees them. -/
instance setoid : Setoid PyValue where
  r a b := pyEq a b = true
  iseqv := ⟨pyEq_refl, pyEq_symm, pyEq_trans⟩

instance decidableEquiv (a b : PyValue) : Decidable (a ≈ b) := inferInstanceAs (Decidable (pyEq a b = true))

/-! ### Representation -/

/-- The low `width` hexadecimal digits. -/
def hexDigits (width n : ℕ) : List Char :=
  (List.range width).reverse.map fun i => Nat.digitChar (n / 16 ^ i % 16)

/-- A code point inside a quoted string. -/
def escape (py : Interpreter) (quote : Char) (c : CodePoint) : List Char :=
  let n := c.val
  if n = quote.toNat ∨ n = 92 then ['\\', Char.ofNat n]
  else if n = 9 then ['\\', 't']
  else if n = 10 then ['\\', 'n']
  else if n = 13 then ['\\', 'r']
  else if n < 32 ∨ n = 127 then '\\' :: 'x' :: hexDigits 2 n
  else if n < 127 then [Char.ofNat n]
  else if n.isValidChar ∧ py.printable (Char.ofNat n) = true then [Char.ofNat n]
  else if n ≤ 0xff then '\\' :: 'x' :: hexDigits 2 n
  else if n ≤ 0xffff then '\\' :: 'u' :: hexDigits 4 n
  else '\\' :: 'U' :: hexDigits 8 n

/-- The quotes around a string: single ones, unless only those stand in it. -/
def quoteOf (s : List CodePoint) : Char :=
  if (39 : CodePoint) ∈ s ∧ (34 : CodePoint) ∉ s then '"' else '\''

/-- `str.__repr__` -/
def strRepr (py : Interpreter) (s : List CodePoint) : List Char :=
  quoteOf s :: (s.flatMap (escape py (quoteOf s)) ++ [quoteOf s])

/-- `int.__repr__` -/
def intRepr : ℤ → List Char
  | .ofNat n => Nat.toDigits 10 n
  | .negSucc n => '-' :: Nat.toDigits 10 (n + 1)

/-- The items of a tuple behind the first one. -/
def furtherItems : List (List Char) → List Char
  | [] => [')']
  | x :: xs => ',' :: ' ' :: (x ++ furtherItems xs)

/-- `tuple.__repr__`, from the texts of the items. A single item is followed by a comma. -/
def tupleRepr : List (List Char) → List Char
  | [] => ['(', ')']
  | [x] => '(' :: (x ++ [',', ')'])
  | x :: y :: ys => '(' :: (x ++ furtherItems (y :: ys))

mutual

/-- `repr(a)` -/
def repr (py : Interpreter) : PyValue → List Char
  | none => ['N', 'o', 'n', 'e']
  | bool true => ['T', 'r', 'u', 'e']
  | bool false => ['F', 'a', 'l', 's', 'e']
  | int n => intRepr n
  | float x => x.repr
  | str s => strRepr py s
  | tuple xs => tupleRepr (reprs py xs)

/-- The texts of the items of a tuple. -/
def reprs (py : Interpreter) : List PyValue → List (List Char)
  | [] => []
  | x :: xs => repr py x :: reprs py xs

end

mutual

/-- `repr(a)` does not raise. -/
def prints (py : Interpreter) : PyValue → Bool
  | int n => py.writes n
  | tuple xs => printsAll py xs
  | _ => true

/-- No item of a tuple makes `repr` raise. -/
def printsAll (py : Interpreter) : List PyValue → Bool
  | [] => true
  | x :: xs => prints py x && printsAll py xs

end

mutual

/-- Two values have values of one type at every place, and no zeros of different signs. -/
def spelledAlike : PyValue → PyValue → Bool
  | none, none => true
  | bool _, bool _ => true
  | int _, int _ => true
  | float x, float y => decide (x.mantissa ≠ 0 ∨ x.negative = y.negative)
  | str _, str _ => true
  | tuple xs, tuple ys => allSpelledAlike xs ys
  | _, _ => false

/-- The items of two tuples are spelled alike. -/
def allSpelledAlike : List PyValue → List PyValue → Bool
  | [], [] => true
  | x :: xs, y :: ys => spelledAlike x y && allSpelledAlike xs ys
  | _, _ => false

end

/-! ### Characters of a representation -/

variable {py : Interpreter}

theorem forall_reprs {P : List Char → Prop} (h : ∀ x ∈ xs, P (repr py x)) : ∀ t ∈ reprs py xs, P t := by
  induction xs with
  | nil => simp [reprs]
  | cons x xs ih =>
      rw [reprs, List.forall_mem_cons]
      exact ⟨h x List.mem_cons_self, ih fun y hy => h y (List.mem_cons_of_mem _ hy)⟩

theorem allSpelledAlike_iff :
    allSpelledAlike xs ys = true ↔ List.Forall₂ (fun x y => spelledAlike x y = true) xs ys := by
  induction xs generalizing ys with
  | nil => cases ys <;> simp [allSpelledAlike]
  | cons x xs ih => cases ys <;> simp [allSpelledAlike, ih]

/-- A character that `repr` of a string copies, or puts a backslash in front of. -/
def Plain (py : Interpreter) (c : Char) : Prop :=
  (32 ≤ c.toNat ∧ c.toNat < 127) ∨ (127 < c.toNat ∧ py.printable c = true)

theorem plain_digitChar {n : ℕ} (h : n < 16) : Plain py (Nat.digitChar n) := by
  left
  interval_cases n <;> decide

theorem plain_hexDigits {width n : ℕ} {c : Char} (h : c ∈ hexDigits width n) : Plain py c := by
  obtain ⟨i, -, rfl⟩ := List.mem_map.mp h
  exact plain_digitChar (Nat.mod_lt _ (by decide))

theorem toNat_ofNat {n : ℕ} (h : n.isValidChar) : (Char.ofNat n).toNat = n := by
  rw [Char.ofNat, dif_pos h]
  rfl

/-- What an escape writes needs no further escape than a backslash. -/
theorem plain_escape {quote c : Char} {n : CodePoint} (hquote : quote = '\'' ∨ quote = '"')
    (hc : c ∈ escape py quote n) : Plain py c := by
  have hascii : ∀ m : ℕ, 32 ≤ m → m < 127 → Plain py (Char.ofNat m) := by
    intro m hle hlt
    left
    rw [toNat_ofNat (.inl (by omega))]
    exact ⟨hle, hlt⟩
  have hslash : Plain py '\\' := .inl (by decide)
  have hpair : ∀ letter : Char, Plain py letter → c ∈ ['\\', letter] → Plain py c := by
    intro letter hletter hmem
    rcases List.mem_cons.mp hmem with rfl | hmem
    · exact hslash
    · rw [List.mem_singleton.mp hmem]
      exact hletter
  have hhex : ∀ (letter : Char) (width m : ℕ), Plain py letter →
      c ∈ '\\' :: letter :: hexDigits width m → Plain py c := by
    intro letter width m hletter hmem
    rcases List.mem_cons.mp hmem with rfl | hmem
    · exact hslash
    rcases List.mem_cons.mp hmem with rfl | hmem
    · exact hletter
    · exact plain_hexDigits hmem
  unfold escape at hc
  -- one branch of `escape` after the other
  by_cases h₁ : n.val = quote.toNat ∨ n.val = 92
  · rw [if_pos h₁] at hc
    have hn : Plain py (Char.ofNat n.val) := by
      rcases h₁ with h | h
      · rw [h]
        rcases hquote with rfl | rfl <;> exact hascii _ (by decide) (by decide)
      · rw [h]
        exact hascii _ (by decide) (by decide)
    exact hpair _ hn hc
  rw [if_neg h₁] at hc
  by_cases h₂ : n.val = 9
  · rw [if_pos h₂] at hc
    exact hpair _ (.inl (by decide)) hc
  rw [if_neg h₂] at hc
  by_cases h₃ : n.val = 10
  · rw [if_pos h₃] at hc
    exact hpair _ (.inl (by decide)) hc
  rw [if_neg h₃] at hc
  by_cases h₄ : n.val = 13
  · rw [if_pos h₄] at hc
    exact hpair _ (.inl (by decide)) hc
  rw [if_neg h₄] at hc
  by_cases h₅ : n.val < 32 ∨ n.val = 127
  · rw [if_pos h₅] at hc
    exact hhex _ _ _ (.inl (by decide)) hc
  rw [if_neg h₅] at hc
  by_cases h₆ : n.val < 127
  · rw [if_pos h₆, List.mem_singleton] at hc
    rw [hc]
    exact hascii _ (by omega) h₆
  rw [if_neg h₆] at hc
  by_cases h₇ : n.val.isValidChar ∧ py.printable (Char.ofNat n.val) = true
  · rw [if_pos h₇, List.mem_singleton] at hc
    rw [hc]
    right
    rw [toNat_ofNat h₇.1]
    exact ⟨by omega, h₇.2⟩
  rw [if_neg h₇] at hc
  split_ifs at hc
  · exact hhex _ _ _ (.inl (by decide)) hc
  · exact hhex _ _ _ (.inl (by decide)) hc
  · exact hhex _ _ _ (.inl (by decide)) hc

theorem quoteOf_cases (s : List CodePoint) : quoteOf s = '\'' ∨ quoteOf s = '"' := by
  unfold quoteOf
  split_ifs
  · exact .inr rfl
  · exact .inl rfl

theorem plain_strRepr {s : List CodePoint} {c : Char} (hc : c ∈ strRepr py s) : Plain py c := by
  have hquote : Plain py (quoteOf s) := by
    rcases quoteOf_cases s with h | h <;> rw [h] <;> exact .inl (by decide)
  rw [strRepr, List.mem_cons, List.mem_append, List.mem_singleton, List.mem_flatMap] at hc
  rcases hc with rfl | ⟨n, -, hc⟩ | rfl
  · exact hquote
  · exact plain_escape (quoteOf_cases s) hc
  · exact hquote

theorem digit_or_sign_of_mem_intRepr {n : ℤ} {c : Char} (hc : c ∈ intRepr n) : c.isDigit = true ∨ c = '-' := by
  cases n with
  | ofNat n => exact .inl (Nat.isDigit_of_mem_toDigits (by decide) (by decide) hc)
  | negSucc n =>
      rcases List.mem_cons.mp hc with rfl | hc
      · exact .inr rfl
      · exact .inl (Nat.isDigit_of_mem_toDigits (by decide) (by decide) hc)

theorem plain_of_isDigit {c : Char} (h : c.isDigit = true) : Plain py c := by
  have hrange : 48 ≤ c.toNat ∧ c.toNat ≤ 57 := Char.isDigit_iff_toNat.mp h
  left
  omega

theorem plain_furtherItems {ts : List (List Char)} (h : ∀ t ∈ ts, ∀ c ∈ t, Plain py c) :
    ∀ c ∈ furtherItems ts, Plain py c := by
  induction ts with
  | nil => simp [furtherItems, Plain]
  | cons t ts ih =>
      rw [List.forall_mem_cons] at h
      intro c hc
      rw [furtherItems, List.mem_cons, List.mem_cons, List.mem_append] at hc
      rcases hc with rfl | rfl | hc | hc
      · exact .inl (by decide)
      · exact .inl (by decide)
      · exact h.1 c hc
      · exact ih h.2 c hc

theorem plain_tupleRepr {ts : List (List Char)} (h : ∀ t ∈ ts, ∀ c ∈ t, Plain py c) :
    ∀ c ∈ tupleRepr ts, Plain py c := by
  intro c hc
  have hopen : Plain py '(' := .inl (by decide)
  match ts, h with
  | [], _ =>
      simp only [tupleRepr, List.mem_cons, List.not_mem_nil, or_false] at hc
      rcases hc with rfl | rfl <;> exact .inl (by decide)
  | [x], h =>
      simp only [tupleRepr, List.mem_cons, List.mem_append, List.not_mem_nil, or_false] at hc
      rcases hc with rfl | hc | rfl | rfl
      · exact hopen
      · exact h x List.mem_cons_self c hc
      · exact .inl (by decide)
      · exact .inl (by decide)
  | x :: y :: ys, h =>
      rw [List.forall_mem_cons] at h
      rw [tupleRepr, List.mem_cons, List.mem_append] at hc
      rcases hc with rfl | hc | hc
      · exact hopen
      · exact h.1 c hc
      · exact plain_furtherItems h.2 c hc

/-- **A representation is plain text.** -/
theorem plain_repr (a : PyValue) : ∀ c ∈ repr py a, Plain py c := by
  induction a using ind with
  | hleaf a ha =>
      intro c hc
      cases a with
      | none =>
          simp only [repr, List.mem_cons, List.not_mem_nil, or_false] at hc
          rcases hc with rfl | rfl | rfl | rfl <;> exact .inl (by decide)
      | bool b =>
          cases b <;> simp only [repr, List.mem_cons, List.not_mem_nil, or_false] at hc
          · rcases hc with rfl | rfl | rfl | rfl | rfl <;> exact .inl (by decide)
          · rcases hc with rfl | rfl | rfl | rfl <;> exact .inl (by decide)
      | int n =>
          rw [repr] at hc
          rcases digit_or_sign_of_mem_intRepr hc with h | rfl
          · exact plain_of_isDigit h
          · exact .inl (by decide)
      | float x =>
          rw [repr] at hc
          rcases (PyFloat.repr_spec x).1 c hc with h | rfl | rfl | rfl | rfl
          · exact plain_of_isDigit h
          all_goals exact .inl (by decide)
      | str s =>
          rw [repr] at hc
          exact plain_strRepr hc
      | tuple xs => exact absurd rfl (ha xs)
  | htuple xs ih =>
      rw [repr]
      exact plain_tupleRepr (forall_reprs ih)

/-! ### When equal values are written alike -/

/-- What can stand behind an item of a tuple. -/
def Delimited (r : List Char) : Prop := r = [] ∨ (∃ r', r = ',' :: r') ∨ ∃ r', r = ')' :: r'

/-- A text without commas and closing brackets ends where the delimiter stands. -/
theorem append_inj_of_delimited {u v r r' : List Char} (hu : ∀ c ∈ u, c ≠ ',' ∧ c ≠ ')')
    (hv : ∀ c ∈ v, c ≠ ',' ∧ c ≠ ')') (hr : Delimited r) (hr' : Delimited r')
    (h : u ++ r = v ++ r') : u = v ∧ r = r' := by
  have hprefix : ∀ w q : List Char, (∀ c ∈ w, c ≠ ',' ∧ c ≠ ')') → Delimited q →
      (w ++ q).takeWhile (fun c => decide (c ≠ ',' ∧ c ≠ ')')) = w := by
    intro w q hw hq
    rw [List.takeWhile_append_of_pos fun c hc => by simpa using hw c hc]
    rcases hq with rfl | ⟨q', rfl⟩ | ⟨q', rfl⟩ <;> simp
  have huv : u = v := by
    rw [← hprefix u r hu hr, h, hprefix v r' hv hr']
  subst huv
  exact ⟨rfl, List.append_cancel_left h⟩

/-- A character of a number. -/
theorem ne_delimiter_of_isFloatChar {c : Char} (h : PyFloat.IsFloatChar c) : c ≠ ',' ∧ c ≠ ')' := by
  constructor <;> rintro rfl <;> revert h <;> decide

/-- A number is written without commas and closing brackets. -/
theorem ne_delimiter_of_number {n : ℤ} (h : a.number? = some n) : ∀ c ∈ repr py a, c ≠ ',' ∧ c ≠ ')' := by
  intro c hc
  cases a with
  | bool b =>
      have hall : (repr py (bool b)).all (fun c => decide (c ≠ ',' ∧ c ≠ ')')) = true := by
        cases b <;> rw [repr] <;> decide
      exact of_decide_eq_true (List.all_eq_true.mp hall c hc)
  | int n =>
      rw [repr] at hc
      rcases digit_or_sign_of_mem_intRepr hc with h | rfl
      · exact ne_delimiter_of_isFloatChar (.inl h)
      · decide
  | float x =>
      rw [repr] at hc
      exact ne_delimiter_of_isFloatChar ((PyFloat.repr_spec x).1 c hc)
  | _ => cases h

/-- No number other than a boolean is written with letters other than `e`. -/
theorem repr_bool_ne {b : Bool} {t : List Char} (ht : ∀ c ∈ t, PyFloat.IsFloatChar c) :
    repr py (bool b) ≠ t := by
  rintro rfl
  cases b with
  | true => exact absurd (ht 'T' List.mem_cons_self) (by decide)
  | false => exact absurd (ht 'F' List.mem_cons_self) (by decide)

/-- An integer is not written like a float. -/
theorem intRepr_ne_repr (n : ℤ) (x : PyFloat) : intRepr n ≠ x.repr := by
  intro h
  rcases (PyFloat.repr_spec x).2 with hmem | hmem
  · rw [← h] at hmem
    exact absurd (digit_or_sign_of_mem_intRepr hmem) (by decide)
  · rw [← h] at hmem
    exact absurd (digit_or_sign_of_mem_intRepr hmem) (by decide)

theorem isFloatChar_intRepr (n : ℤ) : ∀ c ∈ intRepr n, PyFloat.IsFloatChar c := by
  intro c hc
  rcases digit_or_sign_of_mem_intRepr hc with h | rfl
  · exact .inl h
  · exact .inr (.inr (.inr (.inr rfl)))

/-- Numbers of one value are written alike when they have one type. -/
theorem repr_number_eq_iff {n : ℤ} (ha : a.number? = some n) (hb : b.number? = some n) :
    repr py a = repr py b ↔ spelledAlike a b = true := by
  have hval : a.number? = b.number? := ha.trans hb.symm
  have hone := PyFloat.one_pos
  match a, b, ha, hb with
  | bool x, bool y, _, _ =>
      have hxy : x = y := by
        cases x <;> cases y <;> simp [number?] at hval ⊢ <;> omega
      subst hxy
      exact ⟨fun _ => rfl, fun _ => rfl⟩
  | bool x, int y, _, _ => exact iff_of_false (repr_bool_ne (isFloatChar_intRepr y)) (by simp [spelledAlike])
  | bool x, float y, _, _ =>
      exact iff_of_false (repr_bool_ne (PyFloat.repr_spec y).1) (by simp [spelledAlike])
  | int x, bool y, _, _ =>
      exact iff_of_false (Ne.symm (repr_bool_ne (isFloatChar_intRepr x))) (by simp [spelledAlike])
  | int x, int y, _, _ =>
      have hxy : x = y := Int.eq_of_mul_eq_mul_right hone.ne' (Option.some.inj hval)
      subst hxy
      exact ⟨fun _ => rfl, fun _ => rfl⟩
  | int x, float y, _, _ => exact iff_of_false (intRepr_ne_repr x y) (by simp [spelledAlike])
  | float x, bool y, _, _ =>
      exact iff_of_false (Ne.symm (repr_bool_ne (PyFloat.repr_spec x).1)) (by simp [spelledAlike])
  | float x, int y, _, _ => exact iff_of_false (Ne.symm (intRepr_ne_repr y x)) (by simp [spelledAlike])
  | float x, float y, _, _ =>
      rw [repr, repr, spelledAlike, decide_eq_true_iff]
      rcases PyFloat.eq_or_zero_of_scaled_eq (Option.some.inj hval) with rfl | ⟨hx, hy⟩
      · exact iff_of_true rfl (.inr rfl)
      · rw [PyFloat.repr_zero_eq_iff hx hy]
        simp [hx]

/-- Two texts in front of delimiters agree only if `P` holds. -/
def Separates (P : Prop) (u v : List Char) : Prop :=
  ∀ r r', Delimited r → Delimited r' → u ++ r = v ++ r' → P ∧ r = r'

/-- The further items of two tuples. -/
theorem furtherItems_append_inj
    (h : List.Forall₂ (fun x y => Separates (spelledAlike x y = true) (repr py x) (repr py y)) xs ys)
    {r r' : List Char} (heq : furtherItems (reprs py xs) ++ r = furtherItems (reprs py ys) ++ r') :
    List.Forall₂ (fun x y => spelledAlike x y = true) xs ys ∧ r = r' := by
  have hdelimited : ∀ (ts : List (List Char)) (q : List Char), Delimited (furtherItems ts ++ q) := by
    intro ts q
    cases ts with
    | nil => exact .inr (.inr ⟨_, rfl⟩)
    | cons t ts => exact .inr (.inl ⟨_, rfl⟩)
  induction h with
  | nil => exact ⟨.nil, List.append_cancel_left heq⟩
  | @cons x y xs ys hxy _ ih =>
      have hitem : repr py x ++ (furtherItems (reprs py xs) ++ r) =
          repr py y ++ (furtherItems (reprs py ys) ++ r') := by
        simpa [reprs, furtherItems] using heq
      obtain ⟨halike, hrest⟩ := hxy _ _ (hdelimited _ _) (hdelimited _ _) hitem
      obtain ⟨hall, hr⟩ := ih hrest
      exact ⟨.cons halike hall, hr⟩

/-- Two tuples. -/
theorem tupleRepr_append_inj
    (h : List.Forall₂ (fun x y => Separates (spelledAlike x y = true) (repr py x) (repr py y)) xs ys)
    {r r' : List Char} (heq : tupleRepr (reprs py xs) ++ r = tupleRepr (reprs py ys) ++ r') :
    List.Forall₂ (fun x y => spelledAlike x y = true) xs ys ∧ r = r' := by
  cases h with
  | nil => exact ⟨.nil, List.append_cancel_left heq⟩
  | @cons x y xs ys hxy hrest =>
      cases hrest with
      | nil =>
          have hitem : repr py x ++ (',' :: ')' :: r) = repr py y ++ (',' :: ')' :: r') := by
            simpa [reprs, tupleRepr] using heq
          obtain ⟨halike, hr⟩ := hxy _ _ (.inr (.inl ⟨_, rfl⟩)) (.inr (.inl ⟨_, rfl⟩)) hitem
          exact ⟨.cons halike .nil, by simpa using hr⟩
      | @cons x' y' xs ys hxy' hrest =>
          have hitem : repr py x ++ (furtherItems (reprs py (x' :: xs)) ++ r) =
              repr py y ++ (furtherItems (reprs py (y' :: ys)) ++ r') := by
            simpa [reprs, tupleRepr] using heq
          obtain ⟨halike, hr⟩ := hxy _ _ (.inr (.inl ⟨_, rfl⟩)) (.inr (.inl ⟨_, rfl⟩)) hitem
          obtain ⟨hall, hr⟩ := furtherItems_append_inj (.cons hxy' hrest) hr
          exact ⟨.cons halike hall, hr⟩

/-- Equal values that are written alike are spelled alike, whatever follows. -/
theorem separates_repr (h : pyEq a b = true) :
    Separates (spelledAlike a b = true) (repr py a) (repr py b) := by
  refine eqInduction (P := fun a b => Separates (spelledAlike a b = true) (repr py a) (repr py b))
    ?_ ?_ ?_ ?_ h
  · intro a b n hn hn' r r' hr hr' heq
    obtain ⟨htext, hrest⟩ := append_inj_of_delimited (ne_delimiter_of_number hn)
      (ne_delimiter_of_number hn') hr hr' heq
    exact ⟨(repr_number_eq_iff hn hn').mp htext, hrest⟩
  · exact fun r r' _ _ heq => ⟨rfl, List.append_cancel_left heq⟩
  · exact fun s r r' _ _ heq => ⟨rfl, List.append_cancel_left heq⟩
  · intro xs ys hys r r' _ _ heq
    rw [repr, repr] at heq
    obtain ⟨hall, hr⟩ := tupleRepr_append_inj (hys.imp fun x y hxy => hxy.2) heq
    exact ⟨by rw [spelledAlike]; exact allSpelledAlike_iff.mpr hall, hr⟩

/-- Equal values that are spelled alike are written alike. -/
theorem repr_eq_of_spelledAlike (h : pyEq a b = true) (halike : spelledAlike a b = true) :
    repr py a = repr py b := by
  refine eqInduction (P := fun a b => spelledAlike a b = true → repr py a = repr py b) ?_ ?_ ?_ ?_ h halike
  · exact fun a b n hn hn' halike => (repr_number_eq_iff hn hn').mpr halike
  · exact fun _ => rfl
  · exact fun s _ => rfl
  · intro xs ys hys halike
    rw [spelledAlike, allSpelledAlike_iff] at halike
    have htexts : reprs py xs = reprs py ys := by
      induction hys with
      | nil => rfl
      | cons hxy _ ih =>
          cases halike with
          | cons hxy' hrest => rw [reprs, reprs, hxy.2 hxy', ih hrest]
    rw [repr, repr, htexts]

/-- **Equal values are written alike exactly when they are spelled alike.** -/
theorem repr_eq_iff (h : pyEq a b = true) : repr py a = repr py b ↔ spelledAlike a b = true := by
  refine ⟨fun heq => ?_, repr_eq_of_spelledAlike h⟩
  have happend : repr py a ++ [] = repr py b ++ [] := by rw [heq]
  exact (separates_repr h _ _ (.inl rfl) (.inl rfl) happend).1

/-! ### Values that print -/

/-- The limit on the digits of an integer lies beyond the floats. -/
theorem writes_of_lt {n : ℤ} (h : n.natAbs < 2 ^ 1024) : py.writes n = true := by
  rw [Interpreter.writes, decide_eq_true_iff]
  rcases py.maxStrDigits_ok with hzero | hle
  · exact .inl hzero
  · right
    have hlength : ∀ m k : ℕ, m = 2 * k → 0 < k → n.natAbs < 2 ^ m → (Nat.toDigits 10 n.natAbs).length ≤ k := by
      intro m k hm hk hlt
      have hpow : (2 : ℕ) ^ m ≤ 10 ^ k := by
        rw [hm, pow_mul]
        exact Nat.pow_le_pow_left (by decide) k
      exact (Nat.length_toDigits_le_iff (by decide) hk).mpr (hlt.trans_le hpow)
    have hdigits := hlength 1024 512 rfl (by decide) h
    omega

/-- An integer with the value of a boolean or a float prints. -/
theorem writes_of_number {n : ℤ} (hb : b.number? = some (n * PyFloat.one)) (hne : ∀ m, b ≠ int m) :
    py.writes n = true := by
  apply writes_of_lt
  cases b with
  | bool x =>
      have hn : n = if x then 1 else 0 := by
        apply Int.eq_of_mul_eq_mul_right PyFloat.one_pos.ne'
        rw [← Option.some.inj hb]
        cases x <;> simp
      rw [hn]
      cases x <;> decide +kernel
  | int m => exact absurd rfl (hne m)
  | float x => exact PyFloat.natAbs_lt_of_mul_one_eq (Option.some.inj hb).symm
  | _ => cases hb

/-- `repr` raises for both of two equal values or for none. -/
theorem prints_eq (h : pyEq a b = true) : prints py a = prints py b := by
  refine eqInduction (P := fun a b => prints py a = prints py b) ?_ rfl (fun s => rfl) ?_ h
  · have hwrites : ∀ (n : ℤ) b, b.number? = some (n * PyFloat.one) → py.writes n = prints py b := by
      intro n b hb
      by_cases hint : ∃ m, b = int m
      · obtain ⟨m, rfl⟩ := hint
        rw [Int.eq_of_mul_eq_mul_right PyFloat.one_pos.ne' (Option.some.inj hb), prints]
      · rw [writes_of_number hb fun m hm => hint ⟨m, hm⟩]
        cases b with
        | int m => exact absurd ⟨m, rfl⟩ hint
        | tuple xs => cases hb
        | _ => rfl
    intro a b n hn hn'
    cases a with
    | int m =>
        rw [prints]
        exact hwrites m b (hn'.trans hn.symm)
    | none => cases hn
    | str s => cases hn
    | tuple xs => cases hn
    | _ =>
        cases b with
        | int m =>
            rw [prints]
            exact (hwrites m _ (hn.trans hn'.symm)).symm
        | none => cases hn'
        | str s => cases hn'
        | tuple xs => cases hn'
        | _ => rfl
  · intro xs ys hys
    rw [prints, prints]
    induction hys with
    | nil => rfl
    | cons hxy _ ih => rw [printsAll, printsAll, hxy.2, ih]

/-! ### Quoting plain text -/

theorem toNat_lt (c : Char) : c.toNat < 0x110000 := by
  have hvalid : c.toNat.isValidChar := c.valid
  rcases hvalid with h | h <;> omega

/-- A character as a code point. -/
def codePoint (c : Char) : CodePoint := ⟨c.toNat, toNat_lt c⟩

/-- Plain text needs backslashes only. -/
theorem escape_codePoint {quote c : Char} (hc : Plain py c) :
    escape py quote (codePoint c) = if c = quote ∨ c = '\\' then ['\\', c] else [c] := by
  have hslash : c.toNat = 92 ↔ c = '\\' := Char.toNat_inj (d := '\\')
  have hvalid : c.toNat.isValidChar := c.valid
  simp only [escape, codePoint, Char.ofNat_toNat, Char.toNat_inj, hslash]
  by_cases h₁ : c = quote ∨ c = '\\'
  · rw [if_pos h₁, if_pos h₁]
  rw [if_neg h₁, if_neg h₁]
  -- plain text has none of the characters that are named or written in hexadecimal
  have hlow : ¬ (c.toNat < 32 ∨ c.toNat = 127) := by
    rcases hc with hc | hc <;> omega
  rw [if_neg (by omega), if_neg (by omega), if_neg (by omega), if_neg hlow]
  by_cases h₂ : c.toNat < 127
  · rw [if_pos h₂]
  · rw [if_neg h₂, if_pos ⟨hvalid, (hc.resolve_left fun h => h₂ h.2).2⟩]

/-- Quoting plain text loses nothing. -/
theorem flatMap_escape_inj {quote : Char} {u v : List Char} (hu : ∀ c ∈ u, Plain py c)
    (hv : ∀ c ∈ v, Plain py c)
    (h : (u.map codePoint).flatMap (escape py quote) = (v.map codePoint).flatMap (escape py quote)) :
    u = v := by
  induction u generalizing v with
  | nil =>
      cases v with
      | nil => rfl
      | cons d v =>
          rw [List.forall_mem_cons] at hv
          simp only [List.map_nil, List.flatMap_nil, List.map_cons, List.flatMap_cons,
            escape_codePoint hv.1] at h
          split_ifs at h <;> cases h
  | cons c u ih =>
      rw [List.forall_mem_cons] at hu
      cases v with
      | nil =>
          simp only [List.map_nil, List.flatMap_nil, List.map_cons, List.flatMap_cons,
            escape_codePoint hu.1] at h
          split_ifs at h <;> cases h
      | cons d v =>
          rw [List.forall_mem_cons] at hv
          simp only [List.map_cons, List.flatMap_cons, escape_codePoint hu.1, escape_codePoint hv.1] at h
          split_ifs at h with hc hd hd
          · obtain ⟨-, rfl, hrest⟩ : True ∧ c = d ∧ _ := by simpa using h
            rw [ih hu.2 hv.2 hrest]
          · have hd' : d = '\\' := by
              simp only [List.cons_append, List.nil_append, List.cons.injEq] at h
              exact h.1.symm
            exact absurd (.inr hd') hd
          · have hc' : c = '\\' := by
              simp only [List.cons_append, List.nil_append, List.cons.injEq] at h
              exact h.1
            exact absurd (.inr hc') hc
          · obtain ⟨rfl, hrest⟩ : c = d ∧ _ := by simpa using h
            rw [ih hu.2 hv.2 hrest]

/-- `repr` of plain text determines it. -/
theorem strRepr_inj {u v : List Char} (hu : ∀ c ∈ u, Plain py c) (hv : ∀ c ∈ v, Plain py c)
    (h : strRepr py (u.map codePoint) = strRepr py (v.map codePoint)) : u = v := by
  obtain ⟨hquote, hrest⟩ := List.cons.inj h
  rw [hquote] at hrest
  exact flatMap_escape_inj hu hv (List.append_cancel_right hrest)

end PyValue

end CacheLab
