import CacheLab.Core.Config
import CacheLab.Lib.PyValue

/-!
# Stable hashing of keys

`stable_hash` feeds a digest with the text of a canonical pair: a key that is a whole number is paired
with the tag `int`, any other key is replaced by its `repr`. Both the `repr` of the key and that of the
pair can refuse an integer with too many digits, so the functions here are partial.

Two keys that the dictionaries of a shard take for one, and that are routed to one shard, are one key of
the cache: `cacheKey` is the class of a key under `==` together with its shard.
-/

namespace CacheLab

variable (py : Interpreter) (digest : ByteArray → ℕ)

namespace PyValue

/-- The tag of whole numbers. -/
def intTag : PyValue := str [105, 110, 116]

/-- The tag of everything else. -/
def reprTag : PyValue := str [114, 101, 112, 114]

/-- A canonical pair whose second half is a text. -/
def tagged (text : List Char) : PyValue := tuple [reprTag, str (text.map codePoint)]

/-- Source: `concurrency/hashing.py` `_canonical` -/
def canonical : PyValue → Option PyValue
  | bool b => some (tuple [intTag, int (if b then 1 else 0)])
  | int n => some (tuple [intTag, int n])
  | float x =>
      if x.isInteger then some (tuple [intTag, int x.toInt])
      else some (tagged (repr py (float x)))
  | key => if prints py key then some (tagged (repr py key)) else .none

/-- The bytes that are hashed. A `repr` holds no surrogate, so the error handler of the encoder has
nothing to replace.
Source: `concurrency/hashing.py` `stable_hash` -/
def encoded (key : PyValue) : Option ByteArray :=
  (canonical py key).bind fun pair =>
    if prints py pair then some (String.ofList (repr py pair)).toByteArray else .none

/-- The digest is `blake2b` with eight bytes, read as a number.
Source: `concurrency/hashing.py` `stable_hash` -/
def stableHash (key : PyValue) : Option ℕ := (encoded py key).map digest

/-- The shard of a key.
Source: `core/cache.py` `Cache._shard_for` -/
def shardIndex (shardCount : ℕ) (key : PyValue) : Option ℕ :=
  (stableHash py digest key).map fun h => h % shardCount

/-- The keys of a cache: `None`, or a class of equal values and the shard these go to. -/
abbrev Routed : Type := Quotient setoid × ℕ

/-- The class of a key, `None` apart. -/
def keyClass : PyValue → Key (Quotient setoid)
  | none => .none
  | key => some ⟦key⟧

/-- The key of the cache under which a value is stored. -/
def cacheKey (shardCount : ℕ) (key : PyValue) : Option (Key Routed) :=
  (shardIndex py digest shardCount key).map fun i => (keyClass key).map fun c => (c, i)

/-- The hash of a key of the cache. -/
def routedHash : Key Routed → ℕ
  | .none => (stableHash py digest none).getD 0
  | some key => key.2

/-! ### The bytes of equal keys -/

variable {py} {digest} {a b : PyValue}

/-- Whole numbers of one value have one canonical pair. -/
theorem canonical_of_dvd {n : ℤ} (h : a.number? = some n) (hdvd : PyFloat.one ∣ n) :
    canonical py a = some (tuple [intTag, int (n / PyFloat.one)]) := by
  have hone := PyFloat.one_pos.ne'
  cases a with
  | bool x =>
      obtain rfl := Option.some.inj h
      cases x <;> simp [canonical, hone]
  | int m =>
      obtain rfl := Option.some.inj h
      rw [canonical, Int.mul_ediv_cancel m hone]
  | float x =>
      obtain rfl := Option.some.inj h
      rw [canonical, if_pos (by simpa [PyFloat.isInteger] using hdvd), PyFloat.toInt]
  | _ => cases h

/-- Only floats are not whole. -/
theorem eq_float_of_not_dvd {n : ℤ} (h : a.number? = some n) (hdvd : ¬ PyFloat.one ∣ n) :
    ∃ x : PyFloat, a = float x ∧ x.scaled = n := by
  cases a with
  | bool x =>
      obtain rfl := Option.some.inj h
      cases x <;> simp at hdvd
  | int m =>
      obtain rfl := Option.some.inj h
      exact absurd (Dvd.intro_left m rfl) hdvd
  | float x => exact ⟨x, rfl, Option.some.inj h⟩
  | _ => cases h

/-- Numbers of one value have one canonical pair. -/
theorem canonical_eq_of_number {n : ℤ} (ha : a.number? = some n) (hb : b.number? = some n) :
    canonical py a = canonical py b := by
  by_cases hdvd : PyFloat.one ∣ n
  · rw [canonical_of_dvd ha hdvd, canonical_of_dvd hb hdvd]
  · obtain ⟨x, rfl, hx⟩ := eq_float_of_not_dvd ha hdvd
    obtain ⟨y, rfl, hy⟩ := eq_float_of_not_dvd hb hdvd
    rcases PyFloat.eq_or_zero_of_scaled_eq (hx.trans hy.symm) with rfl | ⟨hzero, -⟩
    · rfl
    · refine absurd ?_ hdvd
      rw [← hx, PyFloat.scaled, PyFloat.magnitude, hzero]
      simp

/-- A key that is no number is replaced by its text. -/
theorem canonical_of_not_number (h : a.number? = .none) :
    canonical py a = if prints py a then some (tagged (repr py a)) else .none := by
  cases a with
  | none => rfl
  | str s => rfl
  | tuple xs => rfl
  | _ => cases h

theorem prints_tagged (text : List Char) : prints py (tagged text) = true := rfl

/-- The text of a tagged text determines it. -/
theorem repr_tagged_inj {u v : List Char} (hu : ∀ c ∈ u, Plain py c) (hv : ∀ c ∈ v, Plain py c)
    (h : repr py (tagged u) = repr py (tagged v)) : u = v := by
  simp only [tagged, repr, reprs, tupleRepr, furtherItems, List.cons.injEq, true_and,
    List.append_cancel_left_eq, List.append_cancel_right_eq] at h
  exact strRepr_inj hu hv h

/-- The bytes exist when the key prints. -/
theorem isSome_encoded (a : PyValue) : (encoded py a).isSome = prints py a := by
  have hpair : ∀ n : ℤ, prints py (tuple [intTag, int n]) = py.writes n := by
    intro n
    simp [prints, printsAll, intTag]
  rcases hnumber : a.number? with _ | n
  · rw [encoded, canonical_of_not_number hnumber]
    cases prints py a <;> simp [prints_tagged]
  · by_cases hdvd : PyFloat.one ∣ n
    · have heq : pyEq (int (n / PyFloat.one)) a = true := by
        refine pyEq_of_number ?_ hnumber
        rw [number?, Int.ediv_mul_cancel hdvd]
      rw [encoded, canonical_of_dvd hnumber hdvd, ← prints_eq heq, prints, Option.bind_some, hpair]
      cases py.writes (n / PyFloat.one) <;> simp
    · obtain ⟨x, rfl, hx⟩ := eq_float_of_not_dvd hnumber hdvd
      have hwhole : x.isInteger = false := by simpa [PyFloat.isInteger, hx] using hdvd
      simp [encoded, canonical, hwhole, prints_tagged, prints]

/-- **Equal keys are hashed alike exactly when they are numbers or spelled alike**, and print. -/
theorem encoded_eq_iff (h : pyEq a b = true) :
    (∃ bytes, encoded py a = some bytes ∧ encoded py b = some bytes) ↔
      prints py a = true ∧ (a.number?.isSome = true ∨ spelledAlike a b = true) := by
  have hsome : prints py a = true ↔ ∃ bytes, encoded py a = some bytes := by
    rw [← isSome_encoded, Option.isSome_iff_exists]
  rcases pyEq_cases h with ⟨n, hn, hn'⟩ | hrest
  · have heq : encoded py a = encoded py b := by
      rw [encoded, encoded, canonical_eq_of_number hn hn']
    rw [← heq, hn, hsome]
    simp
  · have hnumber : a.number? = .none ∧ b.number? = .none := by
      rcases hrest with ⟨rfl, rfl⟩ | ⟨s, rfl, rfl⟩ | ⟨xs, ys, rfl, rfl, -⟩ <;> exact ⟨rfl, rfl⟩
    have hprints : prints py a = prints py b := prints_eq h
    have hwritten : repr py a = repr py b ↔ spelledAlike a b = true := repr_eq_iff h
    rw [hnumber.1, ← hwritten]
    constructor
    · rintro ⟨bytes, ha, hb⟩
      have hpa : prints py a = true := hsome.mpr ⟨bytes, ha⟩
      refine ⟨hpa, .inr ?_⟩
      rw [encoded, canonical_of_not_number hnumber.1, if_pos hpa, Option.bind_some,
        if_pos (prints_tagged _)] at ha
      rw [encoded, canonical_of_not_number hnumber.2, if_pos (hprints ▸ hpa), Option.bind_some,
        if_pos (prints_tagged _)] at hb
      have hbytes := (Option.some.inj ha).trans (Option.some.inj hb).symm
      rw [String.toByteArray_inj, String.ofList_inj] at hbytes
      exact repr_tagged_inj (plain_repr a) (plain_repr b) hbytes
    · rintro ⟨hpa, hcases⟩
      have hrepr : repr py a = repr py b := hcases.resolve_left (by simp)
      obtain ⟨bytes, hbytes⟩ := hsome.mp hpa
      refine ⟨bytes, hbytes, ?_⟩
      rw [← hbytes, encoded, encoded, canonical_of_not_number hnumber.1,
        canonical_of_not_number hnumber.2, hrepr, hprints]

/-- Keys with the same bytes go to the same shard. -/
theorem shardIndex_eq {bytes : ByteArray} (ha : encoded py a = some bytes) (shardCount : ℕ) :
    shardIndex py digest shardCount a = some (digest bytes % shardCount) := by
  rw [shardIndex, stableHash, ha]
  rfl

/-- Equal keys have one class. -/
theorem keyClass_eq (h : pyEq a b = true) : keyClass a = keyClass b := by
  have hclass : (⟦a⟧ : Quotient setoid) = ⟦b⟧ := Quotient.sound h
  have hsome : ∀ c : PyValue, c ≠ none → keyClass c = some ⟦c⟧ := by
    intro c hc
    cases c with
    | none => exact absurd rfl hc
    | _ => rfl
  rcases pyEq_cases h with ⟨n, hn, hn'⟩ | ⟨rfl, rfl⟩ | ⟨s, rfl, rfl⟩ | ⟨xs, ys, rfl, rfl, -⟩
  · rw [hsome a (by rintro rfl; cases hn), hsome b (by rintro rfl; cases hn'), hclass]
  · rfl
  · rfl
  · rw [hsome _ (by simp), hsome _ (by simp), hclass]

/-- Equal keys in one shard are one key of the cache. -/
theorem cacheKey_eq {shardCount : ℕ} (h : pyEq a b = true)
    (hindex : shardIndex py digest shardCount a = shardIndex py digest shardCount b) :
    cacheKey py digest shardCount a = cacheKey py digest shardCount b := by
  rw [cacheKey, cacheKey, hindex, keyClass_eq h]

end PyValue

end CacheLab
