import Mathlib.Data.String.Basic
import Mathlib.Data.List.Induction
import Mathlib.Data.List.Sort
import CacheLab.Lib.OrderedDict

/-!
# The keys of a config file

A config file is a table of TOML values. Its keys are names of fields of `CacheConfig`, or other names of some of
them; `normalizeConfig` turns the table into the keyword arguments of the constructor. TOML itself, and what the
constructor makes of the values, stay outside: the values are of any type.

Two keys may name one field. `normalizeItem` says what one key does, `normalizeItems_spec` what the keys read so far
did: each field has the value of the last key that names it, and the keys that name no field are listed. So the
accepted tables are those all of whose keys name a field, the result has a normal form (`config_file_normal_form`), and
it is its own normal form.
-/

set_option linter.unusedSectionVars false

namespace CacheLab.ConfigFile

variable {β : Type}

/-- The names of the fields.
Source: `core/config.py` `CacheConfig` -/
def fields : List String :=
  ["capacity", "default_ttl", "policy", "shard_count", "worker_count", "backend", "write_mode", "scheduler_interval",
    "queue_size", "write_back_retry_count", "write_back_retry_delay", "shutdown_flush", "shutdown_timeout",
    "active_expiration", "queue_put_timeout"]

/-- Other names of fields.
Source: `core/config.py` `_normalize_config` -/
def aliases : List (String × String) :=
  [("default TTL", "default_ttl"), ("default_ttl_seconds", "default_ttl"), ("shards", "shard_count"),
    ("workers", "worker_count"), ("queue_maxsize", "queue_size"), ("retry_count", "write_back_retry_count"),
    ("retry_delay", "write_back_retry_delay")]

/-- The name that a key stands for: `aliases.get(key, key)`. -/
def fieldOf (key : String) : String := (aliases.lookup key).getD key

/-- One key of the table: its field gets the value, or it is unknown.
Source: `core/config.py` `_normalize_config` (the body of the loop) -/
def normalizeItem (acc : OrderedDict String β × List String)
    (item : String × β) : OrderedDict String β × List String :=
  if fieldOf item.1 ∈ fields then (acc.1.set (fieldOf item.1) item.2, acc.2) else (acc.1, acc.2 ++ [item.1])

/-- `sorted`, on strings. -/
def sorted (names : List String) : List String := names.mergeSort fun a b => decide (a ≤ b)

/-- The text of the error about the keys `names`, in their order. -/
def unknownText (names : List String) : String :=
  "unknown config key(s): " ++ ", ".intercalate names ++ "; valid keys: " ++ ", ".intercalate (sorted fields)

/-- The keyword arguments that a table stands for.
Source: `core/config.py` `_normalize_config` -/
def normalizeConfig (data : OrderedDict String β) : Except String (OrderedDict String β) :=
  let acc := data.items.foldl normalizeItem (.empty, [])
  if acc.2 = [] then .ok acc.1 else .error (unknownText (sorted acc.2))

/-! ### Names -/

/-- A field has its own name. -/
theorem fieldOf_of_mem {field : String} (h : field ∈ fields) : fieldOf field = field := by
  have hall : ∀ field ∈ fields, fieldOf field = field := by decide +kernel
  exact hall field h

/-- Sorting keeps the names. -/
theorem sorted_perm (names : List String) : (sorted names).Perm names := List.mergeSort_perm _ _

/-- The sorted names are in order. -/
theorem pairwise_sorted (names : List String) : (sorted names).Pairwise fun a b => a ≤ b := by
  have hsorted : (sorted names).Pairwise fun a b => decide (a ≤ b) = true := by
    unfold sorted
    apply List.pairwise_mergeSort
    · intro a b c hab hbc
      rw [decide_eq_true_iff] at hab hbc ⊢
      exact hab.trans hbc
    · intro a b
      rw [Bool.or_eq_true, decide_eq_true_iff, decide_eq_true_iff]
      exact le_total a b
  apply hsorted.imp
  intro a b hab
  exact of_decide_eq_true hab

/-! ### The keys read so far -/

/-- The value of the last key that names the field. -/
def lastNamed (items : List (String × β)) (field : String) : Option β :=
  ((items.filter fun item => decide (fieldOf item.1 = field)).getLast?).map Prod.snd

/-- One more key. -/
theorem lastNamed_append (items : List (String × β)) (item : String × β) (field : String) :
    lastNamed (items ++ [item]) field = if fieldOf item.1 = field then some item.2 else lastNamed items field := by
  unfold lastNamed
  rw [List.filter_append]
  by_cases h : fieldOf item.1 = field
  · rw [if_pos h, List.filter_cons_of_pos (by simpa using h), List.filter_nil, List.getLast?_append]
    rfl
  · rw [if_neg h, List.filter_cons_of_neg (by simpa using h), List.filter_nil, List.append_nil]

/-- A field that no key names. -/
theorem lastNamed_eq_none {items : List (String × β)} {field : String}
    (h : ∀ key ∈ items.map Prod.fst, fieldOf key ≠ field) : lastNamed items field = none := by
  unfold lastNamed
  rw [List.filter_eq_nil_iff.mpr, List.getLast?_nil, Option.map_none]
  intro item hitem
  simpa using h item.1 (List.mem_map_of_mem hitem)

/-- A key that names a field. -/
theorem normalizeItem_of_mem (acc : OrderedDict String β × List String) {item : String × β}
    (h : fieldOf item.1 ∈ fields) : normalizeItem acc item = (acc.1.set (fieldOf item.1) item.2, acc.2) := if_pos h

/-- A key that names none. -/
theorem normalizeItem_of_notMem (acc : OrderedDict String β × List String) {item : String × β}
    (h : fieldOf item.1 ∉ fields) : normalizeItem acc item = (acc.1, acc.2 ++ [item.1]) := if_neg h

/-- **What the loop did so far.** -/
theorem normalizeItems_spec (items : List (String × β)) :
    (∀ field, (items.foldl normalizeItem (.empty, [])).1.get? field =
      if field ∈ fields then lastNamed items field else none) ∧
    (items.foldl normalizeItem (.empty, [])).2 =
      (items.map Prod.fst).filter fun key => decide (fieldOf key ∉ fields) := by
  induction items using List.reverseRecOn with
  | nil =>
      refine ⟨?_, rfl⟩
      intro field
      split_ifs <;> rfl
  | append_singleton items item ih =>
      obtain ⟨hget, hunknown⟩ := ih
      rw [List.foldl_append, List.foldl_cons, List.foldl_nil, List.map_append, List.filter_append, ← hunknown]
      by_cases hknown : fieldOf item.1 ∈ fields
      · rw [normalizeItem_of_mem _ hknown]
        refine ⟨?_, by simp [hknown]⟩
        intro field
        rw [OrderedDict.get?_set, lastNamed_append, hget]
        by_cases hfield : field = fieldOf item.1
        · subst hfield
          simp [hknown]
        · have hother : fieldOf item.1 ≠ field := fun h => hfield h.symm
          rw [if_neg hfield, if_neg hother]
      · rw [normalizeItem_of_notMem _ hknown]
        refine ⟨?_, by simp [hknown]⟩
        intro field
        rw [hget, lastNamed_append]
        by_cases hfield : fieldOf item.1 = field
        · subst hfield
          rw [if_neg hknown, if_neg hknown]
        · rw [if_neg hfield]

/-- Keys that are fields stay as they are. -/
theorem normalizeItems_of_fields {items : List (String × β)} (hnodup : (items.map Prod.fst).Nodup)
    (hfields : ∀ key ∈ items.map Prod.fst, key ∈ fields) :
    (items.foldl normalizeItem (.empty, [])).1.items = items := by
  induction items using List.reverseRecOn with
  | nil => rfl
  | append_singleton items item ih =>
      rw [List.map_append] at hnodup hfields
      obtain ⟨hold, -, hnew⟩ := List.nodup_append.mp hnodup
      have hitems := ih hold fun key hkey => hfields key (List.mem_append_left _ hkey)
      have hfield : item.1 ∈ fields := hfields item.1 (by simp)
      have hself := fieldOf_of_mem hfield
      rw [List.foldl_append, List.foldl_cons, List.foldl_nil, normalizeItem_of_mem _ (hself.symm ▸ hfield), hself,
        OrderedDict.items_set_of_notMem, hitems]
      rw [OrderedDict.keys, hitems]
      intro hmem
      exact hnew item.1 hmem item.1 (by simp) rfl

/-- Arguments of the constructor are in normal form. -/
theorem normalizeConfig_of_fields {args : OrderedDict String β} (h : ∀ field ∈ args.keys, field ∈ fields) :
    normalizeConfig args = .ok args := by
  have hunknown : (args.items.foldl normalizeItem (.empty, [])).2 = [] := by
    rw [(normalizeItems_spec args.items).2, List.filter_eq_nil_iff]
    intro key hkey
    have hfield := h key hkey
    simpa [fieldOf_of_mem hfield] using hfield
  have hsame : (args.items.foldl normalizeItem (.empty, [])).1 = args :=
    OrderedDict.ext (normalizeItems_of_fields args.nodup h)
  unfold normalizeConfig
  rw [if_pos hunknown, hsame]

/-! ### The theorem -/

/-- **What a table of settings means.** Either every key names a field; then the arguments are fields, each has the
value of the last key that names it and is left out if none does, and normalizing them again changes nothing. Or the
error lists exactly the keys that name no field, in order. -/
theorem config_file_normal_form (data : OrderedDict String β) :
    ((∀ key ∈ data.keys, fieldOf key ∈ fields) ∧
      ∃ args, normalizeConfig data = .ok args ∧ (∀ field ∈ args.keys, field ∈ fields) ∧
        (∀ field, args.get? field = lastNamed data.items field) ∧ normalizeConfig args = .ok args) ∨
    ∃ names, names ≠ [] ∧ names.Perm (data.keys.filter fun key => decide (fieldOf key ∉ fields)) ∧
      (names.Pairwise fun a b => a ≤ b) ∧ normalizeConfig data = .error (unknownText names) := by
  obtain ⟨hget, hunknown⟩ := normalizeItems_spec data.items
  by_cases hnone : (data.items.foldl normalizeItem (.empty, [])).2 = []
  · left
    have hall : ∀ key ∈ data.keys, fieldOf key ∈ fields := by
      intro key hkey
      rw [hnone] at hunknown
      simpa using List.filter_eq_nil_iff.mp hunknown.symm key hkey
    have hargs : ∀ field ∈ (data.items.foldl normalizeItem (.empty, [])).1.keys, field ∈ fields := by
      intro field hfield
      obtain ⟨v, hv⟩ := OrderedDict.mem_keys_iff.mp hfield
      rw [hget] at hv
      by_contra hne
      rw [if_neg hne] at hv
      cases hv
    refine ⟨hall, _, if_pos hnone, hargs, ?_, ?_⟩
    · intro field
      rw [hget]
      split_ifs with hfield
      · rfl
      · symm
        apply lastNamed_eq_none
        rintro key hkey rfl
        exact hfield (hall key hkey)
    · exact normalizeConfig_of_fields hargs
  · right
    refine ⟨sorted (data.items.foldl normalizeItem (.empty, [])).2, ?_, ?_, pairwise_sorted _, if_neg hnone⟩
    · intro hsorted
      apply hnone
      have hperm := sorted_perm (data.items.foldl normalizeItem (.empty, [])).2
      rw [hsorted] at hperm
      exact hperm.symm.eq_nil
    · rw [hunknown]
      exact sorted_perm _

/-- The later key wins, in the place of the first. -/
example : normalizeConfig ⟨[("shards", 4), ("capacity", 8), ("shard_count", 2)], by decide⟩ =
    .ok ⟨[("shard_count", 2), ("capacity", 8)], by decide⟩ := rfl

end CacheLab.ConfigFile
