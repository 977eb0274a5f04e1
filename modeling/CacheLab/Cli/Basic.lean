import CacheLab.Workloads.Calls

/-!
# The basic commands of the command line

A basic command builds a fresh cache, puts the entries of the state file into it, makes its call, and writes the
entries back if it is `put`, `delete` or `clear`. The lock file around it is modelled elsewhere
(`Storage/StateFile.lean`); this module is what happens to the content.

* **The file.** JSON text and documents are those of the standard library. The content is the list under
  `entries`, read as far as the loader looks at it (`StateContent`); what the loader prints to stderr, and the
  `config` block it is about, is left out.
* **Failures.** `none` is a command that ends with an exception: a file that is no JSON, an argument that cannot be
  parsed, a key that cannot be hashed, a call that raises.
* **Clocks.** The clock of a process reads `clock n` in its `n`th call on the cache; every process has its own.
* **Commands.** `inspect`, `dump` and `stats`, which neither write the file nor give a value, are left out.
-/

set_option linter.unusedSectionVars false

namespace CacheLab

variable {α V T : Type} [DecidableEq α] [LinearOrder T] [Zero T] [Add T] [Sub T]

/-! ### The content of a state file -/

/-- What stands under a key of an item that `float` is applied to. -/
inductive Stamp (T : Type)
  | missing
  | null
  | number (t : T)
  /-- `float` raises `TypeError` or `ValueError`. -/
  | junk
  /-- `float` raises `OverflowError`. -/
  | huge
  deriving DecidableEq

/-- An item of the list `entries`.
Source: `cli/commands/basic.py` `_load_cache_state`, `_save_cache_state` -/
structure StateItem (α V T : Type) where
  /-- `none` is a key that cannot be hashed. -/
  key : Option (Key α)
  value : V
  ttlRemaining : Stamp T
  expiresWall : Stamp T := .missing
  /-- `0` for anything that is not an integer. -/
  hitCount : ℤ := 0
  deriving DecidableEq

/-- The content of a state file: `none` if reading it raises, and `none` in the list for what is not an object with
a `key`. A file that is not there has no entries. -/
abbrev StateContent (α V T : Type) := Option (List (Option (StateItem α V T)))

/-- How the loader goes on with an item. -/
inductive ItemTtl (T : Type)
  | skip
  | store (ttl : Ttl T)
  | raises

/-- A remaining lifetime that is over is skipped.
Source: `cli/commands/basic.py` `_ttl_from_state_item` -/
def ItemTtl.ofRemaining (remaining : T) : ItemTtl T := if remaining ≤ 0 then .skip else .store (.seconds remaining)

/-- Source: `cli/commands/basic.py` `_ttl_from_state_item` -/
def ttlFromStateItem (item : StateItem α V T) (wallNow : T) : ItemTtl T :=
  match item.ttlRemaining with
  | .null => .store .never
  | .number t => .ofRemaining t
  | .junk => .skip
  | .huge => .raises
  | .missing =>
      match item.expiresWall with
      | .missing => .store .never
      | .null => .store .never
      | .number t => .ofRemaining (t - wallNow)
      | .junk => .skip
      | .huge => .raises

variable {cfg : AcceptedConfig T}

/-! ### Load and save -/

/-- A call on the cache of a process, with the reading of its clock. -/
def callAt (hash : Key α → ℕ) (time : T) (s : Shared α V cfg) (op : Op α V T) :
    Option (Shared α V cfg × Result α V T) :=
  call hash {} { s with now := time } op

/-- Put an item into the cache, and restore its hit count if it is positive.
Source: `cli/commands/basic.py` `_load_cache_state` (the body of the loop) -/
def loadItem (hash : Key α → ℕ) (time wallNow : T) (s : Shared α V cfg) (item : StateItem α V T) :
    Option (Shared α V cfg) :=
  match ttlFromStateItem item wallNow, item.key with
  | .skip, _ => some s
  | .raises, _ => none
  | .store _, none => none
  | .store ttl, some key =>
      match callAt hash time s (.put key item.value ttl) with
      | some (s', .done) =>
          if 0 < item.hitCount then
            match callAt hash time s' (.restoreEntryMetadata key item.hitCount) with
            | some (s'', .done) => some s''
            | _ => none
          else some s'
      | _ => none

/-- The loop over the items; the first of them is number `n`.
Source: `cli/commands/basic.py` `_load_cache_state` -/
def loadItems (hash : Key α → ℕ) (clock : ℕ → T) (wallNow : T) :
    ℕ → List (StateItem α V T) → Shared α V cfg → Option (Shared α V cfg)
  | _, [], s => some s
  | n, item :: items, s =>
      (loadItem hash (clock n) wallNow s item).bind fun s' => loadItems hash clock wallNow (n + 1) items s'

/-- The items that the loader goes through. -/
def itemsOf (entries : List (Option (StateItem α V T))) : List (StateItem α V T) := entries.reduceOption

/-- Source: `cli/commands/basic.py` `_load_cache_state` -/
def loadCacheState (cfg : AcceptedConfig T) (hash : Key α → ℕ) (clock : ℕ → T) (wallNow : T)
    (content : StateContent α V T) : Option (Shared α V cfg) :=
  content.bind fun entries =>
    loadItems hash clock wallNow 0 (itemsOf entries) (initial cfg (clock 0) .empty).shared

/-- The item that is written for an entry.
Source: `cli/commands/basic.py` `_save_cache_state` -/
def EntrySnapshot.item (snapshot : EntrySnapshot α V T) : StateItem α V T where
  key := some snapshot.key
  value := snapshot.value
  ttlRemaining :=
    match snapshot.ttlRemaining with
    | none => .null
    | some t => .number t
  hitCount := snapshot.hitCount

/-- The content that is written, and the cache after it.
Source: `cli/commands/basic.py` `_save_cache_state` -/
def saveCacheState (hash : Key α → ℕ) (time : T) (s : Shared α V cfg) :
    Option (Shared α V cfg × StateContent α V T) :=
  match callAt hash time s (.dump none) with
  | some (s', .snapshots snapshots) => some (s', some (snapshots.map fun snapshot => some snapshot.item))
  | _ => none

/-! ### Commands -/

/-- A basic command with its arguments. `none` is a key or a value that cannot be parsed, and a key that cannot be
hashed.
Source: `cli/commands/basic.py` `run_basic`, `parse_cli_key`, `parse_cli_value` -/
inductive BasicCommand (α V T : Type)
  | put (key : Option (Key α)) (value : Option V) (noTtl : Bool) (ttl : Option T)
  | get (key : Option (Key α))
  | contains (key : Option (Key α))
  | delete (key : Option (Key α))
  | clear

/-- What a command prints. -/
inductive Printed (V : Type)
  | stored
  | miss
  | value (v : V)
  | deleted
  | notFound
  | yes
  | no
  | cleared
  deriving DecidableEq

/-- The call of a command; `none` if its arguments raise. -/
def BasicCommand.op? : BasicCommand α V T → Option (Op α V T)
  | .put (some key) (some value) noTtl ttl =>
      match noTtl, ttl with
      | true, some _ => none
      | true, none => some (.put key value .never)
      | false, some t => some (.put key value (.seconds t))
      | false, none => some (.put key value .unset)
  | .put _ _ _ _ => none
  | .get key => key.map .get
  | .contains key => key.map .contains
  | .delete key => key.map .delete
  | .clear => some .clear

/-- The commands that write the file back. -/
def BasicCommand.saves : BasicCommand α V T → Bool
  | .put .. | .delete _ | .clear => true
  | _ => false

/-- What a command prints for the result of its call; `none` is an exception. -/
def BasicCommand.print : BasicCommand α V T → Result α V T → Option (Printed V)
  | .put .., .done => some .stored
  | .get _, .value none => some .miss
  | .get _, .value (some v) => some (.value v)
  | .contains _, .flag answer => some (if answer then .yes else .no)
  | .delete _, .flag answer => some (if answer then .deleted else .notFound)
  | .clear, .done => some .cleared
  | _, _ => none

/-- A command as a process: what it prints and the content it leaves.
Source: `cli/commands/basic.py` `run_basic` -/
def runBasic (cfg : AcceptedConfig T) (hash : Key α → ℕ) (clock : ℕ → T) (wallNow : T)
    (content : StateContent α V T) (command : BasicCommand α V T) : Option (Printed V × StateContent α V T) :=
  (loadCacheState cfg hash clock wallNow content).bind fun s =>
    let n := (content.elim 0 fun entries => (itemsOf entries).length)
    command.op?.bind fun op =>
      (callAt hash (clock n) s op).bind fun r =>
        (command.print r.2).bind fun printed =>
          if command.saves then
            (saveCacheState hash (clock (n + 1)) r.1).map fun x => (printed, x.2)
          else some (printed, content)

end CacheLab
