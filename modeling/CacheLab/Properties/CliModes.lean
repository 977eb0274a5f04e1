import CacheLab.Cli.Load
import CacheLab.Workloads.Unflushed

/-!
# Basic commands and the write mode

A basic command in write-back mode, next to the same command in cache-only mode. The process starts no workers, so the
queue only fills: one job for each item that the loader puts, one for a put or a delete, one for each entry that a
clear removes.

* `Mirrored`: as long as the queue has room, the two caches have alike shards, and their calls give the same results.
* `runBasic_writeBack_iff`: the two commands end alike if and only if the queue takes the jobs, or the command
  fails in either mode because of its file or its arguments.

The `worker_count` of the configuration plays no part.
-/

set_option linter.unusedSectionVars false

namespace CacheLab

variable {α V T : Type} [DecidableEq α] [LinearOrder T] [Zero T] [Add T] [Sub T]

/-! ### Conditions on the input -/

/-- A configuration with another write mode; the validation does not look at it. -/
abbrev AcceptedConfig.withMode (cfg : AcceptedConfig T) (mode : WriteMode) : AcceptedConfig T :=
  ⟨{ cfg.toCacheConfig with writeMode := mode }, cfg.accepted⟩

/-- The loader skips the item or can put it. -/
def StateItem.Loads (wallNow : T) (item : StateItem α V T) : Prop :=
  match ttlFromStateItem item wallNow with
  | .skip => True
  | .raises => False
  | .store _ => item.key.isSome = true

/-- The number of puts the loader makes for the item. -/
def StateItem.puts (wallNow : T) (item : StateItem α V T) : ℕ :=
  match ttlFromStateItem item wallNow with
  | .store _ => 1
  | _ => 0

/-- The number of puts the loader makes for a file. -/
def loadPuts (wallNow : T) (content : StateContent α V T) : ℕ :=
  ((itemsOf (content.getD [])).map (StateItem.puts wallNow)).sum

/-- The number of entries that a cache-only command holds after loading a file. -/
def loadedEntries (cfg : AcceptedConfig T) (hash : Key α → ℕ) (clock : ℕ → T) (wallNow : T)
    (content : StateContent α V T) : ℕ :=
  (loadCacheState (cfg.withMode .cacheOnly) hash clock wallNow content).elim 0 Shared.total

/-- The number of keys that the call of a command writes, with so many entries in the cache. -/
def BasicCommand.writes (entries : ℕ) : BasicCommand α V T → ℕ
  | .put .. | .delete _ => 1
  | .clear => entries
  | _ => 0

/-- Nothing in the file and in the arguments makes the command fail: the file can be read, each of its items can be
loaded, and the arguments are accepted. -/
structure Completes (cfg : AcceptedConfig T) (wallNow : T) (content : StateContent α V T)
    (command : BasicCommand α V T) : Prop where
  readable : content.isSome = true
  loads : ∀ item ∈ itemsOf (content.getD []), item.Loads wallNow
  accepted : ∃ op, command.op? = some op ∧ op.precheck cfg = none

/-- The call of a put. -/
theorem exists_put_of_op? {key : Option (Key α)} {value : Option V} {noTtl : Bool} {ttl : Option T} {op : Op α V T}
    (h : (BasicCommand.put key value noTtl ttl).op? = some op) : ∃ key' value' ttl', op = .put key' value' ttl' := by
  unfold BasicCommand.op? at h
  split at h
  · split at h
    · cases h
    all_goals exact ⟨_, _, _, (Option.some.inj h).symm⟩
  · cases h
  all_goals contradiction

/-! ### The two caches -/

variable {cfg : AcceptedConfig T} {hash : Key α → ℕ}

/-- A cache in cache-only mode and one in write-back mode that went through the same calls; the second has `n` jobs in
its queue. -/
structure Mirrored (s : Shared α V (cfg.withMode .cacheOnly)) (s' : Shared α V (cfg.withMode .writeBack)) (n : ℕ) :
    Prop where
  created : s.lifecycle = .created
  created' : s'.lifecycle = .created
  quiet : s.queue.items.length = 0
  length_eq : s'.queue.items.length = n
  room : cfg.Room n
  alike : ∀ i : Fin cfg.shardCount, (s.shards i).Alike (s'.shards i)

variable {s : Shared α V (cfg.withMode .cacheOnly)} {s' : Shared α V (cfg.withMode .writeBack)} {n : ℕ}

/-- Two fresh caches. -/
theorem mirrored_initial (cfg : AcceptedConfig T) (now : T) :
    Mirrored (initial (cfg.withMode .cacheOnly) now (.empty : Source α V)).shared
      (initial (cfg.withMode .writeBack) now (.empty : Source α V)).shared 0 :=
  ⟨rfl, rfl, rfl, rfl, cfg.room_zero, fun _ => ⟨rfl, rfl, rfl⟩⟩

/-- The clocks of the two. -/
theorem Mirrored.at (h : Mirrored s s' n) (time : T) : Mirrored { s with now := time } { s' with now := time } n :=
  ⟨h.created, h.created', h.quiet, h.length_eq, h.room, h.alike⟩

/-- The two caches hold the same number of entries. -/
theorem Mirrored.total_eq (h : Mirrored s s' n) : s'.total = s.total := by
  unfold Shared.total
  exact congrArg List.sum (List.map_congr_left fun i _ => (h.alike i).size_eq)

/-- Alike shards, after a section on one of them. -/
theorem alike_update {shards shards' : Fin cfg.shardCount → CacheShard α V T} (h : ∀ i, (shards i).Alike (shards' i))
    (i : Fin cfg.shardCount) {sh sh' : CacheShard α V T} (hi : sh.Alike sh') (j : Fin cfg.shardCount) :
    (Function.update shards i sh j).Alike (Function.update shards' i sh' j) := by
  by_cases hj : j = i
  · subst hj
    rw [Function.update_self, Function.update_self]
    exact hi
  · rw [Function.update_of_ne hj, Function.update_of_ne hj]
    exact h j

/-- What the two caches make of a call that writes `k` keys: the first one answers, and the second one answers the
same if it has room for the jobs, and is refused otherwise. -/
structure Repeats (hash : Key α → ℕ) (s : Shared α V (cfg.withMode .cacheOnly))
    (s' : Shared α V (cfg.withMode .writeBack)) (n : ℕ) (op : Op α V T) (r : Result α V T) (k : ℕ)
    (t : Shared α V (cfg.withMode .cacheOnly)) : Prop where
  answer : call hash {} s op = some (t, r)
  created : t.lifecycle = .created
  same : cfg.Room (n + k) → ∃ t', call hash {} s' op = some (t', r) ∧ Mirrored t t' (n + k)
  refused : ¬ cfg.Room (n + k) → ∀ x, call hash {} s' op = some x → ∃ exn, x.2 = .raised exn

/-- A call, from what it does in each cache. -/
theorem Mirrored.repeats (h : Mirrored s s' n) {op : Op α V T} {r : Result α V T} {k : ℕ}
    {shards shards' : Fin cfg.shardCount → CacheShard α V T} (hs : Acts hash s op r 0 shards)
    (hs' : Acts hash s' op r k shards') (halike : ∀ i, (shards i).Alike (shards' i)) :
    ∃ t, Repeats hash s s' n op r k t := by
  obtain ⟨t, hcall, hlife, hshards, hqueue⟩ := hs.answers (by rw [h.quiet]; exact cfg.room_zero)
  refine ⟨t, hcall, hlife.trans h.created, fun hroom => ?_, fun hroom => hs'.refuses (by rw [h.length_eq]; exact hroom)⟩
  obtain ⟨t', hcall', hlife', hshards', hqueue'⟩ := hs'.answers (by rw [h.length_eq]; exact hroom)
  refine ⟨t', hcall', ⟨hlife.trans h.created, hlife'.trans h.created', hqueue.trans h.quiet,
    hqueue'.trans (by rw [h.length_eq]), hroom, fun i => ?_⟩⟩
  rw [hshards, hshards']
  exact halike i

section Calls

variable (h : Mirrored s s' n)

include h

/-- The queues are within their bounds. -/
theorem Mirrored.bounds : cfg.Room s.queue.items.length ∧ cfg.Room s'.queue.items.length :=
  ⟨by rw [h.quiet]; exact cfg.room_zero, by rw [h.length_eq]; exact h.room⟩

/-- A `put`. -/
theorem Mirrored.put (hash : Key α → ℕ) (key : Key α) (value : V) {ttl : Ttl T}
    (httl : validExplicitTtl ttl = true) (hnow : s'.now = s.now) :
    ∃ t, Repeats hash s s' n (.put key value ttl) .done 1 t := by
  refine h.repeats (acts_put hash (.inl h.created) h.bounds.1 key value httl)
    (acts_put hash (.inl h.created') h.bounds.2 key value httl) (alike_update h.alike _ ?_)
  have hdefault : (cfg.withMode .writeBack).defaultTtl = (cfg.withMode .cacheOnly).defaultTtl := rfl
  rw [hnow]
  exact (h.alike (shardFor cfg hash key)).putLocked hdefault s.source s'.source key value ttl s.now

/-- A `restore_entry_metadata`. -/
theorem Mirrored.restoreEntryMetadata (hash : Key α → ℕ) (key : Key α) (m : ℤ) :
    ∃ t, Repeats hash s s' n (.restoreEntryMetadata key m) .done 0 t :=
  h.repeats (acts_restoreEntryMetadata hash (.inl h.created) h.bounds.1 key m)
    (acts_restoreEntryMetadata hash (.inl h.created') h.bounds.2 key m)
    (alike_update h.alike _ ((h.alike _).restoreEntryMetadata key m))

/-- The call of a basic command. -/
theorem Mirrored.command (hash : Key α → ℕ) {command : BasicCommand α V T} {op : Op α V T}
    (hop : command.op? = some op)
    (hcheck : op.precheck cfg = none) (hnow : s'.now = s.now) :
    ∃ r t, Repeats hash s s' n op r (command.writes s.total) t ∧ (command.print r).isSome = true := by
  have hread : ∀ (key : Key α) (touch : Bool),
      ((s.home hash key).readValueLocked key touch true s.now).1 =
          ((s'.home hash key).readValueLocked key touch true s'.now).1 ∧
        ((s.home hash key).readValueLocked key touch true s.now).2.Alike
          ((s'.home hash key).readValueLocked key touch true s'.now).2 := by
    intro key touch
    rw [hnow]
    have hsame := (h.alike (shardFor cfg hash key)).readValueLocked key touch true s.now
    exact ⟨hsame.1.symm, hsame.2⟩
  cases command with
  | put key value noTtl ttl =>
      obtain ⟨key', value', ttl', rfl⟩ := exists_put_of_op? hop
      have httl : validExplicitTtl ttl' = true := by
        by_contra hinvalid
        simp [Op.precheck, hinvalid] at hcheck
      obtain ⟨t, hput⟩ := h.put hash key' value' httl hnow
      exact ⟨.done, t, hput, rfl⟩
  | get key =>
      obtain ⟨key', rfl, rfl⟩ := Option.map_eq_some_iff.mp hop
      obtain ⟨hvalue, hsame⟩ := hread key' true
      have hacts := acts_get hash (.inl h.created) h.bounds.1 key'
      rw [hvalue] at hacts
      obtain ⟨t, hget⟩ := h.repeats hacts (acts_get hash (.inl h.created') h.bounds.2 key') (alike_update h.alike _ hsame)
      refine ⟨_, t, hget, ?_⟩
      cases ((s'.home hash key').readValueLocked key' true true s'.now).1 <;> rfl
  | contains key =>
      obtain ⟨key', rfl, rfl⟩ := Option.map_eq_some_iff.mp hop
      obtain ⟨hvalue, hsame⟩ := hread key' false
      have hacts := acts_contains hash (.inl h.created) h.bounds.1 key'
      rw [hvalue] at hacts
      obtain ⟨t, hget⟩ := h.repeats hacts (acts_contains hash (.inl h.created') h.bounds.2 key') (alike_update h.alike _ hsame)
      exact ⟨_, t, hget, rfl⟩
  | delete key =>
      obtain ⟨key', rfl, rfl⟩ := Option.map_eq_some_iff.mp hop
      have hsame := h.alike (shardFor cfg hash key')
      have hfound : ((s.home hash key').backend.getEntry key').isSome =
          ((s'.home hash key').backend.getEntry key').isSome := by
        show ((s.shards (shardFor cfg hash key')).backend.getEntry key').isSome =
          ((s'.shards (shardFor cfg hash key')).backend.getEntry key').isSome
        rcases hsame.getEntry_cases key' with ⟨he, he'⟩ | ⟨e, e', he, he', -⟩
        · rw [he, he']
        · rw [he, he']
          rfl
      have hacts := acts_delete hash (.inl h.created) h.bounds.1 key'
      rw [hfound] at hacts
      obtain ⟨t, hdelete⟩ := h.repeats hacts (acts_delete hash (.inl h.created') h.bounds.2 key')
        (alike_update h.alike _ (hsame.deleteLocked _ _ _ _ key'))
      exact ⟨_, t, hdelete, rfl⟩
  | clear =>
      obtain rfl := Option.some.inj hop
      obtain ⟨shards, hacts, hshards⟩ := acts_clear hash (.inl h.created) h.bounds.1
      obtain ⟨shards', hacts', hshards'⟩ := acts_clear hash (.inl h.created') h.bounds.2
      rw [h.total_eq] at hacts'
      obtain ⟨t, hclear⟩ := h.repeats hacts hacts' fun i => by
        obtain ⟨src, hsrc⟩ := hshards i
        obtain ⟨src', hsrc'⟩ := hshards' i
        rw [hsrc, hsrc']
        exact (h.alike i).clearLocked _ _ src src'
      exact ⟨.done, t, hclear, rfl⟩

end Calls

/-! ### Loading -/

/-- What the two caches make of something that writes `k` keys, done in the first one as `x` and in the second one as
`x'`: done in both, or refused in the second one. -/
structure RepeatsRun (n k : ℕ) (x : Option (Shared α V (cfg.withMode .cacheOnly)))
    (x' : Option (Shared α V (cfg.withMode .writeBack))) : Prop where
  same : cfg.Room (n + k) → ∃ t t', x = some t ∧ x' = some t' ∧ Mirrored t t' (n + k)
  refused : ¬ cfg.Room (n + k) → x' = none

/-- Loading an item that makes the command fail, in whatever mode. -/
theorem loadItem_eq_none {config : AcceptedConfig T} {item : StateItem α V T} {wallNow : T} (h : ¬ item.Loads wallNow)
    (time : T) (x : Shared α V config) : loadItem hash time wallNow x item = none := by
  unfold StateItem.Loads at h
  unfold loadItem
  cases httl : ttlFromStateItem item wallNow with
  | skip => simp [httl] at h
  | raises => rfl
  | store ttl =>
      cases hkey : item.key with
      | none => rfl
      | some key => simp [httl, hkey] at h

/-- Loading items of which one makes the command fail. -/
theorem loadItems_eq_none {config : AcceptedConfig T} {items : List (StateItem α V T)} {wallNow : T}
    (h : ¬ ∀ item ∈ items, item.Loads wallNow) (clock : ℕ → T) (m : ℕ) (x : Shared α V config) :
    loadItems hash clock wallNow m items x = none := by
  induction items generalizing m x with
  | nil => exact absurd (by simp) h
  | cons item items ih =>
      rw [loadItems]
      by_cases hitem : item.Loads wallNow
      · have hrest : ¬ ∀ it ∈ items, it.Loads wallNow := fun hall =>
          h fun it hit => (List.mem_cons.mp hit).elim (fun heq => heq ▸ hitem) (hall it)
        exact Option.bind_eq_none_iff.mpr fun y _ => ih hrest (m + 1) y
      · rw [loadItem_eq_none hitem, Option.bind_none]

/-- Loading an item in cache-only mode. -/
theorem exists_loadItem (hash : Key α → ℕ) (hs : s.lifecycle = .created ∧ s.queue.items.length = 0)
    {item : StateItem α V T} {wallNow : T}
    (hloads : item.Loads wallNow) (time : T) :
    ∃ t, loadItem hash time wallNow s item = some t ∧ t.lifecycle = .created ∧ t.queue.items.length = 0 := by
  unfold StateItem.Loads at hloads
  unfold loadItem
  cases httl : ttlFromStateItem item wallNow with
  | skip => exact ⟨s, rfl, hs⟩
  | raises => simp [httl] at hloads
  | store ttl =>
      cases hkey : item.key with
      | none => simp [httl, hkey] at hloads
      | some key =>
          have hopen : Shared.Open { s with now := time } := .inl hs.1
          have hput : callAt hash time s (.put key item.value ttl) = some (_, Result.done) :=
            call_put rfl hopen key item.value (validExplicitTtl_of_store httl)
          have hopen' : Shared.Open
              { (({ s with now := time }).putSection hash key item.value ttl true).1 with now := time } := .inl hs.1
          have hrestore : callAt hash time (({ s with now := time }).putSection hash key item.value ttl true).1
              (.restoreEntryMetadata key item.hitCount) = some (_, Result.done) :=
            call_restoreEntryMetadata hopen' key item.hitCount
          by_cases hhits : 0 < item.hitCount
          · simp only [hput, hhits, if_true, hrestore]
            exact ⟨_, rfl, hs⟩
          · simp only [hput, hhits, if_false]
            exact ⟨_, rfl, hs⟩

/-- Loading items in cache-only mode. -/
theorem exists_loadItems (hash : Key α → ℕ)
    (hs : s.lifecycle = .created ∧ s.queue.items.length = 0) {items : List (StateItem α V T)} {wallNow : T}
    (hloads : ∀ item ∈ items, item.Loads wallNow) (clock : ℕ → T) (m : ℕ) :
    ∃ t, loadItems hash clock wallNow m items s = some t ∧ t.lifecycle = .created ∧ t.queue.items.length = 0 := by
  induction items generalizing s m with
  | nil => exact ⟨s, rfl, hs⟩
  | cons item items ih =>
      obtain ⟨t, ht, hcreated⟩ := exists_loadItem hash hs (hloads item List.mem_cons_self) (clock m)
      rw [loadItems, ht, Option.bind_some]
      exact ih hcreated (fun it hit => hloads it (List.mem_cons_of_mem item hit)) (m + 1)

/-- Loading an item in both modes. -/
theorem Mirrored.loadItem (hash : Key α → ℕ) (h : Mirrored s s' n) {item : StateItem α V T}
    {wallNow : T} (hloads : item.Loads wallNow)
    (time : T) :
    RepeatsRun n (item.puts wallNow) (loadItem hash time wallNow s item) (loadItem hash time wallNow s' item) := by
  unfold StateItem.Loads at hloads
  unfold StateItem.puts CacheLab.loadItem
  cases httl : ttlFromStateItem item wallNow with
  | skip => exact ⟨fun _ => ⟨s, s', rfl, rfl, h⟩, fun hroom => absurd h.room hroom⟩
  | raises => simp [httl] at hloads
  | store ttl =>
      cases hkey : item.key with
      | none => simp [httl, hkey] at hloads
      | some key =>
          obtain ⟨t, hput⟩ := (h.at time).put hash key item.value (validExplicitTtl_of_store httl) rfl
          have hanswer : callAt hash time s (.put key item.value ttl) = some (t, Result.done) := hput.answer
          refine ⟨fun hroom => ?_, fun hroom => ?_⟩
          · obtain ⟨t', hput', hmirrored⟩ := hput.same hroom
            have hanswer' : callAt hash time s' (.put key item.value ttl) = some (t', Result.done) := hput'
            obtain ⟨u, hmeta⟩ := (hmirrored.at time).restoreEntryMetadata hash key item.hitCount
            obtain ⟨u', hmeta', hmirrored'⟩ := hmeta.same hmirrored.room
            have hcall : callAt hash time t (.restoreEntryMetadata key item.hitCount) = some (u, Result.done) := hmeta.answer
            have hcall' : callAt hash time t' (.restoreEntryMetadata key item.hitCount) = some (u', Result.done) := hmeta'
            simp only [hanswer, hanswer', hcall, hcall']
            split_ifs
            · exact ⟨u, u', rfl, rfl, hmirrored'⟩
            · exact ⟨t, t', rfl, rfl, hmirrored⟩
          · have hrefused : ∀ x, callAt hash time s' (.put key item.value ttl) = some x → ∃ exn, x.2 = .raised exn :=
              hput.refused hroom
            cases hput' : callAt hash time s' (.put key item.value ttl) with
            | none => simp only [hput']
            | some x =>
                obtain ⟨u, r⟩ := x
                obtain ⟨exn, rfl⟩ : ∃ exn, r = .raised exn := hrefused _ hput'
                simp only [hput']

/-- **Loading items** in both modes. -/
theorem Mirrored.loadItems (hash : Key α → ℕ) (h : Mirrored s s' n) {items : List (StateItem α V T)} {wallNow : T}
    (hloads : ∀ item ∈ items, item.Loads wallNow) (clock : ℕ → T) (m : ℕ) :
    RepeatsRun n (items.map (StateItem.puts wallNow)).sum (loadItems hash clock wallNow m items s)
      (loadItems hash clock wallNow m items s') := by
  induction items generalizing s s' n m with
  | nil => exact ⟨fun _ => ⟨s, s', rfl, rfl, h⟩, fun hroom => absurd h.room hroom⟩
  | cons item items ih =>
      have hitem := h.loadItem hash (hloads item List.mem_cons_self) (clock m)
      have hrest : ∀ it ∈ items, it.Loads wallNow := fun it hit => hloads it (List.mem_cons_of_mem item hit)
      have hsum : n + ((item :: items).map (StateItem.puts wallNow)).sum =
          n + item.puts wallNow + (items.map (StateItem.puts wallNow)).sum := by
        rw [List.map_cons, List.sum_cons, Nat.add_assoc]
      have hjobs : ∀ {x : Option (Shared α V (cfg.withMode .cacheOnly))} {x' : Option (Shared α V (cfg.withMode .writeBack))},
          RepeatsRun (n + item.puts wallNow) (items.map (StateItem.puts wallNow)).sum x x' →
          RepeatsRun n ((item :: items).map (StateItem.puts wallNow)).sum x x' := fun hrun =>
        ⟨by rw [hsum]; exact hrun.same, by rw [hsum]; exact hrun.refused⟩
      rw [CacheLab.loadItems, CacheLab.loadItems]
      by_cases hfirst : cfg.Room (n + item.puts wallNow)
      · obtain ⟨t, t', ht, ht', hmirrored⟩ := hitem.same hfirst
        rw [ht, ht', Option.bind_some, Option.bind_some]
        exact hjobs (ih hmirrored hrest (m + 1))
      · rw [hitem.refused hfirst, Option.bind_none]
        exact hjobs ⟨fun hroom => absurd (hroom.mono (Nat.le_add_right _ _)) hfirst, fun _ => rfl⟩

/-! ### Commands -/

variable {wallNow : T} {content : StateContent α V T} {command : BasicCommand α V T} {clock : ℕ → T}

/-- The file that is written from alike shards. -/
theorem Mirrored.saved (h : Mirrored s s' n) (hash : Key α → ℕ) (time : T) :
    (saveCacheState hash time s').map Prod.snd = (saveCacheState hash time s).map Prod.snd := by
  obtain ⟨t, hsave, -⟩ := saveCacheState_eq hash (Or.inl h.created) time
  obtain ⟨t', hsave', -⟩ := saveCacheState_eq hash (Or.inl h.created') time
  have hitems : s'.shardList.flatMap (CacheShard.items time) = s.shardList.flatMap (CacheShard.items time) := by
    unfold Shared.shardList
    rw [List.flatMap_map, List.flatMap_map]
    refine List.flatMap_congr fun i _ => ?_
    rw [CacheShard.items, CacheShard.items, (h.alike i).rows_eq]
  rw [hsave, hsave', hitems]
  rfl

/-- Every fresh cache-only cache is mirrored by one with an empty queue. -/
theorem exists_mirrored (hs : s.lifecycle = .created ∧ s.queue.items.length = 0) :
    ∃ s' : Shared α V (cfg.withMode .writeBack), s'.now = s.now ∧ Mirrored s s' 0 :=
  ⟨{ (initial (cfg.withMode .writeBack) s.now (.empty : Source α V)).shared with shards := s.shards }, rfl,
    ⟨hs.1, rfl, hs.2, rfl, cfg.room_zero, fun _ => .refl _⟩⟩

/-- What is left of a command after loading. -/
def runLoaded (hash : Key α → ℕ) (clock : ℕ → T) (n : ℕ) (content : StateContent α V T) (command : BasicCommand α V T)
    {config : AcceptedConfig T} (s : Shared α V config) : Option (Printed V × StateContent α V T) :=
  command.op?.bind fun op =>
    (callAt hash (clock n) s op).bind fun r =>
      (command.print r.2).bind fun printed =>
        if command.saves then (saveCacheState hash (clock (n + 1)) r.1).map fun x => (printed, x.2)
        else some (printed, content)

/-- A command loads the file and goes on. -/
theorem runBasic_some {config : AcceptedConfig T} (entries : List (Option (StateItem α V T))) :
    runBasic config hash clock wallNow (some entries) command =
      (loadItems hash clock wallNow 0 (itemsOf entries) (initial config (clock 0) (.empty : Source α V)).shared).bind
        (runLoaded hash clock (itemsOf entries).length (some entries) command) := rfl

/-- The call of a command in both modes. -/
theorem Mirrored.runLoaded (hash : Key α → ℕ) (clock : ℕ → T) (content : StateContent α V T)
    (h : Mirrored s s' n) {op : Op α V T} (hop : command.op? = some op)
    (hcheck : op.precheck cfg = none) (m : ℕ) :
    (∃ x, runLoaded hash clock m content command s = some x) ∧
      (cfg.Room (n + command.writes s.total) →
        runLoaded hash clock m content command s' = runLoaded hash clock m content command s) ∧
      (¬ cfg.Room (n + command.writes s.total) → runLoaded hash clock m content command s' = none) := by
  obtain ⟨r, t, hcall, hprint⟩ := (h.at (clock m)).command hash hop hcheck rfl
  obtain ⟨printed, hprinted⟩ := Option.isSome_iff_exists.mp hprint
  have hanswer : callAt hash (clock m) s op = some (t, r) := hcall.answer
  obtain ⟨t₁, hsave, -⟩ := saveCacheState_eq hash (Or.inl hcall.created) (clock (m + 1))
  have hrun : CacheLab.runLoaded hash clock m content command s =
      if command.saves then (saveCacheState hash (clock (m + 1)) t).map fun x => (printed, x.2)
      else some (printed, content) := by
    rw [CacheLab.runLoaded, hop, Option.bind_some, hanswer, Option.bind_some, hprinted, Option.bind_some]
  refine ⟨?_, fun hroom => ?_, fun hroom => ?_⟩
  · rw [hrun, hsave]
    split_ifs
    · exact ⟨_, rfl⟩
    · exact ⟨_, rfl⟩
  · obtain ⟨t', hcall', hmirrored⟩ := hcall.same hroom
    have hanswer' : callAt hash (clock m) s' op = some (t', r) := hcall'
    have hfile := congrArg (Option.map fun file => (printed, file)) (hmirrored.saved hash (clock (m + 1)))
    rw [Option.map_map, Option.map_map] at hfile
    rw [hrun, CacheLab.runLoaded, hop, Option.bind_some, hanswer', Option.bind_some, hprinted, Option.bind_some]
    split_ifs
    · exact hfile
    · rfl
  · rw [CacheLab.runLoaded, hop, Option.bind_some]
    cases hcall' : callAt hash (clock m) s' op with
    | none => rfl
    | some x =>
        obtain ⟨u, r'⟩ := x
        obtain ⟨exn, rfl⟩ : ∃ exn, r' = .raised exn := hcall.refused hroom _ hcall'
        rw [Option.bind_some]
        have hnothing : command.print (.raised exn) = none := by
          cases command <;> rfl
        rw [hnothing, Option.bind_none]

/-- A command whose arguments are not accepted. -/
theorem runLoaded_eq_none {mode : WriteMode} {s : Shared α V (cfg.withMode mode)} (hs : s.lifecycle = .created)
    (h : ¬ ∃ op, command.op? = some op ∧ op.precheck cfg = none) (m : ℕ) :
    runLoaded hash clock m content command s = none := by
  rw [runLoaded]
  cases hop : command.op? with
  | none => rfl
  | some op =>
      have hcheck : op.precheck cfg ≠ none := fun hnone => h ⟨op, hop, hnone⟩
      cases command with
      | put key value noTtl ttl =>
          obtain ⟨key', value', ttl', rfl⟩ := exists_put_of_op? hop
          have httl : validExplicitTtl ttl' = false := by
            by_contra hvalid
            exact hcheck (by simp [Op.precheck, hvalid])
          have hopen : Shared.Open { s with now := clock m } := .inl hs
          have hcall : callAt hash (clock m) s (.put key' value' ttl') = some (_, Result.raised .validation) :=
            call_put_of_invalid hopen key' value' httl
          rw [Option.bind_some, hcall, Option.bind_some]
          rfl
      | get key =>
          obtain ⟨key', rfl, rfl⟩ := Option.map_eq_some_iff.mp hop
          exact absurd rfl hcheck
      | contains key =>
          obtain ⟨key', rfl, rfl⟩ := Option.map_eq_some_iff.mp hop
          exact absurd rfl hcheck
      | delete key =>
          obtain ⟨key', rfl, rfl⟩ := Option.map_eq_some_iff.mp hop
          exact absurd rfl hcheck
      | clear =>
          obtain rfl := Option.some.inj hop
          exact absurd rfl hcheck

/-- The two commands on a file that can be loaded: the first one loads it, and the second one as far as its queue has
room. -/
theorem loaded_modes (cfg : AcceptedConfig T) (hash : Key α → ℕ) (clock : ℕ → T)
    {entries : List (Option (StateItem α V T))}
    (hloads : ∀ item ∈ itemsOf entries, item.Loads wallNow) :
    ∃ s : Shared α V (cfg.withMode .cacheOnly),
      loadCacheState (cfg.withMode .cacheOnly) hash clock wallNow (some entries) = some s ∧
        (s.lifecycle = .created ∧ s.queue.items.length = 0) ∧
        (cfg.Room (loadPuts wallNow (some entries)) → ∃ s',
          loadCacheState (cfg.withMode .writeBack) hash clock wallNow (some entries) = some s' ∧
            Mirrored s s' (loadPuts wallNow (some entries))) ∧
        (¬ cfg.Room (loadPuts wallNow (some entries)) →
          loadCacheState (cfg.withMode .writeBack) hash clock wallNow (some entries) = none) := by
  have hrun := (mirrored_initial cfg (clock 0)).loadItems hash hloads clock 0
  have hputs : 0 + ((itemsOf entries).map (StateItem.puts wallNow)).sum = loadPuts wallNow (some entries) := Nat.zero_add _
  obtain ⟨s, hs, hquiet⟩ := exists_loadItems hash
    (s := (initial (cfg.withMode .cacheOnly) (clock 0) (.empty : Source α V)).shared) ⟨rfl, rfl⟩ hloads clock 0
  refine ⟨s, hs, hquiet, fun hroom => ?_, fun hroom => hrun.refused (by rw [hputs]; exact hroom)⟩
  obtain ⟨t, t', ht, ht', hmirrored⟩ := hrun.same (by rw [hputs]; exact hroom)
  obtain rfl : t = s := Option.some.inj (ht.symm.trans hs)
  exact ⟨t', ht', hputs ▸ hmirrored⟩

/-- A command fails, in both modes, if it does not complete. -/
theorem runBasic_eq_none (hash : Key α → ℕ) (clock : ℕ → T) (h : ¬ Completes cfg wallNow content command) :
    runBasic (cfg.withMode .cacheOnly) hash clock wallNow content command = none ∧
      runBasic (cfg.withMode .writeBack) hash clock wallNow content command = none := by
  cases content with
  | none => exact ⟨rfl, rfl⟩
  | some entries =>
      by_cases hloads : ∀ item ∈ itemsOf entries, item.Loads wallNow
      · have haccepted : ¬ ∃ op, command.op? = some op ∧ op.precheck cfg = none := fun hop => h ⟨rfl, hloads, hop⟩
        obtain ⟨s, hload, hquiet, hroom, hfull⟩ := loaded_modes cfg hash clock hloads
        have hload₀ : loadItems hash clock wallNow 0 (itemsOf entries) _ = some s := hload
        refine ⟨?_, ?_⟩
        · rw [runBasic_some, hload₀, Option.bind_some, runLoaded_eq_none hquiet.1 haccepted]
        · by_cases hr : cfg.Room (loadPuts wallNow (some entries))
          · obtain ⟨s', hload', hmirrored⟩ := hroom hr
            have hload₁ : loadItems hash clock wallNow 0 (itemsOf entries) _ = some s' := hload'
            rw [runBasic_some, hload₁, Option.bind_some, runLoaded_eq_none hmirrored.created' haccepted]
          · have hload₁ : loadItems hash clock wallNow 0 (itemsOf entries) _ = none := hfull hr
            rw [runBasic_some, hload₁, Option.bind_none]
      · refine ⟨?_, ?_⟩
        · rw [runBasic_some, loadItems_eq_none hloads, Option.bind_none]
        · rw [runBasic_some, loadItems_eq_none hloads, Option.bind_none]

/-- **A basic command does not depend on the write mode** if and only if the queue takes its flush jobs, or the
command fails in either mode. The jobs are one for each item that is put, and one for each key that the call of the
command writes. -/
theorem runBasic_writeBack_iff (cfg : AcceptedConfig T) (hash : Key α → ℕ) (clock : ℕ → T) (wallNow : T)
    (content : StateContent α V T) (command : BasicCommand α V T) :
    runBasic (cfg.withMode .writeBack) hash clock wallNow content command =
        runBasic (cfg.withMode .cacheOnly) hash clock wallNow content command ↔
      (Completes cfg wallNow content command → cfg.Room
        (loadPuts wallNow content + command.writes (loadedEntries cfg hash clock wallNow content))) := by
  by_cases hcompletes : Completes cfg wallNow content command
  · obtain ⟨hreadable, hloads, op, hop, hcheck⟩ := id hcompletes
    obtain ⟨entries, rfl⟩ := Option.isSome_iff_exists.mp hreadable
    have hloads' : ∀ item ∈ itemsOf entries, item.Loads wallNow := hloads
    obtain ⟨s, hload, hquiet, hroom, hfull⟩ := loaded_modes cfg hash clock hloads'
    have hload₀ : loadItems hash clock wallNow 0 (itemsOf entries) _ = some s := hload
    have hentries : loadedEntries cfg hash clock wallNow (some entries) = s.total := by
      rw [loadedEntries, hload]
      rfl
    obtain ⟨mirror, -, hmirror⟩ := exists_mirrored hquiet
    obtain ⟨⟨x, hx⟩, -⟩ := hmirror.runLoaded hash clock (some entries) hop hcheck
      (itemsOf entries).length
    rw [hentries, runBasic_some, runBasic_some, hload₀, Option.bind_some]
    by_cases hr : cfg.Room (loadPuts wallNow (some entries))
    · obtain ⟨s', hload', hmirrored⟩ := hroom hr
      have hload₁ : loadItems hash clock wallNow 0 (itemsOf entries) _ = some s' := hload'
      obtain ⟨-, hsame, hrefused⟩ := hmirrored.runLoaded hash clock (some entries) hop
        hcheck (itemsOf entries).length
      rw [hload₁, Option.bind_some]
      refine ⟨fun heq _ => ?_, fun hfits => hsame (hfits hcompletes)⟩
      by_contra hno
      rw [hrefused hno, hx] at heq
      cases heq
    · have hload₁ : loadItems hash clock wallNow 0 (itemsOf entries) _ = none := hfull hr
      rw [hload₁, Option.bind_none, hx]
      exact ⟨fun heq => (nomatch heq), fun hfits => absurd ((hfits hcompletes).mono (Nat.le_add_right _ _)) hr⟩
  · obtain ⟨hnone, hnone'⟩ := runBasic_eq_none hash clock hcompletes
    rw [hnone, hnone']
    exact ⟨fun _ h => absurd h hcompletes, fun _ => rfl⟩

/-- One entry in the file, room for one job in the queue: the job of the put that loads the entry fills it, and the
`put` of the command ends with backpressure. In cache-only mode it stores its key. -/
theorem put_refused_in_write_back :
    runBasic ((oneEntry .lru .cacheOnly 0 1 0).withMode .writeBack) (fun _ => 0) (fun _ => 0) 0
        (some [some { key := some (some 1), value := 1, ttlRemaining := .null }])
        (.put (some (some 2)) (some 2) false none : BasicCommand ℕ ℕ ℕ) = none ∧
      runBasic ((oneEntry .lru .cacheOnly 0 1 0).withMode .cacheOnly) (fun _ => 0) (fun _ => 0) 0
        (some [some { key := some (some 1), value := 1, ttlRemaining := .null }])
        (.put (some (some 2)) (some 2) false none : BasicCommand ℕ ℕ ℕ) =
      some (.stored, some [some { key := some (some 2), value := 2, ttlRemaining := .null }]) := by
  decide +kernel

end CacheLab
