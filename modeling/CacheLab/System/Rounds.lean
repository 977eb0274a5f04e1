import CacheLab.System.Split
import CacheLab.Workloads.Calls

/-!
# Calls that visit all shards

`clear`, `size`, `dump` and `expire_all` go through the shards in order, with one section on each, and other calls
get in between two of them. In cache-only mode the four are one kind of call: a `Sweep` says what its section does
to a shard (`visit`), how it collects what the sections answer (`zero`, `add`), and at which points its thread
stands. `Sweep.Lawful` are the laws of such a call: the equations of its steps, and that its section neither looks
at the number of the shard nor at the registry of flights, which it keeps or empties.

The points are given twice, for a cache and for the caches with one shard that are compared with it: these are
asked for a `dump` without limit, since the limit cuts the list that was put together.
-/

set_option linter.unusedSectionVars false

namespace CacheLab

variable {α V T : Type} [DecidableEq α] [LinearOrder T] [Zero T] [Add T] [Sub T]

/-! ### What such a call is -/

/-- The points of a sweeping call with an accumulator of type `β`: the operation, the point before the section on
a shard, and the result. -/
structure Rounds (α V T β : Type) where
  op : Op α V T
  point : ℕ → β → Thread α V T
  out : β → Result α V T

/-- A sweeping call: its section on a shard and its accumulator, what the section does to the registry of flights,
its points, and the points of the call on a cache with one shard that is compared with it. -/
structure Sweep (α V T : Type) [DecidableEq α] where
  β : Type
  zero : β
  add : β → β → β
  visit : T → CacheShard α V T → β × CacheShard α V T
  registry : OrderedDict (Key α) ℕ → OrderedDict (Key α) ℕ
  whole : Rounds α V T β
  part : Rounds α V T β

/-- The next step of the thread has to do with the shard. -/
def Thread.visits {n : ℕ} (i : Fin n) : Thread α V T → Bool
  | .clearing j _ => decide (j = i ∨ n ≤ j)
  | .sizing j _ => decide (j = i ∨ n ≤ j)
  | .dumping j _ _ => decide (j = i ∨ n ≤ j)
  | .expiring j _ => decide (j = i ∨ n ≤ j)
  | _ => true

/-- The steps of a sweeping call in cache-only mode. -/
structure Rounds.Lawful (hash : Key α → ℕ) (w : Sweep α V T) (r : Rounds α V T w.β) : Prop where
  key : r.op.key? = none
  enter : ∀ {cfg : AcceptedConfig T} (s : Shared α V cfg) (c : Choice α V), s.Open →
    threadStep hash s c (.entering r.op (.client .done)) = some (s, Thread.running r.op (.client .done))
  start : ∀ {cfg : AcceptedConfig T} (s : Shared α V cfg) (c : Choice α V),
    threadStep hash s c (.running r.op (.client .done)) = some (s, r.point 0 w.zero)
  step : ∀ {cfg : AcceptedConfig T} (s : Shared α V cfg) (c : Choice α V) (i : Fin cfg.shardCount) (b : w.β),
    cfg.writeMode = .cacheOnly → ∃ s',
      threadStep hash s c (r.point i b) = some (s', r.point (i + 1) (w.add b (w.visit s.now (s.shards i)).1)) ∧
        s.Beside s' ∧ s'.shards = Function.update s.shards i (w.visit s.now (s.shards i)).2
  stop : ∀ {cfg : AcceptedConfig T} (s : Shared α V cfg) (c : Choice α V) (b : w.β),
    cfg.writeMode = .cacheOnly → threadStep hash s c (r.point cfg.shardCount b) = some (s, Thread.finished (r.out b))
  visits : ∀ {n : ℕ} (i : Fin n) (j : ℕ) (b : w.β), (r.point j b).visits i = decide (j = i ∨ n ≤ j)
  going : ∀ (j : ℕ) (b : w.β) (result : Result α V T), r.point j b ≠ .finished result

/-- The laws of a sweeping call. -/
structure Sweep.Lawful (hash : Key α → ℕ) (w : Sweep α V T) : Prop where
  seat : ∀ now sh a d, w.visit now (sh.seat a d) = ((w.visit now sh).1, (w.visit now sh).2.seat a (w.registry d))
  registered : ∀ d k n, (w.registry d).get? k = some n → d.get? k = some n
  renamed : ∀ d d' (f : ℕ → ℕ), (∀ k, d'.get? k = (d.get? k).map f) →
    ∀ k, (w.registry d').get? k = ((w.registry d).get? k).map f
  whole : w.whole.Lawful hash w
  part : w.part.Lawful hash w
  answer : ∀ b b', w.part.out (w.add w.zero b) = w.part.out (w.add w.zero b') → b = b'

/-! ### The four of them -/

/-- Source: `core/cache.py` `Cache.size` -/
def sizeSweep (α V T : Type) [DecidableEq α] : Sweep α V T where
  β := ℕ
  zero := 0
  add := (· + ·)
  visit _ sh := (sh.backend.size, sh)
  registry d := d
  whole := ⟨.size, .sizing, .number⟩
  part := ⟨.size, .sizing, .number⟩

/-- Source: `core/cache.py` `Cache.expire_all` -/
def expireSweep (α V T : Type) [DecidableEq α] [LinearOrder T] : Sweep α V T where
  β := ℕ
  zero := 0
  add := (· + ·)
  visit now sh := sh.expireShard now
  registry d := d
  whole := ⟨.expireAll, .expiring, .number⟩
  part := ⟨.expireAll, .expiring, .number⟩

/-- Source: `core/cache.py` `Cache.dump` -/
def dumpSweep (α V : Type) {T : Type} [DecidableEq α] [LinearOrder T] [Zero T] [Add T] [Sub T]
    (limit : Option ℤ) : Sweep α V T where
  β := List (EntrySnapshot α V T)
  zero := []
  add := (· ++ ·)
  visit now sh := sh.dumpLocked now
  registry d := d
  whole := ⟨.dump limit, fun i taken => .dumping i taken limit, fun taken => .snapshots (upTo limit taken)⟩
  part := ⟨.dump none, fun i taken => .dumping i taken none, .snapshots⟩

/-- `clear` in cache-only mode.
Source: `core/cache.py` `Cache.clear` -/
def clearSweep (α V T : Type) [DecidableEq α] : Sweep α V T where
  β := Unit
  zero := ()
  add _ _ := ()
  visit _ sh := ((), sh.emptied)
  registry _ := .empty
  whole := ⟨.clear, fun i _ => .clearing i [], fun _ => .done⟩
  part := ⟨.clear, fun i _ => .clearing i [], fun _ => .done⟩

/-- The sweeping call of an operation. -/
def sweepOf : Op α V T → Option (Sweep α V T)
  | .clear => some (clearSweep α V T)
  | .size => some (sizeSweep α V T)
  | .dump limit => some (dumpSweep α V limit)
  | .expireAll => some (expireSweep α V T)
  | _ => none

section Lawful

variable (hash : Key α → ℕ)

theorem lawful_size : (sizeSweep α V T).Lawful hash := by
  have hrounds : Rounds.Lawful hash (sizeSweep α V T) ⟨.size, .sizing, .number⟩ :=
    { key := rfl
      enter := fun s c hopen => threadStep_entering hopen rfl (by simp) c _
      start := fun s c => rfl
      step := fun s c i b _ => ⟨s, by simp [threadStep, clientStep, sizeSweep], .refl s,
        (Function.update_eq_self i s.shards).symm⟩
      stop := fun s c b _ => by simp [threadStep, clientStep]
      visits := fun i j b => rfl
      going := fun j b result h => by cases h }
  exact ⟨fun _ _ _ _ => rfl, fun d k n h => h, fun d d' f h => h, hrounds, hrounds,
    fun (b b' : ℕ) h => Nat.add_left_cancel (Result.number.inj h)⟩

theorem lawful_expire : (expireSweep α V T).Lawful hash := by
  have hrounds : Rounds.Lawful hash (expireSweep α V T) ⟨.expireAll, .expiring, .number⟩ :=
    { key := rfl
      enter := fun s c hopen => threadStep_entering hopen rfl (by simp) c _
      start := fun s c => rfl
      step := fun s c i b _ => ⟨s.setShard i ((s.shards i).expireShard s.now).2,
        by simp [threadStep, clientStep, expireSweep], .setShard s i _, rfl⟩
      stop := fun s c b _ => by simp [threadStep, clientStep]
      visits := fun i j b => rfl
      going := fun j b result h => by cases h }
  exact ⟨fun now sh a d => CacheShard.expireShard_seat sh a d now, fun d k n h => h, fun d d' f h => h, hrounds,
    hrounds, fun (b b' : ℕ) h => Nat.add_left_cancel (Result.number.inj h)⟩

theorem lawful_dump (limit : Option ℤ) : (dumpSweep α V limit : Sweep α V T).Lawful hash := by
  have hrounds : ∀ (bound : Option ℤ) (out : List (EntrySnapshot α V T) → Result α V T),
      (∀ taken, out taken = .snapshots (upTo bound taken)) →
      Rounds.Lawful hash (dumpSweep α V limit : Sweep α V T)
        ⟨.dump bound, fun i taken => .dumping i taken bound, out⟩ := by
    intro bound out hout
    have hstop : ∀ {cfg : AcceptedConfig T} (s : Shared α V cfg) (c : Choice α V) (taken : List (EntrySnapshot α V T)),
        threadStep hash s c (.dumping cfg.shardCount taken bound) = some (s, Thread.finished (out taken)) := by
      intro cfg s c taken
      rw [hout]
      simp [threadStep, clientStep]
    exact
      { key := rfl
        enter := fun s c hopen => threadStep_entering hopen rfl (by simp) c _
        start := fun s c => rfl
        step := fun s c i b _ => ⟨s.setShard i ((s.shards i).dumpLocked s.now).2,
          by simp [threadStep, clientStep, dumpSweep], .setShard s i _, rfl⟩
        stop := fun s c b _ => hstop s c b
        visits := fun i j b => rfl
        going := fun j b result h => by cases h }
  exact ⟨fun now sh a d => CacheShard.dumpLocked_seat sh a d now, fun d k n h => h, fun d d' f h => h,
    hrounds limit _ fun _ => rfl, hrounds none _ fun _ => rfl, fun b b' h => Result.snapshots.inj h⟩

/-- The section of a clear in cache-only mode. -/
theorem clearSection_cacheOnly {cfg : AcceptedConfig T} (hmode : cfg.writeMode = .cacheOnly) (s : Shared α V cfg)
    (i : Fin cfg.shardCount) (ok : Key α → Bool) :
    s.Beside (s.clearSection i ok).1 ∧
      (s.clearSection i ok).1.shards = Function.update s.shards i (s.shards i).emptied ∧
      (s.clearSection i ok).2 = ([], false) := by
  have hclear := (s.shards i).clearLocked_of_cacheOnly hmode s.source ok
  refine ⟨⟨rfl, rfl, rfl, rfl, rfl, ?_, rfl, rfl⟩, ?_, ?_⟩
  · show ((s.shards i).clearLocked cfg.toCacheConfig s.source ok).source = s.source
    rw [hclear]
  · show Function.update s.shards i ((s.shards i).clearLocked cfg.toCacheConfig s.source ok).shard = _
    rw [hclear]
  · simp [Shared.clearSection, hclear, ticketsFrom]

theorem lawful_clear : (clearSweep α V T).Lawful hash := by
  have hrounds : Rounds.Lawful hash (clearSweep α V T) ⟨.clear, fun i _ => .clearing i [], fun _ => .done⟩ :=
    { key := rfl
      enter := fun s c hopen => threadStep_entering hopen rfl (by simp) c _
      start := fun s c => rfl
      step := fun s c i b hmode => by
        obtain ⟨hbeside, hshards, hquiet⟩ := clearSection_cacheOnly hmode s i c.ok
        refine ⟨(s.clearSection i c.ok).1, ?_, hbeside, hshards⟩
        simp [threadStep, clientStep, hquiet]
      stop := fun s c b _ => by simp [threadStep, clientStep, enqueueOr, Caller.count, Caller.returned]
      visits := fun i j b => rfl
      going := fun j b result h => by cases h }
  refine ⟨fun now sh a d => ?_, fun d k n h => ?_, fun d d' f h k => rfl, hrounds, hrounds, fun b b' h => rfl⟩
  · simp [clearSweep]
  · cases h

/-- **The four are lawful**, and the calls that are compared with them are these calls, a `dump` without its
limit. -/
theorem lawful_sweepOf {op : Op α V T} {w : Sweep α V T} (h : sweepOf op = some w) :
    w.Lawful hash ∧ w.whole.op = op := by
  cases op with
  | clear =>
      cases h
      exact ⟨lawful_clear hash, rfl⟩
  | size =>
      cases h
      exact ⟨lawful_size hash, rfl⟩
  | dump limit =>
      cases h
      exact ⟨lawful_dump hash limit, rfl⟩
  | expireAll =>
      cases h
      exact ⟨lawful_expire hash, rfl⟩
  | _ => cases h

end Lawful

/-- **A visited shard** and its twin stay twins, and the section answers the same in both. -/
theorem Twin.visit {cfg : AcceptedConfig T} {hash : Key α → ℕ} {i : Fin cfg.shardCount}
    {os : List (Fin cfg.shardCount)} {s s' : Shared α V cfg} {x x' : Shared α V (cfg.single i)}
    (h : Twin os i s x) {w : Sweep α V T} (hlaw : w.Lawful hash) (hnow : s'.now = s.now)
    (hlife : s'.lifecycle = s.lifecycle) (hflights : s'.flights = s.flights)
    (hshards : s'.shards = Function.update s.shards i (w.visit s.now (s.shards i)).2) (hnow' : x'.now = x.now)
    (hlife' : x'.lifecycle = x.lifecycle) (hflights' : x'.flights = x.flights)
    (hshards' : x'.shards = Function.update x.shards (only cfg i) (w.visit x.now (x.shards (only cfg i))).2) :
    Twin os i s' x' ∧ (w.visit x.now (x.shards (only cfg i))).1 = (w.visit s.now (s.shards i)).1 := by
  obtain ⟨d, hd, hreg⟩ := h.shard
  have hkeep : (w.visit s.now (s.shards i)).2.singleflight = w.registry (s.shards i).singleflight := by
    have hself := hlaw.seat s.now (s.shards i) (s.shards i).index (s.shards i).singleflight
    exact congrArg (fun r : w.β × CacheShard α V T => r.2.singleflight) hself
  rw [h.now_eq, hd, hlaw.seat] at hshards' ⊢
  refine ⟨h.sectioned hnow hlife hflights hshards hnow' hlife' hflights' hshards' (fun k n hk => ?_) fun k => ?_,
    rfl⟩
  · rw [hkeep] at hk
    exact h.registered k n (hlaw.registered _ k n hk)
  · rw [hkeep]
    exact hlaw.renamed _ _ _ hreg k

/-- The point before the section on a shard has to do with this shard only. -/
theorem Rounds.Lawful.visits_shard {hash : Key α → ℕ} {w : Sweep α V T} {r : Rounds α V T w.β} (h : r.Lawful hash w)
    {n : ℕ} (i j : Fin n) (b : w.β) : (r.point j b).visits i = decide (i = j) := by
  rw [h.visits, decide_eq_decide]
  constructor
  · rintro (hij | hij)
    · exact Fin.ext hij.symm
    · exact absurd j.2 (not_lt.mpr hij)
  · rintro rfl
    exact .inl rfl

/-! ### What was collected -/

/-- What the sections on the first `j` shards answered, put together. -/
def Sweep.total (w : Sweep α V T) {n : ℕ} (answers : Fin n → w.β) (j : ℕ) : w.β :=
  ((List.finRange n).take j).foldl (fun b i => w.add b (answers i)) w.zero

section Total

variable {w : Sweep α V T} {n : ℕ}

@[simp] theorem total_zero (answers : Fin n → w.β) : w.total answers 0 = w.zero := rfl

/-- One shard more. -/
theorem total_succ (answers : Fin n → w.β) (i : Fin n) :
    w.total answers (i + 1) = w.add (w.total answers i) (answers i) := by
  have htake : (List.finRange n).take (i + 1) = (List.finRange n).take i ++ [i] := by
    rw [List.take_add_one, List.getElem?_eq_getElem (by simp)]
    simp
  rw [Sweep.total, htake, List.foldl_append]
  rfl

/-- The shards that come later do not count. -/
theorem total_congr {answers answers' : Fin n → w.β} {j : ℕ} (h : ∀ i : Fin n, i.1 < j → answers i = answers' i) :
    w.total answers j = w.total answers' j := by
  induction j with
  | zero => rfl
  | succ j ih =>
      have hrest := ih fun i hi => h i (hi.trans (Nat.lt_succ_self j))
      rcases Nat.lt_or_ge j n with hj | hj
      · have hsucc := total_succ (w := w) answers ⟨j, hj⟩
        have hsucc' := total_succ (w := w) answers' ⟨j, hj⟩
        simp only at hsucc hsucc'
        rw [hsucc, hsucc', hrest, h ⟨j, hj⟩ (Nat.lt_succ_self j)]
      · have hall : ∀ (a : Fin n → w.β), w.total a (j + 1) = w.total a j := by
          intro a
          rw [Sweep.total, Sweep.total, List.take_of_length_le (by simp; omega), List.take_of_length_le (by simp; omega)]
        rw [hall, hall, hrest]

/-- The answer of one shard more. -/
theorem total_update (answers : Fin n → w.β) (j : Fin n) (answer : w.β) :
    w.total (Function.update answers j answer) (j + 1) = w.add (w.total answers j) answer := by
  have hbefore : w.total (Function.update answers j answer) j = w.total answers j :=
    total_congr fun i hi => Function.update_of_ne (fun heq => absurd (congrArg Fin.val heq) hi.ne) _ _
  rw [total_succ, hbefore, Function.update_self]

/-- All shards. -/
theorem total_all (answers : Fin n → w.β) :
    w.total answers n = (List.finRange n).foldl (fun b i => w.add b (answers i)) w.zero := by
  rw [Sweep.total, List.take_of_length_le (by simp)]

end Total

end CacheLab
