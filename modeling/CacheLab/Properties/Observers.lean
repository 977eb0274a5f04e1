import CacheLab.Properties.TimedReads
import CacheLab.System.SourceDict
import CacheLab.Workloads.Calls

/-!
# The observers of presence

Five public calls let a caller find out whether a key is in the cache: `contains`, `inspect`, `dump`, the
answer of `delete`, and `size` through the length of the dump. Each is asked alone, in the same state.

* `contains`, `inspect` and `dump` go by the deadline: they report the key exactly while its entry is live
  (`answers_contains`, `answers_inspect`, `answers_dump`).
* `delete` and `size` ask the raw store: an entry past its deadline that nobody has touched still counts
  (`answers_delete`, `answers_size`).
* All but `dump` look for the key in its shard. A dump comes from all shards, and a key occurs in it if a key of the
  dump is equal to it, wherever that one is stored (`KeyClasses`).

So they agree exactly when the cache stores no expired entry, and a key to which a stored key is equal is stored
itself (`observersAgree_iff`).
-/

set_option linter.unusedSectionVars false

namespace CacheLab

variable {α V T : Type} [DecidableEq α] [LinearOrder T] [Zero T] [Add T] [Sub T]

variable {cfg : AcceptedConfig T} {hash : Key α → ℕ}

/-- A key is stored and not past its deadline. -/
def Shared.Live (hash : Key α → ℕ) (s : Shared α V cfg) (k : Key α) : Prop :=
  ∃ e, (s.home hash k).backend.getEntry k = some e ∧ e.isExpired s.now = false

/-- Every stored entry is live. -/
def Shared.AllLive (s : Shared α V cfg) : Prop :=
  ∀ i, ∀ e ∈ (s.shards i).backend.entryList, e.isExpired s.now = false

instance (s : Shared α V cfg) : Decidable s.AllLive :=
  inferInstanceAs (Decidable (∀ i, ∀ e ∈ (s.shards i).backend.entryList, e.isExpired s.now = false))

/-- A `delete` that ends with an exception: its source call fails, or the queue does not take its job. -/
def Shared.RefusesDelete (c : Choice α V) (s : Shared α V cfg) (k : Key α) : Prop :=
  (cfg.writeMode = .writeThrough ∧ c.ok k = false) ∨
    (cfg.writeMode = .writeBack ∧ (cfg.rejectsPuts = true ∨ s.queue.full cfg.queueSize = true))

/-- A key to which a stored key is equal is stored itself. -/
def Shared.StoresEqual {κ : Type} (py : KeyClasses cfg hash κ) (s : Shared α V cfg) (k : Key α) : Prop :=
  ∀ k', py.ident k' = py.ident k → ((s.home hash k').backend.getEntry k').isSome →
    ((s.home hash k).backend.getEntry k).isSome

/-- The observers, each asked alone in the state `s`, agree on the presence of `k`. -/
structure ObserversAgree {κ : Type} (py : KeyClasses cfg hash κ) (c : Choice α V) (s : Shared α V cfg) (k : Key α) :
    Prop where
  inspect_iff : Answers hash c s (.contains k) (.flag true) ↔
    ∃ e, Answers hash c s (.inspect k) (.snapshot (some e))
  dump_iff : Answers hash c s (.contains k) (.flag true) ↔
    ∃ d, Answers hash c s (.dump none) (.snapshots d) ∧ ∃ x ∈ d, py.ident x.key = py.ident k
  delete_iff : ¬ s.RefusesDelete c k →
    (Answers hash c s (.contains k) (.flag true) ↔ Answers hash c s (.delete k) (.flag true))
  size_iff : ∀ n, Answers hash c s .size (.number n) ↔
    ∃ d, Answers hash c s (.dump none) (.snapshots d) ∧ d.length = n

section Answers

variable {c : Choice α V} {s : Shared α V cfg} {k : Key α}

/-- A live key is one whose value is visible. -/
theorem Shared.live_iff : s.Live hash k ↔ (visible ((s.home hash k).timed k) s.now).isSome := by
  rw [Option.isSome_iff_exists]
  constructor
  · rintro ⟨e, he, hx⟩
    exact ⟨e.value, visible_timed_iff.mpr ⟨e, he, hx, rfl⟩⟩
  · rintro ⟨v, hv⟩
    obtain ⟨e, he, hx, -⟩ := visible_timed_iff.mp hv
    exact ⟨e, he, hx⟩

/-- `contains` is true for a live key. -/
theorem answers_contains (hopen : s.Open) :
    Answers hash c s (.contains k) (.flag true) ↔ s.Live hash k := by
  rw [answers_iff (call_contains hopen k), CacheShard.readValueLocked_fst, Shared.live_iff,
    Result.flag.injEq]
  exact eq_comm

/-- `inspect` finds a live key. -/
theorem answers_inspect (hopen : s.Open) :
    (∃ e, Answers hash c s (.inspect k) (.snapshot (some e))) ↔ s.Live hash k := by
  simp only [answers_iff (call_inspect hopen k)]
  rw [Shared.live_iff, Option.isSome_iff_exists]
  constructor
  · rintro ⟨e, he⟩
    have he := (Result.snapshot.inj he).symm
    refine ⟨e.value, (inspectLocked_fst_iff _ k s.now e.value).mp ⟨e, he, ?_, rfl⟩⟩
    unfold CacheShard.inspectLocked at he
    obtain ⟨e', he', rfl⟩ := Option.map_eq_some_iff.mp he
    exact InMemoryBackend.keyed _ k e' he'
  · rintro ⟨v, hv⟩
    obtain ⟨e, he, -⟩ := (inspectLocked_fst_iff _ k s.now v).mpr hv
    exact ⟨e, by rw [he]⟩

/-- The dump of a cache, in one list. -/
theorem answers_dump_iff (hopen : s.Open) (d : List (EntrySnapshot α V T)) :
    Answers hash c s (.dump none) (.snapshots d) ↔
      d = s.shardList.flatMap fun sh => (sh.dumpLocked s.now).1 := by
  obtain ⟨s', hcall, -⟩ := call_dump hash c hopen none
  rw [answers_iff hcall]
  exact Result.snapshots.injEq _ _ ▸ Iff.rfl

/-- A key occurs in the dump when a key that is equal to it is live. -/
theorem answers_dump {κ : Type} (py : KeyClasses cfg hash κ) (hopen : s.Open)
    (hs : ∀ i, ShardOk cfg hash i (s.shards i)) :
    (∃ d, Answers hash c s (.dump none) (.snapshots d) ∧ ∃ x ∈ d, py.ident x.key = py.ident k) ↔
      ∃ k', py.ident k' = py.ident k ∧ s.Live hash k' := by
  simp only [answers_dump_iff hopen, exists_eq_left, List.mem_map, List.mem_flatMap, Shared.shardList]
  constructor
  · rintro ⟨x, ⟨_, ⟨i, -, rfl⟩, hx⟩, hident⟩
    have hv := (dumpLocked_fst_iff (s.shards i) x.key s.now x.value).mp ⟨x, hx, rfl, rfl⟩
    obtain ⟨e, he, -⟩ := visible_timed_iff.mp hv
    obtain rfl := (hs i).shardFor_eq he
    exact ⟨x.key, hident, Shared.live_iff.mpr (Option.isSome_iff_exists.mpr ⟨x.value, hv⟩)⟩
  · rintro ⟨k', hident, hlive⟩
    obtain ⟨v, hv⟩ := Option.isSome_iff_exists.mp (Shared.live_iff.mp hlive)
    obtain ⟨x, hx, rfl, -⟩ := (dumpLocked_fst_iff _ k' s.now v).mpr hv
    exact ⟨x, ⟨_, ⟨shardFor cfg hash x.key, List.mem_finRange _, rfl⟩, hx⟩, hident⟩

/-- `delete` answers true for a stored key, live or not. -/
theorem answers_delete (hopen : s.Open) (hrefused : ¬ s.RefusesDelete c k) :
    Answers hash c s (.delete k) (.flag true) ↔ ((s.home hash k).backend.getEntry k).isSome := by
  simp only [Shared.RefusesDelete, not_or, not_and, Bool.not_eq_false, Bool.not_eq_true] at hrefused
  obtain ⟨s', hcall, -⟩ := call_delete hopen k hrefused.1 hrefused.2
  rw [answers_iff hcall, Result.flag.injEq]
  exact eq_comm

/-- `size` counts the stored entries, live or not. -/
theorem answers_size (hopen : s.Open) (n : ℕ) :
    Answers hash c s .size (.number n) ↔ n = (s.shardList.map fun sh => sh.backend.size).sum := by
  obtain ⟨s', hcall, -⟩ := call_size hash c hopen
  rw [answers_iff hcall]
  exact Result.number.injEq _ _ ▸ Iff.rfl

end Answers

/-! ### When they agree -/

/-- A shard stores at least what its dump shows, and just that when no entry is expired. -/
theorem length_dumpLocked (sh : CacheShard α V T) (now : T) :
    (sh.dumpLocked now).1.length ≤ sh.backend.size ∧
      ((sh.dumpLocked now).1.length = sh.backend.size ↔
        ∀ e ∈ sh.backend.entryList, e.isExpired now = false) := by
  have hsize : sh.backend.size = sh.backend.entryList.length := by
    rw [sh.backend.size_eq_length_keys, ← sh.backend.map_key_entryList, List.length_map]
  rw [CacheShard.dumpLocked_fst, List.length_map, hsize]
  refine ⟨List.length_filter_le _ _, ?_⟩
  rw [List.length_filter_eq_length_iff]
  simp

/-- Sums of terms that are bounded one by one are equal when the terms are. -/
theorem sum_map_eq_iff {β : Type} {f g : β → ℕ} {l : List β} (hle : ∀ b ∈ l, f b ≤ g b) :
    (l.map f).sum = (l.map g).sum ↔ ∀ b ∈ l, f b = g b := by
  induction l with
  | nil => simp
  | cons b l ih =>
      have hb := hle b List.mem_cons_self
      have hl : ∀ b ∈ l, f b ≤ g b := fun b hb => hle b (List.mem_cons_of_mem _ hb)
      have hsum : (l.map f).sum ≤ (l.map g).sum := List.sum_le_sum hl
      rw [List.map_cons, List.map_cons, List.sum_cons, List.sum_cons, List.forall_mem_cons, ← ih hl]
      omega

/-- The dump shows as many entries as are stored when all of them are live. -/
theorem length_dump_iff (s : Shared α V cfg) :
    (s.shardList.flatMap fun sh => (sh.dumpLocked s.now).1).length =
        (s.shardList.map fun sh => sh.backend.size).sum ↔ s.AllLive := by
  rw [List.length_flatMap, sum_map_eq_iff fun sh _ => (length_dumpLocked sh s.now).1]
  simp only [Shared.shardList, List.mem_map, List.mem_finRange, true_and, forall_exists_index,
    forall_apply_eq_imp_iff]
  exact forall_congr' fun i => (length_dumpLocked (s.shards i) s.now).2

/-- On an open cache whose entries are all live a stored key is a live one. -/
theorem Shared.AllLive.live_iff {s : Shared α V cfg} (h : s.AllLive) {k : Key α} :
    s.Live hash k ↔ ((s.home hash k).backend.getEntry k).isSome := by
  rw [Option.isSome_iff_exists]
  refine exists_congr fun e => ⟨fun he => he.1, fun he => ⟨he, ?_⟩⟩
  refine h (shardFor cfg hash k) e (InMemoryBackend.mem_entryList.mpr ?_)
  rwa [InMemoryBackend.keyed _ k e he]

/-- Where all entries are live, a key occurs in the dump exactly when it is stored, if it is stored whenever a key is
that is equal to it. -/
theorem Shared.AllLive.exists_live_iff {κ : Type} {py : KeyClasses cfg hash κ} {s : Shared α V cfg} (h : s.AllLive)
    {k : Key α} : (s.Live hash k ↔ ∃ k', py.ident k' = py.ident k ∧ s.Live hash k') ↔ s.StoresEqual py k := by
  simp only [h.live_iff]
  constructor
  · intro hiff k' hident hstored
    exact hiff.mpr ⟨k', hident, hstored⟩
  · intro hstores
    refine ⟨fun hstored => ⟨k, rfl, hstored⟩, ?_⟩
    rintro ⟨k', hident, hstored⟩
    exact hstores k' hident hstored

/-- **The observers agree exactly while nothing expired is stored**, and no key is stored that is equal to one that is
not. In every reachable state, for every key and whatever the environment decides. -/
theorem observersAgree_iff {now : T} {src : Source α V} {ls : List (Label α V T)} {s : System α V cfg}
    (h : exec cfg hash (initial cfg now src) ls = some s) {κ : Type} (py : KeyClasses cfg hash κ) (c : Choice α V)
    (k : Key α) :
    ObserversAgree py c s.shared k ↔ (s.shared.Open → s.shared.AllLive ∧ s.shared.StoresEqual py k) := by
  have hs := (base_exec h).shards
  by_cases hopen : s.shared.Open
  · rw [imp_iff_right hopen]
    constructor
    · intro hagree
      -- the sizes decide
      have hsize := (hagree.size_iff _).mp ((answers_size hopen _).mpr rfl)
      obtain ⟨d, hd, hlen⟩ := hsize
      rw [(answers_dump_iff hopen d).mp hd] at hlen
      have hlive := (length_dump_iff s.shared).mp hlen
      have hdump := hagree.dump_iff
      rw [answers_contains hopen, answers_dump py hopen hs] at hdump
      exact ⟨hlive, hlive.exists_live_iff.mp hdump⟩
    · rintro ⟨hlive, hstores⟩
      refine ⟨?_, ?_, fun hrefused => ?_, fun n => ?_⟩
      · rw [answers_contains hopen, answers_inspect hopen]
      · rw [answers_contains hopen, answers_dump py hopen hs]
        exact hlive.exists_live_iff.mpr hstores
      · rw [answers_contains hopen, answers_delete hopen hrefused, hlive.live_iff]
      · simp only [answers_size hopen, answers_dump_iff hopen, exists_eq_left]
        rw [(length_dump_iff s.shared).mpr hlive, eq_comm]
  · refine iff_of_true ?_ fun ho => absurd ho hopen
    have hshut : ∀ {op : Op α V T} {r : Result α V T}, (∀ flush, op ≠ .close flush) →
        r ≠ .raised .closedCache → ¬ Answers hash c s.shared op r :=
      fun hop hr h => hr (eq_raised_of_not_open hopen hop h)
    refine ⟨?_, ?_, fun _ => ?_, fun n => ?_⟩
    · exact iff_of_false (hshut (by simp) (by simp)) fun ⟨e, he⟩ => hshut (by simp) (by simp) he
    · exact iff_of_false (hshut (by simp) (by simp)) fun ⟨d, hd, _⟩ => hshut (by simp) (by simp) hd
    · exact iff_of_false (hshut (by simp) (by simp)) (hshut (by simp) (by simp))
    · exact iff_of_false (hshut (by simp) (by simp)) fun ⟨d, hd, _⟩ => hshut (by simp) (by simp) hd

/-- A value is put for one second, and nobody touches it until it is past its deadline. -/
def putThenWait : List (Label ℕ ℕ ℕ) :=
  [.call (.put (some 1) 10 (.seconds 1)), .run 0 {}, .run 0 {}, .tick 2]

/-- The observers agree on a value that is stored and live. -/
theorem observersAgree_putThenLook :
    ∃ s, exec (oneEntry .lru .cacheOnly 0 0 0) (fun _ => 0) (initial _ 0 .empty)
        (putThenWait.take 3) = some s ∧
      ObserversAgree (.distinct (oneEntry .lru .cacheOnly 0 0 0) fun _ => 0) {} s.shared (some 1) := by
  have heval : ((exec (oneEntry .lru .cacheOnly 0 0 0) (fun _ => 0) (initial _ 0 .empty)
      (putThenWait.take 3)).map fun s : System ℕ ℕ (oneEntry .lru .cacheOnly 0 0 0) =>
        decide s.shared.AllLive) = some true := by decide +kernel
  obtain ⟨s, hs, hlive⟩ := Option.map_eq_some_iff.mp heval
  refine ⟨s, hs, (observersAgree_iff hs (.distinct _ _) {} (some 1)).mpr fun _ => ⟨of_decide_eq_true hlive, ?_⟩⟩
  intro k' hident hstored
  obtain rfl : k' = some 1 := hident
  exact hstored

/-- **They disagree on an entry past its deadline.** `contains` answers that the key is not there, `delete`
that it was. -/
theorem observers_disagree :
    ∃ s, exec (oneEntry .lru .cacheOnly 0 0 0) (fun _ => 0) (initial _ 0 .empty) putThenWait = some s ∧
      ¬ s.shared.RefusesDelete {} (some 1) ∧
      Answers (fun _ => 0) {} s.shared (.contains (some 1)) (.flag false) ∧
      Answers (fun _ => 0) {} s.shared (.inspect (some 1)) (.snapshot none) ∧
      Answers (fun _ => 0) {} s.shared (.dump none) (.snapshots []) ∧
      Answers (fun _ => 0) {} s.shared (.delete (some 1)) (.flag true) ∧
      Answers (fun _ => 0) {} s.shared .size (.number 1) ∧
      ¬ ObserversAgree (.distinct (oneEntry .lru .cacheOnly 0 0 0) fun _ => 0) {} s.shared (some 1) := by
  have heval : ((exec (oneEntry .lru .cacheOnly 0 0 0) (fun _ => 0) (initial _ 0 .empty)
      putThenWait).map fun s : System ℕ ℕ (oneEntry .lru .cacheOnly 0 0 0) =>
        decide ((call (fun _ => 0) {} s.shared (.contains (some 1))).map Prod.snd = some (Result.flag false) ∧
          (call (fun _ => 0) {} s.shared (.inspect (some 1))).map Prod.snd = some (Result.snapshot none) ∧
          (call (fun _ => 0) {} s.shared (.dump none)).map Prod.snd = some (Result.snapshots []) ∧
          (call (fun _ => 0) {} s.shared (.delete (some 1))).map Prod.snd = some (Result.flag true) ∧
          (call (fun _ => 0) {} s.shared .size).map Prod.snd = some (Result.number 1))) = some true := by
    decide +kernel
  obtain ⟨s, hs, hcalls⟩ := Option.map_eq_some_iff.mp heval
  obtain ⟨hcontains, hinspect, hdump, hdelete, hsize⟩ := of_decide_eq_true hcalls
  have hanswer : ∀ {op : Op ℕ ℕ ℕ} {r : Result ℕ ℕ ℕ},
      (call (fun _ => 0) {} s.shared op).map Prod.snd = some r → Answers (fun _ => 0) {} s.shared op r := by
    intro op r h
    obtain ⟨⟨s', r'⟩, hcall, rfl⟩ := Option.map_eq_some_iff.mp h
    exact ⟨s', hcall⟩
  have hrefused : ¬ s.shared.RefusesDelete {} (some 1) := by
    rintro (⟨hmode, -⟩ | ⟨hmode, -⟩) <;> exact absurd hmode (by decide)
  refine ⟨s, hs, hrefused, hanswer hcontains, hanswer hinspect, hanswer hdump, hanswer hdelete,
    hanswer hsize, fun hagree => ?_⟩
  obtain ⟨s', htrue⟩ := (hagree.delete_iff hrefused).mpr (hanswer hdelete)
  rw [htrue] at hcontains
  cases hcontains

end CacheLab
