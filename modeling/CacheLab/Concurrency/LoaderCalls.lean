import CacheLab.Concurrency.LockOrder

/-!
# Loaders that call the cache

A loader is the caller's code. It runs in the thread that needs its value, a leader of `get_or_compute` or a worker
with a `PreloadKey`, and it may call the cache. The thread holds no lock at that moment, so such a call is a thread of
its own, and the thread that runs the loader, its host, stands still until the call is over.

* `LoaderSystem` is a system with locks and a note of the calls that loaders made, `loaderStep` its step: a loader
  makes one call at a time (`nested`), and its host moves on when the call is over.
* `onJob` says of a thread that it is a worker, or a call for the sake of a worker's job.
* `Nested` is what holds of the notes in every run.
-/

set_option linter.unusedSectionVars false

namespace CacheLab

open WaitFor

variable {α V T : Type} [DecidableEq α] [LinearOrder T] [Zero T] [Add T] [Sub T]

variable {cfg : AcceptedConfig T} {hash : Key α → ℕ}

/-- A call that a loader made: the thread that runs the loader, the thread of the call, and whether it is made for the
sake of a job of a worker. -/
structure LoaderCall where
  host : ℕ
  call : ℕ
  forJob : Bool
  deriving DecidableEq

/-- A system with locks, and the calls that loaders made. -/
structure LoaderSystem (α V : Type) {T : Type} [DecidableEq α] [LinearOrder T] [Zero T]
    (cfg : AcceptedConfig T) extends LockSystem α V cfg where
  calls : List LoaderCall

/-- A step: one of the system with locks, or a call that a loader makes. -/
inductive LoaderLabel (α V T : Type)
  | lock (label : LockLabel α V T)
  | nested (host : ℕ) (op : Op α V T)

/-- The points at which a thread runs its loader.
Source: `core/cache.py` `Cache.get_or_compute`, `Cache._handle_job` -/
def Thread.loads : Thread α V T → Bool
  | .loading _ _ _ => true
  | .handling (.preloadKey _ _ _) => true
  | _ => false

/-- The thread whose lock action or step this is. -/
def LockLabel.mover : LockLabel α V T → Option ℕ
  | .move i _ _ => some i
  | _ => none

namespace LockSystem

/-- The thread is at such a point, with no lock action in front of its step. -/
def atLoader (s : LockSystem α V cfg) (i : ℕ) : Bool :=
  s.sys.threads[i]?.any Thread.loads && s.locks[i]?.any fun t => decide (t.todo = [])

/-- The call of the thread is over. -/
def isOver (s : LockSystem α V cfg) (i : ℕ) : Bool :=
  s.sys.threads[i]?.any Thread.isFinished && s.locks[i]?.any fun t => decide (t.todo = [])

end LockSystem

namespace LoaderSystem

/-- A fresh cache. -/
def initial (cfg : AcceptedConfig T) (now : T) (src : Source α V) : LoaderSystem α V cfg :=
  ⟨LockSystem.initial cfg now src, []⟩

/-- A worker, or a call for the sake of a job of a worker. -/
def onJob (s : LoaderSystem α V cfg) (i : ℕ) : Bool :=
  s.sys.threads[i]?.any (fun th => decide (th.role = .worker)) || s.calls.any fun x => x.call == i && x.forJob

/-- The thread stands still for a call that its loader made. -/
def suspended (s : LoaderSystem α V cfg) (i : ℕ) : Bool :=
  s.calls.any fun x => x.host == i && !s.isOver x.call

end LoaderSystem

/-- One step of the system with the calls of the loaders. -/
def loaderStep (cfg : AcceptedConfig T) (hash : Key α → ℕ) (s : LoaderSystem α V cfg) :
    LoaderLabel α V T → Option (LoaderSystem α V cfg)
  | .lock l =>
      if l.mover.any s.suspended then none
      else (lockStep cfg hash s.toLockSystem l).map fun s' => ⟨s', s.calls⟩
  | .nested i op =>
      if s.atLoader i && !s.suspended i then
        (lockStep cfg hash s.toLockSystem (.env (.call op))).map fun s' =>
          ⟨s', s.calls ++ [⟨i, s.sys.threads.length, s.onJob i⟩]⟩
      else none

/-- A run of the system with the calls of the loaders. -/
def loaderExec (cfg : AcceptedConfig T) (hash : Key α → ℕ) (s : LoaderSystem α V cfg)
    (ls : List (LoaderLabel α V T)) : Option (LoaderSystem α V cfg) :=
  Transition.run (loaderStep cfg hash) s ls

/-- What a step can be. -/
theorem loaderStep_cases {s s' : LoaderSystem α V cfg} {l : LoaderLabel α V T}
    (h : loaderStep cfg hash s l = some s') :
    (∃ l', l = .lock l' ∧ (∀ i, l'.mover = some i → s.suspended i = false) ∧
        lockStep cfg hash s.toLockSystem l' = some s'.toLockSystem ∧ s'.calls = s.calls) ∨
      ∃ i op, l = .nested i op ∧ s.atLoader i = true ∧ s.suspended i = false ∧
        lockStep cfg hash s.toLockSystem (.env (.call op)) = some s'.toLockSystem ∧
        s'.calls = s.calls ++ [⟨i, s.sys.threads.length, s.onJob i⟩] := by
  cases l with
  | lock l =>
      simp only [loaderStep] at h
      split_ifs at h with hfree
      obtain ⟨s₁, hs₁, rfl⟩ := Option.map_eq_some_iff.mp h
      refine .inl ⟨l, rfl, ?_, hs₁, rfl⟩
      intro i hi
      simpa [hi] using hfree
  | nested i op =>
      simp only [loaderStep] at h
      split_ifs at h with hready
      obtain ⟨s₁, hs₁, rfl⟩ := Option.map_eq_some_iff.mp h
      rw [Bool.and_eq_true, Bool.not_eq_true'] at hready
      exact .inr ⟨i, op, rfl, hready.1, hready.2, hs₁, rfl⟩

/-- The step of the system with locks behind a step. -/
def LoaderLabel.plain : LoaderLabel α V T → LockLabel α V T
  | .lock l => l
  | .nested _ op => .env (.call op)

/-- Every step is one of the system with locks. -/
theorem lockStep_of_loaderStep {s s' : LoaderSystem α V cfg} {l : LoaderLabel α V T}
    (h : loaderStep cfg hash s l = some s') : lockStep cfg hash s.toLockSystem l.plain = some s'.toLockSystem := by
  rcases loaderStep_cases h with ⟨l', rfl, -, hs, -⟩ | ⟨i, op, rfl, -, -, hs, -⟩
  · exact hs
  · exact hs

/-- **Runs with the calls of loaders are runs with locks.** -/
theorem loaderExec_refines {s s' : LoaderSystem α V cfg} {ls : List (LoaderLabel α V T)}
    (h : loaderExec cfg hash s ls = some s') :
    lockExec cfg hash s.toLockSystem (ls.map LoaderLabel.plain) = some s'.toLockSystem := by
  induction ls generalizing s with
  | nil =>
      cases h
      rfl
  | cons l ls ih =>
      obtain ⟨s₁, hs₁, hrest⟩ := Transition.run_cons_eq_some.mp h
      exact Transition.run_cons_eq_some.mpr ⟨_, lockStep_of_loaderStep hs₁, ih hrest⟩

/-! ### What holds of the calls -/

/-- What a step with locks leaves of a thread that does not move. -/
theorem lockStep_still {s s' : LockSystem α V cfg} {l : LockLabel α V T} (hrank : Ranked hash s)
    (h : lockStep cfg hash s l = some s') {j : ℕ} (hj : j < s.sys.threads.length) (hmover : l.mover ≠ some j) :
    s'.sys.threads[j]? = s.sys.threads[j]? ∧ s'.locks[j]? = s.locks[j]? := by
  have hj' : j < s.locks.length := hrank.length_eq.symm ▸ hj
  rcases lockStep_cases h with ⟨l', -, hadmits, hstep, hlocks, -⟩ | ⟨observer, -, hsys, hlocks, -⟩ |
    ⟨k, t, t', -, -, -, hsys, hlocks, -⟩ | ⟨i, c, skip, t, th, th', rfl, -, -, -, -, hthreads, hlocks, -⟩ |
    ⟨i, c, skip, t, t', rfl, -, -, -, hsys, hlocks, -⟩
  · obtain ⟨new, -, hth, hlocks⟩ := lockStep_env hadmits hstep hlocks
    rw [hth, hlocks, List.getElem?_append_left hj, List.getElem?_append_left hj']
    exact ⟨rfl, rfl⟩
  · rw [hsys, hlocks]
    exact ⟨rfl, rfl⟩
  · rw [hsys, hlocks]
    exact ⟨rfl, rfl⟩
  · have hne : i ≠ j := fun heq => hmover (congrArg some heq)
    rw [hthreads, hlocks, List.getElem?_set_ne hne, List.getElem?_set_ne hne]
    exact ⟨rfl, rfl⟩
  · have hne : i ≠ j := fun heq => hmover (congrArg some heq)
    rw [hsys, hlocks, List.getElem?_set_ne hne]
    exact ⟨rfl, rfl⟩

/-- Threads come, none goes. -/
theorem lockStep_length_le {s s' : LockSystem α V cfg} {l : LockLabel α V T}
    (h : lockStep cfg hash s l = some s') : s.sys.threads.length ≤ s'.sys.threads.length := by
  rcases lockStep_cases h with ⟨l', -, hadmits, hstep, hlocks, -⟩ | ⟨observer, -, hsys, -⟩ |
    ⟨k, t, t', -, -, -, hsys, -⟩ | ⟨i, c, skip, t, th, th', -, -, -, -, -, hthreads, -⟩ |
    ⟨i, c, skip, t, t', -, -, -, -, hsys, -⟩
  · obtain ⟨new, -, hth, -⟩ := lockStep_env hadmits hstep hlocks
    rw [hth, List.length_append]
    exact Nat.le_add_right _ _
  · rw [hsys]
  · rw [hsys]
  · rw [hthreads, List.length_set]
  · rw [hsys]

/-- A worker stays a worker, and nobody else becomes one. -/
theorem lockStep_worker {s s' : LockSystem α V cfg} {l : LockLabel α V T} (hrank : Ranked hash s)
    (hcontrol : ∀ c (i : ℕ) (th th' : Thread α V T) sh', s.sys.threads[i]? = some th →
      threadStep hash s.sys.shared c th = some (sh', th') → Control s.sys.shared th sh' th')
    (h : lockStep cfg hash s l = some s') {j : ℕ} (hj : j < s.sys.threads.length) :
    s'.sys.threads[j]?.any (fun th => decide (th.role = .worker)) =
      s.sys.threads[j]?.any (fun th => decide (th.role = .worker)) := by
  by_cases hmover : l.mover = some j
  · rcases lockStep_cases h with ⟨l', rfl, -⟩ | ⟨observer, rfl, -⟩ | ⟨k, t, t', rfl, -⟩ |
      ⟨i, c, skip, t, th, th', rfl, -, -, hth, hstep, hthreads, -⟩ | ⟨i, c, skip, t, t', -, -, -, -, hsys, -⟩
    · cases hmover
    · cases hmover
    · cases hmover
    · obtain rfl : i = j := Option.some.inj hmover
      have hset : s'.sys.threads[i]? = some th' := by
        rw [hthreads]
        exact List.getElem?_set_self hj
      have hrole : th'.role = .worker ↔ th.role = .worker := by
        rcases (hcontrol c i th th' _ hth hstep).role with hrole | ⟨hrole, result, rfl⟩
        · rw [hrole]
        · rw [hrole]
          exact ⟨(fun h => by cases h), (fun h => by cases h)⟩
      simp only [hset, hth, Option.any_some, hrole]
    · rw [hsys]
  · rw [(lockStep_still hrank h hj hmover).1]

/-- A call that is over stays over. -/
theorem isOver_of_lockStep {s s' : LockSystem α V cfg} {l : LockLabel α V T} (hrank : Ranked hash s)
    (h : lockStep cfg hash s l = some s') {j : ℕ} (hover : s.isOver j = true) : s'.isOver j = true := by
  rw [LockSystem.isOver, Bool.and_eq_true, Option.any_eq_true, Option.any_eq_true] at hover
  obtain ⟨⟨th, hth, hfinished⟩, t, ht, htodo⟩ := hover
  have hj := (List.getElem?_eq_some_iff.mp hth).1
  have hmover : l.mover ≠ some j := by
    intro hmover
    rcases lockStep_cases h with ⟨l', rfl, -⟩ | ⟨observer, rfl, -⟩ | ⟨k, u, u', rfl, -⟩ |
      ⟨i, c, skip, u, x, x', rfl, -, -, hx, hstep, -⟩ | ⟨i, c, skip, u, u', rfl, hu, hne, -⟩
    · cases hmover
    · cases hmover
    · cases hmover
    · obtain rfl : i = j := Option.some.inj hmover
      obtain rfl : x = th := Option.some.inj (hx.symm.trans hth)
      cases x <;> first | (cases hfinished; done) | cases hstep
    · obtain rfl : i = j := Option.some.inj hmover
      obtain rfl : u = t := Option.some.inj (hu.symm.trans ht)
      exact hne (of_decide_eq_true htodo)
  obtain ⟨hth', ht'⟩ := lockStep_still hrank h hj hmover
  rw [LockSystem.isOver, hth', ht', hth, ht]
  simp [hfinished, of_decide_eq_true htodo]

namespace LoaderSystem

/-- **The calls that loaders made**: a call is younger than its host, it is made for the sake of a job if its host is,
and while it is under way its host stands at its loader. -/
structure Nested (s : LoaderSystem α V cfg) : Prop where
  order : ∀ x ∈ s.calls, x.host < x.call ∧ x.call < s.sys.threads.length
  job : ∀ x ∈ s.calls, s.onJob x.host = true → s.onJob x.call = true
  host : ∀ x ∈ s.calls, s.isOver x.call = false → s.atLoader x.host = true

/-- No calls. -/
theorem nested_initial (now : T) (src : Source α V) : Nested (initial cfg now src) :=
  ⟨List.forall_mem_nil _, List.forall_mem_nil _, List.forall_mem_nil _⟩

/-- Who is at work for a job stays so. -/
theorem onJob_of_loaderStep {s s' : LoaderSystem α V cfg} {l : LoaderLabel α V T}
    (hrank : Ranked hash s.toLockSystem)
    (hcontrol : ∀ c (i : ℕ) (th th' : Thread α V T) sh', s.sys.threads[i]? = some th →
      threadStep hash s.sys.shared c th = some (sh', th') → Control s.sys.shared th sh' th')
    (hs : loaderStep cfg hash s l = some s') (j : ℕ) (hj : j < s.sys.threads.length) : s'.onJob j = s.onJob j := by
  rcases loaderStep_cases hs with ⟨l', -, -, hlock, hcalls⟩ | ⟨i, op, -, -, -, hlock, hcalls⟩
  · rw [onJob, onJob, lockStep_worker hrank hcontrol hlock hj, hcalls]
  · rw [onJob, onJob, lockStep_worker hrank hcontrol hlock hj, hcalls]
    have hne : (s.sys.threads.length == j) = false := beq_eq_false_iff_ne.mpr hj.ne'
    simp [hne]

/-- A step leaves the calls that were there as they were. -/
theorem Nested.old {s s' : LoaderSystem α V cfg} {l : LockLabel α V T} (h : s.Nested)
    (hrank : Ranked hash s.toLockSystem)
    (hfree : ∀ i, l.mover = some i → s.suspended i = false)
    (hs : lockStep cfg hash s.toLockSystem l = some s'.toLockSystem) :
    ∀ x ∈ s.calls, (x.host < x.call ∧ x.call < s'.sys.threads.length) ∧
      (s'.isOver x.call = false → s'.atLoader x.host = true) := by
  intro x hx
  obtain ⟨hlt, hlength⟩ := h.order x hx
  refine ⟨⟨hlt, hlength.trans_le (lockStep_length_le hs)⟩, ?_⟩
  intro hunder
  have hunder₀ : s.isOver x.call = false := by
    by_contra hover
    rw [Bool.not_eq_false] at hover
    rw [isOver_of_lockStep hrank hs hover] at hunder
    cases hunder
  have hmover : l.mover ≠ some x.host := by
    intro hmover
    have hnot := hfree x.host hmover
    rw [suspended, List.any_eq_false] at hnot
    exact hnot x hx (by simp [hunder₀])
  obtain ⟨hth, ht⟩ := lockStep_still hrank hs (hlt.trans hlength) hmover
  rw [LockSystem.atLoader, hth, ht]
  exact h.host x hx hunder₀

/-- **Every step keeps the notes right.** -/
theorem Nested.step {s s' : LoaderSystem α V cfg} {l : LoaderLabel α V T} (h : s.Nested)
    (hrank : Ranked hash s.toLockSystem)
    (hcontrol : ∀ c (i : ℕ) (th th' : Thread α V T) sh', s.sys.threads[i]? = some th →
      threadStep hash s.sys.shared c th = some (sh', th') → Control s.sys.shared th sh' th')
    (hs : loaderStep cfg hash s l = some s') : s'.Nested := by
  have hjob := onJob_of_loaderStep hrank hcontrol hs
  rcases loaderStep_cases hs with ⟨l', -, hfree, hlock, hcalls⟩ | ⟨i, op, -, hat, -, hlock, hcalls⟩
  · have hold := h.old hrank hfree hlock
    refine ⟨?_, ?_, ?_⟩
    · rw [hcalls]
      exact fun x hx => (hold x hx).1
    · rw [hcalls]
      intro x hx
      obtain ⟨hlt, hlength⟩ := h.order x hx
      rw [hjob _ (hlt.trans hlength), hjob _ hlength]
      exact h.job x hx
    · rw [hcalls]
      exact fun x hx => (hold x hx).2
  · have hold := h.old hrank (fun _ hmover => by cases hmover) hlock
    have hi : i < s.sys.threads.length := by
      rw [LockSystem.atLoader, Bool.and_eq_true, Option.any_eq_true] at hat
      obtain ⟨⟨th, hth, -⟩, -⟩ := hat
      exact (List.getElem?_eq_some_iff.mp hth).1
    have hlen : s'.sys.threads.length = s.sys.threads.length + 1 := by
      simp only [lockStep, LockSystem.admits, if_true, CacheLab.step, Option.map_some] at hlock
      rw [← Option.some.inj hlock]
      simp
    refine ⟨?_, ?_, ?_⟩
    · rw [hcalls]
      intro x hx
      rcases List.mem_append.mp hx with hx | hx
      · exact (hold x hx).1
      · obtain rfl := List.mem_singleton.mp hx
        exact ⟨hi, hlen ▸ Nat.lt_succ_self _⟩
    · intro x hx' hhost
      have hx := hcalls ▸ hx'
      rcases List.mem_append.mp hx with hx | hx
      · obtain ⟨hlt, hlength⟩ := h.order x hx
        rw [hjob _ (hlt.trans hlength)] at hhost
        rw [hjob _ hlength]
        exact h.job x hx hhost
      · obtain rfl := List.mem_singleton.mp hx
        rw [hjob i hi] at hhost
        refine Bool.or_eq_true_iff.mpr (.inr (List.any_eq_true.mpr ⟨_, hx', ?_⟩))
        rw [hhost, beq_self_eq_true]
        rfl
    · rw [hcalls]
      intro x hx
      rcases List.mem_append.mp hx with hx | hx
      · exact (hold x hx).2
      · obtain rfl := List.mem_singleton.mp hx
        intro _
        obtain ⟨hth, ht⟩ := lockStep_still hrank hlock hi fun hmover => by cases hmover
        rw [LockSystem.atLoader, hth, ht]
        exact hat

end LoaderSystem

end CacheLab
