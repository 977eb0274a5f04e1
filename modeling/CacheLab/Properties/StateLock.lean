import CacheLab.Storage.StateFile

/-!
# Exclusion on the state file

The lock file excludes as long as nobody unlinks the file of a process that still owns the lock. A waiter
of the acquire loop can: its `stat` comes after its failed create, a `stat` that finds nothing counts as
stale, and the unlink then takes whatever file has come to the path since. `sparesLive` says of a step
that it is no such unlink; `exclusive_of_sparesLive` is the exclusion, and with it that no stored update
is lost, in every run of such steps.

The age of a file is not to blame: `not_isStale_of_found` says that a lock which is held for less than thirty
seconds is never judged stale by its age.
-/

set_option linter.unusedSectionVars false

namespace CacheLab.StateFile

variable {C : Type} {s s' : State C} {p q : ℕ} {ok : Bool} {d d' : Disk C} {proc proc' : Process C}

/-! ### What a call can do -/

/-- The calls of a process. -/
theorem Process.next_cases (h : proc.next p ok d = some (d', proc')) :
    proc'.invocation = proc.invocation ∧
      ((d' = d ∧ proc'.acquiredAt = proc.acquiredAt ∧
          (proc'.phase.owns = true → proc.phase.owns = true) ∧
          (ok = true → proc.phase.owns = true → proc'.phase.owns = true) ∧
          (∀ time content, proc'.phase = .loaded time content → content = d.content) ∧
          ∀ deadline time, proc'.phase = .statting deadline time → time = d.now) ∨
        ((∃ deadline, proc.phase = .opening deadline) ∧ d.lock = none ∧
          d' = { d with lock := some ⟨p, d.now⟩ } ∧ proc'.phase = .writing ∧ proc'.acquiredAt = d.now) ∨
        (proc.phase = .writing ∧ d' = d.writePayload p ∧ proc'.phase = .loading ∧
          proc'.acquiredAt = proc.acquiredAt) ∨
        ((∃ deadline, proc.phase = .unlinking deadline ∧ proc'.phase = .waiting deadline) ∧
          d' = d.unlink ok ∧ proc'.acquiredAt = proc.acquiredAt) ∨
        (∃ time content, proc.phase = .loaded time content ∧
          d' = d.save (proc.invocation.effect time d.now) content ∧ proc'.phase = .leaving ∧
          proc'.acquiredAt = proc.acquiredAt) ∨
        (proc.phase = .releasing ∧ d' = d.unlink ok ∧ proc'.phase = .ended ∧
          proc'.acquiredAt = proc.acquiredAt)) := by
  cases hphase : proc.phase with
  | opening deadline =>
      simp only [Process.next, hphase] at h
      split at h
      · cases h
        exact ⟨rfl, .inl ⟨rfl, rfl, nofun, fun _ => nofun, nofun, nofun⟩⟩
      · cases h
        exact ⟨rfl, .inl ⟨rfl, rfl, nofun, fun _ => nofun, nofun, nofun⟩⟩
      · cases h
        exact ⟨rfl, .inr (.inl ⟨⟨deadline, rfl⟩, ‹_›, rfl, rfl, rfl⟩)⟩
  | writing =>
      simp only [Process.next, hphase] at h
      split_ifs at h
      · cases h
        exact ⟨rfl, .inr (.inr (.inl ⟨rfl, rfl, rfl, rfl⟩))⟩
      · cases h
        exact ⟨rfl, .inl ⟨rfl, rfl, nofun, fun hok => absurd hok ‹_›, nofun, nofun⟩⟩
  | judging deadline =>
      simp only [Process.next, hphase] at h
      cases h
      refine ⟨rfl, .inl ⟨rfl, rfl, nofun, fun _ => nofun, nofun, ?_⟩⟩
      intro deadline' time htime
      cases htime
      rfl
  | statting deadline time =>
      simp only [Process.next, hphase] at h
      split_ifs at h
      all_goals
        cases h
        exact ⟨rfl, .inl ⟨rfl, rfl, nofun, fun _ => nofun, nofun, nofun⟩⟩
  | unlinking deadline =>
      simp only [Process.next, hphase] at h
      cases h
      exact ⟨rfl, .inr (.inr (.inr (.inl ⟨⟨deadline, rfl, rfl⟩, rfl, rfl⟩)))⟩
  | waiting deadline =>
      simp only [Process.next, hphase] at h
      split_ifs at h
      all_goals
        cases h
        exact ⟨rfl, .inl ⟨rfl, rfl, nofun, fun _ => nofun, nofun, nofun⟩⟩
  | sleeping deadline wake =>
      simp only [Process.next, hphase] at h
      split_ifs at h
      cases h
      exact ⟨rfl, .inl ⟨rfl, rfl, nofun, fun _ => nofun, nofun, nofun⟩⟩
  | loading =>
      simp only [Process.next, hphase] at h
      split_ifs at h
      · cases h
        refine ⟨rfl, .inl ⟨rfl, rfl, fun _ => rfl, fun _ _ => rfl, ?_, nofun⟩⟩
        intro time content hloaded
        cases hloaded
        rfl
      · cases h
        exact ⟨rfl, .inl ⟨rfl, rfl, fun _ => rfl, fun _ _ => rfl, nofun, nofun⟩⟩
  | loaded time content =>
      simp only [Process.next, hphase] at h
      split_ifs at h
      · cases h
        exact ⟨rfl, .inr (.inr (.inr (.inr (.inl ⟨time, content, rfl, rfl, rfl, rfl⟩))))⟩
      · cases h
        exact ⟨rfl, .inl ⟨rfl, rfl, fun _ => rfl, fun _ _ => rfl, nofun, nofun⟩⟩
  | leaving =>
      simp only [Process.next, hphase] at h
      cases h
      cases ok with
      | true => exact ⟨rfl, .inl ⟨rfl, rfl, fun _ => rfl, fun _ _ => rfl, nofun, nofun⟩⟩
      | false => exact ⟨rfl, .inl ⟨rfl, rfl, fun _ => rfl, nofun, nofun, nofun⟩⟩
  | releasing =>
      simp only [Process.next, hphase] at h
      cases h
      exact ⟨rfl, .inr (.inr (.inr (.inr (.inr ⟨rfl, rfl, rfl, rfl⟩))))⟩
  | ended =>
      simp only [Process.next, hphase] at h
      cases h

/-- The steps of the system. -/
theorem step_cases {l : Label C} (h : step s l = some s') :
    (∃ now, s.disk.now ≤ now ∧ s' = { s with disk := { s.disk with now := now } }) ∨
      (∃ new : Process C, s' = { s with processes := s.processes ++ [new] } ∧ new.phase.owns = false ∧
        (∃ deadline, new.phase = .opening deadline) ∧ new.acquiredAt = s.disk.now) ∨
      (∃ p ok proc d' proc', l = .run p ok ∧ s.processes[p]? = some proc ∧
        proc.next p ok s.disk = some (d', proc') ∧ s' = ⟨d', s.processes.set p proc'⟩) ∨
      ∃ p proc, l = .crash p ∧ s.processes[p]? = some proc ∧
        s' = { s with processes := s.processes.set p { proc with phase := .ended } } := by
  cases l with
  | tick now =>
      rw [step] at h
      split_ifs at h with hle
      exact .inl ⟨now, hle, (Option.some.inj h).symm⟩
  | launch invocation => exact .inr (.inl ⟨_, (Option.some.inj h).symm, rfl, ⟨_, rfl⟩, rfl⟩)
  | run p ok =>
      obtain ⟨proc, hp, hnext⟩ := Option.bind_eq_some_iff.mp h
      obtain ⟨⟨d', proc'⟩, hstep, rfl⟩ := Option.map_eq_some_iff.mp hnext
      exact .inr (.inr (.inl ⟨p, ok, proc, d', proc', rfl, hp, hstep, rfl⟩))
  | crash p =>
      obtain ⟨proc, hp, rfl⟩ := Option.map_eq_some_iff.mp h
      exact .inr (.inr (.inr ⟨p, proc, rfl, hp, rfl⟩))

/-! ### The condition -/

/-- The step is no successful unlink of the acquire loop that takes the lock file of a process which
still owns the lock. -/
def sparesLive (s : State C) : Label C → Bool
  | .run p true =>
      match s.processes[p]?.map Process.phase, s.disk.lock with
      | some (.unlinking _), some f => !(s.processes[f.owner]?.any fun proc => proc.phase.owns)
      | _, _ => true
  | _ => true

/-- The updates of a log, applied in the order in which they were stored. -/
def applied (log : List (C → C)) (content : C) : C := log.foldr (fun update c => update c) content

/-- Whoever owns the lock has the lock file, a loaded content is still the content of the state file, and
this is what the stored updates make of the first content. -/
structure Guarded (content : C) (s : State C) : Prop where
  owner : ∀ (p : ℕ) (proc : Process C), s.processes[p]? = some proc → proc.phase.owns = true →
    ∃ f, s.disk.lock = some f ∧ f.owner = p
  current : ∀ (p : ℕ) (proc : Process C) time c, s.processes[p]? = some proc → proc.phase = .loaded time c →
    c = s.disk.content
  stored : s.disk.content = applied s.disk.log content

variable {content : C}

/-- The owner of the lock is unique. -/
theorem Guarded.eq_of_owns (h : Guarded content s) {proc' : Process C} (hp : s.processes[p]? = some proc)
    (hq : s.processes[q]? = some proc') (hown : proc.phase.owns = true) (hown' : proc'.phase.owns = true) :
    p = q := by
  obtain ⟨f, hf, rfl⟩ := h.owner p proc hp hown
  obtain ⟨g, hg, rfl⟩ := h.owner q proc' hq hown'
  rw [hf, Option.some.injEq] at hg
  rw [hg]

/-- After a call of process `p`: its own case, and the files of the others. -/
theorem Guarded.of_call (h : Guarded content s) (hp : s.processes[p]? = some proc)
    (hself : proc'.phase.owns = true → ∃ f, d'.lock = some f ∧ f.owner = p)
    (hothers : ∀ (q : ℕ) (x : Process C), q ≠ p → s.processes[q]? = some x → x.phase.owns = true →
      ∃ f, d'.lock = some f ∧ f.owner = q)
    (hloaded : ∀ time c, proc'.phase = .loaded time c → c = d'.content)
    (hcontent : ∀ (q : ℕ) (x : Process C) time c, q ≠ p → s.processes[q]? = some x → x.phase = .loaded time c →
      s.disk.content = d'.content)
    (hstored : d'.content = applied d'.log content) :
    Guarded content ⟨d', s.processes.set p proc'⟩ := by
  refine ⟨?_, ?_, hstored⟩
  · intro q x hq hown
    rcases Transition.getElem?_set_cases hq with ⟨rfl, rfl⟩ | ⟨hqp, hq⟩
    · exact hself hown
    · exact hothers q x hqp hq hown
  · intro q x time c hq hphase
    rcases Transition.getElem?_set_cases hq with ⟨rfl, rfl⟩ | ⟨hqp, hq⟩
    · exact hloaded time c hphase
    · rw [h.current q x time c hq hphase, hcontent q x time c hqp hq hphase]

/-- An unlink that spares the owners finds none of them. -/
theorem Guarded.no_owner_of_unlink (h : Guarded content s) {deadline : ℚ}
    (hp : s.processes[p]? = some proc) (hphase : proc.phase = .unlinking deadline)
    (hspares : sparesLive s (.run p true) = true) {x : Process C} (hq : s.processes[q]? = some x) :
    x.phase.owns = false := by
  by_contra hown
  rw [Bool.not_eq_false] at hown
  obtain ⟨f, hf, rfl⟩ := h.owner q x hq hown
  simp [sparesLive, hp, hphase, hf, hq, hown] at hspares

/-- **A step that spares the owners keeps the guard.** -/
theorem Guarded.step (h : Guarded content s) {l : Label C} (hspares : sparesLive s l = true)
    (hs : StateFile.step s l = some s') : Guarded content s' := by
  rcases step_cases hs with ⟨now, -, rfl⟩ | ⟨new, rfl, hnew, -⟩ |
    ⟨p, ok, proc, d', proc', rfl, hp, hnext, rfl⟩ | ⟨p, proc, rfl, hp, rfl⟩
  · exact ⟨h.owner, h.current, h.stored⟩
  · -- the new process owns nothing
    have hold : ∀ (q : ℕ) (x : Process C), (s.processes ++ [new])[q]? = some x →
        s.processes[q]? = some x ∨ x = new := by
      intro q x hq
      rcases Transition.getElem?_append_cases hq with hq | hmem
      · exact .inl hq
      · exact .inr (List.mem_singleton.mp hmem)
    refine ⟨fun q x hq hown => ?_, fun q x time c hq hphase => ?_, h.stored⟩
    · rcases hold q x hq with hq | rfl
      · exact h.owner q x hq hown
      · rw [hnew] at hown
        cases hown
    · rcases hold q x hq with hq | rfl
      · exact h.current q x time c hq hphase
      · rw [hphase] at hnew
        cases hnew
  · rcases (Process.next_cases hnext).2 with ⟨rfl, -, howns, -, hloaded, -⟩ | ⟨-, hlock, rfl, hphase', -⟩ |
      ⟨hphase, rfl, hphase', -⟩ | ⟨⟨deadline, hphase, hphase'⟩, rfl, -⟩ |
      ⟨time, c, hphase, rfl, hphase', -⟩ | ⟨hphase, rfl, hphase', -⟩
    · exact h.of_call hp (fun hown => h.owner p proc hp (howns hown)) (fun q x _ => h.owner q x) hloaded
        (fun _ _ _ _ _ _ _ => rfl) h.stored
    · -- the lock file was missing, so nobody owned the lock
      refine h.of_call hp (fun _ => ⟨_, rfl, rfl⟩) (fun q x _ hq hown => ?_) ?_
        (fun _ _ _ _ _ _ _ => rfl) h.stored
      · obtain ⟨f, hf, -⟩ := h.owner q x hq hown
        rw [hlock] at hf
        cases hf
      · rw [hphase']
        exact nofun
    · have hlock : ∀ q, (∃ f, s.disk.lock = some f ∧ f.owner = q) →
          ∃ f, (s.disk.writePayload p).lock = some f ∧ f.owner = q := by
        rintro q ⟨f, hf, rfl⟩
        refine ⟨_, by rw [Disk.writePayload, hf, Option.map_some], ?_⟩
        split_ifs <;> rfl
      refine h.of_call hp (fun _ => hlock p (h.owner p proc hp (by rw [hphase]; rfl)))
        (fun q x _ hq hown => hlock q (h.owner q x hq hown)) ?_ (fun _ _ _ _ _ _ _ => rfl) h.stored
      rw [hphase']
      exact nofun
    · cases ok with
      | false =>
          refine h.of_call hp ?_ (fun q x _ => h.owner q x) ?_ (fun _ _ _ _ _ _ _ => rfl) h.stored
          · rw [hphase']
            exact nofun
          · rw [hphase']
            exact nofun
      | true =>
          have hnone := fun q x hq => h.no_owner_of_unlink hp hphase hspares (q := q) (x := x) hq
          refine h.of_call hp ?_ ?_ ?_ (fun _ _ _ _ _ _ _ => rfl) h.stored
          · rw [hphase']
            exact nofun
          · intro q x _ hq hown
            rw [hnone q x hq] at hown
            cases hown
          · rw [hphase']
            exact nofun
    · have hcurrent : c = s.disk.content := h.current p proc time c hp hphase
      have hown : proc.phase.owns = true := by rw [hphase]; rfl
      refine h.of_call hp (fun _ => h.owner p proc hp hown) (fun q x _ => h.owner q x) ?_ ?_ ?_
      · rw [hphase']
        exact nofun
      · intro q x time' c' hqp hq hx
        exact absurd (h.eq_of_owns hq hp (by rw [hx]; rfl) hown) hqp
      · rw [Disk.save, applied, List.foldr_cons, hcurrent, h.stored]
        rfl
    · have hown : proc.phase.owns = true := by rw [hphase]; rfl
      refine h.of_call hp ?_ ?_ ?_ ?_ ?_
      · rw [hphase']
        exact nofun
      · intro q x hqp hq hx
        exact absurd (h.eq_of_owns hq hp hx hown) hqp
      · rw [hphase']
        exact nofun
      · intro q x _ _ _ _ _
        cases ok <;> rfl
      · cases ok <;> exact h.stored
  · refine h.of_call hp nofun (fun q x _ => h.owner q x) nofun (fun _ _ _ _ _ _ _ => rfl) h.stored

/-! ### Exclusion -/

/-- At most one process is inside, what it loaded is still the content of the state file, and no stored
update is lost. -/
structure Serial (content : C) (s : State C) : Prop where
  exclusive : ∀ (p q : ℕ) (proc proc' : Process C), s.processes[p]? = some proc →
    s.processes[q]? = some proc' → proc.phase.inside = true → proc'.phase.inside = true → p = q
  current : ∀ (p : ℕ) (proc : Process C) time c, s.processes[p]? = some proc →
    proc.phase = .loaded time c → c = s.disk.content
  stored : s.disk.content = applied s.disk.log content

/-- Who is inside owns the lock. -/
theorem Phase.owns_of_inside {phase : Phase C} (h : phase.inside = true) : phase.owns = true := by
  cases phase <;> first | rfl | cases h

/-- **The state file is exclusive while the acquire loop spares the owners**: in every state of every
run in which no unlink of the acquire loop takes the lock file of a process that still owns the lock. -/
theorem exclusive_of_sparesLive {now : ℚ} {content : C} {ls : List (Label C)} {s : State C}
    (hrun : exec (initial now content) ls = some s)
    (hspares : Transition.Along step (fun s l => sparesLive s l = true) (initial now content) ls) :
    Serial content s := by
  have hinitial : Guarded content (initial now content) :=
    ⟨fun p proc hp => by simp [initial] at hp, fun p proc _ _ hp => by simp [initial] at hp, rfl⟩
  have h : Guarded content s :=
    Transition.run_invariant (fun _ _ _ hl hs h => h.step hl hs) hrun hspares hinitial
  refine ⟨fun p q proc proc' hp hq hin hin' => ?_, h.current, h.stored⟩
  exact h.eq_of_owns hp hq (Phase.owns_of_inside hin) (Phase.owns_of_inside hin')

/-- A `put` that adds a number to a list. -/
def putNumber (n : ℕ) : Invocation (List ℕ) := ⟨.put, fun _ _ content => n :: content⟩

/-- Two puts, the second of which finds the lock held and waits. -/
def waitingRun : List (Label (List ℕ)) :=
  [.launch (putNumber 1), .launch (putNumber 2), .run 0 true, .run 0 true, .run 1 true, .run 1 true,
    .run 1 true, .run 1 true, .run 0 true, .run 0 true, .run 0 true, .run 0 true, .tick (1 / 10),
    .run 1 true, .run 1 true, .run 1 true, .run 1 true, .run 1 true]

/-- Both puts are stored. -/
theorem exclusive_of_waiting : ∃ s : State (List ℕ),
    exec (initial 0 []) waitingRun = some s ∧ s.disk.content = [2, 1] ∧ Serial [] s := by
  have heval : ((exec (initial 0 []) waitingRun).map fun s : State (List ℕ) =>
      decide (s.disk.content = [2, 1] ∧
        Transition.Along step (fun s l => sparesLive s l = true) (initial 0 []) waitingRun)) =
      some true := by decide +kernel
  obtain ⟨s, hs, heval⟩ := Option.map_eq_some_iff.mp heval
  obtain ⟨hcontent, hspares⟩ := of_decide_eq_true heval
  exact ⟨s, hs, hcontent, exclusive_of_sparesLive hs hspares⟩

/-! ### The race -/

/-- No process has held the lock for thirty seconds. -/
def heldBriefly (s : State C) : Bool :=
  s.processes.all fun proc => !proc.phase.owns || decide (s.disk.now < proc.acquiredAt + staleLockSeconds)

/-- Nobody crashes and no call fails. -/
def Label.ordinary : Label C → Bool
  | run _ ok => ok
  | crash _ => false
  | _ => true

/-- The lock file belongs to a process that owns the lock and is no older than its acquisition; no
reading of the clock lies in the future. -/
structure Fresh (s : State C) : Prop where
  live : ∀ f, s.disk.lock = some f → ∃ proc : Process C, s.processes[f.owner]? = some proc ∧
    proc.phase.owns = true ∧ proc.acquiredAt ≤ f.mtime
  past : ∀ (p : ℕ) (proc : Process C) deadline time, s.processes[p]? = some proc →
    proc.phase = .statting deadline time → time ≤ s.disk.now
  acquired : ∀ (p : ℕ) (proc : Process C), s.processes[p]? = some proc → proc.acquiredAt ≤ s.disk.now

/-- After a call of process `p` at one time. -/
theorem Fresh.of_call (h : Fresh s) (hnow : d'.now = s.disk.now)
    (hlive : ∀ f, d'.lock = some f → ∃ x : Process C, (s.processes.set p proc')[f.owner]? = some x ∧
      x.phase.owns = true ∧ x.acquiredAt ≤ f.mtime)
    (hpast : ∀ deadline time, proc'.phase = .statting deadline time → time ≤ s.disk.now)
    (hacquired : proc'.acquiredAt ≤ s.disk.now) : Fresh ⟨d', s.processes.set p proc'⟩ := by
  refine ⟨hlive, ?_, ?_⟩
  · intro q x deadline time hq hphase
    rw [hnow]
    rcases Transition.getElem?_set_cases hq with ⟨rfl, rfl⟩ | ⟨-, hq⟩
    · exact hpast deadline time hphase
    · exact h.past q x deadline time hq hphase
  · intro q x hq
    rw [hnow]
    rcases Transition.getElem?_set_cases hq with ⟨rfl, rfl⟩ | ⟨-, hq⟩
    · exact hacquired
    · exact h.acquired q x hq

/-- The owner of the lock file after a call of process `p` that keeps its lock. -/
theorem Fresh.live_set (h : Fresh s) (hp : s.processes[p]? = some proc)
    (howns : proc.phase.owns = true → proc'.phase.owns = true) (hat : proc'.acquiredAt = proc.acquiredAt)
    {f : LockFile} (hf : s.disk.lock = some f) :
    ∃ x : Process C, (s.processes.set p proc')[f.owner]? = some x ∧ x.phase.owns = true ∧
      x.acquiredAt ≤ f.mtime := by
  obtain ⟨x, hx, hown, hle⟩ := h.live f hf
  by_cases hfp : f.owner = p
  · obtain rfl : x = proc := by
      rw [hfp] at hx
      exact Option.some.inj (hx.symm.trans hp)
    refine ⟨proc', ?_, howns hown, hat ▸ hle⟩
    rw [hfp, List.getElem?_set_self']
    simp [hp]
  · exact ⟨x, by rwa [List.getElem?_set_ne (Ne.symm hfp)], hown, hle⟩

/-- An ordinary step keeps the lock file fresh. -/
theorem Fresh.step (h : Fresh s) {l : Label C} (hordinary : l.ordinary = true)
    (hs : StateFile.step s l = some s') : Fresh s' := by
  rcases step_cases hs with ⟨now, hle, rfl⟩ | ⟨new, rfl, -, ⟨deadline, hnew⟩, hat⟩ |
    ⟨p, ok, proc, d', proc', rfl, hp, hnext, rfl⟩ | ⟨p, proc, rfl, hp, rfl⟩
  · refine ⟨h.live, fun p proc deadline time hp hphase => ?_, fun p proc hp => ?_⟩
    · exact (h.past p proc deadline time hp hphase).trans hle
    · exact (h.acquired p proc hp).trans hle
  · refine ⟨fun f hf => ?_, fun q x deadline' time hq hphase => ?_, fun q x hq => ?_⟩
    · obtain ⟨x, hx, hrest⟩ := h.live f hf
      exact ⟨x, by rw [List.getElem?_append_left (List.getElem?_eq_some_iff.mp hx).1]; exact hx, hrest⟩
    · rcases Transition.getElem?_append_cases hq with hq | hmem
      · exact h.past q x deadline' time hq hphase
      · rw [List.mem_singleton.mp hmem, hnew] at hphase
        cases hphase
    · rcases Transition.getElem?_append_cases hq with hq | hmem
      · exact h.acquired q x hq
      · rw [List.mem_singleton.mp hmem, hat]
  · obtain rfl : ok = true := hordinary
    have hbefore := h.acquired p proc hp
    rcases (Process.next_cases hnext).2 with ⟨rfl, hat, -, howns, -, htime⟩ | ⟨-, hlock, rfl, hphase', hat⟩ |
      ⟨hphase, rfl, hphase', hat⟩ | ⟨⟨deadline, hphase, hphase'⟩, rfl, hat⟩ |
      ⟨time, c, hphase, rfl, hphase', hat⟩ | ⟨hphase, rfl, hphase', hat⟩
    · exact h.of_call rfl (fun f => h.live_set hp (howns rfl) hat)
        (fun deadline time hphase => (htime deadline time hphase).le) (hat ▸ hbefore)
    · refine h.of_call rfl (fun f hf => ?_) (by rw [hphase']; exact nofun) hat.le
      obtain rfl := Option.some.inj hf
      refine ⟨proc', ?_, by rw [hphase']; rfl, hat.le⟩
      rw [List.getElem?_set_self', hp]
      rfl
    · refine h.of_call rfl (fun f hf => ?_) (by rw [hphase']; exact nofun) (hat ▸ hbefore)
      obtain ⟨g, hg, rfl⟩ := Option.map_eq_some_iff.mp hf
      obtain ⟨x, hx, hown, hle⟩ := h.live_set hp (fun _ => by rw [hphase']; rfl) hat hg
      split_ifs with hgp
      · refine ⟨x, hx, hown, ?_⟩
        rcases Transition.getElem?_set_cases hx with ⟨-, rfl⟩ | ⟨-, hx⟩
        · exact hat ▸ hbefore
        · exact h.acquired _ x hx
      · exact ⟨x, hx, hown, hle⟩
    · refine h.of_call rfl (fun f hf => ?_) (by rw [hphase']; exact nofun) (hat ▸ hbefore)
      cases hf
    · exact h.of_call rfl (fun f => h.live_set hp (fun _ => by rw [hphase']; rfl) hat)
        (by rw [hphase']; exact nofun) (hat ▸ hbefore)
    · refine h.of_call rfl (fun f hf => ?_) (by rw [hphase']; exact nofun) (hat ▸ hbefore)
      cases hf
  · cases hordinary

/-- **Staleness by age never hits a live lock.** In a run without crashes and failing calls, while no
process has held the lock for thirty seconds, a `stat` that finds the lock file does not find it stale:
only a missing file sends a waiter to its unlink. -/
theorem not_isStale_of_found {now : ℚ} {content : C} {ls : List (Label C)} {s : State C}
    (hrun : exec (initial now content) ls = some s) (hordinary : ∀ l ∈ ls, l.ordinary = true)
    (hheld : heldBriefly s = true) {deadline time : ℚ} (hp : s.processes[p]? = some proc)
    (hphase : proc.phase = .statting deadline time) {f : LockFile} (hf : s.disk.lock = some f) :
    LockFile.isStale time (s.disk.stat true) = false := by
  have hinitial : Fresh (initial now content) :=
    ⟨fun f hf => by simp [initial] at hf, fun p proc _ _ hp => by simp [initial] at hp,
      fun p proc hp => by simp [initial] at hp⟩
  have h : Fresh s :=
    Transition.run_invariant (fun _ _ _ hl hs h => Fresh.step h hl hs) hrun
      (Transition.along_of_forall (fun l hl _ => hordinary l hl) _) hinitial
  obtain ⟨x, hx, hown, hle⟩ := h.live f hf
  have htime := h.past p proc deadline time hp hphase
  have hbrief : s.disk.now < x.acquiredAt + staleLockSeconds := by
    have hall := List.all_eq_true.mp hheld x (List.mem_of_getElem? hx)
    simpa [hown] using hall
  rw [Disk.stat, if_pos rfl, hf, LockFile.isStale, decide_eq_false_iff_not]
  linarith

/-- Three puts. The second one finds the lock file of the first, which is gone at its `stat`; it unlinks
the file of the third, and enters. -/
def raceRun : List (Label (List ℕ)) :=
  [.launch (putNumber 1), .launch (putNumber 2), .launch (putNumber 3), .run 0 true, .run 0 true,
    .run 1 true, .run 0 true, .run 0 true, .run 0 true, .run 0 true, .run 1 true, .run 1 true, .run 2 true,
    .run 2 true, .run 1 true, .run 1 true, .tick (1 / 20), .run 1 true, .run 1 true, .run 1 true]

/-- Both load, then both save. -/
def raceEnd : List (Label (List ℕ)) := [.run 1 true, .run 2 true, .run 1 true, .run 2 true]

/-- **Two processes inside, and an update lost**, with no lock held for thirty seconds, no crash and no
failing call: the second put is not in the content. -/
theorem state_lock_race : ∃ s s' : State (List ℕ),
    exec (initial 0 []) raceRun = some s ∧ exec s raceEnd = some s' ∧
      Transition.Along step (fun s l => (heldBriefly s && l.ordinary) = true) (initial 0 [])
        (raceRun ++ raceEnd) ∧ heldBriefly s' = true ∧
      (s.processes[1]?.any fun proc => proc.phase.inside) = true ∧
      (s.processes[2]?.any fun proc => proc.phase.inside) = true ∧
      s'.disk.content = [3, 1] ∧ applied s'.disk.log [] = [3, 2, 1] := by
  have heval : ((exec (initial 0 []) raceRun).bind fun s : State (List ℕ) =>
      (exec s raceEnd).map fun s' =>
        decide (Transition.Along step (fun s l => (heldBriefly s && l.ordinary) = true) (initial 0 [])
          (raceRun ++ raceEnd) ∧ heldBriefly s' = true ∧
        (s.processes[1]?.any fun proc => proc.phase.inside) = true ∧
        (s.processes[2]?.any fun proc => proc.phase.inside) = true ∧
        s'.disk.content = [3, 1] ∧ applied s'.disk.log [] = [3, 2, 1])) = some true := by decide +kernel
  obtain ⟨s, hs, heval⟩ := Option.bind_eq_some_iff.mp heval
  obtain ⟨s', hs', heval⟩ := Option.map_eq_some_iff.mp heval
  exact ⟨s, s', hs, hs', of_decide_eq_true heval⟩

end CacheLab.StateFile
