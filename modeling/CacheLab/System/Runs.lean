import CacheLab.System.Refinement

/-!
# Runs before `close`

* `along_open`: in a run without a call of `close` no step belongs to the synchronous flush, so the
  whole run refines write-behind;
* `workers_le`: there are never more workers than the configuration says;
* `overtakes_eq_false`: with one worker no job is ever overtaken.
-/

set_option linter.unusedSectionVars false

namespace CacheLab

variable {α V T : Type} [DecidableEq α] [LinearOrder T] [Zero T] [Add T] [Sub T]

open WriteBehind

variable {cfg : AcceptedConfig T} {hash : Key α → ℕ} {k : Key α}

/-- The label is a call of `close`. -/
def Label.closes : Label α V T → Bool
  | .call (.close _) => true
  | _ => false

/-- Only a closer winds down. -/
theorem Thread.role_of_winding {th : Thread α V T} (h : th.winding = true) : th.role = .closer := by
  cases th <;> first | rfl | cases h

/-- A call that is no `close` starts a client. -/
theorem Thread.role_of_call {op : Op α V T} (h : (Label.call op : Label α V T).closes = false) :
    (Thread.entering op (.client .done) : Thread α V T).role = .client := by
  cases op <;> first | rfl | cases h

/-- A step that is no call of `close` starts no closer. -/
theorem step_closers {s s' : System α V cfg} {l : Label α V T} (h : step cfg hash s l = some s')
    (hl : l.closes = false) (hb : Base hash s) (hn : ∀ th ∈ s.threads, th.role ≠ .closer) :
    ∀ th ∈ s'.threads, th.role ≠ .closer := by
  cases l with
  | tick now =>
      simp only [step] at h
      split_ifs at h
      cases h
      exact hn
  | start =>
      simp only [step] at h
      split at h <;> cases h
      · intro th hth
        rcases List.mem_append.mp hth with hth | hth
        · exact hn th hth
        · rw [List.eq_of_mem_replicate hth]
          simp [Thread.role]
      · exact hn
  | call op =>
      cases h
      intro th hth
      rcases List.mem_append.mp hth with hth | hth
      · exact hn th hth
      · rw [List.mem_singleton.mp hth, Thread.role_of_call hl]
        simp
  | schedule i =>
      simp only [step] at h
      split_ifs at h
      cases h
      exact hn
  | run i c =>
      simp only [step, Option.bind_eq_some_iff, Option.map_eq_some_iff] at h
      obtain ⟨th, hi, r, hr, rfl⟩ := h
      have hmem := List.mem_of_getElem? hi
      have hcontrol := threadStep_control hr (hb.threads th hmem).1 (hb.threads th hmem).2
        fun i => (hb.shards i).index_eq
      refine forall_mem_set hn ?_
      rcases hcontrol.role with hrole | ⟨hrole, -⟩
      · rw [hrole]
        exact hn th hmem
      · exact absurd hrole (hn th hmem)

/-- See `step_closers`. -/
theorem open_step (s : System α V cfg) (l : Label α V T) (s' : System α V cfg) (hl : l.closes = false)
    (hs : step cfg hash s l = some s') (hinv : Base hash s ∧ ∀ th ∈ s.threads, th.role ≠ .closer) :
    Base hash s' ∧ ∀ th ∈ s'.threads, th.role ≠ .closer :=
  ⟨hinv.1.step hs, step_closers hs hl hinv.1 hinv.2⟩

/-- **Before `close` is called nothing winds down.** -/
theorem along_open {s : System α V cfg} {ls : List (Label α V T)} (hls : ∀ l ∈ ls, l.closes = false)
    (hb : Base hash s) (hn : ∀ th ∈ s.threads, th.role ≠ .closer) :
    Transition.Along (step cfg hash) (fun s l => winds s l = false) s ls := by
  refine Transition.along_of_invariant open_step (fun s l hl hinv => ?_) hls ⟨hb, hn⟩
  cases l with
  | run i c =>
      cases hi : s.threads[i]? with
      | none => simp [winds, hi]
      | some th =>
          simp only [winds, hi, Option.any_some]
          by_contra hw
          exact hinv.2 th (List.mem_of_getElem? hi) (Thread.role_of_winding (by simpa using hw))
  | _ => rfl

/-! ### Workers -/

/-- The number of workers. -/
def System.workers (s : System α V cfg) : ℕ := s.threads.countP fun th => th.role = .worker

/-- The workers start with the cache, once. -/
structure Staffed (s : System α V cfg) : Prop where
  le : s.workers ≤ cfg.workerCount
  created : s.shared.lifecycle = .created → s.workers = 0

/-- Replacing a thread by one that is a worker exactly if the first was keeps the number of workers. -/
theorem countP_set_of_iff {β : Type} {p : β → Bool} {l : List β} {i : ℕ} {a b : β}
    (ha : l[i]? = some a) (hab : p b = p a) : (l.set i b).countP p = l.countP p := by
  induction l generalizing i with
  | nil => rfl
  | cons x l ih =>
      cases i with
      | zero =>
          rw [List.getElem?_cons_zero, Option.some.injEq] at ha
          rw [List.set_cons_zero, List.countP_cons, List.countP_cons, hab, ha]
      | succ i =>
          rw [List.getElem?_cons_succ] at ha
          rw [List.set_cons_succ, List.countP_cons, List.countP_cons, ih ha]

/-- Every step keeps the staff. -/
theorem Staffed.step {s s' : System α V cfg} {l : Label α V T} (h : step cfg hash s l = some s')
    (hb : Base hash s) (hs : Staffed s) : Staffed s' := by
  cases l with
  | tick now =>
      simp only [CacheLab.step] at h
      split_ifs at h
      cases h
      exact ⟨hs.le, hs.created⟩
  | start =>
      simp only [CacheLab.step] at h
      split at h <;> cases h
      · next hl =>
          have hcount : (s.threads ++ List.replicate cfg.workerCount (.idle : Thread α V T)).countP
              (fun th => th.role = .worker) = cfg.workerCount := by
            have hzero : s.threads.countP (fun th => th.role = .worker) = 0 := hs.created hl
            rw [List.countP_append, hzero, List.countP_replicate]
            simp [Thread.role]
          exact ⟨hcount.le, fun hcreated => by cases hcreated⟩
      · exact hs
  | call op =>
      cases h
      have hcount : (s.threads ++ [(.entering op (.client .done) : Thread α V T)]).countP
          (fun th => th.role = .worker) = s.threads.countP fun th => th.role = .worker := by
        rw [List.countP_append, List.countP_singleton]
        cases op <;> rfl
      exact ⟨hcount.trans_le hs.le, fun hcreated => hcount.trans (hs.created hcreated)⟩
  | schedule i =>
      simp only [CacheLab.step] at h
      split_ifs at h
      cases h
      exact ⟨hs.le, hs.created⟩
  | run i c =>
      simp only [CacheLab.step, Option.bind_eq_some_iff, Option.map_eq_some_iff] at h
      obtain ⟨th, hi, r, hr, rfl⟩ := h
      have hmem := List.mem_of_getElem? hi
      have hcontrol := threadStep_control hr (hb.threads th hmem).1 (hb.threads th hmem).2
        fun i => (hb.shards i).index_eq
      have hcount : (s.threads.set i r.2).countP (fun th => th.role = .worker) =
          s.threads.countP fun th => th.role = .worker := by
        refine countP_set_of_iff hi ?_
        rcases hcontrol.role with hrole | ⟨hrole, result, hth'⟩
        · rw [hrole]
        · rw [hth', hrole]
          rfl
      refine ⟨hcount.trans_le hs.le, fun hcreated => hcount.trans (hs.created ?_)⟩
      have hphase := threadStep_phase hr
      rcases hphase with hphase | ⟨-, -, -, hphase⟩ | ⟨-, -, hphase⟩ | ⟨_, _, _, -, -, hshared, -⟩
      · exact (congrArg Prod.fst hphase).symm.trans hcreated
      · cases hcreated.symm.trans (congrArg Prod.fst hphase)
      · cases hcreated.symm.trans hphase
      · have hreleased : s.shared.lifecycle.released = .created := (congrArg Shared.lifecycle hshared).symm.trans hcreated
        rcases s.shared.lifecycle.released_cases with ⟨-, habandoned⟩ | ⟨-, hsame⟩
        · cases hreleased.symm.trans habandoned
        · exact hsame.symm.trans hreleased

/-- **There are never more workers than configured.** -/
theorem staffed_exec {now : T} {src : Source α V} {s : System α V cfg} {ls : List (Label α V T)}
    (h : exec cfg hash (initial cfg now src) ls = some s) : Staffed s := by
  have hstep : ∀ (s : System α V cfg) l s', step cfg hash s l = some s' → (Base hash s ∧ Staffed s) →
      Base hash s' ∧ Staffed s' :=
    fun s l s' hs hinv => ⟨hinv.1.step hs, hinv.2.step hs hinv.1⟩
  have hinit : Staffed (initial cfg now src) := ⟨Nat.zero_le _, fun _ => rfl⟩
  exact (Transition.run_invariant_of_step hstep h ⟨base_initial cfg hash now src, hinit⟩).2

/-- Two different members that are counted make the count at least two. -/
theorem two_le_countP {β : Type} {p : β → Bool} {l : List β} {a b : β} (ha : a ∈ l) (hb : b ∈ l)
    (hne : a ≠ b) (hpa : p a = true) (hpb : p b = true) : 2 ≤ l.countP p := by
  rw [List.countP_eq_length_filter]
  have ha' : a ∈ l.filter p := List.mem_filter.mpr ⟨ha, hpa⟩
  have hb' : b ∈ l.filter p := List.mem_filter.mpr ⟨hb, hpb⟩
  cases hf : l.filter p with
  | nil =>
      rw [hf] at ha'
      cases ha'
  | cons x xs =>
      cases xs with
      | nil =>
          rw [hf, List.mem_singleton] at ha' hb'
          exact absurd (ha'.trans hb'.symm) hne
      | cons y ys => simp

/-- **A single worker overtakes nobody.** -/
theorem overtakes_eq_false {s : System α V cfg} (hs : Staffed s) (hone : cfg.workerCount ≤ 1)
    (l : Label α V T) : overtakes s l = false := by
  cases l with
  | run i c =>
      cases hi : s.threads[i]? with
      | none => simp [overtakes, hi]
      | some th =>
          cases th with
          | checked t =>
              by_contra hover
              simp only [overtakes, hi, Bool.not_eq_false, Bool.and_eq_true, List.any_eq_true] at hover
              obtain ⟨-, th', hmem', hlag⟩ := hover
              cases th' with
              | checked t' =>
                  have hlt : t'.origin < t.origin := by
                    simp only [Thread.lags, Bool.and_eq_true, decide_eq_true_eq] at hlag
                    exact hlag.2
                  have hne : Thread.checked t ≠ (Thread.checked t' : Thread α V T) := by
                    intro heq
                    cases heq
                    exact lt_irrefl _ hlt
                  have htwo := two_le_countP (p := fun th : Thread α V T => th.role = .worker)
                    (List.mem_of_getElem? hi) hmem' hne rfl rfl
                  have hle : s.threads.countP (fun th : Thread α V T => th.role = .worker) ≤ 1 :=
                    hs.le.trans hone
                  omega
              | _ => cases hlag
          | _ => simp [overtakes, hi]
  | _ => rfl

end CacheLab
