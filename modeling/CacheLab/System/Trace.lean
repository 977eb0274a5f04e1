import CacheLab.System.Base
import CacheLab.Lib.Trace

/-!
# The trace of a run

The properties of single flights and of invalidation speak of the past: which loader started first,
whether a delete ran in between, which put a value came from. The trace of a run notes its calls and
the moves of its threads from point to point (`Move`), and the predicates of this module name the
moves that matter:

* `starts k f`: the leader of flight `f` calls its loader;
* `invalidates k`: the section of a delete of `k`, or of a clear on the shard of `k`, went through.
-/

set_option linter.unusedSectionVars false

namespace CacheLab

variable {α V T : Type} [DecidableEq α] [LinearOrder T] [Zero T] [Add T] [Sub T]

/-- A note of a run: a call comes in as a new thread, or a thread moves. -/
inductive Move (α V T : Type)
  | called (thread : ℕ) (op : Op α V T)
  | moved (thread : ℕ) (before after : Thread α V T)
  deriving DecidableEq

variable {cfg : AcceptedConfig T} {hash : Key α → ℕ}

/-- What is noted of one step. -/
def moves (s : System α V cfg) (l : Label α V T) (s' : System α V cfg) : List (Move α V T) :=
  match l with
  | .call op => [.called s.threads.length op]
  | .run i _ =>
      match s.threads[i]?, s'.threads[i]? with
      | some th, some th' => [.moved i th th']
      | _, _ => []
  | _ => []

/-- The trace of a run, oldest note first. -/
def trace (cfg : AcceptedConfig T) (hash : Key α → ℕ) (s : System α V cfg) (ls : List (Label α V T)) :
    List (Move α V T) :=
  Transition.observe (step cfg hash) moves s ls

/-- **The inversion of a step with its notes**: nothing is noted, a call comes in, or a thread moves. -/
theorem step_moves {s s' : System α V cfg} {l : Label α V T} (h : step cfg hash s l = some s') :
    (moves s l s' = [] ∧ s'.shared.shards = s.shared.shards ∧ s'.shared.flights = s.shared.flights ∧
      ∃ n, s'.threads = s.threads ++ List.replicate n Thread.idle) ∨
    (∃ op, l = .call op ∧ moves s l s' = [Move.called s.threads.length op] ∧ s'.shared = s.shared ∧
      s'.threads = s.threads ++ [Thread.entering op (.client .done)]) ∨
    ∃ i c th th', l = .run i c ∧ moves s l s' = [Move.moved i th th'] ∧ s.threads[i]? = some th ∧
      threadStep hash s.shared c th = some (s'.shared, th') ∧ s'.threads = s.threads.set i th' := by
  cases l with
  | tick now =>
      simp only [step] at h
      split_ifs at h
      cases h
      exact .inl ⟨rfl, rfl, rfl, 0, by simp⟩
  | start =>
      simp only [step] at h
      split at h <;> cases h
      · exact .inl ⟨rfl, rfl, rfl, cfg.workerCount, rfl⟩
      · exact .inl ⟨rfl, rfl, rfl, 0, by simp⟩
  | call op =>
      cases h
      exact .inr (.inl ⟨op, rfl, rfl, rfl, rfl⟩)
  | schedule i =>
      simp only [step] at h
      split_ifs at h
      cases h
      exact .inl ⟨rfl, rfl, rfl, 0, by simp⟩
  | run i c =>
      obtain ⟨th, hth, h⟩ := Option.bind_eq_some_iff.mp h
      obtain ⟨⟨sh, th'⟩, hstep, rfl⟩ := Option.map_eq_some_iff.mp h
      obtain ⟨hi, -⟩ := List.getElem?_eq_some_iff.mp hth
      refine .inr (.inr ⟨i, c, th, th', rfl, ?_, hth, hstep, rfl⟩)
      simp only [moves, hth, List.getElem?_set_self hi]

/-! ### The moves that matter -/

/-- The call ended with an exception. -/
def Thread.isRaised : Thread α V T → Bool
  | .finished (.raised _) => true
  | _ => false

/-- The thread is about to run a section that erases `k`. -/
def Thread.erases (cfg : AcceptedConfig T) (hash : Key α → ℕ) (k : Key α) : Thread α V T → Bool
  | .running (.delete key) _ => decide (key = k)
  | .clearing i _ => decide (i = shardFor cfg hash k)
  | _ => false

namespace Move

/-- The thread that moves or comes in. -/
def thread : Move α V T → ℕ
  | called i _ => i
  | moved i _ _ => i

/-- The leader of flight `f` for `k` calls its loader. -/
def starts (k : Key α) (f : ℕ) : Move α V T → Bool
  | moved _ (.leading key _ flight) _ => decide (key = k) && decide (flight = f)
  | _ => false

/-- A delete of `k`, or a clear on the shard of `k`, goes through. -/
def invalidates (cfg : AcceptedConfig T) (hash : Key α → ℕ) (k : Key α) : Move α V T → Bool
  | moved _ before after => before.erases cfg hash k && !after.isRaised
  | _ => false

end Move

end CacheLab
