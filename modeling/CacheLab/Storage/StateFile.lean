import CacheLab.Lib.Transition
import Mathlib.Data.Rat.Defs
import Mathlib.Algebra.Order.Ring.Rat
import Mathlib.Tactic

/-!
# The state file of the command line

A command of the command line loads the state file, changes it and saves it, with a lock file next to it
that is created exclusively on entry and unlinked on exit. This module is the transition system of any
number of such processes on one state file.

* **Steps.** One step is one call of the operating system: the exclusive create, the write of the payload,
  the reading of the clock, the `stat`, the unlink of the acquire loop, the test of the deadline, the load,
  the save (a rename, so one step), the close and the unlink on exit. A label says which process moves and
  whether the call succeeds.
* **Content.** The content of the state file is of any type, and what a command makes of it any function
  of the content and of the times of the load and the save. `log` is a ghost list of these functions, the
  last save first.
* **Files.** A lock file is known by the process that created it; a process creates at most one.
* **Crashes.** A process can stop anywhere. A process whose `write` or `close` fails leaves its lock file
  behind, as a crashed one does.
-/

namespace CacheLab.StateFile

/-- Source: `storage/serialization.py` `_STALE_LOCK_SECONDS` -/
def staleLockSeconds : ℚ := 30

/-- Source: `storage/serialization.py` `StateFileLock.__init__` -/
def timeout : ℚ := 5

/-- Source: `cli/commands/basic.py` `BASIC_COMMANDS` -/
inductive Command
  | put
  | get
  | delete
  | contains
  | inspect
  | dump
  | clear
  | stats
  deriving DecidableEq

/-- The commands that write the state file back.
Source: `cli/commands/basic.py` `run_basic` -/
def Command.saves : Command → Bool
  | put | delete | clear => true
  | _ => false

/-- A command with what it makes of the content, given the times of its load and its save. -/
structure Invocation (C : Type) where
  command : Command
  effect : ℚ → ℚ → C → C

/-- Where a process is.
Source: `storage/serialization.py` `StateFileLock`, `cli/commands/basic.py` `run_basic` -/
inductive Phase (C : Type)
  /-- Before the exclusive create. -/
  | opening (deadline : ℚ)
  /-- The lock file is created, before the write of the payload. -/
  | writing
  /-- The create failed, before the reading of the clock. -/
  | judging (deadline : ℚ)
  /-- Before the `stat` of the lock file. -/
  | statting (deadline time : ℚ)
  /-- The lock was judged stale, before the unlink. -/
  | unlinking (deadline : ℚ)
  /-- Before the test of the deadline. -/
  | waiting (deadline : ℚ)
  | sleeping (deadline wake : ℚ)
  /-- `__enter__` returned, before the load. -/
  | loading
  /-- The content was loaded at a time. -/
  | loaded (time : ℚ) (content : C)
  /-- The body is over, before the close of the lock file. -/
  | leaving
  /-- Before the unlink on exit. -/
  | releasing
  /-- The process returned, raised or crashed. -/
  | ended

/-- Between a successful `__enter__` and the end of `__exit__`, the write of the payload included. -/
def Phase.owns {C : Type} : Phase C → Bool
  | writing | loading | loaded .. | leaving | releasing => true
  | _ => false

/-- Between a successful `__enter__` and its `__exit__`. -/
def Phase.inside {C : Type} : Phase C → Bool
  | loading | loaded .. | leaving => true
  | _ => false

/-- The lock file. -/
structure LockFile where
  owner : ℕ
  mtime : ℚ

/-- What the processes share: the clock and the files. -/
structure Disk (C : Type) where
  now : ℚ
  lock : Option LockFile
  content : C
  log : List (C → C)

/-- A process, with the time at which it created the lock file. -/
structure Process (C : Type) where
  invocation : Invocation C
  phase : Phase C
  acquiredAt : ℚ

structure State (C : Type) where
  disk : Disk C
  processes : List (Process C)

inductive Label (C : Type)
  /-- Time passes. -/
  | tick (now : ℚ)
  /-- A process starts a command. -/
  | launch (invocation : Invocation C)
  /-- A process makes its next call, which succeeds or not. -/
  | run (p : ℕ) (ok : Bool)
  | crash (p : ℕ)

variable {C : Type}

/-- No lock file, no process. -/
def initial (now : ℚ) (content : C) : State C := ⟨⟨now, none, content, []⟩, []⟩

/-- Source: `storage/serialization.py` `StateFileLock._lock_is_stale` -/
def LockFile.isStale (time : ℚ) : Option LockFile → Bool
  | none => true
  | some f => decide (staleLockSeconds ≤ time - f.mtime)

/-- What a `stat` of the lock file finds. -/
def Disk.stat (d : Disk C) (ok : Bool) : Option LockFile := if ok then d.lock else none

/-- Whatever lock file is there is gone. -/
def Disk.unlink (d : Disk C) (ok : Bool) : Disk C := if ok then { d with lock := none } else d

/-- The write of the payload sets the time of the file, which may no longer stand at its path. -/
def Disk.writePayload (d : Disk C) (p : ℕ) : Disk C :=
  { d with lock := d.lock.map fun f => if f.owner = p then { f with mtime := d.now } else f }

/-- The state file is replaced.
Source: `storage/serialization.py` `write_json` -/
def Disk.save (d : Disk C) (update : C → C) (content : C) : Disk C :=
  { d with content := update content, log := update :: d.log }

/-- The next call of process `p`.
Source: `storage/serialization.py` `StateFileLock`, `cli/commands/basic.py` `run_basic` -/
def Process.next (p : ℕ) (ok : Bool) (d : Disk C) (proc : Process C) : Option (Disk C × Process C) :=
  match proc.phase with
  | .opening deadline =>
      match ok, d.lock with
      | false, _ => some (d, { proc with phase := .ended })
      | true, some _ => some (d, { proc with phase := .judging deadline })
      | true, none =>
          some ({ d with lock := some ⟨p, d.now⟩ }, { proc with phase := .writing, acquiredAt := d.now })
  | .writing =>
      if ok then some (d.writePayload p, { proc with phase := .loading })
      else some (d, { proc with phase := .ended })
  | .judging deadline => some (d, { proc with phase := .statting deadline d.now })
  | .statting deadline time =>
      -- a `stat` that fails counts as stale
      if LockFile.isStale time (d.stat ok) then
        some (d, { proc with phase := .unlinking deadline })
      else some (d, { proc with phase := .waiting deadline })
  | .unlinking deadline => some (d.unlink ok, { proc with phase := .waiting deadline })
  | .waiting deadline =>
      if deadline ≤ d.now then some (d, { proc with phase := .ended })
      else some (d, { proc with phase := .sleeping deadline (d.now + 1 / 20) })
  | .sleeping deadline wake =>
      if wake ≤ d.now then some (d, { proc with phase := .opening deadline }) else none
  | .loading =>
      if ok then some (d, { proc with phase := .loaded d.now d.content })
      else some (d, { proc with phase := .leaving })
  | .loaded time content =>
      -- a command that raises leaves without saving
      if ok && proc.invocation.command.saves then
        some (d.save (proc.invocation.effect time d.now) content, { proc with phase := .leaving })
      else some (d, { proc with phase := .leaving })
  | .leaving => some (d, { proc with phase := if ok then .releasing else .ended })
  | .releasing => some (d.unlink ok, { proc with phase := .ended })
  | .ended => none

/-- One step of the processes on a state file. -/
def step (s : State C) : Label C → Option (State C)
  | .tick now => if s.disk.now ≤ now then some { s with disk := { s.disk with now := now } } else none
  | .launch invocation =>
      some { s with processes := s.processes ++ [⟨invocation, .opening (s.disk.now + timeout), s.disk.now⟩] }
  | .run p ok =>
      s.processes[p]?.bind fun proc =>
        (proc.next p ok s.disk).map fun r => ⟨r.1, s.processes.set p r.2⟩
  | .crash p =>
      s.processes[p]?.map fun proc =>
        { s with processes := s.processes.set p { proc with phase := .ended } }

/-- Execute a list of labels. -/
abbrev exec (s : State C) (ls : List (Label C)) : Option (State C) := Transition.run step s ls

end CacheLab.StateFile
