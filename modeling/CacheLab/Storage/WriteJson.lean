import CacheLab.Lib.Files
import CacheLab.Lib.Transition

/-!
# Writing the state file

`write_json` writes a new file next to the state file, syncs it, and puts it in the place of the old one; `read_json`
looks whether the file exists and reads it. This module is the transition system of any number of such calls on one
path, each of them in a process of its own.

* **Steps.** One step is one call of the operating system: `mkstemp`, one `write` of a piece of the text, `fsync`,
  the close, the replace, the unlink; `exists`, the open, one `read` of a piece. A label says which process moves,
  whether the call succeeds, how long the piece is and which name `mkstemp` tries.
* **Data.** The text that `json.dump` makes of `data` is the list of its bytes, as is what `json.load` is given. An
  exception of `json.dump` on the way is a failed step of the writer.
* **Ends.** A process can be killed anywhere: `except Exception` catches no `KeyboardInterrupt`. A power loss ends all
  processes and does to the files what `Files.lose` says; new calls may follow it.
* `commits` is a ghost list of the calls that replaced the file, the last one first. A call that replaced it has not
  returned yet: it can be killed in between, or other calls go on.

The directory exists (`path.parent.mkdir`), and nobody else writes to it.
-/

set_option linter.unusedSectionVars false

namespace CacheLab.WriteJson

variable {β : Type}

/-- The name of a temporary file.
Source: `storage/serialization.py` `write_json`, the `prefix` and the `suffix` of `mkstemp` -/
def tmpPath (name rand : List Char) : List Char := '.' :: name ++ '.' :: rand ++ ['.', 't', 'm', 'p']

/-- A temporary file has not the name of the state file. -/
theorem tmpPath_ne (name rand : List Char) : tmpPath name rand ≠ name := by
  intro h
  have hlength := congrArg List.length h
  simp only [tmpPath, List.length_append, List.length_cons] at hlength
  omega

/-- Where a call is.
Source: `storage/serialization.py` `write_json`, `read_json` -/
inductive Point (β : Type)
  /-- Before `mkstemp`. -/
  | making
  /-- In `json.dump` and the flush, with the text that is still to be written. -/
  | writing (tmp : List Char) (file : ℕ) (rest : List β)
  /-- Before `os.fsync`. -/
  | syncing (tmp : List Char) (file : ℕ)
  /-- Before the close at the end of the `with`. -/
  | closing (tmp : List Char) (file : ℕ)
  /-- Before `os.replace`. -/
  | replacing (tmp : List Char) (file : ℕ)
  /-- After `os.replace`. -/
  | replaced
  /-- In the handler, before `os.unlink`. -/
  | unlinking (tmp : List Char) (file : ℕ)
  /-- `write_json` returned. -/
  | returned
  /-- In `read_json`, before `path.exists`. -/
  | checking
  /-- Before `path.open`. -/
  | opening
  /-- In `json.load`, with what was read so far. -/
  | reading (file : ℕ) (got : List β)
  /-- `json.load` has the whole text; `none` stands for a file that does not exist. -/
  | loaded (text : Option (List β))
  /-- The call raised. -/
  | raised
  /-- The process is gone. -/
  | killed
  deriving DecidableEq

/-- The call is over. -/
def Point.over : Point β → Bool
  | returned | loaded _ | raised | killed => true
  | _ => false

/-- The call replaced the file. -/
def Point.behind : Point β → Bool
  | replaced | returned => true
  | _ => false

/-- The temporary file of a call. -/
def Point.temp : Point β → Option (List Char × ℕ)
  | writing tmp file _ => some (tmp, file)
  | syncing tmp file => some (tmp, file)
  | closing tmp file => some (tmp, file)
  | replacing tmp file => some (tmp, file)
  | unlinking tmp file => some (tmp, file)
  | _ => none

/-- A call, with the text that it is to write; a reader has none. -/
structure Process (β : Type) where
  data : List β
  point : Point β

/-- The files, the calls, and which of them replaced the file. -/
structure State (β : Type) where
  files : Files (List Char) β
  processes : List (Process β)
  commits : List ℕ

/-- What the operating system does in one step. -/
structure Choice where
  /-- Whether the call succeeds. -/
  ok : Bool := true
  /-- How much is written or read. -/
  piece : ℕ := 0
  /-- The name that `mkstemp` tries. -/
  rand : List Char := []

inductive Label (β : Type)
  /-- A process calls `write_json`. -/
  | write (data : List β)
  /-- A process calls `read_json`. -/
  | read
  | run (p : ℕ) (c : Choice)
  | kill (p : ℕ)
  | powerLoss (pick : List Char → ℕ) (junk : ℕ → List β)

/-- The state file has a content, or there is none. -/
def initial (name : List Char) (old : Option (List β)) : State β :=
  { files :=
      { files := (old.map fun c => ⟨c, true⟩).toList
        names := Function.update (fun _ => none) name (old.map fun _ => 0)
        past := [] }
    processes := []
    commits := [] }

/-- The next call of process `p` on the operating system.
Source: `storage/serialization.py` `write_json`, `read_json` -/
def Process.next (name : List Char) (p : ℕ) (c : Choice) (s : State β) (proc : Process β) :
    Option (State β × Process β) :=
  match proc.point with
  | .making =>
      if c.ok then
        -- the name is taken: `mkstemp` tries another one
        if (s.files.names (tmpPath name c.rand)).isSome then some (s, proc)
        else
          some ({ s with files := s.files.create (tmpPath name c.rand) },
            { proc with point := .writing (tmpPath name c.rand) s.files.files.length proc.data })
      else some (s, { proc with point := .raised })
  | .writing tmp file rest =>
      if c.ok then
        if rest = [] then some (s, { proc with point := .syncing tmp file })
        else
          some ({ s with files := s.files.append file (rest.take (c.piece + 1)) },
            { proc with point := .writing tmp file (rest.drop (c.piece + 1)) })
      -- the end of the `with` closes the file, which writes out what is in its buffer
      else
        some ({ s with files := s.files.append file (rest.take c.piece) },
          { proc with point := .unlinking tmp file })
  | .syncing tmp file =>
      if c.ok then some ({ s with files := s.files.sync file }, { proc with point := .closing tmp file })
      else some (s, { proc with point := .unlinking tmp file })
  | .closing tmp file =>
      some (s, { proc with point := if c.ok then .replacing tmp file else .unlinking tmp file })
  | .replacing tmp file =>
      match c.ok, s.files.rename tmp name with
      | true, some files =>
          some ({ s with files := files, commits := p :: s.commits }, { proc with point := .replaced })
      | _, _ => some (s, { proc with point := .unlinking tmp file })
  | .replaced => some (s, { proc with point := .returned })
  | .unlinking tmp _ =>
      some (if c.ok then { s with files := s.files.unlink tmp } else s, { proc with point := .raised })
  | .checking =>
      if c.ok then
        if (s.files.names name).isSome then some (s, { proc with point := .opening })
        else some (s, { proc with point := .loaded none })
      else some (s, { proc with point := .raised })
  | .opening =>
      match c.ok, s.files.names name with
      | true, some file => some (s, { proc with point := .reading file [] })
      | _, _ => some (s, { proc with point := .raised })
  | .reading file got =>
      match c.ok, s.files.files[file]? with
      | true, some f =>
          if f.content.drop got.length = [] then some (s, { proc with point := .loaded (some got) })
          else
            some (s, { proc with
              point := .reading file (got ++ (f.content.drop got.length).take (c.piece + 1)) })
      | _, _ => some (s, { proc with point := .raised })
  | _ => none

/-- A process that is gone. -/
def Process.kill (proc : Process β) : Process β :=
  if proc.point.over then proc else { proc with point := .killed }

/-- One step of the processes on a path. -/
def step (name : List Char) (s : State β) : Label β → Option (State β)
  | .write data => some { s with processes := s.processes ++ [⟨data, .making⟩] }
  | .read => some { s with processes := s.processes ++ [⟨[], .checking⟩] }
  | .run p c =>
      s.processes[p]?.bind fun proc =>
        (proc.next name p c s).map fun r => { r.1 with processes := s.processes.set p r.2 }
  | .kill p =>
      s.processes[p]?.map fun proc => { s with processes := s.processes.set p proc.kill }
  | .powerLoss pick junk =>
      some { s with files := s.files.lose pick junk, processes := s.processes.map Process.kill }

/-- Execute a list of labels. -/
abbrev exec (name : List Char) (s : State β) (ls : List (Label β)) : Option (State β) :=
  Transition.run (step name) s ls

end CacheLab.WriteJson
