import CacheLab.Lib.Tour
import CacheLab.Storage.Saves

/-!
# The state file is saved as a whole

`write_json` writes to a temporary file and puts it in the place of the state file only after an `fsync`. Any number
of calls of `write_json` and `read_json` run side by side, any of them can fail or be killed at any point, and the
power can go out.

* Nobody ever sees half a file (`state_file_never_torn`): the state file is as it was at first, or it has the whole
  text of a call that replaced it, also after power losses; and what a reader got was the content of the file at one
  moment of its call. A call that returned replaced the file once, a call that raised did not; one that was killed
  may have.
* While the power stays on, the file has the text of the call that was the last to replace it; and calls that were not
  killed, and whose `unlink` did not fail, leave no temporary file behind (`last_save_stays`).
-/

set_option linter.unusedSectionVars false

namespace CacheLab.WriteJson

variable {β : Type} {name : List Char} {old : Option (List β)}

/-! ### What readers get -/

/-- At some moment of the run the call of process `r` was under way and the file had this content. -/
def Met (name : List Char) (s₀ : State β) (r : ℕ) (ls : List (Label β)) (text : Option (List β)) : Prop :=
  ∃ ms u, ms <+: ls ∧ exec name s₀ ms = some u ∧
    (∃ proc, u.processes[r]? = some proc ∧ proc.point.over = false) ∧ u.files.content? name = text

/-- What readers have open, and what they got, was the content of the file during their calls. -/
structure Reads (name : List Char) (s₀ : State β) (ls : List (Label β)) (s : State β) : Prop where
  opened : ∀ (r : ℕ) (proc : Process β) (file : ℕ) (got : List β), s.processes[r]? = some proc →
    proc.point = .reading file got → ∃ c, s.files.files[file]? = some ⟨c, true⟩ ∧ Met name s₀ r ls (some c)
  loaded : ∀ (r : ℕ) (proc : Process β) (text : Option (List β)), s.processes[r]? = some proc →
    proc.point = .loaded text → Met name s₀ r ls text

section Reads

variable {s₀ s s' : State β} {l : Label β} {ls : List (Label β)} {p r : ℕ} {c : Choice} {text : Option (List β)}

/-- A moment stays in the past. -/
theorem Met.later (h : Met name s₀ r ls text) : Met name s₀ r (ls ++ [l]) text := by
  obtain ⟨ms, u, hms, hu, hcall, htext⟩ := h
  exact ⟨ms, u, hms.trans (List.prefix_append ls [l]), hu, hcall, htext⟩

/-- Now is a moment. -/
theorem met_now (hrun : exec name s₀ ls = some s) {proc : Process β} (hr : s.processes[r]? = some proc)
    (hcall : proc.point.over = false) : Met name s₀ r (ls ++ [l]) (s.files.content? name) :=
  ⟨ls, s, List.prefix_append ls [l], hrun, ⟨proc, hr, hcall⟩, rfl⟩

/-- A call begins. -/
theorem Reads.launch (h : Reads name s₀ ls s) {proc : Process β}
    (hreading : ∀ file got, proc.point ≠ .reading file got)
    (hloaded : ∀ text, proc.point ≠ .loaded text) :
    Reads name s₀ (ls ++ [l]) { s with processes := s.processes ++ [proc] } where
  opened r proc' file got hr hpoint := by
    rcases Transition.getElem?_append_cases hr with hold | hnew
    · obtain ⟨c, hc, hmet⟩ := h.opened r proc' file got hold hpoint
      exact ⟨c, hc, hmet.later⟩
    · cases List.mem_singleton.mp hnew
      exact absurd hpoint (hreading file got)
  loaded r proc' text hr hpoint := by
    rcases Transition.getElem?_append_cases hr with hold | hnew
    · exact (h.loaded r proc' text hold hpoint).later
    · cases List.mem_singleton.mp hnew
      exact absurd hpoint (hloaded text)

/-- **A process moves**: a reader opens the file that is there now, and what it has open does not change. -/
theorem Reads.run (h : Reads name s₀ ls s) (hrun : exec name s₀ ls = some s) (hsound : Sound name old s)
    {proc proc' : Process β} (hp : s.processes[p]? = some proc) (hact : Act name c p s proc s' proc') :
    Reads name s₀ (ls ++ [l]) { s' with processes := s.processes.set p proc' } := by
  obtain ⟨own, hframe, -⟩ := hact.frame
  have hstays : ∀ (r : ℕ) (proc₁ : Process β) (file : ℕ) (got : List β), s.processes[r]? = some proc₁ →
      proc₁.point = .reading file got →
      ∃ c, s'.files.files[file]? = some ⟨c, true⟩ ∧ Met name s₀ r (ls ++ [l]) (some c) := by
    intro r proc₁ file got hr hpoint
    obtain ⟨c, hc, hmet⟩ := h.opened r proc₁ file got hr hpoint
    have hfits := hsound.fits r proc₁ hr
    unfold Process.Fits at hfits
    rw [hpoint] at hfits
    exact ⟨c, hframe.content file c hfits.1 hc, hmet.later⟩
  constructor
  · intro r proc₁ file got hr hpoint
    rcases Transition.getElem?_set_cases hr with ⟨rfl, rfl⟩ | ⟨-, hr⟩
    · rcases hact.opened file got hpoint with hnow | ⟨before, hbefore⟩
      · obtain ⟨c, hc, -⟩ := hsound.whole.reached (Files.reached_of_names hnow)
        have hmet := met_now (l := l) hrun hp hact.busy
        rw [Files.content?_of_file hnow hc] at hmet
        exact ⟨c, hframe.content file c (Files.reached_of_names hnow) hc, hmet⟩
      · exact hstays _ _ file before hp hbefore
    · exact hstays r proc₁ file got hr hpoint
  · intro r proc₁ text hr hpoint
    rcases Transition.getElem?_set_cases hr with ⟨rfl, rfl⟩ | ⟨-, hr⟩
    · rcases hact.text text hpoint with hnow | ⟨file, got, f, hreading, hf, htext⟩
      · rw [hnow]
        exact met_now hrun hp hact.busy
      · obtain ⟨c, hc, hmet⟩ := h.opened _ _ file got hp hreading
        cases hf.symm.trans hc
        rw [htext]
        exact hmet.later
    · exact (h.loaded r proc₁ text hr hpoint).later

/-- A killed process reads no more, and what it got it had before. -/
theorem Reads.killed (h : Reads name s₀ ls s) {files : Files (List Char) β} {processes : List (Process β)}
    (hprocesses : ∀ q : ℕ, processes[q]? = s.processes[q]? ∧ files = s.files ∨
      processes[q]? = (s.processes[q]?).map Process.kill) :
    Reads name s₀ (ls ++ [l]) ⟨files, processes, s.commits⟩ := by
  constructor
  · intro r proc' file got hr hpoint
    rcases hprocesses r with ⟨hsame, rfl⟩ | hkill
    · obtain ⟨c, hc, hmet⟩ := h.opened r proc' file got (hsame ▸ hr) hpoint
      exact ⟨c, hc, hmet.later⟩
    · obtain ⟨proc, -, rfl⟩ := Option.map_eq_some_iff.mp (hkill.symm.trans hr)
      have hover := proc.over_kill
      rw [hpoint] at hover
      cases hover
  · intro r proc' text hr hpoint
    rcases hprocesses r with ⟨hsame, -⟩ | hkill
    · exact (h.loaded r proc' text (hsame ▸ hr) hpoint).later
    · obtain ⟨proc, hproc, rfl⟩ := Option.map_eq_some_iff.mp (hkill.symm.trans hr)
      refine (h.loaded r proc text hproc ?_).later
      unfold Process.kill at hpoint
      split_ifs at hpoint
      exact hpoint

/-- **Every step keeps what readers know.** -/
theorem Reads.step (h : Reads name s₀ ls s) (hrun : exec name s₀ ls = some s) (hsound : Sound name old s)
    (hs : step name s l = some s') : Reads name s₀ (ls ++ [l]) s' := by
  cases l with
  | write data =>
      cases hs
      exact h.launch nofun nofun
  | read =>
      cases hs
      exact h.launch nofun nofun
  | run p c =>
      obtain ⟨proc, hp, hmove⟩ := Option.bind_eq_some_iff.mp hs
      obtain ⟨⟨s₁, proc'⟩, hnext, rfl⟩ := Option.map_eq_some_iff.mp hmove
      exact h.run hrun hsound hp (next_act hsound.whole (hsound.fits p proc hp) hnext)
  | kill p =>
      obtain ⟨proc, hp, rfl⟩ := Option.map_eq_some_iff.mp hs
      exact h.killed (getElem?_killed hp)
  | powerLoss pick junk =>
      cases hs
      exact h.killed fun q => .inr List.getElem?_map

end Reads

/-! ### The last save -/

/-- The text of the last call that replaced the file, or the first content. -/
def lastSaved (old : Option (List β)) (s : State β) : Option (List β) :=
  match s.commits with
  | [] => old
  | p :: _ => (s.processes[p]?).map Process.data

/-- The power stays on. -/
def Label.powered : Label β → Bool
  | powerLoss _ _ => false
  | _ => true

/-- The step leaves no temporary file behind. -/
def Label.tidy (s : State β) : Label β → Bool
  | run p c => !((s.processes[p]?).any fun proc => proc.leaves c)
  | kill p => ((s.processes[p]?).bind fun proc => proc.point.temp).isNone
  | powerLoss _ _ => false
  | _ => true

/-- The names of temporary files belong to calls that are under way. -/
def Tidy (name : List Char) (s : State β) : Prop :=
  ∀ m i, m ≠ name → s.files.names m = some i →
    ∃ (p : ℕ) (proc : Process β), s.processes[p]? = some proc ∧ proc.point.temp = some (m, i)

section Last

variable {s s' : State β} {l : Label β} {ls : List (Label β)} {p : ℕ} {c : Choice}

/-- The last save depends on the texts of the calls. -/
theorem lastSaved_congr {s s' : State β} (hsound : Sound name old s) (hcommits : s'.commits = s.commits)
    (hdata : ∀ (q : ℕ) (proc : Process β), s.processes[q]? = some proc →
      ∃ proc', s'.processes[q]? = some proc' ∧ proc'.data = proc.data) : lastSaved old s = lastSaved old s' := by
  unfold lastSaved
  rw [hcommits]
  cases hlast : s.commits with
  | nil => rfl
  | cons p rest =>
      obtain ⟨proc, hp, -⟩ := hsound.behind p (hlast ▸ List.mem_cons_self)
      obtain ⟨proc', hp', heq⟩ := hdata p proc hp
      show (s.processes[p]?).map Process.data = (s'.processes[p]?).map Process.data
      rw [hp, hp']
      exact congrArg some heq.symm

/-- Calls that were there before new ones came. -/
theorem getElem?_launched {new : List (Process β)} (q : ℕ) (proc : Process β) (hq : s.processes[q]? = some proc) :
    ∃ proc', (s.processes ++ new)[q]? = some proc' ∧ proc'.data = proc.data :=
  ⟨proc, by rw [List.getElem?_append_left (List.getElem?_eq_some_iff.mp hq).1, hq], rfl⟩

/-- **A step keeps the file at the last save**, unless the power goes out. -/
theorem content_lastSaved (hsound : Sound name old s) (hs : step name s l = some s') (hl : l.powered = true)
    (h : s.files.content? name = lastSaved old s) : s'.files.content? name = lastSaved old s' := by
  cases l with
  | write data =>
      cases hs
      exact h.trans (lastSaved_congr hsound rfl getElem?_launched)
  | read =>
      cases hs
      exact h.trans (lastSaved_congr hsound rfl getElem?_launched)
  | run p c =>
      obtain ⟨proc, hp, hmove⟩ := Option.bind_eq_some_iff.mp hs
      obtain ⟨⟨s₁, proc'⟩, hnext, rfl⟩ := Option.map_eq_some_iff.mp hmove
      have hact := next_act hsound.whole (hsound.fits p proc hp) hnext
      rcases hact.outcome with ⟨hcommits, -, hnames, -⟩ | ⟨hcommits, -, -, hcontent, -⟩
      · obtain ⟨own, hframe, -⟩ := hact.frame
        have hlast : lastSaved old s = lastSaved old { s₁ with processes := s.processes.set p proc' } :=
          lastSaved_congr hsound hcommits fun q before hq => getElem?_moved hp hact.data_eq hq
        exact (hframe.content?_eq hsound.whole hnames).trans (h.trans hlast)
      · have hself : (s.processes.set p proc')[p]? = some proc' :=
          List.getElem?_set_self (List.getElem?_eq_some_iff.mp hp).1
        unfold lastSaved
        rw [hcommits]
        show s₁.files.content? name = ((s.processes.set p proc')[p]?).map Process.data
        rw [hcontent, hself, Option.map_some, hact.data_eq]
  | kill p =>
      obtain ⟨proc, hp, rfl⟩ := Option.map_eq_some_iff.mp hs
      exact h.trans (lastSaved_congr hsound rfl fun q before hq => getElem?_moved hp proc.data_kill hq)
  | powerLoss pick junk => cases hl

/-- **A step that is tidy** leaves no temporary file behind. -/
theorem Tidy.step (h : Tidy name s) (hsound : Sound name old s) (hs : step name s l = some s')
    (hl : l.tidy s = true) : Tidy name s' := by
  have hkept : ∀ new : List (Process β), Tidy name { s with processes := s.processes ++ new } := by
    intro new m i hm hnames
    obtain ⟨p, proc, hp, htemp⟩ := h m i hm hnames
    exact ⟨p, proc, by rw [List.getElem?_append_left (List.getElem?_eq_some_iff.mp hp).1, hp], htemp⟩
  cases l with
  | write data =>
      cases hs
      exact hkept _
  | read =>
      cases hs
      exact hkept _
  | run p c =>
      obtain ⟨proc, hp, hmove⟩ := Option.bind_eq_some_iff.mp hs
      obtain ⟨⟨s₁, proc'⟩, hnext, rfl⟩ := Option.map_eq_some_iff.mp hmove
      have hact := next_act hsound.whole (hsound.fits p proc hp) hnext
      have hleaves : proc.leaves c = false := by simpa [Label.tidy, hp] using hl
      intro m i hm hnames
      rcases hact.named hleaves m i hm hnames with hmine | ⟨hbefore, hother⟩
      · exact ⟨p, proc', List.getElem?_set_self (List.getElem?_eq_some_iff.mp hp).1, hmine⟩
      · obtain ⟨q, proc₁, hq, htemp⟩ := h m i hm hbefore
        have hne : p ≠ q := by
          rintro rfl
          cases hp.symm.trans hq
          exact hother htemp
        exact ⟨q, proc₁, (List.getElem?_set_ne hne).trans hq, htemp⟩
  | kill p =>
      obtain ⟨proc, hp, rfl⟩ := Option.map_eq_some_iff.mp hs
      have hnone : proc.point.temp = none := by simpa [Label.tidy, hp] using hl
      intro m i hm hnames
      obtain ⟨q, proc₁, hq, htemp⟩ := h m i hm hnames
      have hne : p ≠ q := by
        rintro rfl
        cases hp.symm.trans hq
        cases hnone.symm.trans htemp
      exact ⟨q, proc₁, (List.getElem?_set_ne hne).trans hq, htemp⟩
  | powerLoss pick junk => cases hl

end Last

/-! ### The theorems -/

section Run

variable {s : State β} {ls : List (Label β)}

theorem sound_exec (h : exec name (initial name old) ls = some s) : Sound name old s :=
  Transition.run_invariant_of_step (fun _ _ _ hs hsound => hsound.step hs) h (sound_initial name old)

/-- The readers of a run. -/
theorem reads_exec (h : exec name (initial name old) ls = some s) : Reads name (initial name old) ls s := by
  refine Transition.path_invariant h ?_ ⟨nofun, nofun⟩
  intro ms u l u' hu hs hreads
  exact hreads.step hu (sound_exec hu) hs

/-- **The state file is never torn.** Any number of calls of `write_json` and `read_json` run in any order, any step
can fail, any process can be killed, and the power can go out. Then the file is as it was at first or has the whole
text of a call that replaced it; a call replaces it at most once, has done so when it returned, and only calls that
returned, are about to, or were killed did; and what a reader got was the content of the file at a moment of its
call. -/
theorem state_file_never_torn (h : exec name (initial name old) ls = some s) :
    Known old s (s.files.content? name) ∧ s.commits.Nodup ∧
      (∀ (p : ℕ) (proc : Process β), s.processes[p]? = some proc → proc.point = .returned → p ∈ s.commits) ∧
      (∀ p ∈ s.commits, ∃ proc, s.processes[p]? = some proc ∧
        (proc.point = .replaced ∨ proc.point = .returned ∨ proc.point = .killed)) ∧
      ∀ (r : ℕ) (proc : Process β) (text : Option (List β)), s.processes[r]? = some proc →
        proc.point = .loaded text →
        ∃ ms u, ms <+: ls ∧ exec name (initial name old) ms = some u ∧
          (∃ proc, u.processes[r]? = some proc ∧ proc.point.over = false) ∧
          u.files.content? name = text ∧ Known old u text := by
  have hsound := sound_exec h
  refine ⟨hsound.whole.content, hsound.nodup, ?_, ?_, ?_⟩
  · intro p proc hp hreturned
    exact hsound.committed p proc hp (by rw [hreturned]; rfl)
  · intro p hp
    obtain ⟨proc, hproc, hreplaced | hkilled⟩ := hsound.behind p hp
    · refine ⟨proc, hproc, ?_⟩
      cases hpoint : proc.point with
      | replaced => exact .inl rfl
      | returned => exact .inr (.inl rfl)
      | _ =>
          rw [hpoint] at hreplaced
          cases hreplaced
    · exact ⟨proc, hproc, .inr (.inr hkilled)⟩
  · intro r proc text hr hpoint
    obtain ⟨ms, u, hms, hu, hcall, htext⟩ := (reads_exec h).loaded r proc text hr hpoint
    exact ⟨ms, u, hms, hu, hcall, htext, htext ▸ (sound_exec hu).whole.content⟩

/-- A file with `[7]`. A call writes `[1, 2]` and replaces it while a reader has the old file open; then the power
goes out, and the names fall back. -/
def readWhileReplaced : List (Label ℕ) :=
  [.write [1, 2], .read, .run 0 { rand := ['x'] }, .run 0 {}, .run 1 {}, .run 1 {}, .run 0 {}, .run 0 {}, .run 0 {},
    .run 0 {}, .run 0 {}, .run 1 {}, .run 1 {}, .powerLoss (fun _ => 1) fun _ => [0]]

/-- The call was cut off between the replace and its return, the reader got the old text, and the old text is back. -/
theorem state_file_never_torn_readWhileReplaced :
    ∃ s : State ℕ, exec ['s'] (initial ['s'] (some [7])) readWhileReplaced = some s ∧ s.commits = [0] ∧
      (s.processes[1]?).map Process.point = some (Point.loaded (some [7])) ∧ s.files.content? ['s'] = some [7] ∧
      Known (some [7]) s (s.files.content? ['s']) := by
  have heval : ((exec ['s'] (initial ['s'] (some [7])) readWhileReplaced).map fun s : State ℕ =>
      decide (s.commits = [0] ∧ (s.processes[1]?).map Process.point = some (Point.loaded (some [7])) ∧
        s.files.content? ['s'] = some [7])) = some true := by
    decide +kernel
  obtain ⟨s, hs, heval⟩ := Option.map_eq_some_iff.mp heval
  obtain ⟨hcommits, hread, hcontent⟩ := of_decide_eq_true heval
  exact ⟨s, hs, hcommits, hread, hcontent, (state_file_never_torn hs).1⟩

/-- **The last save stays.** While the power stays on, the file has the text of the call that was the last to replace
it, which happens once, while that call is under way (`state_file_never_torn`); and a reader gets the text of the call
that was the last one at a moment of its own call. If besides no call was killed with its temporary file, and no
`unlink` failed, every temporary file is that of a call that is under way. -/
theorem last_save_stays (h : exec name (initial name old) ls = some s) (hls : ∀ l ∈ ls, l.powered = true) :
    s.files.content? name = lastSaved old s ∧
      (∀ (r : ℕ) (proc : Process β) (text : Option (List β)), s.processes[r]? = some proc →
        proc.point = .loaded text →
        ∃ ms u, ms <+: ls ∧ exec name (initial name old) ms = some u ∧
          (∃ proc, u.processes[r]? = some proc ∧ proc.point.over = false) ∧ text = lastSaved old u) ∧
      (Transition.Along (step name) (fun s l => l.tidy s = true) (initial name old) ls → Tidy name s) := by
  have hlast : ∀ {ms u}, ms <+: ls → exec name (initial name old) ms = some u →
      u.files.content? name = lastSaved old u := by
    intro ms u hms hu
    have hstep : ∀ (s : State β) l s', l.powered = true → step name s l = some s' →
        Sound name old s ∧ s.files.content? name = lastSaved old s →
        Sound name old s' ∧ s'.files.content? name = lastSaved old s' :=
      fun s l s' hl hs hinv => ⟨hinv.1.step hs, content_lastSaved hinv.1 hs hl hinv.2⟩
    have hfirst : (initial name old).files.content? name = lastSaved old (initial name old) := by
      cases old <;> simp [initial, Files.content?, lastSaved]
    exact (Transition.run_invariant hstep hu
      (Transition.along_of_forall (fun l hl _ => hls l (hms.subset hl)) _) ⟨sound_initial name old, hfirst⟩).2
  refine ⟨hlast (List.prefix_refl ls) h, ?_, ?_⟩
  · intro r proc text hr hpoint
    obtain ⟨ms, u, hms, hu, hcall, htext⟩ := (reads_exec h).loaded r proc text hr hpoint
    exact ⟨ms, u, hms, hu, hcall, htext.symm.trans (hlast hms hu)⟩
  · intro halong
    have hstep : ∀ (s : State β) l s', l.tidy s = true → step name s l = some s' →
        Sound name old s ∧ Tidy name s → Sound name old s' ∧ Tidy name s' :=
      fun s l s' hl hs hinv => ⟨hinv.1.step hs, hinv.2.step hinv.1 hs hl⟩
    have hfirst : Tidy name (initial name old) := by
      intro m i hm hnames
      have hnone : (initial name old).files.names m = none := by simp [initial, hm]
      cases hnone.symm.trans hnames
    exact (Transition.run_invariant hstep h halong ⟨sound_initial name old, hfirst⟩).2

end Run

/-- Two calls overtake each other, the first one is the last to replace the file, and a reader comes in between. -/
def twoSaves : List (Label ℕ) :=
  [.write [1, 2], .write [3], .run 0 { rand := ['x'] }, .run 1 { rand := ['x'] }, .run 1 { rand := ['y'] },
    .run 0 {}, .run 1 {}, .run 1 {}, .run 1 {}, .run 1 {}, .run 1 {}, .read, .run 2 {}, .run 2 {}, .run 0 {},
    .run 0 {}, .run 0 {}, .run 0 {}, .run 0 {}, .run 2 {}, .run 2 {}]

/-- The text of the call that replaced the file last, whole, and no temporary file. -/
theorem last_save_stays_twoSaves :
    ∃ s : State ℕ, exec ['s'] (initial ['s'] none) twoSaves = some s ∧ s.commits = [0, 1] ∧
      (s.processes[2]?).map Process.point = some (Point.loaded (some [3])) ∧ s.files.content? ['s'] = some [1, 2] ∧
      s.files.content? ['s'] = lastSaved none s ∧ Tidy ['s'] s := by
  have heval : ((exec ['s'] (initial ['s'] none) twoSaves).map fun s : State ℕ =>
      decide (s.commits = [0, 1] ∧ (s.processes[2]?).map Process.point = some (Point.loaded (some [3])) ∧
        s.files.content? ['s'] = some [1, 2])) = some true := by
    decide +kernel
  obtain ⟨s, hs, heval⟩ := Option.map_eq_some_iff.mp heval
  obtain ⟨hcommits, hread, hcontent⟩ := of_decide_eq_true heval
  obtain ⟨hlast, -, htidy⟩ := last_save_stays hs (by decide)
  exact ⟨s, hs, hcommits, hread, hcontent, hlast, htidy (by decide +kernel)⟩

end CacheLab.WriteJson
