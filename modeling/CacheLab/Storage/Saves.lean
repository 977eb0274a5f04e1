import CacheLab.Storage.WriteJson

/-!
# The calls on the state file

`Act` says what one step of `write_json` or `read_json` does to the files, and `next_act` reads it off the source.
`Sound` is the invariant of any number of such calls, in any order, with failures, kills and power losses:

* what the state file is, or may be after a power loss, is on the disk and is as it was at first or the whole text of
  a call that replaced it (`whole`);
* the temporary file of a call holds what the call has written, under a name that nobody else uses (`fits`, `apart`);
* a call replaces the file at most once; those that did are behind the replace or were killed there (`behind`), and
  those that are behind it did (`committed`).
-/

set_option linter.unusedSectionVars false

namespace CacheLab.WriteJson

variable {β : Type} {name : List Char} {old : Option (List β)}

/-! ### One step of a process -/

/-- The text is the first one, or that of a call that replaced the file. -/
def Known (old : Option (List β)) (s : State β) (text : Option (List β)) : Prop :=
  text = old ∨ ∃ p ∈ s.commits, ∃ proc, s.processes[p]? = some proc ∧ text = some proc.data

/-- The file that a call works on is as the call left it. -/
def Process.Fits (name : List Char) (F : Files (List Char) β) (proc : Process β) : Prop :=
  match proc.point with
  | .writing tmp file rest => ∃ c, F.Private name tmp file ⟨c, false⟩ ∧ c ++ rest = proc.data
  | .syncing tmp file => F.Private name tmp file ⟨proc.data, false⟩
  | .closing tmp file => F.Private name tmp file ⟨proc.data, true⟩
  | .replacing tmp file => F.Private name tmp file ⟨proc.data, true⟩
  | .unlinking tmp file => ∃ f, F.Private name tmp file f
  | .reading file got => F.Reached name file ∧ ∃ c, F.files[file]? = some ⟨c, true⟩ ∧ got <+: c
  | _ => True

/-- The step ends a call and leaves its temporary file behind. -/
def Process.leaves (c : Choice) (proc : Process β) : Bool :=
  match proc.point with
  | .unlinking _ _ => !c.ok
  | _ => false

/-- What a step of process `p` does. -/
structure Act (name : List Char) (c : Choice) (p : ℕ) (s : State β) (proc : Process β) (s' : State β)
    (proc' : Process β) : Prop where
  data_eq : proc'.data = proc.data
  busy : proc.point.over = false
  fits : proc'.Fits name s'.files
  temp : ∀ t, proc'.point.temp = some t → proc.point.temp = some t ∨ t.2 = s.files.files.length
  frame : ∃ own, Files.Frame name own s.files s'.files ∧
    (own = s.files.files.length ∨ ∃ tmp, proc.point.temp = some (tmp, own))
  /-- The state file stays, or the call replaces it. -/
  outcome : s'.commits = s.commits ∧ proc'.point.behind = proc.point.behind ∧ s'.files.names name = s.files.names name ∧
      (∀ P, s.files.Whole P name → s'.files.Whole P name) ∨
    s'.commits = p :: s.commits ∧ proc.point.behind = false ∧ proc'.point.behind = true ∧
      s'.files.content? name = some proc.data ∧
      ∀ P, P (some proc.data) → s.files.Whole P name → s'.files.Whole P name
  /-- What a reader gets is there now, or it is the content of the file that it has open. -/
  text : ∀ text, proc'.point = .loaded text → text = s.files.content? name ∨
    ∃ file got f, proc.point = .reading file got ∧ s.files.files[file]? = some f ∧ text = some f.content
  opened : ∀ file got, proc'.point = .reading file got →
    s.files.names name = some file ∨ ∃ before, proc.point = .reading file before
  /-- Names of temporary files belong to a call, or did not belong to this one. -/
  named : proc.leaves c = false → ∀ m i, m ≠ name → s'.files.names m = some i →
    proc'.point.temp = some (m, i) ∨ s.files.names m = some i ∧ proc.point.temp ≠ some (m, i)

section Next

variable {s s' : State β} {proc proc' : Process β} {p : ℕ} {c : Choice} {P : Option (List β) → Prop}

/-- No point behind the replace, and none of a reader that has the file. -/
def Point.plain : Point β → Bool
  | replaced | returned | reading _ _ | loaded _ => false
  | _ => true

theorem Point.not_loaded {point : Point β} (h : point.plain = true) (text : Option (List β)) :
    point ≠ .loaded text := by
  rintro rfl
  cases h

theorem Point.not_reading {point : Point β} (h : point.plain = true) (file : ℕ) (got : List β) :
    point ≠ .reading file got := by
  rintro rfl
  cases h

theorem Point.not_behind {point : Point β} (h : point.plain = true) : point.behind = false := by
  cases point <;> first | rfl | cases h

/-- A call with a temporary file did not replace the file. -/
theorem Point.behind_of_temp {point : Point β} {t : List Char × ℕ} (h : point.temp = some t) :
    point.behind = false := by
  cases point <;> first | rfl | cases h

/-- A step that changes no file. -/
theorem act_still (hdata : proc'.data = proc.data) (hbusy : proc.point.over = false)
    (hfits : proc'.Fits name s.files) (htemp : proc'.point.temp = proc.point.temp)
    (hbehind : proc'.point.behind = proc.point.behind)
    (htext : ∀ text, proc'.point = .loaded text → text = s.files.content? name ∨
      ∃ file got f, proc.point = .reading file got ∧ s.files.files[file]? = some f ∧ text = some f.content)
    (hopened : ∀ file got, proc'.point = .reading file got →
      s.files.names name = some file ∨ ∃ before, proc.point = .reading file before) :
    Act name c p s proc s proc' where
  data_eq := hdata
  busy := hbusy
  fits := hfits
  temp t ht := .inl (htemp ▸ ht)
  frame := ⟨s.files.files.length, .refl _, .inl rfl⟩
  outcome := .inl ⟨rfl, hbehind, rfl, fun _ h => h⟩
  text := htext
  opened := hopened
  named _ m i _ hm := by
    by_cases hmine : proc.point.temp = some (m, i)
    · exact .inl (htemp.trans hmine)
    · exact .inr ⟨hm, hmine⟩

/-- A step that changes no file and leads to a plain point. -/
theorem act_plain (hdata : proc'.data = proc.data) (hbusy : proc.point.over = false)
    (hfits : proc'.Fits name s.files) (htemp : proc'.point.temp = proc.point.temp)
    (hbefore : proc.point.behind = false) (hplain : proc'.point.plain = true) : Act name c p s proc s proc' := by
  refine act_still hdata hbusy hfits htemp ((Point.not_behind hplain).trans hbefore.symm) ?_ ?_
  · intro text htext
    exact absurd htext (Point.not_loaded hplain text)
  · intro file got hreading
    exact absurd hreading (Point.not_reading hplain file got)

/-- A step on the private file of a call, which ends no call. -/
theorem act_private {files : Files (List Char) β} {tmp : List Char} {file : ℕ}
    (htemp : proc.point.temp = some (tmp, file)) (hdata : proc'.data = proc.data)
    (hbusy : proc.point.over = false) (hfits : proc'.Fits name files)
    (htemp' : proc'.point.temp = some (tmp, file)) (hframe : Files.Frame name file s.files files)
    (hnames : files.names = s.files.names) (hwhole : ∀ P, s.files.Whole P name → files.Whole P name) :
    Act name c p s proc { s with files := files } proc' where
  data_eq := hdata
  busy := hbusy
  fits := hfits
  temp t ht := .inl (htemp.trans (htemp'.symm.trans ht))
  frame := ⟨file, hframe, .inr ⟨tmp, htemp⟩⟩
  outcome := by
    refine .inl ⟨rfl, ?_, congrFun hnames name, hwhole⟩
    rw [Point.behind_of_temp htemp, Point.behind_of_temp htemp']
  text text htext := by
    rw [htext] at htemp'
    cases htemp'
  opened file got hreading := by
    rw [hreading] at htemp'
    cases htemp'
  named _ m i _ hm := by
    by_cases hmine : proc.point.temp = some (m, i)
    · exact .inl (htemp'.trans (htemp.symm.trans hmine))
    · exact .inr ⟨(congrFun hnames m) ▸ hm, hmine⟩

/-- **What a step of a process does.** -/
theorem next_act (hwhole : s.files.Whole P name) (hfits : proc.Fits name s.files)
    (h : proc.next name p c s = some (s', proc')) : Act name c p s proc s' proc' := by
  obtain ⟨data, point⟩ := proc
  cases point with
  | making =>
      simp only [Process.next] at h
      split_ifs at h with hok htaken
      · cases h
        exact act_plain rfl rfl hfits rfl rfl rfl
      · cases h
        have hnew : s.files.names (tmpPath name c.rand) = none := by simpa using htaken
        have hne := tmpPath_ne name c.rand
        refine ⟨rfl, rfl, ?_, ?_, ?_, ?_, ?_, ?_, ?_⟩
        · exact ⟨[], Files.private_create hne hwhole, rfl⟩
        · intro t ht
          cases ht
          exact .inr rfl
        · exact ⟨_, Files.frame_create hnew hne, .inl rfl⟩
        · exact .inl ⟨rfl, rfl, Function.update_of_ne hne.symm _ _, fun _ hP => hP.create hne⟩
        · intro text htext
          cases htext
        · intro file got hreading
          cases hreading
        · intro _ m i _ hm
          rcases eq_or_ne m (tmpPath name c.rand) with rfl | hother
          · have hnow := (Files.private_create hne hwhole).named.symm.trans hm
            cases hnow
            exact .inl rfl
          · refine .inr ⟨(Function.update_of_ne hother _ _).symm.trans hm, ?_⟩
            intro hmine
            cases hmine
      · cases h
        exact act_plain rfl rfl trivial rfl rfl rfl
  | writing tmp file rest =>
      obtain ⟨written, hprivate, hdata⟩ := hfits
      simp only [Process.next] at h
      split_ifs at h with hok hrest <;> cases h
      · refine act_plain rfl rfl ?_ rfl rfl rfl
        rw [hrest, List.append_nil] at hdata
        obtain rfl : written = data := hdata
        exact hprivate
      · refine act_private rfl rfl rfl ?_ rfl (Files.frame_append hprivate) rfl fun _ hP =>
          hP.append hprivate.unreached
        refine ⟨_, hprivate.append_self, ?_⟩
        rw [List.append_assoc, List.take_append_drop]
        exact hdata
      · exact act_private rfl rfl rfl ⟨_, hprivate.append_self⟩ rfl (Files.frame_append hprivate) rfl fun _ hP =>
          hP.append hprivate.unreached
  | syncing tmp file =>
      simp only [Process.next] at h
      split_ifs at h <;> cases h
      · exact act_private rfl rfl rfl (Files.Private.sync_self hfits) rfl Files.frame_sync rfl fun _ hP => hP.sync
      · exact act_plain rfl rfl ⟨_, hfits⟩ rfl rfl rfl
  | closing tmp file =>
      cases h
      cases c.ok with
      | true => exact act_plain rfl rfl hfits rfl rfl rfl
      | false => exact act_plain rfl rfl ⟨_, hfits⟩ rfl rfl rfl
  | replacing tmp file =>
      simp only [Process.next] at h
      split at h
      · next files _ hrename =>
          cases h
          refine ⟨rfl, rfl, trivial, ?_, ⟨file, Files.frame_rename hfits hrename, .inr ⟨tmp, rfl⟩⟩, ?_, ?_, ?_, ?_⟩
          · intro t ht
            cases ht
          · exact .inr ⟨rfl, rfl, rfl, Files.content?_rename hfits hrename, fun P hP hold => hold.rename hrename hfits hP⟩
          · intro text htext
            cases htext
          · intro file got hreading
            cases hreading
          · intro _ m i hm hnames
            unfold Files.rename at hrename
            rw [Files.Private.named hfits] at hrename
            cases hrename
            have hother : m ≠ tmp := by
              rintro rfl
              cases (Function.update_self _ _ _).symm.trans hnames
            refine .inr ⟨?_, ?_⟩
            · exact ((Function.update_of_ne hother _ _).trans (Function.update_of_ne hm _ _)).symm.trans hnames
            · intro hmine
              cases hmine
              exact hother rfl
      · cases h
        exact act_plain rfl rfl ⟨_, hfits⟩ rfl rfl rfl
  | replaced =>
      cases h
      refine act_still rfl rfl trivial rfl rfl ?_ ?_
      · intro text htext
        cases htext
      · intro file got hreading
        cases hreading
  | unlinking tmp file =>
      obtain ⟨f, hprivate⟩ := hfits
      cases h
      cases hok : c.ok with
      | true =>
          refine ⟨rfl, rfl, trivial, ?_, ⟨file, Files.frame_unlink hprivate, .inr ⟨tmp, rfl⟩⟩, ?_, ?_, ?_, ?_⟩
          · intro t ht
            cases ht
          · exact .inl ⟨rfl, rfl, Function.update_of_ne hprivate.other.symm _ _,
              fun _ hP => hP.unlink hprivate.other⟩
          · intro text htext
            cases htext
          · intro file got hreading
            cases hreading
          · intro _ m i _ hnames
            have hother : m ≠ tmp := by
              rintro rfl
              cases (Function.update_self _ _ _).symm.trans hnames
            refine .inr ⟨(Function.update_of_ne hother _ _).symm.trans hnames, ?_⟩
            intro hmine
            cases hmine
            exact hother rfl
      | false =>
          refine ⟨rfl, rfl, trivial, ?_, ⟨_, .refl _, .inl rfl⟩,
            .inl ⟨rfl, rfl, rfl, fun _ hP => hP⟩, ?_, ?_, ?_⟩
          · intro t ht
            cases ht
          · intro text htext
            cases htext
          · intro file got hreading
            cases hreading
          · intro hleaves
            simp [Process.leaves, hok] at hleaves
  | checking =>
      simp only [Process.next] at h
      split_ifs at h with hok hthere <;> cases h
      · exact act_plain rfl rfl trivial rfl rfl rfl
      · refine act_still rfl rfl trivial rfl rfl ?_ ?_
        · intro text htext
          cases htext
          have hnone : s.files.names name = none := by simpa using hthere
          simp [Files.content?, hnone]
        · intro file got hreading
          cases hreading
      · exact act_plain rfl rfl trivial rfl rfl rfl
  | opening =>
      simp only [Process.next] at h
      split at h
      · next file _ hfile =>
          cases h
          obtain ⟨text, htext, -⟩ := hwhole.reached (Files.reached_of_names hfile)
          refine act_still rfl rfl ⟨Files.reached_of_names hfile, text, htext, List.nil_prefix⟩ rfl rfl ?_ ?_
          · intro text' hloaded
            cases hloaded
          · intro file' got hgot
            cases hgot
            exact .inl hfile
      · cases h
        exact act_plain rfl rfl trivial rfl rfl rfl
  | reading file got =>
      obtain ⟨hreached, content, hcontent, hgot⟩ := hfits
      simp only [Process.next, hcontent] at h
      split at h
      · next f _ hf =>
          cases hf
          obtain ⟨rest, rfl⟩ := hgot
          rw [List.drop_left] at h
          split_ifs at h with hrest <;> cases h
          · refine act_still rfl rfl trivial rfl rfl ?_ ?_
            · intro text htext
              cases htext
              exact .inr ⟨file, got, _, rfl, hcontent, by rw [hrest, List.append_nil]⟩
            · intro file' got' hreading
              cases hreading
          · refine act_still rfl rfl ⟨hreached, _, hcontent, ?_⟩ rfl rfl ?_ ?_
            · exact (List.prefix_append_right_inj got).mpr (List.take_prefix _ rest)
            · intro text htext
              cases htext
            · intro file' got' hgot'
              cases hgot'
              exact .inr ⟨got, rfl⟩
      · cases h
        exact act_plain rfl rfl trivial rfl rfl rfl
  | _ => cases h

end Next

/-! ### The invariant -/

/-- **What holds between any two steps.** -/
structure Sound (name : List Char) (old : Option (List β)) (s : State β) : Prop where
  whole : s.files.Whole (Known old s) name
  fits : ∀ (p : ℕ) (proc : Process β), s.processes[p]? = some proc → proc.Fits name s.files
  /-- No two calls work on one file. -/
  apart : ∀ (p q : ℕ) (proc proc' : Process β), s.processes[p]? = some proc → s.processes[q]? = some proc' → p ≠ q →
    ∀ t t', proc.point.temp = some t → proc'.point.temp = some t' → t.2 ≠ t'.2
  committed : ∀ (p : ℕ) (proc : Process β), s.processes[p]? = some proc → proc.point.behind = true → p ∈ s.commits
  behind : ∀ p ∈ s.commits, ∃ proc, s.processes[p]? = some proc ∧ (proc.point.behind = true ∨ proc.point = .killed)
  nodup : s.commits.Nodup

/-- A temporary file is private. -/
theorem Process.Fits.private {F : Files (List Char) β} {proc : Process β} (h : proc.Fits name F) {t : List Char × ℕ}
    (ht : proc.point.temp = some t) : ∃ f, F.Private name t.1 t.2 f := by
  obtain ⟨data, point⟩ := proc
  cases point with
  | writing tmp file rest =>
      cases ht
      obtain ⟨c, hprivate, -⟩ := h
      exact ⟨_, hprivate⟩
  | syncing tmp file =>
      cases ht
      exact ⟨_, h⟩
  | closing tmp file =>
      cases ht
      exact ⟨_, h⟩
  | replacing tmp file =>
      cases ht
      exact ⟨_, h⟩
  | unlinking tmp file =>
      cases ht
      exact h
  | _ => cases ht

/-- Work on another file leaves the file of a call alone. -/
theorem Process.Fits.frame {F G : Files (List Char) β} {proc : Process β} {own : ℕ} (h : proc.Fits name F)
    (hframe : Files.Frame name own F G) (hown : ∀ t, proc.point.temp = some t → t.2 ≠ own) : proc.Fits name G := by
  obtain ⟨data, point⟩ := proc
  cases point with
  | writing tmp file rest =>
      obtain ⟨c, hprivate, hdata⟩ := h
      exact ⟨c, hframe.alone _ _ _ (hown _ rfl) hprivate, hdata⟩
  | syncing tmp file => exact hframe.alone _ _ _ (hown _ rfl) h
  | closing tmp file => exact hframe.alone _ _ _ (hown _ rfl) h
  | replacing tmp file => exact hframe.alone _ _ _ (hown _ rfl) h
  | unlinking tmp file =>
      obtain ⟨f, hprivate⟩ := h
      exact ⟨f, hframe.alone _ _ _ (hown _ rfl) hprivate⟩
  | reading file got =>
      obtain ⟨hreached, c, hc, hgot⟩ := h
      exact ⟨hframe.reached file hreached, c, hframe.content file c hreached hc, hgot⟩
  | _ => exact trivial

/-- A call that is over works on no file. -/
theorem Process.fits_of_over {F : Files (List Char) β} {proc : Process β} (h : proc.point.over = true) :
    proc.Fits name F := by
  obtain ⟨data, point⟩ := proc
  cases point with
  | returned => exact trivial
  | loaded text => exact trivial
  | raised => exact trivial
  | killed => exact trivial
  | _ => cases h

theorem Point.temp_of_over {point : Point β} (h : point.over = true) : point.temp = none := by
  cases point <;> first | rfl | cases h

/-- A killed process is over. -/
theorem Process.over_kill (proc : Process β) : proc.kill.point.over = true := by
  unfold Process.kill
  split_ifs with h
  · exact h
  · rfl

theorem Process.data_kill (proc : Process β) : proc.kill.data = proc.data := by
  unfold Process.kill
  split_ifs <;> rfl

/-- Killed behind the replace, or a call that is over. -/
theorem Process.behind_kill (proc : Process β) :
    (proc.kill.point.behind = true → proc.point.behind = true) ∧
      (proc.point.behind = true ∨ proc.point = .killed →
        proc.kill.point.behind = true ∨ proc.kill.point = .killed) := by
  unfold Process.kill
  split_ifs with h
  · exact ⟨id, id⟩
  · exact ⟨fun hbehind => (by cases hbehind), fun _ => .inr rfl⟩

section Step

variable {s s' : State β} {l : Label β} {p : ℕ} {c : Choice}

/-- What is known stays known. -/
theorem Known.mono {text : Option (List β)} (h : Known old s text)
    (hprocesses : ∀ (p : ℕ) (proc : Process β), s.processes[p]? = some proc →
      ∃ proc', s'.processes[p]? = some proc' ∧ proc'.data = proc.data) (hcommits : s.commits ⊆ s'.commits) :
    Known old s' text := by
  rcases h with hold | ⟨p, hp, proc, hproc, htext⟩
  · exact .inl hold
  · obtain ⟨proc', hproc', hdata⟩ := hprocesses p proc hproc
    exact .inr ⟨p, hcommits hp, proc', hproc', by rw [htext, hdata]⟩

/-- Nothing was written yet. -/
theorem sound_initial (name : List Char) (old : Option (List β)) : Sound name old (initial name old) where
  whole names hmem := by
    obtain rfl := List.mem_singleton.mp hmem
    have hnow : (initial name old).files.names name = old.map fun _ => 0 := by simp [initial]
    rw [hnow]
    cases old with
    | none => exact .inl rfl
    | some c => exact ⟨c, rfl, .inl rfl⟩
  fits _ _ h := by cases h
  apart _ _ _ _ h := by cases h
  committed _ _ h := by cases h
  behind _ h := by cases h
  nodup := List.nodup_nil

/-- A call begins. -/
theorem Sound.launch (h : Sound name old s) {proc : Process β} (hfits : proc.Fits name s.files)
    (htemp : proc.point.temp = none) (hbehind : proc.point.behind = false) :
    Sound name old { s with processes := s.processes ++ [proc] } where
  whole := by
    refine h.whole.mono fun text htext => htext.mono (fun q proc' hq => ⟨proc', ?_, rfl⟩) (List.Subset.refl _)
    show (s.processes ++ [proc])[q]? = some proc'
    rw [List.getElem?_append_left (List.getElem?_eq_some_iff.mp hq).1, hq]
  fits q proc' hq := by
    rcases Transition.getElem?_append_cases hq with hold | hnew
    · exact h.fits q proc' hold
    · cases List.mem_singleton.mp hnew
      exact hfits
  apart q r proc₁ proc₂ hq hr hne t t' ht ht' := by
    rcases Transition.getElem?_append_cases hq with hq | hnew
    · rcases Transition.getElem?_append_cases hr with hr | hnew
      · exact h.apart q r proc₁ proc₂ hq hr hne t t' ht ht'
      · cases List.mem_singleton.mp hnew
        cases htemp.symm.trans ht'
    · cases List.mem_singleton.mp hnew
      cases htemp.symm.trans ht
  committed q proc' hq hreplaced := by
    rcases Transition.getElem?_append_cases hq with hold | hnew
    · exact h.committed q proc' hold hreplaced
    · cases List.mem_singleton.mp hnew
      rw [hbehind] at hreplaced
      cases hreplaced
  behind q hq := by
    obtain ⟨proc', hold, hreplaced⟩ := h.behind q hq
    refine ⟨proc', ?_, hreplaced⟩
    show (s.processes ++ [proc])[q]? = some proc'
    rw [List.getElem?_append_left (List.getElem?_eq_some_iff.mp hold).1, hold]
  nodup := h.nodup

/-- The processes after one of them moved. -/
theorem getElem?_moved {proc proc' : Process β} (hp : s.processes[p]? = some proc) (hdata : proc'.data = proc.data)
    {q : ℕ} {before : Process β} (hq : s.processes[q]? = some before) :
    ∃ after, (s.processes.set p proc')[q]? = some after ∧ after.data = before.data := by
  rcases eq_or_ne p q with rfl | hne
  · cases hp.symm.trans hq
    exact ⟨proc', List.getElem?_set_self (List.getElem?_eq_some_iff.mp hp).1, hdata⟩
  · exact ⟨before, (List.getElem?_set_ne hne).trans hq, rfl⟩

/-- **A process moves.** -/
theorem Sound.run (h : Sound name old s) {proc proc' : Process β} (hp : s.processes[p]? = some proc)
    (hact : Act name c p s proc s' proc') : Sound name old { s' with processes := s.processes.set p proc' } := by
  have hself : (s.processes.set p proc')[p]? = some proc' :=
    List.getElem?_set_self (List.getElem?_eq_some_iff.mp hp).1
  have hmoved := fun q before (hq : s.processes[q]? = some before) => getElem?_moved hp hact.data_eq hq
  have hnot : proc.point.behind = false → p ∉ s.commits := by
    intro hbefore hmem
    obtain ⟨proc₁, hp₁, hreplaced | hkilled⟩ := h.behind p hmem
    · cases hp.symm.trans hp₁
      cases hbefore.symm.trans hreplaced
    · cases hp.symm.trans hp₁
      have hbusy := hact.busy
      rw [hkilled] at hbusy
      cases hbusy
  obtain ⟨own, hframe, hown⟩ := hact.frame
  -- the file that the step works on is not that of another process
  have hother : ∀ q proc₁ t, q ≠ p → s.processes[q]? = some proc₁ → proc₁.point.temp = some t → t.2 ≠ own := by
    intro q proc₁ t hqp hq ht
    rcases hown with rfl | ⟨tmp, htemp⟩
    · obtain ⟨f, hprivate⟩ := (h.fits q proc₁ hq).private ht
      exact (List.getElem?_eq_some_iff.mp hprivate.file).1.ne
    · exact h.apart q p proc₁ proc hq hp hqp t _ ht htemp
  have hfresh : ∀ q proc₁ t t', q ≠ p → s.processes[q]? = some proc₁ → proc₁.point.temp = some t →
      proc'.point.temp = some t' → t.2 ≠ t'.2 := by
    intro q proc₁ t t' hqp hq ht ht'
    rcases hact.temp t' ht' with hold | hnew
    · exact h.apart q p proc₁ proc hq hp hqp t t' ht hold
    · obtain ⟨f, hprivate⟩ := (h.fits q proc₁ hq).private ht
      rw [hnew]
      exact (List.getElem?_eq_some_iff.mp hprivate.file).1.ne
  refine ⟨?_, ?_, ?_, ?_, ?_, ?_⟩
  · rcases hact.outcome with ⟨hcommits, -, -, hkeep⟩ | ⟨hcommits, -, -, -, hput⟩
    · refine (hkeep _ h.whole).mono fun text htext => htext.mono hmoved ?_
      rw [hcommits]
      exact List.Subset.refl _
    · have hmem : p ∈ s'.commits := hcommits ▸ List.mem_cons_self
      refine hput _ (.inr ⟨p, hmem, proc', hself, by rw [hact.data_eq]⟩) ?_
      refine h.whole.mono fun text htext => htext.mono hmoved ?_
      rw [hcommits]
      exact List.subset_cons_self p s.commits
  · intro q proc₁ hq
    rcases Transition.getElem?_set_cases hq with ⟨rfl, rfl⟩ | ⟨hne, hq⟩
    · exact hact.fits
    · exact (h.fits q proc₁ hq).frame hframe fun t ht => hother q proc₁ t hne hq ht
  · intro q r proc₁ proc₂ hq hr hne t t' ht ht'
    rcases Transition.getElem?_set_cases hq with ⟨rfl, rfl⟩ | ⟨hqp, hqold⟩
    · rcases Transition.getElem?_set_cases hr with ⟨rfl, -⟩ | ⟨hrp, hr⟩
      · exact absurd rfl hne
      · exact (hfresh r proc₂ t' t hrp hr ht' ht).symm
    · rcases Transition.getElem?_set_cases hr with ⟨rfl, rfl⟩ | ⟨hrp, hr⟩
      · exact hfresh q proc₁ t t' hqp hqold ht ht'
      · exact h.apart q r proc₁ proc₂ hqold hr hne t t' ht ht'
  · intro q proc₁ hq hreplaced
    show q ∈ s'.commits
    rcases Transition.getElem?_set_cases hq with ⟨rfl, rfl⟩ | ⟨-, hq⟩
    · rcases hact.outcome with ⟨hcommits, hsame, -⟩ | ⟨hcommits, -⟩
      · exact hcommits ▸ h.committed _ _ hp (hsame ▸ hreplaced)
      · exact hcommits ▸ List.mem_cons_self
    · have hmem := h.committed q proc₁ hq hreplaced
      rcases hact.outcome with ⟨hcommits, -⟩ | ⟨hcommits, -⟩
      · exact hcommits ▸ hmem
      · exact hcommits ▸ List.mem_cons_of_mem p hmem
  · intro q hq
    change q ∈ s'.commits at hq
    show ∃ proc₁, (s.processes.set p proc')[q]? = some proc₁ ∧ _
    rcases eq_or_ne q p with rfl | hne
    · refine ⟨proc', hself, .inl ?_⟩
      rcases hact.outcome with ⟨hcommits, hsame, -⟩ | ⟨-, -, hreplaced, -⟩
      · rw [hsame]
        by_contra hbefore
        exact hnot (by simpa using hbefore) (hcommits ▸ hq)
      · exact hreplaced
    · have hold : q ∈ s.commits := by
        rcases hact.outcome with ⟨hcommits, -⟩ | ⟨hcommits, -⟩
        · exact hcommits ▸ hq
        · exact (List.mem_cons.mp (hcommits ▸ hq)).resolve_left hne
      obtain ⟨proc₁, hproc, hreplaced⟩ := h.behind q hold
      exact ⟨proc₁, (List.getElem?_set_ne hne.symm).trans hproc, hreplaced⟩
  · show s'.commits.Nodup
    rcases hact.outcome with ⟨hcommits, -⟩ | ⟨hcommits, hbefore, -⟩
    · exact hcommits ▸ h.nodup
    · exact hcommits ▸ List.nodup_cons.mpr ⟨hnot hbefore, h.nodup⟩

/-- The processes after one of them was killed. -/
theorem getElem?_killed {proc : Process β} (hp : s.processes[p]? = some proc) (q : ℕ) :
    (s.processes.set p proc.kill)[q]? = s.processes[q]? ∧ s.files = s.files ∨
      (s.processes.set p proc.kill)[q]? = (s.processes[q]?).map Process.kill := by
  rcases eq_or_ne q p with rfl | hne
  · refine .inr ?_
    rw [hp]
    exact List.getElem?_set_self (List.getElem?_eq_some_iff.mp hp).1
  · exact .inl ⟨List.getElem?_set_ne hne.symm, rfl⟩

/-- Some processes are killed, and what was under the name may fall back. -/
theorem Sound.killed (h : Sound name old s) {files : Files (List Char) β} {processes : List (Process β)}
    (hwhole : files.Whole (Known old s) name)
    (hprocesses : ∀ q : ℕ, processes[q]? = s.processes[q]? ∧ files = s.files ∨
      processes[q]? = (s.processes[q]?).map Process.kill) :
    Sound name old ⟨files, processes, s.commits⟩ := by
  have hcases : ∀ (q : ℕ) (proc' : Process β), processes[q]? = some proc' →
      s.processes[q]? = some proc' ∧ files = s.files ∨ ∃ proc, s.processes[q]? = some proc ∧ proc' = proc.kill := by
    intro q proc' hq
    rcases hprocesses q with ⟨hsame, hfiles⟩ | hkill
    · exact .inl ⟨hsame ▸ hq, hfiles⟩
    · obtain ⟨proc, hproc, rfl⟩ := Option.map_eq_some_iff.mp (hkill ▸ hq)
      exact .inr ⟨proc, hproc, rfl⟩
  refine ⟨?_, ?_, ?_, ?_, ?_, h.nodup⟩
  · refine hwhole.mono fun text htext => htext.mono ?_ (List.Subset.refl _)
    intro q proc hq
    rcases hprocesses q with ⟨hsame, -⟩ | hkill
    · exact ⟨proc, hsame.trans hq, rfl⟩
    · exact ⟨proc.kill, by rw [hkill, hq]; rfl, proc.data_kill⟩
  · intro q proc' hq
    rcases hcases q proc' hq with ⟨hsame, rfl⟩ | ⟨proc, -, rfl⟩
    · exact h.fits q proc' hsame
    · exact Process.fits_of_over proc.over_kill
  · intro q r proc₁ proc₂ hq hr hne t t' ht ht'
    rcases hcases q proc₁ hq with ⟨hq, -⟩ | ⟨proc, -, rfl⟩
    · rcases hcases r proc₂ hr with ⟨hr, -⟩ | ⟨proc, -, rfl⟩
      · exact h.apart q r proc₁ proc₂ hq hr hne t t' ht ht'
      · cases (Point.temp_of_over proc.over_kill).symm.trans ht'
    · cases (Point.temp_of_over proc.over_kill).symm.trans ht
  · intro q proc' hq hreplaced
    rcases hcases q proc' hq with ⟨hsame, -⟩ | ⟨proc, hproc, rfl⟩
    · exact h.committed q proc' hsame hreplaced
    · exact h.committed q proc hproc (proc.behind_kill.1 hreplaced)
  · intro q hq
    obtain ⟨proc, hproc, hreplaced⟩ := h.behind q hq
    rcases hprocesses q with ⟨hsame, -⟩ | hkill
    · exact ⟨proc, hsame.trans hproc, hreplaced⟩
    · exact ⟨proc.kill, by rw [hkill, hproc]; rfl, proc.behind_kill.2 hreplaced⟩

/-- **Every step keeps the invariant.** -/
theorem Sound.step (h : Sound name old s) (hs : step name s l = some s') : Sound name old s' := by
  cases l with
  | write data =>
      cases hs
      exact h.launch trivial rfl rfl
  | read =>
      cases hs
      exact h.launch trivial rfl rfl
  | run p c =>
      obtain ⟨proc, hp, hrun⟩ := Option.bind_eq_some_iff.mp hs
      obtain ⟨⟨s₁, proc'⟩, hnext, rfl⟩ := Option.map_eq_some_iff.mp hrun
      exact h.run hp (next_act h.whole (h.fits p proc hp) hnext)
  | kill p =>
      obtain ⟨proc, hp, rfl⟩ := Option.map_eq_some_iff.mp hs
      exact h.killed h.whole (getElem?_killed hp)
  | powerLoss pick junk =>
      cases hs
      exact h.killed (h.whole.lose pick junk) fun q => .inr List.getElem?_map

end Step

end CacheLab.WriteJson
