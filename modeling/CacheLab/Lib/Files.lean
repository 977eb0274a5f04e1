import Mathlib.Data.List.GetD
import Mathlib.Logic.Function.Basic

/-!
# Files, names and power losses

A directory leads from names to files. `Files` has the calls that a program makes which replaces a file as a whole:
create, append, sync, rename, unlink.

* A file is known by its number, and stays for those who have it open when its name is gone.
* What is written is not on the disk before the file is synced (`File.durable`), and what happens to names not at
  once. After a power loss (`Files.lose`) each name leads where it led at some earlier moment, for each name another
  one, and a file that is not durable has any content.

Two properties of a name or a file go through all the calls:

* `Files.Whole P n`: what the name `n` leads to, or may lead to after a power loss, is durable and satisfies `P`,
  where `P` also says whether there may be nothing. Renaming a durable file to `n` keeps it, writing to a file which
  is not under `n` keeps it, and a power loss keeps it.
* `Files.Private n m i f`: the file `i` is under the name `m`, never was under `n`, and is `f`. Nobody else's calls
  change this.

`Files.Frame` says what the calls on one private file leave alone.
-/

set_option linter.unusedSectionVars false

namespace CacheLab

variable {ν β : Type} [DecidableEq ν]

/-- A file, and whether its content is on the disk. -/
structure File (β : Type) where
  content : List β
  durable : Bool

/-- The files by their numbers, and the directory with what it was before, the latest first. -/
structure Files (ν β : Type) where
  files : List (File β)
  names : ν → Option ℕ
  past : List (ν → Option ℕ)

namespace Files

/-- The content under a name. -/
def content? (F : Files ν β) (n : ν) : Option (List β) :=
  (F.names n).bind fun i => (F.files[i]?).map File.content

/-- A new directory. -/
def withNames (F : Files ν β) (names : ν → Option ℕ) : Files ν β :=
    { F with names := names, past := F.names :: F.past }

/-- A new, empty file under a name, which has the number `F.files.length`. -/
def create (F : Files ν β) (n : ν) : Files ν β :=
  { F.withNames (Function.update F.names n (some F.files.length)) with files := F.files ++ [⟨[], false⟩] }

/-- Write at the end of a file. -/
def append (F : Files ν β) (i : ℕ) (bs : List β) : Files ν β :=
  { F with files := F.files.modify i fun f => ⟨f.content ++ bs, false⟩ }

/-- Bring the content of a file to the disk. -/
def sync (F : Files ν β) (i : ℕ) : Files ν β :=
    { F with files := F.files.modify i fun f => { f with durable := true } }

/-- Take a name away. -/
def unlink (F : Files ν β) (n : ν) : Files ν β := F.withNames (Function.update F.names n none)

/-- Give a file another name, which may have led to another file; fails when there is no file under the old name. -/
def rename (F : Files ν β) (m n : ν) : Option (Files ν β) :=
  (F.names m).map fun i => F.withNames (Function.update (Function.update F.names n (some i)) m none)

/-- A power loss: `pick` says for each name how far it falls back, and `junk` what becomes of the files. -/
def lose (F : Files ν β) (pick : ν → ℕ) (junk : ℕ → List β) : Files ν β :=
  { files := F.files.mapIdx fun i f => if f.durable then f else ⟨junk i, true⟩
    names := fun n => ((F.names :: F.past).getD (pick n) F.names) n
    past := [] }

/-- The name leads to the file, or led there since the last power loss. -/
def Reached (F : Files ν β) (n : ν) (i : ℕ) : Prop := ∃ names ∈ F.names :: F.past, names n = some i

/-- Where a directory leads, there is a durable file with `P`, or `P` allows that there is none. -/
def Holds (P : Option (List β) → Prop) (F : Files ν β) : Option ℕ → Prop
  | none => P none
  | some i => ∃ c, F.files[i]? = some ⟨c, true⟩ ∧ P (some c)

/-- What the name leads to, now or after a power loss, is durable and satisfies `P`. -/
def Whole (P : Option (List β) → Prop) (n : ν) (F : Files ν β) : Prop :=
  ∀ names ∈ F.names :: F.past, F.Holds P (names n)

/-- The file is under the name `m`, and never was under the other name `n`. -/
structure Private (n : ν) (F : Files ν β) (m : ν) (i : ℕ) (f : File β) : Prop where
  named : F.names m = some i
  other : m ≠ n
  unreached : ¬ F.Reached n i
  file : F.files[i]? = some f

section Calls

variable {F G : Files ν β} {n m m' : ν} {i j : ℕ} {f : File β} {bs : List β}
  {P Q : Option (List β) → Prop}

/-- Where a name leads now it is reached. -/
theorem reached_of_names (h : F.names n = some i) : F.Reached n i := ⟨F.names, List.mem_cons_self, h⟩

/-- A new directory reaches one file more. -/
theorem reached_withNames {names : ν → Option ℕ} :
    (F.withNames names).Reached n i ↔ names n = some i ∨ F.Reached n i := by
  simp [Reached, withNames]

/-- A new directory that leads nowhere else reaches no more. -/
theorem Reached.of_withNames {names : ν → Option ℕ} (h : (F.withNames names).Reached n i) (hn : names n = F.names n) :
    F.Reached n i := by
  rcases reached_withNames.mp h with hnow | hpast
  · exact reached_of_names (hn ▸ hnow)
  · exact hpast

/-- The content of a file with a name. -/
theorem content?_of_file (hi : F.names n = some i) (hf : F.files[i]? = some f) : F.content? n = some f.content := by
  simp [content?, hi, hf]

/-- The files that were there before a new one. -/
theorem files_create (h : F.files[i]? = some f) : (F.create m).files[i]? = some f := by
  show (F.files ++ [_])[i]? = some f
  rw [List.getElem?_append_left (List.getElem?_eq_some_iff.mp h).1, h]

/-- Writing to a file changes no other. -/
theorem files_append (h : i ≠ j) : (F.append i bs).files[j]? = F.files[j]? := List.getElem?_modify_ne _ _ h

/-- Syncing a file changes no other. -/
theorem files_sync (h : i ≠ j) : (F.sync i).files[j]? = F.files[j]? := List.getElem?_modify_ne _ _ h

/-- Syncing a durable file changes nothing. -/
theorem files_sync_of_durable {c : List β} (h : F.files[j]? = some ⟨c, true⟩) :
    (F.sync i).files[j]? = some ⟨c, true⟩ := by
  rcases eq_or_ne i j with rfl | hne
  · show (F.files.modify i _)[i]? = _
    rw [List.getElem?_modify_eq, h]
    rfl
  · rw [files_sync hne, h]

/-! ### Whole files -/

/-- Durable files that stay keep what holds. -/
theorem Holds.congr {o : Option ℕ} (h : F.Holds P o)
    (hfiles : ∀ i c, o = some i → F.files[i]? = some ⟨c, true⟩ → G.files[i]? = some ⟨c, true⟩) : G.Holds P o := by
  cases o with
  | none => exact h
  | some i =>
      obtain ⟨c, hc, hP⟩ := h
      exact ⟨c, hfiles i c rfl hc, hP⟩

/-- A file that was under the name is durable. -/
theorem Whole.reached (h : F.Whole P n) (hi : F.Reached n i) : ∃ c, F.files[i]? = some ⟨c, true⟩ ∧ P (some c) := by
  obtain ⟨names, hmem, hnames⟩ := hi
  have hold := h names hmem
  rw [hnames] at hold
  exact hold

/-- The content under the name. -/
theorem Whole.content (h : F.Whole P n) : P (F.content? n) := by
  have hnow := h F.names List.mem_cons_self
  unfold content?
  cases hn : F.names n with
  | none =>
      rw [hn] at hnow
      exact hnow
  | some i =>
      rw [hn] at hnow
      obtain ⟨c, hc, hP⟩ := hnow
      simpa [hc] using hP

theorem Whole.mono (h : F.Whole P n) (hPQ : ∀ c, P c → Q c) : F.Whole Q n := by
  intro names hmem
  have hold := h names hmem
  cases hn : names n with
  | none =>
      rw [hn] at hold
      exact hPQ none hold
  | some i =>
      rw [hn] at hold
      obtain ⟨c, hc, hP⟩ := hold
      exact ⟨c, hc, hPQ (some c) hP⟩

/-- A new directory that leads to something durable with `P`. -/
theorem Whole.withNames (h : F.Whole P n) {names : ν → Option ℕ} (hn : F.Holds P (names n)) :
    (F.withNames names).Whole P n := by
  intro names' hmem
  rcases List.mem_cons.mp hmem with rfl | hpast
  · exact hn
  · exact h names' hpast

/-- What the calls do to durable files under the name. -/
theorem Whole.withFiles (h : F.Whole P n) {files : List (File β)}
    (hfiles : ∀ i c, F.Reached n i → F.files[i]? = some ⟨c, true⟩ → files[i]? = some ⟨c, true⟩) :
    Files.Whole P n { F with files := files } := by
  intro names hmem
  exact (h names hmem).congr fun i c hi hc => hfiles i c ⟨names, hmem, hi⟩ hc

theorem Whole.create (h : F.Whole P n) (hne : m ≠ n) : (F.create m).Whole P n := by
  have hnames : (F.withNames (Function.update F.names m (some F.files.length))).Whole P n := by
    apply h.withNames
    rw [Function.update_of_ne hne.symm]
    exact h F.names List.mem_cons_self
  exact hnames.withFiles fun i c _ hc => files_create (m := m) hc

theorem Whole.append (h : F.Whole P n) (hi : ¬ F.Reached n i) : (F.append i bs).Whole P n := by
  refine h.withFiles ?_
  intro j c hj hc
  have hne : i ≠ j := by
    rintro rfl
    exact hi hj
  exact (files_append hne).trans hc

theorem Whole.sync (h : F.Whole P n) : (F.sync i).Whole P n :=
  h.withFiles fun _ _ _ hc => files_sync_of_durable hc

theorem Whole.unlink (h : F.Whole P n) (hne : m ≠ n) : (F.unlink m).Whole P n := by
  apply h.withNames
  rw [Function.update_of_ne hne.symm]
  exact h F.names List.mem_cons_self

/-- **A durable file is put under the name.** -/
theorem Whole.rename (h : F.Whole P n) (hG : F.rename m n = some G) (hm : F.Private n m i ⟨bs, true⟩)
    (hP : P (some bs)) : G.Whole P n := by
  unfold Files.rename at hG
  rw [hm.named] at hG
  cases hG
  apply h.withNames
  rw [Function.update_of_ne hm.other.symm, Function.update_self]
  exact ⟨bs, hm.file, hP⟩

/-- **A power loss.** -/
theorem Whole.lose (h : F.Whole P n) (pick : ν → ℕ) (junk : ℕ → List β) : (F.lose pick junk).Whole P n := by
  intro names hmem
  obtain rfl := List.mem_singleton.mp hmem
  have hback : (F.names :: F.past).getD (pick n) F.names ∈ F.names :: F.past := by
    rcases Nat.lt_or_ge (pick n) (F.names :: F.past).length with hlt | hge
    · rw [List.getD_eq_getElem _ _ hlt]
      exact List.getElem_mem hlt
    · rw [List.getD_eq_default _ _ hge]
      exact List.mem_cons_self
  refine (h _ hback).congr ?_
  intro i c _ hc
  simp [Files.lose, List.getElem?_mapIdx, hc]

/-! ### Private files -/

/-- A private file has a number of its own. -/
theorem Private.number_ne (h : F.Private n m i f) {f' : File β} (h' : F.Private n m' j f')
    (hij : i ≠ j) : m ≠ m' := by
  rintro rfl
  exact hij (Option.some.inj (h.named.symm.trans h'.named))

/-- A new directory which leads the two names where they led. -/
theorem Private.withNames (h : F.Private n m i f) {names : ν → Option ℕ} (hm : names m = F.names m)
    (hn : names n = F.names n) : (F.withNames names).Private n m i f where
  named := hm.trans h.named
  other := h.other
  unreached hr := h.unreached (hr.of_withNames hn)
  file := h.file

/-- A file that was just created is private. -/
theorem private_create (hne : m ≠ n) (hwhole : F.Whole P n) :
    (F.create m).Private n m F.files.length ⟨[], false⟩ where
  named := Function.update_self _ _ _
  other := hne
  unreached hr := by
    obtain ⟨c, hc, -⟩ := hwhole.reached (Reached.of_withNames hr (Function.update_of_ne hne.symm _ _))
    exact absurd (List.getElem?_eq_some_iff.mp hc).1 (Nat.lt_irrefl _)
  file := by
    show (F.files ++ [_])[F.files.length]? = _
    exact List.getElem?_concat_length

theorem Private.create (h : F.Private n m i f) (hnew : F.names m' = none) (hne : m' ≠ n) :
    (F.create m').Private n m i f where
  named := by
    have hm : m ≠ m' := by
      rintro rfl
      rw [h.named] at hnew
      cases hnew
    exact (Function.update_of_ne hm _ _).trans h.named
  other := h.other
  unreached hr := h.unreached (Reached.of_withNames hr (Function.update_of_ne hne.symm _ _))
  file := files_create h.file

theorem Private.append (h : F.Private n m i f) (hne : j ≠ i) : (F.append j bs).Private n m i f :=
  ⟨h.named, h.other, h.unreached, (files_append hne).trans h.file⟩

/-- What is written to a private file. -/
theorem Private.append_self (h : F.Private n m i f) : (F.append i bs).Private n m i ⟨f.content ++ bs, false⟩ where
  named := h.named
  other := h.other
  unreached := h.unreached
  file := by
    show (F.files.modify i _)[i]? = _
    rw [List.getElem?_modify_eq, h.file]
    rfl

theorem Private.sync (h : F.Private n m i f) (hne : j ≠ i) : (F.sync j).Private n m i f :=
  ⟨h.named, h.other, h.unreached, (files_sync hne).trans h.file⟩

/-- A private file is synced. -/
theorem Private.sync_self (h : F.Private n m i f) : (F.sync i).Private n m i ⟨f.content, true⟩ where
  named := h.named
  other := h.other
  unreached := h.unreached
  file := by
    show (F.files.modify i _)[i]? = _
    rw [List.getElem?_modify_eq, h.file]
    rfl

theorem Private.unlink (h : F.Private n m i f) (hm : m' ≠ m) (hne : m' ≠ n) : (F.unlink m').Private n m i f :=
  h.withNames (Function.update_of_ne hm.symm _ _) (Function.update_of_ne hne.symm _ _)

/-- Another private file gets the name. -/
theorem Private.rename (h : F.Private n m i f) {f' : File β} (h' : F.Private n m' j f') (hij : j ≠ i)
    (hG : F.rename m' n = some G) : G.Private n m i f := by
  have hm : m ≠ m' := (h'.number_ne h hij).symm
  unfold Files.rename at hG
  rw [h'.named] at hG
  cases hG
  refine ⟨?_, h.other, ?_, h.file⟩
  · show Function.update (Function.update F.names n (some j)) m' none m = some i
    rw [Function.update_of_ne hm, Function.update_of_ne h.other, h.named]
  · intro hr
    rcases reached_withNames.mp hr with hnow | hpast
    · rw [Function.update_of_ne h'.other.symm, Function.update_self] at hnow
      exact hij (Option.some.inj hnow)
    · exact h.unreached hpast

/-! ### What the calls leave alone -/

/-- What the calls on the file `own` leave alone: the other private files, and all that was under the name. -/
structure Frame (n : ν) (own : ℕ) (F G : Files ν β) : Prop where
  alone : ∀ m i f, i ≠ own → F.Private n m i f → G.Private n m i f
  reached : ∀ i, F.Reached n i → G.Reached n i
  content : ∀ i c, F.Reached n i → F.files[i]? = some ⟨c, true⟩ → G.files[i]? = some ⟨c, true⟩

theorem Frame.refl (F : Files ν β) : Frame n j F F := ⟨fun _ _ _ _ h => h, fun _ h => h, fun _ _ _ h => h⟩

theorem frame_create (hnew : F.names m = none) (hne : m ≠ n) : Frame n F.files.length F (F.create m) where
  alone _ _ _ _ h := h.create hnew hne
  reached _ h := reached_withNames.mpr (.inr h)
  content _ _ _ h := files_create h

theorem frame_append (hm : F.Private n m j f) : Frame n j F (F.append j bs) where
  alone _ _ _ hi h := h.append hi.symm
  reached _ h := h
  content i c hi h := by
    have hne : j ≠ i := by
      rintro rfl
      exact hm.unreached hi
    exact (files_append hne).trans h

theorem frame_sync : Frame n j F (F.sync j) where
  alone _ _ _ hi h := h.sync hi.symm
  reached _ h := h
  content _ _ _ h := files_sync_of_durable h

theorem frame_unlink (hm : F.Private n m j f) : Frame n j F (F.unlink m) where
  alone _ _ _ hi h := h.unlink (hm.number_ne h hi.symm) hm.other
  reached _ h := reached_withNames.mpr (.inr h)
  content _ _ _ h := h

theorem frame_rename (hm : F.Private n m j f) (hG : F.rename m n = some G) : Frame n j F G where
  alone _ _ _ hi h := h.rename hm hi.symm hG
  reached i h := by
    obtain ⟨k, -, rfl⟩ := Option.map_eq_some_iff.mp hG
    exact reached_withNames.mpr (.inr h)
  content i c _ h := by
    obtain ⟨k, -, rfl⟩ := Option.map_eq_some_iff.mp hG
    exact h

/-- Where the name leads as before, there is the same content. -/
theorem Frame.content?_eq (h : Frame n j F G) (hwhole : F.Whole P n) (hn : G.names n = F.names n) :
    G.content? n = F.content? n := by
  unfold content?
  rw [hn]
  cases hi : F.names n with
  | none => rfl
  | some i =>
      obtain ⟨c, hc, -⟩ := hwhole.reached (reached_of_names hi)
      rw [Option.bind_some, Option.bind_some, hc, h.content i c (reached_of_names hi) hc]

/-- The content that a file brings along. -/
theorem content?_rename (hm : F.Private n m j f) (hG : F.rename m n = some G) : G.content? n = some f.content := by
  unfold Files.rename at hG
  rw [hm.named] at hG
  cases hG
  have hn : Function.update (Function.update F.names n (some j)) m none n = some j := by
    rw [Function.update_of_ne hm.other.symm, Function.update_self]
  exact content?_of_file (F := F.withNames _) hn hm.file

end Calls

end Files

end CacheLab
