import Mathlib.Data.List.DropRight
import Mathlib.Data.Prod.Lex
import CacheLab.Policies.Lfu

/-!
# The victim of the LFU policy

What the LFU policy is for, said with the history of the calls on it alone: every key has a *stay*, the
calls since its last (re)insertion, and a rank, how often it was used in that stay and then how long ago it
was used last. The victim is the key of least rank.

* `stay`, `uses` and `lastUse` read the history; they know nothing of buckets.
* `Tallies` says how the two maps of the policy reflect it: the frequency of a key is its number of uses,
  and a bucket lists its keys by last use. It is the invariant of a run of calls (`tallies_replay`).
* The eviction order is then sorted by rank (`Tallies.pairwise_rank`), and the victim is its head.
-/

set_option linter.unusedSectionVars false

namespace CacheLab

/-- A call on a policy. The keys are those other than `None`.
Source: `policies/base.py` `EvictionPolicy` -/
inductive PolicyCall (α : Type)
  | onPut (key : α)
  | onGet (key : α)
  | onDelete (key : α)
  | clear
  deriving DecidableEq

variable {α : Type} [DecidableEq α]

/-- The policy after a call. -/
def LFUPolicy.apply (p : LFUPolicy α) : PolicyCall α → LFUPolicy α
  | .onPut key => p.onPut (some key)
  | .onGet key => p.onGet (some key)
  | .onDelete key => p.onDelete (some key)
  | .clear => p.clear

/-- The policy after a history of calls, newest first. -/
def LFUPolicy.replay : List (PolicyCall α) → LFUPolicy α
  | [] => .new
  | c :: h => (LFUPolicy.replay h).apply c

/-! ### What a history says about a key -/

namespace PolicyCall

/-- The call uses the key. -/
def uses (k : Key α) : PolicyCall α → Bool
  | onPut key => decide (some key = k)
  | onGet key => decide (some key = k)
  | _ => false

/-- The call removes the key. -/
def removes (k : Key α) : PolicyCall α → Bool
  | onDelete key => decide (some key = k)
  | clear => true
  | _ => false

/-- The call puts the key. -/
def puts (k : Key α) : PolicyCall α → Bool
  | onPut key => decide (some key = k)
  | _ => false

end PolicyCall

/-- The calls since the last (re)insertion of a key: those since its last removal, from the first `on_put`
of the key among them on. -/
def stay (h : List (PolicyCall α)) (k : Key α) : List (PolicyCall α) :=
  (h.takeWhile fun c => !c.removes k).rdropWhile fun c => !c.puts k

/-- The key is tracked: it was inserted and not removed since. -/
def Tracked (h : List (PolicyCall α)) (k : Key α) : Prop := stay h k ≠ []

/-- The number of `on_put` and `on_get` calls on a key since its last (re)insertion. -/
def useCount (h : List (PolicyCall α)) (k : Key α) : ℕ := (stay h k).countP (PolicyCall.uses k)

/-- The position of the latest `on_put` or `on_get` call on a key; the oldest call has position one. -/
def lastUse (h : List (PolicyCall α)) (k : Key α) : ℕ := h.length - h.findIdx (PolicyCall.uses k)

/-- The rank of a key: its number of uses, then its last use. -/
def useRank (h : List (PolicyCall α)) (k : Key α) : ℕ ×ₗ ℕ := toLex (useCount h k, lastUse h k)

section History

variable {h : List (PolicyCall α)} {c : PolicyCall α} {k : Key α}

@[simp] theorem stay_nil (k : Key α) : stay ([] : List (PolicyCall α)) k = [] := rfl

/-- A removal ends the stay. -/
theorem stay_cons_of_removes (hc : c.removes k = true) : stay (c :: h) k = [] := by
  simp [stay, hc]

/-- Any other call goes on with the stay, and an `on_put` begins one. -/
theorem stay_cons (hc : c.removes k = false) :
    stay (c :: h) k = if stay h k = [] ∧ c.puts k = false then [] else c :: stay h k := by
  have htake : (c :: h).takeWhile (fun c => !c.removes k) = c :: h.takeWhile fun c => !c.removes k := by
    rw [List.takeWhile_cons, hc]
    rfl
  unfold stay
  rw [htake]
  generalize h.takeWhile (fun c => !c.removes k) = l
  simp only [List.rdropWhile, List.reverse_cons, List.dropWhile_append, List.reverse_eq_nil_iff]
  cases hl : l.reverse.dropWhile fun c => !c.puts k with
  | nil => cases hput : c.puts k <;> simp [hput]
  | cons a as => simp

/-- A last use is a position in the history. -/
theorem lastUse_le (h : List (PolicyCall α)) (k : Key α) : lastUse h k ≤ h.length := Nat.sub_le _ _

/-- A use of the key is its last one. -/
theorem lastUse_cons_of_uses (hc : c.uses k = true) : lastUse (c :: h) k = h.length + 1 := by
  simp [lastUse, List.findIdx_cons, hc]

/-- Any other call leaves the last use where it was. -/
theorem lastUse_cons (hc : c.uses k = false) : lastUse (c :: h) k = lastUse h k := by
  simp [lastUse, List.findIdx_cons, hc]

/-- A call on something else leaves the uses of a key alone. -/
theorem uses_cons_of_other (huses : c.uses k = false) (hremoves : c.removes k = false)
    (hputs : c.puts k = false) :
    (Tracked (c :: h) k ↔ Tracked h k) ∧ useCount (c :: h) k = useCount h k ∧
      lastUse (c :: h) k = lastUse h k := by
  have hstay := stay_cons (h := h) hremoves
  refine ⟨?_, ?_, lastUse_cons huses⟩
  · rw [Tracked, Tracked, hstay]
    by_cases hnil : stay h k = [] <;> simp [hnil, hputs]
  · rw [useCount, useCount, hstay]
    by_cases hnil : stay h k = []
    · simp [hnil, hputs]
    · simp [hnil, huses]

/-- A use of a tracked key, or its insertion, counts. -/
theorem useCount_cons_of_uses (huses : c.uses k = true) (hremoves : c.removes k = false)
    (htracked : Tracked h k ∨ c.puts k = true) :
    Tracked (c :: h) k ∧ useCount (c :: h) k = useCount h k + 1 := by
  have hstay : stay (c :: h) k = c :: stay h k := by
    rw [stay_cons hremoves, if_neg]
    rintro ⟨hnil, hputs⟩
    rcases htracked with htracked | hputs'
    · exact htracked hnil
    · rw [hputs] at hputs'
      cases hputs'
  refine ⟨by simp [Tracked, hstay], ?_⟩
  rw [useCount, useCount, hstay, List.countP_cons_of_pos huses]

end History

/-! ### The policy reflects its history -/

/-- **The invariant of a run of calls**: the frequency of a key is its number of uses, and a bucket lists
its keys by last use. -/
structure Tallies (h : List (PolicyCall α)) (p : LFUPolicy α) : Prop where
  wf : p.WF
  freq_iff : ∀ k f, p.keyToFreq.get? k = some f ↔ Tracked h k ∧ useCount h k = f
  sorted : ∀ f, (p.bucket f).keys.Pairwise fun k k' => lastUse h k < lastUse h k'

section Calls

variable {h : List (PolicyCall α)} {p : LFUPolicy α} {c : PolicyCall α} {key : Key α}

/-- The call uses one key and removes none. -/
structure PolicyCall.UseOf (c : PolicyCall α) (key : Key α) : Prop where
  uses : ∀ k, c.uses k = decide (k = key)
  removes : ∀ k, c.removes k = false
  puts : ∀ k, k ≠ key → c.puts k = false

theorem PolicyCall.useOf_onPut (a : α) : (PolicyCall.onPut a).UseOf (some a) :=
  ⟨fun k => by simp [PolicyCall.uses, eq_comm], fun k => rfl,
    fun k hk => by simpa [PolicyCall.puts] using hk.symm⟩

theorem PolicyCall.useOf_onGet (a : α) : (PolicyCall.onGet a).UseOf (some a) :=
  ⟨fun k => by simp [PolicyCall.uses, eq_comm], fun k => rfl, fun k _ => rfl⟩

/-- Uses of other keys. -/
theorem PolicyCall.UseOf.other (hc : c.UseOf key) {k : Key α} (hk : k ≠ key) :
    (Tracked (c :: h) k ↔ Tracked h k) ∧ useCount (c :: h) k = useCount h k ∧
      lastUse (c :: h) k = lastUse h k :=
  uses_cons_of_other (by rw [hc.uses, decide_eq_false hk]) (hc.removes k) (hc.puts k hk)

/-- Keys that a call does not use stay in order. -/
theorem PolicyCall.UseOf.pairwise (hc : c.UseOf key) {l : List (Key α)} (hkey : key ∉ l)
    (hl : l.Pairwise fun k k' => lastUse h k < lastUse h k') :
    l.Pairwise fun k k' => lastUse (c :: h) k < lastUse (c :: h) k' := by
  have hsame : ∀ k ∈ l, lastUse (c :: h) k = lastUse h k :=
    fun k hk => (hc.other fun hkk => hkey (hkk ▸ hk)).2.2
  refine hl.imp_of_mem fun {k k'} hk hk' hlt => ?_
  rw [hsame k hk, hsame k' hk']
  exact hlt

/-- The key that a call uses comes last. -/
theorem PolicyCall.UseOf.pairwise_append (hc : c.UseOf key) {l : List (Key α)} (hkey : key ∉ l)
    (hl : l.Pairwise fun k k' => lastUse h k < lastUse h k') :
    (l ++ [key]).Pairwise fun k k' => lastUse (c :: h) k < lastUse (c :: h) k' := by
  refine List.pairwise_append.mpr ⟨hc.pairwise hkey hl, List.pairwise_singleton _ _, ?_⟩
  intro k hk k' hk'
  obtain rfl := List.mem_singleton.mp hk'
  rw [(hc.other fun hkk => hkey (hkk ▸ hk)).2.2, lastUse_cons_of_uses (by simp [hc.uses])]
  exact Nat.lt_succ_of_le (lastUse_le h k)

/-- A bump. -/
theorem Tallies.bump (ht : Tallies h p) (hc : c.UseOf key) {freq : ℕ}
    (hk : p.keyToFreq.get? key = some freq) : Tallies (c :: h) (p.bump key) := by
  obtain ⟨htracked, hcount⟩ := (ht.freq_iff key freq).mp hk
  refine ⟨ht.wf.bump hk, fun k f => ?_, fun f => ?_⟩
  · rw [LFUPolicy.get?_keyToFreq_bump hk]
    by_cases hkey : k = key
    · subst hkey
      obtain ⟨htr, hn⟩ := useCount_cons_of_uses (by simp [hc.uses]) (hc.removes k) (.inl htracked)
      rw [if_pos rfl, Option.some.injEq, hn, hcount]
      simp [htr]
    · obtain ⟨htr, hn, -⟩ := hc.other (h := h) hkey
      rw [if_neg hkey, ht.freq_iff, htr, hn]
  · rw [LFUPolicy.keys_bucket_bump ht.wf hk]
    have hmem : key ∈ (p.bucket freq).keys := (ht.wf.freq_iff key freq).mp hk
    split_ifs with hold hnew
    · exact hc.pairwise (by simp) ((ht.sorted freq).sublist List.filter_sublist)
    · refine hc.pairwise_append (fun hmem' => ?_) (ht.sorted (freq + 1))
      have := ht.wf.freq_unique hmem hmem'
      omega
    · exact hc.pairwise (fun hmem' => hold (ht.wf.freq_unique hmem' hmem)) (ht.sorted f)

/-- A use of a key that is not tracked, by an `on_get`. -/
theorem Tallies.onGet_of_notMem (ht : Tallies h p) {a : α} (hk : some a ∉ p.keyToFreq.keys) :
    Tallies (.onGet a :: h) p := by
  have hc := PolicyCall.useOf_onGet a
  have hnone : ¬ Tracked h (some a) := fun htr =>
    hk (OrderedDict.mem_keys_iff.mpr ⟨_, (ht.freq_iff (some a) _).mpr ⟨htr, rfl⟩⟩)
  have hnone' : ¬ Tracked (.onGet a :: h) (some a) := by
    rw [Tracked, not_not] at hnone ⊢
    rw [stay_cons rfl, if_pos ⟨hnone, rfl⟩]
  refine ⟨ht.wf, fun k f => ?_, fun f => ?_⟩
  · rw [ht.freq_iff]
    by_cases hkey : k = some a
    · subst hkey
      simp [hnone, hnone']
    · obtain ⟨htr, hn, -⟩ := hc.other (h := h) hkey
      rw [htr, hn]
  · refine hc.pairwise (fun hmem => hk ?_) (ht.sorted f)
    exact OrderedDict.mem_keys_iff.mpr ⟨f, (ht.wf.freq_iff _ f).mpr hmem⟩

/-- An insertion. -/
theorem Tallies.onPut_of_notMem (ht : Tallies h p) {a : α} (hk : some a ∉ p.keyToFreq.keys) :
    Tallies (.onPut a :: h) (p.onPut (some a)) := by
  have hc := PolicyCall.useOf_onPut a
  have hnone : ¬ Tracked h (some a) := fun htr =>
    hk (OrderedDict.mem_keys_iff.mpr ⟨_, (ht.freq_iff (some a) _).mpr ⟨htr, rfl⟩⟩)
  have hzero : useCount h (some a) = 0 := by
    rw [Tracked, not_not] at hnone
    rw [useCount, hnone]
    rfl
  refine ⟨ht.wf.onPut_of_notMem hk, fun k f => ?_, fun f => ?_⟩
  · simp only [LFUPolicy.onPut, if_neg hk, OrderedDict.get?_set]
    by_cases hkey : k = some a
    · subst hkey
      obtain ⟨htr, hn⟩ := useCount_cons_of_uses (h := h) (by simp [hc.uses]) (hc.removes (some a))
        (.inr (by simp [PolicyCall.puts]))
      rw [if_pos rfl, Option.some.injEq, hn, hzero]
      simp [htr]
    · obtain ⟨htr, hn, -⟩ := hc.other (h := h) hkey
      rw [if_neg hkey, ht.freq_iff, htr, hn]
  · have hout : ∀ g, some a ∉ (p.bucket g).keys := fun g hmem =>
      hk (OrderedDict.mem_keys_iff.mpr ⟨g, (ht.wf.freq_iff _ g).mpr hmem⟩)
    rw [LFUPolicy.keys_bucket_onPut_of_notMem ht.wf hk]
    split_ifs
    · exact hc.pairwise_append (hout 1) (ht.sorted 1)
    · exact hc.pairwise (hout f) (ht.sorted f)

/-- A removal. -/
theorem Tallies.onDelete (ht : Tallies h p) (a : α) :
    Tallies (.onDelete a :: h) (p.onDelete (some a)) := by
  have hother : ∀ k, k ≠ some a → (Tracked (.onDelete a :: h) k ↔ Tracked h k) ∧
      useCount (.onDelete a :: h) k = useCount h k :=
    fun k hk => (uses_cons_of_other rfl (by simpa [PolicyCall.removes] using hk.symm) rfl).imp_right And.left
  refine ⟨ht.wf.onDelete (some a), fun k f => ?_, fun f => ?_⟩
  · rw [LFUPolicy.get?_keyToFreq_onDelete]
    by_cases hkey : k = some a
    · subst hkey
      have hnil : stay (.onDelete a :: h) (some a) = [] :=
        stay_cons_of_removes (by simp [PolicyCall.removes])
      simp [Tracked, hnil]
    · obtain ⟨htr, hn⟩ := hother k hkey
      rw [if_neg hkey, ht.freq_iff, htr, hn]
  · rw [LFUPolicy.keys_bucket_onDelete ht.wf]
    have hsorted := (ht.sorted f).sublist (List.filter_sublist (p := fun k => decide (k ≠ some a)))
    exact hsorted.imp fun {k k'} hlt => by rwa [lastUse_cons rfl, lastUse_cons rfl]

/-- **Every call keeps the invariant.** -/
theorem Tallies.apply (ht : Tallies h p) (c : PolicyCall α) : Tallies (c :: h) (p.apply c) := by
  cases c with
  | onPut a =>
      by_cases hk : some a ∈ p.keyToFreq.keys
      · obtain ⟨f, hf⟩ := OrderedDict.mem_keys_iff.mp hk
        rw [LFUPolicy.apply, LFUPolicy.onPut, if_pos hk]
        exact ht.bump (PolicyCall.useOf_onPut a) hf
      · exact ht.onPut_of_notMem hk
  | onGet a =>
      by_cases hk : some a ∈ p.keyToFreq.keys
      · obtain ⟨f, hf⟩ := OrderedDict.mem_keys_iff.mp hk
        rw [LFUPolicy.apply, LFUPolicy.onGet, if_pos hk]
        exact ht.bump (PolicyCall.useOf_onGet a) hf
      · rw [LFUPolicy.apply, LFUPolicy.onGet, if_neg hk]
        exact ht.onGet_of_notMem hk
  | onDelete a => exact ht.onDelete a
  | clear =>
      refine ⟨LFUPolicy.wf_new, fun k f => ?_, fun f => List.Pairwise.nil⟩
      have hnil : stay (.clear :: h) k = [] := stay_cons_of_removes rfl
      simp [LFUPolicy.apply, LFUPolicy.clear, LFUPolicy.new, Tracked, hnil]

end Calls

/-- **Every run of calls keeps the invariant.** -/
theorem tallies_replay (h : List (PolicyCall α)) : Tallies h (LFUPolicy.replay h) := by
  induction h with
  | nil =>
      refine ⟨LFUPolicy.wf_new, fun k f => ?_, fun f => List.Pairwise.nil⟩
      simp [LFUPolicy.replay, LFUPolicy.new, Tracked]
  | cons c h ih => exact ih.apply c

/-! ### The victim -/

/-- `None` is never tracked. -/
theorem not_tracked_none (h : List (PolicyCall α)) : ¬ Tracked h none := by
  rw [Tracked, not_not, stay, List.rdropWhile_eq_nil_iff]
  intro c _
  cases c <;> rfl

section Victim

variable {h : List (PolicyCall α)} {p : LFUPolicy α}

/-- The tracked keys are those of the frequency map. -/
theorem Tallies.mem_keys_iff (ht : Tallies h p) (k : Key α) : k ∈ p.keyToFreq.keys ↔ Tracked h k := by
  rw [OrderedDict.mem_keys_iff]
  constructor
  · rintro ⟨f, hf⟩
    exact ((ht.freq_iff k f).mp hf).1
  · intro htr
    exact ⟨useCount h k, (ht.freq_iff k _).mpr ⟨htr, rfl⟩⟩

/-- The eviction order is sorted by rank. -/
theorem Tallies.pairwise_rank (ht : Tallies h p) :
    p.evictionOrder.Pairwise fun k k' => useRank h k < useRank h k' := by
  have hcount : ∀ f, ∀ k ∈ (p.bucket f).keys, useCount h k = f :=
    fun f k hk => ((ht.freq_iff k f).mp ((ht.wf.freq_iff k f).mpr hk)).2
  unfold LFUPolicy.evictionOrder LFUPolicy.orderBelow
  refine List.pairwise_flatMap.mpr ⟨fun f _ => ?_, ?_⟩
  · refine (ht.sorted f).imp_of_mem fun {k k'} hk hk' hlt => ?_
    refine Prod.Lex.toLex_lt_toLex.mpr (.inr ⟨?_, hlt⟩)
    show useCount h k = useCount h k'
    rw [hcount f k hk, hcount f k' hk']
  · refine List.pairwise_lt_range.imp fun {f g} hfg k hk k' hk' => ?_
    refine Prod.Lex.toLex_lt_toLex.mpr (.inl ?_)
    show useCount h k < useCount h k'
    rwa [hcount f k hk, hcount g k' hk']

/-- The victim is the first of the eviction order. -/
theorem Tallies.evictCandidate_cases (ht : Tallies h p) :
    (p.evictCandidate = none ∧ p.evictionOrder = []) ∨
      ∃ a rest, p.evictCandidate = some a ∧ p.evictionOrder = some a :: rest := by
  rw [ht.wf.evictCandidate_eq_head?]
  cases horder : p.evictionOrder with
  | nil => exact .inl ⟨rfl, rfl⟩
  | cons k rest =>
      cases k with
      | some a => exact .inr ⟨a, rest, rfl, rfl⟩
      | none =>
          have hmem : none ∈ p.evictionOrder := horder ▸ List.mem_cons_self
          exact absurd ((ht.mem_keys_iff none).mp (ht.wf.mem_evictionOrder.mp hmem)) (not_tracked_none h)

end Victim

/-- **The LFU victim is exact**: after every history of calls the policy names no victim if and only if no
key is tracked, and otherwise the one key of least rank. The frequency of a key is its number of uses, the
buckets mirror the frequencies, none is empty and each is ordered by last use, the least frequency is the
least number of uses, and every key is stored twice. -/
theorem lfu_victim_exact (h : List (PolicyCall α)) :
    ((LFUPolicy.replay h).evictCandidate = none ↔ ∀ k, ¬ Tracked h k) ∧
      (∀ a, (LFUPolicy.replay h).evictCandidate = some a →
        Tracked h (some a) ∧ ∀ k, Tracked h k → k ≠ some a → useRank h (some a) < useRank h k) ∧
      (∀ k f, (LFUPolicy.replay h).keyToFreq.get? k = some f ↔ Tracked h k ∧ useCount h k = f) ∧
      (∀ k f, k ∈ ((LFUPolicy.replay h).bucket f).keys ↔
        (LFUPolicy.replay h).keyToFreq.get? k = some f) ∧
      (∀ f b, (LFUPolicy.replay h).freqToKeys.get? f = some b →
        b.keys ≠ [] ∧ b.keys.Pairwise fun k k' => lastUse h k < lastUse h k') ∧
      ((∀ k, ¬ Tracked h k) → (LFUPolicy.replay h).minFreq = 0) ∧
      ((∃ k, Tracked h k) →
        (∃ k, Tracked h k ∧ useCount h k = (LFUPolicy.replay h).minFreq) ∧
          ∀ k, Tracked h k → (LFUPolicy.replay h).minFreq ≤ useCount h k) ∧
      (LFUPolicy.replay h).metadataSize = 2 * (LFUPolicy.replay h).len := by
  have ht := tallies_replay h
  generalize LFUPolicy.replay h = p at ht ⊢
  have hmem : ∀ k, k ∈ p.evictionOrder ↔ Tracked h k :=
    fun k => ht.wf.mem_evictionOrder.trans (ht.mem_keys_iff k)
  refine ⟨?_, fun a ha => ?_, ht.freq_iff, fun k f => (ht.wf.freq_iff k f).symm, fun f b hb => ?_,
    fun hnone => ?_, ?_, ht.wf.metadataSize_eq⟩
  · rcases ht.evictCandidate_cases with ⟨hnone, hnil⟩ | ⟨a, rest, hsome, horder⟩
    · refine ⟨fun _ k htr => ?_, fun _ => hnone⟩
      have hk := (hmem k).mpr htr
      rw [hnil] at hk
      cases hk
    · refine ⟨fun hnone => ?_, fun hall => ?_⟩
      · rw [hsome] at hnone
        cases hnone
      · exact absurd ((hmem (some a)).mp (horder ▸ List.mem_cons_self)) (hall _)
  · rcases ht.evictCandidate_cases with ⟨hnone, -⟩ | ⟨b, rest, hsome, horder⟩
    · rw [ha] at hnone
      cases hnone
    · obtain rfl : a = b := Option.some.inj (ha.symm.trans hsome)
      refine ⟨(hmem (some a)).mp (horder ▸ List.mem_cons_self), fun k htr hne => ?_⟩
      have hsorted := ht.pairwise_rank
      have hk := (hmem k).mpr htr
      rw [horder] at hsorted hk
      exact (List.pairwise_cons.mp hsorted).1 k ((List.mem_cons.mp hk).resolve_left hne)
  · have hbucket : p.bucket f = b := by
      rw [LFUPolicy.bucket, hb]
      rfl
    exact ⟨ht.wf.bucket_ne_nil f b hb, hbucket ▸ ht.sorted f⟩
  · refine ht.wf.min_zero (List.eq_nil_iff_forall_not_mem.mpr fun k hk => ?_)
    exact hnone k ((ht.mem_keys_iff k).mp hk)
  · rintro ⟨k, htr⟩
    have hne := List.ne_nil_of_mem ((ht.mem_keys_iff k).mpr htr)
    obtain ⟨k', hk'⟩ := ht.wf.min_attained hne
    refine ⟨⟨k', (ht.freq_iff k' _).mp hk'⟩, fun k'' htr'' => ?_⟩
    exact ht.wf.min_le k'' _ ((ht.freq_iff k'' _).mpr ⟨htr'', rfl⟩)

end CacheLab
