import CacheLab.System.Writes

/-!
# The dictionary of the source backend

The shards tell two keys apart that are routed to different shards, even if Python says that they are equal: `(1,)`
and `(1.0,)` are one key of a dictionary, but their hashes differ. A `Key` of this development is therefore a class of
equal keys within its shard (`Concurrency/Hashing.lean`, `cacheKey`), and `Shared.source` is the source as the keys of
the cache see it. The source backend of the program is one dictionary, which knows nothing of shards.

* `KeyClasses` says which keys are equal, `KeyClasses.sourceDict` is that dictionary: what the flushes in a log make of
  it, one call after the other.
* `KeyClasses.Routed` is the condition that keys that occur in the log and are equal are routed to one shard. Under it
  the two agree (`sourceDict_exec`), so what a flush does to one key it does to no other.

In write-back mode the source changes by flushes only (`step_flushes`).
-/

set_option linter.unusedSectionVars false

namespace CacheLab

variable {α V T : Type} [DecidableEq α] [LinearOrder T] [Zero T] [Add T] [Sub T]

variable {cfg : AcceptedConfig T} {hash : Key α → ℕ} {k : Key α}

/-! ### Equal keys -/

/-- The key that an event is about, if it writes or flushes one. -/
def Event.key? : Event α V T → Option (Key α)
  | stored key _ _ _ => some key
  | erased key => some key
  | applied t => some t.job.key
  | _ => none

/-- A key occurs in a log. -/
def Occurs (k : Key α) (log : List (Event α V T)) : Prop := ∃ e ∈ log, e.key? = some k

/-- A key that was written occurs. -/
theorem occurs_of_lastWrite {log : List (Event α V T)} {o : ℕ} {op : WriteOp V} (h : lastWrite k log = some (o, op)) :
    Occurs k log := by
  induction log with
  | nil => cases h
  | cons e log ih =>
      cases hw : e.writeOf k with
      | none =>
          rw [lastWrite, hw] at h
          obtain ⟨e', he', hkey⟩ := ih h
          exact ⟨e', List.mem_cons_of_mem e he', hkey⟩
      | some op' =>
          refine ⟨e, List.mem_cons_self, ?_⟩
          cases e with
          | stored key value ttl now =>
              by_cases hk : key = k
              · exact congrArg some hk
              · simp [Event.writeOf, hk] at hw
          | erased key =>
              by_cases hk : key = k
              · exact congrArg some hk
              · simp [Event.writeOf, hk] at hw
          | _ => cases hw

/-- Which keys of the cache are equal in Python: `ident` is the class of a key. Equal keys that are routed to one shard
are one key of the cache. -/
structure KeyClasses (cfg : AcceptedConfig T) (hash : Key α → ℕ) (κ : Type) where
  ident : Key α → κ
  faithful : ∀ k k', ident k = ident k' → shardFor cfg hash k = shardFor cfg hash k' → k = k'

namespace KeyClasses

/-- No two keys of the cache are equal. -/
def distinct (cfg : AcceptedConfig T) (hash : Key α → ℕ) : KeyClasses cfg hash (Key α) where
  ident := id
  faithful _ _ h _ := h

variable {κ : Type} [DecidableEq κ] (py : KeyClasses cfg hash κ)

/-- **Equal keys are routed alike**, as far as they occur in a log. -/
def Routed (log : List (Event α V T)) : Prop :=
  ∀ k k', Occurs k log → Occurs k' log → py.ident k = py.ident k' → shardFor cfg hash k = shardFor cfg hash k'

/-- Where no two keys are equal, equal keys are routed alike. -/
theorem routed_distinct (log : List (Event α V T)) : (distinct cfg hash).Routed log :=
  fun _ _ _ _ heq => congrArg (shardFor cfg hash) heq

/-- Keys that are routed alike and equal are one key. -/
theorem eq_of_ident {log : List (Event α V T)} (h : py.Routed log) {k k' : Key α} (hk : Occurs k log)
    (hk' : Occurs k' log) (heq : py.ident k = py.ident k') : k = k' :=
  py.faithful k k' heq (h k k' hk hk' heq)

/-- The dictionary of the source backend after the flushes in a log; `dict` is what it held at first.
Source: `storage/slow_dict.py` `SlowDictBackend.put_value`, `SlowDictBackend.delete_value` -/
def sourceDict (dict : OrderedDict κ V) : List (Event α V T) → OrderedDict κ V
  | [] => dict
  | .applied t :: log =>
      match t.job.operation with
      | .put v => (sourceDict dict log).set (py.ident t.job.key) v
      | .delete => (sourceDict dict log).erase (py.ident t.job.key)
  | _ :: log => sourceDict dict log

variable {dict : OrderedDict κ V} {log new : List (Event α V T)}

/-- Other events leave the dictionary alone. -/
theorem sourceDict_append (hnew : ∀ t, .applied t ∉ new) : py.sourceDict dict
    (new ++ log) = py.sourceDict dict log := by
  induction new with
  | nil => rfl
  | cons e new ih =>
      have hrest := ih fun t ht => hnew t (List.mem_cons_of_mem e ht)
      cases e with
      | applied t => exact absurd List.mem_cons_self (hnew t)
      | _ => exact hrest

/-- What the dictionary holds after a flush. -/
theorem get?_sourceDict_applied (t : Ticket α V) (x : κ) :
    (py.sourceDict dict (.applied t :: log)).get? x =
      if x = py.ident t.job.key then t.job.operation.outcome else (py.sourceDict dict log).get? x := by
  rw [sourceDict]
  cases t.job.operation with
  | put v => exact OrderedDict.get?_set (py.sourceDict dict log) _ _ _
  | delete => exact OrderedDict.get?_erase (py.sourceDict dict log) _ _

end KeyClasses

/-! ### Flushes -/

section Steps

variable {s s' : Shared α V cfg} {c : Choice α V} {th : Thread α V T}

/-- What a step does to the source and to the flushes in the log: one flush, or nothing. -/
inductive Shared.Flushes (s s' : Shared α V cfg) : Prop
  | none (new : List (Event α V T)) (hlog : s'.log = new ++ s.log) (hnew : ∀ t, .applied t ∉ new)
      (hsource : ∀ k, s'.source.get? k = s.source.get? k)
  | one (t : Ticket α V) (hlog : s'.log = .applied t :: s.log) (hsource : s'.source = applyWriteBack s.source t.job)

/-- What agrees on source and log makes the same flushes. -/
theorem Shared.Flushes.same {s₁ : Shared α V cfg} (h : s.Flushes s₁) (heq : s₁.Same s') : s.Flushes s' := by
  cases h with
  | none new hlog hnew hsource =>
      exact .none new (heq.log_eq.trans hlog) hnew fun k => by rw [heq.source_eq, hsource]
  | one t hlog hsource => exact .one t (heq.log_eq.trans hlog) (heq.source_eq.trans hsource)

/-- What occurred goes on to occur. -/
theorem Shared.Flushes.occurs (h : s.Flushes s') (hk : Occurs k s.log) : Occurs k s'.log := by
  obtain ⟨e, he, hkey⟩ := hk
  cases h with
  | none new hlog hnew hsource => exact ⟨e, by rw [hlog]; exact List.mem_append_right new he, hkey⟩
  | one t hlog hsource => exact ⟨e, by rw [hlog]; exact List.mem_cons_of_mem _ he, hkey⟩

/-- A step that notes nothing and leaves the source alone. -/
theorem Shared.Flushes.of_eq (hlog : s'.log = s.log) (hsource : s'.source = s.source) : s.Flushes s' :=
  .none [] hlog (fun t ht => by cases ht) fun k => by rw [hsource]

/-- **The flushes of an effect.** -/
theorem Effect.flushes {after : List (WriteBehind.Stage × Ticket α V)} (h : Effect hash c s th s' after)
    (hwb : cfg.writeMode = .writeBack) (hs : ∀ i, ShardOk cfg hash i (s.shards i)) : s.Flushes s' := by
  have hmode : cfg.writeMode ≠ .writeThrough := by
    rw [hwb]
    decide
  cases h with
  | tend i htend hnow hshards hsource hlog hshift => exact .of_eq hlog hsource
  | put key value ttl caller hth heq =>
      obtain ⟨-, gone, hdone⟩ := putSection_of_returned hs key value ttl (fun hok => hmode hok.1)
      refine .same (.none _ hdone.log_eq ?_ ?_) heq
      · intro t ht
        rcases List.mem_cons.mp (List.mem_reverse.mp ht) with hstored | hgone
        · cases hstored
        · obtain ⟨g, -, hevent⟩ := List.mem_map.mp hgone
          cases hevent
      · intro k
        rw [hdone.source_eq, CacheShard.putSource, if_neg hmode]
  | delete key ok hth heq =>
      obtain ⟨-, hdone⟩ := deleteSection_of_returned hash s key (fun hok => hmode hok.1)
      refine .same (.none [.erased key] hdone.log_eq ?_ ?_) heq
      · intro t ht
        cases List.mem_singleton.mp ht
      · intro k
        rw [hdone.source, if_neg fun hk => hmode hk.2]
  | clear i ok ts hth heq =>
      obtain ⟨done, rest, hdone⟩ := clearSection_spec hs i ok
      refine .same (.none _ hdone.log_eq ?_ ?_) heq
      · intro t ht
        rcases List.mem_append.mp (List.mem_reverse.mp ht) with herased | hcleared
        · obtain ⟨g, -, hevent⟩ := List.mem_map.mp herased
          cases hevent
        · split_ifs at hcleared
          · cases hcleared
          · cases List.mem_singleton.mp hcleared
      · intro k
        rw [hdone.source, if_neg fun hk => hmode hk.2]
  | check t hth i hi hst heq => exact .of_eq heq.log_eq heq.source_eq
  | skip t hth hrel i hi hst heq => exact .of_eq heq.log_eq heq.source_eq
  | apply t hth hok heq => exact .one t heq.log_eq heq.source_eq
  | fail t hth heq => exact .of_eq heq.log_eq heq.source_eq
  | giveUp ts hth hgive heq => exact .of_eq heq.log_eq heq.source_eq
  | release t ts hth hrel i hi heq => exact .of_eq heq.log_eq heq.source_eq
  | settle t hth hrel i hi heq => exact .of_eq heq.log_eq heq.source_eq
  | collect i hth hwb heq => exact .of_eq heq.log_eq heq.source_eq

end Steps

/-- **In write-back mode the source changes by flushes only.** -/
theorem step_flushes {s s' : System α V cfg} {l : Label α V T} (hwb : cfg.writeMode = .writeBack)
    (h : step cfg hash s l = some s') (hb : Base hash s) : s.shared.Flushes s'.shared := by
  rcases step_cases h with ⟨now, -, -, rfl⟩ | ⟨new, -, hsame, -⟩ | ⟨i, c, th, th', -, hi, hr, -⟩
  · exact .of_eq rfl rfl
  · exact .of_eq hsame.log_eq hsame.source_eq
  · have hmem := List.mem_of_getElem? hi
    rcases threadStep_effect hr (hb.threads th hmem).2 (hb.flushing_mode hmem) with ⟨-, heff⟩ | ⟨-, hwound, -⟩
    · exact heff.flushes hwb hb.shards
    · rcases hwound.source with ⟨hsource, hlog⟩ | ⟨-, t, hsource, hlog⟩
      · exact .of_eq hlog hsource
      · exact .one t hlog hsource

/-- What occurred before a run occurs after it. -/
theorem occurs_exec {s s' : System α V cfg} {ls : List (Label α V T)} (hwb : cfg.writeMode = .writeBack)
    (h : exec cfg hash s ls = some s') (hb : Base hash s) (hk : Occurs k s.shared.log) : Occurs k s'.shared.log := by
  have hstep : ∀ (u : System α V cfg) l u', step cfg hash u l = some u' → Base hash u ∧ Occurs k u.shared.log →
      Base hash u' ∧ Occurs k u'.shared.log := by
    rintro u l u' hs ⟨hu, hoccurs⟩
    exact ⟨hu.step hs, (step_flushes hwb hs hu).occurs hoccurs⟩
  exact (Transition.run_invariant_of_step hstep h ⟨hb, hk⟩).2

/-! ### Source and dictionary -/

section Run

variable {κ : Type} [DecidableEq κ] {py : KeyClasses cfg hash κ} {dict : OrderedDict κ V} {now : T} {src : Source α V}
  {l : Label α V T} {ls : List (Label α V T)} {s s' : System α V cfg}

/-- The dictionary holds for a key what the source holds for it, if nothing was flushed for another key that is equal
to it. -/
def Reflects (py : KeyClasses cfg hash κ) (dict : OrderedDict κ V) (s : System α V cfg) : Prop :=
  ∀ k, (∀ t, .applied t ∈ s.shared.log → py.ident t.job.key = py.ident k → t.job.key = k) →
    (py.sourceDict dict s.shared.log).get? (py.ident k) = s.shared.source.get? k

/-- **Every step keeps the two together.** -/
theorem Reflects.step (h : Reflects py dict s) (hwb : cfg.writeMode = .writeBack)
    (hs : CacheLab.step cfg hash s l = some s') (hb : Base hash s) : Reflects py dict s' := by
  intro k honly
  cases step_flushes hwb hs hb with
  | none new hlog hnew hsource =>
      rw [hlog, py.sourceDict_append hnew, hsource]
      exact h k fun t ht => honly t (by rw [hlog]; exact List.mem_append_right new ht)
  | one t hlog hsource =>
      have hold := h k fun t' ht' => honly t' (by rw [hlog]; exact List.mem_cons_of_mem _ ht')
      rw [hlog, py.get?_sourceDict_applied, hold, hsource, applyWriteBack, Source.get?_apply]
      by_cases hk : k = t.job.key
      · rw [if_pos hk, if_pos (congrArg py.ident hk)]
      · rw [if_neg hk, if_neg]
        intro heq
        exact hk (honly t (by rw [hlog]; exact List.mem_cons_self) heq.symm).symm

/-- **The dictionary holds what the source holds**, for every key that occurs in the log, if equal keys are routed
alike. -/
theorem sourceDict_exec (hwb : cfg.writeMode = .writeBack) (hdict : ∀ k, src.get? k = dict.get? (py.ident k))
    (h : exec cfg hash (initial cfg now src) ls = some s) (hrouted : py.Routed s.shared.log)
    (hk : Occurs k s.shared.log) :
    (py.sourceDict dict s.shared.log).get? (py.ident k) = s.shared.source.get? k := by
  have hstep : ∀ (u : System α V cfg) l u', step cfg hash u l = some u' → Base hash u ∧ Reflects py dict u →
      Base hash u' ∧ Reflects py dict u' := by
    rintro u l u' hs ⟨hb, hreflects⟩
    exact ⟨hb.step hs, hreflects.step hwb hs hb⟩
  have hinit : Base hash (initial cfg now src) ∧ Reflects py dict (initial cfg now src) :=
    ⟨base_initial cfg hash now src, fun k _ => (hdict k).symm⟩
  obtain ⟨-, hreflects⟩ := Transition.run_invariant_of_step hstep h hinit
  apply hreflects k
  intro t ht heq
  exact py.eq_of_ident hrouted ⟨_, ht, rfl⟩ hk heq

end Run

end CacheLab
