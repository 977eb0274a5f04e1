import CacheLab.System.Writes

/-!
# Write-through coherence

In write-through mode the source is changed inside the lock sections of `put`, `delete` and `clear`,
before the shard is. A resident entry therefore always has the value of the source, and a section that
stops at a failing source call has changed both or neither, key by key.

There are no flush jobs in this mode (`Base.direct`), so no other step calls the source.
-/

set_option linter.unusedSectionVars false

namespace CacheLab

variable {α V T : Type} [DecidableEq α] [LinearOrder T] [Zero T] [Add T] [Sub T]

open WriteBehind

variable {cfg : AcceptedConfig T} {hash : Key α → ℕ}

/-- Every resident entry has the value that the source has for its key. -/
def Coherent (s : Shared α V cfg) : Prop :=
  ∀ i k e, (s.shards i).backend.getEntry k = some e → s.source.get? k = some e.value

/-- Nothing changed in the shard, except that an expired entry of `key` may be gone, with its version
mark and its place in the order of the policy. -/
structure Spared (now : T) (key : Key α) (sh sh' : CacheShard α V T) : Prop where
  unchanged : (∀ e, sh.backend.getEntry key = some e → e.isExpired now = false) → sh' = sh
  entries : ∀ k, k ≠ key → sh'.backend.getEntry k = sh.backend.getEntry k
  marks : ∀ k, k ≠ key → sh'.versionMarks.get? k = sh.versionMarks.get? k
  order : sh'.policy.order.filter (· ≠ key) = sh.policy.order.filter (· ≠ key)

/-- A section of a clear processed the keys `done` of shard `i` and left `rest`: the former are gone
from cache and source, the latter are in both as they were. -/
structure ClearedThrough (s : Shared α V cfg) (i : Fin cfg.shardCount) (done rest : List (Key α))
    (s' : Shared α V cfg) : Prop where
  keys_eq : (s.shards i).backend.keys = done ++ rest
  done_gone : ∀ k ∈ done, (s'.shards i).backend.getEntry k = none ∧ s'.source.get? k = none
  rest_kept : ∀ k ∈ rest, ∃ e, (s.shards i).backend.getEntry k = some e ∧
    (s'.shards i).backend.getEntry k = some e ∧ s'.source.get? k = some e.value
  policy_eq : ∀ k, k ∈ (s'.shards i).policy.order ↔ k ∈ (s'.shards i).backend.keys

/-! ### Coherence -/

/-- Coherence seen from one key. -/
theorem coherent_iff {s : Shared α V cfg} (hs : ∀ i, ShardOk cfg hash i (s.shards i)) :
    Coherent s ↔ ∀ k v d, (s.home hash k).timed k = some (v, d) → s.source.get? k = some v := by
  constructor
  · intro h k v d hv
    obtain ⟨e, he, heq⟩ := Option.map_eq_some_iff.mp hv
    rw [h _ k e he, ← (Prod.mk.inj heq).1]
  · intro h i k e he
    refine h k e.value e.expiresAt ?_
    rw [CacheShard.timed, Shared.home, (hs i).shardFor_eq he, he]
    rfl

/-- **An effect keeps coherence** in write-through mode, where the thread holds no jobs. -/
theorem Effect.coherent {c : Choice α V} {s s' : Shared α V cfg} {th : Thread α V T}
    {after : List (Stage × Ticket α V)} (h : Effect hash c s th s' after)
    (hs : ∀ i, ShardOk cfg hash i (s.shards i)) (hmode : cfg.writeMode = .writeThrough)
    (hnone : th.flushes = []) {k : Key α}
    (hc : ∀ v d, (s.home hash k).timed k = some (v, d) → s.source.get? k = some v) :
    ∀ v d, (s'.home hash k).timed k = some (v, d) → s'.source.get? k = some v := by
  have hsame : ∀ {s₁ : Shared α V cfg}, s₁.Same s' →
      (∀ v d, (s₁.home hash k).timed k = some (v, d) → s₁.source.get? k = some v) →
      ∀ v d, (s'.home hash k).timed k = some (v, d) → s'.source.get? k = some v := by
    intro s₁ heq h₁
    rwa [Shared.home, heq.shards_eq, heq.source_eq]
  have htended : ∀ {i : Fin cfg.shardCount} {sh' : CacheShard α V T} {now : T},
      (s.shards i).Tended now sh' →
      ∀ v d, (if shardFor cfg hash k = i then sh' else s.home hash k).timed k = some (v, d) →
        s.source.get? k = some v := by
    intro i sh' now ht v d hv
    split_ifs at hv with hi
    · rcases ht.key k with ⟨-, heq⟩ | ⟨-, -, -, -, -, hgone⟩
      · rw [heq, ← hi] at hv
        exact hc v d hv
      · rw [hgone] at hv
        cases hv
    · exact hc v d hv
  cases h with
  | tend i ht hnow hshards hsource hlog hshift =>
      intro v d hv
      rw [Shared.home_of_update hshards] at hv
      rw [hsource]
      exact htended ht v d hv
  | put key value ttl caller hth heq =>
      refine hsame heq ?_
      by_cases hok : cfg.writeMode = .writeThrough ∧ c.ok key = false
      · rw [putSection_of_raised hash s key value ttl hok, Shared.home_of_update rfl]
        exact htended (CacheShard.tended_dropExpired _ key s.now)
      · obtain ⟨-, gone, hdone⟩ := putSection_of_returned hs key value ttl hok
        intro v d hv
        rw [hdone.timed] at hv
        rw [hdone.source_eq, CacheShard.putSource, if_pos hmode, Source.get?_apply]
        split_ifs at hv ⊢ with hg hk
        · rw [← (Prod.mk.inj (Option.some.inj hv)).1]
          rfl
        · exact hc v d hv
  | delete key ok hth heq =>
      refine hsame heq ?_
      by_cases hok : cfg.writeMode = .writeThrough ∧ ok = false
      · rwa [deleteSection_of_raised hash s key hok]
      · obtain ⟨-, hdone⟩ := deleteSection_of_returned hash s key hok
        intro v d hv
        rw [hdone.timed] at hv
        split_ifs at hv with hk
        rw [hdone.source, if_neg fun h => hk h.1]
        exact hc v d hv
  | clear i ok ts hth heq =>
      refine hsame heq ?_
      obtain ⟨done, rest, hdone⟩ := clearSection_spec hs i ok
      intro v d hv
      rw [hdone.timed] at hv
      split_ifs at hv with hk
      rw [hdone.source, if_neg fun h => hk h.1]
      exact hc v d hv
  | giveUp ts hth hgive heq => exact hsame heq hc
  | collect i hth hwb heq => cases hmode.symm.trans hwb
  | check t hth i hi hst heq => cases hth.symm.trans hnone
  | skip t hth hrel i hi hst heq => cases hth.symm.trans hnone
  | apply t hth hok heq => cases hth ▸ hnone
  | fail t hth heq => cases hth ▸ hnone
  | release t ts hth hrel i hi heq => cases hth.symm.trans hnone
  | settle t hth hrel i hi heq => cases hth.symm.trans hnone

/-- Outside write-back mode no thread holds a job. -/
theorem Base.flushes_eq_nil {s : System α V cfg} (hb : Base hash s) (hmode : cfg.writeMode ≠ .writeBack)
    {th : Thread α V T} (hmem : th ∈ s.threads) : th.flushes = [] := by
  rw [← List.map_eq_nil_iff (f := Prod.snd), List.eq_nil_iff_forall_not_mem]
  intro t ht
  have hmem : t ∈ s.tickets := System.mem_tickets.mpr (.inr ⟨th, hmem, ht⟩)
  rw [(hb.direct hmode).1] at hmem
  cases hmem

/-- Every step keeps coherence in write-through mode. -/
theorem coherent_step {s s' : System α V cfg} {l : Label α V T} (h : step cfg hash s l = some s')
    (hmode : cfg.writeMode = .writeThrough) (hb : Base hash s) (hc : Coherent s.shared) :
    Coherent s'.shared := by
  have hwb : cfg.writeMode ≠ .writeBack := by simp [hmode]
  rw [coherent_iff hb.shards] at hc
  rw [coherent_iff (hb.step h).shards]
  rcases step_cases h with ⟨now, -, -, rfl⟩ | ⟨new, -, hsame, -⟩ | ⟨i, c, th, th', -, hi, hth, -⟩
  · exact hc
  · rwa [hsame.source_eq, show s'.shared.home hash = s.shared.home hash from by
      funext k; rw [Shared.home, hsame.shards_eq]]
  · have hmem := List.mem_of_getElem? hi
    intro k
    rcases threadStep_effect hth (hb.threads th hmem).2 (hb.flushing_mode hmem) with
      ⟨-, heff⟩ | ⟨-, hwound, -⟩
    · exact heff.coherent hb.shards hmode (hb.flushes_eq_nil hwb hmem) (hc k)
    · -- the workers and `close` do not call the source in this mode
      have hsource : s'.shared.source = s.shared.source := by
        rcases hwound.source with ⟨hsource, -⟩ | ⟨hfl, -⟩
        · exact hsource
        · rw [(hb.direct hwb).2 th hmem] at hfl
          cases hfl
      obtain ⟨j, sh', hshards, hd, -⟩ := hwound.shards
      intro v d hv
      rw [Shared.home_of_update hshards] at hv
      rw [hsource]
      split_ifs at hv with hj
      · rw [hd.timed_eq, ← hj] at hv
        exact hc k v d hv
      · exact hc k v d hv

/-! ### Sections that fail -/

/-- Lazy expiration spares everything else. -/
theorem spared_dropExpired {sh : CacheShard α V T} (h : sh.Agrees) (key : Key α) (now : T) :
    Spared now key sh (sh.dropExpired key now) where
  unchanged hx := by
    unfold CacheShard.dropExpired
    cases he : sh.backend.getEntry key with
    | none => rfl
    | some e => simp [hx e he]
  entries k hk := by
    unfold CacheShard.dropExpired
    cases sh.backend.getEntry key with
    | none => rfl
    | some e =>
        simp only
        split_ifs
        · rw [CacheShard.removeEntryLocked_backend, InMemoryBackend.getEntry_deleteEntry, if_neg hk]
        · rfl
  marks k hk := congrArg Slot.mark (slot_dropExpired_of_ne sh hk now)
  order := by
    unfold CacheShard.dropExpired
    cases sh.backend.getEntry key with
    | none => rfl
    | some e =>
        simp only
        split_ifs
        · rw [CacheShard.removeEntryLocked_policy, h.wf.order_onDelete, List.filter_filter]
          simp
        · rfl

/-- A put whose source call fails. -/
theorem put_of_source_failure {s : Shared α V cfg} (hs : ∀ i, ShardOk cfg hash i (s.shards i))
    (hmode : cfg.writeMode = .writeThrough) {c : Choice α V} (caller : Caller α V T) {key : Key α}
    (value : V) (ttl : Ttl T) (hok : c.ok key = false) :
    ∃ s', threadStep hash s c (.running (.put key value ttl) caller) =
        some (s', caller.raised .sourceFailure) ∧
      s'.source = s.source ∧
      Spared s.now key (s.home hash key) (s'.home hash key) ∧
      ∀ i, i ≠ shardFor cfg hash key → s'.shards i = s.shards i := by
  have hsection := putSection_of_raised hash s key value ttl ⟨hmode, hok⟩
  have hsame := (Shared.Same.refl (s.setShard (shardFor cfg hash key)
    ((s.home hash key).dropExpired key s.now))).callerCount caller false
  refine ⟨_, ?_, hsame.source_eq, ?_, fun i hi => ?_⟩
  · simp only [threadStep, clientStep, hsection, if_true]
    rfl
  · rw [Shared.home_of_update hsame.shards_eq, if_pos rfl]
    exact spared_dropExpired (hs _).agrees key s.now
  · rw [hsame.shards_eq]
    exact Function.update_of_ne hi _ _

/-- A delete whose source call fails. -/
theorem delete_of_source_failure (s : Shared α V cfg) (hmode : cfg.writeMode = .writeThrough)
    {c : Choice α V} (caller : Caller α V T) {key : Key α} (hok : c.ok key = false) :
    threadStep hash s c (.running (.delete key) caller) =
      some (s, Thread.finished (.raised .sourceFailure)) := by
  simp only [threadStep, clientStep, deleteSection_of_raised hash s key ⟨hmode, hok⟩, if_true]
  rfl

/-- A section of a clear, whether it returns or stops at a failing source call. -/
theorem clearing_section {s : Shared α V cfg} (hs : ∀ i, ShardOk cfg hash i (s.shards i))
    (hmode : cfg.writeMode = .writeThrough) (hc : Coherent s) (c : Choice α V) (i : Fin cfg.shardCount)
    (tickets : List (Ticket α V)) :
    ∃ s' th' done rest,
      threadStep hash s c (.clearing i tickets) = some (s', th') ∧
      ClearedThrough s i done rest s' ∧
      (th' = .finished (.raised .sourceFailure) ↔ rest ≠ []) ∧
      (∀ k rest', rest = k :: rest' → c.ok k = false) ∧
      ∀ j, j ≠ i → s'.shards j = s.shards j := by
  obtain ⟨done, rest, hdone⟩ := clearSection_spec hs i c.ok
  have hnd : (done ++ rest).Nodup := hdone.keys_eq ▸ (s.shards i).backend.entries.keys_nodup
  have hentry : ∀ k ∈ done ++ rest, ((s.clearSection i c.ok).1.shards i).backend.getEntry k =
      if k ∈ done then none else (s.shards i).backend.getEntry k := by
    intro k hk
    obtain ⟨e, he⟩ := InMemoryBackend.mem_keys_iff.mp (hdone.keys_eq ▸ hk)
    have hhome := hdone.entries k
    rwa [Shared.home, Shared.home, (hs i).shardFor_eq he] at hhome
  have hcleared : ClearedThrough s i done rest (s.clearSection i c.ok).1 := by
    refine ⟨hdone.keys_eq, fun k hk => ⟨?_, ?_⟩, fun k hk => ?_, ?_⟩
    · rw [hentry k (List.mem_append_left _ hk), if_pos hk]
    · rw [hdone.source, if_pos ⟨hk, hmode⟩]
    · have hmem : k ∈ done ++ rest := List.mem_append_right _ hk
      have hnot : k ∉ done := fun hd => (List.nodup_append.mp hnd).2.2 k hd k hk rfl
      obtain ⟨e, he⟩ := InMemoryBackend.mem_keys_iff.mp (hdone.keys_eq ▸ hmem)
      refine ⟨e, he, by rw [hentry k hmem, if_neg hnot, he], ?_⟩
      rw [hdone.source, if_neg fun h => hnot h.1]
      exact hc i k e he
    · have hagrees := (hs i).agrees.clearLocked cfg.toCacheConfig s.source c.ok
      have hshard : (s.clearSection i c.ok).1.shards i =
          ((s.shards i).clearLocked cfg.toCacheConfig s.source c.ok).shard := Function.update_self _ _ _
      rw [hshard]
      exact hagrees.mem_iff
  have hother : ∀ j, j ≠ i → (s.clearSection i c.ok).1.shards j = s.shards j :=
    fun j hj => Function.update_of_ne hj _ _
  cases hr : (s.clearSection i c.ok).2.2 with
  | true =>
      obtain ⟨-, k, rest', hrest, hfail⟩ := hdone.rest_of_raised hr
      refine ⟨_, .finished (.raised .sourceFailure), done, rest, ?_, hcleared, ?_, ?_, hother⟩
      · simp [threadStep, clientStep, hr]
      · simp [hrest]
      · rintro k' rest'' heq
        rw [hrest] at heq
        rwa [← (List.cons.inj heq).1]
  | false =>
      refine ⟨_, .clearing (i + 1) (tickets ++ (s.clearSection i c.ok).2.1), done, rest, ?_, hcleared, ?_, ?_,
        hother⟩
      · simp [threadStep, clientStep, hr]
      · simp [hdone.rest_of_returned hr]
      · simp [hdone.rest_of_returned hr]

/-- **Write-through coherence.** In write-through mode, at every point of every run: every resident
entry has the value of the source; a put or delete whose source call fails raises and changes nothing
but an expired entry of its key; and a clear has removed exactly the keys it processed, from cache and
source alike, and stops at the first key whose source call fails. -/
theorem write_through_coherent {cfg : AcceptedConfig T} {hash : Key α → ℕ} {now : T} {src : Source α V}
    {ls : List (Label α V T)} {s : System α V cfg} (hmode : cfg.writeMode = .writeThrough)
    (h : exec cfg hash (initial cfg now src) ls = some s) :
    Coherent s.shared ∧
    (∀ (c : Choice α V) caller key value ttl, c.ok key = false →
      ∃ s', threadStep hash s.shared c (.running (.put key value ttl) caller) =
          some (s', caller.raised .sourceFailure) ∧
        s'.source = s.shared.source ∧
        Spared s.shared.now key (s.shared.home hash key) (s'.home hash key) ∧
        ∀ i, i ≠ shardFor cfg hash key → s'.shards i = s.shared.shards i) ∧
    (∀ (c : Choice α V) caller key, c.ok key = false →
      threadStep hash s.shared c (.running (.delete key) caller) =
        some (s.shared, Thread.finished (.raised .sourceFailure))) ∧
    ∀ (c : Choice α V) (i : Fin cfg.shardCount) tickets, ∃ s' th' done rest,
      threadStep hash s.shared c (.clearing i tickets) = some (s', th') ∧
      ClearedThrough s.shared i done rest s' ∧
      (th' = .finished (.raised .sourceFailure) ↔ rest ≠ []) ∧
      (∀ k rest', rest = k :: rest' → c.ok k = false) ∧
      ∀ j, j ≠ i → s'.shards j = s.shared.shards j := by
  have hstep : ∀ (s : System α V cfg) l s', step cfg hash s l = some s' →
      Base hash s ∧ Coherent s.shared → Base hash s' ∧ Coherent s'.shared :=
    fun s l s' hst hs => ⟨hs.1.step hst, coherent_step hst hmode hs.1 hs.2⟩
  have hinit : Coherent (initial cfg now src).shared := by
    intro i k e he
    cases he
  obtain ⟨hb, hc⟩ := Transition.run_invariant_of_step hstep h ⟨base_initial cfg hash now src, hinit⟩
  exact ⟨hc, fun c caller key value ttl hok => put_of_source_failure hb.shards hmode caller value ttl hok,
    fun c caller key hok => delete_of_source_failure s.shared hmode caller hok,
    clearing_section hb.shards hmode hc⟩

/-- A run with a put that fails after one that went through. -/
theorem write_through_coherent_after_failure :
    ∃ s : System ℕ ℕ (oneEntry .lru .writeThrough 0 0 0),
      exec _ (fun _ => 0) (initial _ 0 .empty)
        [.call (.put (some 1) 10 .unset), .run 0 {}, .run 0 {}, .call (.put (some 1) 20 .unset),
          .run 1 {}, .run 1 { ok := fun _ => false }] = some s ∧
      s.shared.source.get? (some 1) = some 10 ∧ Coherent s.shared := by
  have heval : ((exec (oneEntry .lru .writeThrough 0 0 0) (fun _ => 0) (initial _ 0 .empty)
      [.call (.put (some 1) 10 .unset), .run 0 {}, .run 0 {}, .call (.put (some 1) 20 .unset),
        .run 1 {}, .run 1 { ok := fun _ => false }]).map
      fun s : System ℕ ℕ (oneEntry .lru .writeThrough 0 0 0) =>
        decide (s.shared.source.get? (some 1) = some 10)) = some true := by decide +kernel
  obtain ⟨s, hs, heval⟩ := Option.map_eq_some_iff.mp heval
  exact ⟨s, hs, of_decide_eq_true heval, (write_through_coherent rfl hs).1⟩

end CacheLab
