import CitrateChain.Base.Runs
import CitrateChain.Consensus.SignedVotes

/-! # Equivocation protection

A height that was signed stays protected: either its record still names the block that was signed,
or the stored floor has reached the height. Both facts are about the store alone, so they survive
a restart, and a failed batch does not touch them. -/
namespace CitrateChain.Consensus.SignedVotes
open Word Bytes Transition KvStore

variable {c : GadgetConfig} {f : Faults} {st : SignState} {kv : PersistentStore}
variable {m next : SignedVoteMeta} {chainId chainId' height h : UInt64} {b b' : Hash}

theorem boundariesFrom_le {upto interval : UInt64} {fuel : ℕ} {first : UInt64}
    (hh : h ∈ boundariesFrom upto interval fuel first) : h ≤ upto := by
  induction fuel generalizing first with
  | zero => simp [boundariesFrom] at hh
  | succ fuel ih =>
    rw [boundariesFrom] at hh
    split at hh
    · rename_i hle
      rcases List.mem_cons.mp hh with rfl | hh
      · exact hle
      · split at hh
        · exact ih hh
        · simp at hh
    · simp at hh

theorem boundariesBetween_le {after upto interval : UInt64}
    (hh : h ∈ boundariesBetween after upto interval) : h ≤ upto := by
  unfold boundariesBetween at hh
  split at hh
  · simp at hh
  · split at hh
    · simp at hh
    · exact boundariesFrom_le hh

def storedMeta (kv : PersistentStore) (chainId : UInt64) : Option SignedVoteMeta :=
  match kv (.dagMetadata, signedVoteMetaKey chainId) with
  | none => some {}
  | some bs => SignedVoteMeta.decode bs

def signedVoteAt (kv : PersistentStore) (chainId height : UInt64) : Option Hash :=
  (kv (.dagMetadata, signedVoteKey chainId height)).bind Hash.ofBytes?

/-- The store never lets a block other than `b` be signed at `(chainId, height)`. -/
def Protected (kv : PersistentStore) (chainId height : UInt64) (b : Hash) : Prop :=
  (∃ m, storedMeta kv chainId = some m ∧ height ≤ m.floor) ∨ signedVoteAt kv chainId height = some b

def CacheValid (c : GadgetConfig) (st : SignState) : Prop :=
  ∀ m, st.signedMeta = some m → storedMeta st.kv c.chainId = some m

theorem metaKey_ne_voteKey (chainId chainId' height : UInt64) :
    ((Cf.dagMetadata, signedVoteMetaKey chainId') : Cf × Bytes) ≠
      (.dagMetadata, signedVoteKey chainId height) :=
  fun he => signedVoteKey_ne_metaKey (Prod.mk.inj he).2.symm

theorem storedMeta_congr {kv' : PersistentStore}
    (he : kv' (.dagMetadata, signedVoteMetaKey chainId) =
      kv (.dagMetadata, signedVoteMetaKey chainId)) :
    storedMeta kv' chainId = storedMeta kv chainId := by
  rw [storedMeta, storedMeta, he]

theorem raiseOps_delete {op : KvOp (Cf × Bytes) Bytes}
    (hop : op ∈ (boundariesBetween m.floor (min next.floor m.highest) (max c.interval 1)).map
      fun h => .delete (.dagMetadata, signedVoteKey c.chainId h)) :
    ∃ h ≤ next.floor, op.key = (.dagMetadata, signedVoteKey c.chainId h) := by
  obtain ⟨h, hh, rfl⟩ := List.mem_map.mp hop
  exact ⟨h, (boundariesBetween_le hh).trans (min_le_left _ _), rfl⟩

theorem storedMeta_raiseOps : storedMeta (kv.writeBatch (raiseOps c m next)) c.chainId = some next := by
  have hd : (kv.writeBatch (raiseOps c m next)) (.dagMetadata, signedVoteMetaKey c.chainId) =
      some next.encode := by
    rw [raiseOps, writeBatch_cons, writeBatch_of_forall_ne]
    · exact Function.update_self _ _ _
    · intro op hop
      obtain ⟨h, -, he⟩ := raiseOps_delete hop
      exact he ▸ (metaKey_ne_voteKey _ _ _).symm
  simp [storedMeta, hd]

theorem storedMeta_raiseOps_of_ne (hne : chainId ≠ c.chainId) :
    storedMeta (kv.writeBatch (raiseOps c m next)) chainId = storedMeta kv chainId := by
  refine storedMeta_congr (writeBatch_of_forall_ne fun op hop => ?_)
  rcases List.mem_cons.mp hop with rfl | hop
  · exact fun he => hne (signedVoteMetaKey_inj (Prod.mk.inj he).2).symm
  · obtain ⟨h, -, he⟩ := raiseOps_delete hop
    exact he ▸ (metaKey_ne_voteKey _ _ _).symm

theorem signedVoteAt_raiseOps (hf : chainId = c.chainId → next.floor < h) :
    signedVoteAt (kv.writeBatch (raiseOps c m next)) chainId h = signedVoteAt kv chainId h := by
  rw [signedVoteAt, writeBatch_of_forall_ne fun op hop => ?_, signedVoteAt]
  rcases List.mem_cons.mp hop with rfl | hop
  · exact metaKey_ne_voteKey _ _ _
  · obtain ⟨h', hle, he⟩ := raiseOps_delete hop
    rw [he]
    intro hk
    obtain ⟨hc, rfl⟩ := signedVoteKey_inj (Prod.mk.inj hk).2
    exact absurd hle (not_le.mpr (hf hc.symm))

theorem Protected.signed (hp : Protected kv chainId h b) (hm : storedMeta kv chainId = some m)
    (hf : m.floor < h) : signedVoteAt kv chainId h = some b := by
  rcases hp with ⟨m', hm', hle⟩ | hv
  · obtain rfl : m' = m := Option.some.inj (hm'.symm.trans hm)
    exact absurd hle (not_le.mpr hf)
  · exact hv

theorem Protected.raiseOps (hm : storedMeta kv c.chainId = some m) (hf : m.floor ≤ next.floor)
    (hp : Protected kv chainId h b) : Protected (kv.writeBatch (raiseOps c m next)) chainId h b := by
  by_cases hc : chainId = c.chainId
  · subst hc
    by_cases hle : h ≤ next.floor
    · exact .inl ⟨next, storedMeta_raiseOps, hle⟩
    · have hlt := not_le.mp hle
      exact .inr ((signedVoteAt_raiseOps fun _ => hlt).trans (hp.signed hm (hf.trans_lt hlt)))
  · rcases hp with ⟨m', hm', hle⟩ | hv
    · exact .inl ⟨m', (storedMeta_raiseOps_of_ne hc).trans hm', hle⟩
    · exact .inr ((signedVoteAt_raiseOps fun he => absurd he hc).trans hv)

def putRecord (kv : PersistentStore) (chainId height : UInt64) (b : Hash) : PersistentStore :=
  kv.write (.put (.dagMetadata, signedVoteKey chainId height) b.asBytes)

@[simp] theorem storedMeta_putRecord :
    storedMeta (putRecord kv chainId' height b) chainId = storedMeta kv chainId :=
  storedMeta_congr (write_of_ne fun he => metaKey_ne_voteKey _ _ _ he.symm)

@[simp] theorem signedVoteAt_putRecord :
    signedVoteAt (putRecord kv chainId height b) chainId height = some b := by
  simp [signedVoteAt, putRecord, write, KvOp.key, KvOp.value]

theorem Protected.putRecord (hn : signedVoteAt kv chainId' height = none)
    (hp : Protected kv chainId h b) : Protected (putRecord kv chainId' height b') chainId h b := by
  rcases hp with ⟨m, hm, hle⟩ | hv
  · exact .inl ⟨m, storedMeta_putRecord.trans hm, hle⟩
  · refine .inr ?_
    rw [← hv, signedVoteAt, SignedVotes.putRecord, write_of_ne, signedVoteAt]
    intro hk
    obtain ⟨rfl, rfl⟩ := signedVoteKey_inj (Prod.mk.inj hk).2
    rw [hn] at hv
    exact absurd hv (by simp)

theorem kvGet_ok {fault : Option String} {key : Bytes} {o : Option Bytes}
    (h : kvGet fault kv key = .ok o) : kv (.dagMetadata, key) = o := by
  cases fault with
  | some e => cases h
  | none => exact Except.ok.inj h

theorem kvWriteBatch_ok {fault : Option String} {ops : List (KvOp (Cf × Bytes) Bytes)}
    {kv' : PersistentStore} (h : kvWriteBatch fault kv ops = .ok kv') : kv' = kv.writeBatch ops := by
  cases fault with
  | some e => cases h
  | none => exact (Except.ok.inj h).symm

theorem signedMeta_stored {fault : Option String} (hc : CacheValid c st)
    (hm : signedMeta c fault st.signedMeta st.kv = .ok m) : storedMeta st.kv c.chainId = some m := by
  unfold signedMeta at hm
  split at hm
  · rename_i hs
    exact hc m (Except.ok.inj hm ▸ hs)
  split at hm
  · cases hm
  · rename_i hk
    rw [storedMeta, kvGet_ok hk, Except.ok.inj hm]
  · rename_i hk
    rw [storedMeta, kvGet_ok hk]
    split at hm
    · rename_i hd
      exact Except.ok.inj hm ▸ hd
    · cases hm

theorem CacheValid.of_stored (hm : storedMeta kv c.chainId = some m) :
    CacheValid c ⟨some m, kv⟩ := by
  intro m' he
  rwa [← Option.some.inj he]

theorem le_nextMeta_floor : m.floor ≤ (nextMeta c m height).floor := le_max_left _ _

variable {r : Except SignRefusal Unit × SignState}

theorem authorizeSign_cases (hc : CacheValid c st) (hr : authorizeSign c f st height b = r) :
    (r.2.kv = st.kv ∧ CacheValid c r.2 ∧ (r.1 = .ok () →
      signedVoteAt st.kv c.chainId height = some b ∧
        ∃ m, storedMeta st.kv c.chainId = some m ∧ m.floor < height)) ∨
    ∃ m next, storedMeta st.kv c.chainId = some m ∧ m.floor ≤ next.floor ∧ next.floor < height ∧
      signedVoteAt st.kv c.chainId height = none ∧
      r = (.ok (), ⟨some next,
        (putRecord st.kv c.chainId height b).writeBatch (raiseOps c m next)⟩) := by
  unfold authorizeSign at hr
  split at hr
  · exact .inl (hr ▸ ⟨rfl, hc, by simp⟩)
  split at hr
  · exact .inl (hr ▸ ⟨rfl, hc, by simp⟩)
  rename_i m hm
  have hs := signedMeta_stored hc hm
  have hl := CacheValid.of_stored hs
  split at hr
  · exact .inl (hr ▸ ⟨rfl, hl, by simp⟩)
  rename_i hfloor
  split at hr
  · exact .inl (hr ▸ ⟨rfl, hl, by simp⟩)
  · rename_i hg
    split at hr
    · exact .inl (hr ▸ ⟨rfl, hl, by simp⟩)
    rename_i signed hb
    refine .inl (hr ▸ ⟨rfl, hl, fun hok => ?_⟩)
    have he : signed = b := by
      by_contra hne
      simp [hne] at hok
    exact ⟨by simp [signedVoteAt, kvGet_ok hg, hb, he], m, hs, not_le.mp hfloor⟩
  · rename_i hg
    dsimp only at hr
    split at hr
    · exact .inl (hr ▸ ⟨rfl, hl, by simp⟩)
    rename_i hnext
    split at hr
    · exact .inl (hr ▸ ⟨rfl, hl, by simp⟩)
    rename_i hw
    rw [kvWriteBatch_ok hw] at hr
    exact .inr ⟨m, nextMeta c m height, hs, le_nextMeta_floor, not_le.mp hnext,
      by simp [signedVoteAt, kvGet_ok hg], hr.symm⟩

theorem pruneSignedRecords_cases (hc : CacheValid c st) {st' : SignState} {floor : UInt64}
    (hr : pruneSignedRecords c f st floor = st') :
    (st'.kv = st.kv ∧ CacheValid c st') ∨
    ∃ m next, storedMeta st.kv c.chainId = some m ∧ m.floor ≤ next.floor ∧
      st' = ⟨some next, st.kv.writeBatch (raiseOps c m next)⟩ := by
  unfold pruneSignedRecords at hr
  split at hr
  · exact .inl (hr ▸ ⟨rfl, hc⟩)
  split at hr
  · exact .inl (hr ▸ ⟨rfl, hc⟩)
  rename_i m hm
  have hs := signedMeta_stored hc hm
  split at hr
  · exact .inl (hr ▸ ⟨rfl, CacheValid.of_stored hs⟩)
  rename_i hfloor
  dsimp only at hr
  split at hr
  · exact .inl (hr ▸ ⟨rfl, CacheValid.of_stored hs⟩)
  rename_i hw
  rw [kvWriteBatch_ok hw] at hr
  exact .inr ⟨m, { m with floor }, hs, (not_le.mp hfloor).le, hr.symm⟩

structure World where
  config : GadgetConfig
  st : SignState

def World.boot (config : GadgetConfig) (kv : PersistentStore) : World := ⟨config, ⟨none, kv⟩⟩

inductive Event
  | sign (chainId height : UInt64) (blockHash : Hash) (answer : Except SignRefusal Unit)
  | prune
  | restart

/-- Signing requests, prunes and restarts, each with any store calls failing. A restart may
come back with another configuration. -/
inductive Step : World → Event → World → Prop
  | sign (w : World) (f : Faults) (height : UInt64) (b : Hash) :
      Step w (.sign w.config.chainId height b (authorizeSign w.config f w.st height b).1)
        ⟨w.config, (authorizeSign w.config f w.st height b).2⟩
  | prune (w : World) (f : Faults) (latestFinalized : UInt64) :
      Step w .prune ⟨w.config, SignedVotes.prune w.config f w.st latestFinalized⟩
  | restart (w : World) (config : GadgetConfig) : Step w .restart (World.boot config w.st.kv)

structure Honours (es : List Event) (w : World) : Prop where
  cache : CacheValid w.config w.st
  kept : ∀ {chainId h b}, .sign chainId h b (.ok ()) ∈ es → Protected w.st.kv chainId h b
  unique : ∀ {chainId h b b'}, .sign chainId h b (.ok ()) ∈ es →
    .sign chainId h b' (.ok ()) ∈ es → b = b'

theorem authorizeSign_protects (hc : CacheValid c st) (hr : authorizeSign c f st height b = r) :
    CacheValid c r.2 ∧
    (∀ {chainId h b'}, Protected st.kv chainId h b' → Protected r.2.kv chainId h b') ∧
    (r.1 = .ok () → Protected r.2.kv c.chainId height b ∧
      ∀ {b'}, Protected st.kv c.chainId height b' → b = b') := by
  rcases authorizeSign_cases hc hr with ⟨hkv, hc', hok⟩ | ⟨m, next, hm, hmf, hnf, hn, rfl⟩
  · refine ⟨hc', fun hp => hkv ▸ hp, fun he => ?_⟩
    obtain ⟨hv, m, hm, hf⟩ := hok he
    exact ⟨hkv ▸ .inr hv, fun hp => Option.some.inj (hv.symm.trans (hp.signed hm hf))⟩
  have hm' : storedMeta (putRecord st.kv c.chainId height b) c.chainId = some m := by
    rw [storedMeta_putRecord, hm]
  have hv : signedVoteAt ((putRecord st.kv c.chainId height b).writeBatch (raiseOps c m next))
      c.chainId height = some b := by
    rw [signedVoteAt_raiseOps fun _ => hnf, signedVoteAt_putRecord]
  exact ⟨CacheValid.of_stored storedMeta_raiseOps,
    fun hp => Protected.raiseOps hm' hmf (hp.putRecord hn),
    fun _ => ⟨.inr hv, fun hp => absurd (hn.symm.trans (hp.signed hm (hmf.trans_lt hnf))) nofun⟩⟩

theorem prune_protects (hc : CacheValid c st) {st' : SignState} {floor : UInt64}
    (hr : prune c f st floor = st') :
    CacheValid c st' ∧
      ∀ {chainId h b'}, Protected st.kv chainId h b' → Protected st'.kv chainId h b' := by
  unfold prune at hr
  split at hr
  · rcases pruneSignedRecords_cases hc hr with ⟨hkv, hc'⟩ | ⟨m, next, hm, hmf, rfl⟩
    · exact ⟨hc', fun hp => hkv ▸ hp⟩
    · exact ⟨.of_stored storedMeta_raiseOps, fun hp => hp.raiseOps hm hmf⟩
  · exact ⟨hr ▸ hc, fun hp => hr ▸ hp⟩

theorem Honours.boot (c : GadgetConfig) (kv : PersistentStore) : Honours [] (World.boot c kv) where
  cache := by intro m hm; simp [World.boot] at hm
  kept := by simp
  unique := by simp

theorem Honours.silent {es : List Event} {w w' : World} {e : Event} (hw : Honours es w)
    (hc : CacheValid w'.config w'.st) (he : ∀ {chainId h b}, e ≠ .sign chainId h b (.ok ()))
    (hp : ∀ {chainId h b}, Protected w.st.kv chainId h b → Protected w'.st.kv chainId h b) :
    Honours (es ++ [e]) w' := by
  have hes : ∀ {chainId h b}, Event.sign chainId h b (.ok ()) ∈ es ++ [e] →
      Event.sign chainId h b (.ok ()) ∈ es := by
    intro chainId h b hmem
    rcases List.mem_append.mp hmem with hmem | hmem
    · exact hmem
    · exact absurd (List.mem_singleton.mp hmem).symm he
  exact ⟨hc, fun hb => hp (hw.kept (hes hb)), fun hb hb' => hw.unique (hes hb) (hes hb')⟩

theorem Honours.step {es : List Event} {w w' : World} {e : Event} (hw : Honours es w)
    (hs : Step w e w') : Honours (es ++ [e]) w' := by
  cases hs with
  | sign f height b =>
    obtain ⟨hc, hp, hok⟩ := authorizeSign_protects hw.cache
      (rfl : authorizeSign w.config f w.st height b = _)
    by_cases ha : (authorizeSign w.config f w.st height b).1 = .ok ()
    · obtain ⟨hb, hu⟩ := hok ha
      rw [ha]
      have hold : ∀ {b'}, Event.sign w.config.chainId height b' (.ok ()) ∈ es → b = b' :=
        fun hmem => hu (hw.kept hmem)
      refine ⟨hc, fun {chainId h b'} hmem => ?_, fun {chainId h b₁ b₂} h₁ h₂ => ?_⟩
      · simp only [List.mem_append, List.mem_singleton, Event.sign.injEq] at hmem
        rcases hmem with hmem | ⟨rfl, rfl, rfl, -⟩
        · exact hp (hw.kept hmem)
        · exact hb
      · simp only [List.mem_append, List.mem_singleton, Event.sign.injEq] at h₁ h₂
        rcases h₁ with h₁ | ⟨rfl, rfl, rfl, -⟩ <;> rcases h₂ with h₂ | ⟨hch, hhe, rfl, -⟩
        · exact hw.unique h₁ h₂
        · subst hch hhe
          exact (hold h₁).symm
        · exact hold h₂
        · rfl
    · exact hw.silent hc (fun he => ha (Event.sign.inj he).2.2.2) hp
  | prune f floor =>
    obtain ⟨hc, hp⟩ := prune_protects hw.cache (rfl : prune w.config f w.st floor = _)
    exact hw.silent hc (by simp) hp
  | restart config =>
    exact hw.silent (Honours.boot config w.st.kv).cache (by simp) fun hp => hp

/-- Equivocation protection: over one persistent store, whatever its initial contents, no two
different blocks are ever authorized at the same height of a chain. -/
theorem authorizeSign_never_equivocates {kv : PersistentStore} {es : List Event} {w : World}
    (hr : Runs Step (World.boot c kv) es w) (hb : .sign chainId h b (.ok ()) ∈ es)
    (hb' : .sign chainId h b' (.ok ()) ∈ es) : b = b' :=
  (hr.history (P := Honours) (Honours.boot c kv) fun _ _ _ _ => Honours.step).unique hb hb'

theorem authorizeSign_never_equivocates_restart :
    ∃ es w, Runs Step (World.boot ⟨40204, 10, true, true⟩ fun _ => none) es w ∧
      es.length = 3 ∧ .sign 40204 10 7#256 (.ok ()) ∈ es ∧
      ∀ b', .sign 40204 10 b' (.ok ()) ∈ es → 7#256 = b' := by
  let c : GadgetConfig := ⟨40204, 10, true, true⟩
  have hr := ((Runs.refl (s := World.boot c fun _ => none)).step (Step.sign _ {} 10 7#256)).step
    (Step.restart _ c) |>.step (Step.sign _ {} 10 7#256)
  have hok : (authorizeSign c {} ⟨none, fun _ => none⟩ 10 7#256).1 = .ok () := by decide
  have hmem : Event.sign 40204 10 7#256 (.ok ()) ∈ [Event.sign 40204 10 7#256
      (authorizeSign c {} ⟨none, fun _ => none⟩ 10 7#256).1] := by simp [hok]
  exact ⟨_, _, hr, rfl, List.mem_append_left _ (List.mem_append_left _ hmem),
    fun b' => authorizeSign_never_equivocates hr
      (List.mem_append_left _ (List.mem_append_left _ hmem))⟩

end CitrateChain.Consensus.SignedVotes
