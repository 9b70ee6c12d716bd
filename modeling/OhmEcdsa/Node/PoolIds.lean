import OhmEcdsa.Node.Pool

/-!
# The ids of the pool manager (`party/pool.rs`)

The manager hands each production a fresh id, and a restarted one resumes above the largest
id that its store has seen.  An id leaves a trace in the store if its record was inserted, or
if it was burned; a plain tick whose production fails leaves none.

    every restart resumes above the ids handed out → they increase     (ids_increase)

With the tolerant tick they always do.
-/

set_option linter.unusedSectionVars false

namespace OhmEcdsa

open Codec Decoder Hoare Transition

section Pool

variable {F G : Type} [Field F] [DecidableEq F] [AddCommGroup G] [Module F G] [DecidableEq G] [K256 F G]
  [WireFormat F G]

/-! ## Algorithm -/

namespace PoolManager

/-- A pass up to the call of `produce`, and the id that it is called with. -/
def ask (cr : Crypto) (now : U64) (pm : PoolManager) : FsM (Except PersistError (Option U64) × PoolManager) := do
  match ← expireAged cr now pm with
  | (.error e, pm) => return (.error e, pm)
  | (.ok (), pm) =>
    if pm.store.live.card < pm.cfg.target then return (.ok (some pm.nextId), { pm with nextId := pm.nextId + 1 })
    else return (.ok none, pm)

/-- The rest of it, with what the call came to. -/
def supply (cr : Crypto) (onFailure : U64 → PersistError → PoolManager → FsM (Except PersistError Unit × PoolManager))
    (now : U64) (nonce : Nonce) (id : U64) (made : Except PersistError (Record F G)) (pm : PoolManager) :
    FsM (Except PersistError PoolStats × PoolManager) :=
  match made with
  | .ok record => do
    match ← attempt (pm.store.insertAt cr nonce record.val now.val) with
    | .ok store =>
      let pm := { pm with store := store, counters := { pm.counters with produced := pm.counters.produced + 1 } }
      return (.ok pm.stats, pm)
    | .error (.protocol (.presigStore _)) => return (.ok pm.stats, pm)
    | .error e => return (.error e, pm)
  | .error e => do
    let (done, pm) ← onFailure id e pm
    return (done.map fun _ => pm.stats, pm)

end PoolManager

/-- The id that an act hands to `produce`. -/
def PoolAct.asked (cr : Crypto) (s : Pool) (a : PoolAct F G) : Option U64 :=
  match a with
  | .tick now _ _ => (completed (s.manager.ask cr now) s.disk).bind fun out => out.1.1.toOption.join
  | .tickTolerant now _ _ => (completed (s.manager.ask cr now) s.disk).bind fun out => out.1.1.toOption.join
  | .consume _ => none
  | .restart _ _ => none

/-- A node, and the ids that it has handed to `produce`. -/
structure LoggedPool where
  pool : Pool
  asked : List U64

def LoggedPool.act (cr : Crypto) (s : LoggedPool) (a : PoolAct F G) : Option LoggedPool :=
  (s.pool.act cr a).map fun pool => ⟨pool, s.asked ++ (a.asked cr s.pool).toList⟩

/-! ## Specification -/

/-- The tick, with another `produce`. -/
def PoolAct.withProduce (produce : U64 → Except PersistError (Record F G)) : PoolAct F G → PoolAct F G
  | .tick now nonce _ => .tick now nonce produce
  | .tickTolerant now nonce _ => .tickTolerant now nonce produce
  | .consume id => .consume id
  | .restart args cfg => .restart args cfg

def PoolAct.produces : PoolAct F G → U64 → Except PersistError (Record F G)
  | .tick _ _ produce => produce
  | .tickTolerant _ _ produce => produce
  | .consume _ => fun _ => .error .io
  | .restart _ _ => fun _ => .error .io

/-- The counters do not wrap, and no file is larger than a file can be. -/
structure LoggedPool.Roomy (s : LoggedPool) : Prop where
  disk : s.pool.disk.Bounded
  nextId : s.pool.manager.nextId.val + 1 < 2 ^ 64
  seen : s.pool.manager.store.maxSeenId + 1 < 2 ^ 64

/-- Whatever the manager handed out has left a trace in its store. -/
def LoggedPool.Traced (s : LoggedPool) : Prop :=
  s.pool.manager.nextId.val ≤ s.pool.manager.store.maxSeenId + 1

/-- A tolerant tick, with a `produce` that makes the record it was asked for. -/
def PoolAct.Tolerant : PoolAct F G → Prop
  | .tick _ _ _ => False
  | .tickTolerant _ _ produce => ∀ id record, produce id = .ok record → record.val.id = id
  | .consume _ => True
  | .restart _ _ => True

/-! ## Lemmas: what is known stays known -/

variable {cr : Crypto} {mtime : U64 → Nat} {d : Disk} {entries : List JournalEntry} {store : DiskPresigStore}

theorem Mutated.known {id : U64} {st : DiskState} {d' : Disk} {store' : DiskPresigStore}
    (h : Mutated F G cr mtime d entries store id st d' store') (i : U64) :
    store'.known i = true ↔ i = id ∨ store.known i = true := by
  rw [known_iff, known_iff, h.live, h.consumed, h.expired]
  by_cases hi : i = id
  · simp only [hi, if_true, true_or, iff_true]
    cases st with
    | live dg => exact Or.inl rfl
    | consumed dg => exact Or.inr (Or.inl ⟨dg, rfl⟩)
    | expired => exact Or.inr (Or.inr rfl)
  · simp [hi]

theorem Passed.known {now : U64} {pm pm' : PoolManager} {d' : Disk} (h : Passed F G cr mtime now pm pm' d') {id : U64}
    (hid : pm.store.known id = true) : pm'.store.known id = true := by
  obtain ⟨store₁, haged, hrefilled⟩ := h.stores
  have hid₁ : store₁.known id = true := (haged.known h.overdue id).trans hid
  rw [known_iff] at hid₁ ⊢
  rcases hid₁ with hl | hc | he
  · exact Or.inl (hrefilled.kept id hl).1
  · exact Or.inr (Or.inl ((hrefilled.consumed id).mpr hc))
  · exact Or.inr (Or.inr (hrefilled.expired id he))

theorem Resumed.known {store' : DiskPresigStore} (h : Resumed store store') (id : U64) :
    store'.known id = store.known id := by
  unfold DiskPresigStore.known
  rw [decide_eq_decide, h.live, h.consumed, h.expired]

theorem maxSeenId_le {bound : Nat} (h : ∀ id, store.known id = true → id.val ≤ bound) : store.maxSeenId ≤ bound := by
  refine Finset.sup_le fun id hid => h id (known_iff.mpr ?_)
  rwa [Finset.mem_union, Finset.mem_union, or_assoc] at hid

theorem maxSeenId_mono {store' : DiskPresigStore} (h : ∀ id, store.known id = true → store'.known id = true) :
    store.maxSeenId ≤ store'.maxSeenId := maxSeenId_le fun id hid => le_maxSeenId (h id hid)

/-! ## Lemmas: traces -/

/-- A failed production is known by what is done about it. -/
def Traces (F G : Type) [Field F] [DecidableEq F] [AddCommGroup G] [Module F G] [DecidableEq G] [K256 F G] [WireFormat F G]
    (cr : Crypto) (onFailure : U64 → PersistError → PoolManager → FsM (Except PersistError Unit × PoolManager)) : Prop :=
  ∀ id e (pm : PoolManager) mtime d entries, Mirrors F G cr mtime d entries pm.store → entries.length + 1 < 2 ^ 64 →
    Goes (fun _ _ => True) d (onFailure id e pm) (fun out _ => out.2.store.known id = true) (fun _ _ => False)

theorem maintain_traces {onFailure : U64 → PersistError → PoolManager → FsM (Except PersistError Unit × PoolManager)}
    (honFailure : Traces F G cr onFailure) (now : U64) (nonce : Nonce) {produce : U64 → Except PersistError (Record F G)}
    (hproduce : ∀ id record, produce id = .ok record → record.val.id = id) {pm : PoolManager}
    (h : Mirrors F G cr mtime d entries pm.store) (hroom : 2 * entries.length + 1 < 2 ^ 64) :
    Goes (fun _ _ => True) d (PoolManager.maintain cr onFailure now nonce produce pm)
      (fun out _ => out.2.nextId = pm.nextId ∨ out.2.store.known pm.nextId = true) (fun _ _ => False) := by
  unfold PoolManager.maintain
  refine (expireAged_goes now h (by omega)).bind ?_
  rintro _ d₁ ⟨store₁, entries₁, counters, rfl, hm₁, hlen, -, -⟩
  simp only
  split
  · cases hr : produce pm.nextId with
    | ok record =>
      have hid := hproduce _ _ hr
      simp only
      refine Goes.bind (Goes.attempt (Q := fun r _ => (∃ store', r = .ok store' ∧ store'.known pm.nextId = true) ∨
          r = .error (presigStore "duplicate presignature id") ∧ store₁.known pm.nextId = true)
        (insertAt_goes hm₁ (by omega) nonce record.property now.isLt fun _ _ _ => trivial) ?_ ?_) ?_
      · rintro store' d' ⟨-, -, -, dg, hmut⟩
        exact Or.inl ⟨store', rfl, (hmut.known _).mpr (Or.inl hid.symm)⟩
      · rintro e d' ⟨-, hknown, rfl⟩
        exact Or.inr ⟨rfl, by rw [← hid]; exact hknown⟩
      · rintro r d' (⟨store', rfl, hknown⟩ | ⟨rfl, hknown⟩)
        · exact Goes.pure (Or.inr hknown)
        · exact Goes.pure (Or.inr hknown)
    | error e =>
      simp only
      refine (honFailure pm.nextId e { pm with store := store₁, counters := counters, nextId := pm.nextId + 1 } mtime d₁
        entries₁ hm₁ (by omega)).bind ?_
      rintro ⟨done, pm'⟩ d' hknown
      exact Goes.pure (Or.inr hknown)
  · exact Goes.pure (Or.inl rfl)

/-- **A tolerant tick** leaves a trace of the id that it hands out. -/
theorem tickTolerant_traces (now : U64) (nonce : Nonce) {produce : U64 → Except PersistError (Record F G)}
    (hproduce : ∀ id record, produce id = .ok record → record.val.id = id) {pm : PoolManager}
    (h : Mirrors F G cr mtime d entries pm.store) (hroom : 2 * entries.length + 1 < 2 ^ 64) :
    Goes (fun _ _ => True) d (pm.tickTolerant cr now nonce produce)
      (fun out _ => out.2.nextId = pm.nextId ∨ out.2.store.known pm.nextId = true) (fun _ _ => False) := by
  refine maintain_traces (fun id e pm mtime d entries hm hroom => ?_) now nonce hproduce h hroom
  refine Goes.bind (Goes.attempt (Q := fun r _ => ∃ done store', r = .ok (done, store') ∧ store'.known id = true)
    (burn_goes hm hroom id fun _ _ _ => trivial) (fun out d' ho => ?_) fun _ _ he => he.elim) ?_
  · rcases ho with ⟨hknown, rfl, -⟩ | ⟨-, -, hmut⟩
    · exact ⟨false, pm.store, rfl, hknown⟩
    · exact ⟨out.1, out.2, rfl, (hmut.known id).mpr (Or.inl rfl)⟩
  · rintro _ d' ⟨done, store', rfl, hknown⟩
    exact Goes.pure hknown

/-! ## Lemmas: the call of `produce` -/

/-- **A pass** calls `produce` once at most, with the id asked. -/
theorem maintain_eq (onFailure : U64 → PersistError → PoolManager → FsM (Except PersistError Unit × PoolManager))
    (now : U64) (nonce : Nonce) (produce : U64 → Except PersistError (Record F G)) (pm : PoolManager) :
    pm.maintain cr onFailure now nonce produce = (do
      match ← pm.ask cr now with
      | (.error e, pm) => return (.error e, pm)
      | (.ok none, pm) => return (.ok pm.stats, pm)
      | (.ok (some id), pm) => pm.supply cr onFailure now nonce id (produce id)) := by
  unfold PoolManager.maintain PoolManager.ask
  rw [bind_assoc]
  congr 1
  funext out
  obtain ⟨e | u, pm⟩ := out
  · rfl
  · simp only
    split
    · rw [pure_bind]
      show _ = PoolManager.supply cr onFailure now nonce pm.nextId (produce pm.nextId) { pm with nextId := pm.nextId + 1 }
      cases produce pm.nextId <;> rfl
    · rfl

theorem maintain_congr {onFailure : U64 → PersistError → PoolManager → FsM (Except PersistError Unit × PoolManager)}
    {now : U64} {nonce : Nonce} {produce produce' : U64 → Except PersistError (Record F G)} {pm : PoolManager}
    (h : ∀ id, (completed (pm.ask cr now) d).bind (fun out => out.1.1.toOption.join) = some id → produce id = produce' id) :
    completed (pm.maintain cr onFailure now nonce produce) d = completed (pm.maintain cr onFailure now nonce produce') d := by
  rw [maintain_eq, maintain_eq]
  unfold completed at h ⊢
  rw [Hoare.bind_run, Hoare.bind_run]
  rcases hask : pm.ask cr now ⟨d, []⟩ with ⟨e | ⟨e | asked, pm'⟩, trace⟩
  · rfl
  · rfl
  · rw [hask] at h
    cases asked with
    | none => rfl
    | some id =>
      simp only
      rw [h id rfl]

/-- An act depends on `produce` at the id asked, and nowhere else. -/
theorem Pool.act_congr {s : Pool} {a : PoolAct F G} {produce : U64 → Except PersistError (Record F G)}
    (h : ∀ id, a.asked cr s = some id → a.produces id = produce id) : s.act cr a = s.act cr (a.withProduce produce) := by
  cases a with
  | tick now nonce own => exact congrArg (Option.map fun out => (⟨out.2, out.1.2⟩ : Pool)) (maintain_congr h)
  | tickTolerant now nonce own => exact congrArg (Option.map fun out => (⟨out.2, out.1.2⟩ : Pool)) (maintain_congr h)
  | consume id => rfl
  | restart args cfg => rfl

/-- The id asked is the next one, of a pool that is short. -/
theorem ask_eq {pm : PoolManager} (now : U64) (h : Mirrors F G cr mtime d entries pm.store)
    (hroom : 2 * entries.length < 2 ^ 64) :
    (completed (pm.ask cr now) d).bind (fun out => out.1.1.toOption.join) = if pm.short now then some pm.nextId else none := by
  have hgoes : Goes (fun _ _ => True) d (pm.ask cr now)
      (fun out _ => out.1.toOption.join = if pm.short now then some pm.nextId else none) (fun _ _ => False) := by
    unfold PoolManager.ask
    refine (expireAged_goes now h hroom).bind ?_
    rintro _ d₁ ⟨store₁, entries₁, counters, rfl, -, -, haged, -⟩
    simp only
    by_cases hshort : store₁.live.card < pm.cfg.target
    · rw [if_pos hshort, if_pos (haged.short_iff.mpr hshort)]
      exact Goes.pure rfl
    · rw [if_neg hshort, if_neg fun h => hshort (haged.short_iff.mp h)]
      exact Goes.pure rfl
  obtain ⟨out, d', hrun, hout⟩ := hgoes.completes fun _ _ h => h
  rw [hrun]
  exact hout

/-! ## Lemmas: one act -/

/-- What an act does to the counter, to what was handed out, and to what is known. -/
structure Acted (s s' : LoggedPool) (a : PoolAct F G) : Prop where
  known : ∀ id, s.pool.manager.store.known id = true → s'.pool.manager.store.known id = true
  moved : s'.pool.manager.nextId = s.pool.manager.nextId ∧ s'.asked = s.asked ∨
    s'.pool.manager.nextId = s.pool.manager.nextId + 1 ∧ s'.asked = s.asked ++ [s.pool.manager.nextId] ∧
      (a.Tolerant → s'.pool.manager.store.known s.pool.manager.nextId = true) ∨
    (∃ args cfg, a = .restart args cfg) ∧ s'.asked = s.asked ∧
      s'.pool.manager.nextId = Fin.ofNat _ (s.pool.manager.store.maxSeenId + 1) ∧
      s'.pool.manager.store.maxSeenId = s.pool.manager.store.maxSeenId

theorem succ_ne (id : U64) : id + 1 ≠ id := by
  intro h
  have hval := congrArg Fin.val h
  rw [Fin.val_add] at hval
  have : (1 : U64).val = 1 := rfl
  omega

/-- The two kinds of tick. -/
theorem Acted.ofTick {s : LoggedPool} {pm' : PoolManager} {d' : Disk} {now : U64} {a : PoolAct F G}
    (hpassed : Passed F G cr mtime now s.pool.manager pm' d')
    (hasked : a.asked cr s.pool = if s.pool.manager.short now then some s.pool.manager.nextId else none)
    (htraces : a.Tolerant → pm'.nextId = s.pool.manager.nextId ∨ pm'.store.known s.pool.manager.nextId = true) :
    Acted s ⟨⟨d', pm'⟩, s.asked ++ (a.asked cr s.pool).toList⟩ a := by
  refine ⟨fun id hid => hpassed.known hid, ?_⟩
  have hnext := hpassed.nextId
  rw [hasked]
  by_cases hshort : s.pool.manager.short now
  · rw [if_pos hshort] at hnext ⊢
    right
    left
    have hne : pm'.nextId ≠ s.pool.manager.nextId := by
      rw [hnext]
      exact succ_ne _
    exact ⟨hnext, rfl, fun htolerant => (htraces htolerant).resolve_left hne⟩
  · rw [if_neg hshort] at hnext ⊢
    left
    exact ⟨hnext, List.append_nil _⟩

theorem LoggedPool.acted {s s' : LoggedPool} {a : PoolAct F G} (h : s.pool.Holds F G cr) (hd : s.pool.disk.Bounded)
    (hact : s.act cr a = some s') : Acted s s' a := by
  obtain ⟨mtime, entries, hm⟩ := h
  have hroom := hm.room hd
  obtain ⟨pool, hpool, rfl⟩ := Option.map_eq_some_iff.mp hact
  rcases Pool.act_cases hm hd hpool with ⟨now, ⟨nonce, produce, rfl⟩ | ⟨nonce, produce, rfl⟩, hpassed⟩ |
    ⟨id, rfl, hmanager, hor⟩ | ⟨args, cfg, rfl, -, hresumed, hpm, -⟩
  · obtain ⟨⟨⟨r, pm'⟩, d'⟩, hrun, rfl⟩ := Option.map_eq_some_iff.mp hpool
    exact Acted.ofTick hpassed (ask_eq now hm (by omega)) fun h => h.elim
  · obtain ⟨⟨⟨r, pm'⟩, d'⟩, hrun, rfl⟩ := Option.map_eq_some_iff.mp hpool
    exact Acted.ofTick hpassed (ask_eq now hm (by omega)) fun hproduce =>
      (tickTolerant_traces now nonce hproduce hm (by omega)).of_completed hrun
  · refine ⟨fun i hi => ?_, Or.inl ⟨by rw [hmanager], List.append_nil _⟩⟩
    rcases hor with ⟨hstore, -⟩ | ⟨-, dg, hmut⟩
    · show pool.manager.store.known i = true
      rw [hstore]
      exact hi
    · exact (hmut.known i).mpr (Or.inr hi)
  · have hknown := hresumed.known
    have hseen : pool.manager.store.maxSeenId = s.pool.manager.store.maxSeenId :=
      le_antisymm (maxSeenId_mono fun i hi => (hknown i).symm.trans hi) (maxSeenId_mono fun i hi => (hknown i).trans hi)
    refine ⟨fun i hi => (hknown i).trans hi, Or.inr (Or.inr ⟨⟨args, cfg, rfl⟩, List.append_nil _, ?_, hseen⟩)⟩
    show pool.manager.nextId = _
    rw [hpm, ← hseen]

/-! ## Lemmas: runs -/

/-- The ids handed out so far increase, and the counter is above them. -/
structure LoggedPool.Ordered (F G : Type) [Field F] [DecidableEq F] [AddCommGroup G] [Module F G] [DecidableEq G] [K256 F G]
    [WireFormat F G] (cr : Crypto) (s : LoggedPool) : Prop where
  holds : s.pool.Holds F G cr
  increase : s.asked.Pairwise (· < ·)
  below : ∀ id ∈ s.asked, id.val < s.pool.manager.nextId.val

theorem LoggedPool.Ordered.act {s s' : LoggedPool} {a : PoolAct F G} (h : s.Ordered F G cr) (hroomy : s.Roomy)
    (htraced : (∃ args cfg, a = .restart args cfg) → s.Traced) (hact : s.act cr a = some s') : s'.Ordered F G cr := by
  have hacted := LoggedPool.acted h.holds hroomy.disk hact
  have hholds : s'.pool.Holds F G cr := by
    obtain ⟨pool, hpool, rfl⟩ := Option.map_eq_some_iff.mp hact
    exact Pool.holds_act h.holds hroomy.disk hpool
  rcases hacted.moved with ⟨hnext, hasked⟩ | ⟨hnext, hasked, -⟩ | ⟨hrestart, hasked, hnext, hseen⟩
  · refine ⟨hholds, by rw [hasked]; exact h.increase, fun id hid => ?_⟩
    rw [hnext]
    exact h.below id (hasked ▸ hid)
  · have hval : s'.pool.manager.nextId.val = s.pool.manager.nextId.val + 1 := by
      rw [hnext, Fin.val_add]
      have := hroomy.nextId
      have hone : (1 : U64).val = 1 := rfl
      omega
    refine ⟨hholds, ?_, fun id hid => ?_⟩
    · rw [hasked]
      refine List.pairwise_append.mpr ⟨h.increase, List.pairwise_singleton _ _, fun id hid id' hid' => ?_⟩
      obtain rfl := List.mem_singleton.mp hid'
      exact Fin.lt_def.mpr (h.below id hid)
    · rw [hasked] at hid
      rw [hval]
      rcases List.mem_append.mp hid with hid | hid
      · have := h.below id hid
        omega
      · rw [List.mem_singleton.mp hid]
        omega
  · have hval : s'.pool.manager.nextId.val = s.pool.manager.store.maxSeenId + 1 := by
      rw [hnext, Fin.val_ofNat]
      exact Nat.mod_eq_of_lt hroomy.seen
    refine ⟨hholds, by rw [hasked]; exact h.increase, fun id hid => ?_⟩
    rw [hval]
    exact lt_of_lt_of_le (h.below id (hasked ▸ hid)) (htraced hrestart)

theorem LoggedPool.Traced.act {s s' : LoggedPool} {a : PoolAct F G} (h : s.Traced) (hholds : s.pool.Holds F G cr)
    (hroomy : s.Roomy) (htolerant : a.Tolerant) (hact : s.act cr a = some s') : s'.Traced := by
  have hacted := LoggedPool.acted hholds hroomy.disk hact
  have hmono := maxSeenId_mono hacted.known
  have hone : (1 : U64).val = 1 := rfl
  unfold LoggedPool.Traced at h ⊢
  rcases hacted.moved with ⟨hnext, -⟩ | ⟨hnext, -, hknown⟩ | ⟨-, -, hnext, hseen⟩
  · rw [hnext]
    omega
  · have hle := le_maxSeenId (hknown htolerant)
    rw [hnext, Fin.val_add]
    omega
  · rw [hnext, hseen, Fin.val_ofNat]
    exact Nat.mod_le _ _

/-! ## Theorem -/

/-- **No production twice**: an act depends on `produce` at the id asked alone; the ids asked
increase, over all the lives of a node, if no restart comes before the last id has left a trace;
so they do with the tolerant tick. -/
theorem ids_increase {args : OpenArgs} {cfg : PoolConfig} {s₀ : Pool} (hd : d.Bounded)
    (hflag : args.allowUnverified = false ∨ d.Reconciles cr) (hstart : startPool F G cr args cfg d = some s₀) :
    (∀ (s : Pool) (a : PoolAct F G) (produce : U64 → Except PersistError (Record F G)),
      (∀ id, a.asked cr s = some id → a.produces id = produce id) → s.act cr a = s.act cr (a.withProduce produce)) ∧
    (∀ (acts : List (PoolAct F G)) s,
      Run (LoggedPool.act cr) (fun s a => s.Roomy ∧ ((∃ args cfg, a = .restart args cfg) → s.Traced)) ⟨s₀, []⟩ acts s →
      s.asked.Pairwise (· < ·)) ∧
    ∀ (acts : List (PoolAct F G)) s, Run (LoggedPool.act cr) (fun s a => s.Roomy ∧ a.Tolerant) ⟨s₀, []⟩ acts s →
      s.asked.Pairwise (· < ·) := by
  have hordered : LoggedPool.Ordered F G cr ⟨s₀, []⟩ :=
    ⟨startPool_holds hd hflag hstart, List.Pairwise.nil, fun _ h => absurd h List.not_mem_nil⟩
  refine ⟨fun s a produce h => Pool.act_congr h, fun acts s hrun => ?_, fun acts s hrun => ?_⟩
  · have hinv : s.Ordered F G cr := hrun.invariant (I := fun s => s.Ordered F G cr)
      (fun _ _ _ h hok hact => h.act hok.1 hok.2 hact) hordered
    exact hinv.increase
  · have htraced : LoggedPool.Traced ⟨s₀, []⟩ := by
      obtain ⟨session, -, -, hpm⟩ := startPool_session hstart
      unfold LoggedPool.Traced
      simp only [hpm, Fin.val_ofNat]
      exact Nat.mod_le _ _
    have hinv : s.Ordered F G cr ∧ s.Traced := hrun.invariant (I := fun s => s.Ordered F G cr ∧ s.Traced)
      (fun _ _ _ h hok hact => ⟨h.1.act hok.1 (fun _ => h.2) hact, h.2.act h.1.holds hok.1 hok.2 hact⟩) ⟨hordered, htraced⟩
    exact hinv.1.increase

end Pool

section Fresh

open Secp256k1

def failedProduce (_ : U64) : Except PersistError (Record Scalar Point) := .error (.protocol (.zeroValue ""))

instance (s : LoggedPool) : Decidable s.Roomy :=
  decidable_of_iff (s.pool.disk.Bounded ∧ s.pool.manager.nextId.val + 1 < 2 ^ 64 ∧
      s.pool.manager.store.maxSeenId + 1 < 2 ^ 64)
    ⟨fun h => ⟨h.1, h.2.1, h.2.2⟩, fun h => ⟨h.disk, h.nextId, h.seen⟩⟩

/-- A record made and used, a production that fails, a restart, and another record. -/
def tolerantActs : List (PoolAct Scalar Point) :=
  [.tickTolerant 5 zeroNonce produceOf, .consume 1, .tickTolerant 6 zeroNonce failedProduce, restartFresh,
    .tickTolerant 7 zeroNonce produceOf]

theorem tolerantActs_tolerant : ∀ a ∈ tolerantActs, a.Tolerant := by
  have hown : ∀ id record, produceOf id = .ok record → record.val.id = id := by
    rintro id record ⟨⟩
    rfl
  intro a ha
  simp only [tolerantActs, List.mem_cons, List.not_mem_nil, or_false] at ha
  rcases ha with rfl | rfl | rfl | rfl | rfl
  · exact hown
  · exact trivial
  · exact fun _ _ h => (by cases h)
  · exact trivial
  · exact hown

theorem ids_increase_restarted : ∃ s : LoggedPool,
    Run (LoggedPool.act plainCrypto) (fun s a => s.Roomy ∧ a.Tolerant) ⟨freshPool, []⟩ tolerantActs s ∧
      s.asked = [1, 2, 3] ∧ s.asked.Pairwise (· < ·) := by
  have hfacts : (tolerantActs.foldlM (guarded (LoggedPool.act plainCrypto) fun s _ => s.Roomy) ⟨freshPool, []⟩).map
      LoggedPool.asked = some [1, 2, 3] := by decide +kernel
  obtain ⟨s, hfold, hasked⟩ := Option.map_eq_some_iff.mp hfacts
  have hrun := ((Run.iff_foldlM _ _ _).mpr hfold).among tolerantActs_tolerant
  exact ⟨s, hrun, hasked, (ids_increase freshDisk_bounded (Or.inl rfl) freshPool_started).2.2 _ _ hrun⟩

/-- A plain tick that fails leaves no trace: restarted, the manager hands out the same id. -/
example : ([.tick 0 zeroNonce failedProduce, restartFresh, .tick 0 zeroNonce failedProduce].foldlM
    (LoggedPool.act plainCrypto) ⟨freshPool, []⟩).map LoggedPool.asked = some [1, 1] := by decide +kernel

end Fresh

end OhmEcdsa
