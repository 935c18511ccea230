/-
  Checks through the decision cache (`authz/application/pdp-service.ts`,
  `authz/infrastructure/cache/redis-decision-cache.ts`).

  `check` reads the current revision, looks the request up under it, and otherwise evaluates the
  request in a transaction of its own and stores the result under the revision of that transaction.
  `batchCheck` does so for several requests with one revision and one transaction.  Writers of the
  store commit in between.

  A transaction is a snapshot: the program gets the database state and evaluates on it.  The cache
  may be down, and may lose entries at any time.  The log of a decision is left out.

  The two results need that different requests have different keys, which the format of the keys
  does not give (`KeysApart`).  An entry then holds the effect that its request has at its revision
  (`CacheOk`), and a check returns what an uncached one would at some moment of the check
  (`cached_check_transparent`).  A batch does so at one revision when no write comes between its
  revision and its transaction, or nothing was cached (`batch_one_revision`).
-/
import AccessCore.Lib.Interleave
import AccessCore.Authz.Conditions
import AccessCore.Authz.Isolation
import AccessCore.Authz.Semantics
import AccessCore.Authz.Writers

namespace AccessCore

open Interleave

variable {dateParse : String → Option Int}

/-! ## Keys -/

/-- The arguments of `check`; a `BatchCheckRequest`. -/
structure CheckRequest where
  principal : Principal
  action : Action
  resource : EntityRef
  context : RequestContext

structure DecisionCacheKey where
  orgId : OrgId
  subject : String
  action : String
  resource : String
  revision : Revision
deriving DecidableEq

/-- `cacheKeyFor`, for a principal with an organization. -/
def cacheKeyFor (orgId : OrgId) (request : CheckRequest) (revision : Revision) :
    Option DecisionCacheKey :=
  match request.context.consistency with
  | .full => some ⟨orgId, formatEntityRef request.principal.subject, request.action.name,
      formatEntityRef request.resource, revision⟩
  | .atLeast _ => none

/-- The text that a key is told by, within an organization and a revision. -/
def DecisionCacheKey.text (key : DecisionCacheKey) : String :=
  key.subject ++ "\x1f" ++ key.action ++ "\x1f" ++ key.resource

/-- `redisKey`; `sha256` is the digest as base64url. -/
def redisKey (sha256 : String → String) (keyPrefix : String) (key : DecisionCacheKey) : String :=
  keyPrefix ++ ":" ++ key.orgId.value ++ ":" ++ toString key.revision.value ++ ":" ++
    sha256 key.text

structure CachedValue where
  e : Effect
  r : List Reason
  v : Nat

/-! ## The store and the cache -/

/-- The store, all its states so far with the latest first, the cache, and the clock. -/
structure PdpStore (dateParse : String → Option Int) where
  db : Database dateParse
  history : List (Database dateParse)
  cache : OrderedMap String CachedValue
  cacheUp : Bool
  clock : Int

namespace PdpStore

def opened (db : Database dateParse) : PdpStore dateParse := ⟨db, [db], [], true, 0⟩

variable (sha256 : String → String) (keyPrefix : String) (store : PdpStore dateParse)

/-- `RedisDecisionCache.get`. -/
def cacheGet (key : DecisionCacheKey) : Option Decision :=
  if store.cacheUp then
    match OrderedMap.get? store.cache (redisKey sha256 keyPrefix key) with
    | none => none
    | some value => if value.v ≠ key.revision.value then none else some ⟨value.e, value.r⟩
  else none

/-- `RedisDecisionCache.set`. -/
def cacheSet (key : DecisionCacheKey) (decision : Decision) : PdpStore dateParse :=
  if store.cacheUp then
    { store with
      cache := OrderedMap.set store.cache (redisKey sha256 keyPrefix key)
        ⟨decision.effect, decision.reasons, key.revision.value⟩ }
  else store

end PdpStore

/-- What a check asks for: the current revision, an entry of the cache, the snapshot of a
    transaction, the clock, and to store an entry. -/
inductive PdpOp where
  | currentRevision
  | cacheGet (key : DecisionCacheKey)
  | transaction
  | now
  | cacheSet (key : DecisionCacheKey) (decision : Decision)
deriving DecidableEq

def PdpAnswer (dateParse : String → Option Int) : PdpOp → Type
  | .currentRevision => Revision
  | .cacheGet _ => Option Decision
  | .transaction => Database dateParse
  | .now => Int
  | .cacheSet _ _ => Unit

abbrev PdpProc (dateParse : String → Option Int) := Proc PdpOp (PdpAnswer dateParse)

namespace PdpProc

def currentRevision : PdpProc dateParse Revision := Proc.ask PdpOp.currentRevision
def cacheGet (key : DecisionCacheKey) : PdpProc dateParse (Option Decision) :=
  Proc.ask (PdpOp.cacheGet key)
def transaction : PdpProc dateParse (Database dateParse) := Proc.ask PdpOp.transaction
def now : PdpProc dateParse Int := Proc.ask PdpOp.now
def cacheSet (key : DecisionCacheKey) (decision : Decision) : PdpProc dateParse Unit :=
  Proc.ask (PdpOp.cacheSet key decision)

end PdpProc

/-- An uncached evaluation of a request. -/
def Database.evaluates (db : Database dateParse) (request : CheckRequest) (now : Int) :
    EvaluationResult :=
  db.evaluated request.principal request.action request.resource request.context now

namespace PdpService

/-! ## `check` -/

/-- The entry of a request at the current revision, when it has a key. -/
def lookUp : Option DecisionCacheKey → PdpProc dateParse (Option Decision)
  | some key => PdpProc.cacheGet key
  | none => return none

/-- A cacheable result is stored under the revision it was evaluated at. -/
def storeResult (key : Option DecisionCacheKey) (result : EvaluationResult) :
    PdpProc dateParse Unit :=
  match key with
  | some key =>
    if result.cacheable then
      PdpProc.cacheSet { key with revision := result.revisionUsed } result.decision
    else return ()
  | none => return ()

/-- The key of a check, at the current revision. -/
def keyNow (request : CheckRequest) : PdpProc dateParse (Option DecisionCacheKey) :=
  match request.principal.orgId with
  | some orgId => do
    let revision ← PdpProc.currentRevision
    return cacheKeyFor orgId request revision
  | none => return none

def check (request : CheckRequest) : PdpProc dateParse Decision := do
  let key ← keyNow request
  match ← lookUp key with
  | some cached => return cached
  | none =>
    let db ← PdpProc.transaction
    let now ← PdpProc.now
    let result := db.evaluates request now
    storeResult key result
    return result.decision

/-! ## `batchCheck` -/

structure Slot where
  request : CheckRequest
  key : Option DecisionCacheKey
  result : Option EvaluationResult

/-- The slots that have a cached entry are answered with it. -/
def lookUpSlots : List Slot → PdpProc dateParse (List Slot)
  | [] => return []
  | slot :: slots => do
    let cached ← lookUp slot.key
    let result := match slot.key, cached with
      | some key, some decision => some (⟨decision, key.revision, true⟩ : EvaluationResult)
      | _, _ => slot.result
    let rest ← lookUpSlots slots
    return { slot with result := result } :: rest

/-- The other slots, evaluated in one context; each slot with its result. -/
def evaluateSlots {db : Database dateParse} :
    List Slot → EvaluationContext db → PdpProc dateParse (List (Slot × EvaluationResult))
  | [], _ => return []
  | slot :: slots, context =>
    match slot.result with
    | some result => do
      let rest ← evaluateSlots slots context
      return (slot, result) :: rest
    | none => do
      let now ← PdpProc.now
      let evaluated := evaluateWithin slot.request.principal slot.request.action
        slot.request.resource slot.request.context now context
      let rest ← evaluateSlots slots evaluated.2
      return (slot, evaluated.1) :: rest

/-- The results of the slots that missed are stored. -/
def storeSlots : List (Slot × EvaluationResult) → PdpProc dateParse Unit
  | [] => return ()
  | (slot, result) :: slots => do
    if slot.result.isNone then storeResult slot.key result
    storeSlots slots

def batchCheck (requests : List CheckRequest) : PdpProc dateParse (List Decision) :=
  if requests.isEmpty then return []
  else do
    let revisionNow ← PdpProc.currentRevision
    let slots : List Slot := requests.map fun request =>
      ⟨request, request.principal.orgId.bind fun orgId => cacheKeyFor orgId request revisionNow,
        none⟩
    let slots ← lookUpSlots slots
    if slots.any (·.result.isNone) then
      let db ← PdpProc.transaction
      let evaluated ← evaluateSlots slots (EvaluationContext.opened db)
      storeSlots evaluated
      return evaluated.map (·.2.decision)
    else return slots.filterMap fun slot => slot.result.map (·.decision)

end PdpService

/-! ## Runs -/

inductive PdpCommand where
  | check (request : CheckRequest)
  | batchCheck (requests : List CheckRequest)

def PdpCommand.requests : PdpCommand → List CheckRequest
  | .check request => [request]
  | .batchCheck requests => requests

/-- A writer commits, the clock moves, the cache loses an entry, or goes down or up. -/
inductive PdpEvent where
  | write (operation : AdminOperation) (skipped : Nat)
  | tick (clock : Int)
  | expire (redisKey : String)
  | cacheUp (up : Bool)

section Machine

variable (dateParse : String → Option Int) (sha256 : String → String) (keyPrefix : String)

def pdpExec (_caller : Nat) : (op : PdpOp) → PdpStore dateParse →
    PdpStore dateParse × PdpAnswer dateParse op
  | .currentRevision, store => (store, store.db.current)
  | .cacheGet key, store => (store, store.cacheGet sha256 keyPrefix key)
  | .transaction, store => (store, store.db)
  | .now, store => (store, store.clock)
  | .cacheSet key decision, store => (store.cacheSet sha256 keyPrefix key decision, ())

def pdpEvent : PdpEvent → PdpStore dateParse → PdpStore dateParse
  | .write operation skipped, store =>
    let db := operation.run ⟨store.db.current.value + 1 + skipped⟩ store.db
    { store with db := db, history := db :: store.history }
  | .tick clock, store => { store with clock := clock }
  | .expire redisKey, store => { store with cache := store.cache.filter fun e => e.1 ≠ redisKey }
  | .cacheUp up, store => { store with cacheUp := up }

def pdpMachine : Machine PdpCommand PdpEvent PdpOp (PdpAnswer dateParse) (PdpStore dateParse)
    (List Decision) where
  exec := pdpExec dateParse sha256 keyPrefix
  event := pdpEvent dateParse
  program
    | .check request => do
      let decision ← PdpService.check request
      return [decision]
    | .batchCheck requests => PdpService.batchCheck requests

abbrev PdpSystem := System PdpCommand PdpOp (PdpAnswer dateParse) (PdpStore dateParse)
  (List Decision)

/-- A run from a store whose cache is empty. -/
def pdpRun (db : Database dateParse) (moves : List (Move PdpCommand PdpEvent)) :
    PdpSystem dateParse :=
  (pdpMachine dateParse sha256 keyPrefix).run ⟨⟨PdpStore.opened db, []⟩, []⟩ moves

end Machine

abbrev PdpWorld (dateParse : String → Option Int) := World PdpOp (PdpStore dateParse)
abbrev PdpMoves := List (Move PdpCommand PdpEvent)

/-! ## What a check is compared with -/

/-- A request has an effect on a database state, at a time of one of the operations of a caller. -/
def EffectAt (w : PdpWorld dateParse) (i : Nat) (db : Database dateParse) (request : CheckRequest)
    (effect : Effect) : Prop :=
  ∃ tick ∈ w.own i, effect = (db.evaluates request tick.before.clock).decision.effect

/-- Every check returns the effect that its request has on the state some operation of it was
    performed on. -/
def Transparent (sys : PdpSystem dateParse) : Prop :=
  ∀ i call request decision, sys.calls[i]? = some call → call.command = .check request →
    call.result = some [decision] →
      ∃ event ∈ sys.world.own i, EffectAt sys.world i event.before.db request decision.effect

/-- The decisions of a batch are those of one state of the store. -/
def OneState (w : PdpWorld dateParse) (i : Nat) (requests : List CheckRequest)
    (decisions : List Decision) : Prop :=
  ∃ db ∈ w.state.history,
    List.Forall₂ (fun request decision => EffectAt w i db request decision.effect)
      requests decisions

def BatchOfOneState (sys : PdpSystem dateParse) (i : Nat) : Prop :=
  ∀ call asked decisions, sys.calls[i]? = some call → call.command = .batchCheck asked →
    call.result = some decisions → OneState sys.world i asked decisions

instance (w : PdpWorld dateParse) (i : Nat) (db : Database dateParse) (request : CheckRequest)
    (effect : Effect) : Decidable (EffectAt w i db request effect) :=
  inferInstanceAs (Decidable (∃ tick ∈ w.own i, _))

/-- The requests checked in a run. -/
def requestsOf (moves : PdpMoves) : List CheckRequest :=
  moves.flatMap fun
    | .start command => command.requests
    | _ => []

/-- The text of the keys of a request. -/
def CheckRequest.keyText (request : CheckRequest) : String :=
  formatEntityRef request.principal.subject ++ "\x1f" ++ request.action.name ++ "\x1f" ++
    formatEntityRef request.resource

/-- Whether a request is cached: it is for an organization, and asks for full consistency. -/
def CheckRequest.cached (request : CheckRequest) : Bool :=
  request.principal.orgId.isSome && request.context.consistency = .full

/-- Cached requests of an organization that share a key ask the same. -/
def KeysApart (requests : List CheckRequest) : Prop :=
  ∀ a ∈ requests, a.cached = true → ∀ b ∈ requests, b.cached = true →
    a.principal.orgId = b.principal.orgId → a.keyText = b.keyText →
      a.principal.subject = b.principal.subject ∧ a.action = b.action ∧ a.resource = b.resource

instance (requests : List CheckRequest) : Decidable (KeysApart requests) := by
  unfold KeysApart
  infer_instance

/-! ## What an entry stands for -/

section Entries

variable (sha256 : String → String) (keyPrefix : String) (requests : List CheckRequest)

def CheckRequest.query (request : CheckRequest) (orgId : OrgId) : AuthorizationQuery :=
  ⟨orgId, request.principal.subject, request.action, request.resource⟩

/-- The key of a request with full consistency. -/
def CheckRequest.key (request : CheckRequest) (orgId : OrgId) (revision : Revision) :
    DecisionCacheKey :=
  ⟨orgId, formatEntityRef request.principal.subject, request.action.name,
    formatEntityRef request.resource, revision⟩

/-- A request has an effect on a database state at any time. -/
def HasEffect (db : Database dateParse) (request : CheckRequest) (effect : Effect) : Prop :=
  ∀ now, effect = (db.evaluates request now).decision.effect

/-- A cached request, with its organization. -/
structure Keyed (request : CheckRequest) (orgId : OrgId) : Prop where
  org : request.principal.orgId = some orgId
  full : request.context.consistency = .full

theorem Keyed.cached {request : CheckRequest} {orgId : OrgId} (h : Keyed request orgId) :
    request.cached = true := by
  unfold CheckRequest.cached
  rw [h.org, h.full]
  rfl

/-- An entry is right for every request of the run that would find it. -/
def ServesAll (history : List (Database dateParse)) (entry : String × CachedValue) : Prop :=
  ∃ db ∈ history, entry.2.v = db.current.value ∧
    ∀ request ∈ requests, ∀ orgId, Keyed request orgId →
      entry.1 = redisKey sha256 keyPrefix (request.key orgId db.current) →
        HasEffect db request entry.2.e

/-- The states of the store differ in their revisions, and the latest has the largest. -/
structure HistoryOk (store : PdpStore dateParse) : Prop where
  latest : store.db ∈ store.history
  bounded : ∀ db ∈ store.history, db.current.value ≤ store.db.current.value
  distinct : ∀ db ∈ store.history, ∀ db' ∈ store.history, db.current = db'.current → db = db'

structure CacheOk (w : PdpWorld dateParse) : Prop where
  history : HistoryOk w.state
  entries : ∀ entry ∈ w.state.cache, ServesAll sha256 keyPrefix requests w.state.history entry
  seen : ∀ event ∈ w.log, event.before.db ∈ w.state.history

end Entries

/-! ### The evaluation of a request -/

section Evaluate

variable {db : Database dateParse} {request request' : CheckRequest} {orgId : OrgId}

/-- The result for a request that has a key. -/
theorem evaluates_eq (h : Keyed request orgId) (now : Int) : db.evaluates request now =
    ⟨decidePolicies (db.rebac (request.query orgId))
        (db.listByTarget orgId request.resource.type request.action.verb)
        (policyContextOf request.principal request.context now),
      db.current,
      (db.listByTarget orgId request.resource.type request.action.verb).length = 0⟩ := by
  have hload := loadClosure_sameOrg (SameOrg.refl db orgId) request.resource
    (db.requiredRelations orgId request.action request.resource) (some request.principal.subject)
    ((EvaluationContext.opened db).cachedNamespace orgId request.resource.type).2
    (EvaluationContext.opened db)
  unfold Database.evaluates Database.evaluated evaluateWithin prepare
  simp only [h.org, h.full, ConsistencyRequirement.requiredRevision, Option.any_none,
    Bool.false_eq_true, if_false, resultOf, applyBounds_unbounded,
    EvaluationContext.cachedNamespace_fst]
  unfold Database.rebac CheckRequest.query
  dsimp only
  rw [← hload]
  rfl

theorem evaluates_revisionUsed (h : Keyed request orgId) (now : Int) :
    (db.evaluates request now).revisionUsed = db.current := by
  rw [evaluates_eq h]

/-- A cacheable result is that of any request which asks the same, at any time. -/
theorem hasEffect_of_cacheable {now : Int} (h : Keyed request orgId)
    (hcacheable : (db.evaluates request now).cacheable = true) (h' : Keyed request' orgId)
    (hsubject : request.principal.subject = request'.principal.subject)
    (haction : request.action = request'.action)
    (hresource : request.resource = request'.resource) :
    HasEffect db request' (db.evaluates request now).decision.effect := by
  rw [evaluates_eq h] at hcacheable ⊢
  have hnone : db.listByTarget orgId request.resource.type request.action.verb = [] :=
    List.length_eq_zero_iff.mp (of_decide_eq_true hcacheable)
  have hquery : request.query orgId = request'.query orgId := by
    unfold CheckRequest.query
    rw [hsubject, haction, hresource]
  intro now'
  rw [evaluates_eq h', ← haction, ← hresource, hnone, decidePolicies_nil, decidePolicies_nil,
    hquery]

end Evaluate

/-! ### Keys -/

section Keys

variable {sha256 : String → String} {keyPrefix : String} {requests : List CheckRequest}
  {request request' : CheckRequest} {orgId orgId' : OrgId}

theorem cacheKeyFor_eq_some {revision : Revision} {key : DecisionCacheKey}
    (h : cacheKeyFor orgId request revision = some key) :
    request.context.consistency = .full ∧ key = request.key orgId revision := by
  unfold cacheKeyFor at h
  cases hconsistency : request.context.consistency with
  | full =>
    rw [hconsistency] at h
    exact ⟨rfl, (Option.some.inj h).symm⟩
  | atLeast token =>
    rw [hconsistency] at h
    cases h

/-- An organization id has no separator in it, so at one revision a stored key tells the
    organization and the digest. -/
theorem redisKey_inj {key key' : DecisionCacheKey} (hrevision : key.revision = key'.revision)
    (h : redisKey sha256 keyPrefix key = redisKey sha256 keyPrefix key') :
    key.orgId = key'.orgId ∧ sha256 key.text = sha256 key'.text := by
  have hchars := congrArg String.toList h
  simp only [redisKey, String.toList_append, List.append_assoc,
    List.append_cancel_left_eq] at hchars
  have hcolon : (":" : String).toList = [':'] := rfl
  simp only [hcolon, List.cons_append, List.nil_append, hrevision] at hchars
  have hsplit := congrArg (splitAtFirst ':') hchars
  rw [splitAtFirst_append key.orgId.uuid, splitAtFirst_append key'.orgId.uuid] at hsplit
  obtain ⟨horg, hrest⟩ := Prod.mk.inj (Option.some.inj hsplit)
  have hvalue : key.orgId.value = key'.orgId.value := String.toList_inj.mp horg
  constructor
  · cases horgId : key.orgId
    cases horgId' : key'.orgId
    rw [horgId, horgId'] at hvalue
    simp only at hvalue
    simp only [hvalue]
  · apply String.toList_inj.mp
    simpa using hrest

/-- Where keys are apart, an entry that is stored for one request is right for the others. -/
theorem servesAll_of_cacheable (hsha : Function.Injective sha256) (hapart : KeysApart requests)
    (hrequest : request ∈ requests) (h : Keyed request orgId) {db : Database dateParse}
    {history : List (Database dateParse)} (hdb : db ∈ history) {now : Int}
    (hcacheable : (db.evaluates request now).cacheable = true) (reasons : List Reason) :
    ServesAll sha256 keyPrefix requests history
      (redisKey sha256 keyPrefix (request.key orgId db.current),
        ⟨(db.evaluates request now).decision.effect, reasons, db.current.value⟩) := by
  refine ⟨db, hdb, rfl, fun request' hrequest' orgId' h' hkey => ?_⟩
  have hkeys : redisKey sha256 keyPrefix (request.key orgId db.current) =
      redisKey sha256 keyPrefix (request'.key orgId' db.current) := hkey
  have hrevision : (request.key orgId db.current).revision =
      (request'.key orgId' db.current).revision := rfl
  obtain ⟨horg, hdigest⟩ := redisKey_inj hrevision hkeys
  have horg' : orgId = orgId' := horg
  subst horg'
  have htext : request.keyText = request'.keyText := hsha hdigest
  obtain ⟨hsubject, haction, hresource⟩ :=
    hapart request hrequest h.cached request' hrequest' h'.cached (h.org.trans h'.org.symm) htext
  exact hasEffect_of_cacheable h hcacheable h' hsubject haction hresource

/-- A hit is right at the revision of its key. -/
theorem hasEffect_of_hit {w : PdpWorld dateParse} (hw : CacheOk sha256 keyPrefix requests w)
    (hrequest : request ∈ requests) (h : Keyed request orgId) {db : Database dateParse}
    (hdb : db ∈ w.state.history) {decision : Decision}
    (hhit : w.state.cacheGet sha256 keyPrefix (request.key orgId db.current) = some decision) :
    HasEffect db request decision.effect := by
  unfold PdpStore.cacheGet at hhit
  split_ifs at hhit
  cases hget : OrderedMap.get? w.state.cache
      (redisKey sha256 keyPrefix (request.key orgId db.current)) with
  | none =>
    rw [hget] at hhit
    cases hhit
  | some value =>
    rw [hget] at hhit
    dsimp only at hhit
    split_ifs at hhit with hv
    obtain rfl := Option.some.inj hhit
    obtain ⟨db', hdb', hvalue, hserves⟩ := hw.entries _ (OrderedMap.mem_of_get? hget)
    -- the stored revision is that of the key, so it is the same state
    have hrevision : db'.current.value = db.current.value := by
      have hkey : value.v = db.current.value := not_not.mp hv
      have hstored : value.v = db'.current.value := hvalue
      omega
    have hcurrent : db'.current = db.current := by
      cases hc : db'.current
      cases hc' : db.current
      rw [hc, hc'] at hrevision
      simp only at hrevision
      rw [hrevision]
    obtain rfl := hw.history.distinct db' hdb' db hdb hcurrent
    exact hserves request hrequest orgId h rfl

end Keys

/-! ### The step lemma -/

section Step

variable {sha256 : String → String} {keyPrefix : String} {requests : List CheckRequest}

theorem HistoryOk.opened (db : Database dateParse) : HistoryOk (PdpStore.opened db) where
  latest := List.mem_singleton_self db
  bounded db' hdb' := by
    obtain rfl := List.mem_singleton.mp hdb'
    exact le_refl _
  distinct db₁ h₁ db₂ h₂ _ := (List.mem_singleton.mp h₁).trans (List.mem_singleton.mp h₂).symm

/-- A write is refused, or leaves a state with a larger revision. -/
theorem HistoryOk.write {store : PdpStore dateParse} (h : HistoryOk store)
    (operation : AdminOperation) (skipped : Nat) :
    HistoryOk (pdpEvent dateParse (.write operation skipped) store) := by
  have hlog := operation.run_log ⟨store.db.current.value + 1 + skipped⟩ store.db
  show HistoryOk { store with
    db := operation.run ⟨store.db.current.value + 1 + skipped⟩ store.db
    history := operation.run ⟨store.db.current.value + 1 + skipped⟩ store.db :: store.history }
  generalize operation.run ⟨store.db.current.value + 1 + skipped⟩ store.db = db at hlog
  rcases hlog with rfl | ⟨hrevisions, -⟩
  · refine ⟨List.mem_cons_self .., ?_, ?_⟩
    · intro db hdb
      rcases List.mem_cons.mp hdb with rfl | hdb
      · exact le_refl _
      · exact h.bounded db hdb
    · have hsame : ∀ db ∈ store.db :: store.history, db ∈ store.history := by
        intro db hdb
        rcases List.mem_cons.mp hdb with rfl | hdb
        · exact h.latest
        · exact hdb
      exact fun db₁ h₁ db₂ h₂ => h.distinct db₁ (hsame db₁ h₁) db₂ (hsame db₂ h₂)
  · have hlater : store.db.current.value < db.current.value := by
      have hmax := Database.maxRevision_append store.db.revisions
        ⟨store.db.current.value + 1 + skipped⟩
      have hcurrent : db.current.value =
          max store.db.current.value (store.db.current.value + 1 + skipped) := by
        unfold Database.current at hmax ⊢
        rw [hrevisions]
        exact hmax
      omega
    have hnew : ∀ db' ∈ store.history, db'.current.value < db.current.value := by
      intro db' hdb'
      have hold := h.bounded db' hdb'
      omega
    refine ⟨List.mem_cons_self .., ?_, ?_⟩
    · intro db' hdb'
      rcases List.mem_cons.mp hdb' with rfl | hdb'
      · exact le_refl _
      · exact le_of_lt (hnew db' hdb')
    · intro db₁ h₁ db₂ h₂ hcurrent
      have hvalues : db₁.current.value = db₂.current.value := congrArg Revision.value hcurrent
      rcases List.mem_cons.mp h₁ with heq₁ | hold₁
      · rcases List.mem_cons.mp h₂ with heq₂ | hold₂
        · exact heq₁.trans heq₂.symm
        · have hless := hnew db₂ hold₂
          rw [heq₁] at hvalues
          omega
      · rcases List.mem_cons.mp h₂ with heq₂ | hold₂
        · have hless := hnew db₁ hold₁
          rw [heq₂] at hvalues
          omega
        · exact h.distinct db₁ hold₁ db₂ hold₂ hcurrent

theorem ServesAll.mono {history history' : List (Database dateParse)} {entry : String × CachedValue}
    (h : ServesAll sha256 keyPrefix requests history entry)
    (hsub : ∀ db ∈ history, db ∈ history') :
    ServesAll sha256 keyPrefix requests history' entry := by
  obtain ⟨db, hdb, hvalue, hserves⟩ := h
  exact ⟨db, hsub db hdb, hvalue, hserves⟩

theorem CacheOk.happen {w : PdpWorld dateParse} (h : CacheOk sha256 keyPrefix requests w)
    (e : PdpEvent) : CacheOk sha256 keyPrefix requests
      ((pdpMachine dateParse sha256 keyPrefix).happen e w) := by
  have hsame := h.history
  cases e with
  | write operation skipped =>
    have hkept : ∀ db ∈ w.state.history,
        db ∈ ((pdpMachine dateParse sha256 keyPrefix).happen
          (.write operation skipped) w).state.history := fun db hdb => List.mem_cons_of_mem _ hdb
    refine ⟨h.history.write operation skipped, ?_, ?_⟩
    · exact fun entry hentry => (h.entries entry hentry).mono hkept
    · exact fun event hevent => hkept _ (h.seen event hevent)
  | tick clock => exact ⟨⟨hsame.latest, hsame.bounded, hsame.distinct⟩, h.entries, h.seen⟩
  | expire redisKey =>
    refine ⟨⟨hsame.latest, hsame.bounded, hsame.distinct⟩, ?_, h.seen⟩
    exact fun entry hentry => h.entries entry (List.mem_of_mem_filter hentry)
  | cacheUp up => exact ⟨⟨hsame.latest, hsame.bounded, hsame.distinct⟩, h.entries, h.seen⟩

variable (sha256 keyPrefix requests) in
/-- What a caller may store. -/
def MayStore (w : PdpWorld dateParse) : PdpOp → Prop
  | .cacheSet key decision => ServesAll sha256 keyPrefix requests w.state.history
      (redisKey sha256 keyPrefix key, ⟨decision.effect, decision.reasons, key.revision.value⟩)
  | _ => True

/-- The step lemma. -/
theorem CacheOk.act {w : PdpWorld dateParse} (h : CacheOk sha256 keyPrefix requests w) (i : Nat)
    {op : PdpOp} (hop : MayStore sha256 keyPrefix requests w op) :
    CacheOk sha256 keyPrefix requests ((pdpMachine dateParse sha256 keyPrefix).act i op w) := by
  have hseen : ∀ event ∈ (⟨i, op, w.state⟩ : Event PdpOp (PdpStore dateParse)) :: w.log,
      event.before.db ∈ w.state.history := by
    intro event hevent
    rcases List.mem_cons.mp hevent with rfl | hevent
    · exact h.history.latest
    · exact h.seen event hevent
  cases op with
  | cacheSet key decision =>
    -- the store is as before, but for an entry when the cache is up
    have hstate : ∃ cache : OrderedMap String CachedValue,
        ((pdpMachine dateParse sha256 keyPrefix).act i (.cacheSet key decision) w).state =
          { w.state with cache := cache } ∧
        ∀ entry ∈ cache, ServesAll sha256 keyPrefix requests w.state.history entry := by
      show ∃ cache, w.state.cacheSet sha256 keyPrefix key decision = _ ∧ _
      unfold PdpStore.cacheSet
      split_ifs with hup
      · refine ⟨_, rfl, fun entry hentry => ?_⟩
        rcases OrderedMap.mem_set hentry with hentry | rfl
        · exact h.entries entry hentry
        · exact hop
      · exact ⟨_, rfl, h.entries⟩
    obtain ⟨cache, hstate, hentries⟩ := hstate
    have hhistory : ((pdpMachine dateParse sha256 keyPrefix).act i
        (.cacheSet key decision) w).state.history = w.state.history := by rw [hstate]
    refine ⟨?_, ?_, ?_⟩
    · rw [hstate]
      exact ⟨h.history.latest, h.history.bounded, h.history.distinct⟩
    · rw [hstate]
      exact hentries
    · rw [hhistory]
      exact hseen
  | _ => exact ⟨h.history, h.entries, hseen⟩

end Step

/-! ### The programs -/

/-- An entry was found. -/
def isHit (sha256 : String → String) (keyPrefix : String)
    (event : Event PdpOp (PdpStore dateParse)) : Bool :=
  match event.op with
  | .cacheGet key => (event.before.cacheGet sha256 keyPrefix key).isSome
  | _ => false

/-- Runs whose calls check certain requests. -/
def askingFor (requests : List CheckRequest) :
    Conduct PdpCommand PdpEvent PdpOp (PdpStore dateParse) where
  start command _ := ∀ request ∈ command.requests, request ∈ requests
  ask _ _ _ := True
  event _ _ := True

section Programs

variable {sha256 : String → String} {keyPrefix : String} {requests : List CheckRequest}
  {request : CheckRequest} {i : Nat} {w : PdpWorld dateParse} {key : Option DecisionCacheKey}
  {db : Database dateParse} {event : Event PdpOp (PdpStore dateParse)}

variable (sha256 keyPrefix requests i) in
abbrev PdpSafe {β : Type} (Post : β → PdpWorld dateParse → Prop) :
    PdpProc dateParse β → PdpWorld dateParse → Prop :=
  Safe (pdpMachine dateParse sha256 keyPrefix) (askingFor requests)
    (CacheOk sha256 keyPrefix requests) (fun _ _ => True) i Post

/-- A program that asks for one operation is safe when the rest is. -/
theorem safe_asks {β : Type} {Post : β → PdpWorld dateParse → Prop} {op : PdpOp}
    {next : PdpAnswer dateParse op → PdpProc dateParse β}
    (hop : ∀ w', CacheOk sha256 keyPrefix requests w' → w'.own i = w.own i →
      MayStore sha256 keyPrefix requests w' op)
    (hnext : ∀ w', CacheOk sha256 keyPrefix requests w' → w'.own i = w.own i →
      PdpSafe sha256 keyPrefix requests i Post
        (next ((pdpMachine dateParse sha256 keyPrefix).exec i op w'.state).2)
        ((pdpMachine dateParse sha256 keyPrefix).act i op w')) :
    PdpSafe sha256 keyPrefix requests i Post (.call op next) w :=
  fun w' hinv _ hown _ => ⟨hinv.act i (hop w' hinv hown), trivial, hnext w' hinv hown⟩

/-- The operation that a call has just performed. -/
theorem mem_own_pdpAct (op : PdpOp) (w' : PdpWorld dateParse) :
    ⟨i, op, w'.state⟩ ∈ ((pdpMachine dateParse sha256 keyPrefix).act i op w').own i := by
  rw [Machine.own_act, if_pos rfl]
  exact List.mem_cons_self ..

theorem mem_own_pdpLater {op : PdpOp} {w' : PdpWorld dateParse} (hevent : event ∈ w.own i)
    (hown : w'.own i = w.own i) :
    event ∈ ((pdpMachine dateParse sha256 keyPrefix).act i op w').own i := by
  rw [Machine.own_act, if_pos rfl, hown]
  exact List.mem_cons_of_mem _ hevent

/-- A key, if there is one, is that of a request at the revision of a state. -/
def KeyAt (db : Database dateParse) (request : CheckRequest) (key : Option DecisionCacheKey) :
    Prop :=
  ∀ k ∈ key, ∃ orgId, Keyed request orgId ∧ k = request.key orgId db.current

/-- What a lookup has found is right at the state that an operation saw. -/
def FoundAt (sha256 : String → String) (keyPrefix : String) (w : PdpWorld dateParse) (i : Nat)
    (db : Database dateParse) (request : CheckRequest) (effect : Effect) : Prop :=
  HasEffect db request effect ∧ ∃ hit ∈ w.own i, isHit sha256 keyPrefix hit = true

theorem safe_lookUp (hrequest : request ∈ requests) (hevent : event ∈ w.own i)
    (hkey : KeyAt event.before.db request key) :
    PdpSafe sha256 keyPrefix requests i (fun cached w' => ∀ decision ∈ cached,
      FoundAt sha256 keyPrefix w' i event.before.db request decision.effect)
      (PdpService.lookUp key) w := by
  cases key with
  | none => exact nofun
  | some k =>
    obtain ⟨orgId, hkeyed, rfl⟩ := hkey k rfl
    refine safe_asks (fun _ _ _ => trivial) fun w' hinv hown => ?_
    intro decision hdecision
    have hhit : w'.state.cacheGet sha256 keyPrefix (request.key orgId event.before.db.current) =
        some decision := hdecision
    have hseen : event.before.db ∈ w'.state.history := by
      apply hinv.seen
      rw [← hown] at hevent
      exact List.mem_of_mem_filter hevent
    refine ⟨hasEffect_of_hit hinv hrequest hkeyed hseen hhit, _, mem_own_pdpAct _ w', ?_⟩
    show (w'.state.cacheGet sha256 keyPrefix _).isSome = true
    rw [hhit]
    rfl

/-- A result is stored that was evaluated on the state an operation of the caller saw. -/
theorem safe_storeResult (hsha : Function.Injective sha256) (hapart : KeysApart requests)
    (hrequest : request ∈ requests) (hkey : KeyAt db request key) (hevent : event ∈ w.own i)
    (now : Int) : PdpSafe sha256 keyPrefix requests i (fun _ _ => True)
      (PdpService.storeResult key (event.before.db.evaluates request now)) w := by
  unfold PdpService.storeResult
  cases key with
  | none => trivial
  | some k =>
    obtain ⟨orgId, hkeyed, rfl⟩ := hkey k rfl
    dsimp only
    split_ifs with hcacheable
    · refine safe_asks (fun w' hinv hown => ?_) fun _ _ _ => trivial
      have hseen : event.before.db ∈ w'.state.history := by
        apply hinv.seen
        rw [← hown] at hevent
        exact List.mem_of_mem_filter hevent
      rw [evaluates_revisionUsed hkeyed]
      exact servesAll_of_cacheable hsha hapart hrequest hkeyed hseen hcacheable _
    · trivial

/-! ### `check` -/

theorem safe_keyNow : PdpSafe sha256 keyPrefix requests i (fun key w' =>
      key = none ∨ ∃ event ∈ w'.own i, KeyAt event.before.db request key)
      (PdpService.keyNow request) w := by
  unfold PdpService.keyNow
  cases horg : request.principal.orgId with
  | none => exact Or.inl rfl
  | some orgId =>
    refine safe_asks (fun _ _ _ => trivial) fun w' _ _ => ?_
    refine Or.inr ⟨_, mem_own_pdpAct _ w', fun k hk => ?_⟩
    obtain ⟨hfull, hkey⟩ := cacheKeyFor_eq_some hk
    exact ⟨orgId, ⟨horg, hfull⟩, hkey⟩

theorem safe_check (hsha : Function.Injective sha256) (hapart : KeysApart requests)
    (hrequest : request ∈ requests) :
    PdpSafe sha256 keyPrefix requests i (fun decision w' => ∃ event ∈ w'.own i,
      EffectAt w' i event.before.db request decision.effect) (PdpService.check request) w := by
  -- what follows a miss
  have hmiss : ∀ (key : Option DecisionCacheKey) (db' : Database dateParse)
      (w : PdpWorld dateParse), KeyAt db' request key →
      PdpSafe sha256 keyPrefix requests i (fun decision w' =>
        ∃ event ∈ w'.own i, EffectAt w' i event.before.db request decision.effect)
        (do
          let db ← PdpProc.transaction
          let now ← PdpProc.now
          let result := db.evaluates request now
          PdpService.storeResult key result
          return result.decision) w := by
    intro key db' w hkey
    refine safe_asks (fun _ _ _ => trivial) fun w₁ _ _ => ?_
    refine safe_asks (fun _ _ _ => trivial) fun w₂ _ hown₂ => ?_
    have hopened : ⟨i, .transaction, w₁.state⟩ ∈
        ((pdpMachine dateParse sha256 keyPrefix).act i .now w₂).own i :=
      mem_own_pdpLater (mem_own_pdpAct .transaction w₁) hown₂
    have hticked : ⟨i, .now, w₂.state⟩ ∈
        ((pdpMachine dateParse sha256 keyPrefix).act i .now w₂).own i := mem_own_pdpAct .now w₂
    have hstored : PdpSafe sha256 keyPrefix requests i _
        (PdpService.storeResult key (w₁.state.db.evaluates request w₂.state.clock))
        ((pdpMachine dateParse sha256 keyPrefix).act i .now w₂) :=
      safe_storeResult hsha hapart hrequest hkey hopened w₂.state.clock
    show PdpSafe sha256 keyPrefix requests i _
      (PdpService.storeResult key (w₁.state.db.evaluates request w₂.state.clock) >>= fun _ =>
        return (w₁.state.db.evaluates request w₂.state.clock).decision) _
    refine (safe_bind _ _ _).mpr (hstored.keeps_own.mono ?_)
    rintro - w' ⟨-, hown⟩
    exact ⟨_, hown hopened, _, hown hticked, rfl⟩
  unfold PdpService.check
  refine (safe_bind _ _ _).mpr (safe_keyNow.mono ?_)
  rintro key w' (rfl | ⟨event, hevent, hkey⟩)
  · exact hmiss none w'.state.db w' nofun
  · have hlookUp : PdpSafe sha256 keyPrefix requests i _ (PdpService.lookUp key) w' :=
      safe_lookUp hrequest hevent hkey
    refine (safe_bind _ _ _).mpr (hlookUp.keeps_own.mono ?_)
    rintro cached w' ⟨hfound, hown⟩
    cases cached with
    | none => exact hmiss key event.before.db w' hkey
    | some decision =>
      obtain ⟨hsettled, -⟩ := hfound decision rfl
      exact ⟨event, hown hevent, event, hown hevent, hsettled _⟩

/-! ### `batchCheck` -/

/-- A slot of a batch whose revision was read on a state. -/
structure SlotOk (requests : List CheckRequest) (db : Database dateParse)
    (slot : PdpService.Slot) : Prop where
  request : slot.request ∈ requests
  key : KeyAt db slot.request slot.key

/-- The result of a slot in the end: what was found, or its evaluation on a state. -/
structure SlotAnswered (i : Nat) (db : Database dateParse) (w : PdpWorld dateParse)
    (slot : PdpService.Slot) (result : EvaluationResult) : Prop where
  found : ∀ cached ∈ slot.result, result = cached
  evaluated : slot.result = none → ∃ tick ∈ w.own i,
    result = db.evaluates slot.request tick.before.clock

variable (sha256 keyPrefix) in
/-- What the lookups leave of a slot. -/
structure LookedUp (requests : List CheckRequest) (i : Nat) (db : Database dateParse)
    (w : PdpWorld dateParse) (slot : PdpService.Slot) : Prop extends SlotOk requests db slot where
  result : ∀ result ∈ slot.result,
    FoundAt sha256 keyPrefix w i db slot.request result.decision.effect

theorem safe_lookUpSlots : ∀ {slots : List PdpService.Slot} {w : PdpWorld dateParse},
    event ∈ w.own i → (∀ slot ∈ slots, slot.result = none ∧ SlotOk requests event.before.db slot) →
    PdpSafe sha256 keyPrefix requests i (fun slots' w' =>
      slots'.map (·.request) = slots.map (·.request) ∧
        ∀ slot ∈ slots', LookedUp sha256 keyPrefix requests i event.before.db w' slot)
      (PdpService.lookUpSlots slots) w
  | [], _, _, _ => ⟨rfl, fun _ h => absurd h List.not_mem_nil⟩
  | slot :: slots, w, hevent, hslots => by
    obtain ⟨⟨hnone, hslot⟩, hslots⟩ := List.forall_mem_cons.mp hslots
    have hlookUp : PdpSafe sha256 keyPrefix requests i _ (PdpService.lookUp slot.key) w :=
      safe_lookUp hslot.request hevent hslot.key
    refine (safe_bind _ _ _).mpr (hlookUp.keeps_own.mono ?_)
    rintro cached w₁ ⟨hfound, hown₁⟩
    -- the slot with what was found
    have hresult : ∀ result ∈ (match slot.key, cached with
        | some key, some decision => some (⟨decision, key.revision, true⟩ : EvaluationResult)
        | _, _ => slot.result),
        FoundAt sha256 keyPrefix w₁ i event.before.db slot.request result.decision.effect := by
      intro result hresult
      cases hkey : slot.key with
      | none =>
        rw [hkey, hnone] at hresult
        cases hresult
      | some key =>
        cases cached with
        | none =>
          rw [hkey, hnone] at hresult
          cases hresult
        | some decision =>
          rw [hkey] at hresult
          obtain rfl := Option.some.inj hresult
          exact hfound decision rfl
    dsimp only
    generalize (match slot.key, cached with
      | some key, some decision => some (⟨decision, key.revision, true⟩ : EvaluationResult)
      | _, _ => slot.result) = found at hresult
    have hrest : PdpSafe sha256 keyPrefix requests i _ (PdpService.lookUpSlots slots) w₁ :=
      safe_lookUpSlots (hown₁ hevent) hslots
    -- a hit of this slot is kept by the lookups of the others
    cases found with
    | none =>
      refine (safe_bind _ _ _).mpr (hrest.mono ?_)
      rintro slots' w₂ ⟨hrequests, hslots'⟩
      refine ⟨congrArg (slot.request :: ·) hrequests, List.forall_mem_cons.mpr ⟨?_, hslots'⟩⟩
      exact ⟨⟨hslot.request, hslot.key⟩, nofun⟩
    | some result =>
      obtain ⟨hsettled, hit, hown, hhit⟩ := hresult result rfl
      refine (safe_bind _ _ _).mpr (hrest.keeps_own.mono ?_)
      rintro slots' w₂ ⟨⟨hrequests, hslots'⟩, hown₂⟩
      refine ⟨congrArg (slot.request :: ·) hrequests, List.forall_mem_cons.mpr ⟨?_, hslots'⟩⟩
      refine ⟨⟨hslot.request, hslot.key⟩, fun result' hresult' => ?_⟩
      obtain rfl := Option.some.inj hresult'
      exact ⟨hsettled, hit, hown₂ hown, hhit⟩

/-- A context is at the revision of its state. -/
theorem safe_evaluateSlots : ∀ (slots : List PdpService.Slot) (context : EvaluationContext db)
    {w : PdpWorld dateParse}, context.revisionUsed = db.current →
    PdpSafe sha256 keyPrefix requests i (fun evaluated w' =>
      evaluated.map (·.1) = slots ∧ ∀ pair ∈ evaluated, SlotAnswered i db w' pair.1 pair.2)
      (PdpService.evaluateSlots slots context) w
  | [], _, _, _ => ⟨rfl, fun _ h => absurd h List.not_mem_nil⟩
  | slot :: slots, context, w, hrevision => by
    unfold PdpService.evaluateSlots
    cases hresult : slot.result with
    | some result =>
      refine (safe_bind _ _ _).mpr ((safe_evaluateSlots slots context hrevision).mono ?_)
      rintro evaluated w' ⟨hslots, hanswered⟩
      refine ⟨congrArg (slot :: ·) hslots, List.forall_mem_cons.mpr ⟨⟨?_, ?_⟩, hanswered⟩⟩
      · intro cached hcached
        exact Option.some.inj (hresult.symm.trans hcached)
      · intro hnone
        cases hresult.symm.trans hnone
    | none =>
      refine safe_asks (fun _ _ _ => trivial) fun w₁ _ _ => ?_
      have hticked : ⟨i, .now, w₁.state⟩ ∈
          ((pdpMachine dateParse sha256 keyPrefix).act i .now w₁).own i := mem_own_pdpAct .now w₁
      have hshared := evaluateWithin_shared slot.request.principal slot.request.action
        slot.request.resource slot.request.context w₁.state.clock context
        hrevision
      have hafter := evaluateWithin_revisionUsed slot.request.principal slot.request.action
        slot.request.resource slot.request.context w₁.state.clock context
      have hrest : PdpSafe sha256 keyPrefix requests i _ (PdpService.evaluateSlots slots _)
          ((pdpMachine dateParse sha256 keyPrefix).act i .now w₁) :=
        safe_evaluateSlots slots _ (hafter.trans hrevision)
      show PdpSafe sha256 keyPrefix requests i _ (PdpService.evaluateSlots slots _ >>= _) _
      refine (safe_bind _ _ _).mpr (hrest.keeps_own.mono ?_)
      rintro evaluated w' ⟨⟨hslots, hanswered⟩, hown⟩
      refine ⟨congrArg (slot :: ·) hslots, List.forall_mem_cons.mpr ⟨⟨?_, ?_⟩, hanswered⟩⟩
      · intro cached hcached
        cases hresult.symm.trans hcached
      · exact fun _ => ⟨_, hown hticked, hshared⟩

theorem safe_storeSlots (hsha : Function.Injective sha256) (hapart : KeysApart requests) :
    ∀ {evaluated : List (PdpService.Slot × EvaluationResult)} {w : PdpWorld dateParse},
    event ∈ w.own i → (∀ pair ∈ evaluated, SlotOk requests db pair.1 ∧ (pair.1.result = none →
      ∃ now, pair.2 = event.before.db.evaluates pair.1.request now)) →
    PdpSafe sha256 keyPrefix requests i (fun _ _ => True) (PdpService.storeSlots evaluated) w
  | [], _, _, _ => trivial
  | (slot, result) :: evaluated, w, hevent, hpairs => by
    obtain ⟨⟨hslot, hresult⟩, hpairs⟩ := List.forall_mem_cons.mp hpairs
    unfold PdpService.storeSlots
    split_ifs with hnone
    · obtain ⟨now, heq⟩ := hresult (Option.isNone_iff_eq_none.mp hnone)
      have hresult' : result = event.before.db.evaluates slot.request now := heq
      have hstored : PdpSafe sha256 keyPrefix requests i _ (PdpService.storeResult slot.key
          (event.before.db.evaluates slot.request now)) w :=
        safe_storeResult hsha hapart hslot.request hslot.key hevent now
      rw [hresult']
      refine (safe_bind _ _ _).mpr (hstored.keeps_own.mono ?_)
      rintro - w' ⟨-, hown⟩
      exact safe_storeSlots hsha hapart (hown hevent) hpairs
    · exact safe_storeSlots hsha hapart hevent hpairs

theorem forall₂_filterMap {α β γ : Type} {P : β → γ → Prop} {f : α → β} {g : α → Option γ} :
    ∀ {l : List α}, (∀ x ∈ l, ∃ c, g x = some c ∧ P (f x) c) →
      List.Forall₂ P (l.map f) (l.filterMap g)
  | [], _ => .nil
  | x :: l, h => by
    obtain ⟨⟨c, hc, hP⟩, hl⟩ := List.forall_mem_cons.mp h
    rw [List.map_cons, List.filterMap_cons_some hc]
    exact .cons hP (forall₂_filterMap hl)

variable (sha256 keyPrefix) in
/-- What a batch has seen: the state its revision is from and, unless every slot was found, the
    state of its transaction. -/
def BatchSeen (w : PdpWorld dateParse) (i : Nat) (asked : List CheckRequest)
    (decisions : List Decision) : Prop :=
  ∃ read ∈ w.own i, read.op = .currentRevision ∧
    (List.Forall₂ (fun request decision =>
        FoundAt sha256 keyPrefix w i read.before.db request decision.effect) asked decisions ∨
      ∃ opened ∈ w.own i, opened.op = .transaction ∧
        List.Forall₂ (fun request decision =>
          FoundAt sha256 keyPrefix w i read.before.db request decision.effect ∨
            EffectAt w i opened.before.db request decision.effect) asked decisions)

theorem safe_batchCheck (hsha : Function.Injective sha256) (hapart : KeysApart requests)
    {asked : List CheckRequest} (hasked : ∀ request ∈ asked, request ∈ requests) :
    PdpSafe sha256 keyPrefix requests i (fun decisions w' =>
      asked = [] ∧ decisions = [] ∨ BatchSeen sha256 keyPrefix w' i asked decisions)
      (PdpService.batchCheck asked) w := by
  unfold PdpService.batchCheck
  split_ifs with hempty
  · exact Or.inl ⟨List.isEmpty_iff.mp hempty, rfl⟩
  refine safe_asks (fun _ _ _ => trivial) fun w₁ _ _ => ?_
  have hread : ⟨i, .currentRevision, w₁.state⟩ ∈
      ((pdpMachine dateParse sha256 keyPrefix).act i .currentRevision w₁).own i :=
    mem_own_pdpAct .currentRevision w₁
  have hslots : ∀ slot ∈ asked.map fun request =>
      (⟨request, request.principal.orgId.bind fun orgId =>
        cacheKeyFor orgId request w₁.state.db.current, none⟩ : PdpService.Slot),
      slot.result = none ∧ SlotOk requests w₁.state.db slot := by
    intro slot hslot
    obtain ⟨request, hrequest, rfl⟩ := List.mem_map.mp hslot
    refine ⟨rfl, hasked request hrequest, fun k hk => ?_⟩
    obtain ⟨orgId, horg, hk⟩ := Option.bind_eq_some_iff.mp hk
    obtain ⟨hfull, hkey⟩ := cacheKeyFor_eq_some hk
    exact ⟨orgId, ⟨horg, hfull⟩, hkey⟩
  have hlookUp : PdpSafe sha256 keyPrefix requests i _ (PdpService.lookUpSlots _)
      ((pdpMachine dateParse sha256 keyPrefix).act i .currentRevision w₁) :=
    safe_lookUpSlots hread hslots
  have hmap : (asked.map fun request => (⟨request, request.principal.orgId.bind fun orgId =>
      cacheKeyFor orgId request w₁.state.db.current, none⟩ : PdpService.Slot)).map (·.request) =
      asked := by
    rw [List.map_map]
    exact List.map_id asked
  show PdpSafe sha256 keyPrefix requests i _ (PdpService.lookUpSlots _ >>= _) _
  refine (safe_bind _ _ _).mpr (hlookUp.keeps_own.mono ?_)
  rintro slots w₂ ⟨⟨hrequests, hslots₂⟩, hown₂⟩
  rw [hmap] at hrequests
  split_ifs with hmissed
  · refine safe_asks (fun _ _ _ => trivial) fun w₃ _ hown₃ => ?_
    have hopened : ⟨i, .transaction, w₃.state⟩ ∈
        ((pdpMachine dateParse sha256 keyPrefix).act i .transaction w₃).own i :=
      mem_own_pdpAct .transaction w₃
    have hkept : ∀ event ∈ w₂.own i, event ∈
        ((pdpMachine dateParse sha256 keyPrefix).act i .transaction w₃).own i :=
      fun event hevent => mem_own_pdpLater hevent hown₃
    have hevaluate : PdpSafe sha256 keyPrefix requests i _
        (PdpService.evaluateSlots slots (EvaluationContext.opened w₃.state.db))
        ((pdpMachine dateParse sha256 keyPrefix).act i .transaction w₃) :=
      safe_evaluateSlots slots (EvaluationContext.opened w₃.state.db) rfl
    show PdpSafe sha256 keyPrefix requests i _ (PdpService.evaluateSlots slots _ >>= _) _
    refine (safe_bind _ _ _).mpr (hevaluate.keeps_own.mono ?_)
    rintro evaluated w₄ ⟨⟨hslots₄, hanswered⟩, hown₄⟩
    have hlookedUp : ∀ pair ∈ evaluated,
        LookedUp sha256 keyPrefix requests i w₁.state.db w₂ pair.1 := by
      intro pair hpair
      apply hslots₂
      rw [← hslots₄]
      exact List.mem_map_of_mem hpair
    have hpairs : ∀ pair ∈ evaluated, SlotOk requests w₁.state.db pair.1 ∧
        (pair.1.result = none → ∃ now, pair.2 = w₃.state.db.evaluates pair.1.request now) := by
      intro pair hpair
      refine ⟨(hlookedUp pair hpair).toSlotOk, fun hnone => ?_⟩
      obtain ⟨tick, -, heq⟩ := (hanswered pair hpair).evaluated hnone
      exact ⟨_, heq⟩
    have hstore : PdpSafe sha256 keyPrefix requests i _ (PdpService.storeSlots evaluated) w₄ :=
      safe_storeSlots hsha hapart (hown₄ hopened) hpairs
    refine (safe_bind _ _ _).mpr (hstore.keeps_own.mono ?_)
    rintro - w₅ ⟨-, hown₅⟩
    have hafter : ∀ event ∈ w₂.own i, event ∈ w₅.own i :=
      fun event hevent => hown₅ (hown₄ (hkept event hevent))
    refine Or.inr ⟨_, hafter _ (hown₂ hread), rfl, Or.inr ⟨_, hown₅ (hown₄ hopened), rfl, ?_⟩⟩
    rw [← hrequests, ← hslots₄, List.map_map, List.forall₂_map_left_iff,
      List.forall₂_map_right_iff, List.forall₂_same]
    intro pair hpair
    cases hresult : pair.1.result with
    | some result =>
      obtain ⟨hsettled, hit, hown, hhit⟩ := (hlookedUp pair hpair).result result hresult
      have heq := (hanswered pair hpair).found result hresult
      exact Or.inl ⟨heq ▸ hsettled, hit, hafter hit hown, hhit⟩
    | none =>
      obtain ⟨tick, htick, heq⟩ := (hanswered pair hpair).evaluated hresult
      exact Or.inr ⟨tick, hown₅ htick, congrArg (fun r => r.decision.effect) heq⟩
  · -- every slot was found
    refine Or.inr ⟨_, hown₂ hread, rfl, Or.inl ?_⟩
    rw [← hrequests]
    refine forall₂_filterMap fun slot hslot => ?_
    cases hresult : slot.result with
    | none =>
      refine absurd (List.any_eq_true.mpr ⟨slot, hslot, ?_⟩) hmissed
      rw [hresult]
      rfl
    | some result => exact ⟨_, rfl, (hslots₂ slot hslot).result result hresult⟩

end Programs

/-! ### The runs -/

/-- The outline. -/
def pdpOutline (sha256 : String → String) (keyPrefix : String) (requests : List CheckRequest)
    (hsha : Function.Injective sha256) (hapart : KeysApart requests) :
    Outline (pdpMachine dateParse sha256 keyPrefix) (askingFor requests) where
  Inv := CacheOk sha256 keyPrefix requests
  Rely _ _ := True
  refl _ := trivial
  trans _ _ := trivial
  happen e _ h _ := ⟨h.happen e, trivial⟩
  Post
    | .check request, i, _, decisions, w => ∃ decision, decisions = [decision] ∧
      ∃ event ∈ w.own i, EffectAt w i event.before.db request decision.effect
    | .batchCheck asked, i, _, decisions, w =>
      asked = [] ∧ decisions = [] ∨ BatchSeen sha256 keyPrefix w i asked decisions
  safe command i w _ hstart _ := by
    cases command with
    | check request =>
      have hcheck : PdpSafe sha256 keyPrefix requests i _ (PdpService.check request) w :=
        safe_check hsha hapart (hstart request (List.mem_singleton_self _))
      refine (safe_bind _ _ _).mpr (hcheck.mono ?_)
      exact fun decision w' h => ⟨decision, rfl, h⟩
    | batchCheck asked => exact safe_batchCheck hsha hapart hstart

section Runs

variable {sha256 : String → String} {keyPrefix : String} {moves : PdpMoves}

theorem along_askingFor (sys : PdpSystem dateParse) :
    (pdpMachine dateParse sha256 keyPrefix).Along (askingFor (requestsOf moves)) sys moves := by
  apply Machine.along_iff.mpr
  rintro before move after rfl
  cases move with
  | start command =>
    intro request hrequest
    apply List.mem_flatMap.mpr
    exact ⟨.start command, by simp, hrequest⟩
  | run i => exact fun _ _ => trivial
  | event e => trivial

variable (keyPrefix) in
theorem good_pdpRun (hsha : Function.Injective sha256) (hapart : KeysApart (requestsOf moves))
    (db : Database dateParse) :
    (pdpOutline sha256 keyPrefix (requestsOf moves) hsha hapart).Good
      (pdpRun dateParse sha256 keyPrefix db moves) := by
  refine (Outline.Good.run (Outline.Good.init ?_ rfl) (along_askingFor _)).1
  refine ⟨HistoryOk.opened db, fun entry hentry => ?_, fun event hevent => ?_⟩
  · cases hentry
  · cases hevent

variable (sha256 keyPrefix moves) in
/-- **The cache is transparent** in every run whose requests do not share keys: a check returns the
effect of an uncached evaluation on the state one of its operations was performed on. -/
theorem cached_check_transparent (hsha : Function.Injective sha256)
    (hapart : KeysApart (requestsOf moves)) (db : Database dateParse) :
    Transparent (pdpRun dateParse sha256 keyPrefix db moves) := by
  intro i call request decision hcall hcommand hresult
  obtain ⟨-, w, -, hown, hpost⟩ := (good_pdpRun keyPrefix hsha hapart db).returned hcall hresult
  rw [hcommand] at hpost
  obtain ⟨decision', heq, event, hevent, tick, htick, heffect⟩ := hpost
  obtain rfl := List.singleton_injective heq
  rw [← hown] at hevent htick
  exact ⟨event, hevent, tick, htick, heffect⟩

/-- A batch has found no entry, or no write came between its revision and its transaction. -/
def OneRevision (sha256 : String → String) (keyPrefix : String) (w : PdpWorld dateParse)
    (i : Nat) : Prop :=
  (∀ event ∈ w.own i, isHit sha256 keyPrefix event = false) ∨
    ∀ read ∈ w.own i, ∀ opened ∈ w.own i, read.op = .currentRevision → opened.op = .transaction →
      read.before.db.current = opened.before.db.current

instance (w : PdpWorld dateParse) (i : Nat) : Decidable (OneRevision sha256 keyPrefix w i) := by
  unfold OneRevision
  infer_instance

variable (sha256 keyPrefix moves) in
/-- **A batch is of one state** when it has found no entry, or its transaction is at the revision it
looked the entries up under. -/
theorem batch_one_revision (hsha : Function.Injective sha256)
    (hapart : KeysApart (requestsOf moves)) (db : Database dateParse) (i : Nat)
    (hone : OneRevision sha256 keyPrefix (pdpRun dateParse sha256 keyPrefix db moves).world i) :
    BatchOfOneState (pdpRun dateParse sha256 keyPrefix db moves) i := by
  intro call asked decisions hcall hcommand hresult
  have hgood := good_pdpRun keyPrefix hsha hapart db
  obtain ⟨-, w, -, hown, hpost⟩ := hgood.returned hcall hresult
  rw [hcommand] at hpost
  generalize pdpRun dateParse sha256 keyPrefix db moves = sys at *
  have hinv : CacheOk sha256 keyPrefix (requestsOf moves) sys.world := hgood.inv
  rcases hpost with ⟨rfl, rfl⟩ | ⟨read, hread, hreadOp, hseen⟩
  · exact ⟨sys.world.state.db, hinv.history.latest, .nil⟩
  rw [← hown] at hread
  have hstate : ∀ event ∈ sys.world.own i, event.before.db ∈ sys.world.state.history :=
    fun event hevent => hinv.seen event (List.mem_of_mem_filter hevent)
  have hfoundAt : ∀ request effect, FoundAt sha256 keyPrefix w i read.before.db request effect →
      EffectAt sys.world i read.before.db request effect :=
    fun request effect hfound => ⟨read, hread, hfound.1 _⟩
  rcases hseen with hfound | ⟨opened, hopened, hopenedOp, heach⟩
  · exact ⟨read.before.db, hstate read hread, hfound.imp fun request _ => hfoundAt request _⟩
  rw [← hown] at hopened
  refine ⟨opened.before.db, hstate opened hopened, heach.imp fun request decision h => ?_⟩
  rcases h with hfound | heffect
  · rcases hone with hmissed | hsame
    · -- nothing was found, and so this slot was not
      obtain ⟨-, hit, hmem, hhit⟩ := hfound
      rw [← hown] at hmem
      exact absurd (hhit.symm.trans (hmissed hit hmem)) nofun
    · have hdb : read.before.db = opened.before.db :=
        hinv.history.distinct _ (hstate read hread) _ (hstate opened hopened)
          (hsame read hread opened hopened hreadOp hopenedOp)
      exact hdb ▸ hfoundAt request decision.effect hfound
  · obtain ⟨tick, htick, heq⟩ := heffect
    rw [← hown] at htick
    exact ⟨tick, htick, heq⟩

end Runs

/-! ### One key, two resources -/

/-- Everyone of the organization may view every resource of a type. -/
def openType (id type : String) : Policy noDates where
  id := id
  orgId := acme
  effect := .permit
  resourceType := type
  action := "view"
  condition := .cmp .ge (.attr .principalAal) (.lit (.number 1))
  revision := ⟨1⟩
  accepted := by rfl

def openStore (type : String) : Database noDates :=
  { (Database.empty : Database noDates) with
    revisions := [⟨1⟩], policies := ⟨[openType "open" type], by simp⟩ }

theorem view_isIdentifier : isIdentifier "view" = true := by decide

def viewing (resource : EntityRef) : CheckRequest :=
  ⟨⟨⟨"user", "ann"⟩, some acme, 1, none⟩, ⟨"doc", "view", by decide, view_isIdentifier⟩, resource,
    ⟨"10.0.0.7", .full⟩⟩

def openDocs : AdminOperation :=
  .writePolicy ⟨acme, "docs", .permit, "doc", "view",
    .cmp .ge (.attr .principalAal) (.lit (.number 1))⟩

/-- A document is checked, and denied, twice, and after documents are opened once more.  The second
    check is answered with the entry of the first, and the third one is not.  A folder is checked
    in between. -/
def checksAroundWrite : PdpMoves :=
  .start (.check (viewing ⟨"doc", "a"⟩)) :: List.replicate 5 (.run 0) ++
    .start (.check (viewing ⟨"folder", "a"⟩)) :: List.replicate 5 (.run 1) ++
    .start (.check (viewing ⟨"doc", "a"⟩)) :: List.replicate 2 (.run 2) ++
    .event (.write openDocs 0) :: .start (.check (viewing ⟨"doc", "a"⟩)) ::
      List.replicate 5 (.run 3)

theorem cached_check_transparent_checksAroundWrite :
    Transparent (pdpRun noDates id "pdp" (openStore "folder") checksAroundWrite) :=
  cached_check_transparent id "pdp" checksAroundWrite Function.injective_id (by decide)
    (openStore "folder")

/-- A check of a resource whose type has a `:` in it, and then of the one with the same text. -/
def checkAlike : PdpMoves :=
  .start (.check (viewing ⟨"doc:a", "b"⟩)) :: List.replicate 5 (.run 0) ++
    .start (.check (viewing ⟨"doc", "a:b"⟩)) :: List.replicate 2 (.run 1)

/-- The second check is answered with the entry of the first. -/
theorem cached_check_mistaken :
    ¬ Transparent (pdpRun noDates id "pdp" (openStore "doc") checkAlike) := by
  intro h
  obtain ⟨event, hevent, heffect⟩ := h 1 _ (viewing ⟨"doc", "a:b"⟩) _ rfl rfl rfl
  have hnever : ∀ event ∈ (pdpRun noDates id "pdp" (openStore "doc") checkAlike).world.own 1,
      ¬ EffectAt (pdpRun noDates id "pdp" (openStore "doc") checkAlike).world 1 event.before.db
        (viewing ⟨"doc", "a:b"⟩) .deny := by decide +kernel
  exact hnever event hevent heffect

/-! ### A batch of two states -/

/-- A batch at one revision. -/
def batchQuiet : PdpMoves :=
  .start (.check (viewing ⟨"doc", "a"⟩)) :: List.replicate 5 (.run 0) ++
    .start (.batchCheck [viewing ⟨"doc", "a"⟩, viewing ⟨"folder", "b"⟩]) ::
      List.replicate 5 (.run 1)

theorem batch_one_revision_batchQuiet :
    BatchOfOneState (pdpRun noDates id "pdp" (openStore "folder") batchQuiet) 1 :=
  batch_one_revision id "pdp" batchQuiet Function.injective_id (by decide) (openStore "folder") 1
    (by decide +kernel)

/-- Between the lookups of a batch and its transaction, documents are opened and then folders
    closed. -/
def batchTorn : PdpMoves :=
  .start (.check (viewing ⟨"doc", "a"⟩)) :: List.replicate 5 (.run 0) ++
    .start (.batchCheck [viewing ⟨"doc", "a"⟩, viewing ⟨"folder", "b"⟩]) ::
      List.replicate 3 (.run 1) ++
    .event (.write openDocs 0) :: .event (.write (.deletePolicy acme "open") 0) ::
      List.replicate 3 (.run 1)

/-- The batch denies both, and no state does. -/
theorem batch_of_two_states :
    ¬ BatchOfOneState (pdpRun noDates id "pdp" (openStore "folder") batchTorn) 1 := by
  intro h
  obtain ⟨db, hdb, heffects⟩ := h _ [viewing ⟨"doc", "a"⟩, viewing ⟨"folder", "b"⟩] _ rfl rfl rfl
  have hnever : ∀ db ∈ (pdpRun noDates id "pdp" (openStore "folder") batchTorn).world.state.history,
      ¬ (EffectAt (pdpRun noDates id "pdp" (openStore "folder") batchTorn).world 1 db
          (viewing ⟨"doc", "a"⟩) .deny ∧
        EffectAt (pdpRun noDates id "pdp" (openStore "folder") batchTorn).world 1 db
          (viewing ⟨"folder", "b"⟩) .deny) := by decide +kernel
  obtain ⟨hdoc, hrest⟩ := List.forall₂_cons.mp heffects
  exact hnever db hdb ⟨hdoc, (List.forall₂_cons.mp hrest).1⟩

end AccessCore
