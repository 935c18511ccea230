/-
  Parallel refreshes with one token.

  One call wins the rotation, and then stores the pair it returns in the grace cache.  A call that
  loses it looks six times for that entry.  A call that reads the token after the winner's commit
  looks only once, and takes the missing entry for a reuse: between the commit and the store, a
  benign parallel refresh revokes the family (`late_refresh_revokes`).

  When every call's last look finds the entry, every call returns a pair, and all pairs hold the
  winner's token (`parallel_refresh_benign`).  The invariant that carries it: what comes after the
  presented token in its family is active, every entry of the cache was put by the call that won,
  and that call puts once.
-/
import AccessCore.Authn.RefreshSafety

namespace AccessCore

open Interleave

/-! ## The setting -/

/-- A refresh token with its family and its session. -/
structure Presentation where
  token : RefreshToken
  family : TokenFamily
  session : Session

def AuthnOp.isGraceGet : AuthnOp → Bool
  | .graceGet _ => true
  | _ => false

def AuthnOp.isRotate : AuthnOp → Bool
  | .rotate _ _ _ => true
  | _ => false

/-- How often a call has looked into the grace cache. -/
def looks (i : Nat) (w : AuthnWorld) : Nat := (w.own i).countP (·.op.isGraceGet)

/-- Whether a call has tried to rotate. -/
def hasTried (i : Nat) (w : AuthnWorld) : Bool := (w.own i).any (·.op.isRotate)

/-- A store that a run from before the first login has led to. -/
def AuthnStore.Reached (settings : AuthnSettings) (store : AuthnStore) : Prop :=
  ∃ first moves, AuthnStore.NoSessions first ∧ store = (authnRun settings first moves).world.state

namespace Presentation

variable (settings : AuthnSettings) (P : Presentation)

/-- Neither the token nor the session has expired. -/
def Unexpired (nowMs : Int) : Prop := nowMs < P.token.expiresAt ∧ nowMs < P.session.expiresAt

/-- The entry of the presented token is within its grace window. -/
def WithinGrace (store : AuthnStore) (nowMs : Int) : Prop :=
  ∀ entry ∈ store.graceCache.get P.token.tokenHash, nowMs < entry.expiresMs

/-- Before the first call: the token is the active one of an active family. -/
structure Ready (store : AuthnStore) : Prop where
  reached : store.Reached settings
  token : store.refreshTokens.get P.token.id = some P.token
  tokenActive : P.token.status = .active
  family : store.tokenFamilies.get P.token.familyId = some P.family
  familyActive : P.family.status = .active
  session : store.sessions.get P.family.sessionId = some P.session
  sessionActive : P.session.status = .active
  redis : store.redisUp = true
  unexpired : P.Unexpired store.nowMs

/-- An operation that is not on the family of the token, nor on its session. -/
def Elsewhere (store : AuthnStore) : AuthnOp → Prop
  | .createLogin _ _ token => token.familyId ≠ P.token.familyId
  | .touch id _ => id ≠ P.family.sessionId
  | .elevate id _ _ => id ≠ P.family.sessionId
  | .revokeSession id _ => id ≠ P.family.sessionId
  | .terminateSession id _ _ found => id ≠ P.family.sessionId ∧ P.token.familyId ∉ found
  | .terminateAll _ _ families sessions =>
    P.token.familyId ∉ families ∧ P.family.sessionId ∉ sessions
  | .revokeForReuse id _ _ found => id ≠ P.token.familyId ∧
    ∀ row ∈ store.refreshTokens.rows, row.familyId = P.token.familyId → row.id ∉ found
  | .rotate id successor _ => successor.familyId ≠ P.token.familyId ∧
    ∀ row ∈ store.refreshTokens.get id, row.familyId ≠ P.token.familyId
  | .gracePut hash _ _ => hash ≠ P.token.tokenHash
  | _ => True

/-- A call that has asked for the token. -/
def Presents (i : Nat) (w : AuthnWorld) : Prop :=
  (w.own i).any (·.op.asksFor P.token.tokenHash) = true

/-- A call that has lost the rotation finds the winner's entry before its attempts run out. -/
def LosersFind (i : Nat) : AuthnOp → AuthnWorld → Prop
  | .graceGet hash, w => hash = P.token.tokenHash → hasTried i w = true →
    (w.state.graceGet hash).isSome = true ∨ looks i w + 1 < RefreshHandler.raceRetries
  | _, _ => True

/-- A call that has found the token already used looks into the cache when the winner's entry is
    stored. -/
def LateFind (i : Nat) : AuthnOp → AuthnWorld → Prop
  | .graceGet hash, w => hash = P.token.tokenHash → hasTried i w = false →
    (w.state.graceGet hash).isSome = true
  | _, _ => True

/-- Runs in which only refreshes that present the token work on its family and its session, within
    the grace window and with the grace cache available; `ask` is what else is asked of an
    operation. -/
def presenting (ask : Nat → AuthnOp → AuthnWorld → Prop) :
    Conduct AuthnCommand AuthnEvent AuthnOp AuthnStore where
  start _ _ := True
  ask i op w := (P.Presents i w ∨ P.Elsewhere w.state op) ∧ P.LosersFind i op w ∧ ask i op w
  event
    | .clock nowMs, w => P.Unexpired nowMs ∧ P.WithinGrace w.state nowMs
    | .redis up, _ => up = true

/-- What is left of the family and the session, and of what comes after the token. -/
structure Stays (store store' : AuthnStore) : Prop where
  family : ∀ row ∈ store.tokenFamilies.get P.token.familyId,
    row ∈ store'.tokenFamilies.get P.token.familyId
  session : ∀ row ∈ store.sessions.get P.family.sessionId,
    ∃ row' ∈ store'.sessions.get P.family.sessionId,
      row'.status = row.status ∧ row'.expiresAt = row.expiresAt
  after : ∀ row ∈ store'.refreshTokens.rows, row.familyId = P.token.familyId →
    P.token.generation < row.generation → row.status = .active ∨ row ∈ store.refreshTokens.rows
  now : store'.nowMs = store.nowMs

end Presentation

/-! ## What stays -/

namespace Presentation

variable {settings : AuthnSettings} {P : Presentation} {store store' : AuthnStore}

/-- Both rows as they were. -/
theorem Stays.of_both
    (hfamily : store'.tokenFamilies.get P.token.familyId =
      store.tokenFamilies.get P.token.familyId)
    (hsession : store'.sessions.get P.family.sessionId = store.sessions.get P.family.sessionId)
    (htokens : store'.refreshTokens = store.refreshTokens) (hnow : store'.nowMs = store.nowMs) :
    P.Stays store store' where
  family _ hrow := hfamily.trans hrow
  session row hrow := ⟨row, hsession.trans hrow, rfl, rfl⟩
  after _ hrow _ _ := Or.inr (htokens ▸ hrow)
  now := hnow

theorem Stays.of_eq (hfamilies : store'.tokenFamilies = store.tokenFamilies)
    (hsessions : store'.sessions = store.sessions)
    (htokens : store'.refreshTokens = store.refreshTokens) (hnow : store'.nowMs = store.nowMs) :
    P.Stays store store' :=
  .of_both (by rw [hfamilies]) (by rw [hsessions]) htokens hnow

theorem stays_touch (id : SessionId) (at_ : Int) : P.Stays store (store.touch id at_) where
  family _ hrow := hrow
  session row hrow := by
    refine ⟨if row.id = id then row.touch at_ else row, ?_, ?_⟩
    · rw [AuthnStore.get_touch, Option.mem_def.mp hrow]
      rfl
    · split_ifs
      · exact ⟨rfl, rfl⟩
      · exact ⟨rfl, rfl⟩
  after _ hrow _ _ := Or.inr hrow
  now := rfl

theorem stays_createLogin {session : Session} {family : TokenFamily} {token : RefreshToken}
    (h : token.familyId ≠ P.token.familyId) :
    P.Stays store (store.createLogin session family token).1 := by
  unfold AuthnStore.createLogin
  split_ifs with hfree
  · obtain ⟨hsession, hfamily, htoken⟩ := hfree
    constructor
    case family =>
      intro row hrow
      obtain ⟨row', hrow', rfl⟩ :=
        AuthnStore.insertRow_evolves (R := Eq) (fun _ => rfl) hfamily _ row hrow
      exact hrow'
    case session =>
      intro row hrow
      obtain ⟨row', hrow', rfl⟩ :=
        AuthnStore.insertRow_evolves (R := Eq) (fun _ => rfl) hsession _ row hrow
      exact ⟨row, hrow', rfl, rfl⟩
    case after =>
      intro row hrow hrowFamily _
      have hrows : row ∈ store.refreshTokens.rows ++ [token] := by
        rw [← Table.rows_upsert_of_get_none (fun _ _ h => h) (AuthnStore.get_of_admitsToken htoken)]
        exact hrow
      rcases List.mem_append.mp hrows with hold | hnew
      · exact Or.inr hold
      · obtain rfl := List.mem_singleton.mp hnew
        exact absurd hrowFamily h
    case now => rfl
  · exact .of_eq rfl rfl rfl rfl

/-- The rotation of a token: the token itself, or one of another family. -/
theorem stays_rotate {presentedId : String} {successor : RefreshToken} {at_ : Int}
    (hsuccessor : successor.familyId = P.token.familyId → successor.status = .active)
    (hpresented : ∀ row ∈ store.refreshTokens.get presentedId, row.familyId = P.token.familyId →
      row.generation = P.token.generation) :
    P.Stays store (store.rotate presentedId successor at_).1 := by
  unfold AuthnStore.rotate
  split_ifs with hnot hfree
  · exact .of_eq rfl rfl rfl rfl
  · refine ⟨fun _ hrow => hrow, fun row hrow => ⟨row, hrow, rfl, rfl⟩, ?_, rfl⟩
    intro row hrow hrowFamily hafter
    have hnone : (store.consumeToken presentedId at_).get successor.id = none := by
      rw [AuthnStore.get_consumeToken, AuthnStore.get_of_admitsToken hfree]
      rfl
    have hrows : row ∈ (store.consumeToken presentedId at_).rows ++ [successor] := by
      rw [← Table.rows_upsert_of_get_none (fun _ _ h => h) hnone]
      exact hrow
    rcases List.mem_append.mp hrows with hused | hnew
    · obtain ⟨old, hold, rfl⟩ := List.mem_map.mp hused
      by_cases hmatch : (old.id = presentedId && old.status = .active) = true
      · -- the rotated token does not come after the presented one
        rw [if_pos hmatch] at hrowFamily hafter
        simp only [Bool.and_eq_true, decide_eq_true_eq] at hmatch
        have hget : store.refreshTokens.get old.id = some old := Table.get_of_mem hold
        rw [hmatch.1] at hget
        have hsame := hpresented old hget hrowFamily
        have hgreater : P.token.generation < old.generation := hafter
        omega
      · rw [if_neg hmatch]
        exact Or.inr hold
    · obtain rfl := List.mem_singleton.mp hnew
      exact Or.inl (hsuccessor hrowFamily)
  · exact .of_eq rfl rfl rfl rfl

theorem stays_revokeFamilies {found : List TokenFamilyId} {reason : String} {at_ : Int}
    (h : P.token.familyId ∉ found) :
    (store.revokeFamilies found reason at_).get P.token.familyId =
      store.tokenFamilies.get P.token.familyId := by
  refine Table.get_update_of_not _ fun row hrow => ?_
  have hid : row.id = P.token.familyId := (Table.mem_of_get hrow).2
  simp [hid, h]

theorem stays_revokeSessions {p : Session → Bool} {at_ : Int}
    (h : ∀ row : Session, row.id = P.family.sessionId → p row = false) :
    (store.sessions.update p (Session.revoke at_) (Session.revoke_id at_)).get P.family.sessionId =
      store.sessions.get P.family.sessionId :=
  Table.get_update_of_not _ fun row hrow => h row (Table.mem_of_get hrow).2

theorem stays_revokeForReuse {id : TokenFamilyId} {at_ : Int} {event : ReuseEvent}
    {found : List String} (h : id ≠ P.token.familyId)
    (hfound : ∀ row ∈ store.refreshTokens.rows, row.familyId = P.token.familyId →
      row.id ∉ found) : P.Stays store (store.revokeForReuse id at_ event found) where
  family row hrow := by
    have hid : row.id = P.token.familyId := (Table.mem_of_get hrow).2
    show (store.revokeFamily id at_).get P.token.familyId = some row
    rw [AuthnStore.get_revokeFamily, Option.mem_def.mp hrow, Option.map_some,
      if_neg fun heq => h (heq.symm.trans hid)]
  session row hrow := ⟨row, hrow, rfl, rfl⟩
  after row hrow hrowFamily _ := by
    obtain ⟨old, hold, rfl⟩ := List.mem_map.mp hrow
    have hsame : old.Later (if found.contains old.id = true then old.revoke else old) :=
      old.later_ite old.later_revoke
    have hnot := hfound old hold (hsame.familyId.symm.trans hrowFamily)
    rw [if_neg (by simpa using hnot)]
    exact Or.inr hold
  now := rfl

/-- What is done elsewhere leaves all of it. -/
theorem stays_of_elsewhere {op : AuthnOp} (h : P.Elsewhere store op) :
    P.Stays store (store.exec settings op).1 := by
  have hnow := (AuthnStore.exec_frame settings op store).nowMs
  cases op with
  | createLogin session family token => exact stays_createLogin h
  | touch id at_ => exact stays_touch id at_
  | elevate id aal authTime =>
    refine .of_both rfl (Table.get_update_of_not
      (Session.elevate_id aal authTime) fun row hrow => ?_) rfl hnow
    have hid : row.id = P.family.sessionId := (Table.mem_of_get hrow).2
    have hne : ¬ P.family.sessionId = id := fun heq => h heq.symm
    simp [hid, hne]
  | revokeSession id at_ =>
    refine .of_both rfl (stays_revokeSessions fun row hid => ?_) rfl hnow
    have hne : ¬ P.family.sessionId = id := fun heq => h heq.symm
    simp [hid, hne]
  | terminateSession id reason at_ found =>
    obtain ⟨hsession, hfamily⟩ := h
    refine .of_both (stays_revokeFamilies hfamily) (stays_revokeSessions fun row hid => ?_) rfl hnow
    have hne : ¬ P.family.sessionId = id := fun heq => hsession heq.symm
    simp [hid, hne]
  | terminateAll reason at_ families sessions =>
    obtain ⟨hfamily, hsession⟩ := h
    refine .of_both (stays_revokeFamilies hfamily) (stays_revokeSessions fun row hid => ?_) rfl hnow
    simp [hid, hsession]
  | revokeForReuse id at_ event found => exact stays_revokeForReuse h.1 h.2
  | rotate presentedId successor at_ =>
    exact stays_rotate (fun heq => absurd heq h.1) fun row hrow heq => absurd heq (h.2 row hrow)
  | gracePut hash pair ttlSeconds =>
    show P.Stays store (store.gracePut hash pair ttlSeconds)
    unfold AuthnStore.gracePut
    split_ifs <;> exact .of_eq rfl rfl rfl rfl
  | revokeSubject subject ttlSeconds =>
    show P.Stays store (store.revokeSubject subject ttlSeconds)
    unfold AuthnStore.revokeSubject
    split_ifs <;> exact .of_eq rfl rfl rfl rfl
  | registerFailure key policy =>
    show P.Stays store (store.registerFailure key policy)
    unfold AuthnStore.registerFailure
    split_ifs <;> exact .of_eq rfl rfl rfl rfl
  | resetLockout key =>
    show P.Stays store (store.resetLockout key)
    unfold AuthnStore.resetLockout
    split_ifs <;> exact .of_eq rfl rfl rfl rfl
  | _ => exact .of_eq rfl rfl rfl rfl

end Presentation

/-! ## The invariant -/

/-- The pair an event puts in the cache for a hash. -/
def putPair (hash : String) (event : Event AuthnOp AuthnStore) : Option GracePair :=
  match event.op with
  | .gracePut hash' pair _ => if hash' = hash then some pair else none
  | _ => none

structure ParallelInv (P : Presentation) (w : AuthnWorld) : Prop where
  token : Known P.token w
  family : ∃ row ∈ w.state.tokenFamilies.get P.token.familyId,
    row.status = .active ∧ row.sessionId = P.family.sessionId
  session : ∃ row ∈ w.state.sessions.get P.family.sessionId,
    row.status = .active ∧ row.expiresAt = P.session.expiresAt
  /-- what comes after the presented token is active -/
  after : ∀ row ∈ w.state.refreshTokens.rows, row.familyId = P.token.familyId →
    P.token.generation < row.generation → row.status = .active
  /-- only a call that has won puts an entry -/
  puts : ∀ event ∈ w.log, ∀ pair ∈ putPair P.token.tokenHash event,
    ∃ winner ∈ w.log, winner.caller = event.caller ∧ rotatedToken winner = some P.token.id
  onePut : ∀ event ∈ w.log, ∀ event' ∈ w.log, ∀ pair ∈ putPair P.token.tokenHash event,
    ∀ pair' ∈ putPair P.token.tokenHash event', pair.refreshToken = pair'.refreshToken
  cached : ∀ entry ∈ w.state.graceCache.get P.token.tokenHash,
    ∃ event ∈ w.log, putPair P.token.tokenHash event = some entry.pair
  unexpired : P.Unexpired w.state.nowMs

/-- What every moment of a run has in common with a later one. -/
structure ParallelRely (w w' : AuthnWorld) : Prop where
  state : w.state.Later w'.state
  log : ∀ event ∈ w.log, event ∈ w'.log

variable {settings : AuthnSettings} {P : Presentation} {i : Nat} {w w' : AuthnWorld}

theorem parallelRely_act (op : AuthnOp) :
    ParallelRely w ((authnMachine settings).act i op w) :=
  ⟨act_later op, fun _ hevent => List.mem_cons_of_mem _ hevent⟩

/-- Only a put changes the cache. -/
theorem get_graceCache_exec {hash : String} {op : AuthnOp} {store : AuthnStore}
    (h : putPair hash ⟨i, op, store⟩ = none) :
    (store.exec settings op).1.graceCache.get hash = store.graceCache.get hash := by
  by_cases hputs : ∃ hash' pair ttlSeconds, op = .gracePut hash' pair ttlSeconds
  · obtain ⟨hash', pair, ttlSeconds, rfl⟩ := hputs
    have hne : hash' ≠ hash := by
      intro heq
      simp [putPair, heq] at h
    show (store.gracePut hash' pair ttlSeconds).graceCache.get hash = _
    unfold AuthnStore.gracePut
    split_ifs
    · rfl
    · rw [Table.get_overwrite, if_neg fun heq => hne heq.symm]
  · have hsame := (AuthnStore.exec_frame settings op store).graceCache
      fun hash' pair ttlSeconds heq => hputs ⟨hash', pair, ttlSeconds, heq⟩
    rw [hsame]

/-- A token is rotated by one event only. -/
theorem RotationInv.eq_of_rotated (h : RotationInv settings w) {a b : Event AuthnOp AuthnStore}
    {id : String} (ha : a ∈ w.log) (hb : b ∈ w.log) (hrotated : rotatedToken a = some id)
    (hrotated' : rotatedToken b = some id) : a = b := by
  by_contra hne
  have : Std.Symm fun later earlier : Event AuthnOp AuthnStore => ∀ id,
      rotatedToken later = some id → rotatedToken earlier ≠ some id :=
    ⟨fun _ _ hab id hb ha => hab id ha hb⟩
  exact h.once.forall ha hb hne id hrotated hrotated'

namespace ParallelInv

/-- An operation that leaves the rows, from what it does to the log and the cache. -/
theorem of_stays (h : ParallelInv P w) {op : AuthnOp}
    (hstays : P.Stays w.state (w.state.exec settings op).1)
    (hputs : ∀ pair ∈ putPair P.token.tokenHash ⟨i, op, w.state⟩,
      ∃ winner ∈ w.log, winner.caller = i ∧ rotatedToken winner = some P.token.id)
    (hfirst : ∀ pair ∈ putPair P.token.tokenHash ⟨i, op, w.state⟩,
      ∀ event ∈ w.log, putPair P.token.tokenHash event = none)
    (hcached : ∀ entry ∈ (w.state.exec settings op).1.graceCache.get P.token.tokenHash,
      entry ∈ w.state.graceCache.get P.token.tokenHash ∨
        putPair P.token.tokenHash ⟨i, op, w.state⟩ = some entry.pair) :
    ParallelInv P ((authnMachine settings).act i op w) := by
  constructor
  case token => exact h.token.later (act_later op)
  case family =>
    obtain ⟨row, hrow, hactive⟩ := h.family
    exact ⟨row, hstays.family row hrow, hactive⟩
  case session =>
    obtain ⟨row, hrow, hactive, hexpires⟩ := h.session
    obtain ⟨row', hrow', hstatus, hexpires'⟩ := hstays.session row hrow
    exact ⟨row', hrow', hstatus.trans hactive, hexpires'.trans hexpires⟩
  case after =>
    intro row hrow hfamily hafter
    rcases hstays.after row hrow hfamily hafter with hactive | hold
    · exact hactive
    · exact h.after row hold hfamily hafter
  case puts =>
    intro event hevent pair hpair
    rcases List.mem_cons.mp hevent with rfl | hevent
    · obtain ⟨winner, hwinner, hsame⟩ := hputs pair hpair
      exact ⟨winner, List.mem_cons_of_mem _ hwinner, hsame⟩
    · obtain ⟨winner, hwinner, hsame⟩ := h.puts event hevent pair hpair
      exact ⟨winner, List.mem_cons_of_mem _ hwinner, hsame⟩
  case onePut =>
    intro event hevent event' hevent' pair hpair pair' hpair'
    rcases List.mem_cons.mp hevent with rfl | hevent
    · rcases List.mem_cons.mp hevent' with rfl | hevent'
      · rw [Option.some.inj (hpair.symm.trans hpair')]
      · rw [hfirst pair hpair event' hevent'] at hpair'
        cases hpair'
    · rcases List.mem_cons.mp hevent' with rfl | hevent'
      · rw [hfirst pair' hpair' event hevent] at hpair
        cases hpair
      · exact h.onePut event hevent event' hevent' pair hpair pair' hpair'
  case cached =>
    intro entry hentry
    rcases hcached entry hentry with hold | hnew
    · obtain ⟨event, hevent, hpair⟩ := h.cached entry hold
      exact ⟨event, List.mem_cons_of_mem _ hevent, hpair⟩
    · exact ⟨_, List.mem_cons_self .., hnew⟩
  case unexpired =>
    show P.Unexpired (w.state.exec settings op).1.nowMs
    rw [hstays.now]
    exact h.unexpired

/-- The step lemma, for every operation but the put of the winner. -/
theorem act (h : ParallelInv P w) {op : AuthnOp}
    (hstays : P.Stays w.state (w.state.exec settings op).1)
    (hput : putPair P.token.tokenHash ⟨i, op, w.state⟩ = none) :
    ParallelInv P ((authnMachine settings).act i op w) := by
  have hno : ∀ pair, pair ∉ putPair P.token.tokenHash ⟨i, op, w.state⟩ := by simp [hput]
  refine h.of_stays hstays (fun pair hpair => absurd hpair (hno pair))
    (fun pair hpair => absurd hpair (hno pair)) fun entry hentry => Or.inl ?_
  rw [get_graceCache_exec hput] at hentry
  exact hentry

/-- The put of the winner, its first. -/
theorem put (h : ParallelInv P w) (hrotation : RotationInv settings w)
    {winner : Event AuthnOp AuthnStore} (hwinner : winner ∈ w.own i)
    (hwon : rotatedToken winner = some P.token.id)
    (hfirst : ∀ event ∈ w.own i, putPair P.token.tokenHash event = none) {pair : GracePair}
    {ttlSeconds : Nat} :
    ParallelInv P
      ((authnMachine settings).act i (.gracePut P.token.tokenHash pair ttlSeconds) w) := by
  have hmem : winner ∈ w.log ∧ winner.caller = i := by simpa [World.own] using hwinner
  -- whoever has put an entry has won, and so is this call, which has put none
  have hnone : ∀ event ∈ w.log, putPair P.token.tokenHash event = none := by
    intro event hevent
    cases hpair : putPair P.token.tokenHash event with
    | none => rfl
    | some pair' =>
      obtain ⟨other, hother, hcaller, hrotated⟩ := h.puts event hevent pair' hpair
      have heq := hrotation.eq_of_rotated hother hmem.1 hrotated hwon
      have hown : event ∈ w.own i := by
        have hsame : event.caller = i := by rw [← hcaller, heq, hmem.2]
        simpa [World.own] using ⟨hevent, hsame⟩
      rw [hfirst event hown] at hpair
      cases hpair
  have hstate : P.Stays w.state (w.state.gracePut P.token.tokenHash pair ttlSeconds) := by
    unfold AuthnStore.gracePut
    split_ifs <;> exact .of_eq rfl rfl rfl rfl
  refine h.of_stays hstate (fun _ _ => ⟨winner, hmem.1, hmem.2, hwon⟩) (fun _ _ => hnone)
    fun entry hentry => ?_
  rcases AuthnStore.get_gracePut hentry with hold | ⟨_, hpair⟩
  · exact Or.inl hold
  · rw [hpair]
    exact Or.inr (if_pos rfl)

end ParallelInv

/-! ## The calls -/

/-- The conduct of the outline: the chains of the tokens are known. -/
def parallelConduct (settings : AuthnSettings) (P : Presentation) :
    Conduct AuthnCommand AuthnEvent AuthnOp AuthnStore :=
  (rotation settings).given (P.presenting P.LateFind)

/-- The programs of the outline of parallel refreshes. -/
abbrev Parallels (settings : AuthnSettings) (P : Presentation) (i : Nat) {β : Type}
    (Post : β → AuthnWorld → Prop) (p : AuthnProc β) (w : AuthnWorld) : Prop :=
  Safe (authnMachine settings) (parallelConduct settings P) (ParallelInv P) ParallelRely i Post p w

/-- The call has not looked into the cache, nor tried to rotate, nor put an entry. -/
def Idle (P : Presentation) (i : Nat) (w : AuthnWorld) : Prop :=
  ∀ event ∈ w.own i, event.op.isGraceGet = false ∧ event.op.isRotate = false ∧
    putPair P.token.tokenHash event = none

/-- The text of a result is that of the entry that was put. -/
def Stored (P : Presentation) (result : RefreshResult) (w : AuthnWorld) : Prop :=
  ∃ event ∈ w.log, ∃ pair ∈ putPair P.token.tokenHash event,
    pair.refreshToken = result.refreshToken

/-- The exchange has given a pair. -/
def Answered (P : Presentation) : Option RefreshResult → AuthnWorld → Prop
  | some result, w => Stored P result w
  | none, _ => False

/-- The refresh has given a pair. -/
def AnsweredOk (P : Presentation) : Except RefreshError RefreshResult → AuthnWorld → Prop
  | .ok result, w => Stored P result w
  | .error _, _ => False

theorem Idle.of_own (h : Idle P i w) (hown : w'.own i = w.own i) : Idle P i w' := by
  intro event hevent
  rw [hown] at hevent
  exact h event hevent

variable (settings) in
theorem Idle.act (h : Idle P i w) (op : AuthnOp) (hget : op.isGraceGet = false)
    (hrotate : op.isRotate = false) (hput : putPair P.token.tokenHash ⟨i, op, w.state⟩ = none) :
    Idle P i ((authnMachine settings).act i op w) := by
  intro event hevent
  rw [Machine.own_act, if_pos rfl] at hevent
  rcases List.mem_cons.mp hevent with rfl | hevent
  · exact ⟨hget, hrotate, hput⟩
  · exact h event hevent

theorem Idle.looks (h : Idle P i w) : looks i w = 0 := by
  unfold AccessCore.looks
  rw [List.countP_eq_zero]
  intro event hevent
  simp [(h event hevent).1]

theorem Idle.hasTried (h : Idle P i w) : hasTried i w = false := by
  unfold AccessCore.hasTried
  rw [List.any_eq_false]
  intro event hevent
  simp [(h event hevent).2.1]

theorem looks_act (op : AuthnOp) : looks i ((authnMachine settings).act i op w) =
    looks i w + if op.isGraceGet then 1 else 0 := by
  unfold looks
  rw [Machine.own_act, if_pos rfl, List.countP_cons]

theorem hasTried_act (op : AuthnOp) : hasTried i ((authnMachine settings).act i op w) =
    (op.isRotate || hasTried i w) := by
  unfold hasTried
  rw [Machine.own_act, if_pos rfl, List.any_cons]

theorem looks_of_own (h : w'.own i = w.own i) : looks i w' = looks i w := by
  unfold looks
  rw [h]

theorem hasTried_of_own (h : w'.own i = w.own i) : hasTried i w' = hasTried i w := by
  unfold hasTried
  rw [h]

theorem parallels_call {β : Type} {Post : β → AuthnWorld → Prop} {op : AuthnOp}
    {next : op.Answer → AuthnProc β}
    (h : ∀ w', ParallelInv P w' → RotationInv settings w' → ParallelRely w w' →
      w'.own i = w.own i → P.LosersFind i op w' → P.LateFind i op w' →
        ParallelInv P ((authnMachine settings).act i op w') ∧ Parallels settings P i Post
          (next ((w'.state.exec settings op).2)) ((authnMachine settings).act i op w')) :
    Parallels settings P i Post (.call op next) w := by
  rintro w' hinv hrely hown ⟨⟨_, hlosers, hlate⟩, hrotation, _⟩
  obtain ⟨hact, hnext⟩ := h w' hinv hrotation hrely hown hlosers hlate
  exact ⟨hact, parallelRely_act op, hnext⟩

/-- An operation that changes nothing the invariant is about. -/
theorem parallels_quiet {β : Type} {Post : β → AuthnWorld → Prop} {op : AuthnOp}
    {next : op.Answer → AuthnProc β}
    (hstays : ∀ store : AuthnStore, P.Stays store (store.exec settings op).1)
    (hput : ∀ store, putPair P.token.tokenHash ⟨i, op, store⟩ = none)
    (h : ∀ w', ParallelInv P w' → RotationInv settings w' → ParallelRely w w' →
      w'.own i = w.own i → P.LosersFind i op w' → P.LateFind i op w' →
        Parallels settings P i Post (next ((w'.state.exec settings op).2))
          ((authnMachine settings).act i op w')) :
    Parallels settings P i Post (.call op next) w :=
  parallels_call fun w' hinv hrotation hrely hown hlosers hlate =>
    ⟨hinv.act (hstays w'.state) (hput w'.state),
      h w' hinv hrotation hrely hown hlosers hlate⟩

/-- The token that follows is the active one of its family, and the entry says so. -/
theorem active_of_entry (hinv : ParallelInv P w') (hrotation : RotationInv settings w)
    (hrotation' : RotationInv settings w') (hlater : w.state.Later w'.state)
    {cached : GracePair} (hcached : w.state.graceGet P.token.tokenHash = some cached) :
    ∃ active, w'.state.findActiveToken P.token.familyId = some active ∧
      active.generation = cached.successorGeneration := by
  obtain ⟨entry, hentry, rfl⟩ := AuthnStore.mem_of_graceGet hcached
  obtain ⟨presented, hpresented, successor, hsuccessor, hhash, hfamily, hfollows, hnumber, _⟩ :=
    (hrotation.chained.grace P.token.tokenHash entry hentry).later hlater
  obtain ⟨row, hrow, _, hrowHash, hrowFamily, hrowGeneration⟩ := hinv.token.mem
  obtain rfl := hrotation'.chained.eq_of_hash hpresented hrow (hhash.trans hrowHash.symm)
  have hsame : successor.familyId = P.token.familyId := hfamily.trans hrowFamily
  have hactive : successor.status = .active := hinv.after successor hsuccessor hsame (by omega)
  cases hfound : w'.state.findActiveToken P.token.familyId with
  | none =>
    have hempty := List.head?_eq_none_iff.mp hfound
    have hselected : successor ∈ w'.state.refreshTokens.select
        fun row => row.familyId = P.token.familyId && row.status = .active := by
      simp [Table.select, hsuccessor, hsame, hactive]
    rw [hempty] at hselected
    cases hselected
  | some active =>
    obtain ⟨hmem, hactiveFamily, hstatus⟩ := AuthnStore.mem_of_findActiveToken hfound
    have heq := hrotation'.chained.eq_of_active hmem hsuccessor
      (hactiveFamily.trans hsame.symm) hstatus hactive
    exact ⟨active, rfl, by rw [heq, hnumber]⟩

/-- The last look finds the entry: `looks` and the attempts that are left add up to what the call
    may look. -/
theorem parallels_replay {token : RefreshToken} (hfamily : token.familyId = P.token.familyId)
    (attempts : Nat) (hleft : 0 < attempts)
    (hlooks : looks i w + attempts = if hasTried i w then RefreshHandler.raceRetries else 1) :
    Parallels settings P i (Answered P)
      (RefreshHandler.replayFromGrace token P.token.tokenHash attempts) w := by
  induction attempts generalizing w with
  | zero => omega
  | succ attempts ih =>
    refine parallels_quiet (fun _ => .of_eq rfl rfl rfl rfl) (fun _ => rfl)
      fun w₁ hinv₁ hrotation₁ _ hown₁ hlosers hlate => ?_
    have hlooks₁ : looks i w₁ + (attempts + 1) =
        if hasTried i w₁ then RefreshHandler.raceRetries else 1 := by
      rw [looks_of_own hown₁, hasTried_of_own hown₁]
      exact hlooks
    generalize hcached : (w₁.state.exec settings (.graceGet P.token.tokenHash)).2 = cached
    cases (cached : Option GracePair) with
    | none =>
      replace hcached : w₁.state.graceGet P.token.tokenHash = none := hcached
      cases htried : hasTried i w₁ with
      | false =>
        -- a late call finds the entry at its only look
        have hfound := hlate rfl htried
        rw [hcached] at hfound
        cases hfound
      | true =>
        rw [htried, if_pos rfl] at hlooks₁
        have hmore : looks i w₁ + 1 < RefreshHandler.raceRetries := by
          rcases hlosers rfl htried with hfound | hmore
          · rw [hcached] at hfound
            cases hfound
          · exact hmore
        refine ih (by omega) ?_
        rw [looks_act, hasTried_act, htried]
        show looks i w₁ + 1 + attempts = RefreshHandler.raceRetries
        omega
    | some cached =>
      replace hcached : w₁.state.graceGet P.token.tokenHash = some cached := hcached
      refine parallels_quiet (fun _ => .of_eq rfl rfl rfl rfl) (fun _ => rfl)
        fun w₂ hinv₂ hrotation₂ hrely₂ _ _ _ => ?_
      have hlater : w₁.state.Later w₂.state := (act_later _).trans hrely₂.state
      obtain ⟨active, hactive, hgeneration⟩ :=
        active_of_entry hinv₂ hrotation₁ hrotation₂ hlater hcached
      obtain ⟨entry, hentry, rfl⟩ := AuthnStore.mem_of_graceGet hcached
      obtain ⟨event, hevent, hpair⟩ := hinv₁.cached entry hentry
      have hfound : (w₂.state.exec settings (.findActiveToken token.familyId)).2 = some active := by
        rw [hfamily]
        exact hactive
      dsimp only [Proc.bind]
      rw [hfound]
      show Parallels settings P i _
        (if active.generation = entry.pair.successorGeneration then _ else _) _
      rw [if_pos hgeneration]
      exact ⟨event, List.mem_cons_of_mem _ (hrely₂.log _ (List.mem_cons_of_mem _ hevent)),
        entry.pair, hpair, rfl⟩

/-- The winner stores the pair it returns. -/
theorem parallels_keep {draws : RefreshDraws} {token : RefreshToken} {session : Session}
    {now : Int} {access : IssuedAccessToken} {winner : Event AuthnOp AuthnStore}
    (hwinner : winner ∈ w.own i) (hwon : rotatedToken winner = some P.token.id)
    (hfirst : ∀ event ∈ w.own i, putPair P.token.tokenHash event = none) :
    Parallels settings P i (Answered P)
      (RefreshHandler.keep settings draws token session P.token.tokenHash now access) w := by
  refine parallels_quiet (fun _ => Presentation.stays_touch _ _) (fun _ => rfl)
    fun w₁ _ _ _ hown₁ _ _ => ?_
  refine parallels_call fun w₂ hinv₂ hrotation₂ _ hown₂ _ _ => ?_
  have hown : w₂.own i = ⟨i, .touch session.id now, w₁.state⟩ :: w.own i := by
    rw [hown₂, Machine.own_act, if_pos rfl, hown₁]
  constructor
  · have hwinner₂ : winner ∈ w₂.own i := hown ▸ List.mem_cons_of_mem _ hwinner
    refine hinv₂.put hrotation₂ hwinner₂ hwon ?_
    rw [hown]
    exact List.forall_mem_cons.mpr ⟨rfl, hfirst⟩
  · exact ⟨_, List.mem_cons_self .., _, if_pos rfl, rfl⟩

theorem parallels_tryRotate {draws : RefreshDraws} {token : RefreshToken} {family : TokenFamily}
    {session : Session} {now : Int} (hid : token.id = P.token.id) (hsame : P.token.Later token)
    (hidle : Idle P i w) :
    Parallels settings P i (Answered P)
      (RefreshHandler.tryRotate settings draws token family session P.token.tokenHash now) w := by
  have hissue : ∀ claims jti, Parallels settings P i (fun _ w => Idle P i w)
      (AccessTokens.issue settings claims jti) w := by
    intro claims jti
    have hkeys : (AccessTokens.issue settings claims jti).Asks (fun op => ∃ key, op = .key key) :=
      asks_issue_of (fun key _ => ⟨key, rfl⟩) rfl
    refine Safe.keeping (fun w w' hw _ _ hown => hw.of_own hown) ?_ hkeys hidle
    rintro _ w ⟨key, rfl⟩ hinv hw _
    exact ⟨hinv.act (.of_eq rfl rfl rfl rfl) rfl, parallelRely_act _, hw.act settings _ rfl rfl rfl⟩
  show Parallels settings P i _ (AccessTokens.issue settings _ _ >>= _) w
  rw [Parallels, safe_bind]
  refine (hissue _ _).mono fun access w hidle => ?_
  refine parallels_call fun w₁ hinv₁ hrotation₁ _ hown₁ _ _ => ?_
  have hidle₁ := hidle.of_own hown₁
  let successor := RefreshHandler.successorOf settings draws token session now
  constructor
  · refine hinv₁.act (Presentation.stays_rotate (fun _ => rfl) ?_) rfl
    intro row hrow _
    obtain ⟨known, hknown, hlater⟩ := hinv₁.token
    rw [hid] at hrow
    obtain rfl := Option.some.inj (hknown.symm.trans hrow)
    exact hlater.generation
  · have hfirst : ∀ event ∈
        ((authnMachine settings).act i (.rotate token.id successor now) w₁).own i,
        putPair P.token.tokenHash event = none := by
      rw [Machine.own_act, if_pos rfl]
      exact List.forall_mem_cons.mpr ⟨rfl, fun event hevent => (hidle₁ event hevent).2.2⟩
    generalize hwon : (w₁.state.exec settings (.rotate token.id successor now)).2 = won
    cases (won : Option Bool) with
    | none => trivial
    | some won =>
      cases won with
      | true =>
        refine parallels_keep (mem_own_act _) ?_ hfirst
        rw [← hid]
        exact if_pos hwon
      | false =>
        refine parallels_replay hsame.familyId _ (by decide) ?_
        rw [looks_act, hasTried_act, hidle₁.looks]
        rfl

theorem parallels_exchange {draws : RefreshDraws} {token : RefreshToken} {family : TokenFamily}
    {session : Session} {now : Int} (hid : token.id = P.token.id) (hsame : P.token.Later token)
    (hidle : Idle P i w) :
    Parallels settings P i (AnsweredOk P)
      (RefreshHandler.exchange settings draws token family session P.token.tokenHash now) w := by
  have hpair : Parallels settings P i (Answered P)
      (if token.status = .active then
        RefreshHandler.tryRotate settings draws token family session P.token.tokenHash now
      else RefreshHandler.replayFromGrace token P.token.tokenHash 1) w := by
    split_ifs
    · exact parallels_tryRotate hid hsame hidle
    · refine parallels_replay hsame.familyId 1 Nat.one_pos ?_
      rw [hidle.looks, hidle.hasTried]
      rfl
  rw [RefreshHandler.exchange_eq, Parallels, safe_bind]
  refine hpair.mono fun result w' hresult => ?_
  cases result with
  | none => cases hresult
  | some result => exact hresult

/-- The token is found under its hash. -/
theorem findToken_of_known (hinv : ParallelInv P w) (hrotation : RotationInv settings w) :
    ∃ token, w.state.findToken P.token.tokenHash = some token ∧ token.id = P.token.id ∧
      P.token.Later token := by
  obtain ⟨row, hrow, hsame⟩ := hinv.token
  obtain ⟨hmem, hid⟩ := Table.mem_of_get hrow
  cases hfound : w.state.findToken P.token.tokenHash with
  | none =>
    have hempty := List.head?_eq_none_iff.mp hfound
    have hselected : row ∈ w.state.refreshTokens.select
        fun row => row.tokenHash = P.token.tokenHash := by
      simp [Table.select, hmem, hsame.tokenHash]
    rw [hempty] at hselected
    cases hselected
  | some token =>
    obtain ⟨hfoundMem, hhash⟩ := AuthnStore.mem_of_findToken hfound
    have heq := hrotation.chained.eq_of_hash hfoundMem hmem (hhash.trans hsame.tokenHash.symm)
    exact ⟨token, rfl, heq ▸ hid, heq ▸ hsame⟩

/-- A refresh that presents the token returns a pair. -/
theorem parallels_refresh {draws : RefreshDraws} {refreshToken : String}
    (hhash : settings.sha256 refreshToken = P.token.tokenHash) (hown : w.own i = []) :
    Parallels settings P i (AnsweredOk P)
      (RefreshHandler.execute settings draws refreshToken) w := by
  have hidle : Idle P i w := by
    intro event hevent
    rw [hown] at hevent
    cases hevent
  refine parallels_quiet (fun _ => .of_eq rfl rfl rfl rfl) (fun _ => rfl)
    fun w₁ hinv₁ _ _ hown₁ _ _ => ?_
  have hidle₁ := (hidle.of_own hown₁).act settings .now rfl rfl rfl
  refine parallels_quiet (fun _ => .of_eq rfl rfl rfl rfl) (fun _ => rfl)
    fun w₂ hinv₂ hrotation₂ _ hown₂ _ _ => ?_
  have hidle₂ := (hidle₁.of_own hown₂).act settings
    (.findToken (settings.sha256 refreshToken)) rfl rfl rfl
  obtain ⟨token, htoken, hid, hsame⟩ := findToken_of_known hinv₂ hrotation₂
  have hfoundToken : (w₂.state.exec settings (.findToken (settings.sha256 refreshToken))).2 =
      some token := by
    rw [hhash]
    exact htoken
  dsimp only [Proc.bind]
  rw [hfoundToken]
  show Parallels settings P i _ (if token.expiresAt ≤ w₁.state.nowMs then _ else _) _
  have htokenLive : ¬ token.expiresAt ≤ w₁.state.nowMs := by
    have hlive := hinv₁.unexpired.1
    have hexpires := hsame.expiresAt
    omega
  rw [if_neg htokenLive]
  refine parallels_quiet (fun _ => .of_eq rfl rfl rfl rfl) (fun _ => rfl)
    fun w₃ hinv₃ _ _ hown₃ _ _ => ?_
  have hidle₃ := (hidle₂.of_own hown₃).act settings (.findFamily token.familyId) rfl rfl rfl
  obtain ⟨family, hfamily, hactive, hsession⟩ := hinv₃.family
  have hfoundFamily : (w₃.state.exec settings (.findFamily token.familyId)).2 = some family := by
    rw [hsame.familyId]
    exact hfamily
  dsimp only [Proc.bind]
  rw [hfoundFamily]
  show Parallels settings P i _ (if family.status ≠ .active then _ else _) _
  rw [if_neg (not_not_intro hactive)]
  refine parallels_quiet (fun _ => .of_eq rfl rfl rfl rfl) (fun _ => rfl)
    fun w₄ hinv₄ _ _ hown₄ _ _ => ?_
  have hidle₄ := (hidle₃.of_own hown₄).act settings (.findSession family.sessionId) rfl rfl rfl
  obtain ⟨session, hget, hsessionActive, hexpires⟩ := hinv₄.session
  have hfoundSession : (w₄.state.exec settings (.findSession family.sessionId)).2 =
      some session := by
    rw [hsession]
    exact hget
  dsimp only [Proc.bind]
  rw [hfoundSession]
  show Parallels settings P i _
    (if session.status ≠ .active || session.expiresAt ≤ w₁.state.nowMs then _ else _) _
  have hsessionLive : ¬ session.expiresAt ≤ w₁.state.nowMs := by
    have hlive := hinv₁.unexpired.2
    omega
  rw [if_neg (by simp [hsessionActive, hsessionLive])]
  rw [hhash]
  exact parallels_exchange hid hsame hidle₄

/-! ### The other calls -/

/-- A refresh that presents another token does not ask for this one. -/
theorem asks_otherRefresh {draws : RefreshDraws} {refreshToken hash : String}
    (h : settings.sha256 refreshToken ≠ hash) :
    (RefreshHandler.execute settings draws refreshToken).Asks (·.asksFor hash = false) := by
  refine asks_refresh rfl (decide_eq_false h) (fun _ => rfl) (fun _ => rfl) fun sid op hop => ?_
  cases op with
  | findToken tokenHash => cases hop
  | _ => rfl

/-- A call that does not ask for the token works elsewhere. -/
theorem parallels_other {β : Type} {p : AuthnProc β}
    (h : p.Asks (·.asksFor P.token.tokenHash = false)) (hown : w.own i = []) :
    Parallels settings P i (fun _ _ => True) p w := by
  refine (Safe.of_asks_own ?_ h (by simp [hown])).mono fun _ _ _ => trivial
  rintro op w _ hnone hinv ⟨⟨hwhere, _⟩, _⟩
  rcases hwhere with hpresents | helsewhere
  · obtain ⟨event, hevent, hasked⟩ := List.any_eq_true.mp hpresents
    rw [hnone event hevent] at hasked
    cases hasked
  · refine ⟨hinv.act (Presentation.stays_of_elsewhere helsewhere) ?_, parallelRely_act op⟩
    cases op with
    | gracePut hash pair ttlSeconds => exact if_neg helsewhere
    | _ => rfl

/-! ## All calls together -/

/-- The outline: a refresh that presents the token returns the pair that is stored. -/
def parallelRefresh (settings : AuthnSettings) (P : Presentation) :
    Outline (authnMachine settings) (parallelConduct settings P) where
  Inv := ParallelInv P
  Rely := ParallelRely
  refl w := ⟨.refl w.state, fun _ hevent => hevent⟩
  trans huv hvw := ⟨huv.state.trans hvw.state, fun event hevent =>
    hvw.log event (huv.log event hevent)⟩
  happen event w hinv hevent := by
    cases event with
    | clock nowMs =>
      exact ⟨⟨hinv.token, hinv.family, hinv.session, hinv.after, hinv.puts, hinv.onePut,
        hinv.cached, hevent.1.1⟩, .of_eq rfl rfl rfl, fun _ hevent => hevent⟩
    | redis up =>
      exact ⟨⟨hinv.token, hinv.family, hinv.session, hinv.after, hinv.puts, hinv.onePut,
        hinv.cached, hinv.unexpired⟩, .of_eq rfl rfl rfl, fun _ hevent => hevent⟩
  Post
    | .refresh refreshToken _, _, _, .refresh result, w =>
      settings.sha256 refreshToken = P.token.tokenHash → AnsweredOk P result w
    | _, _, _, _, _ => True
  safe command i w _ _ hown := by
    have hother : ∀ {β : Type} {p : AuthnProc β} {f : β → AuthnResult},
        p.Asks (SomeAside settings) →
        Parallels settings P i (fun _ _ => True) (p >>= fun b => .done (f b)) w := fun h =>
      parallels_other (Proc.asks_bind (fun _ => by trivial)
        (h.mono fun _ ⟨_, hop⟩ => hop.asksFor _)) hown
    cases command with
    | login command draws => exact hother (someAside (asks_login command draws))
    | refresh refreshToken draws =>
      show Parallels settings P i _ (RefreshHandler.execute settings draws refreshToken >>= _) w
      by_cases hhash : settings.sha256 refreshToken = P.token.tokenHash
      · rw [Parallels, safe_bind]
        exact (parallels_refresh hhash hown).mono fun _ _ hdone _ => hdone
      · rw [Parallels, safe_bind]
        exact (parallels_other (asks_otherRefresh hhash) hown).mono fun _ _ _ heq =>
          absurd heq hhash
    | stepUp command jti => exact hother (asks_stepUp command jti)
    | terminateSession sessionId => exact hother (someAside (asks_terminate "" _ _))
    | terminateSessionById sessionId => exact hother (someAside (asks_terminate "" _ _))
    | terminateAllForUser userId => exact hother (someAside (asks_terminateAll "" userId))
    | revokeForReuse id at_ event => exact hother (someAside (asks_revokeForReuse "" id at_ event))
    | canActivate token => exact hother (someAside (asks_canActivate "" token))

/-- Parallel refreshes with one token are benign: every call that presents it and returns, returns a
    pair, not `reuse` or `invalid`; the family stays active; and all pairs hold one text. -/
structure Presentation.Benign (settings : AuthnSettings) (P : Presentation) (sys : AuthnSystem) :
    Prop where
  ok : ∀ i refreshToken result, settings.sha256 refreshToken = P.token.tokenHash →
    Refreshed sys i refreshToken result → ∃ pair, result = .ok pair
  active : ∃ family ∈ sys.world.state.tokenFamilies.get P.token.familyId, family.status = .active
  same : ∀ i i' text text' pair pair', settings.sha256 text = P.token.tokenHash →
    settings.sha256 text' = P.token.tokenHash → Refreshed sys i text (.ok pair) →
      Refreshed sys i' text' (.ok pair') → pair.refreshToken = pair'.refreshToken

theorem AuthnStore.Reached.inv {store : AuthnStore} (h : store.Reached settings) :
    RotationInv settings ⟨store, []⟩ := by
  obtain ⟨first, moves, hfirst, rfl⟩ := h
  have hinit : (rotation settings).Good ⟨⟨first, []⟩, []⟩ := Outline.Good.init hfirst.inv rfl
  have hgood : (rotation settings).Good (authnRun settings first moves) :=
    (hinit.run (Machine.along_free _ moves)).1
  exact ⟨hgood.inv.chained, by simp, List.Pairwise.nil⟩

/-- Nothing comes after the active token of a family, and no entry is stored for it. -/
theorem Presentation.Ready.inv {store : AuthnStore} (h : P.Ready settings store) :
    ParallelInv P ⟨store, []⟩ := by
  have hchained : store.Chained settings := h.reached.inv.chained
  obtain ⟨hmem, _⟩ := Table.mem_of_get h.token
  have hlast := hchained.active _ P.token (AuthnStore.mem_tokensOfFamily.mpr ⟨hmem, rfl⟩)
    h.tokenActive
  have hnone : ∀ row ∈ store.refreshTokens.rows, row.familyId = P.token.familyId →
      ¬ P.token.generation < row.generation := by
    intro row hrow hfamily
    have hgeneration : row.generation ∈
        (store.tokensOfFamily P.token.familyId).map (·.generation) :=
      List.mem_map_of_mem (AuthnStore.mem_tokensOfFamily.mpr ⟨hrow, hfamily⟩)
    rw [hchained.generations, List.mem_range'_1] at hgeneration
    omega
  constructor
  case token => exact known_of_mem hmem
  case family => exact ⟨P.family, h.family, h.familyActive, rfl⟩
  case session => exact ⟨P.session, h.session, h.sessionActive, rfl⟩
  case after => exact fun row hrow hfamily hafter => absurd hafter (hnone row hrow hfamily)
  case puts => simp
  case onePut => simp
  case cached =>
    intro entry hentry
    obtain ⟨token, htoken, successor, hsuccessor, hhash, hfamily, hfollows, _⟩ :=
      hchained.grace _ entry hentry
    obtain rfl := hchained.eq_of_hash htoken hmem hhash
    exact absurd (by omega) (hnone successor hsuccessor hfamily)
  case unexpired => exact h.unexpired

theorem answered_of_refreshed {sys : AuthnSystem} (h : (parallelRefresh settings P).Good sys)
    {refreshToken : String} {result : Except RefreshError RefreshResult}
    (hhash : settings.sha256 refreshToken = P.token.tokenHash)
    (hrefreshed : Refreshed sys i refreshToken result) : AnsweredOk P result sys.world := by
  obtain ⟨call, draws, hcall, hcommand, hresult⟩ := hrefreshed
  obtain ⟨_, v, hv, _, hpost⟩ := h.returned hcall hresult
  rw [hcommand] at hpost
  have hdone : AnsweredOk P result v := hpost hhash
  cases result with
  | error error => cases hdone
  | ok result =>
    obtain ⟨event, hevent, hpair⟩ := hdone
    exact ⟨event, hv.log event hevent, hpair⟩

/-- Parallel refreshes with one token are benign when the late ones find the winner's entry. -/
theorem parallel_refresh_benign (settings : AuthnSettings) (P : Presentation) (store : AuthnStore)
    (hstore : P.Ready settings store) (moves : AuthnMoves)
    (hmoves : (authnMachine settings).Along (P.presenting P.LateFind) ⟨⟨store, []⟩, []⟩ moves) :
    P.Benign settings (authnRun settings store moves) := by
  have hrotation : (rotation settings).Good ⟨⟨store, []⟩, []⟩ :=
    Outline.Good.init hstore.reached.inv rfl
  have hinit : (parallelRefresh settings P).Good ⟨⟨store, []⟩, []⟩ :=
    Outline.Good.init hstore.inv rfl
  have hgood : (parallelRefresh settings P).Good (authnRun settings store moves) :=
    (hinit.run (hrotation.along_given (Machine.along_free _ moves) hmoves)).1
  have hinv : ParallelInv P (authnRun settings store moves).world := hgood.inv
  constructor
  case ok =>
    intro i refreshToken result hhash hrefreshed
    have hanswered := answered_of_refreshed hgood hhash hrefreshed
    cases result with
    | error error => cases hanswered
    | ok pair => exact ⟨pair, rfl⟩
  case active =>
    obtain ⟨family, hfamily, hactive, _⟩ := hinv.family
    exact ⟨family, hfamily, hactive⟩
  case same =>
    intro i i' text text' pair pair' hhash hhash' hrefreshed hrefreshed'
    obtain ⟨event, hevent, stored, hstored, htext⟩ := answered_of_refreshed hgood hhash hrefreshed
    obtain ⟨event', hevent', stored', hstored', htext'⟩ :=
      answered_of_refreshed hgood hhash' hrefreshed'
    rw [← htext, ← htext']
    exact hinv.onePut event hevent event' hevent' stored hstored stored' hstored'

/-! ### Runs -/

instance (P : Presentation) (i : Nat) (w : AuthnWorld) : Decidable (P.Presents i w) :=
  inferInstanceAs (Decidable (_ = true))

instance (P : Presentation) (store : AuthnStore) (op : AuthnOp) :
    Decidable (P.Elsewhere store op) := by
  induction op using AuthnOp.casesOn <;> first
    | exact .isTrue trivial
    | exact inferInstanceAs (Decidable (_ ≠ _))
    | exact inferInstanceAs (Decidable (_ ∧ _))

instance (P : Presentation) (i : Nat) (op : AuthnOp) (w : AuthnWorld) :
    Decidable (P.LosersFind i op w) := by
  induction op using AuthnOp.casesOn <;> first
    | exact .isTrue trivial
    | exact inferInstanceAs (Decidable (_ → _ → _))

instance (P : Presentation) (i : Nat) (op : AuthnOp) (w : AuthnWorld) :
    Decidable (P.LateFind i op w) := by
  induction op using AuthnOp.casesOn <;> first
    | exact .isTrue trivial
    | exact inferInstanceAs (Decidable (_ → _ → _))

instance (P : Presentation) (ask : Nat → AuthnOp → AuthnWorld → Prop)
    [∀ i op w, Decidable (ask i op w)] (i : Nat) (op : AuthnOp) (w : AuthnWorld) :
    Decidable ((P.presenting ask).ask i op w) :=
  inferInstanceAs (Decidable (_ ∧ _ ∧ _))

instance (P : Presentation) (ask : Nat → AuthnOp → AuthnWorld → Prop) (c : AuthnCommand)
    (w : AuthnWorld) : Decidable ((P.presenting ask).start c w) :=
  inferInstanceAs (Decidable True)

instance (P : Presentation) (ask : Nat → AuthnOp → AuthnWorld → Prop) (e : AuthnEvent)
    (w : AuthnWorld) : Decidable ((P.presenting ask).event e w) :=
  match e with
  | .clock nowMs => inferInstanceAs (Decidable ((_ ∧ _) ∧
    ∀ entry ∈ w.state.graceCache.get P.token.tokenHash, nowMs < entry.expiresMs))
  | .redis _ => inferInstanceAs (Decidable (_ = true))

/-- Ann is logged in. -/
def annLoggedIn : AuthnStore := (authnRun annSettings annAuthnStore annLogin).world.state

/-- The token, the family and the session of Ann's login. -/
def annPresentation : Presentation where
  token := ⟨"t1", ⟨"f1"⟩, "raw1", 1, .active, 900000, 1210500000, none⟩
  family := ⟨⟨"f1"⟩, ⟨"ann"⟩, ⟨"s1"⟩, .active, 900000, none, none⟩
  session := ⟨⟨"s1"⟩, ⟨"ann"⟩, none, 1, 900000, .active, none, none, none, 900000, 900000,
    1210500000, none⟩

theorem annPresentation_ready : annPresentation.Ready annSettings annLoggedIn where
  reached := ⟨annAuthnStore, annLogin, ⟨rfl, rfl, rfl, rfl⟩, rfl⟩
  token := by decide +kernel
  tokenActive := rfl
  family := by decide +kernel
  familyActive := rfl
  session := by decide +kernel
  sessionActive := rfl
  redis := by decide +kernel
  unexpired := ⟨by decide +kernel, by decide +kernel⟩

/-- Two refreshes read Ann's token before either rotates it. -/
def annRefreshAtOnce : AuthnMoves :=
  .start (.refresh "raw1" ⟨"t2", "j2", "raw2"⟩) :: .start (.refresh "raw1" ⟨"t3", "j3", "raw3"⟩) ::
    (List.replicate 7 [.run 0, .run 1]).flatten ++ List.replicate 10 (.run 0) ++
      List.replicate 10 (.run 1)

/-- The second refresh reads Ann's token after the first has rotated it, and looks into the cache
    before the first has stored its entry. -/
def annRefreshLate : AuthnMoves :=
  .start (.refresh "raw1" ⟨"t2", "j2", "raw2"⟩) :: List.replicate 9 (.run 0) ++
    .start (.refresh "raw1" ⟨"t3", "j3", "raw3"⟩) :: List.replicate 9 (.run 1) ++
      List.replicate 2 (.run 0)

theorem parallel_refresh_benign_annRefreshAtOnce :
    annPresentation.Benign annSettings (authnRun annSettings annLoggedIn annRefreshAtOnce) :=
  parallel_refresh_benign annSettings annPresentation annLoggedIn annPresentation_ready
    annRefreshAtOnce (by decide +kernel)

/-- The late refresh finds no entry, and revokes the family. -/
theorem late_refresh_revokes : annPresentation.Ready annSettings annLoggedIn ∧
    (authnMachine annSettings).Along (annPresentation.presenting fun _ _ _ => True)
      ⟨⟨annLoggedIn, []⟩, []⟩ annRefreshLate ∧
    ¬ annPresentation.Benign annSettings (authnRun annSettings annLoggedIn annRefreshLate) := by
  refine ⟨annPresentation_ready, by decide +kernel, fun hbenign => ?_⟩
  exact absurd hbenign.active (by decide +kernel)

end AccessCore
