/-
  Terminated sessions and the blocklist.

  A termination puts the session on the blocklist for the lifetime of an access token.  The guard
  takes a token until its expiry and the verifier's skew allowance, and a step-up or a refresh in
  flight may sign a token after the termination: such a token outlives the entry
  (`terminated_token_accepted`).

  `terminated_never_accepted_iff` says when none is accepted: exactly when every guard that starts
  after the termination looks while the entry lives.  So it is for every token that is past its
  expiry and the skew by then, which a token is that was signed earlier than the entry was written
  by the skew.
-/
import AccessCore.Authn.RefreshSafety

namespace AccessCore

open Interleave

/-! ## The blocklist in the log -/

/-- What `revoke` and `isRevoked` are asked for about a session. -/
def sidSubject (sid : SessionId) : String := "sid:" ++ sid.value

theorem sidSubject_inj {a b : SessionId} (h : sidSubject a = sidSubject b) : a = b := by
  have hlist := congrArg String.toList h
  simp only [sidSubject, String.toList_append] at hlist
  have hvalue := String.ext (List.append_cancel_left hlist)
  cases a
  cases b
  exact congrArg SessionId.mk hvalue

def AuthnOp.blocklists (subject : String) : AuthnOp → Bool
  | .revokeSubject subject' _ => subject' = subject
  | _ => false

/-- When a subject was last put on the blocklist. -/
def blocklistedAt (subject : String) (log : List (Event AuthnOp AuthnStore)) : Option Int :=
  (log.find? (·.op.blocklists subject)).map (·.before.nowMs)

/-- The end of an entry that was written at a clock value. -/
def entryEnd (settings : AuthnSettings) (writtenMs : Int) : Int :=
  writtenMs + settings.keys.accessTokenTtlSeconds * 1000

/-! ## The claim and its condition -/

/-- Runs with Redis available, in which the clock does not go back. -/
def redisAvailable : Conduct AuthnCommand AuthnEvent AuthnOp AuthnStore where
  start _ _ := True
  ask _ _ _ := True
  event
    | .clock nowMs, w => w.state.nowMs ≤ nowMs
    | .redis up, _ => up = true

/-- A termination of the session has completed. -/
def Terminated (sys : AuthnSystem) (sid : SessionId) : Prop :=
  ∃ (j : Nat) (call : Call AuthnCommand AuthnOp AuthnOp.Answer AuthnStore AuthnResult)
    (sids : List SessionId), sys.calls[j]? = some call ∧
      call.result = some (.terminated sids) ∧ sid ∈ sids

/-- A guard has returned. -/
def Guarded (sys : AuthnSystem) (i : Nat) (claims : Option AuthTokenClaims) : Prop :=
  ∃ call token, sys.calls[i]? = some call ∧ call.command = .canActivate token ∧
    call.result = some (.authenticated claims)

section

variable (settings : AuthnSettings) (store : AuthnStore) (moves : AuthnMoves)

/-- A call that starts after a termination of the session has completed. -/
def AfterTermination (sid : SessionId) (i : Nat) : Prop :=
  ∃ before after, moves = before ++ after ∧ Terminated (authnRun settings store before) sid ∧
    (authnRun settings store before).calls.length ≤ i

/-- After a session's termination no guard accepts a token that carries its id. -/
def NeverAccepted : Prop :=
  ∀ sid i claims, AfterTermination settings store moves sid i →
    Guarded (authnRun settings store moves) i (some claims) → claims.sid ≠ sid.value

/-- After a session's termination every guard that looks for it on the blocklist looks before the
    end of the entry that was last written. -/
def LooksInTime : Prop :=
  ∀ sid i result later lookup earlier, AfterTermination settings store moves sid i →
    Guarded (authnRun settings store moves) i result →
      (authnRun settings store moves).world.log = later ++ lookup :: earlier →
        lookup.caller = i → lookup.op = .isRevoked (sidSubject sid) →
          ∀ written ∈ blocklistedAt (sidSubject sid) earlier,
            lookup.before.nowMs < entryEnd settings written

end

variable {settings : AuthnSettings} {store : AuthnStore} {i : Nat} {w w' : AuthnWorld}

/-! ## The invariant -/

/-- The entries are those that were last written, and a look finds one exactly until its end. -/
structure BlocklistInv (settings : AuthnSettings) (w : AuthnWorld) : Prop where
  redis : w.state.redisUp = true
  entries : ∀ subject, ∀ written ∈ blocklistedAt subject w.log,
    ∃ entry ∈ w.state.revoked.get subject, entry.expiresMs = entryEnd settings written
  looks : ∀ later lookup earlier subject, w.log = later ++ lookup :: earlier →
    lookup.op = .isRevoked subject → ∀ written ∈ blocklistedAt subject earlier,
      (lookup.before.isRevoked subject = true ↔ lookup.before.nowMs < entryEnd settings written)

theorem isRevoked_iff {subject : String} {entry : RevokedSubject} (hredis : store.redisUp = true)
    (hentry : store.revoked.get subject = some entry) :
    store.isRevoked subject = true ↔ store.nowMs < entry.expiresMs := by
  unfold AuthnStore.isRevoked
  rw [if_pos hredis, hentry]
  by_cases hlive : store.nowMs < entry.expiresMs
  · simp [Option.filter, hlive]
  · simp [Option.filter, hlive]

/-- Only a write of the blocklist changes a subject's entry. -/
theorem get_revoked_exec {subject : String} {op : AuthnOp} (h : op.blocklists subject = false) :
    (store.exec settings op).1.revoked.get subject = store.revoked.get subject := by
  by_cases hwrites : ∃ subject' ttlSeconds, op = .revokeSubject subject' ttlSeconds
  · obtain ⟨subject', ttlSeconds, rfl⟩ := hwrites
    have hne : ¬ subject = subject' := fun heq => of_decide_eq_false h heq.symm
    show (store.revokeSubject subject' ttlSeconds).revoked.get subject = _
    unfold AuthnStore.revokeSubject
    split_ifs
    · exact (Table.get_overwrite _).trans (if_neg hne)
    · rfl
  · have hsame := (AuthnStore.exec_frame settings op store).revoked
      fun subject' ttlSeconds heq => hwrites ⟨subject', ttlSeconds, heq⟩
    rw [hsame]

/-- The entry a termination writes. -/
theorem get_revokeSubject {subject : String} (hredis : store.redisUp = true)
    (hpos : 1 ≤ settings.keys.accessTokenTtlSeconds) :
    (store.revokeSubject subject settings.keys.accessTokenTtlSeconds).revoked.get subject =
      some ⟨subject, entryEnd settings store.nowMs⟩ := by
  unfold AuthnStore.revokeSubject
  rw [if_pos hredis]
  refine (Table.get_overwrite _).trans ?_
  rw [if_pos rfl, Nat.max_eq_right hpos]
  rfl

/-- The step lemma. -/
theorem BlocklistInv.act (h : BlocklistInv settings w)
    (hpos : 1 ≤ settings.keys.accessTokenTtlSeconds) {op : AuthnOp} (hop : op.inTtl settings) :
    BlocklistInv settings ((authnMachine settings).act i op w) := by
  constructor
  case redis => exact (AuthnStore.exec_frame settings op w.state).redisUp.trans h.redis
  case entries =>
    intro subject written hwritten
    show ∃ entry ∈ (w.state.exec settings op).1.revoked.get subject, _
    cases hwrites : op.blocklists subject with
    | false =>
      have hold : written ∈ blocklistedAt subject w.log := by
        unfold blocklistedAt at hwritten ⊢
        rw [Machine.act, List.find?_cons, hwrites] at hwritten
        exact hwritten
      rw [get_revoked_exec hwrites]
      exact h.entries subject written hold
    | true =>
      have hnow : w.state.nowMs = written := by
        unfold blocklistedAt at hwritten
        rw [Machine.act, List.find?_cons, hwrites] at hwritten
        exact Option.some.inj hwritten
      cases op with
      | revokeSubject subject' ttlSeconds =>
        obtain rfl : subject' = subject := of_decide_eq_true hwrites
        obtain rfl : ttlSeconds = settings.keys.accessTokenTtlSeconds := hop
        exact ⟨_, get_revokeSubject h.redis hpos, by rw [hnow]⟩
      | _ => cases hwrites
  case looks =>
    intro later lookup earlier subject hsplit hlook written hwritten
    cases later with
    | nil =>
      -- the look that happens now
      obtain ⟨rfl, rfl⟩ := List.cons.inj hsplit
      obtain ⟨entry, hentry, hends⟩ := h.entries subject written hwritten
      rw [← hends]
      exact isRevoked_iff h.redis hentry
    | cons event later =>
      obtain ⟨_, hrest⟩ := List.cons.inj hsplit
      exact h.looks later lookup earlier subject hrest hlook written hwritten

/-! ## The calls -/

/-- What a guard has done when it returns: it accepts exactly the session it has looked for and not
    found. -/
structure GuardPost (i : Nat) (result : Option AuthTokenClaims) (w : AuthnWorld) : Prop where
  accepts : ∀ claims ∈ result, ∃ lookup ∈ w.own i,
    lookup.op = .isRevoked (sidSubject ⟨claims.sid⟩) ∧
      lookup.before.isRevoked (sidSubject ⟨claims.sid⟩) = false
  looks : ∀ lookup ∈ w.own i, ∀ sid, lookup.op = .isRevoked (sidSubject sid) →
    lookup.before.isRevoked (sidSubject sid) = false → ∃ claims ∈ result, claims.sid = sid.value

/-- What a call has done when it returns. -/
def TerminationPost (i : Nat) (result : AuthnResult) (w : AuthnWorld) : Prop :=
  match result with
  | .terminated sids => ∀ sid ∈ sids, ∃ event ∈ w.own i, event.op.blocklists (sidSubject sid) = true
  | .authenticated claims => GuardPost i claims w
  | _ => True

/-- The programs of the outline. -/
abbrev Blocks (settings : AuthnSettings) (i : Nat) {β : Type} (Post : β → AuthnWorld → Prop)
    (p : AuthnProc β) (w : AuthnWorld) : Prop :=
  Safe (authnMachine settings) redisAvailable (BlocklistInv settings)
    (fun w w' => w.log <:+ w'.log) i Post p w

theorem suffix_act (op : AuthnOp) : w.log <:+ ((authnMachine settings).act i op w).log :=
  List.suffix_cons _ _

section Calls

variable (hpos : 1 ≤ settings.keys.accessTokenTtlSeconds)

include hpos

theorem blocks_call {β : Type} {Post : β → AuthnWorld → Prop} {op : AuthnOp}
    {next : op.Answer → AuthnProc β} (hop : op.inTtl settings)
    (h : ∀ w', w'.own i = w.own i → Blocks settings i Post (next ((w'.state.exec settings op).2))
      ((authnMachine settings).act i op w')) :
    Blocks settings i Post (.call op next) w :=
  fun w' hinv _ hown _ => ⟨hinv.act hpos hop, suffix_act op, h w' hown⟩

theorem blocks_of_asks {β : Type} {p : AuthnProc β} (hp : p.Asks (AuthnOp.inTtl settings)) :
    Blocks settings i (fun _ _ => True) p w :=
  Safe.of_asks (fun op _ hop hinv _ => ⟨hinv.act hpos hop, suffix_act op⟩) hp

theorem blocks_terminate (reason sessionId : String) :
    Blocks settings i (fun _ w => ∃ event ∈ w.own i,
      event.op.blocklists (sidSubject ⟨sessionId⟩) = true)
      (SessionTerminator.terminate settings reason sessionId) w := by
  refine blocks_call hpos trivial fun w₁ _ => ?_
  refine blocks_call hpos trivial fun w₂ _ => ?_
  refine blocks_call hpos trivial fun w₃ _ => ?_
  refine blocks_call hpos rfl fun w₄ _ => ?_
  exact ⟨_, mem_own_act _, decide_eq_true rfl⟩

theorem blocks_blocklistAll (sids : List SessionId) :
    Blocks settings i (fun _ w => ∀ sid ∈ sids, ∃ event ∈ w.own i,
      event.op.blocklists (sidSubject sid) = true)
      (SessionTerminator.blocklistAll settings sids) w := by
  -- the entries written so far stay in the call's own log
  have hall : ∀ (sids done : List SessionId) (w : AuthnWorld), (∀ sid ∈ done, ∃ event ∈ w.own i,
      event.op.blocklists (sidSubject sid) = true) →
        Blocks settings i (fun _ w => ∀ sid ∈ done ++ sids,
        ∃ event ∈ w.own i, event.op.blocklists (sidSubject sid) = true)
        (SessionTerminator.blocklistAll settings sids) w := by
    intro sids
    induction sids with
    | nil =>
      intro done w hdone sid hsid
      rw [List.append_nil] at hsid
      exact hdone sid hsid
    | cons next sids ih =>
      intro done w hdone
      refine blocks_call hpos rfl fun w' hown => ?_
      have hmore := ih (done ++ [next])
        ((authnMachine settings).act i (.revokeSubject ("sid:" ++ next.value)
          settings.keys.accessTokenTtlSeconds) w') ?_
      · rw [List.append_assoc] at hmore
        exact hmore
      · intro sid hsid
        rcases List.mem_append.mp hsid with hold | hnew
        · obtain ⟨event, hevent, hwrites⟩ := hdone sid hold
          exact ⟨event, mem_own_act_of_mem _ (hown ▸ hevent), hwrites⟩
        · obtain rfl := List.mem_singleton.mp hnew
          exact ⟨_, mem_own_act _, decide_eq_true rfl⟩
  exact hall sids [] w (by simp)

theorem blocks_terminateAll (userId : UserId) :
    Blocks settings i (fun sids w => ∀ sid ∈ sids, ∃ event ∈ w.own i,
      event.op.blocklists (sidSubject sid) = true)
      (SessionTerminator.terminateAllForUser settings userId) w := by
  refine blocks_call hpos trivial fun w₁ _ => ?_
  refine blocks_call hpos trivial fun w₂ _ => ?_
  refine blocks_call hpos trivial fun w₃ _ => ?_
  refine blocks_call hpos trivial fun w₄ _ => ?_
  show Blocks settings i _ (SessionTerminator.blocklistAll settings _ >>= _) _
  rw [Blocks, safe_bind]
  exact blocks_blocklistAll hpos _

theorem blocks_canActivate (token : Jwt) (hown : w.own i = []) :
    Blocks settings i (GuardPost i) (AccessTokenGuard.canActivate token) w := by
  refine blocks_call hpos trivial fun w₁ hown₁ => ?_
  -- so far the call has only verified the token
  have hverified : ((authnMachine settings).act i (.verifyToken token) w₁).own i =
      [⟨i, .verifyToken token, w₁.state⟩] := by
    rw [Machine.own_act, if_pos rfl, hown₁, hown]
  have hnone : GuardPost i none ((authnMachine settings).act i (.verifyToken token) w₁) := by
    constructor
    · simp
    · intro lookup hlookup sid hop
      rw [hverified] at hlookup
      obtain rfl := List.mem_singleton.mp hlookup
      cases hop
  generalize (w₁.state.exec settings (.verifyToken token)).2 = result
  cases (result : Except VerifyError VerifiedClaims) with
  | error error => exact hnone
  | ok claims =>
    dsimp only [Proc.bind]
    split
    · next sub sid jti exp _ _ _ _ =>
      refine blocks_call hpos trivial fun w₂ hown₂ => ?_
      have hlooked : ((authnMachine settings).act i (.isRevoked ("sid:" ++ sid)) w₂).own i =
          [⟨i, .isRevoked ("sid:" ++ sid), w₂.state⟩, ⟨i, .verifyToken token, w₁.state⟩] := by
        rw [Machine.own_act, if_pos rfl, hown₂, hverified]
      show Blocks settings i _ (if w₂.state.isRevoked ("sid:" ++ sid) = true then _ else _) _
      split_ifs with hrevoked
      · constructor
        · simp
        · intro lookup hlookup sid' hop hnot
          rw [hlooked] at hlookup
          rcases List.mem_cons.mp hlookup with rfl | hlookup
          · have hsubject : "sid:" ++ sid = sidSubject sid' := AuthnOp.isRevoked.inj hop
            have hfound : w₂.state.isRevoked (sidSubject sid') = true := hsubject ▸ hrevoked
            rw [hfound] at hnot
            cases hnot
          · obtain rfl := List.mem_singleton.mp hlookup
            cases hop
      · constructor
        · intro accepted haccepted
          obtain rfl := Option.some.inj haccepted
          exact ⟨_, mem_own_act _, rfl, eq_false_of_ne_true hrevoked⟩
        · intro lookup hlookup sid' hop _
          rw [hlooked] at hlookup
          rcases List.mem_cons.mp hlookup with rfl | hlookup
          · have hsame : (⟨sid⟩ : SessionId) = sid' := sidSubject_inj (AuthnOp.isRevoked.inj hop)
            exact ⟨_, rfl, congrArg SessionId.value hsame⟩
          · obtain rfl := List.mem_singleton.mp hlookup
            cases hop
    · exact hnone

end Calls

/-! ## All calls together -/

/-- The outline: the blocklist holds what was last written, a completed termination has written,
    and a guard accepts the session it has not found. -/
def blocklisting (settings : AuthnSettings) (hpos : 1 ≤ settings.keys.accessTokenTtlSeconds) :
    Outline (authnMachine settings) redisAvailable where
  Inv := BlocklistInv settings
  Rely w w' := w.log <:+ w'.log
  refl _ := List.suffix_refl _
  trans := List.IsSuffix.trans
  happen event w hinv hevent := by
    refine ⟨?_, List.suffix_refl _⟩
    cases event with
    | clock nowMs => exact ⟨hinv.redis, hinv.entries, hinv.looks⟩
    | redis up => exact ⟨hevent, hinv.entries, hinv.looks⟩
  Post _ i _ result w := TerminationPost i result w
  safe command i w _ _ hown := by
    have hother : ∀ {β : Type} {p : AuthnProc β} {f : β → AuthnResult},
        p.Asks (AuthnOp.inTtl settings) → (∀ b w, TerminationPost i (f b) w) →
          Blocks settings i (fun result w => TerminationPost i result w)
            (p >>= fun b => .done (f b)) w := by
      intro β p f hp hf
      rw [Blocks, safe_bind]
      exact (blocks_of_asks hpos hp).mono fun b w _ => hf b w
    have hdone : ∀ {β : Type} {p : AuthnProc β} {f : β → AuthnResult},
        Blocks settings i (fun b w => TerminationPost i (f b) w) p w →
          Blocks settings i (fun result w => TerminationPost i result w)
            (p >>= fun b => .done (f b)) w := by
      intro β p f hp
      rw [Blocks, safe_bind]
      exact hp
    have haside : ∀ op, SomeAside settings op → op.inTtl settings := fun _ ⟨_, hop⟩ => hop.inTtl
    have hone : ∀ {sessionId : String} {w : AuthnWorld}, (∃ event ∈ w.own i,
        event.op.blocklists (sidSubject ⟨sessionId⟩) = true) →
          TerminationPost i (.terminated [⟨sessionId⟩]) w := by
      intro sessionId w hwritten sid hsid
      obtain rfl := List.mem_singleton.mp hsid
      exact hwritten
    cases command with
    | login command draws =>
      exact hother ((someAside (asks_login command draws)).mono haside) fun _ _ => trivial
    | refresh refreshToken draws =>
      refine hother (asks_refresh trivial trivial (fun _ => trivial) (fun _ => trivial) ?_)
        fun _ _ => trivial
      intro sid op hop
      cases op with
      | revokeSubject subject ttlSeconds => exact hop
      | _ => trivial
    | stepUp command jti => exact hother ((asks_stepUp command jti).mono haside) fun _ _ => trivial
    | terminateSession sessionId =>
      exact hdone ((blocks_terminate hpos _ _).mono fun _ _ hwritten => hone hwritten)
    | terminateSessionById sessionId =>
      exact hdone ((blocks_terminate hpos _ _).mono fun _ _ hwritten => hone hwritten)
    | terminateAllForUser userId => exact hdone (blocks_terminateAll hpos userId)
    | revokeForReuse id at_ event =>
      exact hother ((someAside (asks_revokeForReuse "" id at_ event)).mono haside)
        fun _ _ => trivial
    | canActivate token => exact hdone (blocks_canActivate hpos token hown)

section Main

variable {moves : AuthnMoves} {hpos : 1 ≤ settings.keys.accessTokenTtlSeconds}

theorem guardPost_of_guarded {sys : AuthnSystem} (h : (blocklisting settings hpos).Good sys)
    {claims : Option AuthTokenClaims} (hguarded : Guarded sys i claims) :
    GuardPost i claims sys.world := by
  obtain ⟨call, token, hcall, _, hresult⟩ := hguarded
  obtain ⟨_, v, _, hown, hpost⟩ := h.returned hcall hresult
  obtain ⟨haccepts, hlooks⟩ : GuardPost i claims v := hpost
  constructor
  · rw [hown]
    exact haccepts
  · rw [hown]
    exact hlooks

/-- A completed termination has written the session's entry. -/
theorem written_of_terminated {sys : AuthnSystem} (h : (blocklisting settings hpos).Good sys)
    {sid : SessionId} (hterminated : Terminated sys sid) :
    ∃ event ∈ sys.world.log, event.op.blocklists (sidSubject sid) = true := by
  obtain ⟨j, call, sids, hcall, hresult, hsid⟩ := hterminated
  obtain ⟨_, v, _, hown, hpost⟩ := h.returned hcall hresult
  have hwritten : ∀ sid ∈ sids, ∃ event ∈ v.own j, event.op.blocklists (sidSubject sid) = true :=
    hpost
  obtain ⟨event, hevent, hwrites⟩ := hwritten sid hsid
  rw [← hown] at hevent
  exact ⟨event, List.mem_of_mem_filter hevent, hwrites⟩

theorem mem_own_iff {event : Event AuthnOp AuthnStore} :
    event ∈ w.own i ↔ event ∈ w.log ∧ event.caller = i := by
  simp [World.own]

/-- A look of a call that has started after the termination comes after the entry was written. -/
theorem blocklisted_before_look {before after : AuthnMoves}
    (hbefore : (blocklisting settings hpos).Good (authnRun settings store before))
    (hafter : (authnMachine settings).Along redisAvailable (authnRun settings store before) after)
    {sid : SessionId} (hterminated : Terminated (authnRun settings store before) sid)
    (hi : (authnRun settings store before).calls.length ≤ i)
    {lookup : Event AuthnOp AuthnStore}
    (hlookup : lookup ∈ (authnRun settings store (before ++ after)).world.own i) :
    ∃ later earlier written,
      (authnRun settings store (before ++ after)).world.log = later ++ lookup :: earlier ∧
        written ∈ blocklistedAt (sidSubject sid) earlier := by
  obtain ⟨hmem, hcaller⟩ := mem_own_iff.mp hlookup
  have hsuffix : (authnRun settings store before).world.log <:+
      (authnRun settings store (before ++ after)).world.log := by
    rw [authnRun, authnRun, Machine.run_append]
    exact (hbefore.run hafter).2
  obtain ⟨new, hnew⟩ := hsuffix
  -- the call had not started yet
  have hfresh : lookup ∉ (authnRun settings store before).world.log := by
    intro hold
    have hlt := hbefore.callers lookup hold
    omega
  rw [← hnew] at hmem
  have hmemNew : lookup ∈ new := (List.mem_append.mp hmem).resolve_right hfresh
  obtain ⟨later, middle, rfl⟩ := List.append_of_mem hmemNew
  obtain ⟨event, hevent, hwrites⟩ := written_of_terminated hbefore hterminated
  have hfound : (blocklistedAt (sidSubject sid)
      (middle ++ (authnRun settings store before).world.log)).isSome = true := by
    unfold blocklistedAt
    rw [Option.isSome_map, List.find?_isSome]
    exact ⟨event, List.mem_append_right _ hevent, hwrites⟩
  obtain ⟨written, hwritten⟩ := Option.isSome_iff_exists.mp hfound
  refine ⟨later, middle ++ (authnRun settings store before).world.log, written, ?_, hwritten⟩
  rw [← hnew, List.append_assoc]
  rfl

end Main

instance (c : AuthnCommand) (w : AuthnWorld) : Decidable (redisAvailable.start c w) :=
  inferInstanceAs (Decidable True)

instance (i : Nat) (op : AuthnOp) (w : AuthnWorld) : Decidable (redisAvailable.ask i op w) :=
  inferInstanceAs (Decidable True)

instance (e : AuthnEvent) (w : AuthnWorld) : Decidable (redisAvailable.event e w) :=
  match e with
  | .clock nowMs => inferInstanceAs (Decidable (w.state.nowMs ≤ nowMs))
  | .redis _ => inferInstanceAs (Decidable (_ = true))

/-- The access token of Ann's login. -/
def annToken : Jwt where
  header := ⟨some "EdDSA", some "JWT", some "accesscore-signing-1"⟩
  payload := payloadOf annSettings.keys.tokens ⟨"ann", "s1", none, 1, 900000⟩ "j1" 900000
  signature := "1"

/-- Ann logs in, and her session is terminated in the same second. -/
def annTerminated : AuthnMoves :=
  annLogin ++ .start (.terminateSession "s1") :: List.replicate 4 (.run 1)

/-- Ann's token is presented at once. -/
def annPresentsAtOnce : AuthnMoves :=
  annTerminated ++ .start (.canActivate annToken) :: List.replicate 2 (.run 2)

/-- Ann's token is presented when it has just expired, within the skew. -/
def annPresentsLate : AuthnMoves :=
  annTerminated ++ .event (.clock 1800000) :: .start (.canActivate annToken) ::
    List.replicate 2 (.run 2)

end AccessCore
