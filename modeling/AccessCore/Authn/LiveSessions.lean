/-
  Access tokens and the sessions they are issued for.

  A login signs for the session it is about to create, a refresh for a session it has found active
  and not expired.  A step-up finds its session active too, but does not look at its expiry, and
  does not look at what its own conditional update says: it signs for a session that was revoked or
  has expired since (`step_up_after_termination`).

  `issued_live` is for the runs in which every step-up elevates a live session.  What carries it is
  what a call has done itself: the last operation of a call on its session is in its own log, and
  later operations of other kinds leave it the last.
-/
import AccessCore.Authn.RefreshSafety

namespace AccessCore

open Interleave

/-! ## What a call has done -/

/-- An operation that reads, creates or conditionally updates a session's row. -/
def AuthnOp.onSession (sid : SessionId) : AuthnOp → Bool
  | .findSession id => id = sid
  | .createLogin session _ _ => session.id = sid
  | .elevate id _ _ => id = sid
  | _ => false

def AuthnOp.isNow : AuthnOp → Bool
  | .now => true
  | _ => false

/-- The token an event has signed. -/
def signedToken (settings : AuthnSettings) (event : Event AuthnOp AuthnStore) : Option Jwt :=
  match event.op with
  | .key (.sign input version) =>
    ((settings.keys.exec (.sign input version)
        { event.before.keys with nowMs := event.before.nowMs }).2 : Option Signature).map
      fun signature => ⟨input.1, input.2, signature.value⟩
  | _ => none

/-- The access token a call returns. -/
def AuthnResult.accessToken : AuthnResult → Option Jwt
  | .login (.ok result) => some result.accessToken
  | .refresh (.ok result) => some result.accessToken
  | .stepUp (.ok result) => some result.accessToken
  | _ => none

section

variable (settings : AuthnSettings) (i : Nat) (sid : SessionId) (w : AuthnWorld)

/-- The clock value of a call. -/
def clockOf : Option Int := ((w.own i).find? (·.op.isNow)).map (·.before.nowMs)

/-- The session's row as the call's last operation on it left it. -/
def lastRow : Option Session :=
  ((w.own i).find? (·.op.onSession sid)).bind fun event =>
    (event.before.exec settings event.op).1.sessions.get sid

/-- At that operation the session was active, and had not expired at the call's clock value. -/
def LiveAtLast : Prop :=
  ∃ nowMs row, clockOf i w = some nowMs ∧ lastRow settings i sid w = some row ∧
    row.status = .active ∧ nowMs < row.expiresAt

/-- All tokens a call has signed are for a session. -/
def SignedFor : Prop :=
  ∀ event ∈ w.own i, ∀ token, signedToken settings event = some token →
    token.payload.sid = some sid.value

end

/-- Whenever a call has returned an access token it has signed itself, the token's session was
    live when the call last read, created or conditionally updated it. -/
def IssuedLive (settings : AuthnSettings) (sys : AuthnSystem) : Prop :=
  ∀ i call result token, sys.calls[i]? = some call → call.result = some result →
    result.accessToken = some token →
      (∃ event ∈ sys.world.own i, signedToken settings event = some token) →
        ∃ sid, token.payload.sid = some sid.value ∧ LiveAtLast settings i sid sys.world

/-- Runs in which a step-up elevates sessions only that are still active and have not expired at
    the clock value it has read. -/
def elevatingLive : Conduct AuthnCommand AuthnEvent AuthnOp AuthnStore where
  start _ _ := True
  ask
    | _, .elevate id _ authTime, w =>
      ∃ row ∈ w.state.sessions.get id, row.status = .active ∧ authTime < row.expiresAt
    | _, _, _ => True
  event _ _ := True

variable {settings : AuthnSettings} {i : Nat} {sid : SessionId} {w w' : AuthnWorld}

theorem clockOf_act (op : AuthnOp) : clockOf i ((authnMachine settings).act i op w) =
    if op.isNow then some w.state.nowMs else clockOf i w := by
  unfold clockOf
  rw [Machine.own_act, if_pos rfl, List.find?_cons]
  cases op.isNow <;> rfl

theorem lastRow_act (op : AuthnOp) : lastRow settings i sid ((authnMachine settings).act i op w) =
    if op.onSession sid then (w.state.exec settings op).1.sessions.get sid
    else lastRow settings i sid w := by
  unfold lastRow
  rw [Machine.own_act, if_pos rfl, List.find?_cons]
  cases op.onSession sid <;> rfl

theorem clockOf_of_own (hown : w'.own i = w.own i) : clockOf i w' = clockOf i w := by
  unfold clockOf
  rw [hown]

theorem LiveAtLast.of_own (h : LiveAtLast settings i sid w) (hown : w'.own i = w.own i) :
    LiveAtLast settings i sid w' := by
  unfold LiveAtLast clockOf lastRow at h ⊢
  rw [hown]
  exact h

/-- An operation that is neither on the session nor a look at the clock leaves the last one. -/
theorem LiveAtLast.act (h : LiveAtLast settings i sid w) {op : AuthnOp}
    (hsession : op.onSession sid = false) (hnow : op.isNow = false) :
    LiveAtLast settings i sid ((authnMachine settings).act i op w) := by
  obtain ⟨nowMs, row, hclock, hrow, hlive⟩ := h
  refine ⟨nowMs, row, ?_, ?_, hlive⟩
  · rw [clockOf_act, hnow]
    exact hclock
  · rw [lastRow_act, hsession]
    exact hrow

theorem SignedFor.of_own (h : SignedFor settings i sid w) (hown : w'.own i = w.own i) :
    SignedFor settings i sid w' := by
  unfold SignedFor at h ⊢
  rw [hown]
  exact h

theorem signedFor_of_nil (h : w.own i = []) : SignedFor settings i sid w := by
  intro event hevent
  rw [h] at hevent
  cases hevent

theorem SignedFor.act (h : SignedFor settings i sid w) {op : AuthnOp}
    (hop : op.signsFor sid.value) :
    SignedFor settings i sid ((authnMachine settings).act i op w) := by
  intro event hevent token htoken
  rw [Machine.own_act, if_pos rfl] at hevent
  rcases List.mem_cons.mp hevent with rfl | hevent
  · unfold signedToken at htoken
    split at htoken
    · next input version hsign =>
      obtain rfl : op = .key (.sign input version) := hsign
      obtain ⟨signature, _, rfl⟩ := Option.map_eq_some_iff.mp htoken
      exact hop
    · cases htoken
  · exact h event hevent token htoken

/-! ## The handlers -/

/-- What holds of a call when it returns a result. -/
def IssuedPost (settings : AuthnSettings) (i : Nat) (result : AuthnResult)
    (w : AuthnWorld) : Prop :=
  ∃ sid, SignedFor settings i sid w ∧
    (result.accessToken ≠ none → LiveAtLast settings i sid w)

/-- The programs of the outline: nothing is asked of the world, only of what a call does. -/
abbrev Issues (settings : AuthnSettings) (i : Nat) {β : Type} (Post : β → AuthnWorld → Prop)
    (p : AuthnProc β) (w : AuthnWorld) : Prop :=
  Safe (authnMachine settings) elevatingLive (fun _ => True) (fun _ _ => True) i Post p w

theorem issues_call {β : Type} {Post : β → AuthnWorld → Prop} {op : AuthnOp}
    {next : op.Answer → AuthnProc β}
    (h : ∀ w', w'.own i = w.own i → elevatingLive.ask i op w' →
      Issues settings i Post (next ((w'.state.exec settings op).2))
        ((authnMachine settings).act i op w')) :
    Issues settings i Post (.call op next) w :=
  fun w' _ _ hown hask => ⟨trivial, trivial, h w' hown hask⟩

/-- A part of a program that signs for the session only. -/
theorem issues_signing {β γ : Type} {Post : γ → AuthnWorld → Prop} {p : AuthnProc β}
    {next : β → AuthnProc γ} (hp : p.Asks (·.signsFor sid.value))
    (h : SignedFor settings i sid w)
    (hnext : ∀ b w', SignedFor settings i sid w' → Issues settings i Post (next b) w') :
    Issues settings i Post (p >>= next) w := by
  rw [Issues, safe_bind]
  refine Safe.mono hnext (Safe.keeping ?_ ?_ hp h)
  · exact fun w w' hsigned _ _ hown => hsigned.of_own hown
  · exact fun op w hop _ hsigned _ => ⟨trivial, trivial, hsigned.act hop⟩

/-- A part of a program that also leaves the session and the clock alone. -/
theorem issues_aside {β : Type} {p : AuthnProc β} {Keep : AuthnWorld → Prop}
    (hp : p.Asks fun op => op.signsFor sid.value ∧ op.onSession sid = false ∧ op.isNow = false)
    (hown : ∀ w w' : AuthnWorld, Keep w → w'.own i = w.own i → Keep w')
    (hact : ∀ (w : AuthnWorld) (op : AuthnOp), Keep w → op.onSession sid = false →
      op.isNow = false → Keep ((authnMachine settings).act i op w))
    (h : SignedFor settings i sid w) (hkeep : Keep w) :
    Issues settings i (fun _ w => SignedFor settings i sid w ∧ Keep w) p w := by
  refine Safe.keeping ?_ ?_ hp ⟨h, hkeep⟩
  · exact fun w w' hw _ _ hsame => ⟨hw.1.of_own hsame, hown w w' hw.2 hsame⟩
  · exact fun op w hop _ hw _ =>
      ⟨trivial, trivial, hw.1.act hop.1, hact w op hw.2 hop.2.1 hop.2.2⟩

/-- An issuer signs for the session, and leaves its row and the call's clock alone. -/
theorem asks_issue_aside {claims : AccessTokenClaims} {jti : String}
    (hsid : claims.sid = sid.value) : (AccessTokens.issue settings claims jti).Asks fun op =>
      op.signsFor sid.value ∧ op.onSession sid = false ∧ op.isNow = false :=
  asks_issue_of (fun _ hop => ⟨hop, rfl, rfl⟩) hsid

/-! ### Login -/

/-- A login that is stored has created its session. -/
theorem get_createLogin {store : AuthnStore} {session : Session} {family : TokenFamily}
    {token : RefreshToken} (h : (store.createLogin session family token).2 = true) :
    (store.createLogin session family token).1.sessions.get session.id = some session := by
  unfold AuthnStore.createLogin at h ⊢
  split_ifs at h ⊢ with hfree
  · exact AuthnStore.get_insertRow hfree.1

theorem issues_open {command : LoginCommand} {draws : LoginDraws} {check : CredentialCheck}
    (h : SignedFor settings i draws.sessionId w) :
    Issues settings i (fun result => IssuedPost settings i (.login result))
      (LoginHandler.open_ settings command draws check) w := by
  refine issues_call fun w₁ hown₁ _ => ?_
  have hsigned₁ : SignedFor settings i draws.sessionId ((authnMachine settings).act i .now w₁) :=
    (h.of_own hown₁).act trivial
  have hclock₁ : clockOf i ((authnMachine settings).act i .now w₁) = some w₁.state.nowMs :=
    clockOf_act _
  refine issues_call fun w₂ hown₂ _ => ?_
  have hclock₂ : clockOf i ((authnMachine settings).act i
      (.firstActiveMembership check.userId) w₂) =
      some w₁.state.nowMs := by
    rw [clockOf_act, ← hclock₁]
    exact clockOf_of_own hown₂
  show Issues settings i _ (AccessTokens.issue settings _ _ >>= _) _
  rw [Issues, safe_bind]
  refine Safe.mono ?_ (issues_aside (asks_issue_aside rfl)
    (fun w w' hclock hown => (clockOf_of_own hown).trans hclock)
    (fun w op hclock _ hnow => by rw [clockOf_act, hnow]; exact hclock)
    ((hsigned₁.of_own hown₂).act trivial) hclock₂)
  rintro access w ⟨hsigned, hclock⟩
  refine issues_call fun w₃ hown₃ _ => ?_
  show Issues settings i _ (if (w₃.state.createLogin _ _ _).2 = true then _ else _) _
  split_ifs with hcreated
  · refine ⟨draws.sessionId, (hsigned.of_own hown₃).act trivial, fun _ => ?_⟩
    have hrow := get_createLogin hcreated
    refine ⟨w₁.state.nowMs, _, ?_,
      (lastRow_act _).trans ((if_pos (decide_eq_true rfl)).trans hrow), rfl, ?_⟩
    · rw [clockOf_act]
      exact (clockOf_of_own hown₃).trans hclock
    · -- the session has just begun, and lives for some time
      have hpos := settings.refreshTtl_pos
      show w₁.state.nowMs < w₁.state.nowMs + settings.refreshTtlSeconds * 1000
      omega
  · trivial

theorem issues_login {command : LoginCommand} {draws : LoginDraws} (hown : w.own i = []) :
    Issues settings i (fun result => IssuedPost settings i (.login result))
      (LoginHandler.execute settings command draws) w := by
  have herror : ∀ {w : AuthnWorld} (error : LoginError), SignedFor settings i draws.sessionId w →
      IssuedPost settings i (.login (.error error)) w :=
    fun error hsigned => ⟨draws.sessionId, hsigned, fun hne => absurd rfl hne⟩
  have hsigns : ∀ {β : Type} {p : AuthnProc β},
      p.Asks (Aside settings draws.sessionId.value) → p.Asks (·.signsFor draws.sessionId.value) :=
    fun hp => hp.mono fun _ hop => hop.signsFor
  unfold LoginHandler.execute
  refine issues_signing (hsigns (asks_isLockedKey _ _)) (signedFor_of_nil hown)
    fun lockedByAccount w hsigned => ?_
  refine issues_signing (hsigns (asks_isLockedKey _ _)) hsigned fun lockedByIp w hsigned => ?_
  by_cases hlocked : (lockedByAccount || lockedByIp) = true
  · rw [if_pos hlocked]
    exact herror .locked hsigned
  rw [if_neg hlocked]
  refine issues_signing (hsigns (asks_verifyCredentials _ _)) hsigned fun check w hsigned => ?_
  cases check with
  | none =>
    refine issues_signing (hsigns (asks_whenKey _ (asks_registerFailure _))) hsigned
      fun _ w hsigned => ?_
    refine issues_signing (hsigns (asks_whenKey _ (asks_registerFailure _))) hsigned
      fun _ w hsigned => ?_
    exact herror .invalidCredentials hsigned
  | some check =>
    refine issues_signing (hsigns (asks_whenKey _ asks_reset)) hsigned fun _ w hsigned => ?_
    refine issues_signing (hsigns (asks_whenKey _ asks_reset)) hsigned fun _ w hsigned => ?_
    exact issues_open hsigned

/-! ### Refresh -/

/-- A refresh that has read the clock and signed nothing. -/
structure Reading (settings : AuthnSettings) (i : Nat) (nowMs : Int) (w : AuthnWorld) : Prop where
  signed : ∀ sid, SignedFor settings i sid w
  clock : clockOf i w = some nowMs

theorem Reading.next {nowMs : Int} (h : Reading settings i nowMs w) (hown : w'.own i = w.own i)
    (op : AuthnOp) (hsigns : ∀ sid, op.signsFor sid) (hnow : op.isNow = false) :
    Reading settings i nowMs ((authnMachine settings).act i op w') where
  signed sid := ((h.signed sid).of_own hown).act (hsigns sid.value)
  clock := by
    rw [clockOf_act, hnow]
    exact (clockOf_of_own hown).trans h.clock

theorem issues_refresh {draws : RefreshDraws} {refreshToken : String} (hown : w.own i = []) :
    Issues settings i (fun result => IssuedPost settings i (.refresh result))
      (RefreshHandler.execute settings draws refreshToken) w := by
  have hinvalid : ∀ {nowMs : Int} {w : AuthnWorld}, Reading settings i nowMs w →
      IssuedPost settings i (.refresh (.error .invalid)) w :=
    fun hreading => ⟨⟨""⟩, hreading.signed ⟨""⟩, fun hne => absurd rfl hne⟩
  refine issues_call fun w₁ hown₁ _ => ?_
  have hreading₁ : Reading settings i w₁.state.nowMs ((authnMachine settings).act i .now w₁) :=
    ⟨fun sid => ((signedFor_of_nil hown).of_own hown₁).act trivial, clockOf_act _⟩
  refine issues_call fun w₂ hown₂ _ => ?_
  have hreading₂ := hreading₁.next hown₂ (.findToken (settings.sha256 refreshToken))
    (fun _ => trivial) rfl
  generalize (w₂.state.exec settings (.findToken (settings.sha256 refreshToken))).2 = token
  cases (token : Option RefreshToken) with
  | none => exact hinvalid hreading₂
  | some token =>
    show Issues settings i _ (if token.expiresAt ≤ w₁.state.nowMs then _ else _) _
    split_ifs
    · exact hinvalid hreading₂
    refine issues_call fun w₃ hown₃ _ => ?_
    have hreading₃ := hreading₂.next hown₃ (.findFamily token.familyId) (fun _ => trivial) rfl
    generalize (w₃.state.exec settings (.findFamily token.familyId)).2 = family
    cases (family : Option TokenFamily) with
    | none => exact hinvalid hreading₃
    | some family =>
      show Issues settings i _ (if family.status ≠ .active then _ else _) _
      split_ifs
      · exact hinvalid hreading₃
      refine issues_call fun w₄ hown₄ _ => ?_
      have hreading₄ := hreading₃.next hown₄ (.findSession family.sessionId) (fun _ => trivial) rfl
      generalize hsession : (w₄.state.exec settings (.findSession family.sessionId)).2 = session
      cases (session : Option Session) with
      | none => exact hinvalid hreading₄
      | some session =>
        replace hsession : w₄.state.sessions.get family.sessionId = some session := hsession
        show Issues settings i _
          (if session.status ≠ .active || session.expiresAt ≤ w₁.state.nowMs then _ else _) _
        split_ifs with hdead
        · exact hinvalid hreading₄
        -- the session is found live, and nothing reads or updates it from here on
        have hlive : session.status = .active ∧ w₁.state.nowMs < session.expiresAt := by
          simpa [not_or] using hdead
        have hid : session.id = family.sessionId := (Table.mem_of_get hsession).2
        have hlast : LiveAtLast settings i session.id ((authnMachine settings).act i
            (.findSession family.sessionId) w₄) := by
          refine ⟨w₁.state.nowMs, session, hreading₄.clock, ?_, hlive⟩
          rw [lastRow_act, hid]
          exact (if_pos (decide_eq_true rfl)).trans hsession
        have hexchange : (RefreshHandler.exchange settings draws token family session
            (settings.sha256 refreshToken) w₁.state.nowMs).Asks fun op =>
              op.signsFor session.id.value ∧ op.onSession session.id = false ∧
                op.isNow = false := by
          refine asks_exchange.mono fun op hop => ?_
          cases op with
          | key op => exact ⟨hop, rfl, rfl⟩
          | now | findSession _ | createLogin _ _ _ | elevate _ _ _ => cases hop
          | _ => exact ⟨trivial, rfl, rfl⟩
        refine Safe.mono ?_ (issues_aside hexchange (fun w w' hlast hown => hlast.of_own hown)
          (fun w op hlast hop hnow => hlast.act hop hnow) (hreading₄.signed session.id) hlast)
        exact fun _ _ hdone => ⟨session.id, hdone.1, fun _ => hdone.2⟩

/-! ### Step-up -/

theorem issues_elevate {command : StepUpCommand} {jti : String} {session : Session}
    (h : SignedFor settings i session.id w) :
    Issues settings i (fun result => IssuedPost settings i (.stepUp result))
      (StepUpHandler.elevate settings command jti session) w := by
  refine issues_call fun w₁ hown₁ _ => ?_
  have hsigned₁ : SignedFor settings i session.id ((authnMachine settings).act i .now w₁) :=
    (h.of_own hown₁).act trivial
  have hclock₁ : clockOf i ((authnMachine settings).act i .now w₁) = some w₁.state.nowMs :=
    clockOf_act _
  refine issues_call fun w₂ hown₂ hask => ?_
  obtain ⟨row, hrow, hactive, hexpires⟩ := hask
  have hlast : LiveAtLast settings i session.id ((authnMachine settings).act i
      (.elevate session.id StepUpHandler.stepUpAal w₁.state.nowMs) w₂) := by
    refine ⟨w₁.state.nowMs, row.elevate StepUpHandler.stepUpAal w₁.state.nowMs, ?_, ?_, hactive,
      hexpires⟩
    · rw [clockOf_act, ← hclock₁]
      exact clockOf_of_own hown₂
    · rw [lastRow_act]
      refine (if_pos (decide_eq_true rfl)).trans ?_
      have hid : row.id = session.id := (Table.mem_of_get hrow).2
      refine (Table.get_update (Session.elevate_id StepUpHandler.stepUpAal
        w₁.state.nowMs) _).trans ?_
      rw [Option.mem_def.mp hrow]
      simp [hid, hactive]
  refine Safe.mono ?_ (issues_aside ?_ (fun w w' hlast hown => hlast.of_own hown)
    (fun w op hlast hop hnow => hlast.act hop hnow) ((hsigned₁.of_own hown₂).act trivial) hlast)
  · exact fun _ _ hdone => ⟨session.id, hdone.1, fun _ => hdone.2⟩
  · show Proc.Asks _ (AccessTokens.issue settings _ _ >>= _)
    refine Proc.asks_bind (fun token => ?_) (asks_issue_aside rfl)
    exact ⟨⟨trivial, rfl, rfl⟩, fun _ => trivial⟩

theorem issues_stepUp {command : StepUpCommand} {jti : String} (hown : w.own i = []) :
    Issues settings i (fun result => IssuedPost settings i (.stepUp result))
      (StepUpHandler.execute settings command jti) w := by
  have herror : ∀ {sid : SessionId} {w : AuthnWorld} (error : StepUpError),
      SignedFor settings i sid w → IssuedPost settings i (.stepUp (.error error)) w :=
    fun error hsigned => ⟨_, hsigned, fun hne => absurd rfl hne⟩
  refine issues_call fun w₁ hown₁ _ => ?_
  have hsigned₁ : ∀ sid, SignedFor settings i sid ((authnMachine settings).act i
      (.findSession ⟨command.sessionId⟩) w₁) :=
    fun sid => ((signedFor_of_nil hown).of_own hown₁).act trivial
  generalize (w₁.state.exec settings (.findSession ⟨command.sessionId⟩)).2 = session
  cases (session : Option Session) with
  | none => exact herror .invalidSession (hsigned₁ ⟨""⟩)
  | some session =>
    have hidentity : ∀ {α : Type} (p : IdentityProc α),
        (AuthnProc.ofIdentity p).Asks (·.signsFor session.id.value) :=
      fun p => Proc.asks_via (fun _ _ => trivial) (Proc.asks_trivial p)
    show Issues settings i _
      (if session.status ≠ .active || session.userId.value ≠ command.userId then _ else _) _
    split_ifs
    · exact herror .invalidSession (hsigned₁ session.id)
    refine issues_signing (p := Lockout.isLocked _ _) ⟨trivial, fun _ => trivial⟩
      (hsigned₁ session.id) fun locked w hsigned => ?_
    cases locked with
    | true => exact herror .locked hsigned
    | false =>
      refine issues_signing (hidentity _) hsigned fun verified w hsigned => ?_
      show Issues settings i _ (if (!verified) = true then _ else _) w
      split_ifs
      · refine issues_signing (p := Lockout.registerFailure _ _) ⟨trivial, fun _ => trivial⟩ hsigned
          fun _ w hsigned => ?_
        refine issues_signing (hidentity _) hsigned fun _ w hsigned => ?_
        exact herror .invalidFactor hsigned
      · refine issues_signing (p := Lockout.reset _) ⟨trivial, fun _ => trivial⟩ hsigned
          fun _ w hsigned => ?_
        exact issues_elevate hsigned

/-! ## All calls together -/

theorem IssuedPost.of_own {result : AuthnResult} (h : IssuedPost settings i result w)
    (hown : w'.own i = w.own i) : IssuedPost settings i result w' := by
  obtain ⟨sid, hsigned, hlive⟩ := h
  exact ⟨sid, hsigned.of_own hown, fun hne => (hlive hne).of_own hown⟩

/-- The outline: a call that returns a token it has signed has seen its session live. -/
def issuing (settings : AuthnSettings) : Outline (authnMachine settings) elevatingLive where
  Inv _ := True
  Rely _ _ := True
  refl _ := trivial
  trans _ _ := trivial
  happen _ _ _ _ := ⟨trivial, trivial⟩
  Post _ i _ result w := result.accessToken ≠ none → IssuedPost settings i result w
  safe command i w _ _ hown := by
    have hsilent : ∀ {β : Type} (p : AuthnProc β) {f : β → AuthnResult},
        (∀ b, (f b).accessToken = none) → Issues settings i
          (fun result w => result.accessToken ≠ none → IssuedPost settings i result w)
          (p >>= fun b => .done (f b)) w := by
      intro β p f hf
      rw [Issues, safe_bind]
      exact (safe_trivial p w).mono fun b _ _ hne => absurd (hf b) hne
    have hissues : ∀ {β : Type} {p : AuthnProc β} {f : β → AuthnResult},
        Issues settings i (fun b => IssuedPost settings i (f b)) p w → Issues settings i
          (fun result w => result.accessToken ≠ none → IssuedPost settings i result w)
          (p >>= fun b => .done (f b)) w := by
      intro β p f hp
      rw [Issues, safe_bind]
      exact hp.mono fun b w' hpost => show _ → _ from fun _ => hpost
    cases command with
    | login command draws => exact hissues (issues_login hown)
    | refresh refreshToken draws => exact hissues (issues_refresh hown)
    | stepUp command jti => exact hissues (issues_stepUp hown)
    | terminateSession sessionId => exact hsilent _ fun _ => rfl
    | terminateSessionById sessionId => exact hsilent _ fun _ => rfl
    | terminateAllForUser userId => exact hsilent _ fun _ => rfl
    | revokeForReuse id at_ event => exact hsilent _ fun _ => rfl
    | canActivate token => exact hsilent _ fun _ => rfl

/-- Access tokens are issued for live sessions only, in every run whose step-ups elevate live
    sessions. -/
theorem issued_live (settings : AuthnSettings) (store : AuthnStore) (moves : AuthnMoves)
    (hmoves : (authnMachine settings).Along elevatingLive ⟨⟨store, []⟩, []⟩ moves) :
    IssuedLive settings (authnRun settings store moves) := by
  have hinit : (issuing settings).Good ⟨⟨store, []⟩, []⟩ := Outline.Good.init trivial rfl
  have hgood : (issuing settings).Good (authnRun settings store moves) := (hinit.run hmoves).1
  rintro i call result token hcall hresult htoken ⟨event, hevent, hsigned⟩
  obtain ⟨_, v, _, hown, hpost⟩ := hgood.returned hcall hresult
  have hreturns : result.accessToken ≠ none := by simp [htoken]
  obtain ⟨sid, hsignedFor, hlive⟩ := IssuedPost.of_own (hpost hreturns) hown
  exact ⟨sid, hsignedFor event hevent token hsigned, hlive hreturns⟩

/-! ### Runs -/

instance (c : AuthnCommand) (w : AuthnWorld) : Decidable (elevatingLive.start c w) :=
  inferInstanceAs (Decidable True)

instance (i : Nat) (op : AuthnOp) (w : AuthnWorld) : Decidable (elevatingLive.ask i op w) := by
  unfold elevatingLive
  cases op <;> infer_instance

instance (e : AuthnEvent) (w : AuthnWorld) : Decidable (elevatingLive.event e w) :=
  inferInstanceAs (Decidable True)

/-- Ann logs in and steps up. -/
def annStepUp : AuthnMoves :=
  annLogin ++ .start (.stepUp ⟨"s1", "ann", .totp "000000"⟩ "j2") :: List.replicate 14 (.run 1)

/-- Ann's session is terminated while she steps up, after her second factor is checked. -/
def annStepUpTerminated : AuthnMoves :=
  annLogin ++ .start (.stepUp ⟨"s1", "ann", .totp "000000"⟩ "j2") :: List.replicate 7 (.run 1) ++
    .start (.terminateSession "s1") :: List.replicate 4 (.run 2) ++ List.replicate 7 (.run 1)

theorem issued_live_annStepUp :
    IssuedLive annSettings (authnRun annSettings annAuthnStore annStepUp) :=
  issued_live annSettings annAuthnStore annStepUp (by decide +kernel)

/-- The step-up signs a token for a session that is revoked when it elevates it. -/
theorem step_up_after_termination :
    ¬ IssuedLive annSettings (authnRun annSettings annAuthnStore annStepUpTerminated) := by
  intro hlive
  obtain ⟨sid, hsid, nowMs, row, _, hrow, hactive, _⟩ := hlive 1 _ _ _ rfl rfl rfl
    ⟨_, List.mem_cons_of_mem _ (List.mem_cons_self ..), rfl⟩
  have hsession : sid = ⟨"s1"⟩ := congrArg SessionId.mk (Option.some.inj hsid).symm
  have hrevoked : (lastRow annSettings 1 ⟨"s1"⟩
      (authnRun annSettings annAuthnStore annStepUpTerminated).world).map (·.status) =
        some .revoked := by decide +kernel
  rw [hsession] at hrow
  rw [hrow, Option.map_some, hactive] at hrevoked
  cases hrevoked

end AccessCore
