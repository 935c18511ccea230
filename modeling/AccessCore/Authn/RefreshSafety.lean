/-
  What the authn calls return, under every interleaving.

  A call knows the rows it has read: they are still there, with the same family and generation.
  That is enough for a refresh to keep the chains of `Authn.Rotation`, and to say at its end what
  it has done: it made the successor it returns, or it returns a pair whose token was the active
  one when it looked, or it has left the family revoked.  A family that is revoked when a refresh
  starts is not one whose token it exchanges.
-/
import AccessCore.Authn.Asks
import AccessCore.Identity.MfaRaces

namespace AccessCore

open Interleave

/-! ## What a refresh has done -/

variable (settings : AuthnSettings)

/-- The call has rotated the presented token and returns the text of its successor. -/
def Created (hash : String) (i : Nat) (result : RefreshResult) (w : AuthnWorld) : Prop :=
  ∃ event ∈ w.own i, ∃ presentedId successor at_, event.op = .rotate presentedId successor at_ ∧
    rotatedToken event = some presentedId ∧
    (∃ token ∈ w.state.refreshTokens.get presentedId,
      token.tokenHash = hash ∧ successor.familyId = token.familyId) ∧
    successor.tokenHash = settings.sha256 result.refreshToken

/-- The call returns a stored pair, and has seen its token as the active one of the family. -/
def Replayed (hash : String) (i : Nat) (result : RefreshResult) (w : AuthnWorld) : Prop :=
  ∃ read ∈ w.own i, ∃ look ∈ w.own i, ∃ pair active familyId,
    read.op = .graceGet hash ∧ read.before.graceGet hash = some pair ∧
    result = ⟨pair.accessToken, pair.refreshToken, pair.expiresIn⟩ ∧
    look.op = .findActiveToken familyId ∧ look.before.findActiveToken familyId = some active ∧
    active.generation = pair.successorGeneration ∧
    active.tokenHash = settings.sha256 result.refreshToken ∧
    ∃ token ∈ w.state.refreshTokens.rows, token.tokenHash = hash ∧ token.familyId = familyId

/-- The family of the token with a hash was not revoked in an earlier world. -/
def LiveIn (started : AuthnWorld) (hash : String) (w : AuthnWorld) : Prop :=
  ∃ token ∈ w.state.refreshTokens.rows, token.tokenHash = hash ∧
    ∀ family ∈ started.state.tokenFamilies.get token.familyId, family.status = .active

/-- The family of the token with a hash is revoked. -/
def FamilyRevoked (hash : String) (w : AuthnWorld) : Prop :=
  ∃ token ∈ w.state.refreshTokens.rows, token.tokenHash = hash ∧
    ∃ family ∈ w.state.tokenFamilies.get token.familyId, family.status ≠ .active

/-- What a refresh has done when it returns. -/
def RefreshPost (hash : String) (i : Nat) (started : AuthnWorld) :
    Except RefreshError RefreshResult → AuthnWorld → Prop
  | .ok result, w => (Created settings hash i result w ∨ Replayed settings hash i result w) ∧
      LiveIn started hash w
  | .error .reuse, w => FamilyRevoked hash w
  | .error .invalid, _ => True

/-! ## What a call knows -/

/-- The row of a token that was read before. -/
def Known (token : RefreshToken) (w : AuthnWorld) : Prop :=
  ∃ row ∈ w.state.refreshTokens.get token.id, token.Later row

variable {settings} {i : Nat} {hash : String} {token : RefreshToken} {w w' : AuthnWorld}

theorem Known.later (h : Known token w) (hlater : w.state.Later w'.state) : Known token w' := by
  obtain ⟨row, hrow, hsame⟩ := h
  obtain ⟨row', hrow', hsame'⟩ := hlater.refreshTokens _ row hrow
  exact ⟨row', hrow', hsame.trans hsame'⟩

theorem known_of_mem (h : token ∈ w.state.refreshTokens.rows) : Known token w :=
  ⟨token, Table.get_of_mem h, .refl token⟩

theorem Known.mem (h : Known token w) : ∃ row ∈ w.state.refreshTokens.rows, row.id = token.id ∧
    row.tokenHash = token.tokenHash ∧ row.familyId = token.familyId ∧
      row.generation = token.generation := by
  obtain ⟨row, hrow, hsame⟩ := h
  obtain ⟨hmem, hid⟩ := Table.mem_of_get hrow
  exact ⟨row, hmem, hid, hsame.tokenHash, hsame.familyId, hsame.generation⟩

theorem act_later (op : AuthnOp) :
    w.state.Later ((authnMachine settings).act i op w).state :=
  AuthnStore.exec_later settings op w.state

theorem mem_own_act (op : AuthnOp) :
    (⟨i, op, w.state⟩ : Event AuthnOp AuthnStore) ∈ ((authnMachine settings).act i op w).own i := by
  rw [Machine.own_act, if_pos rfl]
  exact List.mem_cons_self ..

theorem mem_own_act_of_mem {event : Event AuthnOp AuthnStore} (op : AuthnOp)
    (h : event ∈ w.own i) : event ∈ ((authnMachine settings).act i op w).own i := by
  rw [Machine.own_act, if_pos rfl]
  exact List.mem_cons_of_mem _ h

/-- The programs of the rotation outline: their operations keep the invariant, and they end in
    their postcondition. -/
abbrev Rotates (settings : AuthnSettings) (i : Nat) {β : Type} (Post : β → AuthnWorld → Prop)
    (p : AuthnProc β) (w : AuthnWorld) : Prop :=
  Safe (authnMachine settings) Conduct.free (RotationInv settings)
    (fun w w' => w.state.Later w'.state) i Post p w

/-- One operation of such a program, from what is known before it. -/
theorem rotates_call {β : Type} {Post : β → AuthnWorld → Prop} {op : AuthnOp}
    {next : op.Answer → AuthnProc β}
    (h : ∀ w', RotationInv settings w' → w.state.Later w'.state → w'.own i = w.own i →
      w'.state.SoundOp settings op ∧ Rotates settings i Post
        (next ((w'.state.exec settings op).2)) ((authnMachine settings).act i op w')) :
    Rotates settings i Post (.call op next) w := by
  intro w' hinv hlater hown _
  obtain ⟨hsound, hnext⟩ := h w' hinv hlater hown
  exact ⟨hinv.act hsound, act_later op, hnext⟩

/-- The issuer works on the signing keys only. -/
theorem rotates_issue {β : Type} {Post : β → AuthnWorld → Prop} {claims : AccessTokenClaims}
    {jti : String} {next : IssuedAccessToken → AuthnProc β} {Keep : AuthnWorld → Prop}
    (hkeep : ∀ w w', Keep w → w.state.Later w'.state → Keep w') (h : Keep w)
    (hnext : ∀ access w', Keep w' → Rotates settings i Post (next access) w') :
    Rotates settings i Post (AccessTokens.issue settings claims jti >>= next) w := by
  have hissue : Rotates settings i (fun _ w => Keep w)
      (AccessTokens.issue settings claims jti) w := by
    refine Safe.keeping (fun w w' hw _ hlater _ => hkeep w w' hw hlater) ?_ (asks_issue rfl) h
    intro op w hop hinv hw _
    exact ⟨hinv.act (hop.harmless w.state), act_later _, hkeep _ _ hw (act_later _)⟩
  rw [Rotates, safe_bind]
  exact hissue.mono fun access w' hw' => hnext access w' hw'

/-! ## The steps of a refresh -/

/-- What a refresh that has tried to exchange its token knows. -/
def Exchanged (settings : AuthnSettings) (hash : String) (i : Nat) (token : RefreshToken) :
    Option RefreshResult → AuthnWorld → Prop
  | none, w => Known token w
  | some result, w => Known token w ∧
      (Created settings hash i result w ∨ Replayed settings hash i result w)

/-- The token of a stored pair is the one of its generation in the family. -/
theorem active_of_cached (hinv : RotationInv settings w) (hinv' : RotationInv settings w')
    (hlater : w.state.Later w'.state) (hknown : Known token w') (hhash : token.tokenHash = hash)
    {cached : GracePair} (hcached : w.state.graceGet hash = some cached) {active : RefreshToken}
    (hactive : w'.state.findActiveToken token.familyId = some active)
    (hgeneration : active.generation = cached.successorGeneration) :
    active.tokenHash = settings.sha256 cached.refreshToken := by
  obtain ⟨entry, hentry, rfl⟩ := AuthnStore.mem_of_graceGet hcached
  obtain ⟨presented, hpresented, successor, hsuccessor, hpresentedHash, hfamily, _,
      hnumber, htext⟩ :=
    (hinv.chained.grace hash entry hentry).later hlater
  obtain ⟨row, hrow, _, hrowHash, hrowFamily, _⟩ := hknown.mem
  obtain ⟨hmem, hactiveFamily, _⟩ := AuthnStore.mem_of_findActiveToken hactive
  have hsame : presented = row := hinv'.chained.eq_of_hash hpresented hrow
    (hpresentedHash.trans (hhash.symm.trans hrowHash.symm))
  have heq : active = successor := by
    refine hinv'.chained.eq_of_generation hmem hsuccessor ?_ (hgeneration.trans hnumber)
    rw [hactiveFamily, hfamily, hsame, hrowFamily]
  rw [heq]
  exact htext

theorem rotates_replay (hhash : token.tokenHash = hash) (attempts : Nat)
    (hknown : Known token w) : Rotates settings i (Exchanged settings hash i token)
      (RefreshHandler.replayFromGrace token hash attempts) w := by
  induction attempts generalizing w with
  | zero => exact hknown
  | succ attempts ih =>
    refine rotates_call fun w₁ hinv₁ hlater₁ _ => ⟨trivial, ?_⟩
    have hknown₁ := hknown.later hlater₁
    generalize hcached : (w₁.state.exec settings (.graceGet hash)).2 = cached
    cases (cached : Option GracePair) with
    | none => exact ih (hknown₁.later (act_later _))
    | some cached =>
      refine rotates_call fun w₂ hinv₂ hlater₂ hown₂ => ⟨trivial, ?_⟩
      have hlater : w₁.state.Later w₂.state := (act_later _).trans hlater₂
      have hknown₂ := hknown₁.later hlater
      generalize hactive : (w₂.state.exec settings (.findActiveToken token.familyId)).2 = active
      cases (active : Option RefreshToken) with
      | none => exact hknown₂.later (act_later _)
      | some active =>
        show Rotates settings i _
          (if active.generation = cached.successorGeneration then _ else _) _
        split_ifs with hgeneration
        · have htext := active_of_cached hinv₁ hinv₂ hlater hknown₂ hhash hcached
            hactive hgeneration
          have hread : (⟨i, .graceGet hash, w₁.state⟩ : Event AuthnOp AuthnStore) ∈ w₂.own i := by
            rw [hown₂]
            exact mem_own_act _
          obtain ⟨row, hrow, _, hrowHash, hrowFamily, _⟩ := hknown₂.mem
          exact ⟨hknown₂.later (act_later _), Or.inr ⟨_, mem_own_act_of_mem _ hread, _,
            mem_own_act _, cached, active, token.familyId, rfl, hcached, rfl, rfl, hactive,
            hgeneration, htext, row, hrow, hrowHash.trans hhash, hrowFamily⟩⟩
        · exact hknown₂.later (act_later _)

/-- The call has rotated a token. -/
def Won (i : Nat) (token successor : RefreshToken) (w : AuthnWorld) : Prop :=
  ∃ event ∈ w.own i, ∃ at_, event.op = .rotate token.id successor at_ ∧
    rotatedToken event = some token.id

theorem Won.of_own {successor : RefreshToken} (hwon : Won i token successor w)
    (hown : w'.own i = w.own i) : Won i token successor w' := by
  obtain ⟨event, hevent, hrotated⟩ := hwon
  exact ⟨event, hown ▸ hevent, hrotated⟩

theorem Won.act {successor : RefreshToken} (hwon : Won i token successor w) (op : AuthnOp) :
    Won i token successor ((authnMachine settings).act i op w) := by
  obtain ⟨event, hevent, hrotated⟩ := hwon
  exact ⟨event, mem_own_act_of_mem op hevent, hrotated⟩

theorem Won.created {successor : RefreshToken} (hwon : Won i token successor w)
    (hknown : Known token w)
    (hhash : token.tokenHash = hash) (hfamily : successor.familyId = token.familyId)
    {result : RefreshResult} (htext : successor.tokenHash = settings.sha256 result.refreshToken) :
    Created settings hash i result w := by
  obtain ⟨event, hevent, at_, hop, hrotated⟩ := hwon
  obtain ⟨row, hrow, hsame⟩ := hknown
  exact ⟨event, hevent, token.id, successor, at_, hop, hrotated,
    ⟨row, hrow, hsame.tokenHash.trans hhash, hfamily.trans hsame.familyId.symm⟩, htext⟩

theorem rotates_keep {draws : RefreshDraws} {session : Session} {now : Int}
    {access : IssuedAccessToken} (hhash : token.tokenHash = hash) (hknown : Known token w)
    (hsuccessor : Known (RefreshHandler.successorOf settings draws token session now) w)
    (hwon : Won i token (RefreshHandler.successorOf settings draws token session now) w) :
    Rotates settings i (Exchanged settings hash i token)
      (RefreshHandler.keep settings draws token session hash now access) w := by
  refine rotates_call fun w₁ _ hlater₁ hown₁ => ⟨trivial, ?_⟩
  refine rotates_call fun w₂ _ hlater₂ hown₂ => ?_
  have hlater : w.state.Later w₂.state := hlater₁.trans ((act_later _).trans hlater₂)
  constructor
  · -- both rows are still there
    obtain ⟨row, hrow, _, hrowHash, hrowFamily, hrowGeneration⟩ := (hknown.later hlater).mem
    obtain ⟨row', hrow', _, hrowHash', hrowFamily', hrowGeneration'⟩ :=
      (hsuccessor.later hlater).mem
    refine ⟨row, hrow, row', hrow', hrowHash.trans hhash, hrowFamily'.trans hrowFamily.symm, ?_,
      hrowGeneration'.symm, hrowHash'⟩
    rw [hrowGeneration', hrowGeneration]
    rfl
  · have hwon₂ := ((hwon.of_own hown₁).act _).of_own hown₂
    have hknown₂ := hknown.later hlater
    exact ⟨hknown₂.later (act_later _),
      Or.inl ((hwon₂.act _).created (hknown₂.later (act_later _)) hhash rfl rfl)⟩

theorem rotates_tryRotate {draws : RefreshDraws} {family : TokenFamily} {session : Session}
    {now : Int} (hhash : token.tokenHash = hash) (hknown : Known token w) :
    Rotates settings i (Exchanged settings hash i token)
      (RefreshHandler.tryRotate settings draws token family session hash now) w := by
  refine rotates_issue (fun _ _ => Known.later) hknown fun access w hknown => ?_
  refine rotates_call fun w₁ _ hlater₁ _ => ?_
  have hknown₁ := hknown.later hlater₁
  constructor
  · intro presented hpresented
    obtain ⟨row, hrow, hsame⟩ := hknown₁
    obtain rfl := Option.some.inj (hrow.symm.trans hpresented)
    exact ⟨hsame.familyId.symm, by rw [hsame.generation]; rfl⟩
  · have hafter : Known token ((authnMachine settings).act i (.rotate token.id
      (RefreshHandler.successorOf settings draws token session now) now) w₁) :=
      hknown₁.later (act_later _)
    generalize hwon : (w₁.state.exec settings (.rotate token.id
      (RefreshHandler.successorOf settings draws token session now) now)).2 = won
    cases (won : Option Bool) with
    | none => trivial
    | some won =>
      cases won with
      | false => exact rotates_replay hhash _ hafter
      | true =>
        refine rotates_keep hhash hafter ?_ ⟨_, mem_own_act _, now, rfl, if_pos hwon⟩
        exact ⟨_, (AuthnStore.rotate_won hwon).2.2, .refl _⟩

theorem FamilyRevoked.later (h : FamilyRevoked hash w) (hlater : w.state.Later w'.state) :
    FamilyRevoked hash w' := by
  obtain ⟨token, htoken, hhash, family, hfamily, hstatus⟩ := h
  obtain ⟨token', htoken', _, hsame⟩ := hlater.refreshTokens.mem htoken
  obtain ⟨family', hfamily', hsame'⟩ := hlater.tokenFamilies _ family hfamily
  refine ⟨token', htoken', hsame.tokenHash.trans hhash, family', ?_,
    fun hactive => hstatus (hsame'.active hactive)⟩
  rw [hsame.familyId]
  exact hfamily'

/-- `revokeForReuse` leaves the family revoked. -/
theorem familyRevoked_act {id : TokenFamilyId} {at_ : Int} {event : ReuseEvent}
    {found : List String} (hinv : RotationInv settings w) (hknown : Known token w)
    (hhash : token.tokenHash = hash) (hid : token.familyId = id) :
    FamilyRevoked hash ((authnMachine settings).act i (.revokeForReuse id at_ event found) w) := by
  obtain ⟨row, hrow, _, hrowHash, hrowFamily, _⟩ := hknown.mem
  obtain ⟨family, hfamily⟩ := Option.isSome_iff_exists.mp (hinv.chained.families row hrow)
  have hlater : w.state.Later ((authnMachine settings).act i
    (.revokeForReuse id at_ event found) w).state := act_later _
  obtain ⟨row', hrow', _, hsame⟩ := hlater.refreshTokens.mem hrow
  refine ⟨row', hrow', hsame.tokenHash.trans (hrowHash.trans hhash),
    family.revoke "reuse_detected" at_, ?_, fun hactive => by cases hactive⟩
  have hkey : family.id = id := (Table.mem_of_get hfamily).2.trans (hrowFamily.trans hid)
  rw [hsame.familyId]
  show (w.state.revokeFamily id at_).get row.familyId = _
  rw [AuthnStore.get_revokeFamily, hfamily]
  simp [hkey]

theorem rotates_reuse {family : TokenFamily} {session : Session} {now : Int}
    {started : AuthnWorld} (hhash : token.tokenHash = hash) (hid : token.familyId = family.id)
    (hknown : Known token w) : Rotates settings i (RefreshPost settings hash i started)
      (RefreshHandler.reuse settings token family session now) w := by
  refine rotates_call fun w₁ _ hlater₁ _ => ⟨trivial, ?_⟩
  refine rotates_call fun w₂ hinv₂ hlater₂ _ => ⟨trivial, ?_⟩
  have hknown₂ := ((hknown.later hlater₁).later (act_later _)).later hlater₂
  refine rotates_call fun w₃ _ hlater₃ _ => ⟨trivial, ?_⟩
  have hrevoked₃ := (familyRevoked_act hinv₂ hknown₂ hhash hid).later hlater₃
  refine rotates_call fun w₄ _ hlater₄ _ => ⟨trivial, ?_⟩
  exact (hrevoked₃.later ((act_later _).trans hlater₄)).later (act_later _)

theorem rotates_exchange {draws : RefreshDraws} {family : TokenFamily} {session : Session}
    {now : Int} {started : AuthnWorld} (hhash : token.tokenHash = hash)
    (hid : token.familyId = family.id) (hknown : Known token w)
    (hlive : ∀ family ∈ started.state.tokenFamilies.get token.familyId, family.status = .active) :
    Rotates settings i (RefreshPost settings hash i started)
      (RefreshHandler.exchange settings draws token family session hash now) w := by
  have hpair : Rotates settings i (Exchanged settings hash i token)
      (if token.status = .active then
        RefreshHandler.tryRotate settings draws token family session hash now
      else RefreshHandler.replayFromGrace token hash 1) w := by
    split_ifs
    · exact rotates_tryRotate hhash hknown
    · exact rotates_replay hhash 1 hknown
  rw [RefreshHandler.exchange_eq, Rotates, safe_bind]
  refine hpair.mono fun result w' hresult => ?_
  cases result with
  | none => exact rotates_reuse hhash hid hresult
  | some result =>
    obtain ⟨hknown', hdone⟩ := hresult
    obtain ⟨row, hrow, _, hrowHash, hrowFamily, _⟩ := hknown'.mem
    refine ⟨hdone, row, hrow, hrowHash.trans hhash, ?_⟩
    rw [hrowFamily]
    exact hlive

theorem rotates_refresh {draws : RefreshDraws} {refreshToken : String} :
    Rotates settings i (RefreshPost settings (settings.sha256 refreshToken) i w)
      (RefreshHandler.execute settings draws refreshToken) w := by
  refine rotates_call fun w₁ _ hlater₁ _ => ⟨trivial, ?_⟩
  refine rotates_call fun w₂ _ hlater₂ _ => ⟨trivial, ?_⟩
  generalize htoken : (w₂.state.exec settings (.findToken (settings.sha256 refreshToken))).2 = token
  cases (token : Option RefreshToken) with
  | none => trivial
  | some token =>
    obtain ⟨hmem, hhash⟩ := AuthnStore.mem_of_findToken htoken
    show Rotates settings i _ (if token.expiresAt ≤ w₁.state.nowMs then _ else _) _
    split_ifs
    · trivial
    refine rotates_call fun w₃ _ hlater₃ _ => ⟨trivial, ?_⟩
    generalize hfamily : (w₃.state.exec settings (.findFamily token.familyId)).2 = family
    cases (family : Option TokenFamily) with
    | none => trivial
    | some family =>
      replace hfamily : w₃.state.tokenFamilies.get token.familyId = some family := hfamily
      show Rotates settings i _ (if family.status ≠ .active then _ else _) _
      split_ifs with hstatus
      · trivial
      refine rotates_call fun w₄ _ hlater₄ _ => ⟨trivial, ?_⟩
      generalize (w₄.state.exec settings (.findSession family.sessionId)).2 = session
      cases (session : Option Session) with
      | none => trivial
      | some session =>
        show Rotates settings i _
          (if session.status ≠ .active || session.expiresAt ≤ w₁.state.nowMs then _ else _) _
        split_ifs
        · trivial
        have hlater : w.state.Later w₃.state :=
          hlater₁.trans ((act_later _).trans (hlater₂.trans ((act_later _).trans hlater₃)))
        have hknown : Known token w₃ := (known_of_mem hmem).later ((act_later _).trans hlater₃)
        refine rotates_exchange hhash (Table.mem_of_get hfamily).2.symm ?_ ?_
        · exact ((hknown.later (act_later _)).later hlater₄).later (act_later _)
        · -- a family revoked at the start would have been found revoked
          intro earlier hearlier
          obtain ⟨family', hfamily', hsame⟩ := hlater.tokenFamilies _ earlier hearlier
          obtain rfl := Option.some.inj (hfamily.symm.trans hfamily')
          exact hsame.active (of_not_not hstatus)

/-- A program of harmless operations. -/
theorem rotates_of_asks {β : Type} {p : AuthnProc β} (h : p.Asks (Harmless settings)) :
    Rotates settings i (fun _ _ => True) p w :=
  Safe.of_asks (fun op w hop hinv _ => ⟨hinv.act (hop w.state), act_later op⟩) h

/-! ## All calls together -/

/-- The outline: every call keeps the chains, and a refresh ends in its postcondition. -/
def rotation (settings : AuthnSettings) : Outline (authnMachine settings) Conduct.free where
  Inv := RotationInv settings
  Rely w w' := w.state.Later w'.state
  refl w := .refl w.state
  trans := AuthnStore.Later.trans
  happen event w hinv _ := by
    have hlater : w.state.Later ((authnMachine settings).event event w.state) := by
      cases event <;> exact .of_eq rfl rfl rfl
    refine ⟨⟨?_, ?_, hinv.once⟩, hlater⟩
    · cases event <;> exact hinv.chained.of_tokens hlater rfl hinv.chained.grace
    · cases event <;> exact hinv.used
  Post
    | .refresh refreshToken _, i, started, .refresh result, w =>
      RefreshPost settings (settings.sha256 refreshToken) i started result w
    | _, _, _, _, _ => True
  safe command i w _ _ _ := by
    have hother : ∀ {β : Type} {p : AuthnProc β} {f : β → AuthnResult},
        p.Asks (SomeAside settings) →
          Rotates settings i (fun _ _ => True) (p >>= fun b => .done (f b)) w :=
      fun h => rotates_of_asks (Proc.asks_bind (fun _ => by trivial)
        (h.mono fun _ ⟨_, hop⟩ => hop.harmless))
    cases command with
    | login command draws => exact hother (someAside (asks_login command draws))
    | refresh refreshToken draws =>
      show Rotates settings i _ (RefreshHandler.execute settings draws refreshToken >>= _) w
      rw [Rotates, safe_bind]
      exact rotates_refresh
    | stepUp command jti => exact hother (asks_stepUp command jti)
    | terminateSession sessionId => exact hother (someAside (asks_terminate "" _ _))
    | terminateSessionById sessionId => exact hother (someAside (asks_terminate "" _ _))
    | terminateAllForUser userId => exact hother (someAside (asks_terminateAll "" userId))
    | revokeForReuse id at_ event => exact hother (someAside (asks_revokeForReuse "" id at_ event))
    | canActivate token => exact hother (someAside (asks_canActivate "" token))

/-- A store before the first login. -/
structure AuthnStore.NoSessions (store : AuthnStore) : Prop where
  sessions : store.sessions = Table.empty
  tokenFamilies : store.tokenFamilies = Table.empty
  refreshTokens : store.refreshTokens = Table.empty
  graceCache : store.graceCache = Table.empty

theorem AuthnStore.NoSessions.inv {store : AuthnStore} (h : store.NoSessions) :
    RotationInv settings ⟨store, []⟩ where
  chained := by
    have hrows : store.refreshTokens.rows = [] := by rw [h.refreshTokens]; rfl
    have hfamily : ∀ f, store.tokensOfFamily f = [] := by
      intro f
      unfold AuthnStore.tokensOfFamily Table.select
      rw [hrows, List.filter_nil]
    constructor
    · rw [hrows]
      exact List.nodup_nil
    · simp [hrows]
    · intro f
      rw [hfamily]
      rfl
    · simp [hfamily]
    · intro hash entry hentry
      rw [h.graceCache] at hentry
      cases hentry
  used := by simp
  once := List.Pairwise.nil

/-- A refresh of a text has returned. -/
def Refreshed (sys : AuthnSystem) (i : Nat) (refreshToken : String)
    (result : Except RefreshError RefreshResult) : Prop :=
  ∃ call draws, sys.calls[i]? = some call ∧ call.command = .refresh refreshToken draws ∧
    call.result = some (.refresh result)

/-- What holds of a run that has started before the first login. -/
structure RotationSafe (settings : AuthnSettings) (sys : AuthnSystem) : Prop where
  /-- a family has one active token at most -/
  active : ∀ a ∈ sys.world.state.refreshTokens.rows, ∀ b ∈ sys.world.state.refreshTokens.rows,
    a.familyId = b.familyId → a.status = .active → b.status = .active → a = b
  /-- the generations of a family are 1, 2, …, n, one token each -/
  generations : ∀ f, ∃ n, (sys.world.state.tokensOfFamily f).map (·.generation) = List.range' 1 n
  /-- a token is rotated once at most -/
  once : ∀ id, (sys.world.log.filter fun event => rotatedToken event = some id).length ≤ 1
  /-- what a refresh returns is the successor it made, or a stored pair of the active token -/
  ok : ∀ i refreshToken result, Refreshed sys i refreshToken (.ok result) →
    Created settings (settings.sha256 refreshToken) i result sys.world ∨
      Replayed settings (settings.sha256 refreshToken) i result sys.world
  /-- a refresh that finds a reuse has left the family revoked -/
  reuse : ∀ i refreshToken, Refreshed sys i refreshToken (.error .reuse) →
    FamilyRevoked (settings.sha256 refreshToken) sys.world

/-- From a moment on at which a family is revoked, no refresh that starts returns a pair for a
    token of it. -/
def RevokedStays (settings : AuthnSettings) (store : AuthnStore) (moves : AuthnMoves) : Prop :=
  ∀ before after, moves = before ++ after →
    ∀ f, ∀ family ∈ (authnRun settings store before).world.state.tokenFamilies.get f,
      family.status = .revoked →
        ∀ i refreshToken result, (authnRun settings store before).calls.length ≤ i →
          Refreshed (authnRun settings store moves) i refreshToken (.ok result) →
            ∀ token ∈ (authnRun settings store moves).world.state.refreshTokens.rows,
              token.tokenHash = settings.sha256 refreshToken → token.familyId ≠ f

theorem Created.later {result : RefreshResult} (h : Created settings hash i result w)
    (hlater : w.state.Later w'.state) (hown : w'.own i = w.own i) :
    Created settings hash i result w' := by
  obtain ⟨event, hevent, presentedId, successor, at_, hop, hrotated,
    ⟨token, htoken, hhash, hfamily⟩,
    htext⟩ := h
  obtain ⟨token', htoken', hsame⟩ := hlater.refreshTokens _ token htoken
  exact ⟨event, hown ▸ hevent, presentedId, successor, at_, hop, hrotated,
    ⟨token', htoken', hsame.tokenHash.trans hhash, hfamily.trans hsame.familyId.symm⟩, htext⟩

theorem Replayed.later {result : RefreshResult} (h : Replayed settings hash i result w)
    (hlater : w.state.Later w'.state) (hown : w'.own i = w.own i) :
    Replayed settings hash i result w' := by
  obtain ⟨read, hread, look, hlook, pair, active, familyId, hreadOp, hcached, hresult, hlookOp,
    hactive, hgeneration, htext, token, htoken, hhash, hfamily⟩ := h
  obtain ⟨token', htoken', _, hsame⟩ := hlater.refreshTokens.mem htoken
  exact ⟨read, hown ▸ hread, look, hown ▸ hlook, pair, active, familyId, hreadOp, hcached, hresult,
    hlookOp, hactive, hgeneration, htext, token', htoken', hsame.tokenHash.trans hhash,
    hsame.familyId.trans hfamily⟩

theorem LiveIn.later {started : AuthnWorld} (h : LiveIn started hash w)
    (hlater : w.state.Later w'.state) : LiveIn started hash w' := by
  obtain ⟨token, htoken, hhash, hlive⟩ := h
  obtain ⟨token', htoken', _, hsame⟩ := hlater.refreshTokens.mem htoken
  exact ⟨token', htoken', hsame.tokenHash.trans hhash, hsame.familyId ▸ hlive⟩

theorem RefreshPost.later {started : AuthnWorld} {result : Except RefreshError RefreshResult}
    (h : RefreshPost settings hash i started result w) (hlater : w.state.Later w'.state)
    (hown : w'.own i = w.own i) : RefreshPost settings hash i started result w' := by
  cases result with
  | ok result =>
    obtain ⟨hdone, hlive⟩ := h
    refine ⟨?_, hlive.later hlater⟩
    rcases hdone with hcreated | hreplayed
    · exact Or.inl (hcreated.later hlater hown)
    · exact Or.inr (hreplayed.later hlater hown)
  | error error =>
    cases error with
    | invalid => trivial
    | reuse => exact FamilyRevoked.later h hlater

theorem refreshPost_of_returned {sys : AuthnSystem} (h : (rotation settings).Good sys)
    {call : Call AuthnCommand AuthnOp AuthnOp.Answer AuthnStore AuthnResult} {refreshToken : String}
    {draws : RefreshDraws} {result : Except RefreshError RefreshResult}
    (hcall : sys.calls[i]? = some call) (hcommand : call.command = .refresh refreshToken draws)
    (hresult : call.result = some (.refresh result)) :
    RefreshPost settings (settings.sha256 refreshToken) i call.started result sys.world := by
  obtain ⟨_, v, hv, hown, hpost⟩ := h.returned hcall hresult
  rw [hcommand] at hpost
  exact RefreshPost.later hpost hv hown

/-- Refresh rotation is safe in every run from before the first login. -/
theorem rotation_safe (settings : AuthnSettings) (store : AuthnStore) (hstore : store.NoSessions)
    (moves : AuthnMoves) : RotationSafe settings (authnRun settings store moves) ∧
      RevokedStays settings store moves := by
  have hinit : (rotation settings).Good ⟨⟨store, []⟩, []⟩ := Outline.Good.init hstore.inv rfl
  have hgood : (rotation settings).Good (authnRun settings store moves) :=
    (hinit.run (Machine.along_free _ moves)).1
  have hinv : RotationInv settings (authnRun settings store moves).world := hgood.inv
  constructor
  · constructor
    case active => exact fun a ha b hb => hinv.chained.eq_of_active ha hb
    case generations => exact fun f => ⟨_, hinv.chained.generations f⟩
    case once =>
      intro id
      -- two events that rotate one token would be a pair of the log
      have hpair := (hinv.once.filter fun event => rotatedToken event = some id)
      match hevents : (authnRun settings store moves).world.log.filter
        fun event => rotatedToken event = some id with
      | [] => exact Nat.zero_le _
      | [_] => exact le_rfl
      | later :: earlier :: events =>
        have hmem : ∀ event ∈ later :: earlier :: events, rotatedToken event = some id := by
          intro event hevent
          rw [← hevents] at hevent
          simpa using (List.mem_filter.mp hevent).2
        rw [hevents] at hpair
        have hne := List.rel_of_pairwise_cons hpair (List.mem_cons_self ..) id
          (hmem later (List.mem_cons_self ..))
        exact absurd (hmem earlier (List.mem_cons_of_mem _ (List.mem_cons_self ..))) hne
    case ok =>
      rintro i refreshToken result ⟨call, draws, hcall, hcommand, hresult⟩
      exact (refreshPost_of_returned hgood hcall hcommand hresult).1
    case reuse =>
      rintro i refreshToken ⟨call, draws, hcall, hcommand, hresult⟩
      exact refreshPost_of_returned hgood hcall hcommand hresult
  · rintro before after rfl f family hfamily hrevoked i refreshToken result hi
      ⟨call, draws, hcall, hcommand, hresult⟩ token htoken hhash rfl
    have hbefore : (rotation settings).Good (authnRun settings store before) :=
      (hinit.run (Machine.along_free _ before)).1
    have hpost := refreshPost_of_returned hgood hcall hcommand hresult
    obtain ⟨_, row, hrow, hrowHash, hlive⟩ := hpost
    obtain rfl := hinv.chained.eq_of_hash htoken hrow (hhash.trans hrowHash.symm)
    -- the call started after the family was revoked
    rw [authnRun, Machine.run_append] at hcall
    have hstarted := hbefore.started_later (Machine.along_free _ after) hi hcall
    obtain ⟨family', hfamily', hsame⟩ := hstarted.tokenFamilies _ family hfamily
    have hactive := hsame.active (hlive family' hfamily')
    rw [hrevoked] at hactive
    cases hactive

/-! ### A run -/

/-- Settings to run things with. -/
def annSettings : AuthnSettings where
  keys := ⟨digitScheme, "accesscore-signing", "https://auth.accesscore.dev",
    "accesscore", 900, 30, 300⟩
  refreshTtlSeconds := 1209600
  refreshTtl_pos := by decide
  graceSeconds := 10
  accountLockout := ⟨5, 900⟩
  ipLockout := ⟨50, 900⟩
  publicCredentialEmail := none
  crypto := constantCrypto
  sha256 text := text
  passwordMatches password hash := password = hash
  toLowerCase text := text

/-- Ann is registered and has not logged in yet. -/
def annAuthnStore : AuthnStore where
  sessions := Table.empty
  tokenFamilies := Table.empty
  refreshTokens := Table.empty
  outbox := []
  memberships := []
  identity := annStore
  keys := ⟨1, 1, none, 0⟩
  jwks := ⟨none, 0⟩
  graceCache := Table.empty
  revoked := Table.empty
  lockouts := Table.empty
  redisUp := true
  nowMs := 900000

/-- Ann logs in. -/
def annLogin : AuthnMoves :=
  .start (.login ⟨"ann@example.com", "hash", none, none⟩ ⟨⟨"s1"⟩, ⟨"f1"⟩, "t1", "j1", "raw1"⟩) ::
    List.replicate 11 (.run 0)

/-- Ann's refresh token is exchanged, and then presented again. -/
def annRefreshTwice : AuthnMoves :=
  annLogin ++ .start (.refresh "raw1" ⟨"t2", "j2", "raw2"⟩) :: List.replicate 11 (.run 1) ++
    .start (.refresh "raw1" ⟨"t3", "j3", "raw3"⟩) :: List.replicate 6 (.run 2)

theorem rotation_safe_annRefreshTwice :
    RotationSafe annSettings (authnRun annSettings annAuthnStore annRefreshTwice) ∧
      RevokedStays annSettings annAuthnStore annRefreshTwice :=
  rotation_safe annSettings annAuthnStore ⟨rfl, rfl, rfl, rfl⟩ annRefreshTwice

end AccessCore
