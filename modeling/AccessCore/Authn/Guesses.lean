/-
  Logins and step-ups at the same time, against one lockout counter.

  A call asks whether the key is locked, verifies, and counts a failure afterwards, so calls that
  ask before others have counted are all let through.  `AdmitsInTime` says when that does no harm:
  a call is let through only while the counter and the calls that are still to count together are
  below the threshold.  Then the failures of one window are at most the threshold
  (`lockout_bounds_guesses`).
-/
import AccessCore.Authn.Lockout

namespace AccessCore

open Interleave

inductive GuessCommand where
  | login (command : LoginCommand) (draws : LoginDraws)
  | stepUp (command : StepUpCommand) (jti : String)

inductive GuessResult where
  | login (result : Except LoginError LoginResult)
  | stepUp (result : Except StepUpError StepUpResult)

/-- The logins and step-ups of all users, with a clock that may read anything and a Redis that may
    be down. -/
def guessMachine (settings : AuthnSettings) :
    Machine GuessCommand AuthnEvent AuthnOp AuthnOp.Answer AuthnStore GuessResult where
  exec _ := AuthnStore.exec settings
  event
    | .clock nowMs, store => { store with nowMs := nowMs }
    | .redis up, store => { store with redisUp := up }
  program
    | .login command draws => do
      let result ← LoginHandler.execute settings command draws
      return .login result
    | .stepUp command jti => do
      let result ← StepUpHandler.execute settings command jti
      return .stepUp result

abbrev GuessEvent := Event AuthnOp AuthnStore
abbrev GuessWorld := World AuthnOp AuthnStore
abbrev GuessSystem := System GuessCommand AuthnOp AuthnOp.Answer AuthnStore GuessResult
abbrev GuessMove := Move GuessCommand AuthnEvent

/-- A run from a store. -/
def guessRun (settings : AuthnSettings) (store : AuthnStore) (moves : List GuessMove) :
    GuessSystem :=
  (guessMachine settings).run ⟨⟨store, []⟩, []⟩ moves

/-! ## What a call has done with a key -/

/-- The key was not locked when the call asked. -/
def letsThrough (key : String) (event : GuessEvent) : Bool :=
  match event.op with
  | .isLocked asked policy => asked = key && !event.before.isLocked asked policy
  | _ => false

def countsFailure (key : String) (event : GuessEvent) : Bool :=
  match event.op with
  | .registerFailure counted _ => counted = key
  | _ => false

/-- A failure is counted, or the counter is reset. -/
def settles (key : String) (event : GuessEvent) : Bool :=
  match event.op with
  | .registerFailure counted _ => counted = key
  | .resetLockout reset => reset = key
  | _ => false

/-- A call has been let through, has not ended, and is still to count its failure or to reset the
    counter. -/
def Unsettled (sys : GuessSystem) (key : String) (i : Nat) : Bool :=
  (sys.pending i).isSome && (sys.world.own i).any (letsThrough key) &&
    !(sys.world.own i).any (settles key)

def unsettled (sys : GuessSystem) (key : String) : Finset Nat :=
  (Finset.range sys.calls.length).filter fun i => Unsettled sys key i = true

/-- A call whose verification has run and failed counts the failure next, or has counted it. -/
def HasFailed (sys : GuessSystem) (key : String) (i : Nat) : Bool :=
  (match sys.pending i with
    | some (.registerFailure counted _) => decide (counted = key)
    | _ => false) || (sys.world.own i).any (countsFailure key)

/-- The key that a failed verification is counted under, when a result says that there was one. -/
def failedKey (settings : AuthnSettings) : GuessCommand → GuessResult → Option String
  | .login command _, .login (.error .invalidCredentials) => settings.accountKey command.email
  | .stepUp command _, .stepUp (.error .invalidFactor) => some ("mfa:" ++ command.userId)
  | _, _ => none

/-- A call is let through only while the counter and the calls that are still to count together are
    below the threshold. -/
def AdmitsInTime (policy : LockoutPolicy) (key : String) (sys : GuessSystem) : GuessMove → Prop
  | .run i => match sys.pending i with
    | some (.isLocked asked asking) => asked = key →
        sys.world.state.isLocked asked asking = false →
        sys.world.state.failures key + (unsettled sys key).card < policy.threshold
    | _ => True
  | _ => True

/-- Redis stays up. -/
def RedisStays (_ : GuessSystem) : GuessMove → Prop
  | .event (.redis up) => up = true
  | _ => True

/-- The counter of the key is not reset, and the time that passes does not end it. -/
def SameWindow (settings : AuthnSettings) (key : String) (sys : GuessSystem) : GuessMove → Prop
  | .run i => match sys.pending i with
    | some (.resetLockout reset) => reset ≠ key
    | _ => True
  | .event e => ((guessMachine settings).event e sys.world.state).lockoutCount key =
      sys.world.state.lockoutCount key
  | .start _ => True

instance (policy : LockoutPolicy) (key : String) (sys : GuessSystem) (move : GuessMove) :
    Decidable (AdmitsInTime policy key sys move) := by
  unfold AdmitsInTime
  split
  · split <;> infer_instance
  · infer_instance

instance (sys : GuessSystem) (move : GuessMove) : Decidable (RedisStays sys move) := by
  unfold RedisStays
  split <;> infer_instance

instance (settings : AuthnSettings) (key : String) (sys : GuessSystem) (move : GuessMove) :
    Decidable (SameWindow settings key sys move) := by
  unfold SameWindow
  split
  · split <;> infer_instance
  · infer_instance
  · infer_instance

/-- The key of an account, or of the second factor of a user. -/
def GuessKey (key : String) : Prop :=
  (∃ email, key = "acct:" ++ email) ∨ ∃ userId, key = "mfa:" ++ userId

/-- Between two moments of a run, at most the threshold of calls come to fail their
    verification. -/
def FailuresBounded (policy : LockoutPolicy) (key : String) (sys sys' : GuessSystem) : Prop :=
  ((Finset.range sys'.calls.length).filter fun i =>
    HasFailed sys' key i = true ∧ HasFailed sys key i = false).card ≤ policy.threshold

/-! ## The order of a call -/

/-- A call counts a failure of a key once, after it has been let through for it. -/
def Ready (w : GuessWorld) (i : Nat) (key : String) : Prop :=
  (w.own i).any (letsThrough key) = true ∧ (w.own i).any (settles key) = false

/-- The policy a key is counted with. -/
def PolicyOf (settings : AuthnSettings) (key : String) (policy : LockoutPolicy) : Prop :=
  policy = settings.accountLockout ∨ ∃ ip, key = "ip:" ++ ip

/-- The calls count in order. -/
def CountInOrder (settings : AuthnSettings) (w : GuessWorld) : Prop :=
  ∀ i later event earlier key policy, w.own i = later ++ event :: earlier →
    event.op = .registerFailure key policy →
    earlier.any (letsThrough key) = true ∧ earlier.any (settles key) = false ∧
      PolicyOf settings key policy

section Order

variable {settings : AuthnSettings} {w w' : GuessWorld} {i : Nat} {op : AuthnOp} {key : String}

theorem Ready.of_own (h : Ready w i key) (hown : w'.own i = w.own i) : Ready w' i key := by
  unfold Ready
  rw [hown]
  exact h

theorem CountInOrder.act (h : CountInOrder settings w)
    (hop : ∀ key policy, op = .registerFailure key policy →
      Ready w i key ∧ PolicyOf settings key policy) :
    CountInOrder settings ((guessMachine settings).act i op w) := by
  intro j later event earlier key policy hown heq
  rw [Machine.own_act] at hown
  split_ifs at hown with hij
  · subst hij
    cases later with
    | nil =>
      obtain ⟨rfl, rfl⟩ := List.cons.inj hown
      obtain ⟨⟨hthrough, hunsettled⟩, hpolicy⟩ := hop key policy heq
      exact ⟨hthrough, hunsettled, hpolicy⟩
    | cons newest later =>
      obtain ⟨-, hearlier⟩ := List.cons.inj hown
      exact h i later event earlier key policy hearlier heq
  · exact h j later event earlier key policy hown heq

theorem any_act (p : GuessEvent → Bool) :
    (((guessMachine settings).act i op w).own i).any p =
      (p ⟨i, op, w.state⟩ || (w.own i).any p) := by
  rw [Machine.own_act, if_pos rfl]
  rfl

abbrev OrderSafe (settings : AuthnSettings) (i : Nat) {β : Type} (Post : β → GuessWorld → Prop) :
    AuthnProc β → GuessWorld → Prop :=
  Safe (guessMachine settings) Conduct.free (CountInOrder settings) (fun _ _ => True) i Post

/-- Programs that count no failure. -/
theorem orderSafe_of_asks {β : Type} {p : AuthnProc β}
    (hp : p.Asks fun op => ∀ key policy, op ≠ .registerFailure key policy) :
    OrderSafe settings i (fun _ _ => True) p w :=
  .of_asks (fun _ _ hop hinv _ => ⟨hinv.act fun key policy heq => absurd heq (hop key policy),
    trivial⟩) hp

/-- What a call knows of keys stays true while it leaves the counters alone. -/
theorem orderSafe_leaves {β : Type} {p : AuthnProc β} (hp : p.Asks AuthnOp.leavesLockouts)
    {keys : List String} (h : ∀ key ∈ keys, Ready w i key) :
    OrderSafe settings i (fun _ w => ∀ key ∈ keys, Ready w i key) p w := by
  refine Safe.keeping (fun w w' hready _ _ hown key hkey => (hready key hkey).of_own hown)
    (fun op w hop hinv hready _ => ?_) hp h
  refine ⟨hinv.act fun key policy heq => ?_, trivial, fun key hkey => ?_⟩
  · exact absurd heq (not_registerFailure_of_leaves hop key policy)
  · obtain ⟨hthrough, hunsettled⟩ := hready key hkey
    refine ⟨?_, ?_⟩
    · rw [any_act, hthrough, Bool.or_true]
    · rw [any_act, hunsettled, Bool.or_false]
      cases op with
      | registerFailure counted policy => exact hop.elim
      | resetLockout reset => exact hop.elim
      | _ => rfl

/-- What a call knows when it has asked for nothing but locks: which keys it has been let through
    for. -/
def Cleared (w : GuessWorld) (i : Nat) (keys : List String) : Prop :=
  (∀ key ∈ keys, (w.own i).any (letsThrough key) = true) ∧
    ∀ key, (w.own i).any (settles key) = false

theorem Cleared.ready {keys : List String} (h : Cleared w i keys) : ∀ key ∈ keys, Ready w i key :=
  fun key hkey => ⟨h.1 key hkey, h.2 key⟩

theorem cleared_nil (hown : w.own i = []) : Cleared w i [] := by
  refine ⟨nofun, fun key => ?_⟩
  rw [hown]
  rfl

/-- Asking for a lock, for the first or for another key. -/
theorem orderSafe_isLockedKey {keys : List String} (asked : Option String)
    (policy : LockoutPolicy) (h : Cleared w i keys) :
    OrderSafe settings i (fun locked w => locked = false → Cleared w i (keys ++ asked.toList))
      (Lockout.isLockedKey asked policy) w := by
  cases asked with
  | none =>
    intro _
    rw [Option.toList_none, List.append_nil]
    exact h
  | some asked =>
    intro w' hinv _ hown _
    refine ⟨hinv.act nofun, trivial, fun hlocked => ?_⟩
    obtain ⟨hthrough, hunsettled⟩ := h
    refine ⟨fun key hkey => ?_, fun key => ?_⟩
    · rw [any_act, hown]
      rcases List.mem_append.mp hkey with hkey | hkey
      · rw [hthrough key hkey, Bool.or_true]
      · obtain rfl := List.mem_singleton.mp hkey
        have hnow : w'.state.isLocked key policy = false := hlocked
        show (decide (key = key) && !w'.state.isLocked key policy || _) = true
        rw [hnow, decide_eq_true rfl]
        rfl
    · rw [any_act, hown, hunsettled key]
      rfl

/-- Counting a failure of a key that the call is ready for; what it knows of another key stays. -/
theorem orderSafe_registerFailure {counted : Option String} {policy : LockoutPolicy}
    (hready : ∀ key ∈ counted, Ready w i key)
    (hpolicy : ∀ key ∈ counted, PolicyOf settings key policy)
    {others : List String} (hne : ∀ key ∈ others, key ∉ counted)
    (hothers : ∀ key ∈ others, Ready w i key) :
    OrderSafe settings i (fun _ w => ∀ key ∈ others, Ready w i key)
      (Lockout.whenKey counted (Lockout.registerFailure · policy)) w := by
  cases counted with
  | none => exact hothers
  | some counted =>
    intro w' hinv _ hown _
    refine ⟨hinv.act fun key policy' heq => ?_, trivial, fun key hkey => ?_⟩
    · obtain ⟨rfl, rfl⟩ := AuthnOp.registerFailure.inj heq
      exact ⟨(hready _ rfl).of_own hown, hpolicy _ rfl⟩
    · obtain ⟨hthrough, hunsettled⟩ := hothers key hkey
      have hdiffer : ¬ counted = key := fun heq => hne key hkey (congrArg some heq)
      refine ⟨?_, ?_⟩
      · rw [any_act, hown, hthrough, Bool.or_true]
      · rw [any_act, hown, hunsettled, Bool.or_false]
        exact decide_eq_false hdiffer

theorem policyOf_accountKey {email : String} : ∀ key ∈ settings.accountKey email,
    PolicyOf settings key settings.accountLockout := fun _ _ => Or.inl rfl

theorem orderSafe_login (command : LoginCommand) (draws : LoginDraws) (hown : w.own i = []) :
    OrderSafe settings i (fun _ _ => True) (LoginHandler.execute settings command draws) w := by
  have hip : ∀ key ∈ (command.ip.filter (· ≠ "")).map ("ip:" ++ ·), ∃ ip, key = "ip:" ++ ip := by
    intro key hkey
    obtain ⟨ip, -, rfl⟩ := Option.map_eq_some_iff.mp hkey
    exact ⟨ip, rfl⟩
  unfold LoginHandler.execute
  show OrderSafe settings i _ (Lockout.isLockedKey (settings.accountKey command.email) _ >>= _) w
  generalize (command.ip.filter (· ≠ "")).map ("ip:" ++ ·) = ipKey at hip
  rw [OrderSafe, safe_bind]
  refine (orderSafe_isLockedKey _ _ (cleared_nil hown)).mono fun lockedByAccount w₁ h₁ => ?_
  show Safe _ _ _ _ i _ (Lockout.isLockedKey _ _ >>= _) _
  rw [safe_bind]
  cases lockedByAccount with
  | true =>
    have hasks : (Lockout.isLockedKey ipKey settings.ipLockout).Asks
        fun op => ∀ key policy, op ≠ .registerFailure key policy := by
      cases ipKey with
      | none => trivial
      | some key => exact ⟨nofun, fun _ => trivial⟩
    exact (orderSafe_of_asks hasks).mono fun lockedByIp w₂ _ => trivial
  | false =>
  refine (orderSafe_isLockedKey ipKey _ (h₁ rfl)).mono fun lockedByIp w₂ h₂ => ?_
  cases lockedByIp with
  | true => trivial
  | false =>
  show Safe _ _ _ _ i _ (IdentityCredentials.verify _ _ _ >>= _) _
  rw [safe_bind]
  refine (orderSafe_leaves (leaves_verify _ _) (h₂ rfl).ready).mono fun check w₃ hready => ?_
  cases check with
  | none =>
    show Safe _ _ _ _ i _ (Lockout.whenKey _ _ >>= _) _
    rw [safe_bind]
    have haccount : ∀ key ∈ settings.accountKey command.email, Ready w₃ i key := fun key hkey =>
      hready key (by simp [Option.mem_def.mp hkey])
    have hipReady : ∀ key ∈ ipKey.toList, Ready w₃ i key := fun key hkey =>
      hready key (List.mem_append_right _ hkey)
    have hdiffer : ∀ key ∈ ipKey.toList, key ∉ settings.accountKey command.email := by
      intro key hkey haccount
      obtain ⟨ip, rfl⟩ := hip key (Option.mem_toList.mp hkey)
      exact accountKey_ne _ ip _ haccount rfl
    refine (orderSafe_registerFailure haccount policyOf_accountKey hdiffer hipReady).mono
      fun _ w₄ hready₄ => ?_
    show Safe _ _ _ _ i _ (Lockout.whenKey _ _ >>= _) _
    rw [safe_bind]
    have hcounted : OrderSafe settings i (fun _ w => ∀ key ∈ [], Ready w i key)
        (Lockout.whenKey ipKey (Lockout.registerFailure · settings.ipLockout)) w₄ :=
      orderSafe_registerFailure (fun key hkey => hready₄ key (Option.mem_toList.mpr hkey))
        (fun key hkey => Or.inr (hip key hkey)) nofun nofun
    exact hcounted.mono fun _ _ _ => trivial
  | some check =>
    have hasks : (do
        Lockout.whenKey (settings.accountKey command.email) Lockout.reset
        Lockout.whenKey ipKey Lockout.reset
        LoginHandler.open_ settings command draws check : AuthnProc _).Asks
          fun op => ∀ key policy, op ≠ .registerFailure key policy := by
      have hreset : ∀ key, (Lockout.whenKey key Lockout.reset).Asks
          fun op => ∀ key policy, op ≠ .registerFailure key policy := by
        intro key
        cases key with
        | none => trivial
        | some key => exact ⟨nofun, fun _ => trivial⟩
      refine Proc.asks_bind (fun _ => Proc.asks_bind (fun _ => ?_) (hreset _)) (hreset _)
      exact (leaves_open command draws check).mono fun _ => not_registerFailure_of_leaves
    exact orderSafe_of_asks hasks

theorem leaves_elevate (command : StepUpCommand) (jti : String) (session : Session) :
    (StepUpHandler.elevate settings command jti session).Asks AuthnOp.leavesLockouts := by
  refine ⟨trivial, fun now => ⟨trivial, fun _ => ?_⟩⟩
  show Proc.Asks _ (AccessTokens.issue settings _ _ >>= _)
  refine Proc.asks_bind (fun token => ?_) (leaves_issue _ _)
  exact Proc.asks_bind (fun _ => by trivial) (leaves_ofIdentity _)

theorem orderSafe_stepUp (command : StepUpCommand) (jti : String) (hown : w.own i = []) :
    OrderSafe settings i (fun _ _ => True) (StepUpHandler.execute settings command jti) w := by
  intro w₁ hinv₁ _ hown₁ _
  rw [hown] at hown₁
  refine ⟨hinv₁.act nofun, trivial, ?_⟩
  have hcleared : Cleared ((guessMachine settings).act i (.findSession ⟨command.sessionId⟩) w₁) i
      [] := by
    refine ⟨nofun, fun key => ?_⟩
    rw [any_act, hown₁]
    rfl
  generalize ((guessMachine settings).exec i (.findSession ⟨command.sessionId⟩) w₁.state).2 = found
  cases (found : Option Session) with
  | none => trivial
  | some session =>
  show Safe _ _ _ _ i _ (if _ then _ else _) _
  split_ifs with hsession
  · trivial
  show Safe _ _ _ _ i _
    (Lockout.isLockedKey (some ("mfa:" ++ session.userId.value)) settings.accountLockout >>= _) _
  rw [safe_bind]
  refine (orderSafe_isLockedKey _ _ hcleared).mono fun locked w₂ h₂ => ?_
  cases locked with
  | true => trivial
  | false =>
  show Safe _ _ _ _ i _ (AuthnProc.ofIdentity _ >>= _) _
  rw [safe_bind]
  refine (orderSafe_leaves (leaves_ofIdentity _) (h₂ rfl).ready).mono fun verified w₃ hready => ?_
  cases verified with
  | false =>
    show Safe _ _ _ _ i _ (Lockout.whenKey (some ("mfa:" ++ session.userId.value))
      (Lockout.registerFailure · settings.accountLockout) >>= _) _
    rw [safe_bind]
    have hcounted : OrderSafe settings i (fun _ w => ∀ key ∈ [], Ready w i key)
        (Lockout.whenKey (some ("mfa:" ++ session.userId.value))
          (Lockout.registerFailure · settings.accountLockout)) w₃ :=
      orderSafe_registerFailure
        (fun key hkey => hready key (by simpa using (Option.some.inj hkey).symm))
        (fun _ _ => Or.inl rfl) nofun nofun
    refine hcounted.mono fun _ w₄ _ => orderSafe_of_asks ?_
    refine Proc.asks_bind (fun _ => by trivial) ?_
    exact (leaves_ofIdentity _).mono fun _ => not_registerFailure_of_leaves
  | true =>
    refine orderSafe_of_asks ⟨nofun, fun _ => ?_⟩
    exact (leaves_elevate command jti session).mono fun _ => not_registerFailure_of_leaves

end Order

/-- The outline. -/
def orderOutline (settings : AuthnSettings) : Outline (guessMachine settings) Conduct.free where
  Inv := CountInOrder settings
  Rely _ _ := True
  refl _ := trivial
  trans _ _ := trivial
  happen _ _ h _ := ⟨h, trivial⟩
  Post _ _ _ _ _ := True
  safe command i w _ _ hown := by
    cases command with
    | login command draws =>
      show OrderSafe settings i _ (LoginHandler.execute _ _ _ >>= _) _
      rw [OrderSafe, safe_bind]
      exact (orderSafe_login command draws hown).mono fun _ _ _ => trivial
    | stepUp command jti =>
      show OrderSafe settings i _ (StepUpHandler.execute _ _ _ >>= _) _
      rw [OrderSafe, safe_bind]
      exact (orderSafe_stepUp command jti hown).mono fun _ _ _ => trivial

/-! ## What a failed call has counted -/

section Failed

variable {settings : AuthnSettings}

abbrev GuessHistory := Proc.History AuthnOp AuthnOp.Answer

/-- A failure of the key has been counted. -/
def CountedUnder (key : String) (past : GuessHistory) : Prop :=
  ∃ asked ∈ past, ∃ policy, asked.1 = .registerFailure key policy

theorem CountedUnder.cons {key : String} (past : GuessHistory) (asked : (op : AuthnOp) × op.Answer)
    (h : CountedUnder key past) : CountedUnder key (asked :: past) := by
  obtain ⟨earlier, hearlier, hcounts⟩ := h
  exact ⟨earlier, List.mem_cons_of_mem _ hearlier, hcounts⟩

/-- A sequence whose second part returns well after any past. -/
theorem returnsAfter_then {α β : Type} {Q : GuessHistory → β → Prop} (p : AuthnProc α)
    {f : α → AuthnProc β} (hf : ∀ past a, (f a).ReturnsAfter Q past) (past : GuessHistory) :
    (p >>= f).ReturnsAfter Q past := by
  have hany : p.ReturnsAfter (fun _ _ => True) past :=
    Proc.returnsAfter_known (fun _ _ _ => trivial) trivial
  exact Proc.returnsAfter_bind (hany.mono fun past a _ => hf past a)

theorem counts_whenKey (counted : Option String) (policy : LockoutPolicy) (past : GuessHistory) :
    (Lockout.whenKey counted (Lockout.registerFailure · policy)).ReturnsAfter
      (fun past _ => ∀ key ∈ counted, CountedUnder key past) past := by
  cases counted with
  | none => exact nofun
  | some counted =>
    intro _ key hkey
    obtain rfl := Option.some.inj hkey
    exact ⟨_, List.mem_cons_self .., policy, rfl⟩

theorem counts_login (command : LoginCommand) (draws : LoginDraws) (past : GuessHistory) :
    (LoginHandler.execute settings command draws).ReturnsAfter
      (fun past result => result = .error .invalidCredentials →
        ∀ key ∈ settings.accountKey command.email, CountedUnder key past) past := by
  unfold LoginHandler.execute
  refine returnsAfter_then _ (fun past lockedByAccount => ?_) past
  refine returnsAfter_then _ (fun past lockedByIp => ?_) past
  by_cases hlocked : (lockedByAccount || lockedByIp) = true
  · rw [if_pos hlocked]
    exact nofun
  rw [if_neg hlocked]
  refine returnsAfter_then _ (fun past check => ?_) past
  cases check with
  | none =>
    refine Proc.returnsAfter_bind ((counts_whenKey (settings.accountKey command.email) _ past).mono
      fun past _ hcounted => ?_)
    have hkeeps : ∀ past asked,
        (∀ key ∈ settings.accountKey command.email, CountedUnder key past) →
          ∀ key ∈ settings.accountKey command.email, CountedUnder key (asked :: past) :=
      fun past asked h key hkey => (h key hkey).cons past asked
    exact Proc.returnsAfter_bind ((Proc.returnsAfter_known hkeeps hcounted).mono
      fun past _ hcounted _ => hcounted)
  | some check =>
    refine returnsAfter_then _ (fun past _ => ?_) past
    refine returnsAfter_then _ (fun past _ => ?_) past
    exact ((returns_open command draws check).after past).mono fun _ _ hne heq => absurd heq hne

theorem returns_elevate (command : StepUpCommand) (jti : String) (session : Session) :
    (StepUpHandler.elevate settings command jti session).Returns
      fun result => result ≠ .error .invalidFactor := by
  refine fun now _ => ?_
  show Proc.Returns _ (AccessTokens.issue settings _ _ >>= _)
  exact Proc.returns_bind (fun token => Proc.returns_bind (fun _ => by exact nofun) _) _

theorem counts_stepUp (command : StepUpCommand) (jti : String) (past : GuessHistory) :
    (StepUpHandler.execute settings command jti).ReturnsAfter
      (fun past result => result = .error .invalidFactor →
        CountedUnder ("mfa:" ++ command.userId) past) past := by
  intro found
  cases (found : Option Session) with
  | none => exact nofun
  | some session =>
  show Proc.ReturnsAfter _ _ (if _ then _ else _)
  split_ifs with hsession
  · exact nofun
  intro locked
  cases (locked : Bool) with
  | true => exact nofun
  | false =>
  refine returnsAfter_then (AuthnProc.ofIdentity _) (fun past verified => ?_) _
  cases verified with
  | false =>
    have hcounts := counts_whenKey (some ("mfa:" ++ session.userId.value)) settings.accountLockout
      past
    refine Proc.returnsAfter_bind (p := Lockout.whenKey (some ("mfa:" ++ session.userId.value))
      (Lockout.registerFailure · settings.accountLockout)) (hcounts.mono fun past _ hcounted => ?_)
    have huser : session.userId.value = command.userId := by
      by_contra hne
      simp [hne] at hsession
    rw [huser] at hcounted
    exact Proc.returnsAfter_bind ((Proc.returnsAfter_known CountedUnder.cons
      (hcounted _ rfl)).mono fun past _ hcounted _ => hcounted)
  | true =>
    intro _
    exact ((returns_elevate command jti session).after _).mono fun _ _ hne heq => absurd heq hne

/-- Over a run: a call whose result says that its verification has failed has counted that. -/
theorem hasFailed_of_result {store : AuthnStore} {moves : List GuessMove} {i : Nat}
    {call : Call GuessCommand AuthnOp AuthnOp.Answer AuthnStore GuessResult}
    (hcall : (guessRun settings store moves).calls[i]? = some call) {result : GuessResult}
    (hresult : call.result = some result) {key : String}
    (hkey : failedKey settings call.command result = some key) :
    HasFailed (guessRun settings store moves) key i = true := by
  have hprogram : ∀ command, ((guessMachine settings).program command).ReturnsAfter
      (fun past result => ∀ key ∈ failedKey settings command result, CountedUnder key past) [] := by
    intro command
    cases command with
    | login command draws =>
      refine Proc.returnsAfter_bind ((counts_login command draws []).mono fun past result h => ?_)
      intro key hkey
      cases result with
      | ok result => cases hkey
      | error error =>
        cases error with
        | invalidCredentials => exact h rfl key hkey
        | locked => cases hkey
    | stepUp command jti =>
      refine Proc.returnsAfter_bind ((counts_stepUp command jti []).mono fun past result h => ?_)
      intro key hkey
      cases result with
      | ok result => cases hkey
      | error error =>
        cases error with
        | invalidFactor => exact Option.some.inj hkey ▸ h rfl
        | invalidSession => cases hkey
        | locked => cases hkey
  obtain ⟨asked, hasked, policy, hop⟩ := Outline.returned_after hprogram hcall hresult key hkey
  obtain ⟨event, hevent, rfl⟩ := List.mem_map.mp hasked
  have hop : event.op = .registerFailure key policy := hop
  have hevent : event ∈ (guessRun settings store moves).world.own i := hevent
  have hcounts : countsFailure key event = true := by
    unfold countsFailure
    rw [hop]
    exact decide_eq_true rfl
  unfold HasFailed
  rw [List.any_eq_true.mpr ⟨event, hevent, hcounts⟩, Bool.or_true]

end Failed

/-! ## Counting -/

section Counting

variable {settings : AuthnSettings} {sys : GuessSystem} {key : String} {i j : Nat} {op : AuthnOp}

/-- A call that is about to count a failure is one of those that are still to count. -/
theorem unsettled_of_pending (h : (orderOutline settings).Good sys) {policy : LockoutPolicy}
    (hpending : sys.pending i = some (.registerFailure key policy)) :
    i ∈ unsettled sys key ∧ PolicyOf settings key policy := by
  have hinv := h.inv_act hpending trivial
  have hown : ((guessMachine settings).act i (.registerFailure key policy) sys.world).own i =
      [] ++ ⟨i, .registerFailure key policy, sys.world.state⟩ :: sys.world.own i := by
    rw [Machine.own_act, if_pos rfl]
    rfl
  obtain ⟨hthrough, hunsettled, hpolicy⟩ := hinv i [] _ _ key policy hown rfl
  refine ⟨Finset.mem_filter.mpr ⟨?_, ?_⟩, hpolicy⟩
  · obtain ⟨call, hcall, -⟩ := Option.bind_eq_some_iff.mp hpending
    exact Finset.mem_range.mpr (List.getElem?_eq_some_iff.mp hcall).1
  · unfold Unsettled
    rw [hpending, hthrough, hunsettled]
    rfl

/-- What a move does to the calls that are still to count: the one that is let through joins them,
    and the one that counts or resets leaves them. -/
theorem unsettled_run (hpending : sys.pending i = some op)
    (hj : j ∈ unsettled ((guessMachine settings).step sys (.run i)) key) :
    (j ∈ unsettled sys key ∨ j = i ∧ letsThrough key ⟨i, op, sys.world.state⟩ = true) ∧
      (settles key ⟨i, op, sys.world.state⟩ = true → j ≠ i) := by
  obtain ⟨hrange, hunsettled⟩ := Finset.mem_filter.mp hj
  rw [Machine.calls_length_run] at hrange
  unfold Unsettled at hunsettled
  rw [Machine.world_run_pending hpending] at hunsettled
  simp only [Bool.and_eq_true, Bool.not_eq_true'] at hunsettled
  obtain ⟨⟨hsome, hthrough⟩, hsettled⟩ := hunsettled
  by_cases hij : i = j
  · subst hij
    rw [any_act] at hthrough hsettled
    obtain ⟨hnot, hsettled⟩ := Bool.or_eq_false_iff.mp hsettled
    refine ⟨?_, fun htrue => absurd (htrue.symm.trans hnot) nofun⟩
    rcases Bool.or_eq_true_iff.mp hthrough with hthrough | hthrough
    · exact Or.inr ⟨rfl, hthrough⟩
    · refine Or.inl (Finset.mem_filter.mpr ⟨hrange, ?_⟩)
      unfold Unsettled
      rw [hpending, hthrough, hsettled]
      rfl
  · rw [Machine.pending_run_ne hij] at hsome
    rw [Machine.own_act, if_neg hij] at hthrough hsettled
    refine ⟨Or.inl (Finset.mem_filter.mpr ⟨hrange, ?_⟩), fun _ heq => hij heq.symm⟩
    unfold Unsettled
    rw [hsome, hthrough, hsettled]
    rfl

theorem unsettled_start (h : (orderOutline settings).Good sys) {command : GuessCommand}
    (hj : j ∈ unsettled ((guessMachine settings).step sys (.start command)) key) :
    j ∈ unsettled sys key := by
  obtain ⟨hrange, hunsettled⟩ := Finset.mem_filter.mp hj
  unfold Unsettled at hunsettled
  rcases Nat.lt_or_ge j sys.calls.length with hlt | hge
  · rw [Machine.pending_start command hlt] at hunsettled
    exact Finset.mem_filter.mpr ⟨Finset.mem_range.mpr hlt, hunsettled⟩
  · have hown : ((guessMachine settings).step sys (.start command)).world.own j = [] :=
      Outline.own_eq_nil h hge
    rw [hown] at hunsettled
    simp at hunsettled

/-- The calls that have counted a failure since `sys₀`. -/
def counted (sys₀ sys : GuessSystem) (key : String) : Finset Nat :=
  (Finset.range sys.calls.length).filter fun i =>
    (sys.world.own i).any (countsFailure key) = true ∧ HasFailed sys₀ key i = false

theorem counted_run {sys₀ : GuessSystem} (hpending : sys.pending i = some op)
    (hj : j ∈ counted sys₀ ((guessMachine settings).step sys (.run i)) key) :
    j ∈ counted sys₀ sys key ∨ j = i ∧ countsFailure key ⟨i, op, sys.world.state⟩ = true := by
  obtain ⟨hrange, hcounts, hnew⟩ := Finset.mem_filter.mp hj
  rw [Machine.calls_length_run] at hrange
  rw [Machine.world_run_pending hpending] at hcounts
  by_cases hij : i = j
  · subst hij
    rw [any_act] at hcounts
    rcases Bool.or_eq_true_iff.mp hcounts with hcounts | hcounts
    · exact Or.inr ⟨rfl, hcounts⟩
    · exact Or.inl (Finset.mem_filter.mpr ⟨hrange, hcounts, hnew⟩)
  · rw [Machine.own_act, if_neg hij] at hcounts
    exact Or.inl (Finset.mem_filter.mpr ⟨hrange, hcounts, hnew⟩)

theorem counted_start {sys₀ : GuessSystem} (h : (orderOutline settings).Good sys)
    {command : GuessCommand}
    (hj : j ∈ counted sys₀ ((guessMachine settings).step sys (.start command)) key) :
    j ∈ counted sys₀ sys key := by
  obtain ⟨hrange, hcounts, hnew⟩ := Finset.mem_filter.mp hj
  rcases Nat.lt_or_ge j sys.calls.length with hlt | hge
  · exact Finset.mem_filter.mpr ⟨Finset.mem_range.mpr hlt, hcounts, hnew⟩
  · have hown : ((guessMachine settings).step sys (.start command)).world.own j = [] :=
      Outline.own_eq_nil h hge
    rw [hown] at hcounts
    cases hcounts

theorem redisUp_step {move : GuessMove} (hup : sys.world.state.redisUp = true)
    (hstays : RedisStays sys move) :
    ((guessMachine settings).step sys move).world.state.redisUp = true := by
  cases move with
  | start command => exact hup
  | event e =>
    cases e with
    | clock nowMs => exact hup
    | redis up => exact hstays
  | run i =>
    cases hpending : sys.pending i with
    | none =>
      rw [Machine.step_run_none hpending]
      exact hup
    | some op =>
      rw [Machine.world_run_pending hpending]
      exact (AuthnStore.exec_frame settings op sys.world.state).redisUp.trans hup

/-- The counter of the key within its window: a failure adds one to it, and nothing else changes
    it. -/
theorem failures_run (hkey : GuessKey key) (hpos : 0 < settings.accountLockout.windowSeconds)
    (hup : sys.world.state.redisUp = true) (h : (orderOutline settings).Good sys)
    (hpending : sys.pending i = some op) (hwindow : SameWindow settings key sys (.run i)) :
    ((guessMachine settings).step sys (.run i)).world.state.failures key =
      sys.world.state.failures key +
        if countsFailure key ⟨i, op, sys.world.state⟩ = true then 1 else 0 := by
  rw [Machine.world_run_pending hpending]
  show AuthnStore.failures (sys.world.state.exec settings op).1 key = _
  cases op with
  | registerFailure counted policy =>
    by_cases hcounted : counted = key
    · subst hcounted
      obtain ⟨-, hpolicy | ⟨ip, hip⟩⟩ := unsettled_of_pending h hpending
      · rw [if_pos (by simp [countsFailure])]
        exact AuthnStore.failures_registerFailure hup (hpolicy ▸ hpos)
      · -- neither kind of key is the key of an address
        exfalso
        rcases hkey with ⟨email, heq⟩ | ⟨userId, heq⟩
        · have hlists := congrArg String.toList (heq.symm.trans hip)
          simp at hlists
        · have hlists := congrArg String.toList (heq.symm.trans hip)
          simp at hlists
    · rw [if_neg (by simpa [countsFailure] using hcounted)]
      exact (SameCounter.registerFailure (fun heq => hcounted heq.symm) hup policy).failures
  | resetLockout reset =>
    simp only [SameWindow, hpending] at hwindow
    exact (SameCounter.resetLockout (fun heq => hwindow heq.symm) hup).failures
  | isLocked asked policy => rfl
  | _ =>
    refine (SameCounter.exec settings key ?_).failures
    trivial

/-- Before a window: the calls that are still to count are at most the threshold. -/
structure Bounded (settings : AuthnSettings) (key : String) (sys : GuessSystem) : Prop where
  good : (orderOutline settings).Good sys
  up : sys.world.state.redisUp = true
  below : (unsettled sys key).card ≤ settings.accountLockout.threshold

theorem free_permits (sys : GuessSystem) (move : GuessMove) :
    (Conduct.free : Conduct GuessCommand AuthnEvent AuthnOp AuthnStore).permits sys move := by
  cases move with
  | start command => trivial
  | run i => exact fun _ _ => trivial
  | event e => trivial

/-- A call that is let through, by an operation that is asked for. -/
theorem letsThrough_iff {state : AuthnStore} : letsThrough key ⟨i, op, state⟩ = true ↔
    ∃ policy, op = .isLocked key policy ∧ state.isLocked key policy = false := by
  unfold letsThrough
  cases op with
  | isLocked asked policy =>
    constructor
    · intro h
      obtain ⟨heq, hunlocked⟩ := Bool.and_eq_true_iff.mp h
      obtain rfl := of_decide_eq_true heq
      exact ⟨policy, rfl, by simpa using hunlocked⟩
    · rintro ⟨_, heq, hunlocked⟩
      cases heq
      simp [hunlocked]
  | _ => simp

/-- After a move the calls that are still to count are no more than before, or were admitted in
    time. -/
theorem card_unsettled_step {move : GuessMove} (h : (orderOutline settings).Good sys)
    (hadmits : AdmitsInTime settings.accountLockout key sys move) :
    (unsettled ((guessMachine settings).step sys move) key).card ≤ (unsettled sys key).card ∨
      sys.world.state.failures key +
        (unsettled ((guessMachine settings).step sys move) key).card ≤
          settings.accountLockout.threshold := by
  cases move with
  | start command => exact Or.inl (Finset.card_le_card fun j hj => unsettled_start h hj)
  | event e => exact Or.inl le_rfl
  | run i =>
    cases hpending : sys.pending i with
    | none =>
      rw [Machine.step_run_none hpending]
      exact Or.inl le_rfl
    | some op =>
      by_cases hthrough : letsThrough key ⟨i, op, sys.world.state⟩ = true
      · obtain ⟨policy, rfl, hunlocked⟩ := letsThrough_iff.mp hthrough
        have hsub : unsettled ((guessMachine settings).step sys (.run i)) key ⊆
            insert i (unsettled sys key) := by
          intro j hj
          rcases (unsettled_run hpending hj).1 with hj | ⟨rfl, -⟩
          · exact Finset.mem_insert_of_mem hj
          · exact Finset.mem_insert_self _ _
        have hcard := (Finset.card_le_card hsub).trans (Finset.card_insert_le _ _)
        simp only [AdmitsInTime, hpending] at hadmits
        have hbelow := hadmits trivial hunlocked
        omega
      · refine Or.inl (Finset.card_le_card fun j hj => ?_)
        rcases (unsettled_run hpending hj).1 with hj | ⟨-, htrue⟩
        · exact hj
        · exact absurd htrue hthrough

/-- The step lemma before the window. -/
theorem Bounded.step {move : GuessMove} (h : Bounded settings key sys)
    (hadmits : AdmitsInTime settings.accountLockout key sys move) (hstays : RedisStays sys move) :
    Bounded settings key ((guessMachine settings).step sys move) := by
  refine ⟨(h.good.step (free_permits sys move)).1, redisUp_step h.up hstays, ?_⟩
  have hbelow := h.below
  rcases card_unsettled_step h.good hadmits with hcard | hcard
  · omega
  · omega

/-- Within a window: those who have counted are counted, and with those who are still to count they
    are at most the threshold. -/
structure Counting (settings : AuthnSettings) (key : String) (sys₀ sys : GuessSystem) : Prop where
  good : (orderOutline settings).Good sys
  up : sys.world.state.redisUp = true
  below : (counted sys₀ sys key).card + (unsettled sys key).card ≤ settings.accountLockout.threshold
  failures : (counted sys₀ sys key).card ≤ sys.world.state.failures key

/-- The step lemma within the window. -/
theorem Counting.step {sys₀ : GuessSystem} {move : GuessMove} (hkey : GuessKey key)
    (hpos : 0 < settings.accountLockout.windowSeconds) (h : Counting settings key sys₀ sys)
    (hadmits : AdmitsInTime settings.accountLockout key sys move) (hstays : RedisStays sys move)
    (hwindow : SameWindow settings key sys move) :
    Counting settings key sys₀ ((guessMachine settings).step sys move) := by
  have hgood := (h.good.step (free_permits sys move)).1
  have hup : ((guessMachine settings).step sys move).world.state.redisUp = true :=
    redisUp_step h.up hstays
  have hbelow := h.below
  have hfailures := h.failures
  have hunsettled := card_unsettled_step h.good hadmits
  cases move with
  | start command =>
    have hcounted : (counted sys₀ ((guessMachine settings).step sys (.start command)) key).card ≤
        (counted sys₀ sys key).card := Finset.card_le_card fun j hj => counted_start h.good hj
    have hsame : ((guessMachine settings).step sys (.start command)).world.state.failures key =
        sys.world.state.failures key := rfl
    exact ⟨hgood, hup, by omega, by omega⟩
  | event e =>
    have hsame : ((guessMachine settings).step sys (.event e)).world.state.failures key =
        sys.world.state.failures key := by
      unfold AuthnStore.failures
      exact congrArg (fun entry => (Option.map LockoutCount.count entry).getD 0) hwindow
    have hcounted : (counted sys₀ ((guessMachine settings).step sys (.event e)) key).card =
        (counted sys₀ sys key).card := rfl
    exact ⟨hgood, hup, by omega, by omega⟩
  | run i =>
    cases hpending : sys.pending i with
    | none =>
      rw [Machine.step_run_none hpending]
      exact h
    | some op =>
      have hnext := failures_run hkey hpos h.up h.good hpending hwindow
      by_cases hcounts : countsFailure key ⟨i, op, sys.world.state⟩ = true
      · rw [if_pos hcounts] at hnext
        obtain ⟨policy, rfl⟩ : ∃ policy, op = .registerFailure key policy := by
          unfold countsFailure at hcounts
          cases op with
          | registerFailure counted policy =>
            obtain rfl := of_decide_eq_true hcounts
            exact ⟨policy, rfl⟩
          | _ => cases hcounts
        -- one call more has counted, and it was still to count
        obtain ⟨hmem, -⟩ := unsettled_of_pending h.good hpending
        have herase : (unsettled ((guessMachine settings).step sys (.run i)) key).card ≤
            (unsettled sys key).card - 1 := by
          rw [← Finset.card_erase_of_mem hmem]
          refine Finset.card_le_card fun j hj => ?_
          obtain ⟨hj, hne⟩ := unsettled_run hpending hj
          rcases hj with hj | ⟨-, hthrough⟩
          · exact Finset.mem_erase.mpr ⟨hne (by simp [settles]), hj⟩
          · cases hthrough
        have hpos' : 0 < (unsettled sys key).card := Finset.card_pos.mpr ⟨i, hmem⟩
        have hsub : counted sys₀ ((guessMachine settings).step sys (.run i)) key ⊆
            insert i (counted sys₀ sys key) := by
          intro j hj
          rcases counted_run hpending hj with hj | ⟨rfl, -⟩
          · exact Finset.mem_insert_of_mem hj
          · exact Finset.mem_insert_self _ _
        have hcounted := (Finset.card_le_card hsub).trans (Finset.card_insert_le _ _)
        exact ⟨hgood, hup, by omega, by omega⟩
      · rw [if_neg hcounts] at hnext
        have hcounted : (counted sys₀ ((guessMachine settings).step sys (.run i)) key).card ≤
            (counted sys₀ sys key).card := by
          refine Finset.card_le_card fun j hj => ?_
          rcases counted_run hpending hj with hj | ⟨-, htrue⟩
          · exact hj
          · exact absurd htrue hcounts
        exact ⟨hgood, hup, by omega, by omega⟩

end Counting

/-- In every run, with Redis up, in which each call that is let through is admitted in time: in
    every part of it that lies in one window of the key, at most the threshold of calls come to
    fail their verification.  A call that returns that it has failed is one of them. -/
theorem lockout_bounds_guesses (settings : AuthnSettings)
    (hpos : 0 < settings.accountLockout.windowSeconds) (key : String) (hkey : GuessKey key)
    (store : AuthnStore) (hup : store.redisUp = true) (before during : List GuessMove)
    (hstays : (guessMachine settings).Throughout RedisStays ⟨⟨store, []⟩, []⟩ (before ++ during))
    (hadmits : (guessMachine settings).Throughout (AdmitsInTime settings.accountLockout key)
      ⟨⟨store, []⟩, []⟩ (before ++ during))
    (hwindow : (guessMachine settings).Throughout (SameWindow settings key)
      (guessRun settings store before) during) :
    FailuresBounded settings.accountLockout key (guessRun settings store before)
        (guessRun settings store (before ++ during)) ∧
      ∀ i call result, (guessRun settings store (before ++ during)).calls[i]? = some call →
        call.result = some result → failedKey settings call.command result = some key →
          HasFailed (guessRun settings store (before ++ during)) key i = true := by
  refine ⟨?_, fun i call result hcall hresult hfailed =>
    hasFailed_of_result hcall hresult hfailed⟩
  obtain ⟨hstaysBefore, hstaysDuring⟩ := Machine.throughout_append.mp hstays
  obtain ⟨hadmitsBefore, hadmitsDuring⟩ := Machine.throughout_append.mp hadmits
  have hinit : Bounded settings key (⟨⟨store, []⟩, []⟩ : GuessSystem) := by
    refine ⟨Outline.Good.init ?_ rfl, hup, Nat.zero_le _⟩
    intro i later event earlier key policy hown
    have hnil : ([] : List GuessEvent) = later ++ event :: earlier := hown
    simp at hnil
  have hbefore : Bounded settings key (guessRun settings store before) :=
    Machine.run_of_throughout (fun _ _ h hmove => h.step hmove.1 hmove.2)
      (Machine.throughout_and hadmitsBefore hstaysBefore) hinit
  have hstart : Counting settings key (guessRun settings store before)
      (guessRun settings store before) := by
    -- who has counted before the window has failed before it
    have hnone : counted (guessRun settings store before) (guessRun settings store before) key =
        ∅ := by
      refine Finset.eq_empty_of_forall_notMem fun j hj => ?_
      obtain ⟨-, hcounts, hnew⟩ := Finset.mem_filter.mp hj
      unfold HasFailed at hnew
      rw [hcounts, Bool.or_true] at hnew
      cases hnew
    have hbelow := hbefore.below
    refine ⟨hbefore.good, hbefore.up, ?_, ?_⟩
    · rw [hnone, Finset.card_empty, Nat.zero_add]
      exact hbelow
    · rw [hnone, Finset.card_empty]
      exact Nat.zero_le _
  have hend : Counting settings key (guessRun settings store before)
      (guessRun settings store (before ++ during)) := by
    rw [show guessRun settings store (before ++ during) =
      (guessMachine settings).run (guessRun settings store before) during
        from Machine.run_append _ _ _]
    exact Machine.run_of_throughout
      (fun _ _ h hmove => h.step hkey hpos hmove.1.1 hmove.1.2 hmove.2)
      (Machine.throughout_and (Machine.throughout_and hadmitsDuring hstaysDuring) hwindow) hstart
  -- who has failed since has counted, or is still to count
  have hsub : ((Finset.range (guessRun settings store (before ++ during)).calls.length).filter
      fun i => HasFailed (guessRun settings store (before ++ during)) key i = true ∧
        HasFailed (guessRun settings store before) key i = false) ⊆
      counted (guessRun settings store before) (guessRun settings store (before ++ during)) key ∪
        unsettled (guessRun settings store (before ++ during)) key := by
    intro j hj
    obtain ⟨hrange, hfailed, hnew⟩ := Finset.mem_filter.mp hj
    rcases Bool.or_eq_true_iff.mp hfailed with hnext | hcounts
    · refine Finset.mem_union_right _ ?_
      split at hnext
      · rename_i counted policy hpending
        obtain rfl := of_decide_eq_true hnext
        exact (unsettled_of_pending hend.good hpending).1
      · cases hnext
    · exact Finset.mem_union_left _ (Finset.mem_filter.mpr ⟨hrange, hcounts, hnew⟩)
  exact ((Finset.card_le_card hsub).trans (Finset.card_union_le _ _)).trans hend.below

/-! ### One guess too many -/

/-- One guess at an account. -/
def oneGuess : AuthnSettings := { annSettings with accountLockout := ⟨1, 900⟩ }

/-- A login that fails, of an account that has not been locked before. -/
def guessBea : GuessMove :=
  .start (.login ⟨"bea@example.com", "guess", none, none⟩ ⟨⟨"s1"⟩, ⟨"f1"⟩, "t1", "j1", "raw1"⟩)

def guessTwice : List GuessMove :=
  guessBea :: List.replicate 3 (.run 0) ++ guessBea :: List.replicate 3 (.run 1)

/-- Both ask before either has counted. -/
def guessAtOnce : List GuessMove :=
  guessBea :: guessBea :: .run 0 :: .run 1 :: List.replicate 2 (.run 0) ++ List.replicate 2 (.run 1)

theorem lockout_bounds_guessTwice :
    FailuresBounded oneGuess.accountLockout "acct:bea@example.com"
      (guessRun oneGuess annAuthnStore []) (guessRun oneGuess annAuthnStore ([] ++ guessTwice)) :=
  (lockout_bounds_guesses oneGuess (by decide) "acct:bea@example.com"
    (Or.inl ⟨"bea@example.com", rfl⟩) annAuthnStore rfl [] guessTwice (by decide +kernel)
    (by decide +kernel) (by decide +kernel)).1

/-- Two verifications run and fail where one guess is allowed, in one window and with Redis up. -/
theorem lockout_exceeded :
    (guessMachine oneGuess).Throughout RedisStays ⟨⟨annAuthnStore, []⟩, []⟩ guessAtOnce ∧
      (guessMachine oneGuess).Throughout (SameWindow oneGuess "acct:bea@example.com")
        (guessRun oneGuess annAuthnStore []) guessAtOnce ∧
      ¬ FailuresBounded oneGuess.accountLockout "acct:bea@example.com"
        (guessRun oneGuess annAuthnStore []) (guessRun oneGuess annAuthnStore guessAtOnce) := by
  refine ⟨by decide +kernel, by decide +kernel, ?_⟩
  unfold FailuresBounded
  decide +kernel

end AccessCore
