/-
  Password resets and email verifications at the same time.

  A reset looks its token up, checks it, hashes the new password, saves the user and only then
  marks the token.  `ChecksAlone` says when the check means what it says: no other call is between
  its check and its mark.  Along runs whose checks all are, a token is used by one call at most
  (`reset_token_single_use`).
-/
import AccessCore.Identity.Passwords

namespace AccessCore

open Interleave

/-! ## Tokens -/

/-- The hash that an event looked up, and the token it found. -/
def lookedUp (event : AccountEvent) : Option (String × PasswordResetToken) :=
  match event.op with
  | .findResetToken tokenHash =>
    (findByHash event.before.passwordResetTokens tokenHash).map (tokenHash, ·)
  | _ => none

def marksToken (event : AccountEvent) : Bool :=
  match event.op with
  | .consumeResetToken _ => true
  | _ => false

/-- A call has passed its check: the token it has found is unconsumed and, when it reads the
    clock, not expired. -/
def HoldsToken (w : AccountWorld) (i : Nat) (tokenHash : String) : Prop :=
  ∃ lookup ∈ w.own i, ∃ found ∈ lookedUp lookup, found.1 = tokenHash ∧
    ∃ tick ∈ w.own i, tick.op = .now ∧ found.2.isValid tick.before.nowMs = true

def HasMarked (w : AccountWorld) (i : Nat) : Prop := ∃ event ∈ w.own i, marksToken event = true

/-- A call passes its check only while the token is unconsumed in the table and every other call
    that has passed the check of this token has marked it. -/
def ChecksAlone (i : Nat) (op : AccountOp) (w : AccountWorld) : Prop :=
  match op with
  | .now => ∀ lookup ∈ w.own i, ∀ found ∈ lookedUp lookup,
      found.2.isValid w.state.nowMs = true →
        (∃ row ∈ findByHash w.state.passwordResetTokens found.1, row.consumedAt = none) ∧
        ∀ other ∈ w.log, other.caller ≠ i → HoldsToken w other.caller found.1 →
          HasMarked w other.caller
  | _ => True

/-- Runs whose checks do not overlap. -/
def checkedAlone : Conduct AccountCommand Int AccountOp AccountStore where
  start _ _ := True
  ask := ChecksAlone
  event _ _ := True

instance (w : AccountWorld) (i : Nat) (tokenHash : String) :
    Decidable (HoldsToken w i tokenHash) := by
  unfold HoldsToken
  infer_instance

instance (w : AccountWorld) (i : Nat) : Decidable (HasMarked w i) := by
  unfold HasMarked
  infer_instance

instance (i : Nat) (op : AccountOp) (w : AccountWorld) : Decidable (ChecksAlone i op w) := by
  unfold ChecksAlone
  cases op <;> infer_instance

instance (crypto : AccountCrypto) (sys : AccountSystem) (moves : AccountMoves) :
    Decidable ((accountMachine crypto).Along checkedAlone sys moves) :=
  have : ∀ c w, Decidable (checkedAlone.start c w) := fun _ _ => .isTrue trivial
  have : ∀ i op w, Decidable (checkedAlone.ask i op w) := fun i op w =>
    inferInstanceAs (Decidable (ChecksAlone i op w))
  have : ∀ e w, Decidable (checkedAlone.event e w) := fun _ _ => .isTrue trivial
  Machine.Along.decidable (accountMachine crypto) checkedAlone sys moves

/-- An event that stores another password hash for the user it saves. -/
def ChangesHash (event : AccountEvent) : Prop :=
  ∃ user events, event.op = .saveUser user events ∧
    ((event.before.saveUser user events).1.users.get user.id).map (·.passwordHash) ≠
      (event.before.users.get user.id).map (·.passwordHash)

/-- A reset that presents the token has changed a password, or returned `ok`. -/
def UsesToken (crypto : AccountCrypto) (sys : AccountSystem) (i : Nat) (tokenHash : String) :
    Prop :=
  ∃ call command salt, sys.calls[i]? = some call ∧ call.command = .resetPassword command salt ∧
    crypto.tokenHash command.token = tokenHash ∧
    (call.result = some (.reset (.ok ())) ∨ ∃ event ∈ sys.world.own i, ChangesHash event)

/-- A token is used by one call at most. -/
def UsedOnce (crypto : AccountCrypto) (sys : AccountSystem) : Prop :=
  ∀ tokenHash i j, UsesToken crypto sys i tokenHash → UsesToken crypto sys j tokenHash → i = j

/-! ### The step lemma -/

/-- The row of a hash stays, and stays consumed. -/
def TokensKept (w w' : AccountWorld) : Prop :=
  ∀ tokenHash row, findByHash w.state.passwordResetTokens tokenHash = some row →
    ∃ row', findByHash w'.state.passwordResetTokens tokenHash = some row' ∧ row'.id = row.id ∧
      (row.consumedAt ≠ none → row'.consumedAt ≠ none)

/-- What the world says of the calls that have passed their checks. -/
structure TokensHeld (w : AccountWorld) : Prop where
  marked : ∀ i tokenHash, HasMarked w i → HoldsToken w i tokenHash →
    ∃ row ∈ findByHash w.state.passwordResetTokens tokenHash, row.consumedAt ≠ none
  once : ∀ i j tokenHash, HoldsToken w i tokenHash → HoldsToken w j tokenHash → i = j
  saved : ∀ event ∈ w.log, ∀ user events, event.op = .saveUser user events →
    changesPassword events = true → ∃ tokenHash, HoldsToken w event.caller tokenHash

/-- What a caller keeps to: it looks a token up before it reads the clock, and it marks and saves
    only for a token that it holds. -/
structure Proper (i : Nat) (op : AccountOp) (w : AccountWorld) : Prop where
  lookup : ∀ tokenHash, op = .findResetToken tokenHash → ∀ event ∈ w.own i, event.op ≠ .now
  tick : op = .now → ¬ HasMarked w i
  mark : ∀ token, op = .consumeResetToken token → token.consumedAt ≠ none ∧
    ∀ tokenHash, HoldsToken w i tokenHash →
      ∃ row ∈ findByHash w.state.passwordResetTokens tokenHash, row.id = token.id
  save : ∀ user events, op = .saveUser user events → changesPassword events = true →
    ∃ tokenHash, HoldsToken w i tokenHash

section Step

variable {crypto : AccountCrypto} {w w' : AccountWorld} {i j : Nat} {op : AccountOp}
  {tokenHash : String}

theorem HoldsToken.of_own (h : HoldsToken w i tokenHash) (hown : w'.own i = w.own i) :
    HoldsToken w' i tokenHash := by
  unfold HoldsToken
  rw [hown]
  exact h

theorem HoldsToken.act (h : HoldsToken w j tokenHash) :
    HoldsToken ((accountMachine crypto).act i op w) j tokenHash := by
  obtain ⟨lookup, hlookup, found, hfound, heq, tick, htick, hvalid⟩ := h
  have hown : ∀ event ∈ w.own j, event ∈ ((accountMachine crypto).act i op w).own j := by
    intro event hevent
    rw [Machine.own_act]
    split_ifs
    · exact List.mem_cons_of_mem _ hevent
    · exact hevent
  exact ⟨lookup, hown _ hlookup, found, hfound, heq, tick, hown _ htick, hvalid⟩

/-- A call comes to hold a token by reading the clock. -/
theorem holdsToken_act (hproper : Proper i op w)
    (h : HoldsToken ((accountMachine crypto).act i op w) j tokenHash) :
    HoldsToken w j tokenHash ∨ j = i ∧ op = .now ∧ ∃ lookup ∈ w.own i,
      ∃ found ∈ lookedUp lookup, found.1 = tokenHash ∧ found.2.isValid w.state.nowMs = true := by
  by_cases hij : i = j
  · subst hij
    obtain ⟨lookup, hlookup, found, hfound, heq, tick, htick, hnow, hvalid⟩ := h
    rw [Machine.own_act, if_pos rfl] at hlookup htick
    rcases List.mem_cons.mp hlookup with rfl | hlookup
    · -- a lookup, and so no reading of the clock before it
      cases op with
      | findResetToken asked =>
        rcases List.mem_cons.mp htick with rfl | htick
        · cases hnow
        · exact absurd hnow (hproper.lookup asked rfl tick htick)
      | _ => cases hfound
    · rcases List.mem_cons.mp htick with rfl | htick
      · exact Or.inr ⟨rfl, hnow, lookup, hlookup, found, hfound, heq, hvalid⟩
      · exact Or.inl ⟨lookup, hlookup, found, hfound, heq, tick, htick, hnow, hvalid⟩
  · refine Or.inl (h.of_own ?_)
    rw [Machine.own_act, if_neg hij]

theorem hasMarked_act (h : HasMarked ((accountMachine crypto).act i op w) j) :
    HasMarked w j ∨ j = i ∧ ∃ token, op = .consumeResetToken token := by
  obtain ⟨event, hevent, hmarks⟩ := h
  rw [Machine.own_act] at hevent
  split_ifs at hevent with hij
  · rcases List.mem_cons.mp hevent with rfl | hevent
    · cases op with
      | consumeResetToken token => exact Or.inr ⟨hij.symm, token, rfl⟩
      | _ => cases hmarks
    · exact Or.inl ⟨event, hevent, hmarks⟩
  · exact Or.inl ⟨event, hevent, hmarks⟩

/-- A call that is in the log has an event of its own there. -/
theorem HoldsToken.mem_log (h : HoldsToken w j tokenHash) : ∃ event ∈ w.log, event.caller = j := by
  obtain ⟨lookup, hlookup, -⟩ := h
  obtain ⟨hmem, hcaller⟩ := List.mem_filter.mp hlookup
  exact ⟨lookup, hmem, of_decide_eq_true hcaller⟩

theorem tokensKept_act (hstamped : ∀ token, op = .consumeResetToken token →
    token.consumedAt ≠ none) :
    TokensKept w ((accountMachine crypto).act i op w) := by
  intro tokenHash row hrow
  cases op with
  | consumeResetToken token =>
    refine ⟨if row.id = token.id then { row with consumedAt := token.consumedAt } else row, ?_, ?_,
      fun hconsumed => ?_⟩
    · show findByHash (consumeToken w.state.passwordResetTokens token) tokenHash = _
      rw [findByHash_consumeToken, hrow]
      rfl
    · split_ifs <;> rfl
    · split_ifs
      · exact hstamped token rfl
      · exact hconsumed
  | saveUser user events =>
    refine ⟨row, ?_, rfl, id⟩
    show findByHash (w.state.saveUser user events).1.passwordResetTokens tokenHash = _
    rw [AccountStore.saveUser_passwordResetTokens]
    exact hrow
  | _ => exact ⟨row, hrow, rfl, id⟩

variable (crypto op) in
/-- The step lemma. -/
theorem TokensHeld.act (h : TokensHeld w) (hask : checkedAlone.ask i op w)
    (hproper : Proper i op w) :
    TokensHeld ((accountMachine crypto).act i op w) ∧
      TokensKept w ((accountMachine crypto).act i op w) := by
  have hkept : TokensKept w ((accountMachine crypto).act i op w) :=
    tokensKept_act fun token heq => (hproper.mark token heq).1
  -- who passes the check now is alone
  have halone : ∀ {j : Nat} {tokenHash : String}, op = .now →
      (∃ lookup ∈ w.own i, ∃ found ∈ lookedUp lookup,
      found.1 = tokenHash ∧ found.2.isValid w.state.nowMs = true) → HoldsToken w j tokenHash →
      j = i := by
    rintro j tokenHash rfl ⟨lookup, hlookup, found, hfound, rfl, hvalid⟩ hj
    by_contra hne
    obtain ⟨⟨row, hrow, hnone⟩, hothers⟩ := hask lookup hlookup found hfound hvalid
    obtain ⟨event, hevent, rfl⟩ := hj.mem_log
    obtain ⟨row', hrow', hsome⟩ := h.marked _ _ (hothers event hevent hne hj) hj
    rw [Option.mem_def.mp hrow] at hrow'
    obtain rfl := Option.some.inj hrow'
    exact hsome hnone
  refine ⟨⟨?_, ?_, ?_⟩, hkept⟩
  · intro j tokenHash hmarked hholds
    rcases hasMarked_act hmarked with hearlier | ⟨rfl, token, rfl⟩
    · rcases holdsToken_act hproper hholds with hholds | ⟨rfl, hnow, -⟩
      · obtain ⟨row, hrow, hsome⟩ := h.marked j tokenHash hearlier hholds
        obtain ⟨row', hrow', -, hconsumed⟩ := hkept tokenHash row hrow
        exact ⟨row', hrow', hconsumed hsome⟩
      · exact absurd hearlier (hproper.tick hnow)
    · rcases holdsToken_act hproper hholds with hholds | ⟨-, hnow, -⟩
      · obtain ⟨hsome, hrows⟩ := hproper.mark token rfl
        obtain ⟨row, hrow, hid⟩ := hrows tokenHash hholds
        refine ⟨{ row with consumedAt := token.consumedAt }, ?_, hsome⟩
        show findByHash (consumeToken w.state.passwordResetTokens token) tokenHash = _
        rw [findByHash_consumeToken, Option.mem_def.mp hrow, Option.map_some, if_pos hid]
      · cases hnow
  · intro j k tokenHash hj hk
    rcases holdsToken_act hproper hj with hj' | ⟨rfl, hnow, hfound⟩
    · rcases holdsToken_act hproper hk with hk' | ⟨rfl, hnow, hfound⟩
      · exact h.once j k tokenHash hj' hk'
      · exact halone hnow hfound hj'
    · rcases holdsToken_act hproper hk with hk' | ⟨rfl, -, -⟩
      · exact (halone hnow hfound hk').symm
      · rfl
  · intro event hevent user events heq hchanges
    rcases List.mem_cons.mp hevent with rfl | hevent
    · obtain ⟨tokenHash, hholds⟩ := hproper.save user events heq hchanges
      exact ⟨tokenHash, hholds.act⟩
    · obtain ⟨tokenHash, hholds⟩ := h.saved event hevent user events heq hchanges
      exact ⟨tokenHash, hholds.act⟩

end Step

/-! ### The calls -/

section Calls

variable {crypto : AccountCrypto} {w : AccountWorld} {i : Nat}

abbrev TokenSafe (crypto : AccountCrypto) (i : Nat) {β : Type} (Post : β → AccountWorld → Prop) :
    AccountProc β → AccountWorld → Prop :=
  Safe (accountMachine crypto) checkedAlone TokensHeld TokensKept i Post

/-- What a reset knows of the token it holds. -/
structure Holding (i : Nat) (tokenHash : String) (token : PasswordResetToken) (w : AccountWorld) :
    Prop where
  holds : HoldsToken w i tokenHash
  only : ∀ tokenHash', HoldsToken w i tokenHash' → tokenHash' = tokenHash
  row : ∃ row ∈ findByHash w.state.passwordResetTokens tokenHash, row.id = token.id

/-- The operations of a reset after its check. -/
def AfterCheck (token : PasswordResetToken) : AccountOp → Prop
  | .now => False
  | .findResetToken _ => False
  | .consumeResetToken marked => marked.id = token.id ∧ marked.consumedAt ≠ none
  | _ => True

theorem Holding.proper {tokenHash : String} {token : PasswordResetToken} {op : AccountOp}
    (h : Holding i tokenHash token w) (hop : AfterCheck token op) : Proper i op w where
  lookup _ heq := by
    subst heq
    exact hop.elim
  tick heq := by
    subst heq
    exact hop.elim
  mark marked heq := by
    subst heq
    obtain ⟨hid, hsome⟩ := hop
    refine ⟨hsome, fun tokenHash' hholds => ?_⟩
    obtain rfl := h.only tokenHash' hholds
    obtain ⟨row, hrow, hrowid⟩ := h.row
    exact ⟨row, hrow, hrowid.trans hid.symm⟩
  save _ _ _ _ := ⟨tokenHash, h.holds⟩

theorem Holding.kept {tokenHash : String} {token : PasswordResetToken} {w' : AccountWorld}
    (h : Holding i tokenHash token w) (hkept : TokensKept w w')
    (hown : ∀ tokenHash, HoldsToken w' i tokenHash ↔ HoldsToken w i tokenHash) :
    Holding i tokenHash token w' := by
  refine ⟨(hown _).mpr h.holds, fun tokenHash' hholds => h.only _ ((hown _).mp hholds), ?_⟩
  obtain ⟨row, hrow, hid⟩ := h.row
  obtain ⟨row', hrow', hid', -⟩ := hkept tokenHash row hrow
  exact ⟨row', hrow', hid'.trans hid⟩

/-- After its check a reset holds its token to the end. -/
theorem safe_holding {β : Type} {p : AccountProc β} {tokenHash : String}
    {token : PasswordResetToken}
    (hp : p.Asks (AfterCheck token)) (h : Holding i tokenHash token w) :
    TokenSafe crypto i (fun _ w => Holding i tokenHash token w) p w := by
  refine Safe.keeping (fun w w' hholding _ hkept hown => ?_)
    (fun op w hop hinv hholding hask => ?_) hp h
  · exact hholding.kept hkept fun tokenHash => ⟨fun h => h.of_own hown.symm, fun h => h.of_own hown⟩
  · have hproper := hholding.proper hop
    obtain ⟨hinv', hkept⟩ := hinv.act crypto op hask hproper
    refine ⟨hinv', hkept, hholding.kept hkept fun tokenHash => ⟨fun h => ?_, fun h => h.act⟩⟩
    rcases holdsToken_act hproper h with h | ⟨-, rfl, -⟩
    · exact h
    · exact hop.elim

theorem safe_reset (command : ResetPasswordCommand) (salt : String) (hown : w.own i = []) :
    TokenSafe crypto i
      (fun result w => result = .ok () → HoldsToken w i (crypto.tokenHash command.token))
      (ResetPasswordHandler.execute crypto command salt) w := by
  unfold ResetPasswordHandler.execute
  cases Password.create command.password with
  | error e => exact fun h => by cases h
  | ok password =>
  -- the lookup is the first operation of the call
  intro w₁ hinv₁ _ hown₁ hask₁
  rw [hown] at hown₁
  have hnever : ∀ tokenHash, ¬ HoldsToken w₁ i tokenHash := by
    rintro tokenHash ⟨lookup, hlookup, -⟩
    rw [hown₁] at hlookup
    cases hlookup
  have hproper : Proper i (.findResetToken (crypto.tokenHash command.token)) w₁ := by
    refine ⟨fun _ _ event hevent => ?_, by simp, by simp, by simp⟩
    rw [hown₁] at hevent
    cases hevent
  obtain ⟨hinv, hkept⟩ := hinv₁.act crypto _ hask₁ hproper
  refine ⟨hinv, hkept, ?_⟩
  have hfound : ((accountMachine crypto).exec i
      (.findResetToken (crypto.tokenHash command.token)) w₁.state).2 =
      findByHash w₁.state.passwordResetTokens (crypto.tokenHash command.token) := rfl
  generalize ((accountMachine crypto).exec i
    (.findResetToken (crypto.tokenHash command.token)) w₁.state).2 = found at hfound
  intro w₂ hinv₂ hrely₂ hown₂ hask₂
  rw [Machine.own_act, if_pos rfl, hown₁] at hown₂
  have hproper₂ : Proper i .now w₂ := by
    refine ⟨by simp, fun _ => ?_, by simp, by simp⟩
    rintro ⟨event, hevent, hmarks⟩
    rw [hown₂] at hevent
    obtain rfl := List.mem_singleton.mp hevent
    cases hmarks
  obtain ⟨hinv', hkept'⟩ := hinv₂.act crypto _ hask₂ hproper₂
  refine ⟨hinv', hkept', ?_⟩
  have hnow : ((accountMachine crypto).exec i .now w₂.state).2 = w₂.state.nowMs := rfl
  dsimp only [Proc.bind]
  rw [hnow]
  cases hfilter : Option.filter (fun token : MailedToken => token.isValid w₂.state.nowMs) found with
  | none => exact fun h => by cases h
  | some token =>
  obtain ⟨rfl, hvalid⟩ := Option.filter_eq_some_iff.mp hfilter
  have hholding : Holding i (crypto.tokenHash command.token) token
      ((accountMachine crypto).act i .now w₂) := by
    have hlog : ((accountMachine crypto).act i .now w₂).own i =
        [⟨i, .now, w₂.state⟩, ⟨i, .findResetToken (crypto.tokenHash command.token), w₁.state⟩] := by
      rw [Machine.own_act, if_pos rfl, hown₂]
    have hlookup : lookedUp ⟨i, .findResetToken (crypto.tokenHash command.token), w₁.state⟩ =
        some (crypto.tokenHash command.token, token) := by
      show Option.map _ (findByHash w₁.state.passwordResetTokens _) = _
      rw [← hfound]
      rfl
    refine ⟨?_, fun tokenHash' hholds => ?_, ?_⟩
    · refine ⟨_, ?_, _, hlookup, rfl, ⟨i, .now, w₂.state⟩, ?_, rfl, hvalid⟩
      · simp [hlog]
      · simp [hlog]
    · obtain ⟨lookup, hmem, found, hfound', rfl, -⟩ := hholds
      rw [hlog] at hmem
      rcases List.mem_cons.mp hmem with rfl | hmem
      · cases hfound'
      · obtain rfl := List.mem_singleton.mp hmem
        obtain rfl := Option.some.inj (hlookup.symm.trans hfound')
        rfl
    · obtain ⟨row, hrow, hid, -⟩ := hkept _ token hfound.symm
      obtain ⟨row', hrow', hid', -⟩ := hrely₂ _ row hrow
      exact ⟨row', hrow', hid'.trans hid⟩
  show TokenSafe crypto i _ (AccountProc.findUser token.userId >>= _) _
  refine (safe_holding ?_ hholding).mono fun result w hholding _ => hholding.holds
  refine ⟨trivial, fun user => ?_⟩
  cases (user : Option User) with
  | none => trivial
  | some user =>
    refine ⟨trivial, fun passwordHash => ?_⟩
    show Proc.Asks _ (AccountProc.saveUser _ >>= _)
    refine Proc.asks_bind (fun _ => ?_) (asks_saveUser trivial)
    exact ⟨⟨rfl, fun h => by cases h⟩, fun _ => ⟨trivial, fun _ => trivial⟩⟩

theorem safe_verify (command : VerifyEmailCommand) (hown : w.own i = []) :
    TokenSafe crypto i (fun _ _ => True) (VerifyEmailHandler.execute crypto command) w := by
  refine (Safe.of_asks_own (fun op w hop hown hinv hask => ?_) (asks_verifyEmail crypto command)
    (by simp [hown])).mono fun _ _ _ => trivial
  refine hinv.act crypto op hask ⟨?_, ?_, ?_, ?_⟩
  · rintro tokenHash rfl
    exact hop.elim
  · rintro - ⟨event, hevent, hmarks⟩
    have hasked := hown event hevent
    unfold marksToken at hmarks
    cases hevent : event.op with
    | consumeResetToken token =>
      rw [hevent] at hasked
      exact hasked
    | _ => simp [hevent] at hmarks
  · rintro token rfl
    exact hop.elim
  · rintro user events rfl hchanges
    exact absurd (hchanges.symm.trans hop) nofun

end Calls

/-- The outline. -/
def tokenOutline (crypto : AccountCrypto) : Outline (accountMachine crypto) checkedAlone where
  Inv := TokensHeld
  Rely := TokensKept
  refl _ _ row hrow := ⟨row, hrow, rfl, id⟩
  trans huv hvw tokenHash row hrow := by
    obtain ⟨row', hrow', hid, hconsumed⟩ := huv tokenHash row hrow
    obtain ⟨row'', hrow'', hid', hconsumed'⟩ := hvw tokenHash row' hrow'
    exact ⟨row'', hrow'', hid'.trans hid, fun h => hconsumed' (hconsumed h)⟩
  happen _ _ h _ := ⟨⟨h.marked, h.once, h.saved⟩, fun _ row hrow => ⟨row, hrow, rfl, id⟩⟩
  Post
    | .resetPassword command _, i, _, .reset (.ok ()), w =>
      HoldsToken w i (crypto.tokenHash command.token)
    | _, _, _, _, _ => True
  safe command i w _ _ hown := by
    cases command with
    | resetPassword command salt =>
      show TokenSafe crypto i _ (ResetPasswordHandler.execute _ _ _ >>= _) _
      rw [TokenSafe, safe_bind]
      refine (safe_reset command salt hown).mono fun result w hholds => ?_
      cases result with
      | ok _ => exact hholds rfl
      | error e => trivial
    | verifyEmail command =>
      show TokenSafe crypto i _ (VerifyEmailHandler.execute _ _ >>= _) _
      rw [TokenSafe, safe_bind]
      exact (safe_verify command hown).mono fun _ _ _ => trivial

/-- Who has used a token holds it. -/
theorem holdsToken_of_usesToken {crypto : AccountCrypto} {store : AccountStore}
    {moves : AccountMoves} {i : Nat} {tokenHash : String}
    (hgood : (tokenOutline crypto).Good (accountRun crypto store moves))
    (h : UsesToken crypto (accountRun crypto store moves) i tokenHash) :
    HoldsToken (accountRun crypto store moves).world i tokenHash := by
  obtain ⟨call, command, salt, hcall, hcommand, rfl, h⟩ := h
  rcases h with hresult | ⟨event, hevent, user, events, hop, -⟩
  · obtain ⟨-, w, -, hown, hpost⟩ := hgood.returned hcall hresult
    rw [hcommand] at hpost
    exact HoldsToken.of_own hpost hown
  · -- only a reset saves a changed password, and it looks up its own token only
    have hasks := Machine.own_of_asks (asks_account crypto) hcall
    rw [hcommand] at hasks
    obtain ⟨hmem, hcaller⟩ := List.mem_filter.mp hevent
    obtain rfl := of_decide_eq_true hcaller
    have hchanges := hasks event hevent
    rw [hop] at hchanges
    obtain ⟨tokenHash, hholds⟩ := hgood.inv.saved event hmem user events hop hchanges
    have hsame : tokenHash = crypto.tokenHash command.token := by
      obtain ⟨lookup, hlookup, found, hfound, rfl, -⟩ := hholds
      have hasked := hasks lookup hlookup
      unfold lookedUp at hfound
      cases hlookedUp : lookup.op with
      | findResetToken asked =>
        rw [hlookedUp] at hfound hasked
        obtain ⟨token, -, rfl⟩ := Option.map_eq_some_iff.mp hfound
        exact hasked
      | _ => simp [hlookedUp] at hfound
    exact hsame ▸ hholds

/-- In every run whose checks do not overlap with another use of the same token, a reset token is
    used by one call at most. -/
theorem reset_token_single_use (crypto : AccountCrypto) (store : AccountStore)
    (moves : AccountMoves)
    (hok : (accountMachine crypto).Along checkedAlone ⟨⟨store, []⟩, []⟩ moves) :
    UsedOnce crypto (accountRun crypto store moves) := by
  have hinit : (tokenOutline crypto).Good ⟨⟨store, []⟩, []⟩ := by
    refine Outline.Good.init ⟨?_, ?_, nofun⟩ rfl
    · rintro i tokenHash ⟨event, hevent, -⟩
      cases hevent
    · rintro i j tokenHash ⟨event, hevent, -⟩
      cases hevent
  have hgood := (hinit.run hok).1
  intro tokenHash i j hi hj
  exact hgood.inv.once i j tokenHash (holdsToken_of_usesToken hgood hi)
    (holdsToken_of_usesToken hgood hj)

/-! ### One token, two passwords -/

/-- Hashes that can be read back. -/
def plainCrypto : AccountCrypto := ⟨id, fun password salt => password ++ salt⟩

/-- A user who has asked for a reset.  The request that has verified the address has not marked its
    token yet. -/
def annAccount : AccountStore where
  users := ⟨[⟨⟨"ann"⟩, "ann@example.com", "old", .active, some 30000, 0, 30000⟩], by decide⟩
  outbox :=
    [⟨"identity.user_registered", 0, "ann", [("email", "ann@example.com")]⟩,
      ⟨"identity.email_verified", 30000, "ann", []⟩]
  passwordResetTokens := ⟨[⟨"t1", ⟨"ann"⟩, "reset-token", 940000, none, 40000⟩], by decide⟩
  verificationTokens := ⟨[⟨"t2", ⟨"ann"⟩, "verification-token", 3600000, none, 0⟩], by decide⟩
  revokedSessions := []
  nowMs := 60000

def resetFirst : AccountCommand := .resetPassword ⟨"reset-token", "first-password"⟩ "1"
def resetSecond : AccountCommand := .resetPassword ⟨"reset-token", "second-password"⟩ "2"

def resetTwice : AccountMoves :=
  .start resetFirst :: List.replicate 7 (.run 0) ++ .start resetSecond :: List.replicate 2 (.run 1)

/-- The second check comes before the first call marks the token. -/
def resetAtOnce : AccountMoves :=
  .start resetFirst :: .start resetSecond :: List.replicate 2 (.run 0) ++
    List.replicate 2 (.run 1) ++ List.replicate 5 (.run 0) ++ List.replicate 5 (.run 1)

theorem reset_token_single_use_resetTwice :
    UsedOnce plainCrypto (accountRun plainCrypto annAccount resetTwice) :=
  reset_token_single_use plainCrypto annAccount resetTwice (by decide +kernel)

/-- Both requests are answered `ok`. -/
theorem reset_token_used_twice :
    ¬ UsedOnce plainCrypto (accountRun plainCrypto annAccount resetAtOnce) := by
  intro honce
  have hfirst : UsesToken plainCrypto (accountRun plainCrypto annAccount resetAtOnce) 0
      "reset-token" := ⟨_, _, _, rfl, rfl, rfl, Or.inl rfl⟩
  have hsecond : UsesToken plainCrypto (accountRun plainCrypto annAccount resetAtOnce) 1
      "reset-token" := ⟨_, _, _, rfl, rfl, rfl, Or.inl rfl⟩
  exact absurd (honce "reset-token" 0 1 hfirst hsecond) (by decide)

end AccessCore
