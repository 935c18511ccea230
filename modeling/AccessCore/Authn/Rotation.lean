/-
  Refresh rotation under every interleaving.

  `Chained` is the invariant of the tables: the generations of a family are 1, 2, …, n in the order
  of their rows, an active token has the last of them, and an entry of the grace cache holds the
  token that follows the one it is stored under.  Every operation keeps it that is `Sound`: its
  arguments are about the same family, one generation on.  Only a refresh has to show that of its
  own operations, and it can, for a token's row never changes its family or generation
  (`RefreshToken.Later`).
-/
import AccessCore.Authn.SessionHandlers

namespace AccessCore

open Interleave

/-! ## The invariant of the tables -/

namespace AuthnStore

/-- A pair that may be handed out for the token with a hash: it holds the token that follows. -/
def Replaces (settings : AuthnSettings) (store : AuthnStore) (hash : String) (pair : GracePair) :
    Prop :=
  ∃ token ∈ store.refreshTokens.rows, ∃ successor ∈ store.refreshTokens.rows,
    token.tokenHash = hash ∧ successor.familyId = token.familyId ∧
      successor.generation = token.generation + 1 ∧
      pair.successorGeneration = successor.generation ∧
      successor.tokenHash = settings.sha256 pair.refreshToken

structure Chained (settings : AuthnSettings) (store : AuthnStore) : Prop where
  hashes : (store.refreshTokens.rows.map (·.tokenHash)).Nodup
  families : ∀ token ∈ store.refreshTokens.rows,
    (store.tokenFamilies.get token.familyId).isSome = true
  generations : ∀ f, (store.tokensOfFamily f).map (·.generation) =
    List.range' 1 (store.tokensOfFamily f).length
  active : ∀ f, ∀ token ∈ store.tokensOfFamily f, token.status = .active →
    token.generation = (store.tokensOfFamily f).length
  grace : ∀ hash, ∀ entry ∈ store.graceCache.get hash, store.Replaces settings hash entry.pair

/-- The arguments of an operation belong together. -/
def SoundOp (settings : AuthnSettings) (store : AuthnStore) : AuthnOp → Prop
  | .createLogin _ family token => token.familyId = family.id ∧ token.generation = 1
  | .rotate presentedId successor _ => ∀ presented ∈ store.refreshTokens.get presentedId,
    successor.familyId = presented.familyId ∧ successor.generation = presented.generation + 1
  | .gracePut hash pair _ => store.Replaces settings hash pair
  | _ => True

variable {settings : AuthnSettings} {store store' : AuthnStore}

theorem mem_tokensOfFamily {f : TokenFamilyId} {token : RefreshToken} :
    token ∈ store.tokensOfFamily f ↔ token ∈ store.refreshTokens.rows ∧ token.familyId = f := by
  simp [tokensOfFamily, Table.select]

/-- The tokens of a family, when tokens are changed in place. -/
theorem tokensOfFamily_map {change : RefreshToken → RefreshToken}
    (hchange : ∀ row : RefreshToken, row.Later (change row))
    (hrows : store'.refreshTokens.rows = store.refreshTokens.rows.map change) (f : TokenFamilyId) :
    store'.tokensOfFamily f = (store.tokensOfFamily f).map change := by
  have hcomp : ((fun row => decide (row.familyId = f)) ∘ change : RefreshToken → Bool) =
      fun row => decide (row.familyId = f) := by
    funext row
    simp only [Function.comp, (hchange row).familyId]
  unfold tokensOfFamily Table.select
  rw [hrows, List.filter_map, hcomp]

theorem Replaces.later (h : store.Later store') {hash : String} {pair : GracePair}
    (hpair : store.Replaces settings hash pair) : store'.Replaces settings hash pair := by
  obtain ⟨token, htoken, successor, hsuccessor, hhash, hfamily, hgeneration, hnumber, htext⟩ :=
    hpair
  obtain ⟨token', htoken', _, hsame⟩ := h.refreshTokens.mem htoken
  obtain ⟨successor', hsuccessor', _, hsame'⟩ := h.refreshTokens.mem hsuccessor
  refine ⟨token', htoken', successor', hsuccessor', hsame.tokenHash.trans hhash, ?_, ?_, ?_,
    hsame'.tokenHash.trans htext⟩
  · rw [hsame'.familyId, hsame.familyId, hfamily]
  · rw [hsame'.generation, hsame.generation, hgeneration]
  · rw [hsame'.generation, hnumber]

namespace Chained

/-- Two tokens of one family with one generation are one token. -/
theorem eq_of_generation (h : store.Chained settings) {a b : RefreshToken}
    (ha : a ∈ store.refreshTokens.rows) (hb : b ∈ store.refreshTokens.rows)
    (hfamily : a.familyId = b.familyId) (hgeneration : a.generation = b.generation) : a = b := by
  have hnodup : ((store.tokensOfFamily b.familyId).map (·.generation)).Nodup := by
    rw [h.generations]
    exact List.nodup_range'
  exact List.inj_on_of_nodup_map hnodup (mem_tokensOfFamily.mpr ⟨ha, hfamily⟩)
    (mem_tokensOfFamily.mpr ⟨hb, rfl⟩) hgeneration

/-- A family has one active token at most. -/
theorem eq_of_active (h : store.Chained settings) {a b : RefreshToken}
    (ha : a ∈ store.refreshTokens.rows) (hb : b ∈ store.refreshTokens.rows)
    (hfamily : a.familyId = b.familyId) (hactive : a.status = .active)
    (hactive' : b.status = .active) : a = b := by
  refine h.eq_of_generation ha hb hfamily ?_
  have hlast := h.active _ a (mem_tokensOfFamily.mpr ⟨ha, hfamily⟩) hactive
  have hlast' := h.active _ b (mem_tokensOfFamily.mpr ⟨hb, rfl⟩) hactive'
  exact hlast.trans hlast'.symm

theorem eq_of_hash (h : store.Chained settings) {a b : RefreshToken}
    (ha : a ∈ store.refreshTokens.rows) (hb : b ∈ store.refreshTokens.rows)
    (hhash : a.tokenHash = b.tokenHash) : a = b :=
  List.inj_on_of_nodup_map h.hashes ha hb hhash

/-! ### What changes the tokens -/

/-- What does not touch the tokens, and puts only good pairs in the cache. -/
theorem of_tokens (h : store.Chained settings) (hlater : store.Later store')
    (htokens : store'.refreshTokens = store.refreshTokens)
    (hgrace : ∀ hash, ∀ entry ∈ store'.graceCache.get hash,
      store.Replaces settings hash entry.pair) : store'.Chained settings where
  hashes := by rw [htokens]; exact h.hashes
  families := by
    rw [htokens]
    intro token htoken
    obtain ⟨family, hfamily⟩ := Option.isSome_iff_exists.mp (h.families token htoken)
    obtain ⟨family', hfamily', _⟩ := hlater.tokenFamilies _ family hfamily
    exact Option.isSome_iff_exists.mpr ⟨family', hfamily'⟩
  generations := by
    unfold tokensOfFamily
    rw [htokens]
    exact h.generations
  active := by
    unfold tokensOfFamily
    rw [htokens]
    exact h.active
  grace hash entry hentry := (hgrace hash entry hentry).later hlater

/-- Tokens changed in place. -/
theorem changed (h : store.Chained settings) (hlater : store.Later store')
    {change : RefreshToken → RefreshToken} (hchange : ∀ row : RefreshToken, row.Later (change row))
    (hrows : store'.refreshTokens.rows = store.refreshTokens.rows.map change)
    (hgrace : store'.graceCache = store.graceCache) : store'.Chained settings := by
  have hselect := tokensOfFamily_map hchange hrows
  constructor
  case hashes =>
    rw [hrows, List.map_map]
    have hsame : ((·.tokenHash) ∘ change : RefreshToken → String) = (·.tokenHash) :=
      funext fun row => (hchange row).tokenHash
    rw [hsame]
    exact h.hashes
  case families =>
    rw [hrows]
    intro token htoken
    obtain ⟨row, hrow, rfl⟩ := List.mem_map.mp htoken
    obtain ⟨family, hfamily⟩ := Option.isSome_iff_exists.mp (h.families row hrow)
    obtain ⟨family', hfamily', _⟩ := hlater.tokenFamilies _ family hfamily
    rw [(hchange row).familyId]
    exact Option.isSome_iff_exists.mpr ⟨family', hfamily'⟩
  case generations =>
    intro f
    rw [hselect, List.map_map, List.length_map]
    have hsame : ((·.generation) ∘ change : RefreshToken → Nat) = (·.generation) :=
      funext fun row => (hchange row).generation
    rw [hsame]
    exact h.generations f
  case active =>
    intro f token htoken hactive
    rw [hselect] at htoken ⊢
    obtain ⟨row, hrow, rfl⟩ := List.mem_map.mp htoken
    rw [List.length_map, (hchange row).generation]
    exact h.active f row hrow ((hchange row).active hactive)
  case grace =>
    intro hash entry hentry
    rw [hgrace] at hentry
    exact (h.grace hash entry hentry).later hlater

/-- A token inserted at the end of a family without an active one. -/
theorem inserted (h : store.Chained settings) (hlater : store.Later store') {token : RefreshToken}
    (hfree : store.admitsToken token = true)
    (hfamily : (store'.tokenFamilies.get token.familyId).isSome = true)
    (hlast : token.generation = (store.tokensOfFamily token.familyId).length + 1)
    (hidle : ∀ row ∈ store.tokensOfFamily token.familyId, row.status ≠ .active)
    (htokens : store'.refreshTokens = insertRow store.refreshTokens token)
    (hgrace : store'.graceCache = store.graceCache) : store'.Chained settings := by
  have hget := get_of_admitsToken hfree
  have hrows : store'.refreshTokens.rows = store.refreshTokens.rows ++ [token] := by
    rw [htokens]
    exact Table.rows_upsert_of_get_none _ hget
  have hselect : ∀ f, store'.tokensOfFamily f =
      store.tokensOfFamily f ++ if token.familyId = f then [token] else [] := by
    intro f
    unfold tokensOfFamily
    rw [htokens]
    refine (Table.select_upsert_of_get_none _ hget _).trans ?_
    simp only [decide_eq_true_eq]
  constructor
  case hashes =>
    rw [hrows, List.map_append, List.nodup_append]
    refine ⟨h.hashes, List.nodup_singleton _, ?_⟩
    intro hash hhash new hnew
    obtain ⟨row, hrow, rfl⟩ := List.mem_map.mp hhash
    obtain rfl := List.mem_singleton.mp hnew
    exact (admitsToken_iff.mp hfree row hrow).2
  case families =>
    rw [hrows]
    intro row hrow
    rcases List.mem_append.mp hrow with hrow | hrow
    · obtain ⟨family, hget⟩ := Option.isSome_iff_exists.mp (h.families row hrow)
      obtain ⟨family', hget', _⟩ := hlater.tokenFamilies _ family hget
      exact Option.isSome_iff_exists.mpr ⟨family', hget'⟩
    · obtain rfl := List.mem_singleton.mp hrow
      exact hfamily
  case generations =>
    intro f
    rw [hselect]
    by_cases hf : token.familyId = f
    · subst hf
      rw [if_pos rfl, List.map_append, h.generations, List.length_append, List.length_singleton,
        List.range'_1_concat, List.map_singleton, hlast, Nat.add_comm 1]
    · rw [if_neg hf, List.append_nil]
      exact h.generations f
  case active =>
    intro f row hrow hactive
    rw [hselect] at hrow ⊢
    by_cases hf : token.familyId = f
    · subst hf
      rw [if_pos rfl] at hrow ⊢
      rw [List.length_append, List.length_singleton]
      rcases List.mem_append.mp hrow with hrow | hrow
      · exact absurd hactive (hidle row hrow)
      · obtain rfl := List.mem_singleton.mp hrow
        exact hlast
    · rw [if_neg hf, List.append_nil] at hrow ⊢
      exact h.active f row hrow hactive
  case grace =>
    intro hash entry hentry
    rw [hgrace] at hentry
    exact (h.grace hash entry hentry).later hlater

theorem createLogin (h : store.Chained settings) {session : Session} {family : TokenFamily}
    {token : RefreshToken} (hsound : token.familyId = family.id ∧ token.generation = 1) :
    (store.createLogin session family token).1.Chained settings := by
  obtain ⟨hfamilyId, hfirst⟩ := hsound
  have hlater : store.Later (store.createLogin session family token).1 :=
    exec_later settings (.createLogin session family token) store
  unfold AuthnStore.createLogin at hlater ⊢
  split_ifs at hlater ⊢ with hfree
  · obtain ⟨_, hfamily, htoken⟩ := hfree
    -- the family is new, so it has no tokens yet
    have hnone : store.tokensOfFamily token.familyId = [] := by
      rw [List.eq_nil_iff_forall_not_mem]
      intro row hrow
      obtain ⟨hmem, hrowFamily⟩ := mem_tokensOfFamily.mp hrow
      have hsome := h.families row hmem
      rw [hrowFamily, hfamilyId, hfamily] at hsome
      cases hsome
    refine h.inserted hlater htoken ?_ ?_ ?_ rfl rfl
    · show ((insertRow store.tokenFamilies family).get token.familyId).isSome = true
      rw [hfamilyId, get_insertRow hfamily]
      rfl
    · rw [hnone, hfirst, List.length_nil]
    · rw [hnone]
      simp
  · exact h

theorem rotate (h : store.Chained settings) {presentedId : String} {successor : RefreshToken}
    {at_ : Int} (hsound : ∀ presented ∈ store.refreshTokens.get presentedId,
      successor.familyId = presented.familyId ∧ successor.generation = presented.generation + 1) :
    (store.rotate presentedId successor at_).1.Chained settings := by
  have hlater : store.Later (store.rotate presentedId successor at_).1 :=
    exec_later settings (.rotate presentedId successor at_) store
  unfold AuthnStore.rotate at hlater ⊢
  split_ifs at hlater ⊢ with hnot hfree
  · exact h
  · -- first the presented token is used, then its successor is inserted
    let used : AuthnStore := { store with refreshTokens := store.consumeToken presentedId at_ }
    let change : RefreshToken → RefreshToken := fun row =>
      if row.id = presentedId && row.status = .active then row.consume at_ else row
    have hchange : ∀ row : RefreshToken, row.Later (change row) := fun row =>
      row.later_ite (row.later_consume at_)
    have hused : used.Chained settings :=
      h.changed ⟨.refl Session.Later.refl _, .refl TokenFamily.Later.refl _,
        consumeToken_later presentedId at_⟩ hchange rfl rfl
    obtain ⟨presented, hmem, hid, hactive⟩ : ∃ presented ∈ store.refreshTokens.rows,
        presented.id = presentedId ∧ presented.status = .active := by
      simpa [rotates] using hnot
    obtain ⟨hfamily, hgeneration⟩ := hsound presented (by rw [← hid]; exact Table.get_of_mem hmem)
    have hselect : used.tokensOfFamily presented.familyId =
        (store.tokensOfFamily presented.familyId).map change := tokensOfFamily_map hchange rfl _
    have hpresented := mem_tokensOfFamily.mpr ⟨hmem, rfl⟩
    refine hused.inserted ⟨hlater.sessions, hlater.tokenFamilies,
      insertRow_evolves RefreshToken.Later.refl ?_⟩ ?_ ?_ ?_ ?_ rfl rfl
    · rw [get_consumeToken, get_of_admitsToken hfree]
      rfl
    · rw [admitsToken_iff] at hfree ⊢
      intro row hrow
      obtain ⟨old, hold, rfl⟩ := List.mem_map.mp hrow
      split_ifs
      · exact hfree old hold
      · exact hfree old hold
    · show (store.tokenFamilies.get successor.familyId).isSome = true
      rw [hfamily]
      exact h.families presented hmem
    · rw [hfamily, hselect, List.length_map, hgeneration, h.active _ presented hpresented hactive]
    · rw [hfamily, hselect]
      intro row hrow hrowActive
      obtain ⟨old, hold, rfl⟩ := List.mem_map.mp hrow
      obtain ⟨holdMem, holdFamily⟩ := mem_tokensOfFamily.mp hold
      -- an active row of the family is the presented one, and that one is used
      have heq := h.eq_of_active holdMem hmem holdFamily ((hchange old).active hrowActive) hactive
      have hconsumed : change old = old.consume at_ := if_pos (by simp [heq, hid, hactive])
      rw [hconsumed] at hrowActive
      cases hrowActive
  · exact h

/-- The step lemma: an operation whose arguments belong together keeps the chains. -/
theorem exec (h : store.Chained settings) {op : AuthnOp} (hsound : store.SoundOp settings op) :
    (store.exec settings op).1.Chained settings := by
  have hlater := exec_later settings op store
  cases op with
  | createLogin session family token => exact h.createLogin hsound
  | rotate presentedId successor at_ => exact h.rotate hsound
  | revokeForReuse id at_ event found =>
    exact h.changed hlater (fun row => row.later_ite row.later_revoke) rfl rfl
  | gracePut hash pair ttlSeconds =>
    refine h.of_tokens hlater ?_ ?_
    · show (store.gracePut hash pair ttlSeconds).refreshTokens = _
      unfold AuthnStore.gracePut
      split_ifs <;> rfl
    · intro hash' entry hentry
      rcases get_gracePut hentry with hold | ⟨rfl, hnew⟩
      · exact h.grace hash' entry hold
      · rw [hnew]
        exact hsound
  | revokeSubject subject ttlSeconds =>
    show (store.revokeSubject subject ttlSeconds).Chained settings
    unfold AuthnStore.revokeSubject
    split_ifs
    · exact h.of_tokens (.of_eq rfl rfl rfl) rfl h.grace
    · exact h
  | registerFailure key policy =>
    show (store.registerFailure key policy).Chained settings
    unfold AuthnStore.registerFailure
    split_ifs
    · exact h.of_tokens (.of_eq rfl rfl rfl) rfl h.grace
    · exact h
  | resetLockout key =>
    show (store.resetLockout key).Chained settings
    unfold AuthnStore.resetLockout
    split_ifs
    · exact h.of_tokens (.of_eq rfl rfl rfl) rfl h.grace
    · exact h
  | _ => exact h.of_tokens hlater rfl h.grace

end Chained

/-- A rotation that is won: the presented token was active and is used, the successor is there. -/
theorem rotate_won {presentedId : String} {successor : RefreshToken} {at_ : Int}
    (h : (store.rotate presentedId successor at_).2 = some true) :
    (∃ row ∈ store.refreshTokens.get presentedId, row.status = .active) ∧
      (∃ row ∈ (store.rotate presentedId successor at_).1.refreshTokens.get presentedId,
        row.status ≠ .active) ∧
      (store.rotate presentedId successor at_).1.refreshTokens.get successor.id =
        some successor := by
  unfold rotate at h ⊢
  split_ifs at h ⊢ with hnot hfree
  · cases h
  · obtain ⟨presented, hmem, rfl, hactive⟩ : ∃ presented ∈ store.refreshTokens.rows,
        presented.id = presentedId ∧ presented.status = .active := by
      simpa [rotates] using hnot
    have hget := Table.get_of_mem hmem
    have hused : (store.consumeToken presented.id at_).get presented.id =
        some (presented.consume at_) := by
      rw [get_consumeToken, hget]
      simp [hactive]
    have hnone : (store.consumeToken presented.id at_).get successor.id = none := by
      rw [get_consumeToken, get_of_admitsToken hfree]
      rfl
    obtain ⟨row, hrow, hlater⟩ :=
      insertRow_evolves RefreshToken.Later.refl hnone presented.id _ hused
    refine ⟨⟨presented, hget, hactive⟩, ⟨row, hrow, fun hrowActive => ?_⟩, get_insertRow hnone⟩
    cases hlater.active hrowActive

theorem mem_of_findToken {tokenHash : String} {token : RefreshToken}
    (h : store.findToken tokenHash = some token) :
    token ∈ store.refreshTokens.rows ∧ token.tokenHash = tokenHash := by
  simpa [Table.select] using List.mem_of_head? h

theorem mem_of_findActiveToken {familyId : TokenFamilyId} {token : RefreshToken}
    (h : store.findActiveToken familyId = some token) :
    token ∈ store.refreshTokens.rows ∧ token.familyId = familyId ∧ token.status = .active := by
  simpa [Table.select] using List.mem_of_head? h

theorem mem_of_graceGet {hash : String} {pair : GracePair} (h : store.graceGet hash = some pair) :
    ∃ entry ∈ store.graceCache.get hash, entry.pair = pair := by
  unfold graceGet at h
  split_ifs at h
  obtain ⟨entry, hentry, hpair⟩ := Option.map_eq_some_iff.mp h
  exact ⟨entry, (Option.filter_eq_some_iff.mp hentry).1, hpair⟩

end AuthnStore

/-! ## The invariant of a run -/

/-- The token an event has rotated. -/
def rotatedToken (event : Event AuthnOp AuthnStore) : Option String :=
  match event.op with
  | .rotate presentedId successor at_ =>
    if (event.before.rotate presentedId successor at_).2 = some true then some presentedId else none
  | _ => none

theorem rotatedToken_some {event : Event AuthnOp AuthnStore} {id : String}
    (h : rotatedToken event = some id) : ∃ successor at_, event.op = .rotate id successor at_ ∧
      (event.before.rotate id successor at_).2 = some true := by
  unfold rotatedToken at h
  split at h
  · next presentedId successor at_ hop =>
    split_ifs at h with hwon
    obtain rfl := Option.some.inj h
    exact ⟨successor, at_, hop, hwon⟩
  · cases h

/-- The chains, and what the log says about them: a rotated token is not active any more, and no
    token is rotated twice. -/
structure RotationInv (settings : AuthnSettings) (w : AuthnWorld) : Prop where
  chained : w.state.Chained settings
  used : ∀ event ∈ w.log, ∀ id, rotatedToken event = some id →
    ∃ row ∈ w.state.refreshTokens.get id, row.status ≠ .active
  once : w.log.Pairwise fun later earlier => ∀ id, rotatedToken later = some id →
    rotatedToken earlier ≠ some id

/-- The step lemma. -/
theorem RotationInv.act {settings : AuthnSettings} {w : AuthnWorld} (h : RotationInv settings w)
    {i : Nat} {op : AuthnOp} (hsound : w.state.SoundOp settings op) :
    RotationInv settings ((authnMachine settings).act i op w) := by
  have hlater : w.state.Later ((authnMachine settings).act i op w).state :=
    AuthnStore.exec_later settings op w.state
  constructor
  · exact h.chained.exec hsound
  · intro event hevent id hid
    rcases List.mem_cons.mp hevent with rfl | hevent
    · obtain ⟨successor, at_, rfl, hwon⟩ := rotatedToken_some hid
      exact (AuthnStore.rotate_won hwon).2.1
    · obtain ⟨row, hrow, hstatus⟩ := h.used event hevent id hid
      obtain ⟨row', hrow', hsame⟩ := hlater.refreshTokens id row hrow
      exact ⟨row', hrow', fun hactive => hstatus (hsame.active hactive)⟩
  · refine List.pairwise_cons.mpr ⟨?_, h.once⟩
    intro earlier hearlier id hid hearlierId
    obtain ⟨successor, at_, rfl, hwon⟩ := rotatedToken_some hid
    obtain ⟨row, hrow, hactive⟩ := (AuthnStore.rotate_won hwon).1
    obtain ⟨row', hrow', hstatus⟩ := h.used earlier hearlier id hearlierId
    obtain rfl := Option.some.inj (hrow.symm.trans hrow')
    exact hstatus hactive

end AccessCore
