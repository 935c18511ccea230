/-
  Hash chains: every block stores a digest of its own content linked to the digest before it.

  Verification walks the blocks, recomputes each link and reports the first block whose stored
  digest is not the recomputed one (`brokenAt`).  A chain that was linked from the genesis
  determines its own blocks: if linking is injective and never gives the genesis back, then in
  any list of blocks whose digests all come from the chain, verification breaks exactly at the
  first block that is not the chain's block at that place (`brokenAt_eq_firstDifference`).

  The crux is `trail_inj`: the digests along a linked chain, the genesis included, are pairwise
  distinct, so a digest says at which place of the chain it was computed.
-/
import Mathlib

namespace HashChain

variable {β δ : Type}

/-- A block: what is hashed, and the digest stored beside it. -/
structure Block (β δ : Type) where
  content : β
  digest : δ
deriving DecidableEq

/-- The digest a chain ends in. -/
def last (genesis : δ) : List (Block β δ) → δ
  | [] => genesis
  | b :: bs => last b.digest bs

theorem last_append (genesis : δ) (bs : List (Block β δ)) (b : Block β δ) :
    last genesis (bs ++ [b]) = b.digest := by
  induction bs generalizing genesis with
  | nil => rfl
  | cons c bs ih => exact ih c.digest

/-! ## Verification -/

section Verification

variable [DecidableEq δ] (link : δ → β → δ)

/-- The index of the first block whose digest does not link to the one before it. -/
def brokenAt : δ → List (Block β δ) → Option Nat
  | _, [] => none
  | prev, b :: bs =>
    if link prev b.content = b.digest then (brokenAt b.digest bs).map (· + 1) else some 0

/-- Every block links to the one before it. -/
def Linked (prev : δ) (bs : List (Block β δ)) : Prop :=
  brokenAt link prev bs = none

theorem linked_nil (prev : δ) : Linked link prev [] := rfl

theorem linked_cons {prev : δ} {b : Block β δ} {bs : List (Block β δ)} :
    Linked link prev (b :: bs) ↔ link prev b.content = b.digest ∧ Linked link b.digest bs := by
  by_cases h : link prev b.content = b.digest
  · simp [Linked, brokenAt, h]
  · simp [Linked, brokenAt, h]

/-- Appending a block that links to the last digest keeps the chain linked. -/
theorem linked_append {genesis : δ} {bs : List (Block β δ)} {b : Block β δ}
    (h : Linked link genesis bs) (hb : link (last genesis bs) b.content = b.digest) :
    Linked link genesis (bs ++ [b]) := by
  induction bs generalizing genesis with
  | nil => exact (linked_cons link).mpr ⟨hb, linked_nil link _⟩
  | cons c bs ih =>
    obtain ⟨hc, hbs⟩ := (linked_cons link).mp h
    have htail : Linked link c.digest (bs ++ [b]) := ih hbs hb
    exact (linked_cons link).mpr ⟨hc, htail⟩

end Verification

/-! ## Where two lists of blocks first differ -/

/-- The first index of the second list that does not hold what the first holds there. -/
def firstDifference {α : Type} [DecidableEq α] : List α → List α → Option Nat
  | _, [] => none
  | [], _ :: _ => some 0
  | a :: as, b :: bs => if a = b then (firstDifference as bs).map (· + 1) else some 0

section FirstDifference

variable {α : Type} [DecidableEq α]

/-- Nowhere different: a prefix. -/
theorem firstDifference_eq_none {as bs : List α} : firstDifference as bs = none ↔ bs <+: as := by
  induction bs generalizing as with
  | nil => simp [firstDifference]
  | cons b bs ih =>
    cases as with
    | nil => simp [firstDifference]
    | cons a as =>
      by_cases hab : a = b
      · subst hab
        simp [firstDifference, ih, List.cons_prefix_cons]
      · have hba : ¬ b = a := fun h => hab h.symm
        simp [firstDifference, hab, hba, List.cons_prefix_cons]

/-- A difference at `k` means agreement before `k`, and another element, or none, at `k`. -/
theorem firstDifference_eq_some {as bs : List α} {k : Nat} (h : firstDifference as bs = some k) :
    k < bs.length ∧ bs.take k = as.take k ∧ bs[k]? ≠ as[k]? := by
  induction bs generalizing as k with
  | nil => simp [firstDifference] at h
  | cons b bs ih =>
    cases as with
    | nil =>
      have hk : k = 0 := by simpa [firstDifference] using h.symm
      subst hk
      simp
    | cons a as =>
      by_cases hab : a = b
      · subst hab
        simp only [firstDifference, if_true] at h
        obtain ⟨j, hj, rfl⟩ := Option.map_eq_some_iff.mp h
        obtain ⟨hlt, htake, hne⟩ := ih hj
        refine ⟨?_, ?_, ?_⟩
        · rw [List.length_cons]
          omega
        · rw [List.take_succ_cons, List.take_succ_cons, htake]
        · simpa using hne
      · have hk : k = 0 := by simpa [firstDifference, hab] using h.symm
        subst hk
        have hba : ¬ b = a := fun h => hab h.symm
        simp [hba]

end FirstDifference

/-! ## A linked chain determines its blocks -/

section Commitment

variable {link : δ → β → δ} {genesis : δ}

/-- The digests a walk has in hand: the genesis, then the digest of every block. -/
def trail (genesis : δ) (bs : List (Block β δ)) : List δ := genesis :: bs.map (·.digest)

@[simp] theorem trail_zero (bs : List (Block β δ)) : (trail genesis bs)[0]? = some genesis := rfl

theorem trail_succ (bs : List (Block β δ)) (k : Nat) :
    (trail genesis bs)[k + 1]? = bs[k]?.map (·.digest) := by
  simp [trail]

variable [DecidableEq δ]

/-- The block at `k` links to the digest in hand there. -/
theorem linked_at {bs : List (Block β δ)} (h : Linked link genesis bs) {k : Nat} {b : Block β δ}
    (hk : bs[k]? = some b) :
    ∃ prev, (trail genesis bs)[k]? = some prev ∧ link prev b.content = b.digest := by
  induction bs generalizing genesis k with
  | nil => simp at hk
  | cons c bs ih =>
    obtain ⟨hc, hbs⟩ := (linked_cons link).mp h
    cases k with
    | zero =>
      have hcb : c = b := by simpa using hk
      exact ⟨genesis, rfl, hcb ▸ hc⟩
    | succ k =>
      have hk' : bs[k]? = some b := by simpa using hk
      obtain ⟨prev, hprev, hlink⟩ := ih hbs hk'
      refine ⟨prev, ?_, hlink⟩
      simpa [trail] using hprev

variable (hinj : ∀ p q a b, link p a = link q b → p = q ∧ a = b)
  (hgen : ∀ p a, link p a ≠ genesis)

include hinj hgen in
/-- The digests in hand along a linked chain are pairwise distinct. -/
theorem trail_inj {bs : List (Block β δ)} (h : Linked link genesis bs) {j k : Nat} {d : δ}
    (hj : (trail genesis bs)[j]? = some d) (hk : (trail genesis bs)[k]? = some d) : j = k := by
  induction j generalizing k d with
  | zero =>
    cases k with
    | zero => rfl
    | succ k =>
      -- a digest that comes back to the genesis
      rw [trail_succ] at hk
      obtain ⟨b, hb, rfl⟩ := Option.map_eq_some_iff.mp hk
      obtain ⟨prev, -, hlink⟩ := linked_at h hb
      have hd : genesis = b.digest := Option.some.inj hj
      exact absurd (hlink.trans hd.symm) (hgen _ _)
  | succ j ih =>
    rw [trail_succ] at hj
    obtain ⟨b, hb, rfl⟩ := Option.map_eq_some_iff.mp hj
    obtain ⟨prev, hprev, hlink⟩ := linked_at h hb
    cases k with
    | zero =>
      have hd : genesis = b.digest := Option.some.inj hk
      exact absurd (hlink.trans hd.symm) (hgen _ _)
    | succ k =>
      rw [trail_succ] at hk
      obtain ⟨c, hc, hcb⟩ := Option.map_eq_some_iff.mp hk
      obtain ⟨prev', hprev', hlink'⟩ := linked_at h hc
      have heq : link prev b.content = link prev' c.content := by rw [hlink, hlink', hcb]
      obtain ⟨hpp, -⟩ := hinj _ _ _ _ heq
      have hjk : j = k := ih hprev (hpp ▸ hprev')
      omega

include hinj hgen in
/-- Only the chain's own block at a place links to the digest in hand there and carries a digest
of the chain. -/
theorem block_unique {bs : List (Block β δ)} (h : Linked link genesis bs) {k : Nat} {prev : δ}
    {b : Block β δ} (hprev : (trail genesis bs)[k]? = some prev)
    (hlink : link prev b.content = b.digest) (hmem : b.digest ∈ bs.map (·.digest)) :
    bs[k]? = some b := by
  obtain ⟨c, hc, hcb⟩ := List.mem_map.mp hmem
  obtain ⟨i, hi⟩ := List.mem_iff_getElem?.mp hc
  obtain ⟨prev', hprev', hlink'⟩ := linked_at h hi
  have heq : link prev b.content = link prev' c.content := by rw [hlink, hlink', hcb]
  obtain ⟨hpp, hcontent⟩ := hinj _ _ _ _ heq
  have hki : k = i := trail_inj hinj hgen h hprev (hpp ▸ hprev')
  have hbc : c = b := by
    cases b
    cases c
    simp_all
  rw [hki, hi, hbc]

variable [DecidableEq β]

include hinj hgen in
/-- Verification of blocks that carry the chain's digests breaks where they first leave it. -/
theorem brokenAt_eq_firstDifference {R R' : List (Block β δ)} (hR : Linked link genesis R)
    (hsub : ∀ b ∈ R', b.digest ∈ R.map (·.digest)) :
    brokenAt link genesis R' = firstDifference R R' := by
  -- the walk after `done` blocks of the chain, with the digest in hand there
  have walk : ∀ (rest : List (Block β δ)) (pre suf : List (Block β δ)) (prev : δ),
      pre ++ suf = R → (trail genesis R)[pre.length]? = some prev →
      (∀ b ∈ rest, b.digest ∈ R.map (·.digest)) →
      brokenAt link prev rest = firstDifference suf rest := by
    intro rest
    induction rest with
    | nil => intro pre suf prev _ _ _; cases suf <;> rfl
    | cons b rest ih =>
      intro pre suf prev hsplit hprev hrest
      have hb : b.digest ∈ R.map (·.digest) := hrest b List.mem_cons_self
      have hplace : R[pre.length]? = suf[0]? := by
        rw [← hsplit, List.getElem?_append_right (Nat.le_refl _), Nat.sub_self]
      by_cases hlink : link prev b.content = b.digest
      · have hown : suf[0]? = some b :=
          hplace ▸ block_unique hinj hgen hR hprev hlink hb
        cases suf with
        | nil => simp at hown
        | cons c suf =>
          have hcb : c = b := by simpa using hown
          subst hcb
          have hsplit' : (pre ++ [c]) ++ suf = R := by rw [← hsplit, List.append_assoc]; rfl
          have hprev' : (trail genesis R)[(pre ++ [c]).length]? = some c.digest := by
            rw [List.length_append, List.length_singleton, trail_succ, hplace]
            rfl
          have hstep := ih (pre ++ [c]) suf c.digest hsplit' hprev'
            (fun b hb => hrest b (List.mem_cons_of_mem _ hb))
          simp only [brokenAt, hlink, if_true, firstDifference, hstep]
      · have hown : suf[0]? ≠ some b := by
          intro hown
          obtain ⟨prev', hprev', hlink'⟩ := linked_at hR (hplace.trans hown)
          have hpp : prev' = prev := by
            rw [hprev] at hprev'
            exact (Option.some.inj hprev').symm
          exact hlink (hpp ▸ hlink')
        cases suf with
        | nil => simp [brokenAt, hlink, firstDifference]
        | cons c suf =>
          have hcb : ¬ c = b := by
            rintro rfl
            exact hown rfl
          simp [brokenAt, hlink, firstDifference, hcb]
  exact walk R' [] R genesis rfl rfl hsub

end Commitment

end HashChain
