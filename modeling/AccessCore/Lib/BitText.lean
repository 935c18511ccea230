/-
  Bytes written in digits of another width, as RFC 4648 writes them in base 32 or base 64.

  The bits of the bytes, most significant first, are continued with zeros to whole digits
  (`encode`); reading takes the bits of the digits and drops those that fill no byte (`decode`).
  Fewer zeros are added than a digit has bits, and this makes the text unique: digits whose bits
  are those of the bytes and fewer than one digit of zeros are the text (`eq_encode`).  So an
  encoder is correct as soon as it drops or invents no bit, however it goes about it.
-/
import Mathlib

namespace AccessCore

namespace BitText

variable {k n : Nat}

/-! ## Bits -/

/-- The bits of a digit, most significant first. -/
def bits (d : BitVec k) : List Bool := (List.range k).map d.getMsbD

@[simp] theorem length_bits (d : BitVec k) : (bits d).length = k := by
  simp [bits]

theorem bits_inj {d e : BitVec k} (h : bits d = bits e) : d = e := by
  apply BitVec.eq_of_getMsbD_eq
  intro i hi
  have hbit := congrArg (fun bs => bs[i]?) h
  simpa [bits, hi] using hbit

def allBits (ds : List (BitVec k)) : List Bool := ds.flatMap bits

@[simp] theorem allBits_nil : allBits ([] : List (BitVec k)) = [] := rfl

theorem allBits_cons (d : BitVec k) (ds : List (BitVec k)) :
    allBits (d :: ds) = bits d ++ allBits ds := rfl

theorem allBits_append (ds es : List (BitVec k)) :
    allBits (ds ++ es) = allBits ds ++ allBits es := List.flatMap_append

theorem allBits_concat (ds : List (BitVec k)) (d : BitVec k) :
    allBits (ds ++ [d]) = allBits ds ++ bits d := by
  rw [allBits_append, allBits_cons, allBits_nil, List.append_nil]

theorem length_allBits (ds : List (BitVec k)) : (allBits ds).length = ds.length * k := by
  induction ds with
  | nil => simp
  | cons d ds ih =>
    rw [allBits_cons, List.length_append, length_bits, ih, List.length_cons, Nat.succ_mul,
      Nat.add_comm]

theorem allBits_inj (hk : 0 < k) {ds es : List (BitVec k)} (h : allBits ds = allBits es) :
    ds = es := by
  induction ds generalizing es with
  | nil =>
    have hlength := congrArg List.length h
    simp only [length_allBits, List.length_nil, Nat.zero_mul] at hlength
    have hes : es.length = 0 := by
      rcases Nat.mul_eq_zero.mp hlength.symm with hes | hzero
      · exact hes
      · omega
    exact (List.length_eq_zero_iff.mp hes).symm
  | cons d ds ih =>
    cases es with
    | nil =>
      have hlength := congrArg List.length h
      simp only [length_allBits, List.length_nil, Nat.zero_mul, List.length_cons,
        Nat.succ_mul] at hlength
      omega
    | cons e es =>
      rw [allBits_cons, allBits_cons] at h
      have hlength : (bits d).length = (bits e).length := by rw [length_bits, length_bits]
      obtain ⟨hd, hds⟩ := List.append_inj h hlength
      rw [bits_inj hd, ih hds]

/-! ## Digits of a bit string -/

/-- The first `m` digits of `k` bits of a bit string, which is continued with zeros. -/
def pieces (k m : Nat) (bs : List Bool) : List (BitVec k) :=
  (List.range m).map fun i => BitVec.ofFnBE fun j : Fin k => bs.getD (i * k + j) false

theorem bits_ofFnBE (f : Nat → Bool) :
    bits (BitVec.ofFnBE fun j : Fin k => f j) = (List.range k).map f := by
  unfold bits
  refine List.map_congr_left fun i hi => ?_
  have hi : i < k := List.mem_range.mp hi
  have hrev : k - (k - 1 - i + 1) = i := by omega
  rw [BitVec.getMsbD_eq_getElem _ _ hi, BitVec.getElem_ofFnBE, Fin.val_rev, hrev]

/-- The bits of the digits are those of the string, continued with zeros. -/
theorem allBits_pieces (k m : Nat) (bs : List Bool) :
    allBits (pieces k m bs) = (List.range (m * k)).map fun i => bs.getD i false := by
  induction m with
  | zero => simp [pieces]
  | succ m ih =>
    have hlast : pieces k (m + 1) bs =
        pieces k m bs ++ [BitVec.ofFnBE fun j : Fin k => bs.getD (m * k + j) false] := by
      simp [pieces, List.range_succ]
    rw [hlast, allBits_concat, ih, bits_ofFnBE fun j => bs.getD (m * k + j) false, Nat.succ_mul,
      List.range_add, List.map_append, List.map_map]
    rfl

theorem map_getD_of_ge {bs : List Bool} {m : Nat} (h : m ≤ bs.length) :
    (List.range m).map (fun i => bs.getD i false) = bs.take m := by
  apply List.ext_getElem
  · simp [h]
  · intro i hi _
    have hbs : i < bs.length := by
      have hm : i < m := by simpa using hi
      omega
    simp [hbs]

theorem map_getD_of_le {bs : List Bool} {m : Nat} (h : bs.length ≤ m) :
    (List.range m).map (fun i => bs.getD i false) =
      bs ++ List.replicate (m - bs.length) false := by
  obtain ⟨p, rfl⟩ := Nat.exists_eq_add_of_le h
  have hbeyond : ∀ i, bs.getD (bs.length + i) false = false := fun i => by simp
  rw [List.range_add, List.map_append, List.map_map, map_getD_of_ge le_rfl, List.take_length,
    Nat.add_sub_cancel_left]
  congr 1
  calc (List.range p).map ((fun i => bs.getD i false) ∘ (bs.length + ·))
      = (List.range p).map fun _ => false := List.map_congr_left fun i _ => hbeyond i
    _ = List.replicate p false := by simp

/-! ## Writing and reading -/

/-- How many digits of `k` bits hold `l` bits. -/
def digitsFor (k l : Nat) : Nat := (l + (k - 1)) / k

/-- The digits of `k` bits that `xs` is written in. -/
def encode (k : Nat) (xs : List (BitVec n)) : List (BitVec k) :=
  pieces k (digitsFor k (allBits xs).length) (allBits xs)

/-- The whole elements of `n` bits that the digits hold. -/
def decode (n : Nat) (ds : List (BitVec k)) : List (BitVec n) :=
  pieces n ((allBits ds).length / n) (allBits ds)

theorem digitsFor_eq {l m p : Nat} (hp : p < k) (h : m * k = l + p) : digitsFor k l = m := by
  unfold digitsFor
  apply Nat.div_eq_of_lt_le
  · omega
  · rw [Nat.succ_mul]
    omega

theorem exists_digitsFor (hk : 0 < k) (l : Nat) : ∃ p < k, digitsFor k l * k = l + p := by
  have hdiv := Nat.div_add_mod (l + (k - 1)) k
  have hmod := Nat.mod_lt (l + (k - 1)) hk
  rw [Nat.mul_comm] at hdiv
  unfold digitsFor
  exact ⟨k - 1 - (l + (k - 1)) % k, by omega, by omega⟩

/-- The bits of the text: those written, and fewer than one digit of zeros. -/
theorem allBits_encode (hk : 0 < k) (xs : List (BitVec n)) :
    ∃ p < k, allBits (encode k xs) = allBits xs ++ List.replicate p false := by
  obtain ⟨p, hp, hlength⟩ := exists_digitsFor hk (allBits xs).length
  refine ⟨p, hp, ?_⟩
  unfold encode
  rw [allBits_pieces, hlength, map_getD_of_le (by omega), Nat.add_sub_cancel_left]

/-- **The bits make the text**: no other digits have these bits and so few zeros. -/
theorem eq_encode {xs : List (BitVec n)} {ds : List (BitVec k)} {p : Nat} (hp : p < k)
    (h : allBits ds = allBits xs ++ List.replicate p false) : ds = encode k xs := by
  have hlength := congrArg List.length h
  rw [length_allBits, List.length_append, List.length_replicate] at hlength
  apply allBits_inj (by omega)
  unfold encode
  rw [allBits_pieces, digitsFor_eq hp hlength, hlength, map_getD_of_le (by omega),
    Nat.add_sub_cancel_left, h]

/-- Reading gives back what was written, in digits no wider than what is read. -/
theorem decode_encode (hk : 0 < k) (hkn : k ≤ n) (xs : List (BitVec n)) :
    decode n (encode k xs) = xs := by
  obtain ⟨p, hp, hbits⟩ := allBits_encode hk xs
  -- The zeros fill no element.
  have hwhole : (allBits (encode k xs)).length / n = xs.length := by
    rw [hbits, List.length_append, List.length_replicate, length_allBits]
    apply Nat.div_eq_of_lt_le
    · omega
    · rw [Nat.succ_mul]
      omega
  apply allBits_inj (by omega)
  unfold decode
  rw [allBits_pieces, hwhole, ← length_allBits, map_getD_of_ge (by simp [hbits]), hbits,
    List.take_left]

/-! ## Alphabets -/

/-- A symbol for each digit of `k` bits. -/
structure Alphabet (σ : Type) (k : Nat) where
  symbols : List σ
  length_eq : symbols.length = 2 ^ k
  nodup : symbols.Nodup

namespace Alphabet

variable {σ : Type} (A : Alphabet σ k)

def symbol (d : BitVec k) : σ :=
  A.symbols.get ⟨d.toNat, A.length_eq ▸ d.isLt⟩

/-- The text of `xs`. -/
def text (xs : List (BitVec n)) : List σ := (encode k xs).map A.symbol

variable [DecidableEq σ]

/-- The digit of a symbol of the alphabet. -/
def digit (c : σ) : Option (BitVec k) :=
  if c ∈ A.symbols then some (BitVec.ofNat k (A.symbols.idxOf c)) else none

theorem digit_symbol (d : BitVec k) : A.digit (A.symbol d) = some d := by
  have hmem : A.symbol d ∈ A.symbols := List.get_mem _ _
  have hidx : A.symbols.idxOf (A.symbol d) = d.toNat := A.nodup.idxOf_getElem _ _
  rw [digit, if_pos hmem, hidx, BitVec.ofNat_toNat, BitVec.setWidth_eq]

/-- Reads a text; one with a foreign symbol is refused. -/
def read (n : Nat) (cs : List σ) : Option (List (BitVec n)) := (cs.mapM A.digit).map (decode n)

theorem mapM_digit (ds : List (BitVec k)) : (ds.map A.symbol).mapM A.digit = some ds := by
  induction ds with
  | nil => rfl
  | cons d ds ih =>
    rw [List.map_cons, List.mapM_cons, A.digit_symbol, ih]
    rfl

/-- **A text is read back.** -/
theorem read_text (hk : 0 < k) (hkn : k ≤ n) (xs : List (BitVec n)) :
    A.read n (A.text xs) = some xs := by
  rw [read, text, A.mapM_digit, Option.map_some, decode_encode hk hkn]

end Alphabet

end BitText

end AccessCore
