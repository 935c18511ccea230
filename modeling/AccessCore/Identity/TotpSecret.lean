/-
  The text of a TOTP secret (`identity/domain/value-objects/totp-secret.ts`).

  `encodeBase32` shifts every byte into one accumulator of 32 bits and never clears it, so old bits
  fall off its left end and from the fourth byte on its sign is arbitrary.  Only its low `bits` bits
  are ever read: they are the bits of the bytes that have not been written yet (`Pending`), and a
  byte is shifted in only when fewer than five of them are left.
-/
import AccessCore.Lib.BitText
import AccessCore.Lib.JsString

namespace AccessCore

open JsString BitText

/-! ## The code -/

/-- `value << count`, on the 32 bits of `value`; the count is taken modulo 32. -/
def shiftLeft (value : BitVec 32) (count : Nat) : BitVec 32 := value <<< (count % 32)

/-- `value >>> count`. -/
def shiftRight (value : BitVec 32) (count : Nat) : BitVec 32 := value >>> (count % 32)

def base32Alphabet : JsString := ascii "ABCDEFGHIJKLMNOPQRSTUVWXYZ234567"

/-- What `+= BASE32_ALPHABET[index]` appends. -/
def base32Char (index : BitVec 32) : JsString :=
  match base32Alphabet[index.toNat]? with
  | some unit => [unit]
  | none => ascii "undefined"

/-- The variables of `encodeBase32`. -/
structure Base32Encoder where
  bits : Nat
  value : BitVec 32
  output : JsString

namespace Base32Encoder

/-- `while (bits >= 5)`: writes five bits at a time. -/
def drain (value : BitVec 32) : Nat → JsString → Base32Encoder
  | bits + 5, output => drain value bits (output ++ base32Char (shiftRight value bits &&& 31))
  | bits, output => ⟨bits, value, output⟩

/-- The body of the loop over the bytes. -/
def push (encoder : Base32Encoder) (byte : BitVec 8) : Base32Encoder :=
  drain (shiftLeft encoder.value 8 ||| byte.setWidth 32) (encoder.bits + 8) encoder.output

/-- What is returned after the loop: bits that are left are filled up with zeros. -/
def finish (encoder : Base32Encoder) : JsString :=
  if encoder.bits > 0 then
    encoder.output ++ base32Char (shiftLeft encoder.value (5 - encoder.bits) &&& 31)
  else encoder.output

end Base32Encoder

def encodeBase32 (bytes : List (BitVec 8)) : JsString :=
  (bytes.foldl Base32Encoder.push ⟨0, 0, []⟩).finish

/-- `TotpSecret`, by its private field. -/
structure TotpSecret where
  value : List (BitVec 8)

def TotpSecret.toBase32 (secret : TotpSecret) : JsString := encodeBase32 secret.value

/-! ## The alphabet -/

/-- The base 32 alphabet of RFC 4648: the letters, then the digits from 2 to 7. -/
def rfc4648Base32 : Alphabet CodeUnit 5 where
  symbols := (List.range 26).map (fun i => Fin.ofNat 65536 (65 + i)) ++
    (List.range 6).map fun i => Fin.ofNat 65536 (50 + i)
  length_eq := by decide
  nodup := by decide

theorem base32Alphabet_eq : base32Alphabet = rfc4648Base32.symbols := by decide

/-- The low five bits pick a symbol; the index is never out of range. -/
theorem base32Char_and (value : BitVec 32) :
    base32Char (value &&& 31) = [rfc4648Base32.symbol (value.setWidth 5)] := by
  have hindex : (value &&& 31).toNat = (value.setWidth 5).toNat := by
    rw [BitVec.toNat_and, BitVec.toNat_setWidth]
    exact Nat.and_two_pow_sub_one_eq_mod value.toNat 5
  have hlength : rfc4648Base32.symbols.length = 32 := rfc4648Base32.length_eq
  have hlt : (value &&& 31).toNat < rfc4648Base32.symbols.length := by
    have h := (value.setWidth 5).isLt
    omega
  unfold base32Char
  rw [base32Alphabet_eq, List.getElem?_eq_getElem hlt]
  simp only [Alphabet.symbol, hindex, List.get_eq_getElem]

/-! ## The bits that are left -/

/-- The low `n` bits of the accumulator, most significant first. -/
def low (n : Nat) (value : BitVec 32) : List Bool := bits (value.setWidth n)

theorem low_eq (n : Nat) (value : BitVec 32) :
    low n value = (List.range n).map fun i => value.getLsbD (n - 1 - i) := by
  unfold low bits
  refine List.map_congr_left fun i hi => ?_
  have hi : i < n := List.mem_range.mp hi
  have hlast : n - 1 - i < n := by omega
  simp [BitVec.getMsbD_eq_getLsbD, hi, hlast]

/-- The low bits are read in two parts. -/
theorem low_add (m n : Nat) (value : BitVec 32) :
    low (m + n) value = low m (value >>> n) ++ low n value := by
  rw [low_eq, low_eq, low_eq, List.range_add, List.map_append, List.map_map]
  congr 1
  · refine List.map_congr_left fun i hi => ?_
    have hi : i < m := List.mem_range.mp hi
    have hbit : m + n - 1 - i = n + (m - 1 - i) := by omega
    rw [BitVec.getLsbD_ushiftRight, hbit]
  · refine List.map_congr_left fun i hi => ?_
    have hbit : m + n - 1 - (m + i) = n - 1 - i := by omega
    simp only [Function.comp_apply, hbit]

theorem low_congr {n : Nat} {v w : BitVec 32} (h : ∀ i < n, v.getLsbD i = w.getLsbD i) :
    low n v = low n w := by
  rw [low_eq, low_eq]
  refine List.map_congr_left fun i hi => ?_
  have hi : i < n := List.mem_range.mp hi
  exact h _ (by omega)

/-- A byte shifted in joins the low bits, as long as these still fit. -/
theorem low_shiftLeft_or {n : Nat} (hn : n + 8 ≤ 32) (value : BitVec 32) (byte : BitVec 8) :
    low (n + 8) (shiftLeft value 8 ||| byte.setWidth 32) = low n value ++ bits byte := by
  rw [low_add]
  congr 1
  · refine low_congr fun i hi => ?_
    have hword : i < 32 := by omega
    have hfits : 8 + i < 32 := by omega
    have hnot : ¬ 8 + i < 8 := by omega
    simp [shiftLeft, hword, hfits, hnot]
  · have hbyte : (shiftLeft value 8 ||| byte.setWidth 32).setWidth 8 = byte := by
      apply BitVec.eq_of_getLsbD_eq
      intro i hi
      simp [shiftLeft, hi]
    rw [low, hbyte]

/-- Zeros shifted in follow the low bits. -/
theorem low_shiftLeft {m n : Nat} (h : n + m ≤ 5) (value : BitVec 32) :
    low (n + m) (shiftLeft value m) = low n value ++ List.replicate m false := by
  have hcount : m % 32 = m := Nat.mod_eq_of_lt (by omega)
  rw [low_add, shiftLeft, hcount]
  congr 1
  · refine low_congr fun i hi => ?_
    have hword : i < 32 := by omega
    have hfits : m + i < 32 := by omega
    have hnot : ¬ m + i < m := by omega
    simp [hword, hfits, hnot]
  · rw [low_eq]
    apply List.ext_getElem
    · simp
    · intro i hi _
      have hm : i < m := by simpa using hi
      have hlow : m - 1 - i < m := by omega
      simp [hlow]

/-! ## The encoder -/

/-- What has been written and what is left make up the bytes read so far. -/
structure Pending (bytes : List (BitVec 8)) (encoder : Base32Encoder) : Prop where
  few : encoder.bits < 5
  made : ∃ ds : List (BitVec 5), encoder.output = ds.map rfc4648Base32.symbol ∧
    allBits ds ++ low encoder.bits encoder.value = allBits bytes

/-- Draining moves bits from the accumulator to the output. -/
theorem drain_pending {bytes : List (BitVec 8)} (value : BitVec 32) (bits : Nat)
    (hbits : bits ≤ 32) (ds : List (BitVec 5))
    (h : allBits ds ++ low bits value = allBits bytes) :
    Pending bytes (Base32Encoder.drain value bits (ds.map rfc4648Base32.symbol)) := by
  induction bits using Nat.strongRecOn generalizing ds with
  | ind bits ih =>
    by_cases hfew : bits < 5
    · have hstop : Base32Encoder.drain value bits (ds.map rfc4648Base32.symbol) =
          ⟨bits, value, ds.map rfc4648Base32.symbol⟩ := by
        interval_cases bits <;> rfl
      rw [hstop]
      exact ⟨hfew, ds, rfl, h⟩
    · obtain ⟨left, rfl⟩ := Nat.exists_eq_add_of_le' (Nat.le_of_not_lt hfew)
      have hcount : left % 32 = left := Nat.mod_eq_of_lt (by omega)
      have houtput : ds.map rfc4648Base32.symbol ++ base32Char (shiftRight value left &&& 31) =
          (ds ++ [(value >>> left).setWidth 5]).map rfc4648Base32.symbol := by
        rw [base32Char_and, shiftRight, hcount, List.map_append, List.map_singleton]
      rw [Base32Encoder.drain, houtput]
      refine ih left (by omega) (by omega) _ ?_
      rw [allBits_concat, List.append_assoc, ← h, Nat.add_comm left 5, low_add]
      rfl

theorem push_pending {bytes : List (BitVec 8)} {encoder : Base32Encoder}
    (h : Pending bytes encoder) (byte : BitVec 8) :
    Pending (bytes ++ [byte]) (encoder.push byte) := by
  obtain ⟨hfew, ds, houtput, hbits⟩ := h
  have hjoined : allBits ds ++
      low (encoder.bits + 8) (shiftLeft encoder.value 8 ||| byte.setWidth 32) =
        allBits (bytes ++ [byte]) := by
    rw [low_shiftLeft_or (by omega), ← List.append_assoc, hbits, allBits_concat]
  have hdrained := drain_pending _ _ (by omega) ds hjoined
  rw [Base32Encoder.push, houtput]
  exact hdrained

theorem foldl_pending (bytes : List (BitVec 8)) :
    Pending bytes (bytes.foldl Base32Encoder.push ⟨0, 0, []⟩) := by
  induction bytes using List.reverseRecOn with
  | nil => exact ⟨by decide, [], rfl, rfl⟩
  | append_singleton bytes byte ih =>
    rw [List.foldl_append]
    exact push_pending ih byte

theorem finish_eq {bytes : List (BitVec 8)} {encoder : Base32Encoder} (h : Pending bytes encoder) :
    encoder.finish = rfc4648Base32.text bytes := by
  obtain ⟨hfew, ds, houtput, hbits⟩ := h
  unfold Base32Encoder.finish Alphabet.text
  by_cases hleft : encoder.bits > 0
  · -- The last symbol: what is left, and zeros.
    obtain ⟨zeros, hzeros⟩ := Nat.exists_eq_add_of_le (Nat.le_of_lt hfew)
    have hcount : 5 - encoder.bits = zeros := by omega
    have hdigits : ds ++ [(shiftLeft encoder.value zeros).setWidth 5] = encode 5 bytes := by
      apply eq_encode (p := zeros) (by omega)
      have hlast : low 5 (shiftLeft encoder.value zeros) =
          low encoder.bits encoder.value ++ List.replicate zeros false := by
        rw [hzeros]
        exact low_shiftLeft (by omega) encoder.value
      rw [allBits_concat, ← hbits, List.append_assoc, ← hlast]
      rfl
    rw [if_pos hleft, hcount, base32Char_and, houtput, ← hdigits, List.map_append,
      List.map_singleton]
  · have hzero : encoder.bits = 0 := by omega
    have hdigits : ds = encode 5 bytes := by
      apply eq_encode (p := 0) (by omega)
      rw [← hbits, hzero]
      simp [low_eq]
    rw [if_neg hleft, houtput, hdigits]

/-- **A secret is written as its base 32 text**, whatever its length, and that text gives the bytes
back. -/
theorem encodeBase32_eq (bytes : List (BitVec 8)) :
    encodeBase32 bytes = rfc4648Base32.text bytes ∧
      rfc4648Base32.read 8 (encodeBase32 bytes) = some bytes := by
  have htext : encodeBase32 bytes = rfc4648Base32.text bytes := finish_eq (foldl_pending bytes)
  constructor
  · exact htext
  · rw [htext]
    exact rfc4648Base32.read_text (by omega) (by omega) bytes

/-- `foobar`: the accumulator has lost its first two bytes when the last bit is written. -/
example : encodeBase32 [0x66, 0x6f, 0x6f, 0x62, 0x61, 0x72] = ascii "MZXW6YTBOI" := by decide

end AccessCore
