import AllfeatExplorer.Data.Ss58
import AllfeatExplorer.Web.Model.Ss58

/-!
# Addresses on both sides

The server writes addresses and the browser reads and writes them. What
the server writes under a prefix the browser reads as the account and the
prefix's low 14 bits, and below 16384 the two write the same text. The
browser accepts every text with a prefix, a key of any length and the
right checksum, so the two-byte form of a prefix below 64 as well, which
neither side writes.
-/

namespace AllfeatExplorer

namespace WebSs58

open Ss58 (alice sampleCrates sampleDigest)

variable {modules : Modules} {crates : Ss58.Crates}

/-! ## Prefix bytes -/

/-- The two bytes of a prefix, by their values. -/
def twoBytes (p : ℕ) : List Byte := [byte (64 + p / 4 % 64), byte (p / 256 + p % 4 * 64)]

/-- **The bytes the encoders write a prefix with.** -/
def prefixBytes (p : ℕ) : List Byte := if p < 64 then [byte p] else twoBytes p

theorem first_eq (p : ℕ) : ((p &&& 0x00fc) >>> 2) ||| 0x40 = 64 + p / 4 % 64 := by
  have hmask : (p &&& 0x00fc) >>> 2 = p / 4 % 64 := by
    rw [Nat.shiftRight_and_distrib, Nat.shiftRight_eq_div_pow]
    exact Nat.and_two_pow_sub_one_eq_mod _ 6
  have hor := Nat.two_pow_add_eq_or_of_lt (Nat.mod_lt (p / 4) (by omega : 0 < 2 ^ 6)) 1
  rw [hmask, Nat.or_comm]
  exact hor.symm

theorem second_eq {p : ℕ} (hp : p < 16384) :
    (p >>> 8) ||| ((p &&& 0x0003) <<< 6) = p / 256 + p % 4 * 64 := by
  have hmask : p &&& 0x0003 = p % 4 := Nat.and_two_pow_sub_one_eq_mod p 2
  have hlt : p / 256 < 2 ^ 6 := by omega
  have hor := Nat.shiftLeft_add_eq_or_of_lt hlt (p % 4)
  rw [hmask, Nat.shiftRight_eq_div_pow, Nat.or_comm, ← hor, Nat.shiftLeft_eq]
  omega

theorem decoded_eq {b0 b1 : ℕ} (h1 : b1 < 256) :
    ((b0 &&& 0x3f) <<< 2) ||| (b1 >>> 6) ||| ((b1 &&& 0x3f) <<< 8) =
      b0 % 64 * 4 + b1 / 64 + b1 % 64 * 256 := by
  have hb0 : b0 &&& 0x3f = b0 % 64 := Nat.and_two_pow_sub_one_eq_mod b0 6
  have hb1 : b1 &&& 0x3f = b1 % 64 := Nat.and_two_pow_sub_one_eq_mod b1 6
  have hhigh : b1 / 64 < 2 ^ 2 := by omega
  have hlow : (b0 % 64) <<< 2 + b1 / 64 < 2 ^ 8 := by
    rw [Nat.shiftLeft_eq]
    omega
  rw [hb0, hb1, Nat.shiftRight_eq_div_pow, ← Nat.shiftLeft_add_eq_or_of_lt hhigh, Nat.or_comm,
    ← Nat.shiftLeft_add_eq_or_of_lt hlow, Nat.shiftLeft_eq, Nat.shiftLeft_eq]
  omega

@[simp] theorem val_byte {n : ℕ} (h : n < 256) : (byte n).val = n := Nat.mod_eq_of_lt h

theorem server_first {q : UInt16} :
    (((q &&& 0x00fc) >>> 2).toUInt8 ||| 0x40).toFin = byte (64 + q.toNat / 4 % 64) := by
  have hmask : ((q &&& 0x00fc) >>> 2).toNat = (q.toNat &&& 0x00fc) >>> 2 := by
    rw [UInt16.toNat_shiftRight, UInt16.toNat_and]
    rfl
  have hfirst := first_eq q.toNat
  have hlt : (q.toNat &&& 0x00fc) >>> 2 < 256 := by
    have hle := Nat.left_le_or (n := (q.toNat &&& 0x00fc) >>> 2) (m := 0x40)
    omega
  refine Fin.ext ?_
  rw [val_byte (by omega), UInt8.toFin_val, UInt8.toNat_or, UInt16.toNat_toUInt8, hmask,
    Nat.mod_eq_of_lt hlt]
  exact hfirst

theorem server_second {q : UInt16} (hq : q.toNat < 16384) :
    ((q >>> 8).toUInt8 ||| ((q &&& 0x0003).toUInt8 <<< 6)).toFin =
      byte (q.toNat / 256 + q.toNat % 4 * 64) := by
  have hlow : (q &&& 0x0003).toNat = q.toNat % 4 := by
    rw [UInt16.toNat_and]
    exact Nat.and_two_pow_sub_one_eq_mod q.toNat 2
  have hhigh : (q >>> 8).toNat = q.toNat >>> 8 := UInt16.toNat_shiftRight q 8
  have hshift : ((q &&& 0x0003).toUInt8 <<< 6).toNat = (q.toNat % 4) <<< 6 := by
    have hsix : (6 : UInt8).toNat % 8 = 6 := rfl
    rw [UInt8.toNat_shiftLeft, UInt16.toNat_toUInt8, hlow, hsix, Nat.shiftLeft_eq,
      Nat.shiftLeft_eq]
    omega
  have hsecond := second_eq hq
  rw [Nat.and_two_pow_sub_one_eq_mod q.toNat 2] at hsecond
  refine Fin.ext ?_
  rw [val_byte (by omega), UInt8.toFin_val, UInt8.toNat_or, UInt16.toNat_toUInt8, hhigh, hshift,
    Nat.mod_eq_of_lt (by rw [Nat.shiftRight_eq_div_pow]; omega)]
  exact hsecond

/-- **The server's prefix bytes are those of the low 14 bits**, and of
two bytes from 64 on. -/
theorem server_encodePrefix (p : UInt16) :
    Ss58.encodePrefix p =
      if p.toNat < 64 then [byte p.toNat] else twoBytes (p.toNat % 16384) := by
  unfold Ss58.encodePrefix
  by_cases hp : p.toNat < 64
  · have hlt : p < 64 := UInt16.lt_iff_toNat_lt.mpr hp
    rw [if_pos hlt, if_pos hp]
    refine congrArg (fun b => [b]) (Fin.ext ?_)
    rw [val_byte (by omega)]
    exact (UInt16.toNat_toUInt8 p).trans (Nat.mod_eq_of_lt (by omega))
  · have hlt : ¬ p < 64 := fun h => hp (UInt16.lt_iff_toNat_lt.mp h)
    rw [if_neg hlt, if_neg hp]
    have hmask : (p &&& 0x3fff).toNat = p.toNat % 16384 := by
      rw [UInt16.toNat_and]
      exact Nat.and_two_pow_sub_one_eq_mod p.toNat 14
    generalize hq : p &&& 0x3fff = q at hmask
    have hq14 : q.toNat < 16384 := by omega
    rw [← hmask]
    change [_, _] = [_, _]
    rw [server_first, server_second (by omega)]

/-- **The browser writes the same prefix bytes** where it writes any. -/
theorem encodePrefix_eq {p : ℕ} (hp : p < 16384) :
    encodePrefix (p : ℤ) = .ok (prefixBytes p) := by
  have hrange : ¬ ((p : ℤ) < 0 ∨ 16383 < (p : ℤ)) := by omega
  unfold encodePrefix
  rw [if_neg hrange]
  simp only [Int.toNat_natCast]
  unfold prefixBytes twoBytes
  rw [first_eq, second_eq hp]
  split <;> rfl

/-- **The prefix bytes the browser accepts**: those of a prefix below 64,
and the two of any prefix below 16384. -/
def Header (p : ℕ) (header : List Byte) : Prop :=
  p < 64 ∧ header = [byte p] ∨ p < 16384 ∧ header = twoBytes p

theorem header_prefixBytes {p : ℕ} (hp : p < 16384) : Header p (prefixBytes p) := by
  unfold Header prefixBytes
  split
  · rename_i hlt
    exact .inl ⟨hlt, rfl⟩
  · exact .inr ⟨hp, rfl⟩

theorem Header.lt {p : ℕ} {header : List Byte} (h : Header p header) : p < 16384 := by
  rcases h with ⟨hp, -⟩ | ⟨hp, -⟩ <;> omega

/-- The two bytes hold the prefix. -/
theorem value_of_bytes {p : ℕ} (hp : p < 16384) :
    (64 + p / 4 % 64) % 64 * 4 + (p / 256 + p % 4 * 64) / 64 +
      (p / 256 + p % 4 * 64) % 64 * 256 = p := by
  have hmiddle : (64 + p / 4 % 64) % 64 = p / 4 % 64 := by omega
  have hlow : (p / 256 + p % 4 * 64) / 64 = p % 4 := by omega
  have hhigh : (p / 256 + p % 4 * 64) % 64 = p / 256 := by omega
  rw [hmiddle, hlow, hhigh]
  omega

/-- And the prefix holds the two bytes. -/
theorem bytes_of_value {x y z : ℕ} (hx : x < 64) (hy : y < 4) :
    (x * 4 + y + z * 256) / 4 % 64 = x ∧
      (x * 4 + y + z * 256) / 256 + (x * 4 + y + z * 256) % 4 * 64 = z + y * 64 := by
  constructor <;> omega

theorem byte_val (b : Byte) : byte b.val = b := Fin.ext (Nat.mod_eq_of_lt b.isLt)

/-- **What the browser takes a prefix to be.** -/
theorem decodePrefix_append {p : ℕ} {header rest : List Byte} (h : Header p header) :
    decodePrefix (header ++ rest) = .ok (p, header.length) := by
  unfold decodePrefix
  rcases h with ⟨hp, rfl⟩ | ⟨hp, rfl⟩
  · have hval : (byte p).val = p := val_byte (by omega)
    simp only [List.cons_append, List.nil_append, List.getElem?_cons_zero, hval, if_pos hp]
    rfl
  · have hfirst : (byte (64 + p / 4 % 64)).val = 64 + p / 4 % 64 := val_byte (by omega)
    have hsecond : (byte (p / 256 + p % 4 * 64)).val = p / 256 + p % 4 * 64 :=
      val_byte (by omega)
    have hnot : ¬ 64 + p / 4 % 64 < 64 := by omega
    have hlt : 64 + p / 4 % 64 < 128 := by omega
    simp only [twoBytes, List.cons_append, List.nil_append, List.getElem?_cons_zero,
      List.getElem?_cons_succ, hfirst, hsecond, if_neg hnot, if_pos hlt, List.length_cons,
      List.length_nil]
    rw [decoded_eq (by omega), value_of_bytes hp]

theorem of_decodePrefix {p len : ℕ} {raw : List Byte} (h : decodePrefix raw = .ok (p, len)) :
    ∃ header rest, Header p header ∧ raw = header ++ rest ∧ len = header.length := by
  unfold decodePrefix at h
  match raw, h with
  | b0 :: tail, h =>
    simp only [List.getElem?_cons_zero] at h
    split at h
    · rename_i hlt
      cases h
      exact ⟨[b0], tail, .inl ⟨hlt, by rw [byte_val]⟩, rfl, rfl⟩
    · split at h
      · rename_i hge hlt
        match tail, h with
        | b1 :: rest, h =>
          simp only [List.getElem?_cons_succ, List.getElem?_cons_zero] at h
          rw [decoded_eq b1.isLt] at h
          cases h
          have h1 := b1.isLt
          refine ⟨[b0, b1], rest, .inr ⟨by omega, ?_⟩, rfl, rfl⟩
          obtain ⟨hfirst, hsecond⟩ := bytes_of_value (z := b1.val % 64)
            (Nat.mod_lt b0.val (by omega : 0 < 64)) (by omega : b1.val / 64 < 4)
          have hlow : 64 + b0.val % 64 = b0.val := by omega
          have hsum : b1.val % 64 + b1.val / 64 * 64 = b1.val := by omega
          unfold twoBytes
          rw [hfirst, hsecond, hlow, hsum, byte_val, byte_val]
      · cases h

/-! ## Texts -/

/-- **The text of a key under prefix bytes**, as the browser computes the
checksum. -/
def address (modules : Modules) (header key : List Byte) : List Char :=
  Radix.write Ss58.base58Alphabet
    (header ++ key ++ ss58Checksum modules (header ++ key))

theorem ss58Checksum_length (hmod : modules.Documented) (payload : List Byte) :
    (ss58Checksum modules payload).length = 2 := by
  unfold ss58Checksum
  rw [List.length_take, hmod.digest_length]
  rfl

/-- Two bytes are two bytes. -/
theorem eq_of_two {xs ys : List Byte} (hx : xs.length = 2) (hy : ys.length = 2)
    (h0 : xs[0]? = ys[0]?) (h1 : xs[1]? = ys[1]?) : xs = ys := by
  match xs, hx, ys, hy with
  | [a, b], _, [c, d], _ =>
    cases h0
    cases h1
    rfl

/-- **What the browser makes of bytes with a prefix in front.** -/
theorem decodeSs58_eq (hmod : modules.Documented) {addr : List Char} {header rest : List Byte}
    {p : ℕ} (hraw : modules.base58Decode addr = .ok (header ++ rest)) (hheader : Header p header) :
    decodeSs58 modules addr =
      if rest.length < 2 then .error "SS58: address too short"
      else
        let key := rest.take (rest.length - 2)
        if rest.drop (rest.length - 2) = ss58Checksum modules (header ++ key) then
          .ok ⟨key, p⟩
        else .error "SS58: checksum mismatch" := by
  unfold decodeSs58
  rw [hraw]
  change (decodePrefix (header ++ rest) >>= fun x => _) = _
  rw [decodePrefix_append hheader]
  change (if (header ++ rest).length < header.length + 2 then _ else _) = _
  by_cases hshort : rest.length < 2
  · have hlt : (header ++ rest).length < header.length + 2 := by
      rw [List.length_append]
      omega
    rw [if_pos hshort, if_pos hlt]
    rfl
  · have hlt : ¬ (header ++ rest).length < header.length + 2 := by
      rw [List.length_append]
      omega
    have hlen : (header ++ rest).length - 2 = header.length + (rest.length - 2) := by
      rw [List.length_append]
      omega
    have hdrop : (rest.drop (rest.length - 2)).length = 2 := by
      rw [List.length_drop]
      omega
    have hsum := ss58Checksum_length hmod (header ++ rest.take (rest.length - 2))
    rw [if_neg hshort, if_neg hlt]
    simp only [hlen, List.take_length_add_append, List.drop_length_add_append]
    by_cases heq : rest.drop (rest.length - 2) =
        ss58Checksum modules (header ++ rest.take (rest.length - 2))
    · rw [if_pos heq, heq, if_neg (by simp)]
      simp only [List.drop_left]
      rfl
    · rw [if_neg heq, if_pos]
      · rfl
      · by_contra hsame
        rw [not_or, not_not, not_not] at hsame
        exact heq (eq_of_two hdrop hsum hsame.1 hsame.2)

/-- What is accepted reads as bytes with a prefix in front. -/
theorem of_decodeSs58 {addr : List Char} {decoded : Decoded}
    (h : decodeSs58 modules addr = .ok decoded) :
    ∃ header rest q, Header q header ∧ modules.base58Decode addr = .ok (header ++ rest) := by
  unfold decodeSs58 at h
  cases hraw : modules.base58Decode addr with
  | error e =>
    rw [hraw] at h
    cases h
  | ok raw =>
    rw [hraw] at h
    change (decodePrefix raw >>= fun x => _) = _ at h
    cases hpre : decodePrefix raw with
    | error e =>
      rw [hpre] at h
      cases h
    | ok x =>
      obtain ⟨header, rest, hheader, rfl, -⟩ := of_decodePrefix hpre
      exact ⟨header, rest, x.1, hheader, rfl⟩

/-- **What the browser accepts**: the texts of a key, of any length, under
the bytes of a prefix, with the checksum of both. -/
theorem decodeSs58_ok_iff (hmod : modules.Documented) {addr : List Char} {key : List Byte}
    {p : ℕ} :
    decodeSs58 modules addr = .ok ⟨key, p⟩ ↔
      ∃ header, Header p header ∧ addr = address modules header key := by
  constructor
  · intro h
    obtain ⟨header, rest, q, hheader, hraw⟩ := of_decodeSs58 h
    have haddr := Ss58.read_eq_some_iff.mp ((hmod.decode_iff addr _).mp hraw)
    rw [decodeSs58_eq hmod hraw hheader] at h
    split at h
    · cases h
    · simp only at h
      split at h
      · rename_i hsum
        cases h
        refine ⟨header, hheader, ?_⟩
        unfold address
        rw [haddr, ← hsum, List.append_assoc, List.take_append_drop]
      · cases h
  · rintro ⟨header, hheader, rfl⟩
    have hsum := ss58Checksum_length hmod (header ++ key)
    have hraw : modules.base58Decode (address modules header key) =
        .ok (header ++ (key ++ ss58Checksum modules (header ++ key))) := by
      rw [hmod.decode_iff, Ss58.read_eq_some_iff, ← List.append_assoc]
      rfl
    have hlen : (key ++ ss58Checksum modules (header ++ key)).length - 2 = key.length := by
      rw [List.length_append, hsum, Nat.add_sub_cancel]
    have hlong : ¬ (key ++ ss58Checksum modules (header ++ key)).length < 2 := by
      rw [List.length_append, hsum]
      omega
    rw [decodeSs58_eq hmod hraw hheader, if_neg hlong]
    simp only [hlen, List.take_left, List.drop_left, if_true]

/-- The text of a key tells its prefix bytes. -/
theorem address_inj (hmod : modules.Documented) {header header' key : List Byte}
    (h : address modules header key = address modules header' key) : header = header' := by
  have hread := Ss58.read_eq_some_iff.mpr h
  unfold address at hread
  rw [Ss58.read_eq_some_iff.mpr rfl, Option.some.injEq] at hread
  have hsum := ss58Checksum_length hmod (header ++ key)
  have hsum' := ss58Checksum_length hmod (header' ++ key)
  have hpay := (List.append_inj' hread (by rw [hsum, hsum'])).1
  exact List.append_cancel_right hpay

/-- **What the browser writes.** -/
theorem encodeSs58_eq {q : ℕ} (hmod : modules.Documented) (hq : q < 16384) (key : List Byte) :
    encodeSs58 modules key q = .ok (address modules (prefixBytes q) key) := by
  unfold encodeSs58 address
  rw [encodePrefix_eq hq, ← hmod.encode_eq]
  rfl

theorem decodeSs58_address {q : ℕ} (hmod : modules.Documented) (hq : q < 16384)
    (key : List Byte) :
    decodeSs58 modules (address modules (prefixBytes q) key) = .ok ⟨key, q⟩ :=
  (decodeSs58_ok_iff hmod).mpr ⟨prefixBytes q, header_prefixBytes hq, rfl⟩

/-- The server's prefix bytes are some of the prefix's low 14 bits. -/
theorem header_server (p : UInt16) :
    Header (p.toNat % 16384) (Ss58.encodePrefix p) := by
  rw [server_encodePrefix]
  split
  · rename_i hlt
    rw [Nat.mod_eq_of_lt (by omega)]
    exact .inl ⟨hlt, rfl⟩
  · exact .inr ⟨Nat.mod_lt _ (by omega), rfl⟩

/-- **What the server writes.** -/
theorem server_encodeSs58 (hcrates : crates.Documented)
    (hhash : ∀ data, crates.blake2b512 data = modules.blake2b data) (account : AccountId)
    (p : UInt16) :
    Ss58.encodeSs58 crates account p =
      address modules (Ss58.encodePrefix p) account.bytes := by
  unfold Ss58.encodeSs58 address ss58Checksum
  rw [hcrates.toBase58_eq, ← hhash]
  rfl

attribute [local instance] Ss58.byte_neZero

/-- A base 58 and some digests, as the browser imports them. -/
def sampleModules : Modules where
  base58Encode := Radix.write Ss58.base58Alphabet
  base58Decode text :=
    match Radix.read 256 Ss58.base58Alphabet text with
    | some bytes => .ok bytes
    | none => .error "Unknown letter"
  blake2b := sampleDigest

theorem sampleModules_documented : sampleModules.Documented := by
  refine ⟨fun _ => rfl, ?_, Ss58.sampleDigest_length⟩
  intro text bytes
  unfold sampleModules
  constructor
  · intro h
    dsimp only at h
    split at h
    · rename_i heq
      cases h
      exact heq
    · cases h
  · intro h
    simp only [h]

/-- **The browser reads what the server writes** as the account and the
prefix's low 14 bits; and where the prefix has no other bits, the browser
writes the same text. -/
theorem decodeSs58_encodeSs58 (hcrates : crates.Documented) (hmod : modules.Documented)
    (hhash : ∀ data, crates.blake2b512 data = modules.blake2b data) (account : AccountId)
    (p : UInt16) :
    decodeSs58 modules (Ss58.encodeSs58 crates account p) =
        .ok ⟨account.bytes, p.toNat % 16384⟩ ∧
      (p.toNat ≤ 16383 →
        encodeSs58 modules account.bytes p.toNat = .ok (Ss58.encodeSs58 crates account p)) := by
  constructor
  · exact (decodeSs58_ok_iff hmod).mpr
      ⟨_, header_server p, server_encodeSs58 hcrates hhash account p⟩
  · intro hp
    have hheader : Ss58.encodePrefix p = prefixBytes p.toNat := by
      rw [server_encodePrefix, Nat.mod_eq_of_lt (by omega)]
      rfl
    rw [encodeSs58_eq hmod (by omega), server_encodeSs58 hcrates hhash, hheader]

/-- Alice's address on Allfeat. -/
theorem decodeSs58_encodeSs58_alice :
    Ss58.encodeSs58 sampleCrates alice 440 =
        "qSz84FFpCxyRLmeoAQfTHiHgDJ8FGWnoaUzHTvnZdRGDTX21W".toList ∧
      decodeSs58 sampleModules (Ss58.encodeSs58 sampleCrates alice 440) =
        .ok ⟨alice.bytes, 440⟩ ∧
      encodeSs58 sampleModules alice.bytes 440 = .ok (Ss58.encodeSs58 sampleCrates alice 440) := by
  have h := decodeSs58_encodeSs58 Ss58.sampleCrates_documented sampleModules_documented
    (fun _ => rfl) alice 440
  exact ⟨by decide +kernel, h.1, h.2 (by decide)⟩

theorem reencodeSs58_of_decode {addr : List Char} {key : List Byte} {p : ℕ}
    (h : decodeSs58 modules addr = .ok ⟨key, p⟩) (r : ℤ) :
    reencodeSs58 modules addr r = encodeSs58 modules key r := by
  unfold reencodeSs58
  rw [h]
  rfl

/-- **Showing an accepted address under another prefix loses nothing**: a
further change of prefix is as from the address itself, and the change
back to its own prefix is the address, unless it was the two-byte form of
a prefix below 64. -/
theorem reencodeSs58_reencodeSs58 (hmod : modules.Documented) {addr : List Char}
    {key : List Byte} {p : ℕ} (haddr : decodeSs58 modules addr = .ok ⟨key, p⟩) {q : ℤ}
    (hlow : 0 ≤ q) (hhigh : q ≤ 16383) (r : ℤ) :
    (reencodeSs58 modules addr q >>= fun shown => reencodeSs58 modules shown r) =
        reencodeSs58 modules addr r ∧
      (reencodeSs58 modules addr p = .ok addr ↔
        ¬ (p < 64 ∧ addr = address modules (twoBytes p) key)) := by
  obtain ⟨q, rfl⟩ := Int.eq_ofNat_of_zero_le hlow
  have hq : q < 16384 := by omega
  constructor
  · rw [reencodeSs58_of_decode haddr, encodeSs58_eq hmod hq, reencodeSs58_of_decode haddr]
    exact reencodeSs58_of_decode (decodeSs58_address hmod hq key) r
  · obtain ⟨header, hheader, rfl⟩ := (decodeSs58_ok_iff hmod).mp haddr
    rw [reencodeSs58_of_decode haddr, encodeSs58_eq hmod hheader.lt, Except.ok.injEq]
    have hinj : ∀ {h h' : List Byte}, address modules h key = address modules h' key ↔ h = h' :=
      ⟨address_inj hmod, congrArg fun h => address modules h key⟩
    rw [hinj, hinj]
    unfold prefixBytes
    rcases hheader with ⟨hp, rfl⟩ | ⟨-, rfl⟩
    · simp [hp, twoBytes]
    · by_cases hp : p < 64
      · simp [hp, twoBytes]
      · simp [hp]

/-- Alice's address on Allfeat, shown under the generic prefix and back. -/
theorem reencodeSs58_reencodeSs58_alice :
    (reencodeSs58 sampleModules (Ss58.encodeSs58 sampleCrates alice 440) 42 >>= fun shown =>
        reencodeSs58 sampleModules shown 440) =
      reencodeSs58 sampleModules (Ss58.encodeSs58 sampleCrates alice 440) 440 ∧
      reencodeSs58 sampleModules (Ss58.encodeSs58 sampleCrates alice 440) 440 =
        .ok (Ss58.encodeSs58 sampleCrates alice 440) := by
  have hdec : decodeSs58 sampleModules (Ss58.encodeSs58 sampleCrates alice 440) =
      .ok ⟨alice.bytes, 440⟩ := by decide +kernel
  have h := reencodeSs58_reencodeSs58 sampleModules_documented hdec
    (by omega : (0 : ℤ) ≤ 42) (by omega) 440
  exact ⟨h.1, h.2.mpr (by omega)⟩

/-! ## The shape of an address -/

/-- What the server's text is of: prefix bytes, account and checksum, and
34 bytes after the last prefix byte. -/
theorem server_bytes (hcrates : crates.Documented) (account : AccountId) (p : UInt16) :
    ∃ body : List Byte, body.length = 34 ∧
      Ss58.encodeSs58 crates account p =
        Radix.write Ss58.base58Alphabet (Ss58.encodePrefix p ++ body) := by
  refine ⟨account.bytes ++ (crates.blake2b512
    (Ss58.checksumPrefix ++ (Ss58.encodePrefix p ++ account.bytes))).take Ss58.checksumLen, ?_, ?_⟩
  · rw [List.length_append, account.length_eq, List.length_take, hcrates.digest_length]
    rfl
  · unfold Ss58.encodeSs58
    rw [hcrates.toBase58_eq, List.append_assoc]

/-- The prefix bytes place the number of the text. -/
theorem value_server (header : List Byte) {body : List Byte} (hbody : body.length = 34) :
    Radix.value 256 (header.map Fin.val) * 256 ^ 34 ≤
        Radix.value 256 ((header ++ body).map Fin.val) ∧
      Radix.value 256 ((header ++ body).map Fin.val) <
        (Radix.value 256 (header.map Fin.val) + 1) * 256 ^ 34 := by
  have hbounds := Radix.value_append_bounds (header.map Fin.val) (by omega : 1 < 256)
    (Radix.mem_map_val_lt body)
  rw [List.length_map, hbody] at hbounds
  rw [List.map_append]
  exact hbounds

theorem value_twoBytes {q : ℕ} (hq : q < 16384) :
    Radix.value 256 ((twoBytes q).map Fin.val) =
      (64 + q / 4 % 64) * 256 + (q / 256 + q % 4 * 64) := by
  have hfirst : (byte (64 + q / 4 % 64)).val = 64 + q / 4 % 64 := val_byte (by omega)
  have hsecond : (byte (q / 256 + q % 4 * 64)).val = q / 256 + q % 4 * 64 := val_byte (by omega)
  unfold twoBytes
  rw [List.map_cons, List.map_singleton, hfirst, hsecond]
  simp [Radix.value, Nat.ofDigits]
  ring

theorem length_oneByte {q : ℕ} {body : List Byte} (hbody : body.length = 34) (hpos : 0 < q)
    (hq : q < 64) :
    (Radix.write Ss58.base58Alphabet ([byte q] ++ body)).length = 47 ∨
      (Radix.write Ss58.base58Alphabet ([byte q] ++ body)).length = 48 := by
  have hlen := Ss58.base58Alphabet_length
  have hval : (byte q).val = q := val_byte (by omega)
  obtain ⟨hlow, hhigh⟩ := value_server [byte q] hbody
  rw [List.map_singleton, hval, Radix.value_singleton] at hlow hhigh
  have hhead : (([byte q] ++ body).map Fin.val).head? ≠ some 0 := by
    rw [List.map_append, List.map_singleton, hval, List.singleton_append, List.head?_cons]
    intro h
    cases h
    omega
  have hbase : 58 ^ 46 ≤ 256 ^ 34 := by norm_num
  have htop : 64 * 256 ^ 34 ≤ 58 ^ 48 := by norm_num
  have hbelow : (q + 1) * 256 ^ 34 ≤ 64 * 256 ^ 34 := Nat.mul_le_mul_right _ (by omega)
  have habove : 1 * 256 ^ 34 ≤ q * 256 ^ 34 := Nat.mul_le_mul_right _ (by omega)
  rcases Nat.lt_or_ge (Radix.value 256 (([byte q] ++ body).map Fin.val)) (58 ^ 47) with hlt | hge
  · refine .inl (Radix.length_write (by rw [hlen]; omega) hhead ?_ ?_)
    · rw [hlen]
      omega
    · rw [hlen]
      exact hlt
  · refine .inr (Radix.length_write (by rw [hlen]; omega) hhead ?_ ?_)
    · rw [hlen]
      exact hge
    · rw [hlen]
      omega

theorem head_twoBytes {q : ℕ} {body : List Byte} :
    ((twoBytes q ++ body).map Fin.val).head? ≠ some 0 := by
  have hval : (byte (64 + q / 4 % 64)).val = 64 + q / 4 % 64 := val_byte (by omega)
  unfold twoBytes
  rw [List.cons_append, List.map_cons, List.head?_cons, hval]
  intro h
  have hzero := Option.some.inj h
  omega

theorem length_twoBytes {q : ℕ} {body : List Byte} (hbody : body.length = 34) (hq : q < 16384) :
    (Radix.write Ss58.base58Alphabet (twoBytes q ++ body)).length = 49 := by
  have hlen := Ss58.base58Alphabet_length
  obtain ⟨hlow, hhigh⟩ := value_server (twoBytes q) hbody
  obtain ⟨v, hv⟩ : ∃ v, Radix.value 256 ((twoBytes q).map Fin.val) = v := ⟨_, rfl⟩
  have hsum := value_twoBytes hq
  rw [hv] at hlow hhigh hsum
  have hbase : 58 ^ 48 ≤ 16384 * 256 ^ 34 := by norm_num
  have htop : 32768 * 256 ^ 34 ≤ 58 ^ 49 := by norm_num
  have habove : 16384 * 256 ^ 34 ≤ v * 256 ^ 34 := Nat.mul_le_mul_right _ (by omega)
  have hbelow : (v + 1) * 256 ^ 34 ≤ 32768 * 256 ^ 34 := Nat.mul_le_mul_right _ (by omega)
  refine Radix.length_write (by rw [hlen]; omega) head_twoBytes ?_ ?_
  · rw [hlen]
    omega
  · rw [hlen]
    omega

theorem head_440 {body : List Byte} (hbody : body.length = 34) :
    (Radix.write Ss58.base58Alphabet (twoBytes 440 ++ body)).head? = some 'q' := by
  have hlen := Ss58.base58Alphabet_length
  obtain ⟨hlow, hhigh⟩ := value_server (twoBytes 440) hbody
  rw [value_twoBytes (by omega)] at hlow hhigh
  have hbase : 48 * 58 ^ 48 ≤ 28161 * 256 ^ 34 := by norm_num
  have htop : 28162 * 256 ^ 34 ≤ 49 * 58 ^ 48 := by norm_num
  obtain ⟨rest, hrest⟩ : ∃ rest, Radix.write Ss58.base58Alphabet (twoBytes 440 ++ body) =
      Ss58.base58Alphabet.getD 48 ' ' :: rest :=
    Radix.write_eq_cons 48 48 (by rw [hlen]; omega) head_twoBytes (by omega)
      (by rw [hlen]; omega) (by rw [hlen]; omega) (by rw [hlen]; omega)
  rw [hrest]
  rfl

/-- **The shape of the server's addresses**, for every account: 47 or 48
characters under a prefix from 1 to 63, 49 under every larger one, and a
`q` in front under Allfeat's 440. -/
theorem encodeSs58_shape (hcrates : crates.Documented) (account : AccountId) (p : UInt16) :
    (0 < p.toNat ∧ p.toNat < 64 →
        (Ss58.encodeSs58 crates account p).length = 47 ∨
          (Ss58.encodeSs58 crates account p).length = 48) ∧
      (64 ≤ p.toNat → (Ss58.encodeSs58 crates account p).length = 49) ∧
      (p.toNat = 440 → (Ss58.encodeSs58 crates account p).head? = some 'q') := by
  obtain ⟨body, hbody, heq⟩ := server_bytes hcrates account p
  rw [heq, server_encodePrefix]
  have hlt := Nat.mod_lt p.toNat (by omega : 0 < 16384)
  refine ⟨?_, ?_, ?_⟩
  · rintro ⟨hpos, hp⟩
    rw [if_pos hp]
    exact length_oneByte hbody hpos hp
  · intro hp
    rw [if_neg (by omega)]
    exact length_twoBytes hbody hlt
  · intro hp
    rw [hp, if_neg (by omega)]
    exact head_440 hbody

theorem encodeSs58_shape_alice :
    (Ss58.encodeSs58 sampleCrates alice 440).length = 49 ∧
      (Ss58.encodeSs58 sampleCrates alice 440).head? = some 'q' := by
  have h := encodeSs58_shape Ss58.sampleCrates_documented alice 440
  exact ⟨h.2.1 (by decide), h.2.2 (by decide)⟩

end WebSs58

end AllfeatExplorer
