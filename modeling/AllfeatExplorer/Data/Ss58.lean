import AllfeatExplorer.Data.Model.Domain
import AllfeatExplorer.Data.Model.Ss58

/-!
# Addresses under one prefix

A base-58 text is read back as its bytes, and the bytes of an address
under one prefix hold the account at one place. So the server writes
different accounts differently, and a network whose addresses it writes
may compare accounts by their addresses.
-/

namespace AllfeatExplorer

namespace Ss58

variable {crates : Crates}

/-- A text is read as bytes just if it is theirs. -/
theorem read_eq_some_iff {text : List Char} {bytes : List Byte} :
    Radix.read 256 base58Alphabet text = some bytes ↔
      text = Radix.write base58Alphabet bytes := by
  have hlen : 1 < base58Alphabet.length := by
    rw [base58Alphabet_length]
    omega
  constructor
  · intro h
    exact (Radix.write_of_read (by omega) hlen h).symm
  · rintro rfl
    exact Radix.read_write (by omega) hlen base58Alphabet_nodup

/-- Different bytes have different texts. -/
theorem write_injective : Function.Injective (Radix.write (b := 256) base58Alphabet) := by
  intro bytes bytes' heq
  have hread := read_eq_some_iff.mpr heq
  rw [read_eq_some_iff.mpr rfl] at hread
  exact Option.some.inj hread

/-- **Under one prefix different accounts have different addresses.** -/
theorem encodeSs58_injective (hcrates : crates.Documented) (p : UInt16) :
    Function.Injective fun account => encodeSs58 crates account p := by
  intro account account' heq
  have htexts : encodeSs58 crates account p = encodeSs58 crates account' p := heq
  unfold encodeSs58 at htexts
  rw [hcrates.toBase58_eq, hcrates.toBase58_eq] at htexts
  have hbytes := write_injective htexts
  -- The prefix is the same in both, and the accounts are of one length.
  rw [List.append_assoc, List.append_assoc] at hbytes
  have htails := List.append_cancel_left hbytes
  have hlengths : account.bytes.length = account'.bytes.length :=
    account.length_eq.trans account'.length_eq.symm
  exact Bytes32.bytes_injective (List.append_inj htails hlengths).1

end Ss58

/-- **The network's addresses are the server's**, under its prefix. -/
def Network.WritesSs58 (net : Network) (crates : Ss58.Crates) (p : UInt16) : Prop :=
  ∀ account, net.encodeSs58 account = String.ofList (Ss58.encodeSs58 crates account p)

/-- Such a network tells accounts apart. -/
theorem Network.WritesSs58.injective {net : Network} {crates : Ss58.Crates} {p : UInt16}
    (hnet : net.WritesSs58 crates p) (hcrates : crates.Documented) :
    Function.Injective net.encodeSs58 := by
  intro account account' heq
  rw [hnet account, hnet account'] at heq
  exact Ss58.encodeSs58_injective hcrates p (String.ofList_injective heq)

/-! ## Some addresses -/

namespace Ss58

attribute [local instance] byte_neZero

/-- Alice's account. -/
def alice : AccountId :=
  ⟨[212, 53, 147, 199, 21, 253, 211, 28, 97, 20, 26, 189, 4, 169, 159, 214, 130, 44, 133, 88,
   133, 76, 205, 227, 154, 86, 132, 231, 165, 109, 162, 125], by decide⟩

/-- The digests of some payloads, told apart by the first prefix byte and
the account's first: Alice's under 42 and 440, and under 440 those of
`[1; 32]`, of `[2; 32]` and of an account of the pallet `[0; 8]`. -/
def sampleDigest (data : List Byte) : List Byte :=
  if data[7]? = some 42 then
    [29, 33, 224, 81, 130, 170, 147, 122, 170, 215, 22, 56, 131, 46, 229, 69, 71, 89, 126, 55, 75,
     27, 190, 101, 96, 201, 178, 244, 247, 56, 3, 79, 198, 22, 13, 230, 140, 118, 25, 28, 192, 181,
     32, 133, 102, 230, 187, 26, 59, 102, 52, 41, 250, 88, 13, 15, 27, 231, 200, 247, 155, 175, 155,
     151]
  else if data[9]? = some 1 then
    [63, 162, 7, 230, 182, 117, 219, 151, 1, 111, 240, 162, 148, 174, 37, 191, 23, 180, 87, 215,
     182, 34, 116, 145, 221, 150, 190, 73, 6, 9, 4, 43, 250, 184, 144, 51, 155, 143, 68, 136, 248,
     217, 214, 84, 23, 243, 234, 225, 181, 122, 119, 37, 88, 180, 19, 9, 157, 64, 248, 253, 172,
     174, 21, 76]
  else if data[9]? = some 2 then
    [107, 43, 96, 120, 82, 7, 16, 159, 21, 30, 41, 63, 224, 47, 9, 52, 240, 19, 97, 86, 215, 17, 95,
     156, 131, 4, 166, 9, 98, 177, 193, 149, 173, 11, 116, 186, 84, 190, 17, 50, 219, 30, 118, 21,
     198, 234, 76, 145, 40, 9, 215, 71, 102, 242, 48, 129, 105, 248, 244, 235, 25, 215, 209, 12]
  else if data[9]? = some 109 then
    [36, 120, 89, 89, 14, 162, 49, 108, 252, 248, 220, 152, 168, 190, 172, 155, 147, 209, 0, 214,
     248, 31, 107, 86, 181, 62, 226, 122, 238, 237, 26, 254, 59, 179, 32, 47, 169, 189, 82, 12, 224,
     216, 86, 153, 158, 42, 83, 104, 221, 130, 151, 60, 10, 178, 9, 217, 146, 234, 157, 82, 132,
     204, 129, 36]
  else
    [14, 209, 52, 159, 175, 91, 114, 134, 29, 102, 222, 203, 97, 165, 8, 32, 80, 195, 244, 119, 129,
     99, 45, 146, 100, 210, 164, 40, 185, 121, 29, 54, 54, 69, 163, 162, 98, 205, 89, 29, 90, 89,
     128, 205, 142, 128, 233, 201, 54, 251, 103, 94, 141, 216, 79, 249, 219, 161, 36, 56, 202, 195,
     102, 28]

/-- A base 58 and these digests, as the server imports them. -/
def sampleCrates : Crates where
  toBase58 := Radix.write base58Alphabet
  blake2b512 := sampleDigest

theorem sampleDigest_length (data : List Byte) : (sampleDigest data).length = 64 := by
  unfold sampleDigest
  repeat' split
  all_goals rfl

theorem sampleCrates_documented : sampleCrates.Documented :=
  ⟨fun _ => rfl, sampleDigest_length⟩

end Ss58

/-- A network that shows accounts under Allfeat's prefix, and decodes no
field. -/
def allfeatNetwork : Network :=
  { plainNetwork with
    encodeSs58 := fun account => String.ofList (Ss58.encodeSs58 Ss58.sampleCrates account 440) }

theorem allfeatNetwork_writes : allfeatNetwork.WritesSs58 Ss58.sampleCrates 440 := fun _ => rfl

theorem allfeatNetwork_injective : Function.Injective allfeatNetwork.encodeSs58 :=
  allfeatNetwork_writes.injective Ss58.sampleCrates_documented

end AllfeatExplorer
