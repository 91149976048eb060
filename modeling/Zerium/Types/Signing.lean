import Zerium.Rlp.Value
import Zerium.Lib.BigEndian

/-! # Transaction signers

`transaction_signing.go` and the signature fields of `transaction.go`: the Frontier, Homestead
and EIP-155 signers, what each hashes, how each packs the recovery id into `V` and recovers the
sender. EIP-155 packs `V = v + 35 + 2 * envId`; a chain id of `0` keeps `V = v + 27`, and `Sender`
then falls back to the Homestead signer, which recovers over the Frontier hash of six fields and
not the EIP-155 hash of nine that `SignTx` signed. The curve is abstract (`Crypto`, with
`Crypto.Inverse` what the signers need of it), and amounts are non-negative integers.
-/

namespace Zerium.Types

set_option autoImplicit false

open Zerium.Rlp

/-- The fields of a transaction the signers read. -/
structure TxData where
  accountNonce : Nat
  price : Nat
  gasLimit : Nat
  recipient : Option (List UInt8)
  amount : Nat
  payload : List UInt8
  v : Nat
  r : Nat
  s : Nat
deriving DecidableEq, Repr

/-- `Keccak256`, `crypto.Sign`, `crypto.Ecrecover` and the uncompressed public key of a key. -/
structure Crypto (Key : Type) where
  keccak256 : List UInt8 → List UInt8
  sign : List UInt8 → Key → List UInt8
  ecrecover : List UInt8 → List UInt8 → Option (List UInt8)
  pubkey : Key → List UInt8

inductive SigError where
  /-- `ErrInvalidSig` -/
  | invalidSig
  /-- `ErrInvalidenvId` -/
  | invalidEnvId
  /-- the error of `crypto.Ecrecover` -/
  | ecrecover
  /-- "invalid public key" -/
  | invalidPublicKey
deriving DecidableEq, Repr

def secp256k1N : Nat := 0xfffffffffffffffffffffffffffffffebaaedce6af48a03bbfd25e8cd0364141
def secp256k1HalfN : Nat := secp256k1N / 2

/-- `crypto.ValidateSignatureValues`. -/
def ValidateSignatureValues (v : UInt8) (r s : Nat) (homestead : Bool) : Bool :=
  if r < 1 ∨ s < 1 then false
  else if homestead ∧ s > secp256k1HalfN then false
  else decide (r < secp256k1N ∧ s < secp256k1N ∧ (v = 0 ∨ v = 1))

/-- A `*big.Int` or an unsigned integer as RLP encodes it. -/
def rlpUint (n : Nat) : Value := .bytes (BigEndian.ofNat n)

def sigFields (tx : TxData) : List Value :=
  [rlpUint tx.accountNonce, rlpUint tx.price, rlpUint tx.gasLimit, .bytes (tx.recipient.getD []),
    rlpUint tx.amount, .bytes tx.payload]

variable {Key : Type}

namespace Crypto

/-- `rlpHash`. -/
def rlpHash (crypto : Crypto Key) (x : Value) : List UInt8 := crypto.keccak256 x.encoding

/-- `copy(addr[:], Keccak256(pub[1:])[12:])` into the 20 bytes of an address. -/
def address (crypto : Crypto Key) (pub : List UInt8) : List UInt8 :=
  let h := (crypto.keccak256 (pub.drop 1)).drop 12
  h.take 20 ++ List.replicate (20 - h.length) 0

/-- What the signers assume of `Sign` and `Ecrecover`: a signature is 65 bytes `R ‖ S ‖ v`
with `v` in `{0, 1}` and values `ValidateSignatureValues` accepts, and `Ecrecover` finds the
public key of the signing key from the hash it signed. -/
structure Inverse (crypto : Crypto Key) : Prop where
  length_sign : ∀ h k, (crypto.sign h k).length = 65
  recid_le : ∀ h k, ((crypto.sign h k).getD 64 0).toNat ≤ 1
  valid : ∀ h k, ValidateSignatureValues ((crypto.sign h k).getD 64 0)
    (BigEndian.toNat ((crypto.sign h k).take 32)) (BigEndian.toNat (((crypto.sign h k).drop 32).take 32)) true = true
  ecrecover_sign : ∀ h k, crypto.ecrecover h (crypto.sign h k) = some (crypto.pubkey k)
  pubkey_head : ∀ k, (crypto.pubkey k).head? = some 4

end Crypto

/-- `copy(sig[n-len(b):n], b)` into `n` zero bytes, for `b` no longer than `n`. -/
def copyRight (n : Nat) (b : List UInt8) : List UInt8 := List.replicate (n - b.length) 0 ++ b

/-- The end of `recoverPlain`: the address of the public key `Ecrecover` found. -/
def pubkeyAddress (crypto : Crypto Key) : Option (List UInt8) → Except SigError (List UInt8)
  | none => .error .ecrecover
  | some pub => if pub = [] ∨ pub.headD 0 ≠ 4 then .error .invalidPublicKey else .ok (crypto.address pub)

/-- `recoverPlain`. `Vb` is a `*big.Int`: `BitLen` and `Uint64` read its absolute value. After
`ValidateSignatureValues`, `R` and `S` are below `N`, so they fit the 32 bytes they are copied
into. -/
def recoverPlain (crypto : Crypto Key) (sighash : List UInt8) (R S : Nat) (Vb : Int) (homestead : Bool) :
    Except SigError (List UInt8) :=
  if Vb.natAbs ≥ 256 then .error .invalidSig
  else
    let V : UInt8 := Vb.natAbs.toUInt8 - 27
    if ValidateSignatureValues V R S homestead = false then .error .invalidSig
    else
      let sig := copyRight 32 (BigEndian.ofNat R) ++ copyRight 32 (BigEndian.ofNat S) ++ [V]
      pubkeyAddress crypto (crypto.ecrecover sighash sig)

/-- `deriveenvId`: the `uint64` arithmetic below 64 bits, the `big.Int` arithmetic above. -/
def deriveenvId (v : Nat) : Nat :=
  if v < 2 ^ 64 then
    if v = 27 ∨ v = 28 then 0 else ((v + 2 ^ 64 - 35) % 2 ^ 64) / 2
  else (v - 35) / 2

/-- `isProtectedV`. -/
def isProtectedV (V : Nat) : Bool :=
  if V < 256 then V ≠ 27 ∧ V ≠ 28 else true

inductive Signer where
  | frontier
  | homestead
  | eip155 (envId : Nat)
deriving DecidableEq, Repr

/-- `FrontierSigner.Hash`, also Homestead's: the six fields. -/
def frontierHash (crypto : Crypto Key) (tx : TxData) : List UInt8 := crypto.rlpHash (.list (sigFields tx))

/-- `FrontierSigner.SignatureValues`, also Homestead's: `R`, `S` and `V = v + 27` of a signature
`R ‖ S ‖ v`; a signature that is not 65 bytes long panics. The byte addition wraps as Go's does. -/
def frontierSignatureValues (sig : List UInt8) : Option (Nat × Nat × Nat) :=
  if sig.length ≠ 65 then none
  else some (BigEndian.toNat (sig.take 32), BigEndian.toNat ((sig.drop 32).take 32), (sig.getD 64 0 + 27).toNat)

/-- `HomesteadSigner.Sender`. -/
def homesteadSender (crypto : Crypto Key) (tx : TxData) : Except SigError (List UInt8) :=
  recoverPlain crypto (frontierHash crypto tx) tx.r tx.s tx.v true

namespace Signer

def Hash (crypto : Crypto Key) : Signer → TxData → List UInt8
  | .frontier, tx | .homestead, tx => frontierHash crypto tx
  | .eip155 envId, tx => crypto.rlpHash (.list (sigFields tx ++ [rlpUint envId, rlpUint 0, rlpUint 0]))

def SignatureValues : Signer → List UInt8 → Option (Nat × Nat × Nat)
  | .frontier, sig | .homestead, sig => frontierSignatureValues sig
  | .eip155 envId, sig =>
    (frontierSignatureValues sig).map fun (R, S, V) =>
      if envId ≠ 0 then (R, S, (sig.getD 64 0 + 35).toNat + 2 * envId) else (R, S, V)

def Sender (crypto : Crypto Key) : Signer → TxData → Except SigError (List UInt8)
  | .frontier, tx => recoverPlain crypto (frontierHash crypto tx) tx.r tx.s tx.v false
  | .homestead, tx => homesteadSender crypto tx
  | .eip155 envId, tx =>
    if isProtectedV tx.v = false then homesteadSender crypto tx
    else if deriveenvId tx.v ≠ envId then .error .invalidEnvId
    else recoverPlain crypto (Hash crypto (.eip155 envId) tx) tx.r tx.s ((tx.v : Int) - 2 * envId - 8) true

end Signer

/-- `Transaction.WithSignature`. -/
def WithSignature (signer : Signer) (tx : TxData) (sig : List UInt8) : Option TxData :=
  (signer.SignatureValues sig).map fun (r, s, v) => { tx with r, s, v }

/-- `SignTx`. -/
def SignTx (crypto : Crypto Key) (tx : TxData) (signer : Signer) (prv : Key) : Option TxData :=
  WithSignature signer tx (crypto.sign (signer.Hash crypto tx) prv)

/-! ## Packing and unpacking `V` -/

theorem toUInt8_add_sub_cancel (x : UInt8) : (x.toNat + 27).toUInt8 - 27 = x := by
  apply UInt8.toNat_inj.mp
  rw [UInt8.toNat_sub, Nat.toUInt8, UInt8.toNat_ofNat']
  have := x.toNat_lt
  simp
  omega

theorem toNat_add_of_le_one {x : UInt8} (hx : x.toNat ≤ 1) (k : UInt8) (hk : k.toNat ≤ 254) :
    (x + k).toNat = x.toNat + k.toNat := by
  rw [UInt8.toNat_add]
  exact Nat.mod_eq_of_lt (by omega)

theorem deriveenvId_eip155 {v : Nat} (hv : v ≤ 1) (c : Nat) : deriveenvId (v + 35 + 2 * c) = c := by
  unfold deriveenvId
  split_ifs with hlt hv'
  · omega
  · omega
  · omega

theorem deriveenvId_homestead {v : Nat} (hv : v ≤ 1) : deriveenvId (v + 27) = 0 := by
  unfold deriveenvId
  rw [if_pos (by omega), if_pos (by omega)]

theorem isProtectedV_eip155 {v : Nat} (hv : v ≤ 1) (c : Nat) : isProtectedV (v + 35 + 2 * c) = true := by
  unfold isProtectedV
  split_ifs
  · simp
    omega
  · rfl

theorem isProtectedV_homestead {v : Nat} (hv : v ≤ 1) : isProtectedV (v + 27) = false := by
  unfold isProtectedV
  rw [if_pos (by omega)]
  simp
  omega

theorem Hash_with_signature (crypto : Crypto Key) (signer : Signer) (tx : TxData) (r s v : Nat) :
    signer.Hash crypto { tx with r, s, v } = signer.Hash crypto tx := by
  cases signer <;> rfl

theorem frontierHash_with_signature (crypto : Crypto Key) (tx : TxData) (r s v : Nat) :
    frontierHash crypto { tx with r, s, v } = frontierHash crypto tx := rfl

theorem frontierSignatureValues_of_length {sig : List UInt8} (hlen : sig.length = 65) :
    frontierSignatureValues sig =
      some (BigEndian.toNat (sig.take 32), BigEndian.toNat ((sig.drop 32).take 32), (sig.getD 64 0 + 27).toNat) := by
  rw [frontierSignatureValues, if_neg (not_not.mpr hlen)]

theorem copyRight_toNat_append {sig : List UInt8} (hlen : sig.length = 65) :
    copyRight 32 (BigEndian.ofNat (BigEndian.toNat (sig.take 32))) ++
      copyRight 32 (BigEndian.ofNat (BigEndian.toNat ((sig.drop 32).take 32))) ++ [sig.getD 64 0] = sig := by
  have hR : (sig.take 32).length = 32 := by simp [hlen]
  have hS : ((sig.drop 32).take 32).length = 32 := by simp [hlen]
  have hpad : ∀ bs : List UInt8, bs.length = 32 → copyRight 32 (BigEndian.ofNat (BigEndian.toNat bs)) = bs := by
    intro bs hbs
    rw [copyRight, ← hbs]
    exact BigEndian.replicate_append_ofNat_toNat bs
  have htail : sig.drop 64 = [sig.getD 64 0] := by
    rw [List.drop_eq_getElem_cons (by omega), List.drop_eq_nil_of_le (by omega),
      List.getD_eq_getElem _ _ (by omega)]
  rw [hpad _ hR, hpad _ hS, ← htail, show 64 = 32 + 32 from rfl, ← List.drop_drop, List.append_assoc,
    List.take_append_drop, List.take_append_drop]

theorem recoverPlain_reassembled (crypto : Crypto Key) (h : List UInt8) {sig : List UInt8} (hlen : sig.length = 65)
    (hv : (sig.getD 64 0).toNat ≤ 1)
    (hvalid : ValidateSignatureValues (sig.getD 64 0) (BigEndian.toNat (sig.take 32))
      (BigEndian.toNat ((sig.drop 32).take 32)) true = true) :
    recoverPlain crypto h (BigEndian.toNat (sig.take 32)) (BigEndian.toNat ((sig.drop 32).take 32))
      ((sig.getD 64 0).toNat + 27 : Nat) true = pubkeyAddress crypto (crypto.ecrecover h sig) := by
  unfold recoverPlain
  rw [if_neg (by omega)]
  dsimp only
  rw [Int.natAbs_natCast, toUInt8_add_sub_cancel, if_neg (by rw [hvalid]; decide), copyRight_toNat_append hlen]

theorem pubkeyAddress_pubkey {crypto : Crypto Key} (hc : crypto.Inverse) (k : Key) :
    pubkeyAddress crypto (some (crypto.pubkey k)) = .ok (crypto.address (crypto.pubkey k)) := by
  have hhead := hc.pubkey_head k
  rw [pubkeyAddress, if_neg]
  rintro (hnil | hne)
  · rw [hnil] at hhead
    cases hhead
  · exact hne (by rw [List.headD_eq_head?_getD, hhead]; rfl)

theorem recoverPlain_sign {crypto : Crypto Key} (hc : crypto.Inverse) (h : List UInt8) (k : Key) :
    recoverPlain crypto h (BigEndian.toNat ((crypto.sign h k).take 32))
      (BigEndian.toNat (((crypto.sign h k).drop 32).take 32)) (((crypto.sign h k).getD 64 0).toNat + 27 : Nat) true =
      .ok (crypto.address (crypto.pubkey k)) := by
  rw [recoverPlain_reassembled crypto h (hc.length_sign h k) (hc.recid_le h k) (hc.valid h k), hc.ecrecover_sign h k,
    pubkeyAddress_pubkey hc]

/-! ## The EIP-155 signer -/

theorem SignTx_eip155 (crypto : Crypto Key) (tx : TxData) (c : Nat) (prv : Key)
    (hlen : (crypto.sign ((Signer.eip155 c).Hash crypto tx) prv).length = 65) :
    SignTx crypto tx (.eip155 c) prv =
      let sig := crypto.sign ((Signer.eip155 c).Hash crypto tx) prv
      some { tx with r := BigEndian.toNat (sig.take 32), s := BigEndian.toNat ((sig.drop 32).take 32),
                     v := if c ≠ 0 then (sig.getD 64 0 + 35).toNat + 2 * c else (sig.getD 64 0 + 27).toNat } := by
  simp only [SignTx, WithSignature, Signer.SignatureValues, frontierSignatureValues_of_length hlen, Option.map_some]
  split_ifs <;> rfl

/-- For chain id `0`, signing keeps the Homestead `V = v + 27`, so that `Sender` takes the
Homestead signer, which asks `Ecrecover` about the signature over the Frontier hash, while
`SignTx` signed the EIP-155 hash, over which the signature does recover the signing key. -/
theorem EIP155Signer_zero_Sender_frontierHash {crypto : Crypto Key} (hc : crypto.Inverse) (tx : TxData) (prv : Key) :
    ∃ tx', SignTx crypto tx (.eip155 0) prv = some tx' ∧
      isProtectedV tx'.v = false ∧ deriveenvId tx'.v = 0 ∧
      (Signer.eip155 0).Sender crypto tx' =
        pubkeyAddress crypto (crypto.ecrecover (frontierHash crypto tx) (crypto.sign ((Signer.eip155 0).Hash crypto tx) prv)) ∧
      pubkeyAddress crypto (crypto.ecrecover ((Signer.eip155 0).Hash crypto tx)
        (crypto.sign ((Signer.eip155 0).Hash crypto tx) prv)) = .ok (crypto.address (crypto.pubkey prv)) := by
  set h := (Signer.eip155 0).Hash crypto tx
  set sig := crypto.sign h prv
  have hv : (sig.getD 64 0).toNat ≤ 1 := hc.recid_le h prv
  have hV : (sig.getD 64 0 + 27).toNat = (sig.getD 64 0).toNat + 27 := toNat_add_of_le_one hv 27 (by decide)
  refine ⟨{ tx with r := BigEndian.toNat (sig.take 32), s := BigEndian.toNat ((sig.drop 32).take 32),
                    v := (sig.getD 64 0).toNat + 27 }, ?_, isProtectedV_homestead hv, deriveenvId_homestead hv, ?_, ?_⟩
  · rw [SignTx_eip155 crypto tx 0 prv (hc.length_sign h prv)]
    dsimp only
    rw [if_neg (not_not.mpr rfl), hV]
  · rw [Signer.Sender, if_pos (isProtectedV_homestead hv), homesteadSender]
    dsimp only
    rw [frontierHash_with_signature]
    exact recoverPlain_reassembled crypto _ (hc.length_sign h prv) hv (hc.valid h prv)
  · rw [hc.ecrecover_sign h prv, pubkeyAddress_pubkey hc]

/-- A toy curve that satisfies `Crypto.Inverse`: the signature carries the key plus a byte of the
hash, and `Ecrecover` takes that byte of its own hash back off. -/
def toyCrypto : Crypto UInt8 where
  keccak256 x := List.replicate 12 0 ++ (x ++ List.replicate 20 0).take 20
  sign h k := [1] ++ List.replicate 30 0 ++ [k + h.getD 12 0] ++ List.replicate 31 0 ++ [1, 0]
  ecrecover h sig := some [4, sig.getD 31 0 - h.getD 12 0]
  pubkey k := [4, k]

theorem toyCrypto_inverse : toyCrypto.Inverse where
  length_sign _ _ := rfl
  recid_le _ _ := (by decide : (0 : UInt8).toNat ≤ 1)
  valid h k := by
    have hR : BigEndian.toNat ((toyCrypto.sign h k).take 32) = 256 ^ 31 + (k + h.getD 12 0).toNat := by
      rw [show (toyCrypto.sign h k).take 32 = [1] ++ List.replicate 30 0 ++ [k + h.getD 12 0] from rfl,
        BigEndian.toNat_append_singleton]
      rfl
    have hS : BigEndian.toNat (((toyCrypto.sign h k).drop 32).take 32) = 1 := rfl
    have hx := (k + h.getD 12 0).toNat_lt
    rw [hR, hS, ValidateSignatureValues, if_neg (by omega), if_neg (by decide)]
    rw [decide_eq_true_iff]
    refine ⟨?_, by decide, .inl rfl⟩
    unfold secp256k1N
    omega
  ecrecover_sign h k := by
    show some [4, (k + h.getD 12 0) - h.getD 12 0] = some [4, k]
    rw [UInt8.add_sub_cancel]
  pubkey_head _ := rfl

def zeroTx : TxData := ⟨0, 0, 0, none, 0, [], 0, 0, 0⟩

/-- Signed for chain `0` with the toy curve, a transaction recovers to another address than its
key's: the Frontier hash of six fields and the EIP-155 hash of nine differ in their first byte. -/
theorem EIP155Signer_zero_Sender_frontierHash_toyCrypto :
    (∃ tx', SignTx toyCrypto zeroTx (.eip155 0) 1 = some tx' ∧
      isProtectedV tx'.v = false ∧ deriveenvId tx'.v = 0 ∧
      (Signer.eip155 0).Sender toyCrypto tx' =
        pubkeyAddress toyCrypto (toyCrypto.ecrecover (frontierHash toyCrypto zeroTx)
          (toyCrypto.sign ((Signer.eip155 0).Hash toyCrypto zeroTx) 1)) ∧
      pubkeyAddress toyCrypto (toyCrypto.ecrecover ((Signer.eip155 0).Hash toyCrypto zeroTx)
        (toyCrypto.sign ((Signer.eip155 0).Hash toyCrypto zeroTx) 1)) = .ok (toyCrypto.address (toyCrypto.pubkey 1))) ∧
    pubkeyAddress toyCrypto (toyCrypto.ecrecover (frontierHash toyCrypto zeroTx)
      (toyCrypto.sign ((Signer.eip155 0).Hash toyCrypto zeroTx) 1)) ≠ .ok (toyCrypto.address (toyCrypto.pubkey 1)) := by
  refine ⟨EIP155Signer_zero_Sender_frontierHash toyCrypto_inverse zeroTx 1, ?_⟩
  simp only [frontierHash, Signer.Hash, sigFields, zeroTx, rlpUint, BigEndian.ofNat_zero]
  decide

end Zerium.Types
