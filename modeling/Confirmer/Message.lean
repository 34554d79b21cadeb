import Confirmer.Lib.Text

/-!
# Messages and the state of a peer

The data of `message.h`, `accountable_confirmer_bls.h`, `accountable_confirmer.h`,
`reliable_broadcast.h` and of `struct Peer` in `core.h`.

* `BLS`: the functions of the BLS library that the program calls, as a parameter.
* `RBMessage`, `SubmitMsg`, `SubmitAggSign`; `Post`: what a peer hands to `TCPClient::Post`.
* `Memory`: what the blocks hold that the parser gets from `new`.
* `AccountableConfirmer`, `ReliableBroadcast`, `Peer`, `Globals`, `initPeer`.
-/

namespace Confirmer

/-- A `std::string`. -/
abbrev Bytes := List UInt8

/-- **The BLS library.** `blsAggregateSignature v k` is the result for the array `v` and the count
`k`. A deserializer that fails (`none`) leaves the object that it was to fill as it was. The `uninit`
values are what memory holds before the program writes to it; the serializers write at most the 128
bytes of the buffers they are given. -/
structure BLS where
  SecretKey : Type
  PublicKey : Type
  Signature : Type
  blsGetPublicKey : SecretKey → PublicKey
  blsSign : SecretKey → Bytes → Signature
  blsVerify : Signature → PublicKey → Bytes → Bool
  blsAggregateSignature : List Signature → ℕ → Signature
  blsSignatureSerialize : Signature → Bytes
  blsPublicKeySerialize : PublicKey → Bytes
  blsSignatureDeserialize : Bytes → Option Signature
  blsPublicKeyDeserialize : Bytes → Option PublicKey
  uninitSignature : Signature
  uninitPublicKey : PublicKey
  signature_length : ∀ s, (blsSignatureSerialize s).length ≤ 128
  publicKey_length : ∀ k, (blsPublicKeySerialize k).length ≤ 128

/-- A stand-in for the library: the signature of `m` under `sec` is the number `10 ^ 10 * sec + m`,
the aggregate of an array is a sum, numbers are serialized in decimal, and an empty string does not
deserialize. -/
def plainBLS : BLS where
  SecretKey := ℕ
  PublicKey := ℕ
  Signature := ℕ
  blsGetPublicKey sec := sec
  blsSign sec m := 10 ^ 10 * sec + Text.digitsVal m
  blsVerify sig pub m := decide (sig = 10 ^ 10 * pub + Text.digitsVal m)
  blsAggregateSignature v k := (v.take k).sum
  blsSignatureSerialize s := if (Text.decNat s).length ≤ 128 then Text.decNat s else []
  blsPublicKeySerialize k := if (Text.decNat k).length ≤ 128 then Text.decNat k else []
  blsSignatureDeserialize s := if s = [] then none else some (Text.digitsVal s)
  blsPublicKeyDeserialize s := if s = [] then none else some (Text.digitsVal s)
  uninitSignature := 0
  uninitPublicKey := 0
  signature_length s := by split_ifs with h <;> simp [h]
  publicKey_length k := by split_ifs with h <;> simp [h]

instance : DecidableEq plainBLS.PublicKey := inferInstanceAs (DecidableEq ℕ)

/-- `enum messageType`. -/
inductive MessageType
  | none | send | echo | ready | submit | aggSign
  deriving DecidableEq

/-- The number of an enumerator; `type` fields are plain `int`s. -/
def MessageType.toInt32 : MessageType → Int32
  | .none => 0
  | .send => 1
  | .echo => 2
  | .ready => 3
  | .submit => 4
  | .aggSign => 5

instance : Coe MessageType Int32 := ⟨MessageType.toInt32⟩

structure RBMessage where
  type : Int32
  pid : Int32
  content : Bytes
  deriving DecidableEq

structure SubmitAggSign (B : BLS) where
  type : Int32
  pid : Int32
  value : Int32
  aggSig : B.Signature

/-- `SubmitAggSign::operator==`. -/
def SubmitAggSign.eqv {B : BLS} (a other : SubmitAggSign B) : Bool := a.value == other.value

structure SubmitMsg (B : BLS) where
  type : Int32
  pid : Int32
  value : Int32
  sig : B.Signature
  pub : B.PublicKey

/-- What the blocks hold that `new` delivers to the parser: nothing initialises them, and an allocator
may hand out the block that was freed last. -/
structure Memory (B : BLS) where
  recvMsg : SubmitMsg B := ⟨0, 0, 0, B.uninitSignature, B.uninitPublicKey⟩
  recvAggSign : SubmitAggSign B := ⟨0, 0, 0, B.uninitSignature⟩

/-- `accountable_confirmer_bls::Key`. -/
structure Key (B : BLS) where
  sec : B.SecretKey
  pub : B.PublicKey

/-- `KeyGen`, from the secret key that the random generator delivers. -/
def keyGen {B : BLS} (sec : B.SecretKey) : Key B := ⟨sec, B.blsGetPublicKey sec⟩

structure AccountableConfirmer (B : BLS) where
  value : Int32 := 0
  confirm : Bool := false
  «from» : List Int32 := []
  partialSignature : List (SubmitMsg B) := []
  obtainedAggSignature : List (SubmitAggSign B) := []

structure ReliableBroadcast where
  sentecho : Bool := false
  sentready : Bool := false
  delivered : Bool := false
  echos : List RBMessage := []
  readys : List RBMessage := []

/-- What a peer posts: a message and, for the confirmer messages, its destination. -/
inductive Post (B : BLS)
  | rb (m : RBMessage)
  | submit (dest : Int32) (m : SubmitMsg B)
  | aggSign (dest : Int32) (m : SubmitAggSign B)

/-- `struct Peer`, without its threads and sockets. `waiting` is the submit message of a
`BroadcastSubmitMessage` call that is in its waiting loop. -/
structure Peer (B : BLS) where
  id : Int32
  keyPair : Key B
  msg : SubmitMsg B
  aggSignMsg : SubmitAggSign B
  detectConflict : Bool
  ac : AccountableConfirmer B
  rbMsg : RBMessage
  rb : ReliableBroadcast
  isReliableBroadcast : Int32
  waiting : Option (Post B)

/-- The process-wide counts that `InitPeer` sets. -/
structure Globals where
  NUMBER_OF_PROCESSES : Int32
  NUMBER_OF_FAULTY_PROCESSES : Int32

/-- `(int)ceil((NUMBER_OF_PROCESSES - 1) / 3)`: the division is already an integer division. -/
def numberOfFaulty (totalPeers : Int32) : Int32 := Int32.ofInt ((totalPeers.toInt - 1).tdiv 3)

def initGlobals (totalPeers : Int32) : Globals where
  NUMBER_OF_PROCESSES := totalPeers
  NUMBER_OF_FAULTY_PROCESSES := numberOfFaulty totalPeers

/-- The peer that `InitPeer` leaves behind. -/
def initPeer {B : BLS} (id isReliableBroadcast : Int32) (sec : B.SecretKey) : Peer B where
  id := id
  keyPair := keyGen sec
  msg := ⟨0, 0, 0, B.uninitSignature, B.uninitPublicKey⟩
  aggSignMsg := ⟨0, 0, 0, B.uninitSignature⟩
  detectConflict := false
  ac := {}
  rbMsg := ⟨0, 0, []⟩
  rb := {}
  isReliableBroadcast := isReliableBroadcast
  waiting := none

/-- The conversion of an `int` to `size_t` in a comparison with a container's size. -/
def sizeT (x : ℤ) : ℕ := (x % 2 ^ 64).toNat

theorem sizeT_of_nonneg {x : ℤ} (h₀ : 0 ≤ x) (h₁ : x < 2 ^ 64) : sizeT x = x.toNat := by
  rw [sizeT, Int.emod_eq_of_lt h₀ h₁]

theorem sizeT_natCast {k : ℕ} (h : k < 2 ^ 64) : sizeT k = k :=
  sizeT_of_nonneg (by omega) (by omega)

end Confirmer
