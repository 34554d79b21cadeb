import Confirmer.Message

/-!
# The text of a posted message

`Broadcast`, `BroadcastSubmitMessage` and `BroadcastAggregateSignature` write their fields with
`"::"` behind each and a newline at the end; signatures and keys go in as raw bytes behind their
length.
-/

namespace Confirmer

open Text

variable {B : BLS}

/-- `"::"`. -/
def delim : Bytes := [58, 58]

/-- `"\n"`. -/
def newline : Bytes := [10]

/-- A field and the delimiter behind it. -/
def field (s : Bytes) : Bytes := s ++ delim

/-- The string that `Broadcast` posts. -/
def serializeRB (msg : RBMessage) : Bytes :=
  field (decInt msg.type.toInt) ++ (field (decInt msg.pid.toInt) ++ (field msg.content ++ newline))

/-- The fields of a submit message behind its destination, from the serialized signature and
key. -/
def submitBody (pid value : Int32) (vSig vPub : Bytes) : Bytes :=
  field (decInt pid.toInt) ++ (field (decInt value.toInt) ++ (field (decNat vSig.length) ++
    (field vSig ++ (field (decNat vPub.length) ++ (field vPub ++ newline)))))

/-- The fields of an aggregate-signature message behind its destination. -/
def aggSignBody (pid value : Int32) (vSig : Bytes) : Bytes :=
  field (decInt pid.toInt) ++ (field (decInt value.toInt) ++ (field (decNat vSig.length) ++
    (field vSig ++ newline)))

/-- A message of the confirmer: type, destination, and the rest. -/
def acText (type dest : Int32) (body : Bytes) : Bytes :=
  field (decInt type.toInt) ++ (field (decInt dest.toInt) ++ body)

/-- The string that `BroadcastSubmitMessage` posts. -/
def serializeSubmit (dest : Int32) (msg : SubmitMsg B) : Bytes :=
  acText msg.type dest (submitBody msg.pid msg.value (B.blsSignatureSerialize msg.sig)
    (B.blsPublicKeySerialize msg.pub))

/-- The string that `BroadcastAggregateSignature` posts. -/
def serializeAggSign (dest : Int32) (msg : SubmitAggSign B) : Bytes :=
  acText msg.type dest (aggSignBody msg.pid msg.value (B.blsSignatureSerialize msg.aggSig))

/-- The string that a post puts on the wire. -/
def Post.bytes : Post B → Bytes
  | .rb m => serializeRB m
  | .submit dest m => serializeSubmit dest m
  | .aggSign dest m => serializeAggSign dest m

end Confirmer
