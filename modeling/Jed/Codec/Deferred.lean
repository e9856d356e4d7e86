import Jed.Codec.AnyInput
import Jed.Codec.Lz4
import Jed.Codec.Overflow

/-!
# Large values

A value too large for its record is compressed, or moved to an overflow chain, or both
(`format.rs:4131-4201`); a reader of records defers it (`format.rs:7744-7816`) and resolves what it
deferred when the value is asked for (`format.rs:7823-7863`).
-/

namespace Jed.Codec

open Readers Key PMap

/-- `is_spillable` (`format.rs:1172-1188`). -/
def isSpillable : ColType → Bool
  | .scalar s => s = .text || s = .bytea || s = .decimal || s = .json || s = .jsonb
  | .composite _ | .array _ | .range _ => true

/-- `value_payload` (`format.rs:1714-1740`): the bytes of a string, else the value's body. -/
def valuePayload (ct : ColType) (v : Value) : Except Failure Bytes :=
  match ct, v with
  | .scalar _, .text s => .ok s
  | .scalar _, .bytea b => .ok b
  | .scalar _, .json s => .ok s
  | .scalar _, .jsonb n => .ok (encodeJsonbBody n)
  | .scalar s, .decimal d => (encodeScalar s (.decimal d)).map (·.drop 1)
  | .composite fields, .composite vals =>
    (encodeValue (.composite fields) (.composite vals)).map (·.drop 1)
  | .array elem, .array dims lbounds elements =>
    (encodeValue (.array elem) (.array dims lbounds elements)).map (·.drop 1)
  | .range elem, .range r => (encodeValue (.range elem) (.range r)).map (·.drop 1)
  | _, _ => .error .panic

/-- `value_from_payload` (`format.rs:1744-1786`): what follows the value is not looked at. -/
def valueFromPayload (ct : ColType) (payload : Bytes) : Except Failure Value :=
  match ct with
  | .scalar .text =>
    ((do let s ← fromUtf8 payload "non-UTF-8 text value"; pure (.text s) : Cursor Value) []).map (·.1)
  | .scalar .bytea => .ok (.bytea payload)
  | .scalar .json =>
    ((do let s ← fromUtf8 payload "non-UTF-8 json value"; pure (.json s) : Cursor Value) []).map (·.1)
  | .scalar .jsonb => (decodeJsonbBody .construct payload).map fun p => .jsonb p.1
  | .scalar .decimal => (decodeDecimalBody .construct payload).map (·.1)
  | .composite fields => (readInlineBody .construct (.composite fields) payload).map (·.1)
  | .array elem => (readInlineBody .construct (.array elem) payload).map (·.1)
  | .range elem => (readInlineBody .construct (.range elem) payload).map (·.1)
  | .scalar _ => .error (dataCorrupted "a non-spillable type was stored external")

/-- `Disp`: how the plan of a record stores a value, with the compressed block where there is one. -/
inductive Disp where
  | inline
  | external
  | inlineComp (comp : Bytes)
  | externalComp (comp : Bytes)
  deriving DecidableEq, Repr

def TAG_EXTERNAL : UInt8 := 0x02
def TAG_INLINE_COMP : UInt8 := 0x03
def TAG_EXTERNAL_COMP : UInt8 := 0x04

/-- `encode_disposed_value` (`format.rs:4131-4201`), of a resident value: what its record holds, and
    the pages of its chain. -/
def encodeDisposedValue (ct : ColType) (v : Value) (disp : Disp) (sealer : Sealer)
    (fresh : Nat → Nat) : Except Failure (Bytes × List (Nat × Bytes)) :=
  match disp with
  | .inline => (encodeValue ct v).map (·, [])
  | .external => do
    let payload ← valuePayload ct v
    let (first, ovf) ← writeOverflowChain payload sealer fresh
    return (TAG_EXTERNAL :: (beBytes 4 first.page ++ (beBytes 4 payload.length ++
      first.tag.take sealer.cap.tag)), ovf)
  | .inlineComp comp => do
    let payload ← valuePayload ct v
    return (TAG_INLINE_COMP :: (beBytes 4 payload.length ++ (beBytes 2 comp.length ++ comp)), [])
  | .externalComp comp => do
    let payload ← valuePayload ct v
    let (first, ovf) ← writeOverflowChain comp sealer fresh
    return (TAG_EXTERNAL_COMP :: (beBytes 4 first.page ++ (beBytes 4 comp.length ++
      (beBytes 4 payload.length ++ first.tag.take sealer.cap.tag))), ovf)

/-- `Unfetched`: a deferred value; an inline one is the span of its body. -/
inductive Unfetched where
  | inline (body : Bytes)
  | external (first : PageRef) (len : Nat)
  | inlineComp (comp : Bytes) (rawLen : Nat)
  | externalComp (first : PageRef) (storedLen rawLen : Nat)
  deriving DecidableEq, Repr

/-- What a record is read to hold: a value, or a deferred one. -/
inductive Stored where
  | value (v : Value)
  | unfetched (u : Unfetched)

/-- `read_pointer_tag` (`format.rs:7971-7975`). -/
def readPointerTag (page : Nat) (cap : Cap) : Cursor PageRef := do
  let tag ← take cap.tag
  pure ⟨page, tag ++ List.replicate (TAG_LEN - cap.tag) 0⟩

/-- `read_value_lazy` (`format.rs:7744-7816`). -/
def readValueLazy (ct : ColType) (cap : Cap) : Cursor Stored := do
  let tag ← readU8
  if tag = 0x00 then
    if isSpillable ct then do
      let body ← inlineBodySpan ct
      pure (.unfetched (.inline body))
    else do
      let v ← readInlineBody .construct ct
      pure (.value v)
  else if tag = 0x01 then pure (.value .null)
  else if tag = TAG_EXTERNAL then do
    let page ← readU32
    let len ← readU32
    let first ← readPointerTag page cap
    pure (.unfetched (.external first len))
  else if tag = TAG_INLINE_COMP then do
    let rawLen ← readU32
    let compLen ← readU16
    let comp ← take compLen
    pure (.unfetched (.inlineComp comp rawLen))
  else if tag = TAG_EXTERNAL_COMP then do
    let page ← readU32
    let storedLen ← readU32
    let rawLen ← readU32
    let first ← readPointerTag page cap
    pure (.unfetched (.externalComp first storedLen rawLen))
  else throw (dataCorrupted "invalid value presence tag")

/-- `resolve_unfetched` (`format.rs:7823-7863`). -/
def resolveUnfetched (ct : ColType) (u : Unfetched) (fetch : PageRef → Except Failure Bytes)
    (cap : Cap) : Except Failure Value :=
  match u with
  | .inline body => (readInlineBody .construct ct body).map (·.1)
  | .external first len => do
    let payload ← readOverflowChain fetch cap len first
    valueFromPayload ct payload
  | .inlineComp comp rawLen => do
    let payload ← Lz4.decompress comp rawLen
    valueFromPayload ct payload
  | .externalComp first storedLen rawLen => do
    let comp ← readOverflowChain fetch cap storedLen first
    let payload ← Lz4.decompress comp rawLen
    valueFromPayload ct payload

/-- A stored value, resolved where it was deferred. -/
def Stored.resolve (ct : ColType) (fetch : PageRef → Except Failure Bytes) (cap : Cap) :
    Stored → Except Failure Value
  | .value v => .ok v
  | .unfetched u => resolveUnfetched ct u fetch cap

end Jed.Codec
