import Jed.Codec.Number

/-!
# Stored documents

The tagged-node tree of a `jsonb` body (`format.rs:829-1045`).
-/

namespace Jed.Codec

open Readers Key

/-- `NTAG_*`. -/
def NTAG_NULL : UInt8 := 0x0
def NTAG_FALSE : UInt8 := 0x1
def NTAG_TRUE : UInt8 := 0x2
def NTAG_NUMBER : UInt8 := 0x3
def NTAG_STRING : UInt8 := 0x4
def NTAG_STRING_DICT : UInt8 := 0x5
def NTAG_ARRAY : UInt8 := 0x6
def NTAG_OBJECT : UInt8 := 0x7

/-- `MAX_JSON_DEPTH` (`json.rs:142`). -/
def MAX_JSON_DEPTH : Nat := 256

/-- A string node's payload. -/
def encodeJsonbString (s : Bytes) : Bytes := writeUvarint s.length ++ s

mutual

/-- `encode_jsonb_body` (`format.rs:898-930`). -/
def encodeJsonbBody : JsonNode → Bytes
  | .null => [NTAG_NULL]
  | .bool false => [NTAG_FALSE]
  | .bool true => [NTAG_TRUE]
  | .number d => NTAG_NUMBER :: encodeDecimalBody d
  | .string s => NTAG_STRING :: encodeJsonbString s
  | .array elems => NTAG_ARRAY :: (writeUvarint elems.length ++ encodeItems elems)
  | .object members => NTAG_OBJECT :: (writeUvarint members.length ++ encodeMembers members)

def encodeItems : List JsonNode → Bytes
  | [] => []
  | e :: elems => encodeJsonbBody e ++ encodeItems elems

def encodeMembers : List (Bytes × JsonNode) → Bytes
  | [] => []
  | (k, v) :: members =>
    (NTAG_STRING :: encodeJsonbString k) ++ (encodeJsonbBody v ++ encodeMembers members)

end

/-- `decode_jsonb_string` (`format.rs:1037-1045`). -/
def decodeJsonbString (mode : DecodeMode) : Cursor (Option Bytes) := do
  let len ← readUvarint
  let bytes ← take len
  if mode.constructs then
    let s ← fromUtf8 bytes "non-UTF-8 jsonb string"
    pure (some s)
  else pure none

/-- `jsonb_descend` (`format.rs:1024-1032`): the reader of a container's nodes, none being left at
    the greatest depth. -/
def jsonbDescend (inner : Option (Cursor JsonNode)) : Cursor (Cursor JsonNode) :=
  match inner with
  | none => throw (dataCorrupted s!"jsonb nesting depth exceeds the maximum of {MAX_JSON_DEPTH}")
  | some inner => pure inner

/-- A member of an object: its key, nothing when skipped, and its node. -/
def decodeMember (mode : DecodeMode) (inner : Cursor JsonNode) : Cursor (Bytes × JsonNode) := do
  let ktag ← readU8
  if ktag &&& 0xf0 ≠ 0 then
    throw (dataCorrupted "jsonb object key tag has a reserved flag bit set")
  else if ktag &&& 0x0f = NTAG_STRING then
    let key ← decodeJsonbString mode
    let val ← inner
    if mode.constructs then
      match key with
      | some key => pure (key, val)
      | none => throw .panic
    else pure ([], val)
  else if ktag &&& 0x0f = NTAG_STRING_DICT then
    throw (dataCorrupted "jsonb string-dictionary reference before the dictionary slice")
  else throw (dataCorrupted "jsonb object key is not a string node")

/-- `decode_jsonb_node` (`format.rs:958-1019`), over the reader of the nodes one level down. -/
def decodeNodeOver (mode : DecodeMode) (inner : Option (Cursor JsonNode)) : Cursor JsonNode := do
  let tag ← readU8
  if tag &&& 0xf0 ≠ 0 then throw (dataCorrupted "jsonb node tag has a reserved flag bit set")
  else if tag &&& 0x0f = NTAG_NULL then pure .null
  else if tag &&& 0x0f = NTAG_FALSE then pure (.bool false)
  else if tag &&& 0x0f = NTAG_TRUE then pure (.bool true)
  else if tag &&& 0x0f = NTAG_NUMBER then
    let v ← decodeDecimalBody mode
    match v with
    | .decimal d => pure (.number d)
    | _ => pure .null
  else if tag &&& 0x0f = NTAG_STRING then
    let s ← decodeJsonbString mode
    match s with
    | some s => pure (.string s)
    | none => pure .null
  else if tag &&& 0x0f = NTAG_STRING_DICT then
    throw (dataCorrupted "jsonb string-dictionary reference before the dictionary slice")
  else if tag &&& 0x0f = NTAG_ARRAY then
    let inner ← jsonbDescend inner
    let count ← readUvarint
    let elems ← readEach (fun _ => inner) (List.range count)
    pure (.array (if mode.constructs then elems else []))
  else if tag &&& 0x0f = NTAG_OBJECT then
    let inner ← jsonbDescend inner
    let count ← readUvarint
    let members ← readEach (fun _ => decodeMember mode inner) (List.range count)
    pure (.object (if mode.constructs then members else []))
  else throw (dataCorrupted "unknown jsonb node tag")

/-- A node with `levels` of nesting left. -/
def decodeJsonbNode (mode : DecodeMode) : (levels : Nat) → Cursor JsonNode
  | 0 => decodeNodeOver mode none
  | levels + 1 => decodeNodeOver mode (some (decodeJsonbNode mode levels))

/-- `decode_jsonb_body`. -/
def decodeJsonbBody (mode : DecodeMode) : Cursor JsonNode := decodeJsonbNode mode MAX_JSON_DEPTH

/-- A stored string: it is UTF-8, and its length is counted in 64 bits. -/
def StringOk (s : Bytes) : Prop := ByteArray.validateUTF8 ⟨s.toArray⟩ ∧ s.length < 2 ^ 64

mutual

/-- A node of at most `levels` of nesting, of numbers within the caps. -/
def NodeOk (levels : Nat) : JsonNode → Prop
  | .null | .bool _ => True
  | .number d => d.InCaps
  | .string s => StringOk s
  | .array elems => 0 < levels ∧ elems.length < 2 ^ 64 ∧ ItemsOk (levels - 1) elems
  | .object members => 0 < levels ∧ members.length < 2 ^ 64 ∧ MembersOk (levels - 1) members

def ItemsOk (levels : Nat) : List JsonNode → Prop
  | [] => True
  | e :: elems => NodeOk levels e ∧ ItemsOk levels elems

def MembersOk (levels : Nat) : List (Bytes × JsonNode) → Prop
  | [] => True
  | (k, v) :: members => (StringOk k ∧ NodeOk levels v) ∧ MembersOk levels members

end

variable {levels : ℕ}

theorem itemsOk_iff {elems : List JsonNode} :
    ItemsOk levels elems ↔ ∀ e ∈ elems, NodeOk levels e := by
  induction elems with
  | nil => simp [ItemsOk]
  | cons e elems ih => simp [ItemsOk, ih]

theorem membersOk_iff {members : List (Bytes × JsonNode)} :
    MembersOk levels members ↔ ∀ m ∈ members, StringOk m.1 ∧ NodeOk levels m.2 := by
  induction members with
  | nil => simp [MembersOk]
  | cons m members ih => simp [MembersOk, ih]

theorem encodeItems_eq (elems : List JsonNode) :
    encodeItems elems = elems.flatMap encodeJsonbBody := by
  induction elems with
  | nil => rfl
  | cons e elems ih => rw [encodeItems, List.flatMap_cons, ih]

/-- A member's bytes. -/
def encodeMember (m : Bytes × JsonNode) : Bytes :=
  (NTAG_STRING :: encodeJsonbString m.1) ++ encodeJsonbBody m.2

theorem encodeMembers_eq (members : List (Bytes × JsonNode)) :
    encodeMembers members = members.flatMap encodeMember := by
  induction members with
  | nil => rfl
  | cons m members ih =>
    rw [encodeMembers, List.flatMap_cons, ih, encodeMember, List.append_assoc]

theorem reads_decodeJsonbString {s : Bytes} (h : StringOk s) :
    Reads (decodeJsonbString .construct) (encodeJsonbString s) (some s) := by
  refine (reads_readUvarint h.2).bind ((reads_take s).check ?_)
  rw [DecodeMode.constructs_construct, if_pos rfl]
  exact (reads_fromUtf8 h.1 _).map

theorem reads_decodeMember {inner : Cursor JsonNode} {m : Bytes × JsonNode} (h : StringOk m.1)
    (hinner : Reads inner (encodeJsonbBody m.2) m.2) :
    Reads (decodeMember .construct inner) (encodeMember m) m := by
  have htag : NTAG_STRING &&& 0xf0 = 0 ∧ NTAG_STRING &&& 0x0f = NTAG_STRING := by decide
  refine Reads.bind (b := [_]) (reads_readU8 NTAG_STRING) ?_
  rw [if_neg (not_not_intro htag.1), if_pos htag.2]
  exact (reads_decodeJsonbString h).bind (hinner.check (Reads.pure m))

variable {inner : Option (Cursor JsonNode)} {n : JsonNode}

/-- A node is read back where the nodes below it are. -/
theorem reads_decodeNodeOver (hn : NodeOk levels n) (hinner : 0 < levels → ∃ r, inner = some r ∧
      ∀ m, NodeOk (levels - 1) m → Reads r (encodeJsonbBody m) m) :
    Reads (decodeNodeOver .construct inner) (encodeJsonbBody n) n := by
  cases n with
  | null => exact (reads_readU8 NTAG_NULL).check (Reads.pure _)
  | bool b =>
    cases b
    · exact (reads_readU8 NTAG_FALSE).check (Reads.pure _)
    · exact (reads_readU8 NTAG_TRUE).check (Reads.pure _)
  | number d =>
    refine Reads.bind (b := [_]) (reads_readU8 NTAG_NUMBER) ?_
    exact (reads_decodeDecimalBody hn).check (Reads.pure _)
  | string s =>
    refine Reads.bind (b := [_]) (reads_readU8 NTAG_STRING) ?_
    exact (reads_decodeJsonbString hn).check (Reads.pure _)
  | array elems =>
    obtain ⟨hlevels, hlen, hitems⟩ := hn
    obtain ⟨r, rfl, hr⟩ := hinner hlevels
    refine Reads.bind (b := [_]) (reads_readU8 NTAG_ARRAY) ?_
    refine Reads.bind_nil (Reads.pure r) ((reads_readUvarint hlen).bind ?_)
    rw [encodeItems_eq]
    exact (Reads.times fun e he => hr e (itemsOk_iff.mp hitems e he)).check (Reads.pure _)
  | object members =>
    obtain ⟨hlevels, hlen, hmembers⟩ := hn
    obtain ⟨r, rfl, hr⟩ := hinner hlevels
    refine Reads.bind (b := [_]) (reads_readU8 NTAG_OBJECT) ?_
    refine Reads.bind_nil (Reads.pure r) ((reads_readUvarint hlen).bind ?_)
    rw [encodeMembers_eq]
    refine (Reads.times fun m hm => ?_).check (Reads.pure _)
    have hm := membersOk_iff.mp hmembers m hm
    exact reads_decodeMember hm.1 (hr m.2 hm.2)

theorem reads_decodeJsonbNode (levels : ℕ) : ∀ n, NodeOk levels n →
    Reads (decodeJsonbNode .construct levels) (encodeJsonbBody n) n := by
  induction levels with
  | zero => exact fun n hn => reads_decodeNodeOver hn fun h => absurd h (lt_irrefl 0)
  | succ levels ih => exact fun n hn => reads_decodeNodeOver hn fun _ => ⟨_, rfl, ih⟩

theorem reads_decodeJsonbBody (h : NodeOk MAX_JSON_DEPTH n) :
    Reads (decodeJsonbBody .construct) (encodeJsonbBody n) n := reads_decodeJsonbNode _ n h

theorem sound_decodeJsonbString (mode : DecodeMode) :
    Sound IsCorrupt (decodeJsonbString mode) fun s => mode = .construct → s.isSome := by
  refine sound_readUvarint.bind fun len _ => (sound_take len).bind fun bytes _ => ?_
  cases mode with
  | construct => exact (sound_fromUtf8 bytes _).bind fun s _ => Sound.pure fun _ => rfl
  | skip => exact Sound.pure fun h => nomatch h

theorem sound_decodeMember (mode : DecodeMode) {inner : Cursor JsonNode}
    (h : Sound IsCorrupt inner fun _ => True) :
    Sound IsCorrupt (decodeMember mode inner) fun _ => True := by
  refine sound_readU8.bind fun ktag _ => ?_
  split
  · exact Sound.throw (isCorrupt _)
  split
  · refine (sound_decodeJsonbString mode).bind fun key hkey => h.bind fun val _ => ?_
    cases mode with
    | skip => exact Sound.pure trivial
    | construct =>
      cases key with
      | none => exact absurd (hkey rfl) (by decide)
      | some key => exact Sound.pure trivial
  split
  · exact Sound.throw (isCorrupt _)
  · exact Sound.throw (isCorrupt _)

theorem sound_jsonbDescend (h : ∀ r ∈ inner, Sound IsCorrupt r fun _ => True) :
    Sound IsCorrupt (jsonbDescend inner) fun r => Sound IsCorrupt r fun _ => True := by
  cases inner with
  | none => exact Sound.throw (isCorrupt _)
  | some r => exact Sound.pure (h r rfl)

theorem sound_decodeNodeOver (mode : DecodeMode) (h : ∀ r ∈ inner, Sound IsCorrupt r fun _ => True) :
    Sound IsCorrupt (decodeNodeOver mode inner) fun _ => True := by
  refine sound_readU8.bind fun tag _ => ?_
  split
  · exact Sound.throw (isCorrupt _)
  split
  · exact Sound.pure trivial
  split
  · exact Sound.pure trivial
  split
  · exact Sound.pure trivial
  split
  · refine (sound_decodeDecimalBody mode).bind fun v _ => ?_
    split <;> exact Sound.pure trivial
  split
  · refine (sound_decodeJsonbString mode).bind fun s _ => ?_
    split <;> exact Sound.pure trivial
  split
  · exact Sound.throw (isCorrupt _)
  split
  · refine (sound_jsonbDescend h).bind fun r hr => sound_readUvarint.bind fun count _ => ?_
    exact (Sound.each fun _ _ => hr).bind fun _ _ => Sound.pure trivial
  split
  · refine (sound_jsonbDescend h).bind fun r hr => sound_readUvarint.bind fun count _ => ?_
    exact (Sound.each fun _ _ => sound_decodeMember mode hr).bind fun _ _ => Sound.pure trivial
  · exact Sound.throw (isCorrupt _)

theorem sound_decodeJsonbBody (mode : DecodeMode) :
    Sound IsCorrupt (decodeJsonbBody mode) fun _ => True := by
  have hnode : ∀ levels, Sound IsCorrupt (decodeJsonbNode mode levels) fun _ => True := by
    intro levels
    induction levels with
    | zero => exact sound_decodeNodeOver mode fun r hr => nomatch hr
    | succ levels ih => exact sound_decodeNodeOver mode fun r hr => Option.some.inj hr ▸ ih
  exact hnode MAX_JSON_DEPTH

/-- What a reader takes to build its value it takes to skip it. -/
abbrev InStep {α : Type} (r : DecodeMode → Cursor α) : Prop :=
  Lockstep (fun _ _ => True) (r .construct) (r .skip)

theorem inStep_decodeJsonbString : InStep decodeJsonbString := by
  refine (Lockstep.refl readUvarint).bind fun len _ h => ?_
  subst h
  refine (Lockstep.refl (take len)).bind fun bytes _ _ => ?_
  rw [DecodeMode.constructs_construct, if_pos rfl]
  intro buf v rest hv
  rw [fromUtf8] at hv
  split at hv
  · cases hv
    exact ⟨none, rfl, trivial⟩
  · cases hv

theorem inStep_decodeMember {r s : Cursor JsonNode} (h : Lockstep (fun _ _ => True) r s) :
    Lockstep (fun _ _ => True) (decodeMember .construct r) (decodeMember .skip s) := by
  refine (Lockstep.refl readU8).bind fun ktag _ hk => ?_
  subst hk
  split
  · exact Lockstep.throw_left
  split
  · refine inStep_decodeJsonbString.bind fun key _ _ => h.bind fun val _ _ => ?_
    rw [DecodeMode.constructs_construct, if_pos rfl]
    cases key with
    | none => exact Lockstep.throw_left
    | some key => exact Lockstep.pure trivial
  split
  · exact Lockstep.throw_left
  · exact Lockstep.throw_left

theorem inStep_decodeNodeOver {inner' : Option (Cursor JsonNode)}
    (h : Lockstep (Lockstep fun _ _ => True) (jsonbDescend inner) (jsonbDescend inner')) :
    Lockstep (fun _ _ => True) (decodeNodeOver .construct inner) (decodeNodeOver .skip inner') := by
  refine (Lockstep.refl readU8).bind fun tag _ ht => ?_
  subst ht
  split
  · exact Lockstep.throw_left
  split
  · exact Lockstep.pure trivial
  split
  · exact Lockstep.pure trivial
  split
  · exact Lockstep.pure trivial
  split
  · refine lockstep_decodeDecimalBody.bind fun v w _ => ?_
    split <;> split <;> exact Lockstep.pure trivial
  split
  · refine inStep_decodeJsonbString.bind fun v w _ => ?_
    split <;> split <;> exact Lockstep.pure trivial
  split
  · exact Lockstep.throw_left
  split
  · refine h.bind fun r s hrs => (Lockstep.refl readUvarint).bind fun count _ hcount => ?_
    subst hcount
    exact (Lockstep.each fun _ _ => hrs).bind fun _ _ _ => Lockstep.pure trivial
  split
  · refine h.bind fun r s hrs => (Lockstep.refl readUvarint).bind fun count _ hcount => ?_
    subst hcount
    exact (Lockstep.each fun _ _ => inStep_decodeMember hrs).bind fun _ _ _ => Lockstep.pure trivial
  · exact Lockstep.throw_left

theorem inStep_decodeJsonbBody : InStep decodeJsonbBody := by
  have hnode : ∀ levels, InStep fun mode => decodeJsonbNode mode levels := by
    intro levels
    induction levels with
    | zero => exact inStep_decodeNodeOver Lockstep.throw_left
    | succ levels ih => exact inStep_decodeNodeOver (Lockstep.pure ih)
  exact hnode MAX_JSON_DEPTH

end Jed.Codec
