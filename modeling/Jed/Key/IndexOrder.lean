import Jed.Gin.Postings
import Jed.Key.Skip

/-!
# Entries of ordered indexes

An entry of an ordered index is a slot for every key element, in the element's own order, and the
storage key of the row behind them (`encoding.rs:85-170`, `access_encode.rs:4689-4763`,
`5271-5320`). Entries are in the declared order of their rows, and are split back into their slots.
-/

namespace Jed.Key

open KeyCodes Gin

/-- `KeyOrder`. -/
structure KeyOrder where
  desc : Bool
  nullsFirst : Bool
  deriving DecidableEq

namespace KeyOrder

variable (o : KeyOrder)

/-- `present_tag`. -/
def presentTag : UInt8 :=
  match o.desc, o.nullsFirst with
  | false, false => 0x00
  | false, true => 0x01
  | true, true => 0xFF
  | true, false => 0xFE

/-- `null_tag`. -/
def nullTag : UInt8 :=
  match o.desc, o.nullsFirst with
  | false, false => 0x01
  | false, true => 0x00
  | true, true => 0xFE
  | true, false => 0xFF

/-- What `push_present` appends. -/
def presentSlot (body : Bytes) : Bytes :=
  o.presentTag :: if o.desc then body.map (~~~ ·) else body

/-- What `push_slot` appends. -/
def slot : Option Bytes → Bytes
  | some body => o.presentSlot body
  | none => [o.nullTag]

/-- The mask `slot_len` reads a body through. -/
def mask : UInt8 := if o.desc then 0xFF else 0x00

end KeyOrder

/-- `KeySlot::slot_len`. -/
def slotLen (kind : KeySlotKind) (o : KeyOrder) (key : Bytes) (pos : Nat) : Option Nat :=
  match key.drop pos with
  | [] => none
  | tag :: body => if tag = o.nullTag then some 1 else (kind.bodyLen body o.mask).map (1 + ·)

/-- `index_entry_row_key`. -/
def indexEntryRowKey (key : Bytes) : (pos : Nat) → List (KeySlotKind × KeyOrder) → Bytes
  | pos, [] => key.drop pos
  | pos, (kind, o) :: slots =>
    match slotLen kind o key pos with
    | some n => indexEntryRowKey key (pos + n) slots
    | none => []

/-- `encode_typed_key` (`access_encode.rs:5417-5440`), of a fetched value. -/
def encodeTypedKey (ty : ColType) (value : Value) (coll : Option Collation) : Except Failure Bytes :=
  match value with
  | .range rv =>
    match ty with
    | .range (.scalar elem) => encodeRangeKey elem rv
    | _ => .error keyKindMismatch
  | .array dims lbounds elements =>
    match ty with
    | .array (.scalar elem) => encodeArrayKey elem dims lbounds elements coll
    | _ => .error keyKindMismatch
  | value =>
    match ty with
    | .scalar s => encodeKeyValue s value coll
    | _ => .error keyKindMismatch

/-- `ResolvedKey`: a column, or an expression with the type and the collation of its result. -/
inductive ResolvedKey where
  | column (ordinal : Nat)
  | expr (eval : List Value → Except Failure Value) (ty : ColType) (coll : Option Table)

/-- What the entries of an index read of its `ResolvedIndex`. -/
structure ResolvedIndex where
  keys : List ResolvedKey
  orders : List KeyOrder
  predicate : Option (List Value → Except Failure Bool)

section

variable (colTypes : List ColType) (colls : List (Option Table))

/-- `index_slot_key`. -/
def indexSlotKey (row : List Value) : ResolvedKey → Except Failure (Option Bytes)
  | .column ci =>
    match row[ci]? with
    | none => .error .panic
    | some .null => .ok none
    | some v =>
      match colTypes[ci]?, colls[ci]? with
      | some ct, some coll => do
        let key ← encodeKeyCt ct v (coll.map Table.collation)
        return some key
      | _, _ => .error .panic
  | .expr eval ty coll => do
    match ← eval row with
    | .null => return none
    | v =>
      let key ← encodeTypedKey ty v (coll.map Table.collation)
      return some key

/-- The slots of a row. -/
def slots (row : List Value) : List (ResolvedKey × KeyOrder) → Except Failure Bytes
  | [] => .ok []
  | (key, o) :: elements => do
    let body ← indexSlotKey colTypes colls row key
    let rest ← slots row elements
    return o.slot body ++ rest

/-- `index_entry_key`. -/
def indexEntryKey (index : ResolvedIndex) (storageKey : Bytes) (row : List Value) :
    Except Failure Bytes := do
  let out ← slots colTypes colls row (index.keys.zip index.orders)
  return out ++ storageKey

/-- `index_row_qualifies`. -/
def indexRowQualifies (index : ResolvedIndex) (row : List Value) : Except Failure Bool :=
  match index.predicate with
  | none => .ok true
  | some predicate => predicate row

/-- The slots of a row that holds no NULL. -/
def presentSlots (row : List Value) :
    List (ResolvedKey × KeyOrder) → Except Failure (Option Bytes)
  | [] => .ok (some [])
  | (key, o) :: elements => do
    match ← indexSlotKey colTypes colls row key with
    | none => return none
    | some body => do
      let rest ← presentSlots row elements
      return rest.map (o.presentSlot body ++ ·)

/-- `index_prefix_key`. -/
def indexPrefixKey (index : ResolvedIndex) (row : List Value) : Except Failure (Option Bytes) := do
  if ← indexRowQualifies index row then
    presentSlots colTypes colls row (index.keys.zip index.orders)
  else return none

end

/-- `unique_probe_bound`. -/
def uniqueProbeBound (p : Bytes) : KeyBound := ⟨some p, true, prefixSuccessor p, false⟩

end Jed.Key

/-!
## The order of index entries

Entries are compared element by element, each in its own direction and with NULL on its own side,
and then by the storage keys. They are split back at the same places.
-/

namespace Jed.Key

open KeyCodes Gin

variable {x y : Value}

theorem nullCmp_present (hx : x ≠ .null) (hy : y ≠ .null) (base : Ordering) (descending nullsFirst : Bool) :
    nullCmp x y base descending nullsFirst = if descending then base.swap else base := by
  unfold nullCmp
  split
  · exact absurd rfl hx
  · exact absurd rfl hx
  · exact absurd rfl hy
  · rfl

theorem nullCmp_left (hy : y ≠ .null) (base : Ordering) (descending nullsFirst : Bool) :
    nullCmp .null y base descending nullsFirst = if nullsFirst then .lt else .gt := by
  cases y with
  | null => exact absurd rfl hy
  | _ => rfl

theorem nullCmp_right (hx : x ≠ .null) (base : Ordering) (descending nullsFirst : Bool) :
    nullCmp x .null base descending nullsFirst = if nullsFirst then .gt else .lt := by
  cases x with
  | null => exact absurd rfl hx
  | _ => rfl

theorem presentTag_ne (o : KeyOrder) : o.presentTag ≠ o.nullTag := by
  obtain ⟨desc, nullsFirst⟩ := o
  cases desc <;> cases nullsFirst <;> decide

theorem tags_order (o : KeyOrder) :
    if o.nullsFirst then o.nullTag < o.presentTag else o.presentTag < o.nullTag := by
  obtain ⟨desc, nullsFirst⟩ := o
  cases desc <;> cases nullsFirst <;> decide

/-- A slot is read through its mask. -/
theorem presentSlot_eq (o : KeyOrder) (body : Bytes) :
    o.presentSlot body = o.presentTag :: masked o.mask body := by
  obtain ⟨desc, nullsFirst⟩ := o
  cases desc with
  | false =>
    have hmask : masked 0x00 body = body := by simp [masked]
    simp [KeyOrder.presentSlot, KeyOrder.mask, hmask]
  | true =>
    have hmask : masked 0xFF body = body.map (~~~ ·) :=
      List.map_congr_left fun b _ => UInt8.xor_neg_one
    simp [KeyOrder.presentSlot, KeyOrder.mask, hmask]

/-- Slots code the order of their values. -/
theorem codes_slot (o : KeyOrder) {base : Ordering} {s t : Option Bytes}
    (hx : s = none ↔ x = .null) (hy : t = none ↔ y = .null)
    (h : ∀ k l, s = some k → t = some l → Codes base k l) :
    Codes (nullCmp x y base o.desc o.nullsFirst) (o.slot s) (o.slot t) := by
  have htags := tags_order o
  cases s with
  | none =>
    rw [hx.mp rfl]
    cases t with
    | none =>
      rw [hy.mp rfl]
      exact codes_self _
    | some l =>
      rw [nullCmp_left fun hnull => nomatch hy.mpr hnull]
      split at htags
      case isTrue hfirst =>
        rw [if_pos hfirst]
        exact codes_lt htags _ _
      case isFalse hfirst =>
        rw [if_neg hfirst]
        exact codes_gt htags _ _
  | some k =>
    have hx : x ≠ .null := fun hnull => nomatch hx.mpr hnull
    cases t with
    | none =>
      rw [hy.mp rfl, nullCmp_right hx]
      split at htags
      case isTrue hfirst =>
        rw [if_pos hfirst]
        exact codes_gt htags _ _
      case isFalse hfirst =>
        rw [if_neg hfirst]
        exact codes_lt htags _ _
    | some l =>
      have hy : y ≠ .null := fun hnull => nomatch hy.mpr hnull
      have hkl := h k l rfl rfl
      rw [nullCmp_present hx hy]
      simp only [KeyOrder.slot, KeyOrder.presentSlot]
      split
      · exact (hkl.map_anti complement_strictAnti).cons _
      · exact hkl.cons _

section

variable (colTypes : List ColType) (colls : List (Option Table))

/-- The value of an element. -/
def valueOf (row : List Value) : ResolvedKey → Value
  | .column ci => row.getD ci .null
  | .expr eval _ _ => (eval row).toOption.getD .null

/-- The type of an element. -/
def typeOf : ResolvedKey → Option ColType
  | .column ci => colTypes[ci]?
  | .expr _ ty _ => some ty

/-- The collation of an element. -/
def collOf : ResolvedKey → Option Table
  | .column ci => colls[ci]?.join
  | .expr _ _ coll => coll

/-- A row holds a value of its type for every element, or NULL. -/
def ElementsTyped (elements : List (ResolvedKey × KeyOrder)) (row : List Value) : Prop :=
  ∀ e ∈ elements, ∀ ct, typeOf colTypes e.1 = some ct → valueOf row e.1 ≠ .null →
    WellFormed ct (valueOf row e.1)

/-- The order of two rows by an element. -/
def elementOrder (e : ResolvedKey × KeyOrder) (a b : List Value) : Ordering :=
  nullCmp (valueOf a e.1) (valueOf b e.1)
    (typedCmp (collOf colls e.1) (valueOf a e.1) (valueOf b e.1)) e.2.desc e.2.nullsFirst

/-- The order of two rows by the elements in turn. -/
def rowOrder (a b : List Value) : List (ResolvedKey × KeyOrder) → Ordering
  | [] => .eq
  | e :: elements => (elementOrder colls e a b).then (rowOrder a b elements)

variable {colTypes colls}

theorem encodeKeyCt_of_typed {ty : ColType} {v : Value} {coll : Option Collation} (hv : v ≠ .null)
    {key : Bytes} (h : encodeTypedKey ty v coll = .ok key) : encodeKeyCt ty v coll = .ok key := by
  cases v with
  | null => exact absurd rfl hv
  | range r =>
    cases ty <;> try cases h
    rename_i elem
    cases elem <;> try cases h
    exact h
  | array dims lbounds elements =>
    cases ty <;> try cases h
    rename_i elem
    cases elem <;> try cases h
    exact h
  | _ =>
    cases ty with
    | scalar s => exact h
    | _ => cases h

variable {body : Option Bytes} {key : ResolvedKey}

/-- The body of a slot is the key of the element's value, and NULL has none. -/
theorem indexSlotKey_ok {row : List Value} (h : indexSlotKey colTypes colls row key = .ok body) :
    (body = none ↔ valueOf row key = .null) ∧ ∀ k, body = some k →
      ∃ ct, typeOf colTypes key = some ct ∧
        encodeKeyCt ct (valueOf row key) ((collOf colls key).map Table.collation) = .ok k := by
  cases key with
  | column ci =>
    rw [indexSlotKey] at h
    have hvalue : ∀ v, row[ci]? = some v → valueOf row (.column ci) = v := by
      intro v hv
      rw [valueOf, List.getD_eq_getElem?_getD, hv]
      rfl
    split at h
    · cases h
    · rename_i hv
      cases h
      exact ⟨iff_of_true rfl (hvalue _ hv), fun _ h => by cases h⟩
    · rename_i v hnull hv
      split at h
      · rename_i ct coll hct hcoll
        obtain ⟨k, hk, hbody⟩ := Results.bind_eq_ok.mp h
        cases hbody
        have hne : v ≠ .null := fun heq => hnull heq
        rw [hvalue v hv]
        refine ⟨iff_of_false (Option.some_ne_none _) hne, fun l hl => ?_⟩
        cases hl
        refine ⟨ct, hct, ?_⟩
        rw [collOf, hcoll]
        exact hk
      · cases h
  | expr eval ty coll =>
    obtain ⟨v, hv, h⟩ := Results.bind_eq_ok.mp h
    have hvalue : valueOf row (.expr eval ty coll) = v := by
      rw [valueOf, hv]
      rfl
    rw [hvalue]
    split at h
    · cases h
      exact ⟨iff_of_true rfl rfl, fun _ h => by cases h⟩
    · rename_i hnull
      obtain ⟨k, hk, hbody⟩ := Results.bind_eq_ok.mp h
      cases hbody
      have hne : v ≠ .null := fun heq => hnull heq
      refine ⟨iff_of_false (Option.some_ne_none _) hne, fun l hl => ?_⟩
      cases hl
      exact ⟨ty, rfl, encodeKeyCt_of_typed hne hk⟩

variable {elements : List (ResolvedKey × KeyOrder)} {a b : List Value}

variable {s : Bytes}

/-- The slots of rows code the order of the rows. -/
theorem codes_slots (ha : ElementsTyped colTypes elements a) (hb : ElementsTyped colTypes elements b)
    {t : Bytes} (hs : slots colTypes colls a elements = .ok s)
    (ht : slots colTypes colls b elements = .ok t) : Codes (rowOrder colls a b elements) s t := by
  induction elements generalizing s t with
  | nil =>
    cases hs
    cases ht
    exact codes_self _
  | cons e elements ih =>
    obtain ⟨bodyA, hbodyA, hrestA⟩ := Results.bind_eq_ok.mp hs
    obtain ⟨bodyB, hbodyB, hrestB⟩ := Results.bind_eq_ok.mp ht
    obtain ⟨s', hs', heqA⟩ := Results.bind_eq_ok.mp hrestA
    obtain ⟨t', ht', heqB⟩ := Results.bind_eq_ok.mp hrestB
    cases heqA
    cases heqB
    obtain ⟨hnullA, hkeyA⟩ := indexSlotKey_ok hbodyA
    obtain ⟨hnullB, hkeyB⟩ := indexSlotKey_ok hbodyB
    have hfirst : Codes (elementOrder colls e a b) (e.2.slot bodyA) (e.2.slot bodyB) := by
      refine codes_slot e.2 hnullA hnullB fun k l hk hl => ?_
      obtain ⟨ct, hct, hka⟩ := hkeyA k hk
      obtain ⟨ct', hct', hlb⟩ := hkeyB l hl
      cases hct.symm.trans hct'
      have hneA : valueOf a e.1 ≠ .null := fun h => by
        rw [hnullA.mpr h] at hk
        cases hk
      have hneB : valueOf b e.1 ≠ .null := fun h => by
        rw [hnullB.mpr h] at hl
        cases hl
      exact codes_typed ct (ha e List.mem_cons_self ct hct hneA)
        (hb e List.mem_cons_self ct hct hneB) hka hlb
    exact hfirst.append fun _ => ih (fun e he => ha e (List.mem_cons_of_mem _ he))
      (fun e he => hb e (List.mem_cons_of_mem _ he)) hs' ht'

/-- A row has a uniqueness prefix when it holds no NULL, and then it is its slots. -/
theorem presentSlots_iff (hs : slots colTypes colls a elements = .ok s) (p : Bytes) :
    presentSlots colTypes colls a elements = .ok (some p) ↔
      (∀ e ∈ elements, valueOf a e.1 ≠ .null) ∧ p = s := by
  have hall : ((∀ e ∈ elements, valueOf a e.1 ≠ .null) →
      presentSlots colTypes colls a elements = .ok (some s)) ∧
      ((∃ e ∈ elements, valueOf a e.1 = .null) →
        presentSlots colTypes colls a elements = .ok none) := by
    induction elements generalizing s with
    | nil =>
      cases hs
      exact ⟨fun _ => rfl, fun h => absurd h (by simp)⟩
    | cons e elements ih =>
      obtain ⟨body, hbody, hrest⟩ := Results.bind_eq_ok.mp hs
      obtain ⟨s', hs', heq⟩ := Results.bind_eq_ok.mp hrest
      cases heq
      have hnull := (indexSlotKey_ok hbody).1
      obtain ⟨hpresent, hmissing⟩ := ih hs'
      rw [presentSlots, hbody]
      cases body with
      | none =>
        have he := hnull.mp rfl
        exact ⟨fun h => absurd he (h e List.mem_cons_self), fun _ => rfl⟩
      | some k =>
        have he : valueOf a e.1 ≠ .null := fun h => nomatch hnull.mpr h
        constructor
        · intro h
          simp only [bind, Except.bind, hpresent fun e he => h e (List.mem_cons_of_mem _ he)]
          rfl
        · rintro ⟨e', hmem, hnull'⟩
          cases List.mem_cons.mp hmem with
          | inl h => exact absurd (h ▸ hnull') he
          | inr h =>
            simp only [bind, Except.bind, hmissing ⟨e', h, hnull'⟩]
            rfl
  by_cases h : ∀ e ∈ elements, valueOf a e.1 ≠ .null
  · rw [hall.1 h]
    constructor
    · intro heq
      cases heq
      exact ⟨h, rfl⟩
    · intro heq
      rw [heq.2]
  · have hex : ∃ e ∈ elements, valueOf a e.1 = .null := by
      simp only [not_forall, not_not] at h
      obtain ⟨e, he, hnull⟩ := h
      exact ⟨e, he, hnull⟩
    rw [hall.2 hex]
    constructor
    · intro heq
      cases heq
    · exact fun heq => absurd heq.1 h

/-- Rows without NULL compare equal when their values do, in turn. -/
theorem rowOrder_eq_iff (ha : ∀ e ∈ elements, valueOf a e.1 ≠ .null)
    (hb : ∀ e ∈ elements, valueOf b e.1 ≠ .null) : rowOrder colls a b elements = .eq ↔
      ∀ e ∈ elements, valueCmp (valueOf a e.1) (valueOf b e.1) = .eq := by
  induction elements with
  | nil => simp [rowOrder]
  | cons e elements ih =>
    have hfirst : elementOrder colls e a b = .eq ↔
        valueCmp (valueOf a e.1) (valueOf b e.1) = .eq := by
      rw [elementOrder, nullCmp_present (ha e List.mem_cons_self) (hb e List.mem_cons_self),
        ← typedCmp_eq_iff (collOf colls e.1)]
      split
      · exact Ordering.swap_eq_eq
      · exact Iff.rfl
    rw [rowOrder, Ordering.then_eq_eq, hfirst,
      ih (fun e he => ha e (List.mem_cons_of_mem _ he)) fun e he =>
        hb e (List.mem_cons_of_mem _ he), List.forall_mem_cons]

/-- The bound of a prefix holds the keys that extend it. -/
theorem uniqueProbeBound_contains (p key : Bytes) :
    (uniqueProbeBound p).contains key ↔ p <+: key := by
  simp only [KeyBound.contains, uniqueProbeBound, Option.all_some, if_true, Bool.false_eq_true,
    if_false, Bool.and_eq_true, decide_eq_true_eq]
  constructor
  · intro h
    exact (prefixSuccessor_iff h.1).mp h.2
  · intro h
    have hle : p ≤ key := by
      obtain ⟨s, rfl⟩ := h
      exact PrefixOrder.le_append p s
    exact ⟨hle, (prefixSuccessor_iff hle).mpr h⟩

/-- A slot is skipped to its end, wherever it stands. -/
theorem slotLen_slot {kind : KeySlotKind} (o : KeyOrder)
    (h : ∀ k, body = some k → Delimits (fun m body => kind.bodyLen body m) k) (front rest : Bytes) :
    slotLen kind o (front ++ o.slot body ++ rest) front.length = some (o.slot body).length := by
  rw [slotLen, List.append_assoc, List.drop_left]
  cases body with
  | none => simp [KeyOrder.slot]
  | some k =>
    rw [KeyOrder.slot, presentSlot_eq, List.cons_append]
    simp only [if_neg (presentTag_ne o), h k rfl o.mask rest, Option.map_some, List.length_cons,
      length_masked]
    congr 1
    omega

/-- The kind of slot of an element. -/
def kindOf (colTypes : List ColType) (colls : List (Option Table)) (key : ResolvedKey) :
    Option KeySlotKind :=
  match typeOf colTypes key with
  | some (.scalar s) => KeySlotKind.forScalar s (collOf colls key).isSome
  | _ => none

theorem delimits_kindOf {kind : KeySlotKind} (hkind : kindOf colTypes colls key = some kind)
    (ha : ∀ ct, typeOf colTypes key = some ct → valueOf a key ≠ .null → WellFormed ct (valueOf a key))
    (h : indexSlotKey colTypes colls a key = .ok body) :
    ∀ k, body = some k → Delimits (fun m body => kind.bodyLen body m) k := by
  intro k hk
  obtain ⟨hnull, hkey⟩ := indexSlotKey_ok h
  have hne : valueOf a key ≠ .null := fun h => by
    rw [hnull.mpr h] at hk
    cases hk
  obtain ⟨ct, hct, hencode⟩ := hkey k hk
  rw [kindOf, hct] at hkind
  cases ct with
  | scalar s =>
    rw [encodeKeyCt_scalar hne] at hencode
    obtain ⟨kind', hkind', hlen⟩ := delimits_scalar (ha _ hct hne) hencode
    cases hkind.symm.trans hkind'
    exact hlen
  | _ => cases hkind

/-- What follows the slots is the storage key. -/
theorem indexEntryRowKey_slots (ha : ElementsTyped colTypes elements a)
    (hs : slots colTypes colls a elements = .ok s) {kinds : List (KeySlotKind × KeyOrder)}
    (hkinds : List.Forall₂ (fun e k => kindOf colTypes colls e.1 = some k.1 ∧ k.2 = e.2) elements
      kinds) (front storageKey : Bytes) :
    indexEntryRowKey (front ++ s ++ storageKey) front.length kinds = storageKey := by
  induction hkinds generalizing s front with
  | nil =>
    cases hs
    rw [indexEntryRowKey, List.append_nil, List.drop_left]
  | @cons e k elements kinds hk _ ih =>
    obtain ⟨body, hbody, hrest⟩ := Results.bind_eq_ok.mp hs
    obtain ⟨s', hs', heq⟩ := Results.bind_eq_ok.mp hrest
    cases heq
    obtain ⟨kind, o⟩ := k
    obtain ⟨hkind, rfl⟩ := hk
    have hlen := slotLen_slot e.2 (delimits_kindOf hkind (ha e List.mem_cons_self) hbody) front
      (s' ++ storageKey)
    have hsplit : front ++ (e.2.slot body ++ s') ++ storageKey =
        front ++ e.2.slot body ++ (s' ++ storageKey) := by simp only [List.append_assoc]
    rw [hsplit, indexEntryRowKey, hlen]
    have hback := ih (fun e he => ha e (List.mem_cons_of_mem _ he)) hs' (front ++ e.2.slot body)
    rw [List.length_append, List.append_assoc _ s'] at hback
    exact hback

theorem slots_append {front back : List (ResolvedKey × KeyOrder)}
    (h : slots colTypes colls a (front ++ back) = .ok s) :
    ∃ p q, slots colTypes colls a front = .ok p ∧ slots colTypes colls a back = .ok q ∧
      s = p ++ q := by
  induction front generalizing s with
  | nil => exact ⟨[], s, rfl, h, rfl⟩
  | cons e front ih =>
    obtain ⟨body, hbody, hrest⟩ := Results.bind_eq_ok.mp h
    obtain ⟨s', hs', heq⟩ := Results.bind_eq_ok.mp hrest
    cases heq
    obtain ⟨p, q, hp, hq, rfl⟩ := ih hs'
    refine ⟨e.2.slot body ++ p, q, ?_, hq, (List.append_assoc ..).symm⟩
    rw [slots, hbody]
    simp only [bind, Except.bind, hp]
    rfl

/-- A uniqueness prefix is the slots of a row of the index that holds no NULL. -/
theorem indexPrefixKey_iff {index : ResolvedIndex}
    (hs : slots colTypes colls a (index.keys.zip index.orders) = .ok s) (p : Bytes) :
    indexPrefixKey colTypes colls index a = .ok (some p) ↔
      indexRowQualifies index a = .ok true ∧
        (∀ e ∈ index.keys.zip index.orders, valueOf a e.1 ≠ .null) ∧ p = s := by
  rw [indexPrefixKey]
  cases hq : indexRowQualifies index a with
  | error e => simp [bind, Except.bind]
  | ok b =>
    cases b with
    | false => simp [bind, Except.bind, pure, Except.pure]
    | true => simpa [bind, Except.bind] using presentSlots_iff hs p

/-- Entries of an ordered index are in the order of their rows, by each element in its direction and
    with NULL on its side, and then by the storage keys. Two rows of the index share a uniqueness
    prefix when they hold no NULL and equal values; the bound of a prefix holds the entries whose
    slots it is; and the lengths read off an entry are those of its slots, so that what is left
    behind them is the storage key. -/
theorem index_entries (index : ResolvedIndex) (storageKeyA storageKeyB : Bytes)
    (ha : ElementsTyped colTypes (index.keys.zip index.orders) a)
    (hb : ElementsTyped colTypes (index.keys.zip index.orders) b) {entryA entryB : Bytes}
    (hA : indexEntryKey colTypes colls index storageKeyA a = .ok entryA)
    (hB : indexEntryKey colTypes colls index storageKeyB b = .ok entryB) :
    lexCompare entryA entryB =
        (rowOrder colls a b (index.keys.zip index.orders)).then (lexCompare storageKeyA storageKeyB) ∧
      ((∃ p, indexPrefixKey colTypes colls index a = .ok (some p) ∧
          indexPrefixKey colTypes colls index b = .ok (some p)) ↔
        indexRowQualifies index a = .ok true ∧ indexRowQualifies index b = .ok true ∧
          ∀ e ∈ index.keys.zip index.orders, valueOf a e.1 ≠ .null ∧ valueOf b e.1 ≠ .null ∧
            valueCmp (valueOf a e.1) (valueOf b e.1) = .eq) ∧
      (∀ p, indexPrefixKey colTypes colls index a = .ok (some p) →
        ((uniqueProbeBound p).contains entryB ↔
          slots colTypes colls b (index.keys.zip index.orders) = .ok p)) ∧
      (∀ e ∈ index.keys.zip index.orders, ∀ body, indexSlotKey colTypes colls a e.1 = .ok body →
        (∀ ct k rest, typeOf colTypes e.1 = some ct → body = some k →
          keyBodyLen ct (collOf colls e.1).isSome (((e.2.slot body).tail) ++ rest) e.2.mask =
            some (e.2.slot body).tail.length) ∧
        ∀ kind front rest, kindOf colTypes colls e.1 = some kind →
          slotLen kind e.2 (front ++ e.2.slot body ++ rest) front.length =
            some (e.2.slot body).length) ∧
      ∀ front back, index.keys.zip index.orders = front ++ back → ∀ kinds,
        List.Forall₂ (fun e k => kindOf colTypes colls e.1 = some k.1 ∧ k.2 = e.2) back kinds →
        ∃ p, slots colTypes colls a front = .ok p ∧
          indexEntryRowKey entryA p.length kinds = storageKeyA := by
  obtain ⟨s, hs, heq⟩ := Results.bind_eq_ok.mp hA
  cases heq
  obtain ⟨t, ht, heq⟩ := Results.bind_eq_ok.mp hB
  cases heq
  have hcodes := codes_slots ha hb hs ht
  refine ⟨hcodes.lexCompare_append _ _, ?_, fun p hp => ?_, fun e he body hbody => ⟨?_, ?_⟩, ?_⟩
  · simp only [indexPrefixKey_iff hs, indexPrefixKey_iff ht]
    constructor
    · rintro ⟨p, ⟨hqa, hna, hps⟩, hqb, hnb, hpt⟩
      have hequal := (rowOrder_eq_iff hna hnb).mp (hcodes.eq_iff.mp (hps.symm.trans hpt))
      exact ⟨hqa, hqb, fun e he => ⟨hna e he, hnb e he, hequal e he⟩⟩
    · rintro ⟨hqa, hqb, hall⟩
      have hna := fun e he => (hall e he).1
      have hnb := fun e he => (hall e he).2.1
      have hst := hcodes.eq_iff.mpr ((rowOrder_eq_iff hna hnb).mpr fun e he => (hall e he).2.2)
      exact ⟨s, ⟨hqa, hna, rfl⟩, hqb, hnb, hst⟩
  · obtain ⟨-, -, rfl⟩ := (indexPrefixKey_iff hs p).mp hp
    rw [uniqueProbeBound_contains, ht, Except.ok.injEq]
    constructor
    · intro hprefix
      refine (hcodes.eq_of_prefix ?_).symm
      rcases le_total p.length t.length with hle | hle
      · exact .inl (List.prefix_of_prefix_length_le hprefix (List.prefix_append t storageKeyB) hle)
      · exact .inr (List.prefix_of_prefix_length_le (List.prefix_append t storageKeyB) hprefix hle)
    · rintro rfl
      exact List.prefix_append _ _
  · intro ct k rest hct hk
    obtain ⟨hnull, hkey⟩ := indexSlotKey_ok hbody
    have hne : valueOf a e.1 ≠ .null := fun h => by
      rw [hnull.mpr h] at hk
      cases hk
    obtain ⟨ct', hct', hencode⟩ := hkey k hk
    cases hct.symm.trans hct'
    have hlen := delimits_typed ct (ha e he ct hct hne) hencode e.2.mask rest
    rw [hk, KeyOrder.slot, presentSlot_eq, List.tail_cons, length_masked]
    exact hlen
  · intro kind front rest hkind
    exact slotLen_slot e.2 (delimits_kindOf hkind (ha e he) hbody) front rest
  · intro front back hsplit kinds hkinds
    rw [hsplit] at hs
    obtain ⟨p, q, hp, hq, rfl⟩ := slots_append hs
    refine ⟨p, hp, indexEntryRowKey_slots (fun e he => ha e ?_) hq hkinds p storageKeyA⟩
    rw [hsplit]
    exact List.mem_append_right _ he

end

/-- A text in descending order before a boolean with NULL first. -/
theorem index_entries_desc :
    lexCompare ([0xFE, 0x9E, 0xFF, 0xFE, 0x00, 7] : Bytes)
      [0xFE, 0x9D, 0xFF, 0x00, 0xFF, 0xFE, 0x01, 0x01, 8] = .gt := by
  have htyped : ∀ {x y : Value}, Holds .text x → (y = .null ∨ Holds .bool y) →
      ElementsTyped [.scalar .text, .scalar .bool]
        [(.column 0, ⟨true, false⟩), (.column 1, ⟨false, true⟩)] [x, y] := by
    intro x y hx hy e he ct hct hne
    simp only [List.mem_cons, List.not_mem_nil, or_false] at he
    rcases he with rfl | rfl
    · cases hct
      exact hx
    · cases hct
      exact hy.resolve_left hne
  exact (@index_entries [.scalar .text, .scalar .bool] [none, none]
    [.text [0x61], .null] [.text [0x62, 0x00], .bool true]
    ⟨[.column 0, .column 1], [⟨true, false⟩, ⟨false, true⟩], none⟩ [7] [8]
    (htyped (.text _) (.inl rfl)) (htyped (.text _) (.inr (.bool _))) _ _ rfl rfl).1

end Jed.Key
