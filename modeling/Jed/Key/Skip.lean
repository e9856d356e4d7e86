import Jed.Key.Collated

/-!
# The lengths of keys

How far a key reaches into the bytes that follow (`access_encode.rs:214-369`). A key of a `DESC`
element is written inverted and read through a mask.
-/

namespace Jed.Key

open Positional Ranges

/-- `KeySlotKind`. -/
inductive KeySlotKind where
  | fixed (w : Nat)
  | terminated
  | decimal
  | collated
  deriving DecidableEq

/-- The kind `KeySlot::for_scalar` finds (`access_encode.rs:232-243`). -/
def KeySlotKind.forScalar (ty : ScalarType) (collated : Bool) : Option KeySlotKind :=
  match ty with
  | .text => some (if collated then .collated else .terminated)
  | .bytea => some .terminated
  | .decimal => some .decimal
  | .interval => some (.fixed 16)
  | .json | .jsonb | .jsonPath => none
  | ty => some (.fixed (widthBytes ty))

/-- `terminated_len`, every byte read as `b ^ m`. -/
def terminatedLen (m : UInt8) : Bytes → Option Nat
  | [] => none
  | b :: body =>
    if b ^^^ m = 0x00 then
      match body with
      | [] => none
      | c :: body => if c ^^^ m = 0x01 then some 2 else (terminatedLen m body).map (2 + ·)
    else (terminatedLen m body).map (1 + ·)

/-- The weights of a collated key, up to the `seps`th separator. -/
def levelsLen (m : UInt8) : (seps : Nat) → Bytes → Option Nat
  | 0, _ => some 0
  | seps + 1, a :: b :: body =>
    (levelsLen m (if a ^^^ m = 0 ∧ b ^^^ m = 0 then seps else seps + 1) body).map (2 + ·)
  | _ + 1, _ => none

/-- `KeySlotKind::body_len`. -/
def KeySlotKind.bodyLen (kind : KeySlotKind) (body : Bytes) (m : UInt8) : Option Nat :=
  match kind with
  | .fixed w => if body.length < w then none else some w
  | .terminated => terminatedLen m body
  | .decimal =>
    match body with
    | [] => none
    | b :: _ =>
      let cls := b ^^^ m
      if cls = 0x04 then some 1
      else if cls = 0x03 ∨ cls = 0x05 then
        let term : UInt8 := if cls = 0x05 then 0x00 else 0xFF
        if body.length < 5 then none
        else ((body.drop 5).findIdx? (· ^^^ m == term)).map (5 + · + 1)
      else none
  | .collated => do
    let i ← levelsLen m 3 body
    let rest ← terminatedLen m (body.drop i)
    return i + rest

/-- A bound of a range, `infinite` the marker of an infinite one. -/
def boundLen (elemLen : Bytes → Option Nat) (m infinite : UInt8) : Bytes → Option Nat
  | [] => none
  | b :: body =>
    if b ^^^ m = infinite then some 1
    else if b ^^^ m = 0x01 then (elemLen body).map (1 + · + 1)
    else none

/-- The `Range` arm of `key_body_len`. -/
def rangeLen (elemLen : Bytes → Option Nat) (m : UInt8) : Bytes → Option Nat
  | [] => none
  | b :: body =>
    if b ^^^ m = 0x00 then some 1
    else if b ^^^ m ≠ 0x01 then none
    else do
      let lower ← boundLen elemLen m 0x00 body
      let upper ← boundLen elemLen m 0x02 (body.drop lower)
      return 1 + lower + upper

/-- The `Array` arm of `key_body_len`, `elements` turns of its loop at most. -/
def arrayLen (elemLen : Bytes → Option Nat) (m : UInt8) : (elements : Nat) → Bytes → Option Nat
  | 0, _ => none
  | _ + 1, [] => none
  | elements + 1, b :: body =>
    if b ^^^ m = 0x01 then do
      let n ← elemLen body
      let rest ← arrayLen elemLen m elements (body.drop n)
      return 1 + n + rest
    else if b ^^^ m = 0x02 then (arrayLen elemLen m elements body).map (1 + ·)
    else if b ^^^ m = 0x00 then
      match body with
      | [] => none
      | ndim :: shape =>
        let len := (ndim ^^^ m).toNat * 8
        if shape.length < len then none else some (2 + len)
    else none

mutual

/-- `key_body_len`. Every turn of the loop over an array's elements reads a byte. -/
def keyBodyLen (ct : ColType) (collated : Bool) (body : Bytes) (m : UInt8) : Option Nat :=
  match ct with
  | .scalar s => do
    let kind ← KeySlotKind.forScalar s collated
    kind.bodyLen body m
  | .range elem => rangeLen (fun body => keyBodyLen elem false body m) m body
  | .array elem => arrayLen (fun body => keyBodyLen elem collated body m) m (body.length + 1) body
  | .composite fields => fieldsLen fields body m

/-- The `Composite` arm of `key_body_len`. -/
def fieldsLen (fields : List ColType) (body : Bytes) (m : UInt8) : Option Nat :=
  match fields with
  | [] => some 0
  | f :: fields =>
    match body with
    | [] => none
    | b :: body =>
      if b ^^^ m = 0x00 then do
        let n ← keyBodyLen f false body m
        let rest ← fieldsLen fields (body.drop n) m
        return 1 + n + rest
      else if b ^^^ m = 0x01 then (fieldsLen fields body m).map (1 + ·)
      else none

end

attribute [grind =] terminatedLen levelsLen arrayLen keyBodyLen fieldsLen

/-- A key as it is written under a mask. -/
def masked (m : UInt8) (key : Bytes) : Bytes := key.map (· ^^^ m)

@[simp] theorem masked_nil (m : UInt8) : masked m [] = [] := rfl

@[simp] theorem masked_cons (m b : UInt8) (key : Bytes) :
    masked m (b :: key) = (b ^^^ m) :: masked m key := rfl

@[simp] theorem masked_append (m : UInt8) (key key' : Bytes) :
    masked m (key ++ key') = masked m key ++ masked m key' := List.map_append

@[simp] theorem length_masked (m : UInt8) (key : Bytes) : (masked m key).length = key.length :=
  List.length_map _

@[simp] theorem xor_xor_mask (b m : UInt8) : b ^^^ m ^^^ m = b := by
  rw [UInt8.xor_assoc, UInt8.xor_self, UInt8.xor_zero]

/-- The length read off a key, whatever its mask and whatever follows it. -/
def Delimits (len : UInt8 → Bytes → Option Nat) (key : Bytes) : Prop :=
  ∀ m rest, len m (masked m key ++ rest) = some key.length

theorem delimits_fixed {w : Nat} {key : Bytes} (h : key.length = w) :
    Delimits (fun m body => (KeySlotKind.fixed w).bodyLen body m) key := by
  intro m rest
  simp [KeySlotKind.bodyLen, h]

theorem terminatedLen_cons {m b : UInt8} (h : b ^^^ m ≠ 0x00) (body : Bytes) :
    terminatedLen m (b :: body) = (terminatedLen m body).map (1 + ·) := by
  cases body <;> simp [terminatedLen, h]

theorem terminatedLen_escape {m c : UInt8} (h : c ^^^ m ≠ 0x01) (body : Bytes) :
    terminatedLen m ((0x00 ^^^ m) :: c :: body) = (terminatedLen m body).map (2 + ·) := by
  rw [terminatedLen, if_pos (xor_xor_mask 0x00 m), if_neg h]

theorem delimits_terminated (s : Bytes) : Delimits terminatedLen (encodeTerminated s) := by
  intro m rest
  induction s with
  | nil => simp [encodeTerminated, terminatedLen]
  | cons b s ih =>
    by_cases hb : b = 0x00
    · have hne : (0xFF : UInt8) ^^^ m ^^^ m ≠ 0x01 := by
        rw [xor_xor_mask]
        decide
      rw [hb, encodeTerminated, if_pos rfl, masked_cons, masked_cons, List.cons_append,
        List.cons_append, terminatedLen_escape hne, ih]
      simp only [Option.map_some, List.length_cons]
      congr 1
      omega
    · have hne : b ^^^ m ^^^ m ≠ 0x00 := by rwa [xor_xor_mask]
      rw [encodeTerminated, if_neg hb, masked_cons, List.cons_append, terminatedLen_cons hne, ih]
      simp only [Option.map_some, List.length_cons]
      congr 1
      omega

theorem findIdx?_term {m term : UInt8} {key : Bytes} (h : ∀ b ∈ key, b ≠ term) (rest : Bytes) :
    (masked m key ++ (term ^^^ m) :: rest).findIdx? (· ^^^ m == term) = some key.length := by
  induction key with
  | nil => simp [List.findIdx?_cons]
  | cons b key ih =>
    have hb := h b List.mem_cons_self
    simp [List.findIdx?_cons, hb, ih fun c hc => h c (List.mem_cons_of_mem _ hc)]

theorem length_beBytes (w n : Nat) : (beBytes w n).length = w := by
  rw [beBytes, List.length_map, digits_length]

theorem delimits_decimal {cls term : UInt8} (hcls : cls = 0x03 ∧ term = 0xFF ∨ cls = 0x05 ∧ term = 0x00)
    {exponent pairs : Bytes} (hexp : exponent.length = 4) (hpairs : ∀ b ∈ pairs, b ≠ term) :
    Delimits (fun m body => KeySlotKind.decimal.bodyLen body m)
      (cls :: (exponent ++ pairs ++ [term])) := by
  intro m rest
  have hdrop : ((cls ^^^ m) :: (masked m (exponent ++ pairs ++ [term]) ++ rest)).drop 5 =
      masked m pairs ++ (term ^^^ m) :: rest := by
    rw [List.drop_succ_cons, masked_append, masked_append, List.append_assoc, List.append_assoc,
      List.drop_left' (by rw [length_masked, hexp])]
    rfl
  have hlen : ¬((cls ^^^ m) :: (masked m (exponent ++ pairs ++ [term]) ++ rest)).length < 5 := by
    simp only [List.length_cons, List.length_append, length_masked, hexp]
    omega
  have hterm : (if cls = 0x05 then 0x00 else 0xFF) = term := by
    rcases hcls with ⟨rfl, rfl⟩ | ⟨rfl, rfl⟩ <;> rfl
  have hne : cls ≠ 0x04 := by rcases hcls with ⟨rfl, rfl⟩ | ⟨rfl, rfl⟩ <;> decide
  have hpos : cls = 0x03 ∨ cls = 0x05 := hcls.imp And.left And.left
  simp only [masked_cons, List.cons_append, KeySlotKind.bodyLen, xor_xor_mask]
  rw [if_neg hne, if_pos hpos, if_neg hlen, hterm, hdrop, findIdx?_term hpairs]
  simp only [Option.map_some, List.length_cons, List.length_append, hexp, List.length_nil]
  congr 1
  omega

theorem delimits_encodeDecimal (d : Decimal) :
    Delimits (fun m body => KeySlotKind.decimal.bodyLen body m) (encodeDecimal d) := by
  have hpairs (hd : d.coeff ≠ 0) :
      ∀ b ∈ (mantissa d).map fun v => UInt8.ofNat (v + 1), b ≠ 0x00 := by
    intro b hb h
    obtain ⟨v, hv, rfl⟩ := List.mem_map.mp hb
    have hlt := mantissa_lt hd v hv
    have hzero : (v + 1) % 256 = 0 := congrArg UInt8.toNat h
    omega
  have hexp : (encodeInt .int32 (exponent d)).length = 4 := length_beBytes _ _
  rw [encodeDecimal]
  split
  · intro m rest
    simp [KeySlotKind.bodyLen]
  · rename_i hzero
    have hd : d.coeff ≠ 0 := fun h => hzero (by simp [Decimal.isZero, h])
    split
    · have hbody : (decimalBody d).map (~~~ ·) =
          (encodeInt .int32 (exponent d)).map (~~~ ·) ++
            ((mantissa d).map fun v => UInt8.ofNat (v + 1)).map (~~~ ·) ++ [0xFF] := by
        rw [decimalBody_eq, List.map_append, List.map_append, List.append_assoc]
        rfl
      rw [hbody]
      refine delimits_decimal (.inl ⟨rfl, rfl⟩) (by rw [List.length_map, hexp]) ?_
      intro b hb h
      obtain ⟨c, hc, rfl⟩ := List.mem_map.mp hb
      have hcompl : ~~~(~~~c) = ~~~(0xFF : UInt8) := congrArg (~~~ ·) h
      rw [UInt8.not_not] at hcompl
      exact hpairs hd c hc hcompl
    · rw [decimalBody_eq, ← List.append_assoc]
      exact delimits_decimal (.inr ⟨rfl, rfl⟩) hexp (hpairs hd)

theorem beBytes_two (w : ℕ) : ∃ a b, beBytes 2 w = [a, b] := by
  have h := length_beBytes 2 w
  cases hw : beBytes 2 w with
  | nil => simp [hw] at h
  | cons a l =>
    cases l with
    | nil => simp [hw] at h
    | cons b l =>
      cases l with
      | nil => exact ⟨a, b, rfl⟩
      | cons c l => simp [hw] at h

theorem weight_ne {w : Fin 65536} (hw : w ≠ 0) {a b : UInt8} (h : beBytes 2 (w : ℕ) = [a, b]) :
    ¬(a = 0 ∧ b = 0) := by
  rintro ⟨rfl, rfl⟩
  have hdiv := diverges_weight 0 w (Fin.pos_iff_ne_zero.mpr hw)
  rw [h] at hdiv
  exact KeyCodes.Diverges.irrefl _ hdiv

/-- A level is read up to its separator. -/
theorem levelsLen_level (m : UInt8) (seps : ℕ) {ws : List (Fin 65536)} (hws : ∀ w ∈ ws, w ≠ 0)
    (rest : Bytes) :
    levelsLen m (seps + 1)
        (masked m ((ws.flatMap fun w : Fin 65536 => beBytes 2 w) ++ [0, 0]) ++ rest) =
      (levelsLen m seps rest).map
        (((ws.flatMap fun w : Fin 65536 => beBytes 2 w) ++ [0, 0]).length + ·) := by
  induction ws with
  | nil => simp [levelsLen]
  | cons w ws ih =>
    obtain ⟨a, b, hab⟩ := beBytes_two (w : ℕ)
    have hne := weight_ne (hws w List.mem_cons_self) hab
    have ih := ih fun v hv => hws v (List.mem_cons_of_mem _ hv)
    rw [List.flatMap_cons, hab, List.append_assoc, List.cons_append, List.cons_append,
      List.nil_append, masked_cons, masked_cons, List.cons_append, List.cons_append, levelsLen,
      xor_xor_mask, xor_xor_mask, if_neg hne, ih, Option.map_map]
    congr 1
    funext n
    simp only [Function.comp_apply, List.length_cons]
    omega

theorem weights_ne_zero (level : Ce → Fin 65536) (ces : List Ce) : ∀ w ∈ weights level ces, w ≠ 0 :=
  fun w hw => by simpa using (List.mem_filter.mp hw).2

theorem delimits_sortKey {table : Table} {s key : Bytes} (h : sortKey table s = .ok key) :
    Delimits (fun m body => KeySlotKind.collated.bodyLen body m) key := by
  obtain ⟨ces, -, hkey⟩ := Results.bind_eq_ok.mp h
  cases hkey
  intro m rest
  have hlevel := fun (level : Ce → Fin 65536) seps rest =>
    levelsLen_level m seps (weights_ne_zero level ces) rest
  have hlevels : ∀ rest, levelsLen m 3 (masked m (levelKey Ce.l1 ces ++ [0, 0] ++
      (levelKey Ce.l2 ces ++ [0, 0] ++ (levelKey Ce.l3 ces ++ [0, 0]))) ++ rest) =
      some (levelKey Ce.l1 ces ++ [0, 0] ++
        (levelKey Ce.l2 ces ++ [0, 0] ++ (levelKey Ce.l3 ces ++ [0, 0]))).length := by
    intro rest
    rw [masked_append m (levelKey Ce.l1 ces ++ [0, 0]),
      masked_append m (levelKey Ce.l2 ces ++ [0, 0]), List.append_assoc, List.append_assoc, levelKey,
      hlevel, levelKey, hlevel, levelKey, hlevel, levelsLen]
    simp only [Option.map_some, List.length_append, List.length_cons, List.length_nil]
  generalize hlev : levelKey Ce.l1 ces ++ [0, 0] ++
    (levelKey Ce.l2 ces ++ [0, 0] ++ (levelKey Ce.l3 ces ++ [0, 0])) = levels at hlevels
  have hsplit : levelKey Ce.l1 ces ++ [0, 0] ++ levelKey Ce.l2 ces ++ [0, 0] ++ levelKey Ce.l3 ces ++
      [0, 0] ++ encodeTerminated s = levels ++ encodeTerminated s := by
    rw [← hlev]
    simp only [List.append_assoc]
  rw [hsplit, masked_append, List.append_assoc]
  have hterm : terminatedLen m ((masked m levels ++
      (masked m (encodeTerminated s) ++ rest)).drop levels.length) =
      some (encodeTerminated s).length := by
    rw [List.drop_left' (length_masked m levels)]
    exact delimits_terminated s m rest
  simp only [KeySlotKind.bodyLen, hlevels, bind, Option.bind, hterm, List.length_append]
  rfl

theorem delimits_encodeInt (ty : ScalarType) (n : ℤ) :
    Delimits (fun m body => (KeySlotKind.fixed (widthBytes ty)).bodyLen body m) (encodeInt ty n) :=
  delimits_fixed (length_beBytes _ _)

/-- The key of a scalar is as long as its kind of slot says. -/
theorem delimits_scalar {table : Option Table} {ty : ScalarType} {v : Value} (hv : Holds ty v)
    {key : Bytes} (h : encodeKeyValue ty v (table.map Table.collation) = .ok key) :
    ∃ kind, KeySlotKind.forScalar ty table.isSome = some kind ∧
      Delimits (fun m body => kind.bodyLen body m) key := by
  cases hv with
  | text s =>
    cases table with
    | none =>
      cases h
      exact ⟨_, rfl, delimits_terminated s⟩
    | some table => exact ⟨_, rfl, delimits_sortKey h⟩
  | bytea s =>
    cases h
    exact ⟨_, rfl, delimits_terminated s⟩
  | decimal hcaps =>
    cases h
    exact ⟨_, rfl, delimits_encodeDecimal _⟩
  | uuid hlen =>
    cases h
    exact ⟨_, rfl, delimits_fixed hlen⟩
  | bool b =>
    cases h
    exact ⟨_, rfl, delimits_fixed rfl⟩
  | interval =>
    cases h
    exact ⟨_, rfl, delimits_fixed (length_beBytes _ _)⟩
  | float32 x =>
    cases h
    exact ⟨_, rfl, delimits_fixed (length_beBytes _ _)⟩
  | float64 x =>
    cases h
    exact ⟨_, rfl, delimits_fixed (length_beBytes _ _)⟩
  | int16 =>
    cases h
    exact ⟨_, rfl, delimits_encodeInt .int16 _⟩
  | int32 =>
    cases h
    exact ⟨_, rfl, delimits_encodeInt .int32 _⟩
  | int64 =>
    cases h
    exact ⟨_, rfl, delimits_encodeInt .int64 _⟩
  | timestamp =>
    cases h
    exact ⟨_, rfl, delimits_encodeInt .timestamp _⟩
  | timestamptz =>
    cases h
    exact ⟨_, rfl, delimits_encodeInt .timestamptz _⟩
  | date =>
    cases h
    exact ⟨_, rfl, delimits_encodeInt .date _⟩

theorem encodeRangeElem_eq {elem : ScalarType} (helem : RangeElem elem) {v : Value}
    (hv : Holds elem v) : encodeRangeElem elem v = encodeKeyValue elem v none := by
  cases hv <;> first | rfl | exact absurd helem (by decide)

theorem delimits_rangeElem {elem : ScalarType} (helem : RangeElem elem) {v : Value}
    (hv : Holds elem v) {key : Bytes} (h : encodeRangeElem elem v = .ok key) :
    Delimits (fun m body => keyBodyLen (.scalar elem) false body m) key := by
  rw [encodeRangeElem_eq helem hv] at h
  obtain ⟨kind, hkind, hlen⟩ := @delimits_scalar none _ _ hv _ h
  intro m rest
  dsimp only
  rw [keyBodyLen, show KeySlotKind.forScalar elem false = some kind from hkind]
  exact hlen m rest

section Bounds

variable {elemLen : UInt8 → Bytes → Option ℕ}

/-- A bound is as long as its marker and its element say. -/
theorem delimits_pushBound {elem : ScalarType} {v : Option Value}
    (helem : ∀ x ∈ v, ∀ key, encodeRangeElem elem x = .ok key → Delimits elemLen key)
    (inc isLower : Bool) {key : Bytes} (h : pushBound elem v inc isLower = .ok key) :
    Delimits (fun m body => boundLen (elemLen m) m (if isLower then 0x00 else 0x02) body) key := by
  intro m rest
  cases v with
  | none =>
    cases h
    simp [boundLen]
  | some x =>
    obtain ⟨k, hk, hkey⟩ := Results.bind_eq_ok.mp h
    cases hkey
    have hne : (0x01 : UInt8) ≠ if isLower then 0x00 else 0x02 := by cases isLower <;> decide
    have hlen := helem x rfl k hk m (masked m [if inc = isLower then 0x00 else 0x01] ++ rest)
    rw [masked_cons, masked_append, List.cons_append, List.append_assoc]
    simp only [boundLen, xor_xor_mask, if_neg hne, if_true, hlen, Option.map_some, List.length_cons,
      List.length_append, List.length_nil]
    congr 1
    omega

theorem delimits_range {elem : ScalarType} {r : Range}
    (helem : r.empty = false → ∀ x, x ∈ r.lower ∨ x ∈ r.upper → ∀ key,
      encodeRangeElem elem x = .ok key → Delimits elemLen key)
    {key : Bytes} (h : encodeRangeKey elem r = .ok key) :
    Delimits (fun m body => rangeLen (elemLen m) m body) key := by
  intro m rest
  rw [encodeRangeKey] at h
  split at h
  case isTrue =>
    cases h
    simp [rangeLen]
  case isFalse hempty =>
    rw [Bool.not_eq_true] at hempty
    obtain ⟨lower, hlower, h⟩ := Results.bind_eq_ok.mp h
    obtain ⟨upper, hupper, hkey⟩ := Results.bind_eq_ok.mp h
    cases hkey
    have hlow := delimits_pushBound (fun x hx => helem hempty x (.inl hx)) _ _ hlower m
      (masked m upper ++ rest)
    have hup := delimits_pushBound (fun x hx => helem hempty x (.inr hx)) _ _ hupper m rest
    simp only [if_true, Bool.false_eq_true, if_false] at hlow hup
    have hdrop : (masked m lower ++ (masked m upper ++ rest)).drop lower.length =
        masked m upper ++ rest := List.drop_left' (length_masked m lower)
    have hzero : (0x01 : UInt8) ≠ 0x00 := by decide
    rw [masked_cons, masked_append, List.cons_append, List.append_assoc]
    simp only [rangeLen, xor_xor_mask, if_neg hzero, ne_eq, not_true_eq_false, if_false, hlow, hdrop,
      hup, bind, Option.bind, pure, List.length_cons, List.length_append]
    congr 1
    omega

end Bounds

section Arrays

variable {elemLen : UInt8 → Bytes → Option ℕ}

theorem length_shape {dims : List ℕ} {lbounds : List ℤ} (h : dims.length = lbounds.length) :
    ((dims.zip lbounds).flatMap fun d => encodeDim d.1 d.2).length = dims.length * 8 := by
  have hdim : ∀ d ∈ dims.zip lbounds, (encodeDim d.1 d.2).length = 8 := by
    intro d _
    rw [encodeDim, List.length_append, length_beBytes]
    exact congrArg (4 + ·) (length_beBytes _ _)
  rw [List.length_flatMap, List.map_congr_left hdim, List.map_const', List.sum_replicate,
    List.length_zip, ← h, min_self, smul_eq_mul]

/-- An array's key is read element by element, and then its shape. -/
theorem delimits_elements {elem : ScalarType} {coll : Option Collation} {shape : Bytes}
    (hshape : ∀ m rest, ∀ turns, arrayLen (elemLen m) m (turns + 1) (masked m shape ++ rest) =
      some shape.length) :
    ∀ {xs : List Value}, (∀ x ∈ xs, x ≠ .null → ∀ key, encodeKeyValue elem x coll = .ok key →
        Delimits elemLen key) →
      ∀ {keys : Bytes}, concatKeys (encodeElement elem coll) xs = .ok keys →
      xs.length ≤ keys.length ∧ ∀ m rest turns, xs.length < turns →
        arrayLen (elemLen m) m turns (masked m (keys ++ shape) ++ rest) =
          some (keys ++ shape).length := by
  intro xs
  induction xs with
  | nil =>
    intro _ keys h
    cases h
    refine ⟨le_rfl, fun m rest turns hlt => ?_⟩
    obtain ⟨turns, rfl⟩ := Nat.exists_eq_succ_of_ne_zero (Nat.ne_of_gt hlt)
    exact hshape m rest turns
  | cons x xs ih =>
    intro helem keys h
    rw [concatKeys] at h
    obtain ⟨key, hkey, h⟩ := Results.bind_eq_ok.mp h
    obtain ⟨rest', hrest', hkeys⟩ := Results.bind_eq_ok.mp h
    cases hkeys
    obtain ⟨hle, hlen⟩ := ih (fun y hy => helem y (List.mem_cons_of_mem _ hy)) hrest'
    by_cases hnull : x = .null
    · subst hnull
      cases hkey
      refine ⟨by simpa using hle, fun m rest turns hlt => ?_⟩
      obtain ⟨turns, rfl⟩ := Nat.exists_eq_succ_of_ne_zero (Nat.ne_of_gt (Nat.zero_lt_of_lt hlt))
      have h1 : (0x02 : UInt8) ≠ 0x01 := by decide
      have hturns : xs.length < turns := Nat.lt_of_succ_lt_succ hlt
      rw [List.cons_append, List.nil_append, List.cons_append, masked_cons, List.cons_append]
      simp only [arrayLen, xor_xor_mask, if_neg h1, if_true, hlen m rest turns hturns,
        Option.map_some, List.length_cons]
      congr 1
      omega
    · rw [encodeElement_of_ne hnull] at hkey
      obtain ⟨k, hk, rfl⟩ := Results.map_eq_ok.mp hkey
      refine ⟨by
        rw [List.length_cons, List.length_append, List.length_cons]
        omega, fun m rest turns hlt => ?_⟩
      obtain ⟨turns, rfl⟩ := Nat.exists_eq_succ_of_ne_zero (Nat.ne_of_gt (Nat.zero_lt_of_lt hlt))
      have hturns : xs.length < turns := Nat.lt_of_succ_lt_succ hlt
      have hx := helem x List.mem_cons_self hnull k hk m (masked m (rest' ++ shape) ++ rest)
      have hdrop : (masked m k ++ (masked m (rest' ++ shape) ++ rest)).drop k.length =
          masked m (rest' ++ shape) ++ rest := List.drop_left' (length_masked m k)
      rw [List.append_assoc, List.cons_append, masked_cons, masked_append m k, List.cons_append,
        List.append_assoc]
      simp only [arrayLen, xor_xor_mask, if_true, hx, hdrop, hlen m rest turns hturns, bind,
        Option.bind, pure, List.length_cons, List.length_append]
      congr 1
      omega

theorem delimits_shape {dims : List ℕ} {lbounds : List ℤ} (h : ShapeHolds dims lbounds) (m : UInt8)
    (rest : Bytes) (turns : ℕ) :
    arrayLen (elemLen m) m (turns + 1) (masked m (0x00 :: UInt8.ofNat dims.length ::
        (dims.zip lbounds).flatMap fun d => encodeDim d.1 d.2) ++ rest) =
      some (0x00 :: UInt8.ofNat dims.length ::
        (dims.zip lbounds).flatMap fun d => encodeDim d.1 d.2).length := by
  have h1 : (0x00 : UInt8) ≠ 0x01 := by decide
  have h2 : (0x00 : UInt8) ≠ 0x02 := by decide
  have hndim : (UInt8.ofNat dims.length).toNat = dims.length := by
    rw [UInt8.toNat_ofNat']
    exact Nat.mod_eq_of_lt h.ndim
  have hlen := length_shape h.length
  have hle : ¬(masked m ((dims.zip lbounds).flatMap fun d => encodeDim d.1 d.2) ++ rest).length <
      dims.length * 8 := by
    rw [List.length_append, length_masked, hlen]
    omega
  rw [masked_cons, masked_cons, List.cons_append, List.cons_append]
  simp only [arrayLen, xor_xor_mask, if_neg h1, if_neg h2, if_true, hndim, if_neg hle,
    List.length_cons, hlen]
  congr 1
  omega

end Arrays

mutual

/-- The key of a value is as long as its type says, whatever follows it. -/
theorem delimits_typed {table : Option Table} (ct : ColType) {v : Value} (hv : WellFormed ct v)
    {key : Bytes} (h : encodeKeyCt ct v (table.map Table.collation) = .ok key) :
    Delimits (fun m body => keyBodyLen ct table.isSome body m) key := by
  cases ct with
  | scalar s =>
    rw [encodeKeyCt_scalar (Holds.ne_null hv)] at h
    obtain ⟨kind, hkind, hlen⟩ := delimits_scalar hv h
    intro m rest
    dsimp only
    rw [keyBodyLen, hkind]
    exact hlen m rest
  | range elem =>
    cases elem <;> try exact hv.elim
    cases v <;> try exact hv.elim
    rename_i elem r
    intro m rest
    dsimp only
    rw [keyBodyLen]
    refine @delimits_range (fun m body => keyBodyLen (.scalar elem) false body m) _ _
      (fun hempty x hx key hkey => ?_) _ h m rest
    have hbounds := hv.2 hempty
    cases hx with
    | inl hx => exact delimits_rangeElem hv.1 (hbounds.1 x hx) hkey
    | inr hx => exact delimits_rangeElem hv.1 (hbounds.2 x hx) hkey
  | array elem =>
    cases elem <;> try exact hv.elim
    cases v <;> try exact hv.elim
    rename_i elem dims lbounds xs
    have h : encodeArrayKey elem dims lbounds xs (table.map Table.collation) = .ok key := h
    obtain ⟨keys, hkeys, hkey⟩ := Results.bind_eq_ok.mp h
    cases hkey
    have helem : ∀ x ∈ xs, x ≠ .null → ∀ k,
        encodeKeyValue elem x (table.map Table.collation) = .ok k →
        Delimits (fun m body => keyBodyLen (.scalar elem) table.isSome body m) k := by
      intro x hx hnull k hk m rest
      obtain ⟨kind, hkind, hlen⟩ := delimits_scalar ((hv.2 x hx).resolve_left hnull) hk
      dsimp only
      rw [keyBodyLen, hkind]
      exact hlen m rest
    have hall := delimits_elements (delimits_shape hv.1) helem hkeys
    intro m rest
    dsimp only
    rw [keyBodyLen]
    refine hall.2 m rest _ ?_
    have hle := hall.1
    rw [List.length_append, length_masked, List.length_append]
    omega
  | composite fields =>
    cases v <;> try exact hv.elim
    rename_i vals
    intro m rest
    dsimp only
    rw [keyBodyLen]
    exact delimits_fields fields hv h m rest

/-- The slots of a composite are as long as the types of its fields say. -/
theorem delimits_fields (fields : List ColType) {vals : List Value}
    (hv : FieldsWellFormed fields vals) {key : Bytes}
    (h : encodeCompositeKey fields vals = .ok key) :
    Delimits (fun m body => fieldsLen fields body m) key := by
  cases fields with
  | nil =>
    cases vals <;> try exact hv.elim
    cases h
    intro m rest
    dsimp only
    rw [fieldsLen]
    rfl
  | cons f fields =>
    cases vals with
    | nil => exact hv.elim
    | cons v vals =>
      rw [encodeCompositeKey_cons] at h
      obtain ⟨slot, hslot, h⟩ := Results.bind_eq_ok.mp h
      obtain ⟨keys, hkeys, hkey⟩ := Results.bind_eq_ok.mp h
      cases hkey
      have hrest := delimits_fields fields hv.2 hkeys
      intro m rest
      by_cases hnull : v = .null
      · subst hnull
        cases hslot
        have h1 : (0x01 : UInt8) ≠ 0x00 := by decide
        have hlen := hrest m rest
        rw [List.cons_append, List.nil_append, masked_cons, List.cons_append]
        simp only [fieldsLen, xor_xor_mask, if_neg h1, if_true, hlen, Option.map_some,
          List.length_cons]
        congr 1
        omega
      · rw [encodeSlot_of_ne hnull] at hslot
        obtain ⟨k, hk, rfl⟩ := Results.map_eq_ok.mp hslot
        have hlen := hrest m rest
        have hx := @delimits_typed none f _ (hv.1 hnull) _ hk m (masked m keys ++ rest)
        have hdrop : (masked m k ++ (masked m keys ++ rest)).drop k.length = masked m keys ++ rest :=
          List.drop_left' (length_masked m k)
        simp only [Option.isSome_none] at hx
        rw [List.cons_append, masked_cons, masked_append, List.cons_append, List.append_assoc]
        simp only [fieldsLen, xor_xor_mask, if_true, hx, hdrop, hlen, bind, Option.bind, pure,
          List.length_cons, List.length_append]
        congr 1
        omega

end

end Jed.Key
