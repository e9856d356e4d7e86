import Mathlib.Data.List.GetD
import Jed.PMap.Ordered

/-!
# The layout of a posting run

`term ‖ last ‖ body ‖ len(body)`: the run's last storage key in clear, and the others front-coded in
ascending order, the first against the last and each next against the one before it.
-/

namespace Jed.Gin

/-- How a call ends without a value: `XX001` "a GIN posting run is malformed", or a panic. -/
inductive Fault where
  | corrupt
  | panic
  deriving DecidableEq, Repr

/-- `push_varint` (`gin_runs.rs:24-34`), as the bytes it appends. -/
def pushVarint (v : Nat) : Bytes :=
  let byte := UInt8.ofNat (v &&& 0x7F)
  if _h : v >>> 7 = 0 then [byte] else (byte ||| 0x80) :: pushVarint (v >>> 7)
termination_by v
decreasing_by
  rw [Nat.shiftRight_eq_div_pow] at _h ⊢
  omega

/-- The loop of `read_varint` (`gin_runs.rs:36-47`), `left` bytes from its end: the value and the
    bytes behind it. -/
def readVarintFrom : (left shift v : Nat) → Bytes → Except Fault (Nat × Bytes)
  | 0, _, _, _ => .error .corrupt
  | _ + 1, _, _, [] => .error .corrupt
  | left + 1, shift, v, byte :: rest =>
    let v := v ||| (byte &&& 0x7F).toNat <<< shift
    if byte &&& 0x80 == 0 then .ok (v, rest) else readVarintFrom left (shift + 7) v rest

/-- `read_varint`: at most three bytes. -/
def readVarint (bytes : Bytes) : Except Fault (Nat × Bytes) := readVarintFrom 3 0 0 bytes

/-- `shared_prefix` (`gin_runs.rs:63-65`). -/
def sharedPrefix (a b : Bytes) : Nat := ((a.zip b).takeWhile (fun e => e.1 == e.2)).length

/-- The front-coded body over `keys`, each coded against the key before it (`gin_runs.rs:75-83`). -/
def encodeBody (prev : Bytes) : List Bytes → Bytes
  | [] => []
  | key :: keys =>
    let shared := sharedPrefix prev key
    pushVarint shared ++ pushVarint (key.length - shared) ++ key.drop shared ++ encodeBody key keys

/-- The two bytes of a length (`u16::to_be_bytes`). -/
def u16Bytes (n : Nat) : Bytes := [UInt8.ofNat (n / 256), UInt8.ofNat (n % 256)]

/-- `u16::from_be_bytes`. -/
def u16Value (hi lo : UInt8) : Nat := hi.toNat * 256 + lo.toNat

/-- The run key over a last key and the keys before it. -/
def runKey (term last : Bytes) (rest : List Bytes) : Bytes :=
  term ++ last ++ encodeBody last rest ++ u16Bytes (encodeBody last rest).length

/-- `encode_run` (`gin_runs.rs:70-93`). A run without keys, or with a body beyond `u16`, panics. -/
def encodeRun (term : Bytes) (keys : List Bytes) : Except Fault Bytes :=
  match keys.getLast? with
  | none => .error .panic
  | some last =>
    if (encodeBody last keys.dropLast).length < 65536 then .ok (runKey term last keys.dropLast)
    else .error .panic

theorem readVarintFrom_length {left : Nat} : ∀ {shift v : Nat} {bytes : Bytes} {r : Nat × Bytes},
    readVarintFrom left shift v bytes = .ok r → r.2.length < bytes.length := by
  induction left with
  | zero => intro shift v bytes r h; cases h
  | succ left ih =>
    intro shift v bytes r h
    cases bytes with
    | nil => cases h
    | cons byte rest =>
      simp only [readVarintFrom] at h
      split at h
      · obtain rfl := Except.ok.inj h
        exact Nat.lt_succ_self _
      · exact (ih h).trans (Nat.lt_succ_self _)

/-- The loop of `decode_run` over the body (`gin_runs.rs:113-127`). -/
def decodeBody (last : Bytes) (keys : List Bytes) (body : Bytes) : Except Fault (List Bytes) :=
  if body.isEmpty then .ok keys
  else
    match _h₁ : readVarint body with
    | .error e => .error e
    | .ok (shared, tail) =>
      match _h₂ : readVarint tail with
      | .error e => .error e
      | .ok (suffix, rest) =>
        let prev := keys.getLast?.getD last
        if prev.length < shared || rest.length < suffix || shared + suffix == 0 then .error .corrupt
        else
          let key := prev.take shared ++ rest.take suffix
          if keys.getLast?.any (fun p => key ≤ p) then .error .corrupt
          else decodeBody last (keys ++ [key]) (rest.drop suffix)
termination_by body.length
decreasing_by
  have h₁ : tail.length < body.length := readVarintFrom_length _h₁
  have h₂ : rest.length < tail.length := readVarintFrom_length _h₂
  rw [List.length_drop]
  omega

/-- `decode_run` (`gin_runs.rs:99-133`). -/
def decodeRun (termLen : Nat) (run : Bytes) : Except Fault (List Bytes) :=
  let n := run.length
  if n < termLen + 3 then .error .corrupt
  else
    let bodyLen := u16Value (run.getD (n - 2) 0) (run.getD (n - 1) 0)
    let bodyEnd := n - 2
    if bodyEnd < bodyLen then .error .corrupt
    else
      let lastEnd := bodyEnd - bodyLen
      if lastEnd ≤ termLen then .error .corrupt
      else
        let last := (run.take lastEnd).drop termLen
        match decodeBody last [] ((run.take bodyEnd).drop lastEnd) with
        | .error e => .error e
        | .ok keys =>
          if keys.getLast?.any (fun p => last ≤ p) then .error .corrupt else .ok (keys ++ [last])

theorem pushVarint_eq (v : Nat) : pushVarint v =
    if v < 128 then [UInt8.ofNat v] else (UInt8.ofNat (v % 128) ||| 0x80) :: pushVarint (v / 128) := by
  have hmod : v &&& 0x7F = v % 128 := Nat.and_two_pow_sub_one_eq_mod v 7
  have hdiv : v >>> 7 = v / 128 := Nat.shiftRight_eq_div_pow v 7
  rw [pushVarint, hmod, hdiv]
  by_cases h : v < 128
  · rw [if_pos h, dif_pos (Nat.div_eq_of_lt h), Nat.mod_eq_of_lt h]
  · rw [if_neg h, dif_neg (by omega)]

theorem varintByte : ∀ m < 128,
    ((UInt8.ofNat m &&& 0x7F).toNat = m ∧ (UInt8.ofNat m &&& 0x80 == 0) = true) ∧
      ((UInt8.ofNat m ||| 0x80) &&& 0x7F).toNat = m ∧
      ((UInt8.ofNat m ||| 0x80) &&& 0x80 == 0) = false := by
  decide +kernel

theorem or_shiftLeft {v shift : Nat} (h : v < 2 ^ shift) (x : Nat) :
    v ||| x <<< shift = v + x * 2 ^ shift := by
  rw [Nat.or_comm, ← Nat.shiftLeft_add_eq_or_of_lt h, Nat.shiftLeft_eq, Nat.add_comm]

theorem readVarintFrom_pushVarint {left : Nat} : ∀ {shift v x : Nat} {rest : Bytes},
    v < 2 ^ shift → x < 2 ^ (7 * (left + 1)) →
      readVarintFrom (left + 1) shift v (pushVarint x ++ rest) = .ok (v + x * 2 ^ shift, rest) := by
  induction left with
  | zero =>
    intro shift v x rest hv hx
    have hx' : x < 128 := by simpa using hx
    obtain ⟨⟨hval, hstop⟩, -⟩ := varintByte x hx'
    rw [pushVarint_eq, if_pos hx']
    simp only [List.cons_append, List.nil_append, readVarintFrom, hstop, if_true, hval, or_shiftLeft hv]
  | succ left ih =>
    intro shift v x rest hv hx
    rw [pushVarint_eq]
    by_cases hx' : x < 128
    · obtain ⟨⟨hval, hstop⟩, -⟩ := varintByte x hx'
      rw [if_pos hx']
      simp only [List.cons_append, List.nil_append, readVarintFrom, hstop, if_true, hval,
        or_shiftLeft hv]
    · obtain ⟨-, hval, hgo⟩ := varintByte (x % 128) (Nat.mod_lt _ (by decide))
      rw [if_neg hx', List.cons_append, readVarintFrom]
      simp only [hgo, Bool.false_eq_true, if_false, hval, or_shiftLeft hv]
      have hpow : 2 ^ (shift + 7) = 2 ^ shift * 128 := by rw [Nat.pow_add]
      have hpowx : 2 ^ (7 * (left + 1 + 1)) = 2 ^ (7 * (left + 1)) * 128 := by
        rw [show 7 * (left + 1 + 1) = 7 * (left + 1) + 7 by ring, Nat.pow_add]
      have hlow : v + x % 128 * 2 ^ shift < 2 ^ (shift + 7) := by
        have h1 : x % 128 + 1 ≤ 128 := Nat.mod_lt _ (by decide)
        have h2 := Nat.mul_le_mul_right (2 ^ shift) h1
        rw [hpow]
        linarith
      have hhigh : x / 128 < 2 ^ (7 * (left + 1)) := by
        rw [hpowx] at hx
        exact Nat.div_lt_of_lt_mul (by linarith)
      rw [ih hlow hhigh, hpow]
      have hsplit : x = 128 * (x / 128) + x % 128 := (Nat.div_add_mod x 128).symm
      have hsum : v + x % 128 * 2 ^ shift + x / 128 * (2 ^ shift * 128) = v + x * 2 ^ shift := by
        conv_rhs => rw [hsplit]
        ring
      rw [hsum]

theorem readVarint_pushVarint {x : Nat} (hx : x < 2 ^ 21) (rest : Bytes) :
    readVarint (pushVarint x ++ rest) = .ok (x, rest) := by
  have h : readVarintFrom 3 0 0 (pushVarint x ++ rest) = .ok (0 + x * 2 ^ 0, rest) :=
    readVarintFrom_pushVarint (by decide) hx
  simpa [readVarint] using h

theorem pushVarint_pos (x : Nat) : 1 ≤ (pushVarint x).length := by
  rw [pushVarint_eq]
  split <;> simp

theorem pushVarint_length {x : Nat} (hx : x < 2 ^ 21) :
    1 ≤ (pushVarint x).length ∧ (pushVarint x).length ≤ 3 := by
  have hdiv : x / 128 < 16384 := by omega
  rw [pushVarint_eq]
  split
  · exact ⟨le_rfl, by simp⟩
  · rw [pushVarint_eq]
    split
    · exact ⟨by simp, by simp⟩
    · rw [pushVarint_eq, if_pos (by omega)]
      exact ⟨by simp, by simp⟩

theorem sharedPrefix_le (a b : Bytes) : sharedPrefix a b ≤ a.length ∧ sharedPrefix a b ≤ b.length := by
  have h : sharedPrefix a b ≤ (a.zip b).length :=
    (List.takeWhile_sublist _).length_le
  rw [List.length_zip] at h
  omega

theorem sharedPrefix_take (a b : Bytes) : a.take (sharedPrefix a b) = b.take (sharedPrefix a b) := by
  induction a generalizing b with
  | nil => simp [sharedPrefix]
  | cons x a ih =>
    cases b with
    | nil => simp [sharedPrefix]
    | cons y b =>
      by_cases hxy : x = y
      · have hcons : sharedPrefix (x :: a) (y :: b) = sharedPrefix a b + 1 := by
          simp [sharedPrefix, hxy]
        rw [hcons, List.take_succ_cons, List.take_succ_cons, ih, hxy]
      · have hnil : sharedPrefix (x :: a) (y :: b) = 0 := by simp [sharedPrefix, hxy]
        rw [hnil]
        rfl

theorem sharedPrefix_rebuild (prev key : Bytes) :
    prev.take (sharedPrefix prev key) ++ key.drop (sharedPrefix prev key) = key := by
  rw [sharedPrefix_take, List.take_append_drop]

/-- Keys that three-byte varints can code. -/
def Short (keys : List Bytes) : Prop := ∀ k ∈ keys, k.length < 2 ^ 21

theorem decodeBody_encodeBody (last : Bytes) {keys : List Bytes} : ∀ {done : List Bytes},
    (done ++ keys).Pairwise (· < ·) → (∀ k ∈ keys, k ≠ []) → Short keys →
      decodeBody last done (encodeBody (done.getLast?.getD last) keys) = .ok (done ++ keys) := by
  induction keys with
  | nil =>
    intro done _ _ _
    rw [decodeBody]
    simp [encodeBody]
  | cons key keys ih =>
    intro done hasc hne hshort
    generalize hprev : done.getLast?.getD last = prev
    obtain ⟨hsp, hsk⟩ := sharedPrefix_le prev key
    have hkey : key.length < 2 ^ 21 := hshort key List.mem_cons_self
    have hlen : 0 < key.length := List.length_pos_iff.mpr (hne key List.mem_cons_self)
    have hbody : encodeBody prev (key :: keys) = pushVarint (sharedPrefix prev key) ++
        (pushVarint (key.length - sharedPrefix prev key) ++
          (key.drop (sharedPrefix prev key) ++ encodeBody key keys)) := by
      simp only [encodeBody, List.append_assoc]
    have hread₁ : readVarint (encodeBody prev (key :: keys)) = .ok (sharedPrefix prev key, _) :=
      hbody ▸ readVarint_pushVarint (by omega) _
    have hread₂ : readVarint (pushVarint (key.length - sharedPrefix prev key) ++
        (key.drop (sharedPrefix prev key) ++ encodeBody key keys)) = .ok (_, _) :=
      readVarint_pushVarint (by omega) _
    have hsuffix : (key.drop (sharedPrefix prev key)).length = key.length - sharedPrefix prev key :=
      List.length_drop ..
    have hnonempty : (encodeBody prev (key :: keys)).isEmpty = false := by
      cases hb : encodeBody prev (key :: keys) with
      | nil => rw [hb] at hread₁; cases hread₁
      | cons => rfl
    have habove : (done.getLast?.any fun p => key ≤ p) = false := by
      cases hd : done.getLast? with
      | none => rfl
      | some p =>
        have hlt : p < key := (List.pairwise_append.mp hasc).2.2 p (List.mem_of_getLast? hd) key
          List.mem_cons_self
        simpa using hlt
    rw [decodeBody, hnonempty, if_neg Bool.false_ne_true]
    split
    · rename_i h
      rw [hread₁] at h
      cases h
    · rename_i shared tail h
      rw [hread₁] at h
      obtain ⟨rfl, rfl⟩ := Prod.mk.inj (Except.ok.inj h)
      split
      · rename_i h
        rw [hread₂] at h
        cases h
      · rename_i suffix rest h
        rw [hread₂] at h
        obtain ⟨rfl, rfl⟩ := Prod.mk.inj (Except.ok.inj h)
        have hrebuilt : prev.take (sharedPrefix prev key) ++
            (key.drop (sharedPrefix prev key) ++ encodeBody key keys).take
              (key.length - sharedPrefix prev key) = key := by
          rw [List.take_append_of_le_length hsuffix.ge, List.take_of_length_le hsuffix.le,
            sharedPrefix_rebuild]
        have hrest : (key.drop (sharedPrefix prev key) ++ encodeBody key keys).drop
            (key.length - sharedPrefix prev key) = encodeBody key keys := by
          rw [← hsuffix, List.drop_left]
        have hok : (prev.length < sharedPrefix prev key ||
            (key.drop (sharedPrefix prev key) ++ encodeBody key keys).length <
              key.length - sharedPrefix prev key ||
            sharedPrefix prev key + (key.length - sharedPrefix prev key) == 0) = false := by
          rw [List.length_append, hsuffix]
          simp only [Bool.or_eq_false_iff, decide_eq_false_iff_not, beq_eq_false_iff_ne]
          omega
        simp only [hprev, hok, Bool.false_eq_true, if_false, hrebuilt, habove, hrest]
        have hnext := @ih (done ++ [key]) (by simpa using hasc)
          (fun k hk => hne k (List.mem_cons_of_mem _ hk))
          (fun k hk => hshort k (List.mem_cons_of_mem _ hk))
        simpa using hnext

theorem u16_roundTrip {n : Nat} (h : n < 65536) :
    u16Value (UInt8.ofNat (n / 256)) (UInt8.ofNat (n % 256)) = n := by
  simp only [u16Value, UInt8.toNat_ofNat']
  omega

/-- A run key decodes to its keys. -/
theorem decodeRun_runKey (term : Bytes) {last : Bytes} {rest : List Bytes} (hlast : last ≠ [])
    (hasc : (rest ++ [last]).Pairwise (· < ·)) (hne : ∀ k ∈ rest, k ≠ []) (hshort : Short rest)
    (hbody : (encodeBody last rest).length < 65536) :
    decodeRun term.length (runKey term last rest) = .ok (rest ++ [last]) := by
  have hpos := List.length_pos_iff.mpr hlast
  have hdecode := @decodeBody_encodeBody last rest [] (List.pairwise_append.mp hasc).1 hne hshort
  have htail : (u16Bytes (encodeBody last rest).length).length = 2 := rfl
  have hu16 := u16_roundTrip hbody
  have hbelow : (rest.getLast?.any fun p => last ≤ p) = false := by
    cases hd : rest.getLast? with
    | none => rfl
    | some p =>
      have hlt : p < last := (List.pairwise_append.mp hasc).2.2 p (List.mem_of_getLast? hd) last
        List.mem_cons_self
      simpa using hlt
  simp only [List.getLast?_nil, Option.getD_none, List.nil_append] at hdecode
  unfold decodeRun runKey
  generalize encodeBody last rest = body at *
  have hlen : (term ++ last ++ body ++ u16Bytes body.length).length =
      term.length + last.length + body.length + 2 := by
    simp only [List.length_append, htail]
  have hpre : (term ++ last ++ body).length = term.length + last.length + body.length := by
    simp only [List.length_append]
  have hhi : (term ++ last ++ body ++ u16Bytes body.length).getD
      (term.length + last.length + body.length) 0 = UInt8.ofNat (body.length / 256) := by
    rw [← hpre, List.getD_append_right _ _ _ _ le_rfl, Nat.sub_self]
    rfl
  have hlo : (term ++ last ++ body ++ u16Bytes body.length).getD
      (term.length + last.length + body.length + 1) 0 = UInt8.ofNat (body.length % 256) := by
    rw [← hpre, List.getD_append_right _ _ _ _ (Nat.le_succ _), Nat.succ_sub le_rfl, Nat.sub_self]
    rfl
  have htake : (term ++ last ++ body ++ u16Bytes body.length).take
      (term.length + last.length + body.length) = term ++ last ++ body := by
    rw [← hpre, List.take_left]
  have hhead : (term ++ last ++ body ++ u16Bytes body.length).take (term.length + last.length) =
      term ++ last := by
    rw [List.append_assoc (term ++ last), ← List.length_append, List.take_left]
  have hend : (term ++ last ++ body).drop (term.length + last.length) = body := by
    rw [← List.length_append, List.drop_left]
  rw [hlen]
  simp only [show term.length + last.length + body.length + 2 - 2 =
      term.length + last.length + body.length by omega,
    show term.length + last.length + body.length + 2 - 1 =
      term.length + last.length + body.length + 1 by omega, hhi, hlo, hu16,
    Nat.add_sub_cancel, htake, hhead, hend, List.drop_left, hdecode, hbelow]
  rw [if_neg (by omega), if_neg (by omega), if_neg (by omega)]
  rfl

end Jed.Gin
