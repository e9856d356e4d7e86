import Jed.Codec.Read

/-!
# Compressed blocks

The LZ4 block codec (`lz4.rs`): a greedy encoder with one candidate a hash, and a decoder that checks
every read.
-/

namespace Jed.Lz4

/-- `MIN_MATCH`, `MAX_OFFSET`, `MFLIMIT`, `LAST_LITERALS`, `HASH_LOG`, `HASH_MUL`. -/
def MIN_MATCH : Nat := 4
def MAX_OFFSET : Nat := 65535
def MFLIMIT : Nat := 12
def LAST_LITERALS : Nat := 5
def HASH_LOG : Nat := 12
def HASH_MUL : Nat := 2654435761

/-! ## Compressing -/

/-- `le32`: the four bytes at a place, the least significant first. -/
def le32 (src : Bytes) (p : Nat) : Nat :=
  (src.drop p |>.take 4).foldr (fun b n => b.toNat + 256 * n) 0

/-- `hash`. -/
def hash (v : Nat) : Nat := v * HASH_MUL % 2 ^ 32 / 2 ^ (32 - HASH_LOG)

/-- `emit_length`. -/
def emitLength (n : Nat) : Bytes := if 255 ≤ n then 255 :: emitLength (n - 255) else [UInt8.ofNat n]
termination_by n

/-- A token of two nibbles. -/
def token (lit ml : Nat) : UInt8 := UInt8.ofNat (min lit 15 * 16 + min ml 15)

/-- The rest of a length whose nibble is full. -/
def emitRest (n : Nat) : Bytes := if 15 ≤ n then emitLength (n - 15) else []

/-- `emit_sequence`. -/
def emitSequence (literals : Bytes) (offset mlen : Nat) : Bytes :=
  token literals.length (mlen - MIN_MATCH) :: (emitRest literals.length ++ (literals ++
    (UInt8.ofNat offset :: UInt8.ofNat (offset / 256) :: emitRest (mlen - MIN_MATCH))))

/-- `emit_last_literals`. -/
def emitLastLiterals (literals : Bytes) : Bytes :=
  token literals.length 0 :: (emitRest literals.length ++ literals)

/-- The length of the match of two places, `mlen` of it known. -/
def matchLength (src : Bytes) (cand p mlen : Nat) : Nat :=
  if p + mlen < src.length - LAST_LITERALS ∧ src[cand + mlen]? = src[p + mlen]? then
    matchLength src cand p (mlen + 1)
  else mlen
termination_by src.length - LAST_LITERALS - (p + mlen)

theorem le_matchLength (src : Bytes) (cand p mlen : Nat) : mlen ≤ matchLength src cand p mlen := by
  fun_induction matchLength src cand p mlen with
  | case1 mlen h ih => omega
  | case2 mlen h => exact le_rfl

/-- The loop of `compress`, from a place on; the literals from `anchor` on are still to be
    written. -/
def compressFrom (src : Bytes) (table : Nat → Option Nat) (anchor p : Nat) : Bytes :=
  if p + MFLIMIT ≤ src.length then
    let h := hash (le32 src p)
    let table' := Function.update table h (some p)
    match table h with
    | some cand =>
      if p - cand ≤ MAX_OFFSET ∧ le32 src cand = le32 src p then
        let mlen := matchLength src cand p MIN_MATCH
        emitSequence ((src.drop anchor).take (p - anchor)) (p - cand) mlen ++
          compressFrom src table' (p + mlen) (p + mlen)
      else compressFrom src table' anchor (p + 1)
    | none => compressFrom src table' anchor (p + 1)
  else emitLastLiterals (src.drop anchor)
termination_by src.length - p
decreasing_by
  · have := le_matchLength src cand p MIN_MATCH
    unfold MFLIMIT MIN_MATCH at *
    omega
  · unfold MFLIMIT at *
    omega
  · unfold MFLIMIT at *
    omega

/-- `compress`. -/
def compress (src : Bytes) : Bytes := compressFrom src (fun _ => none) 0 0

/-! ## Decompressing -/

/-- The bytes of a length behind a full nibble. -/
def readLength (n : Nat) : Bytes → Except Failure (Nat × Bytes)
  | [] => .error (dataCorrupted "truncated compressed block")
  | b :: rest => if b = 255 then readLength (n + 255) rest else .ok (n + b.toNat, rest)

/-- A length that starts in a nibble. -/
def readNibble (n : Nat) (rest : Bytes) : Except Failure (Nat × Bytes) :=
  if n = 15 then readLength 15 rest else .ok (n, rest)

/-- The copy of a match, byte by byte. -/
def copyMatch (offset : Nat) : (ml : Nat) → (out : Bytes) → Except Failure Bytes
  | 0, out => .ok out
  | ml + 1, out =>
    match out[out.length - offset]? with
    | some b => copyMatch offset ml (out ++ [b])
    | none => .error .panic

variable {n m : Nat} {rest rest' : Bytes}

theorem readLength_le (h : readLength n rest = .ok (m, rest')) :
    rest'.length ≤ rest.length := by
  induction rest generalizing n with
  | nil => cases h
  | cons b rest ih =>
    rw [readLength] at h
    split at h
    · exact (ih h).trans (Nat.le_succ _)
    · cases h
      exact Nat.le_succ _

theorem readNibble_le (h : readNibble n rest = .ok (m, rest')) :
    rest'.length ≤ rest.length := by
  unfold readNibble at h
  split at h
  · exact readLength_le h
  · cases h
    exact le_rfl

/-- The loop of `decompress`, on the bytes left and what is written so far. -/
def decompressFrom (rawLen : Nat) (comp out : Bytes) : Except Failure Bytes :=
  match comp with
  | [] => .error (dataCorrupted "truncated compressed block")
  | token :: rest =>
    match _hlit : readNibble (token.toNat / 16) rest with
    | .error e => .error e
    | .ok (lit, rest') =>
      if rest'.length < lit then .error (dataCorrupted "truncated compressed block")
      else if rawLen < out.length + lit then .error (dataCorrupted "decompressed length overflow")
      else
        let out := out ++ rest'.take lit
        match _htail : rest'.drop lit with
        | [] =>
          if out.length = rawLen then .ok out
          else .error (dataCorrupted "decompressed length mismatch")
        | [_] => .error (dataCorrupted "truncated compressed block")
        | lo :: hi :: tail =>
          let offset := lo.toNat + 256 * hi.toNat
          if offset = 0 ∨ out.length < offset then .error (dataCorrupted "invalid match offset")
          else
            match _hml : readNibble (token.toNat % 16) tail with
            | .error e => .error e
            | .ok (ml, tail') =>
              if rawLen < out.length + (ml + MIN_MATCH) then
                .error (dataCorrupted "decompressed length overflow")
              else
                match copyMatch offset (ml + MIN_MATCH) out with
                | .error e => .error e
                | .ok out => decompressFrom rawLen tail' out
termination_by comp.length
decreasing_by
  have h1 := readNibble_le _hlit
  have h2 := readNibble_le _hml
  have h3 := congrArg List.length _htail
  rw [List.length_drop] at h3
  simp only [List.length_cons] at h3 ⊢
  omega

/-- `decompress`. -/
def decompress (comp : Bytes) (rawLen : Nat) : Except Failure Bytes := decompressFrom rawLen comp []

/-! ## Lengths and tokens -/

theorem readLength_emitLength (n m : Nat) (rest : Bytes) :
    readLength m (emitLength n ++ rest) = .ok (m + n, rest) := by
  induction n using Nat.strong_induction_on generalizing m with
  | _ n ih =>
    rw [emitLength]
    by_cases h : 255 ≤ n
    · rw [if_pos h, List.cons_append, readLength, if_pos rfl, ih (n - 255) (by omega),
        show m + 255 + (n - 255) = m + n by omega]
    · have hbyte : (UInt8.ofNat n).toNat = n := by
        rw [UInt8.toNat_ofNat']
        omega
      have hne : UInt8.ofNat n ≠ 255 := by
        intro heq
        have hn : 255 = n := by
          rw [heq] at hbyte
          exact hbyte
        omega
      rw [if_neg h, List.cons_append, readLength, if_neg hne, hbyte]
      rfl

theorem readNibble_emitRest (n : Nat) (rest : Bytes) :
    readNibble (min n 15) (emitRest n ++ rest) = .ok (n, rest) := by
  unfold readNibble emitRest
  by_cases h : 15 ≤ n
  · rw [Nat.min_eq_right h, if_pos rfl, if_pos h, readLength_emitLength]
    congr 2
    omega
  · rw [Nat.min_eq_left (by omega), if_neg (by omega), if_neg h]
    rfl

theorem token_toNat (lit ml : Nat) : (token lit ml).toNat = min lit 15 * 16 + min ml 15 := by
  unfold token
  rw [UInt8.toNat_ofNat']
  omega

theorem token_hi (lit ml : Nat) : (token lit ml).toNat / 16 = min lit 15 := by
  rw [token_toNat]
  omega

theorem token_lo (lit ml : Nat) : (token lit ml).toNat % 16 = min ml 15 := by
  rw [token_toNat]
  omega

/-! ## Matches -/

/-- The bytes at two places agree for a length. -/
def Agree (src : Bytes) (cand p n : Nat) : Prop := ∀ j < n, src[cand + j]? = src[p + j]?

variable {src : Bytes} {p cand mlen : Nat}

theorem matchLength_agrees (h : Agree src cand p mlen) (hend : p + mlen ≤ src.length - LAST_LITERALS) :
    Agree src cand p (matchLength src cand p mlen) ∧
      p + matchLength src cand p mlen ≤ src.length - LAST_LITERALS := by
  fun_induction matchLength src cand p mlen with
  | case1 mlen hmore ih =>
    refine ih ?_ (by omega)
    intro j hj
    by_cases hlast : j = mlen
    · rw [hlast]
      exact hmore.2
    · exact h j (by omega)
  | case2 mlen _ => exact ⟨h, hend⟩

/-- Four bytes are their number. -/
theorem agree_of_le32 (h : le32 src cand = le32 src p)
    (hc : cand + 4 ≤ src.length) (hp : p + 4 ≤ src.length) : Agree src cand p 4 := by
  have hfour : ∀ q, q + 4 ≤ src.length → ∃ a b c d,
      (src.drop q).take 4 = [a, b, c, d] := by
    intro q hq
    have hlen : ((src.drop q).take 4).length = 4 := by
      rw [List.length_take, List.length_drop]
      omega
    match hs : (src.drop q).take 4, hlen with
    | [a, b, c, d], _ => exact ⟨a, b, c, d, rfl⟩
  obtain ⟨a, b, c, d, hcand⟩ := hfour cand hc
  obtain ⟨a', b', c', d', hat⟩ := hfour p hp
  have hsame : (src.drop cand).take 4 = (src.drop p).take 4 := by
    simp only [le32, hcand, hat, List.foldr_cons, List.foldr_nil] at h
    have := a.toNat_lt
    have := a'.toNat_lt
    have := b.toNat_lt
    have := b'.toNat_lt
    have := c.toNat_lt
    have := c'.toNat_lt
    have := d.toNat_lt
    have := d'.toNat_lt
    rw [hcand, hat, UInt8.toNat_inj.mp (show a.toNat = a'.toNat by omega),
      UInt8.toNat_inj.mp (show b.toNat = b'.toNat by omega),
      UInt8.toNat_inj.mp (show c.toNat = c'.toNat by omega),
      UInt8.toNat_inj.mp (show d.toNat = d'.toNat by omega)]
  intro j hj
  have hplace := congrArg (fun s : Bytes => s[j]?) hsame
  simpa only [List.getElem?_take_of_lt hj, List.getElem?_drop] using hplace

variable {offset ml : Nat}

/-- A copy behind the front of a text that repeats itself there writes the text on. -/
theorem copyMatch_take (hoff : 0 < offset) (hreach : offset ≤ p)
    (hrep : Agree src (p - offset) p ml) (hend : p + ml ≤ src.length) :
    copyMatch offset ml (src.take p) = .ok (src.take (p + ml)) := by
  induction ml generalizing p with
  | zero => rfl
  | succ ml ih =>
    have hp : p < src.length := by omega
    have hlen : (src.take p).length = p := List.length_take_of_le (by omega)
    have hbyte : (src.take p)[p - offset]? = some src[p] := by
      rw [List.getElem?_take_of_lt (by omega)]
      have := hrep 0 (Nat.succ_pos ml)
      rw [Nat.add_zero, Nat.add_zero] at this
      rw [this]
      exact List.getElem?_eq_getElem hp
    have hnext : src.take p ++ [src[p]] = src.take (p + 1) := (List.take_succ_eq_append_getElem hp).symm
    rw [copyMatch, hlen, hbyte]
    show copyMatch offset ml (src.take p ++ [src[p]]) = _
    rw [hnext, ih (by omega) ?_ (by omega)]
    · congr 2
      omega
    · intro j hj
      have := hrep (j + 1) (by omega)
      rwa [show p - offset + (j + 1) = p + 1 - offset + j by omega,
        show p + (j + 1) = p + 1 + j by omega] at this

/-! ## What the decoder makes of what the encoder emits -/

variable {rawLen : Nat} {out literals : Bytes}

theorem decompressFrom_lastLiterals (h : out.length + literals.length = rawLen) :
    decompressFrom rawLen (emitLastLiterals literals) out = .ok (out ++ literals) := by
  have hlit : readNibble ((token literals.length 0).toNat / 16)
      (emitRest literals.length ++ literals) = .ok (literals.length, literals) := by
    rw [token_hi]
    exact readNibble_emitRest _ _
  unfold emitLastLiterals decompressFrom
  split
  · rename_i heq
    rw [hlit] at heq
    cases heq
  · rename_i heq
    rw [hlit] at heq
    cases heq
    rw [if_neg (Nat.lt_irrefl _), if_neg (by omega)]
    split
    · rw [List.take_length, if_pos (by rw [List.length_append]; exact h)]
    · rename_i htail
      rw [List.drop_length] at htail
      cases htail
    · rename_i htail
      rw [List.drop_length] at htail
      cases htail

variable {out' : Bytes}

theorem decompressFrom_sequence {tail : Bytes}
    (hoff : 0 < offset) (hmax : offset ≤ MAX_OFFSET) (hreach : offset ≤ out.length + literals.length)
    (hmin : MIN_MATCH ≤ mlen) (hfit : out.length + literals.length + mlen ≤ rawLen)
    (hcopy : copyMatch offset mlen (out ++ literals) = .ok out') :
    decompressFrom rawLen (emitSequence literals offset mlen ++ tail) out
      = decompressFrom rawLen tail out' := by
  unfold MAX_OFFSET at hmax
  have hlit : ∀ rest, readNibble ((token literals.length (mlen - MIN_MATCH)).toNat / 16)
      (emitRest literals.length ++ rest) = .ok (literals.length, rest) := by
    intro rest
    rw [token_hi]
    exact readNibble_emitRest _ _
  have hml : readNibble ((token literals.length (mlen - MIN_MATCH)).toNat % 16)
      (emitRest (mlen - MIN_MATCH) ++ tail) = .ok (mlen - MIN_MATCH, tail) := by
    rw [token_lo]
    exact readNibble_emitRest _ _
  have hoffset : (UInt8.ofNat offset).toNat + 256 * (UInt8.ofNat (offset / 256)).toNat = offset := by
    rw [UInt8.toNat_ofNat', UInt8.toNat_ofNat']
    omega
  unfold emitSequence
  simp only [List.cons_append, List.append_assoc]
  rw [decompressFrom]
  split
  · rename_i heq
    rw [hlit] at heq
    cases heq
  · rename_i heq
    rw [hlit] at heq
    cases heq
    rw [if_neg (by rw [List.length_append]; omega), if_neg (by omega)]
    split
    · rename_i htail
      rw [List.drop_left] at htail
      cases htail
    · rename_i htail
      rw [List.drop_left] at htail
      cases htail
    · rename_i htail
      rw [List.drop_left] at htail
      cases htail
      dsimp only
      rw [List.take_left, hoffset, List.length_append, if_neg (by omega)]
      split
      · rename_i heq
        rw [hml] at heq
        cases heq
      · rename_i heq
        rw [hml] at heq
        cases heq
        rw [Nat.sub_add_cancel hmin, if_neg (by omega), hcopy]

/-! ## The round trip -/

/-- The encoder's table names places behind it. -/
def Behind (table : Nat → Option Nat) (p : Nat) : Prop := ∀ h cand, table h = some cand → cand < p

theorem Behind.update {table : Nat → Option Nat} {q : Nat} (hb : Behind table p) (hq : p < q)
    (h : Nat) : Behind (Function.update table h (some p)) q := by
  intro k cand hk
  by_cases hh : k = h
  · rw [hh, Function.update_self] at hk
    cases hk
    exact hq
  · rw [Function.update_of_ne hh] at hk
    exact (hb k cand hk).trans hq

/-- The loop of the encoder from a place on, undone on what stands before the literals. -/
theorem decompressFrom_compressFrom {table : Nat → Option Nat} {anchor : Nat}
    (htable : Behind table p) (hanchor : anchor ≤ p) (hp : p ≤ src.length) :
    decompressFrom src.length (compressFrom src table anchor p) (src.take anchor) = .ok src := by
  fun_induction compressFrom src table anchor p with
  | case1 table anchor p hlimit h table' cand hcand hmatch mlen ih =>
    unfold MFLIMIT at hlimit
    have hbefore : cand < p := htable h cand hcand
    have hmin : MIN_MATCH ≤ mlen := le_matchLength src cand p MIN_MATCH
    have hpos : 0 < mlen := (show 0 < MIN_MATCH by decide).trans_le hmin
    have hagree : Agree src cand p mlen ∧ p + mlen ≤ src.length - LAST_LITERALS := by
      apply matchLength_agrees
      · exact agree_of_le32 hmatch.2 (by omega) (by omega)
      · unfold MIN_MATCH LAST_LITERALS
        omega
    have hend : p + mlen ≤ src.length := hagree.2.trans (Nat.sub_le _ _)
    have hlen : ((src.drop anchor).take (p - anchor)).length = p - anchor := by
      rw [List.length_take, List.length_drop]
      omega
    have hout : (src.take anchor).length = anchor := List.length_take_of_le (by omega)
    have hliterals : src.take anchor ++ (src.drop anchor).take (p - anchor) = src.take p := by
      rw [← List.take_add]
      congr 1
      omega
    have hcopy : copyMatch (p - cand) mlen (src.take anchor ++ (src.drop anchor).take (p - anchor))
        = .ok (src.take (p + mlen)) := by
      rw [hliterals]
      apply copyMatch_take (by omega) (by omega) _ hend
      rw [show p - (p - cand) = cand by omega]
      exact hagree.1
    rw [decompressFrom_sequence (by omega) hmatch.1 (by omega) hmin (by omega) hcopy]
    exact ih (htable.update (by omega) h) le_rfl hend
  | case2 table anchor p hlimit h table' cand hcand hmatch ih =>
    unfold MFLIMIT at hlimit
    exact ih (htable.update (Nat.lt_succ_self p) h) (by omega) (by omega)
  | case3 table anchor p hlimit h table' hnone ih =>
    unfold MFLIMIT at hlimit
    exact ih (htable.update (Nat.lt_succ_self p) h) (by omega) (by omega)
  | case4 table anchor p hlimit =>
    rw [decompressFrom_lastLiterals, List.take_append_drop]
    rw [List.length_take, List.length_drop]
    omega

theorem decompress_compress (src : Bytes) : decompress (compress src) src.length = .ok src :=
  decompressFrom_compressFrom (fun _ _ h => nomatch h) le_rfl (Nat.zero_le _)

/-! ## Any bytes -/

theorem readLength_sound (n : Nat) (rest : Bytes) :
    ∀ e, readLength n rest = .error e → Codec.IsCorrupt e := by
  intro e h
  induction rest generalizing n with
  | nil =>
    cases h
    exact ⟨_, rfl⟩
  | cons b rest ih =>
    rw [readLength] at h
    split at h
    · exact ih _ h
    · cases h

theorem readNibble_sound (n : Nat) (rest : Bytes) :
    ∀ e, readNibble n rest = .error e → Codec.IsCorrupt e := by
  intro e h
  unfold readNibble at h
  split at h
  · exact readLength_sound _ _ e h
  · cases h

/-- A copy from within what is written runs to its end. -/
theorem copyMatch_ok (ml : Nat) (hoff : 0 < offset)
    (hreach : offset ≤ out.length) : ∃ out', copyMatch offset ml out = .ok out' ∧
      out'.length = out.length + ml := by
  induction ml generalizing out with
  | zero => exact ⟨out, rfl, rfl⟩
  | succ ml ih =>
    have hlen : (out ++ [out[out.length - offset]]).length = out.length + 1 := List.length_append
    obtain ⟨out', hcopy, hout'⟩ := ih (by omega : offset ≤ (out ++ [out[out.length - offset]]).length)
    refine ⟨out', ?_, by omega⟩
    rw [copyMatch, List.getElem?_eq_getElem (by omega)]
    exact hcopy

/-- On any bytes the decoder ends with so many bytes as it was told, or reports corrupt data. -/
theorem decompressFrom_sound (rawLen : Nat) (comp out : Bytes) :
    match decompressFrom rawLen comp out with
    | .ok raw => raw.length = rawLen
    | .error e => Codec.IsCorrupt e := by
  fun_induction decompressFrom rawLen comp out with
  | case1 out => exact ⟨_, rfl⟩
  | case2 out token rest e hlit => exact readNibble_sound _ _ _ hlit
  | case3 => exact ⟨_, rfl⟩
  | case4 => exact ⟨_, rfl⟩
  | case5 => assumption
  | case6 => exact ⟨_, rfl⟩
  | case7 => exact ⟨_, rfl⟩
  | case8 => exact ⟨_, rfl⟩
  | case9 _ _ _ _ _ _ _ _ _ _ _ _ _ _ _ e hml => exact readNibble_sound _ _ e hml
  | case10 => exact ⟨_, rfl⟩
  | case11 =>
    rename_i out _ _ _ _ offset hoffset ml _ _ _ e hcopy
    have hpos : 0 < offset := by omega
    obtain ⟨_, hok, _⟩ := copyMatch_ok (ml + MIN_MATCH) hpos (show offset ≤ out.length by omega)
    rw [hok] at hcopy
    cases hcopy
  | case12 => assumption

/-! ## What the decoder holds -/

/-- The outputs the copy of a match goes through, each one byte longer. -/
def copyOutputs (offset : Nat) : (ml : Nat) → (out : Bytes) → List Bytes
  | 0, _ => []
  | ml + 1, out =>
    match out[out.length - offset]? with
    | some b => (out ++ [b]) :: copyOutputs offset ml (out ++ [b])
    | none => []

/-- The outputs `decompress` holds one after another, however it ends: it goes on as
    `decompressFrom` does. -/
def outputsFrom (rawLen : Nat) (comp out : Bytes) : List Bytes :=
  out ::
    match comp with
    | [] => []
    | token :: rest =>
      match _hlit : readNibble (token.toNat / 16) rest with
      | .error _ => []
      | .ok (lit, rest') =>
        if rest'.length < lit then []
        else if rawLen < out.length + lit then []
        else
          let out := out ++ rest'.take lit
          out ::
            match _htail : rest'.drop lit with
            | [] => []
            | [_] => []
            | lo :: hi :: tail =>
              let offset := lo.toNat + 256 * hi.toNat
              if offset = 0 ∨ out.length < offset then []
              else
                match _hml : readNibble (token.toNat % 16) tail with
                | .error _ => []
                | .ok (ml, tail') =>
                  if rawLen < out.length + (ml + MIN_MATCH) then []
                  else
                    copyOutputs offset (ml + MIN_MATCH) out ++
                      match copyMatch offset (ml + MIN_MATCH) out with
                      | .error _ => []
                      | .ok out => outputsFrom rawLen tail' out
termination_by comp.length
decreasing_by
  have h1 := readNibble_le _hlit
  have h2 := readNibble_le _hml
  have h3 := congrArg List.length _htail
  rw [List.length_drop] at h3
  simp only [List.length_cons] at h3 ⊢
  omega

/-- The outputs of `decompress`. -/
def outputs (comp : Bytes) (rawLen : Nat) : List Bytes := outputsFrom rawLen comp []

/-- The capacity `decompress` asks for before it reads anything. -/
def capacity (comp : Bytes) (rawLen : Nat) : Nat := min rawLen (255 * comp.length + 16)

theorem copyOutputs_le (ml : Nat) (out : Bytes) :
    ∀ o ∈ copyOutputs offset ml out, o.length ≤ out.length + ml := by
  induction ml generalizing out with
  | zero =>
    intro o ho
    cases ho
  | succ ml ih =>
    intro o ho
    rw [copyOutputs] at ho
    split at ho
    · rename_i b _
      have hlen : (out ++ [b]).length = out.length + 1 := List.length_append
      cases List.mem_cons.mp ho with
      | inl h =>
        rw [h, hlen]
        omega
      | inr h =>
        have := ih _ o h
        omega
    · cases ho

theorem copyMatch_length (h : copyMatch offset ml out = .ok out') : out'.length = out.length + ml := by
  induction ml generalizing out with
  | zero =>
    cases h
    rfl
  | succ ml ih =>
    rw [copyMatch] at h
    split at h
    · rename_i b _
      have hlen : (out ++ [b]).length = out.length + 1 := List.length_append
      have := ih h
      omega
    · cases h

/-- Nothing the decoder holds on the way is longer than it was told. -/
theorem outputsFrom_le (comp : Bytes) (hout : out.length ≤ rawLen) :
    ∀ o ∈ outputsFrom rawLen comp out, o.length ≤ rawLen := by
  generalize hn : comp.length = n
  induction n using Nat.strong_induction_on generalizing comp out with
  | _ n ih =>
    intro o ho
    rw [outputsFrom.eq_def] at ho
    cases List.mem_cons.mp ho with
    | inl h => rwa [h]
    | inr h =>
      clear ho
      split at h
      · cases h
      · rename_i token rest
        split at h
        · cases h
        · rename_i lit rest' hlit
          split at h
          · cases h
          split at h
          · cases h
          · rename_i hfits
            have hlits : (out ++ rest'.take lit).length ≤ rawLen := by
              rw [List.length_append, List.length_take]
              omega
            dsimp only at h
            cases List.mem_cons.mp h with
            | inl h => rwa [h]
            | inr h =>
              split at h
              · cases h
              · cases h
              · rename_i lo hi tail htail
                split at h
                · cases h
                split at h
                · cases h
                · rename_i ml tail' hml
                  split at h
                  · cases h
                  · rename_i hroom
                    cases List.mem_append.mp h with
                    | inl h =>
                      have := copyOutputs_le _ _ o h
                      omega
                    | inr h =>
                      split at h
                      · cases h
                      · rename_i out' hcopy
                        have hout' := copyMatch_length hcopy
                        have h1 := readNibble_le hlit
                        have h2 := readNibble_le hml
                        have h3 := congrArg List.length htail
                        rw [List.length_drop] at h3
                        simp only [List.length_cons] at h3 hn
                        exact ih tail'.length (by omega) _ (by omega) rfl o h

variable {comp raw : Bytes}

/-- What the decoder answers is one of the outputs it held. -/
theorem mem_outputsFrom (h : decompressFrom rawLen comp out = .ok raw) : raw ∈ outputsFrom rawLen comp out := by
  fun_induction decompressFrom rawLen comp out with
  | case1 | case2 | case3 | case4 | case6 | case7 | case8 | case9 | case10 | case11 => cases h
  | case5 =>
    rename_i hlit hshort hfits out' htail _
    rw [outputsFrom.eq_def]
    refine List.mem_cons_of_mem _ ?_
    dsimp only
    split
    · rename_i hlit'
      rw [hlit] at hlit'
      cases hlit'
    · rename_i hlit'
      rw [hlit] at hlit'
      cases hlit'
      rw [if_neg hshort, if_neg hfits, ← Except.ok.inj h]
      exact List.mem_cons_self
  | case12 =>
    rename_i out token rest lit rest' hlit hshort hfits out' lo hi tail htail offset hoffset ml tail'
      hml hroom out'' hcopy ih
    rw [outputsFrom.eq_def]
    refine List.mem_cons_of_mem _ ?_
    dsimp only
    split
    · rename_i hlit'
      rw [hlit] at hlit'
      cases hlit'
    · rename_i hlit'
      rw [hlit] at hlit'
      cases hlit'
      rw [if_neg hshort, if_neg hfits]
      refine List.mem_cons_of_mem _ ?_
      split
      · rename_i htail'
        rw [htail] at htail'
        cases htail'
      · rename_i htail'
        rw [htail] at htail'
        cases htail'
      · rename_i htail'
        rw [htail] at htail'
        cases htail'
        rw [if_neg hoffset]
        split
        · rename_i hml'
          rw [hml] at hml'
          cases hml'
        · rename_i hml'
          rw [hml] at hml'
          cases hml'
          rw [if_neg hroom, hcopy]
          exact List.mem_append_right _ (ih h)

/-- How a decompression to `n` bytes may end. -/
def EndsWell (c : Bytes) (n : Nat) : Except Failure Bytes → Prop
  | .ok y => y.length = n ∧ y ∈ outputs c n
  | .error e => Codec.IsCorrupt e

/-- The block codec: every text comes back, and on any bytes the decoder, reading nothing out of
    range, ends with as many bytes as it was told or reports corrupt data, and never asks for, nor
    holds, more. -/
theorem block_codec :
    (∀ x : Bytes, decompress (compress x) x.length = .ok x) ∧
      ∀ (c : Bytes) (n : Nat),
        EndsWell c n (decompress c n) ∧ capacity c n ≤ n ∧ ∀ out ∈ outputs c n, out.length ≤ n := by
  refine ⟨decompress_compress, fun c n => ⟨?_, Nat.min_le_left _ _, ?_⟩⟩
  · have hsound := decompressFrom_sound n c []
    unfold decompress
    cases hd : decompressFrom n c [] with
    | ok y =>
      rw [hd] at hsound
      exact ⟨hsound, mem_outputsFrom hd⟩
    | error e =>
      rw [hd] at hsound
      exact hsound
  · exact outputsFrom_le c (Nat.zero_le n)

/-! ## A block is not much shorter than what it is of -/

theorem le_emitLength (n : ℕ) : n < 255 * (emitLength n).length := by
  fun_induction emitLength n with
  | case1 n h ih =>
    rw [List.length_cons]
    omega
  | case2 n h =>
    rw [List.length_singleton]
    omega

theorem le_emitRest (n : ℕ) : n ≤ 255 * (emitRest n).length + 14 := by
  unfold emitRest
  split
  · have := le_emitLength (n - 15)
    omega
  · omega

theorem le_compressFrom (src : Bytes) (table : ℕ → Option ℕ) (anchor p : ℕ) :
    src.length ≤ anchor + 255 * (compressFrom src table anchor p).length := by
  fun_induction compressFrom src table anchor p with
  | case1 table anchor p hroom h table' cand hcand hmatch mlen ih =>
    have hrest := le_emitRest (mlen - MIN_MATCH)
    unfold emitSequence MFLIMIT MIN_MATCH at *
    simp only [List.length_append, List.length_cons, List.length_take, List.length_drop]
    omega
  | case2 table anchor p hroom h table' cand hcand hmatch ih => exact ih
  | case3 table anchor p hroom h table' hcand ih => exact ih
  | case4 table anchor p hroom =>
    unfold emitLastLiterals
    simp only [List.length_append, List.length_cons, List.length_drop]
    omega

theorem le_compress (src : Bytes) : src.length ≤ 255 * (compress src).length := by
  have := le_compressFrom src (fun _ => none) 0 0
  rwa [Nat.zero_add] at this

/-! ## A front of a block -/

theorem readLength_append (h : readLength n rest = .ok (m, rest'))
    (more : Bytes) : readLength n (rest ++ more) = .ok (m, rest' ++ more) := by
  induction rest generalizing n with
  | nil => cases h
  | cons b rest ih =>
    rw [readLength] at h
    rw [List.cons_append, readLength]
    split at h
    · rename_i hb
      rw [if_pos hb]
      exact ih h
    · rename_i hb
      rw [if_neg hb]
      cases h
      rfl

theorem readNibble_append (h : readNibble n rest = .ok (m, rest'))
    (more : Bytes) : readNibble n (rest ++ more) = .ok (m, rest' ++ more) := by
  unfold readNibble at *
  split at h
  · rename_i hn
    rw [if_pos hn]
    exact readLength_append h more
  · rename_i hn
    rw [if_neg hn]
    cases h
    rfl

theorem copyMatch_front (h : copyMatch offset ml out = .ok out') : out <+: out' := by
  induction ml generalizing out with
  | zero =>
    cases h
    exact List.prefix_refl _
  | succ ml ih =>
    rw [copyMatch] at h
    split at h
    · exact (List.prefix_append _ _).trans (ih h)
    · cases h

/-- What is written stays. -/
theorem decompressFrom_extends (h : decompressFrom rawLen comp out = .ok raw) : out <+: raw := by
  fun_induction decompressFrom rawLen comp out with
  | case1 | case2 | case3 | case4 | case6 | case7 | case8 | case9 | case10 | case11 => cases h
  | case5 =>
    rw [← Except.ok.inj h]
    exact List.prefix_append _ _
  | case12 =>
    rename_i hcopy ih
    exact (List.prefix_append _ _).trans ((copyMatch_front hcopy).trans (ih h))

/-- A front of a block, where it is a block itself, holds a front of what the block holds. -/
theorem decompressFrom_front {rawLen' : Nat} {more raw' : Bytes}
    (h : decompressFrom rawLen comp out = .ok raw)
    (h' : decompressFrom rawLen' (comp ++ more) out = .ok raw') : raw <+: raw' := by
  fun_induction decompressFrom rawLen comp out with
  | case1 | case2 | case3 | case4 | case6 | case7 | case8 | case9 | case10 | case11 => cases h
  | case5 =>
    rename_i out token rest lit rest' hlit hshort _ out' htail _
    rw [← Except.ok.inj h]
    have htake : (rest' ++ more).take lit = rest'.take lit := List.take_append_of_le_length (by omega)
    rw [List.cons_append, decompressFrom] at h'
    split at h'
    · cases h'
    · rename_i hlit'
      rw [readNibble_append hlit more] at hlit'
      cases hlit'
      split at h'
      · cases h'
      split at h'
      · cases h'
      rw [htake] at h'
      dsimp only at h'
      split at h'
      · split at h'
        · rw [← Except.ok.inj h']
        · cases h'
      · cases h'
      · split at h'
        · cases h'
        split at h'
        · cases h'
        split at h'
        · cases h'
        split at h'
        · cases h'
        · rename_i hcopy
          exact (copyMatch_front hcopy).trans (decompressFrom_extends h')
  | case12 =>
    rename_i out token rest lit rest' hlit hshort _ out' lo hi tail htail offset _ ml tail' hml _ out'' hcopy
      ih
    have htake : (rest' ++ more).take lit = rest'.take lit := List.take_append_of_le_length (by omega)
    have hdrop : (rest' ++ more).drop lit = lo :: hi :: (tail ++ more) := by
      rw [List.drop_append_of_le_length (by omega), htail]
      rfl
    rw [List.cons_append, decompressFrom] at h'
    split at h'
    · cases h'
    · rename_i hlit'
      rw [readNibble_append hlit more] at hlit'
      cases hlit'
      split at h'
      · cases h'
      split at h'
      · cases h'
      rw [htake] at h'
      dsimp only at h'
      split at h'
      · rename_i htail'
        rw [hdrop] at htail'
        cases htail'
      · rename_i htail'
        rw [hdrop] at htail'
        cases htail'
      · rename_i htail'
        rw [hdrop] at htail'
        cases htail'
        split at h'
        · cases h'
        split at h'
        · cases h'
        · rename_i hml'
          rw [readNibble_append hml more] at hml'
          cases hml'
          split at h'
          · cases h'
          split at h'
          · cases h'
          · rename_i hcopy'
            rw [hcopy] at hcopy'
            cases hcopy'
            exact ih h h'

/-- What a front of a compressed block can be decompressed to. -/
theorem decompress_front (hcomp : comp <+: compress src)
    (h : decompress comp rawLen = .ok raw) : raw <+: src ∧ raw.length = rawLen := by
  obtain ⟨more, hmore⟩ := hcomp
  have hwhole := decompress_compress src
  rw [← hmore] at hwhole
  have hlen := decompressFrom_sound rawLen comp []
  unfold decompress at h hwhole
  rw [h] at hlen
  exact ⟨decompressFrom_front h hwhole, hlen⟩

end Jed.Lz4
