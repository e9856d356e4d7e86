import Jed.Value.Value

/-!
# Key blocks

The key block of an encrypted file (`crypto.rs`), its primitives ideal: the CRC tells a copy from
anything else a page may hold, and a copy gives its data key to the credential it is wrapped for
and to no other.
-/

namespace Jed.Crypto

/-- `Credential`. -/
inductive Credential where
  | passphrase (p : Bytes)
  | key (k : Bytes)
  deriving DecidableEq

/-- `Argon2Params`. -/
structure Argon2Params where
  memoryKib : ℕ
  iterations : ℕ
  parallelism : ℕ
  deriving DecidableEq

/-- `Argon2Params::valid`. -/
def Argon2Params.valid (p : Argon2Params) : Bool :=
  decide (1 ≤ p.parallelism ∧ p.parallelism ≤ 16 ∧ 1 ≤ p.iterations ∧ p.iterations ≤ 16 ∧
    8 * p.parallelism ≤ p.memoryKib ∧ p.memoryKib ≤ 2 ^ 20)

/-- A key-block copy: the KDF salt and the wrap nonce are the bytes drawn for it. -/
structure KeyBlock where
  generation : UInt64
  credential : Credential
  params : Option Argon2Params
  drawn : Bytes
  dek : Bytes
  deriving DecidableEq

/-- What a page holds: nothing whole, a key block, or a body or meta page sealed under a data key
(none: plaintext). -/
inductive Content where
  | torn
  | keyBlock (b : KeyBlock)
  | page (dek : Option Bytes)
  deriving DecidableEq

/-- `wrap_key_block`. -/
def wrapKeyBlock (dek : Bytes) (generation : UInt64) (cred : Credential) (params : Argon2Params)
    (drawn : Bytes) : Except SqlState KeyBlock :=
  match cred with
  | .passphrase _ =>
    if params.valid then .ok ⟨generation, cred, some params, drawn, dek⟩
    else .error .invalidParameterValue
  | .key _ => .ok ⟨generation, cred, none, drawn, dek⟩

/-- `PageCodec`: the data key and the selected copy. -/
structure PageCodec where
  dek : Bytes
  keyBlock : KeyBlock
  deriving DecidableEq

/-- `create`, with the bytes it draws. -/
def create (cred : Credential) (params : Argon2Params) (dek drawn : Bytes) :
    Except SqlState PageCodec := do
  let block ← wrapKeyBlock dek 1 cred params drawn
  return ⟨dek, block⟩

/-- `PageCodec::rewrap`. -/
def PageCodec.rewrap (c : PageCodec) (cred : Credential) (params : Argon2Params) (drawn : Bytes) :
    Except SqlState KeyBlock :=
  if c.keyBlock.generation = .ofNat (2 ^ 64 - 1) then .error .dataCorrupted
  else wrapKeyBlock c.dek (c.keyBlock.generation + 1) cred params drawn

/-- `PageCodec::follows`. -/
def PageCodec.follows (c : PageCodec) (block : KeyBlock) : Bool :=
  block.generation == c.keyBlock.generation + 1

/-- `parse_key_block`. -/
def parseKeyBlock : Content → Option KeyBlock
  | .keyBlock b => some b
  | _ => none

/-- `select_key_block`. -/
def selectKeyBlock (page2 page3 : Content) : Except SqlState KeyBlock :=
  match parseKeyBlock page2, parseKeyBlock page3 with
  | none, none => .error .dataCorrupted
  | some b, none => .ok b
  | none, some b => .ok b
  | some a, some b =>
    if a.generation = b.generation ∧ a ≠ b then .error .dataCorrupted
    else if b.generation > a.generation then .ok b
    else .ok a

/-- `unselected_key_page`. -/
def unselectedKeyPage (page2 page3 : Content) : ℕ :=
  match parseKeyBlock page2, parseKeyBlock page3 with
  | some a, some b => if b.generation > a.generation then 2 else 3
  | none, some _ => 2
  | _, _ => 3

/-- `unlock`. -/
def unlock (page2 page3 : Content) (cred : Credential) : Except SqlState PageCodec := do
  let block ← selectKeyBlock page2 page3
  if cred = block.credential then .ok ⟨block.dek, block⟩ else .error .invalidPassword

variable {page2 page3 : Content} {a : KeyBlock}

/-- The copy that is written second is the selected one. -/
theorem parse_selected (h : selectKeyBlock page2 page3 = .ok a) :
    unselectedKeyPage page2 page3 = 2 ∧ parseKeyBlock page3 = some a ∨
      unselectedKeyPage page2 page3 = 3 ∧ parseKeyBlock page2 = some a := by
  unfold selectKeyBlock at h
  unfold unselectedKeyPage
  cases h2 : parseKeyBlock page2 with
  | none =>
    cases h3 : parseKeyBlock page3 with
    | none =>
      rw [h2, h3] at h
      cases h
    | some b =>
      rw [h2, h3] at h
      cases h
      exact .inl ⟨rfl, rfl⟩
  | some b2 =>
    cases h3 : parseKeyBlock page3 with
    | none =>
      rw [h2, h3] at h
      cases h
      exact .inr ⟨rfl, rfl⟩
    | some b3 =>
      rw [h2, h3] at h
      dsimp only at h ⊢
      split at h
      · cases h
      · split at h
        · rename_i hnewer
          cases h
          exact .inl ⟨if_pos hnewer, rfl⟩
        · rename_i hnewer
          cases h
          exact .inr ⟨if_neg hnewer, rfl⟩

/-- A copy beside one that is no copy, an older one or its like is selected. -/
def Beats (b : KeyBlock) (other : Content) : Prop :=
  ∀ a ∈ parseKeyBlock other, a = b ∨ a.generation < b.generation

variable {b : KeyBlock}

theorem select_two (h : parseKeyBlock page2 = some b)
    (hother : Beats b page3) : selectKeyBlock page2 page3 = .ok b := by
  unfold selectKeyBlock
  rw [h]
  cases h3 : parseKeyBlock page3 with
  | none => rfl
  | some a =>
    dsimp only
    rcases hother a h3 with rfl | hless
    · rw [if_neg (by simp), if_neg (UInt64.lt_irrefl _)]
    · rw [if_neg (fun hsame => UInt64.ne_of_lt hless hsame.1.symm), if_neg (UInt64.lt_asymm hless)]

theorem select_three (h : parseKeyBlock page3 = some b)
    (hother : Beats b page2) : selectKeyBlock page2 page3 = .ok b := by
  unfold selectKeyBlock
  rw [h]
  cases h2 : parseKeyBlock page2 with
  | none => rfl
  | some a =>
    dsimp only
    rcases hother a h2 with rfl | hless
    · rw [if_neg (by simp), if_neg (UInt64.lt_irrefl _)]
    · rw [if_neg (fun hsame => UInt64.ne_of_lt hless hsame.1), if_pos hless]

theorem beats_torn (b : KeyBlock) : Beats b .torn := by
  intro a ha
  cases ha

theorem beats_keyBlock (h : a = b ∨ a.generation < b.generation) :
    Beats b (.keyBlock a) := by
  intro c hc
  cases hc
  exact h

end Jed.Crypto
