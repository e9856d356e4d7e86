import Mathlib.Logic.Function.Basic
import Jed.Lib.Stable
import Jed.Crypto.KeyBlock

/-!
# Encrypted files

The pages of a database file, what a power loss leaves of them, and which credential opens it.
-/

namespace Jed.Crypto

open Stable

/-- A database file: the suite its meta slots declare, and its pages. -/
structure File where
  encrypted : Bool
  pages : ℕ → Cell Content

/-- A page other than the key block. -/
def isDataPage (encrypted : Bool) (n : ℕ) : Bool := !(encrypted && (n == 2 || n == 3))

namespace File

def read (f : File) (n : ℕ) : Content := (f.pages n).current

/-- `write_block`. -/
def write (f : File) (n : ℕ) (x : Content) : File :=
  { f with pages := Function.update f.pages n ((f.pages n).write x) }

/-- `Pager::sync`. -/
def sync (f : File) : File := { f with pages := fun n => (f.pages n).sync }

/-- What a power loss leaves of the file. -/
def pick (f : File) (k : ℕ → ℕ) : File :=
  { f with pages := fun n => .clean ((f.pages n).pick .torn (k n)) }

/-- `Snapshot::write_image` into a new file of `count` pages (`rewrite_file` syncs it). -/
def image (codec : Option PageCodec) (count : ℕ) : File where
  encrypted := codec.isSome
  pages n := .clean <|
    match codec with
    | none => if n < count then .page none else .torn
    | some c =>
      if n = 2 ∨ n = 3 then .keyBlock c.keyBlock
      else if n < count then .page (some c.dek)
      else .torn

end File

/-- `unlock_pager`, of what a read of the file sees. -/
def unlockPager (f : File) (credential : Option Credential) : Except SqlState (Option PageCodec) :=
  match f.encrypted, credential with
  | false, none => .ok none
  | false, some _ => .error .credentialNotApplicable
  | true, none => .error .credentialRequired
  | true, some cred => do
    let codec ← unlock (f.read 2) (f.read 3) cred
    return some codec

/-- The key block, if any, that a file opens by. -/
def Selects (encrypted : Bool) (page2 page3 : Content) (o : Option KeyBlock) : Prop :=
  encrypted = o.isSome ∧ ∀ b ∈ o, selectKeyBlock page2 page3 = .ok b

/-- Every whole page, whatever a power loss leaves of it, is sealed under this key. -/
def File.Sealed (f : File) (dek : Option Bytes) : Prop :=
  ∀ n, isDataPage f.encrypted n = true → ∀ k,
    (f.pages n).pick .torn k = .torn ∨ (f.pages n).pick .torn k = .page dek

/-- The file opens by `o` as it reads now. -/
structure File.Shows (f : File) (o : Option KeyBlock) : Prop where
  selects : Selects f.encrypted (f.read 2) (f.read 3) o
  isSealed : f.Sealed (o.map KeyBlock.dek)

/-- Whatever a power loss leaves of the file opens by one of these. -/
def File.Holds (f : File) (os : List (Option KeyBlock)) : Prop :=
  ∃ dek, f.Sealed dek ∧ ∀ k2 k3, ∃ o ∈ os, o.map KeyBlock.dek = dek ∧
    Selects f.encrypted ((f.pages 2).pick .torn k2) ((f.pages 3).pick .torn k3) o

/-- Nothing of the file is pending. -/
def File.Clean (f : File) : Prop := ∀ n, f.pages n = .clean (f.read n)

/-- The file opens with exactly this credential (none: as plaintext), and the data key this gives is
the one its pages are sealed under. -/
structure OpensBy (f : File) (credential : Option Credential) : Prop where
  exact : ∀ cred, (∃ codec, unlockPager f cred = .ok codec) ↔ cred = credential
  unlocks : ∀ cred codec, unlockPager f cred = .ok codec →
    ∀ n, isDataPage f.encrypted n = true → f.read n = .torn ∨ f.read n = .page (codec.map PageCodec.dek)

variable {o : Option KeyBlock}

theorem selects_unique {e : Bool} {page2 page3 : Content} {o' : Option KeyBlock}
    (h : Selects e page2 page3 o) (h' : Selects e page2 page3 o') : o = o' := by
  cases o with
  | none =>
    cases o' with
    | none => rfl
    | some b' =>
      have := h.1.symm.trans h'.1
      cases this
  | some b =>
    cases o' with
    | none =>
      have := h.1.symm.trans h'.1
      cases this
    | some b' =>
      have := (h.2 b rfl).symm.trans (h'.2 b' rfl)
      cases this
      rfl

@[simp] theorem read_write_self (f : File) (n : ℕ) (x : Content) : (f.write n x).read n = x := by
  simp [File.read, File.write]

variable {n m : ℕ}

theorem read_write_ne (f : File) (h : m ≠ n) (x : Content) : (f.write n x).read m = f.read m := by
  simp [File.read, File.write, h]

@[simp] theorem read_sync (f : File) (n : ℕ) : f.sync.read n = f.read n := rfl

theorem clean_sync (f : File) : f.sync.Clean := fun _ => rfl

variable {os : List (Option KeyBlock)}

theorem Holds_mono {f : File} {os' : List (Option KeyBlock)} (h : f.Holds os)
    (hsub : ∀ o ∈ os, o ∈ os') : f.Holds os' := by
  obtain ⟨dek, hsealed, hkeys⟩ := h
  refine ⟨dek, hsealed, fun k2 k3 => ?_⟩
  obtain ⟨o, ho, hrest⟩ := hkeys k2 k3
  exact ⟨o, hsub o ho, hrest⟩

variable {dek : Option Bytes}

theorem sealed_sync {f : File} (h : f.Sealed dek) : f.sync.Sealed dek := by
  intro n hn k
  obtain ⟨j, hj⟩ := Cell.exists_pick_current .torn (f.pages n)
  have := h n hn j
  rw [hj] at this
  exact this

theorem File.Clean.holds {f : File} (h : f.Clean) (hshows : f.Shows o) :
    f.Holds [o] := by
  refine ⟨_, hshows.isSealed, fun k2 k3 => ⟨o, List.mem_singleton_self o, rfl, ?_⟩⟩
  rw [h 2, h 3]
  exact hshows.selects

theorem shows_sync {f : File} (h : f.Shows o) : f.sync.Shows o :=
  ⟨h.selects, sealed_sync h.isSealed⟩

theorem File.Holds.shows {f : File} (h : f.Holds os) :
    ∃ o ∈ os, f.Shows o := by
  obtain ⟨dek, hsealed, hkeys⟩ := h
  obtain ⟨k2, hk2⟩ := Cell.exists_pick_current .torn (f.pages 2)
  obtain ⟨k3, hk3⟩ := Cell.exists_pick_current .torn (f.pages 3)
  obtain ⟨o, ho, hdek, hselects⟩ := hkeys k2 k3
  rw [hk2, hk3] at hselects
  exact ⟨o, ho, hselects, hdek ▸ hsealed⟩

theorem File.Holds.pick {f : File} (h : f.Holds os) (k : ℕ → ℕ) :
    ∃ o ∈ os, (f.pick k).Shows o := by
  obtain ⟨dek, hsealed, hkeys⟩ := h
  obtain ⟨o, ho, hdek, hselects⟩ := hkeys (k 2) (k 3)
  exact ⟨o, ho, hselects, hdek ▸ fun n hn _ => hsealed n hn (k n)⟩

theorem clean_pick (f : File) (k : ℕ → ℕ) : (f.pick k).Clean := fun _ => rfl

/-- A page written under the file's key leaves what the file holds as it is. -/
theorem sealed_write {f : File} (h : f.Sealed dek) (n : ℕ) :
    (f.write n (.page dek)).Sealed dek := by
  intro m hm k
  by_cases hmn : m = n
  · subst hmn
    have hcell : (f.write m (.page dek)).pages m = (f.pages m).write (.page dek) := by
      simp [File.write]
    rw [hcell]
    rcases Cell.pick_write .torn (f.pages m) (.page dek) k with heq | heq | ⟨j, heq⟩
    · exact .inr heq
    · exact .inl heq
    · rw [heq]
      exact h m hm j
  · have hcell : (f.write n (.page dek)).pages m = f.pages m := by simp [File.write, hmn]
    rw [hcell]
    exact h m hm k

theorem pages_write_ne (f : File) (h : m ≠ n) (x : Content) :
    (f.write n x).pages m = f.pages m := by
  simp [File.write, h]

theorem holds_write {f : File} (h : f.Holds os) (hshows : f.Shows o) (hn : isDataPage f.encrypted n = true) :
    (f.write n (.page (o.map KeyBlock.dek))).Holds os := by
  obtain ⟨dek, hsealed, hkeys⟩ := h
  have hdek : o.map KeyBlock.dek = dek := by
    obtain ⟨k2, hk2⟩ := Cell.exists_pick_current .torn (f.pages 2)
    obtain ⟨k3, hk3⟩ := Cell.exists_pick_current .torn (f.pages 3)
    obtain ⟨o', -, hdek', hselects'⟩ := hkeys k2 k3
    rw [hk2, hk3] at hselects'
    rw [selects_unique hshows.selects hselects', hdek']
  rw [hdek]
  refine ⟨dek, sealed_write hsealed n, fun k2 k3 => ?_⟩
  cases he : f.encrypted with
  | false =>
    obtain ⟨o', ho', hdek', hselects'⟩ := hkeys 0 0
    cases o' with
    | none =>
      refine ⟨none, ho', hdek', he, fun b hb => ?_⟩
      cases hb
    | some b =>
      have := he.symm.trans hselects'.1
      cases this
  | true =>
    simp only [isDataPage, he, Bool.true_and, Bool.not_eq_true', Bool.or_eq_false_iff,
      beq_eq_false_iff_ne] at hn
    rw [pages_write_ne f (Ne.symm hn.1), pages_write_ne f (Ne.symm hn.2)]
    exact hkeys k2 k3

theorem shows_write {f : File} (hshows : f.Shows o)
    (hn : isDataPage f.encrypted n = true) : (f.write n (.page (o.map KeyBlock.dek))).Shows o := by
  refine ⟨?_, sealed_write hshows.isSealed n⟩
  cases he : f.encrypted with
  | false =>
    have hnone := hshows.selects.1
    rw [he] at hnone
    cases o with
    | none =>
      refine ⟨he, fun b hb => ?_⟩
      cases hb
    | some b => cases hnone
  | true =>
    simp only [isDataPage, he, Bool.true_and, Bool.not_eq_true', Bool.or_eq_false_iff,
      beq_eq_false_iff_ne] at hn
    have h := hshows.selects
    rw [read_write_ne f (Ne.symm hn.1), read_write_ne f (Ne.symm hn.2)]
    exact h

/-- A file with nothing pending that opens by `a`, and a block `b` to write over it. -/
structure Changing (f : File) (a b : KeyBlock) : Prop where
  clean : f.Clean
  shows : f.Shows (some a)
  dek : b.dek = a.dek
  newer : a = b ∨ a.generation < b.generation

/-- The page that is written first. -/
def File.first (f : File) : ℕ := unselectedKeyPage (f.read 2) (f.read 3)

/-- A key-block page is not one that is sealed. -/
theorem sealed_write_key {f : File} (he : f.encrypted = true)
    (hn : n = 2 ∨ n = 3) (h : f.Sealed dek) (x : Content) : (f.write n x).Sealed dek := by
  intro m hm k
  have hne : m ≠ n := by
    rintro rfl
    have hm' : isDataPage f.encrypted m = true := hm
    rw [he] at hm'
    rcases hn with rfl | rfl <;> cases hm'
  rw [pages_write_ne f hne]
  exact h m hm k

namespace Changing

variable {f : File} {a b : KeyBlock}

theorem encrypted (h : Changing f a b) : f.encrypted = true := h.shows.selects.1

theorem parse_other (h : Changing f a b) : f.first = 2 ∧ parseKeyBlock (f.read 3) = some a ∨
    f.first = 3 ∧ parseKeyBlock (f.read 2) = some a :=
  parse_selected (h.shows.selects.2 a rfl)

theorem first_key (h : Changing f a b) : f.first = 2 ∨ f.first = 3 :=
  h.parse_other.imp And.left And.left

theorem beats (h : Changing f a b) {x : Content} (hx : parseKeyBlock x = some a) : Beats b x := by
  intro c hc
  rw [hx] at hc
  cases hc
  exact h.newer

/-- While the first copy is written the file opens by the one or the other. -/
theorem holds_first (h : Changing f a b) : (f.write f.first (.keyBlock b)).Holds [some b, some a] := by
  refine ⟨some a.dek, sealed_write_key h.encrypted h.first_key h.shows.isSealed _, fun k2 k3 => ?_⟩
  have hnew : ∀ {p q : Content}, selectKeyBlock p q = .ok b → ∃ o ∈ [some b, some a],
      o.map KeyBlock.dek = some a.dek ∧ Selects f.encrypted p q o := fun hselect =>
    ⟨some b, List.mem_cons_self, by rw [Option.map_some, h.dek], h.encrypted, by
      rintro c ⟨⟩
      exact hselect⟩
  have hold : ∀ {p q : Content}, selectKeyBlock p q = .ok a → ∃ o ∈ [some b, some a],
      o.map KeyBlock.dek = some a.dek ∧ Selects f.encrypted p q o := fun hselect =>
    ⟨some a, by simp, rfl, h.encrypted, by
      rintro c ⟨⟩
      exact hselect⟩
  have hselect := h.shows.selects.2 a rfl
  rcases h.parse_other with ⟨hfirst, hother⟩ | ⟨hfirst, hother⟩
  · have h3 : (f.write 2 (.keyBlock b)).pages 3 = .clean (f.read 3) := by
      rw [pages_write_ne f (by decide), h.clean 3]
    have h2 : (f.write 2 (.keyBlock b)).pages 2 = (Cell.clean (f.read 2)).write (.keyBlock b) := by
      rw [← h.clean 2]
      simp [File.write]
    rw [hfirst, h2, h3, Cell.pick_clean]
    rcases Cell.pick_write .torn (.clean (f.read 2)) (.keyBlock b) k2 with heq | heq | ⟨j, heq⟩
    · rw [heq]
      exact hnew (select_two rfl (h.beats hother))
    · rw [heq]
      exact hold (select_three hother (beats_torn a))
    · rw [heq]
      exact hold hselect
  · have h2 : (f.write 3 (.keyBlock b)).pages 2 = .clean (f.read 2) := by
      rw [pages_write_ne f (by decide), h.clean 2]
    have h3 : (f.write 3 (.keyBlock b)).pages 3 = (Cell.clean (f.read 3)).write (.keyBlock b) := by
      rw [← h.clean 3]
      simp [File.write]
    rw [hfirst, h2, h3, Cell.pick_clean]
    rcases Cell.pick_write .torn (.clean (f.read 3)) (.keyBlock b) k3 with heq | heq | ⟨j, heq⟩
    · rw [heq]
      exact hnew (select_three rfl (h.beats hother))
    · rw [heq]
      exact hold (select_two hother (beats_torn a))
    · rw [heq]
      exact hold hselect

/-- The file once the first copy is durable. -/
theorem shows_first (h : Changing f a b) : (f.write f.first (.keyBlock b)).sync.Shows (some b) := by
  have hsealed := sealed_sync (sealed_write_key h.encrypted h.first_key h.shows.isSealed (.keyBlock b))
  refine ⟨⟨h.encrypted, ?_⟩, ?_⟩
  · rintro c ⟨⟩
    rcases h.parse_other with ⟨hfirst, hother⟩ | ⟨hfirst, hother⟩
    · rw [hfirst, read_sync, read_sync, read_write_self, read_write_ne f (by decide)]
      exact select_two rfl (h.beats hother)
    · rw [hfirst, read_sync, read_sync, read_write_self, read_write_ne f (by decide)]
      exact select_three rfl (h.beats hother)
  · rw [Option.map_some, h.dek]
    exact hsealed

/-- While the second copy is written the file opens by the new block. -/
theorem holds_other (h : Changing f a b) :
    ((f.write f.first (.keyBlock b)).sync.write (5 - f.first) (.keyBlock b)).Holds [some b] := by
  have hkey : 5 - f.first = 2 ∨ 5 - f.first = 3 := by
    rcases h.first_key with heq | heq <;> simp [heq]
  refine ⟨some b.dek, sealed_write_key (f := (f.write f.first (.keyBlock b)).sync) h.encrypted hkey
    h.shows_first.isSealed _, fun k2 k3 => ?_⟩
  refine ⟨some b, List.mem_singleton_self _, rfl, h.encrypted, ?_⟩
  rintro c ⟨⟩
  have hbeats : ∀ {x y : Content}, parseKeyBlock x = some a → ∀ k,
      y = ((Cell.clean x).write (.keyBlock b)).pick .torn k → Beats b y := by
    rintro x y hx k rfl
    rcases Cell.pick_write .torn (.clean x) (.keyBlock b) k with heq | heq | ⟨j, heq⟩
    · rw [heq]
      exact beats_keyBlock (.inl rfl)
    · rw [heq]
      exact beats_torn b
    · rw [heq]
      exact h.beats hx
  rcases h.parse_other with ⟨hfirst, hother⟩ | ⟨hfirst, hother⟩
  · rw [hfirst]
    have h2 : ((f.write 2 (.keyBlock b)).sync.write (5 - 2) (.keyBlock b)).pages 2 =
        .clean (.keyBlock b) := by
      rw [pages_write_ne _ (by decide)]
      simp [File.sync, File.write, Cell.sync]
    have h3 : ((f.write 2 (.keyBlock b)).sync.write (5 - 2) (.keyBlock b)).pages 3 =
        (Cell.clean (f.read 3)).write (.keyBlock b) := by
      simp [File.sync, File.write, Cell.sync, File.read]
    rw [h2, h3]
    exact select_two rfl (hbeats hother k3 rfl)
  · rw [hfirst]
    have h3 : ((f.write 3 (.keyBlock b)).sync.write (5 - 3) (.keyBlock b)).pages 3 =
        .clean (.keyBlock b) := by
      rw [pages_write_ne _ (by decide)]
      simp [File.sync, File.write, Cell.sync]
    have h2 : ((f.write 3 (.keyBlock b)).sync.write (5 - 3) (.keyBlock b)).pages 2 =
        (Cell.clean (f.read 2)).write (.keyBlock b) := by
      simp [File.sync, File.write, Cell.sync, File.read]
    rw [h2, h3]
    exact select_three rfl (hbeats hother k2 rfl)

end Changing

theorem clean_image (codec : Option PageCodec) (count : ℕ) : (File.image codec count).Clean :=
  fun _ => rfl

/-- A new file opens by its codec's block. -/
theorem shows_image {codec : Option PageCodec} (h : ∀ c ∈ codec, c.keyBlock.dek = c.dek) (count : ℕ) :
    (File.image codec count).Shows (codec.map PageCodec.keyBlock) := by
  cases codec with
  | none =>
    refine ⟨⟨rfl, fun b hb => ?_⟩, fun n _ k => ?_⟩
    · cases hb
    · simp only [File.image, Cell.pick_clean]
      split
      · exact .inr rfl
      · exact .inl rfl
  | some c =>
    refine ⟨⟨rfl, ?_⟩, fun n hn k => ?_⟩
    · rintro b ⟨⟩
      exact select_two rfl (beats_keyBlock (.inl rfl))
    · have hkey : ¬ (n = 2 ∨ n = 3) := by
        rintro (rfl | rfl) <;> cases hn
      simp only [File.image, Cell.pick_clean, if_neg hkey]
      split
      · rw [Option.map_some, Option.map_some, h c rfl]
        exact .inr rfl
      · exact .inl rfl

/-- A file opens by the credential of the block it shows, to the key its pages are sealed under. -/
theorem File.Shows.opensBy {f : File} (h : f.Shows o) :
    OpensBy f (o.map KeyBlock.credential) := by
  have hsealed : ∀ n, isDataPage f.encrypted n = true →
      f.read n = .torn ∨ f.read n = .page (o.map KeyBlock.dek) := by
    intro n hn
    obtain ⟨k, hk⟩ := Cell.exists_pick_current .torn (f.pages n)
    have := h.isSealed n hn k
    rwa [hk] at this
  have hselects := h.selects
  cases o with
  | none =>
    have he : f.encrypted = false := hselects.1
    refine ⟨fun cred => ?_, fun cred codec hopen => ?_⟩
    · cases cred <;> simp [unlockPager, he]
    · cases cred with
      | none =>
        simp only [unlockPager, he, Except.ok.injEq] at hopen
        subst hopen
        exact hsealed
      | some cred => simp [unlockPager, he] at hopen
  | some b =>
    have he : f.encrypted = true := hselects.1
    have hselect := hselects.2 b rfl
    refine ⟨fun cred => ?_, fun cred codec hopen => ?_⟩
    · cases cred with
      | none => simp [unlockPager, he]
      | some cred =>
        by_cases hcred : cred = b.credential <;>
          simp [unlockPager, he, unlock, hselect, hcred, bind, Except.bind, pure, Except.pure]
    · cases cred with
      | none => simp [unlockPager, he] at hopen
      | some cred =>
        by_cases hcred : cred = b.credential
        · simp only [unlockPager, he, unlock, hselect, hcred, bind, Except.bind, pure, Except.pure,
            if_true, Except.ok.injEq] at hopen
          subst hopen
          exact hsealed
        · simp [unlockPager, he, unlock, hselect, hcred, bind, Except.bind] at hopen

end Jed.Crypto
