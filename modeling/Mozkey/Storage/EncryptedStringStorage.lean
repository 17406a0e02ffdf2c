import Mozkey.Infra.Bytes

/-!
# Strings in encrypted files

`storage/encrypted_string_storage.cc`, with the padding of `base/encryptor.cc` and the renaming of
`base/file_util.cc`. A new content is written to a temporary file, which then takes the place of the
file. What became of the writes is not looked at.

AES with its key from the password is a parameter, which keeps the length of whole blocks, can be
undone, and is undone from the first block on.

* `save_atomic_iff` — a later `Load` gives what the result of `Save` says if and only if a file that
  was replaced was written as a whole, and is not too big
-/

namespace Mozkey.Storage

open Infra

/-! ## Encrypting -/

def kBlockSize : Nat := 16

/-- `TransformCBC` and `InverseTransformCBC` with the key of a password and a salt. -/
structure BlockCipher where
  transform : Bytes → Bytes → Bytes → Bytes
  inverse : Bytes → Bytes → Bytes → Bytes

structure BlockCipher.Lawful (c : BlockCipher) : Prop where
  inverse_transform : ∀ password salt data, data.length % kBlockSize = 0 →
    c.inverse password salt (c.transform password salt data) = data
  length_transform : ∀ password salt data, data.length % kBlockSize = 0 →
    (c.transform password salt data).length = data.length
  inverse_take : ∀ password salt data blocks, data.length % kBlockSize = 0 →
    c.inverse password salt (data.take (blocks * kBlockSize)) =
      (c.inverse password salt data).take (blocks * kBlockSize)

def getEncryptedSize (size : Nat) : Nat := (size / kBlockSize + 1) * kBlockSize

/-- The bytes that fill the last block. -/
def padding (size : Nat) : Bytes :=
  List.replicate (getEncryptedSize size - size) (UInt8.ofNat (getEncryptedSize size - size))

/-- `Encrypt`, when there is a password. -/
def encrypt (c : BlockCipher) (password salt data : Bytes) : Option Bytes :=
  if password.isEmpty then none
  else if data.isEmpty then none
  else some (c.transform password salt (data ++ padding data.length))

def removePadding (buf : Bytes) : Option Bytes :=
  let paddingValue := (buf.getLast?).getD 0
  let paddingSize := paddingValue.toNat
  if paddingValue = 0 || kBlockSize < paddingSize then none
  else if buf.length ≤ paddingSize then none
  else if (buf.drop (buf.length - paddingSize)).any (· ≠ paddingValue) then none
  else some (buf.take (buf.length - paddingSize))

/-- `Decrypt`, when there is a password. -/
def decrypt (c : BlockCipher) (password salt data : Bytes) : Option Bytes :=
  if password.isEmpty then none
  else if data.isEmpty then none
  else if data.length < kBlockSize || data.length % kBlockSize ≠ 0 then none
  else removePadding (c.inverse password salt data)

/-! ## Loading and saving -/

def kSaltSize : Nat := 32
def kMaxFileSize : Nat := 64 * 1024 * 1024

/-- There is nothing when there is no file, or when `Load` returns false. -/
def load (c : BlockCipher) (password : Bytes) : Option Bytes → Option Bytes
  | none => none
  | some file =>
    if file.length < kSaltSize then none
    else if kMaxFileSize < file.length then none
    else decrypt c password (file.take kSaltSize) (file.drop kSaltSize)

/-- The file and the temporary one. -/
structure Files where
  file : Option Bytes
  tmp : Option Bytes

inductive RenameResult where
  | renamed
  | notRenamed
  /-- On Windows the attributes are set after the file was replaced. -/
  | attributesFailed
  deriving DecidableEq

/-- What becomes of the steps of one `Save`. -/
structure SaveSteps where
  gotPassword : Bool
  salt : Bytes
  salt_length : salt.length = kSaltSize
  opened : Bool
  /-- The number of bytes that reach the temporary file -/
  written : Nat
  rename : RenameResult

/-- What reaches the temporary file of this output. -/
def SaveSteps.tmpFile (steps : SaveSteps) (output : Bytes) : Bytes :=
  (steps.salt ++ output).take steps.written

def save (c : BlockCipher) (password : Bytes) (steps : SaveSteps) (input : Bytes) (files : Files) :
    Bool × Files :=
  if !steps.gotPassword then (false, files)
  else
    match encrypt c password steps.salt input with
    | none => (false, files)
    | some output =>
      if !steps.opened then (false, files)
      else
        let tmp := steps.tmpFile output
        match steps.rename with
        | .renamed => (true, ⟨some tmp, none⟩)
        | .notRenamed => (false, ⟨files.file, some tmp⟩)
        | .attributesFailed => (false, ⟨some tmp, none⟩)

/-! ## Decrypting what was encrypted -/

variable {c : BlockCipher} {password salt data : Bytes}

theorem lt_getEncryptedSize (size : Nat) :
    size < getEncryptedSize size ∧ getEncryptedSize size ≤ size + kBlockSize ∧
      getEncryptedSize size % kBlockSize = 0 := by
  unfold getEncryptedSize kBlockSize
  omega

theorem length_padded (data : Bytes) :
    (data ++ padding data.length).length = getEncryptedSize data.length := by
  have hsize := lt_getEncryptedSize data.length
  simp [padding]
  omega

theorem removePadding_padded (h : data ≠ []) :
    removePadding (data ++ padding data.length) = some data := by
  obtain ⟨hlt, hle, -⟩ := lt_getEncryptedSize data.length
  have hpos := List.length_pos_of_ne_nil h
  have hlen := length_padded data
  unfold kBlockSize at hle
  generalize hsize : getEncryptedSize data.length = size at hlt hle hlen
  have hvalue : (UInt8.ofNat (size - data.length)).toNat = size - data.length := by
    simp
    omega
  have hlast : ((data ++ padding data.length).getLast?).getD 0 =
      UInt8.ofNat (size - data.length) := by
    rw [padding, hsize, List.getLast?_append, List.getLast?_replicate, if_neg (by omega)]
    rfl
  have hsplit : size - (size - data.length) = data.length := by omega
  unfold removePadding
  dsimp only
  rw [hlast, hvalue, hlen, hsplit, List.drop_left, List.take_left]
  rw [if_neg, if_neg (by omega), if_neg]
  · rw [List.any_eq_true]
    rintro ⟨b, hb, hne⟩
    rw [padding, hsize] at hb
    simp [List.eq_of_mem_replicate hb] at hne
  · rw [Bool.or_eq_true, decide_eq_true_eq, decide_eq_true_eq, not_or]
    refine ⟨fun hzero => ?_, ?_⟩
    · simp [hzero] at hvalue
      omega
    · unfold kBlockSize
      omega

variable {output : Bytes}

theorem encrypt_some (h : encrypt c password salt data = some output) :
    password.isEmpty = false ∧ data ≠ [] ∧
      output = c.transform password salt (data ++ padding data.length) := by
  unfold encrypt at h
  split at h
  · cases h
  · next hpassword =>
    split at h
    · cases h
    · next hdata =>
      rw [Bool.not_eq_true] at hpassword
      exact ⟨hpassword, fun hnil => hdata (by rw [hnil]; rfl), (Option.some.inj h).symm⟩

theorem length_encrypt (hc : c.Lawful) (h : encrypt c password salt data = some output) :
    output.length = getEncryptedSize data.length := by
  obtain ⟨-, -, rfl⟩ := encrypt_some h
  rw [hc.length_transform, length_padded]
  rw [length_padded]
  exact (lt_getEncryptedSize _).2.2

/-- **What was encrypted is decrypted.** -/
theorem decrypt_encrypt (hc : c.Lawful) (h : encrypt c password salt data = some output) :
      decrypt c password salt output = some data := by
  have hlen := length_encrypt hc h
  obtain ⟨hpassword, hdata, rfl⟩ := encrypt_some h
  have hsize := lt_getEncryptedSize data.length
  have hblocks : (data ++ padding data.length).length % kBlockSize = 0 := by
    rw [length_padded]
    exact hsize.2.2
  unfold decrypt
  rw [hpassword, if_neg Bool.false_ne_true, if_neg, if_neg, hc.inverse_transform _ _ _ hblocks]
  · exact removePadding_padded hdata
  · rw [hlen, Bool.or_eq_true, decide_eq_true_eq, decide_eq_true_eq, not_or, not_not]
    unfold getEncryptedSize kBlockSize
    omega
  · rw [List.isEmpty_iff]
    intro hnil
    simp [hnil] at hlen
    omega

theorem length_lt_of_removePadding {buf data : Bytes} (h : removePadding buf = some data) :
    data.length < buf.length := by
  unfold removePadding at h
  dsimp only at h
  split at h
  · cases h
  · next hvalue =>
    split at h
    · cases h
    · next hlen =>
      split at h
      · cases h
      · rw [← Option.some.inj h, List.length_take]
        rw [Bool.or_eq_true, decide_eq_true_eq, decide_eq_true_eq, not_or] at hvalue
        have hpos : 0 < ((buf.getLast?).getD 0).toNat := by
          refine Nat.pos_of_ne_zero fun hzero => hvalue.1 (UInt8.toNat_inj.mp ?_)
          simp [hzero]
        omega

/-- Of a part of what was encrypted the same part is deciphered. -/
theorem decrypt_take (hc : c.Lawful) {size : Nat} (h : encrypt c password salt data = some output)
    (hsize : size < getEncryptedSize data.length) :
    decrypt c password salt (output.take size) =
      if size = 0 ∨ size % kBlockSize ≠ 0 then none else removePadding (data.take size) := by
  have hlen := length_encrypt hc h
  obtain ⟨hpassword, -, rfl⟩ := encrypt_some h
  generalize houtput : c.transform password salt (data ++ padding data.length) = output at hlen
  have htake : (output.take size).length = size := by
    simp [hlen]
    omega
  have hpadded := lt_getEncryptedSize data.length
  unfold decrypt
  have hempty : (output.take size).isEmpty = true ↔ size = 0 := by
    rw [List.isEmpty_iff_length_eq_zero, htake]
  rw [hpassword, if_neg Bool.false_ne_true, htake]
  by_cases hzero : size = 0
  · rw [if_pos (hempty.mpr hzero), if_pos (Or.inl hzero)]
  · rw [if_neg (fun h => hzero (hempty.mp h))]
    by_cases hblocks : size % kBlockSize = 0
    · obtain ⟨blocks, hmul⟩ := Nat.dvd_of_mod_eq_zero hblocks
      rw [Nat.mul_comm] at hmul
      have hle : size ≤ data.length := by
        unfold getEncryptedSize kBlockSize at *
        omega
      rw [if_neg, if_neg (by rw [not_or, not_not]; exact ⟨hzero, hblocks⟩), hmul,
        hc.inverse_take _ _ _ _ (by rw [hlen]; exact hpadded.2.2), ← houtput,
        hc.inverse_transform _ _ _ (by rw [length_padded]; exact hpadded.2.2), ← hmul,
        List.take_append_of_le_length hle]
      rw [Bool.or_eq_true, decide_eq_true_eq, decide_eq_true_eq, not_or, not_not]
      unfold kBlockSize at *
      omega
    · rw [if_pos, if_pos (Or.inr hblocks)]
      simpa [decide_eq_true_eq] using Or.inr hblocks

/-! ## What is loaded later -/

variable {steps : SaveSteps} {input : Bytes} {files : Files}

/-- A later `Load` gives what the result of `Save` says. -/
structure SaveIsAtomic (c : BlockCipher) (password : Bytes) (steps : SaveSteps) (input : Bytes)
    (files : Files) : Prop where
  saved : (save c password steps input files).1 = true →
    load c password (save c password steps input files).2.file = some input
  kept : (save c password steps input files).1 = false →
    load c password (save c password steps input files).2.file = load c password files.file

/-- The output and its salt reach the file, which is not too big to be loaded. -/
def SaveSteps.WritesAll (steps : SaveSteps) (input : Bytes) : Prop :=
  kSaltSize + getEncryptedSize input.length ≤ min steps.written kMaxFileSize

/-- What is left of the input in the bytes that reached the file. -/
def SaveSteps.recovered (steps : SaveSteps) (input : Bytes) : Option Bytes :=
  if kMaxFileSize < min steps.written (kSaltSize + getEncryptedSize input.length) then none
  else if kSaltSize + getEncryptedSize input.length ≤ steps.written then some input
  else if steps.written ≤ kSaltSize ∨ (steps.written - kSaltSize) % kBlockSize ≠ 0 then none
  else removePadding (input.take (steps.written - kSaltSize))

theorem load_tmpFile (hc : c.Lawful) (h : encrypt c password steps.salt input = some output) :
    load c password (some (steps.tmpFile output)) = steps.recovered input := by
  have hlen := length_encrypt hc h
  have hsalt := steps.salt_length
  have hall : (steps.salt ++ output).length = kSaltSize + getEncryptedSize input.length := by
    simp [hsalt, hlen]
  have htmp : (steps.tmpFile output).length =
      min steps.written (kSaltSize + getEncryptedSize input.length) := by
    simp [SaveSteps.tmpFile, hall]
  have hpadded := lt_getEncryptedSize input.length
  rw [load, htmp, SaveSteps.recovered]
  by_cases hshort : steps.written < kSaltSize
  · rw [if_pos (by omega), if_neg (by unfold kMaxFileSize kSaltSize at *; omega),
      if_neg (by omega), if_pos (Or.inl (by omega))]
  rw [if_neg (by omega)]
  split
  · rfl
  · split
    · next hwritten =>
      have hfile : steps.tmpFile output = steps.salt ++ output :=
        List.take_of_length_le (by rw [hall]; exact hwritten)
      simpa [hfile, ← hsalt] using decrypt_encrypt hc h
    · next hwritten =>
      have hfile : steps.tmpFile output =
          steps.salt ++ output.take (steps.written - kSaltSize) := by
        rw [SaveSteps.tmpFile, List.take_append, hsalt, List.take_of_length_le (by omega)]
      rw [hfile, ← hsalt, List.take_left, List.drop_left, hsalt, decrypt_take hc h (by omega)]
      exact if_congr (by rw [Nat.sub_eq_zero_iff_le]) rfl rfl

theorem recovered_eq_iff : steps.recovered input = some input ↔ steps.WritesAll input := by
  unfold SaveSteps.WritesAll SaveSteps.recovered
  split
  · exact iff_of_false (by simp) (by omega)
  · split
    · exact iff_of_true rfl (by omega)
    · refine iff_of_false ?_ (by omega)
      split
      · simp
      · intro h
        have hlt := length_lt_of_removePadding h
        rw [List.length_take] at hlt
        omega

/-- Where a step fails before the files are touched. -/
theorem SaveIsAtomic.of_untouched (h : save c password steps input files = (false, files)) :
    SaveIsAtomic c password steps input files := by
  constructor
  · rw [h]
    exact fun hfalse => by cases hfalse
  · rw [h]
    exact fun _ => rfl

/-- **Saving is atomic if and only if every file that takes the place of the old one was written as
a whole.** -/
theorem save_atomic_iff (hc : c.Lawful) : SaveIsAtomic c password steps input files ↔
    (steps.gotPassword = true → steps.opened = true →
      ∀ output, encrypt c password steps.salt input = some output →
        match steps.rename with
        | .renamed => steps.WritesAll input
        | .notRenamed => True
        | .attributesFailed =>
          steps.recovered input = load c password files.file) := by
  cases hpassword : steps.gotPassword with
  | false =>
    refine iff_of_true (.of_untouched ?_) (fun h => by cases h)
    rw [save, hpassword]
    rfl
  | true =>
    cases houtput : encrypt c password steps.salt input with
    | none =>
      refine iff_of_true (.of_untouched ?_) (fun _ _ _ h => by cases h)
      simp [save, hpassword, houtput]
    | some output =>
      cases hopened : steps.opened with
      | false =>
        refine iff_of_true (.of_untouched ?_) (fun _ h => by cases h)
        simp [save, hpassword, houtput, hopened]
      | true =>
        cases hrename : steps.rename with
        | renamed =>
          have hsave : save c password steps input files =
              (true, ⟨some (steps.tmpFile output), none⟩) := by
            simp [save, hpassword, houtput, hopened, hrename]
          have hload : load c password (some (steps.tmpFile output)) = some input ↔
              steps.WritesAll input := by
            rw [load_tmpFile hc houtput, recovered_eq_iff]
          constructor
          · intro h _ _ _ _
            have hsaved := h.saved
            rw [hsave] at hsaved
            exact hload.mp (hsaved rfl)
          · intro h
            constructor
            · rw [hsave]
              exact fun _ => hload.mpr (h rfl rfl output rfl)
            · rw [hsave]
              exact fun hfalse => by cases hfalse
        | notRenamed =>
          have hsave : save c password steps input files =
              (false, ⟨files.file, some (steps.tmpFile output)⟩) := by
            simp [save, hpassword, houtput, hopened, hrename]
          refine iff_of_true ⟨?_, ?_⟩ (fun _ _ _ _ => trivial)
          · rw [hsave]
            exact fun hfalse => by cases hfalse
          · rw [hsave]
            exact fun _ => rfl
        | attributesFailed =>
          have hsave : save c password steps input files =
              (false, ⟨some (steps.tmpFile output), none⟩) := by
            simp [save, hpassword, houtput, hopened, hrename]
          constructor
          · intro h _ _ other hother
            have hkept := h.kept
            rw [hsave] at hkept
            simpa [← load_tmpFile hc houtput] using hkept rfl
          · intro h
            constructor
            · rw [hsave]
              exact fun hfalse => by cases hfalse
            · rw [hsave]
              exact fun _ => (load_tmpFile hc houtput).trans (h rfl rfl output rfl)

/-! ## A file that was cut -/

/-- AES-256 in CBC mode for one block: the letter `a` under a password of 32 letters `p` and a salt
of 32 letters `s`. -/
def oneBlockPlain : Bytes := 0x61 :: List.replicate 15 0x0F

def oneBlockCipher : Bytes :=
  [0x0F, 0x64, 0x69, 0x33, 0x40, 0xF4, 0xA5, 0x49,
    0x87, 0x1D, 0xC9, 0xC0, 0x32, 0x8F, 0x7E, 0x99]

def swapBlock (block : Bytes) : Bytes :=
  if block = oneBlockPlain then oneBlockCipher
  else if block = oneBlockCipher then oneBlockPlain
  else block

def swapFirstBlock (data : Bytes) : Bytes :=
  swapBlock (data.take kBlockSize) ++ data.drop kBlockSize

def oneBlock : BlockCipher where
  transform _ _ := swapFirstBlock
  inverse _ _ := swapFirstBlock

def oneBlockPassword : Bytes := List.replicate 32 0x70

/-- The disk is full after this number of bytes. -/
def writtenSteps (written : Nat) : SaveSteps where
  gotPassword := true
  salt := List.replicate kSaltSize 0x73
  salt_length := List.length_replicate
  opened := true
  written := written
  rename := .renamed

theorem length_swapBlock (block : Bytes) : (swapBlock block).length = block.length := by
  unfold swapBlock
  split
  · next h =>
    rw [h]
    rfl
  · split
    · next h =>
      rw [h]
      rfl
    · rfl

theorem swapBlock_swapBlock (block : Bytes) : swapBlock (swapBlock block) = block := by
  by_cases hplain : block = oneBlockPlain
  · rw [hplain]
    decide
  · by_cases hcipher : block = oneBlockCipher
    · rw [hcipher]
      decide
    · have hsame : swapBlock block = block := by
        simp [swapBlock, hplain, hcipher]
      rw [hsame, hsame]

theorem length_swapFirstBlock (data : Bytes) : (swapFirstBlock data).length = data.length := by
  rw [swapFirstBlock, List.length_append, length_swapBlock, ← List.length_append,
    List.take_append_drop]

theorem swapFirstBlock_swapFirstBlock (data : Bytes) :
    swapFirstBlock (swapFirstBlock data) = data := by
  by_cases hshort : data.length ≤ kBlockSize
  · have hsame : ∀ other : Bytes, other.length ≤ kBlockSize →
        swapFirstBlock other = swapBlock other := by
      intro other h
      simp [swapFirstBlock, List.take_of_length_le h, List.drop_eq_nil_of_le h]
    rw [hsame data hshort, hsame _ (by rw [length_swapBlock]; exact hshort), swapBlock_swapBlock]
  · have hlen : (swapBlock (data.take kBlockSize)).length = kBlockSize := by
      simp [length_swapBlock]
      omega
    simp [swapFirstBlock, List.take_left' hlen, List.drop_left' hlen, swapBlock_swapBlock]

theorem oneBlock_lawful : oneBlock.Lawful where
  inverse_transform _ _ data _ := swapFirstBlock_swapFirstBlock data
  length_transform _ _ data _ := length_swapFirstBlock data
  inverse_take _ _ data blocks hdata := by
    change swapFirstBlock _ = (swapFirstBlock data).take _
    unfold swapFirstBlock
    obtain hnil | hlong : data = [] ∨ kBlockSize ≤ data.length := by
      rw [← List.length_eq_zero_iff]
      unfold kBlockSize at *
      omega
    · rw [hnil, List.take_nil]
      exact List.take_nil.symm
    · obtain rfl | hpos := Nat.eq_zero_or_pos blocks
      · rw [Nat.zero_mul]
        rfl
      · have hle : kBlockSize ≤ blocks * kBlockSize := Nat.le_mul_of_pos_left _ hpos
        have hlen : (swapBlock (data.take kBlockSize)).length = kBlockSize := by
          simp [length_swapBlock]
          omega
        have hall : (swapBlock (data.take kBlockSize)).take (blocks * kBlockSize) =
            swapBlock (data.take kBlockSize) :=
          List.take_of_length_le (by rw [hlen]; exact hle)
        rw [List.take_take, Nat.min_eq_left hle, List.drop_take, List.take_append, hlen, hall]

theorem save_atomic_iff_oneBlock :
    oneBlock.Lawful ∧
      (SaveIsAtomic oneBlock oneBlockPassword (writtenSteps 48) [0x61] ⟨none, none⟩ ↔
        (true = true → true = true →
          ∀ output, encrypt oneBlock oneBlockPassword (writtenSteps 48).salt [0x61] = some output →
            (writtenSteps 48).WritesAll [0x61])) := by
  refine ⟨oneBlock_lawful, ?_⟩
  have h : SaveIsAtomic oneBlock oneBlockPassword (writtenSteps 48) [0x61] ⟨none, none⟩ ↔ _ :=
    save_atomic_iff oneBlock_lawful
  exact h

/-- Eight bytes of the block are missing, and nobody is told. -/
theorem save_not_atomic :
    (save oneBlock oneBlockPassword (writtenSteps 40) [0x61] ⟨none, none⟩).1 = true ∧
      load oneBlock oneBlockPassword
        (save oneBlock oneBlockPassword (writtenSteps 40) [0x61] ⟨none, none⟩).2.file = none ∧
      ¬ SaveIsAtomic oneBlock oneBlockPassword (writtenSteps 40) [0x61] ⟨none, none⟩ := by
  have hsave : (save oneBlock oneBlockPassword (writtenSteps 40) [0x61] ⟨none, none⟩).1 = true := by
    decide
  have hload : load oneBlock oneBlockPassword
      (save oneBlock oneBlockPassword (writtenSteps 40) [0x61] ⟨none, none⟩).2.file = none := by
    decide
  refine ⟨hsave, hload, fun h => ?_⟩
  have hinput := h.saved hsave
  simp [hload] at hinput

/-! ## Saving again and again -/

/-- No save is cut off, or fails behind the replacement of the file. -/
def SaveSteps.Sound (steps : SaveSteps) (input : Bytes) : Prop :=
  steps.rename ≠ .attributesFailed ∧ steps.WritesAll input

end Mozkey.Storage
