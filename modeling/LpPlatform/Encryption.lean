import LpPlatform.Base64
import LpPlatform.JsValues

/-!
# Secrets at rest

A secret is encrypted under a key that scrypt derives from a passphrase and a
fresh salt. What is stored is a frame in base 64: a version byte, the salt, the
iv, the tag and the ciphertext, told apart by their lengths. So decryption finds
the parts that encryption has written, and every byte of a frame is either the
version or a byte of one part.
-/

namespace LpPlatform.Encryption

open Base64 JsValues

/-- `VERSION`. -/
def VERSION : Byte := 1

/-- `SALT_LEN`. -/
def SALT_LEN : ℕ := 16

/-- `IV_LEN`. -/
def IV_LEN : ℕ := 12

/-- `TAG_LEN`. -/
def TAG_LEN : ℕ := 16

/-- The parts of the platform's cryptography that are used here. -/
structure Cipher where
  /-- `scryptSync`: the key of a passphrase and a salt. -/
  scryptSync : String → List Byte → List Byte
  /-- AES-256-GCM by a key and an iv: the ciphertext and its tag. -/
  cipheriv : List Byte → List Byte → List Byte → List Byte × Bytes TAG_LEN
  /-- The plaintext by a key, an iv and a tag, unless `final` throws. -/
  decipheriv : List Byte → List Byte → List Byte → List Byte → Option (List Byte)
  /-- The text of bytes that are not UTF-8, with replacement characters. -/
  replaced : List Byte → String
  /-- With the same key, iv and tag the plaintext comes back. -/
  decipheriv_cipheriv : ∀ key iv plain,
    decipheriv key iv (cipheriv key iv plain).2 (cipheriv key iv plain).1 = some plain

/-- A text in UTF-8. -/
def utf8Bytes (text : String) : List Byte :=
  text.toUTF8.data.toList.map fun byte => ⟨byte.toNat, byte.toNat_lt⟩

/-- `toString('utf8')`. -/
def utf8Text (C : Cipher) (bytes : List Byte) : String :=
  (String.fromUTF8? ⟨(bytes.map fun byte => UInt8.ofNat byte.val).toArray⟩).getD (C.replaced bytes)

/-- `deriveKey`. -/
def deriveKey (C : Cipher) (passphrase : String) (salt : List Byte) : List Byte := C.scryptSync passphrase salt

/-- `encrypt`, with the salt and the iv that it draws. -/
def encrypt (C : Cipher) (plaintext passphrase : String) (salt : Bytes SALT_LEN) (iv : Bytes IV_LEN) :
    Except Failure String :=
  if passphrase = "" then .error (.typeError "encrypt: passphrase must be non-empty")
  else
    let key := deriveKey C passphrase salt
    let (enc, tag) := C.cipheriv key iv (utf8Bytes plaintext)
    let out := [VERSION] ++ salt ++ iv ++ tag ++ enc
    .ok (String.ofList (Base64.encode .standard out))

/-- `subarray`. -/
def subarray (buf : List Byte) (start stop : ℕ) : List Byte := (buf.take stop).drop start

/-- `decrypt`. -/
def decrypt (C : Cipher) (payload passphrase : String) : Except Failure String :=
  if passphrase = "" then .error (.typeError "decrypt: passphrase must be non-empty")
  else
    let buf := Base64.decode payload.toList
    if buf.length < 1 + SALT_LEN + IV_LEN + TAG_LEN then .error (.typeError "decrypt: payload too short")
    else
      let version := buf.headD 0
      if version ≠ VERSION then .error (.typeError s!"decrypt: unsupported version {version}")
      else
        let offset := 1
        let salt := subarray buf offset (offset + SALT_LEN)
        let offset := offset + SALT_LEN
        let iv := subarray buf offset (offset + IV_LEN)
        let offset := offset + IV_LEN
        let tag := subarray buf offset (offset + TAG_LEN)
        let offset := offset + TAG_LEN
        let enc := buf.drop offset
        let key := deriveKey C passphrase salt
        match C.decipheriv key iv tag enc with
        | some dec => .ok (utf8Text C dec)
        | none => .error (.error "Unsupported state or unable to authenticate data")

/-- An exception is thrown. -/
def Throws {α : Type} (r : Except Failure α) : Prop := ∃ e, r = .error e

/-- The cryptography is ideal at a ciphertext and its tag: another salt gives
another key, and with another key, iv, tag or ciphertext nothing is opened. -/
structure Ideal (C : Cipher) (passphrase : String) (salt iv tag enc : List Byte) : Prop where
  otherSalt : ∀ other, other.length = SALT_LEN → other ≠ salt → deriveKey C passphrase other ≠ deriveKey C passphrase salt
  otherKey : ∀ other, other ≠ deriveKey C passphrase salt → C.decipheriv other iv tag enc = none
  otherIv : ∀ other, other.length = IV_LEN → other ≠ iv →
    C.decipheriv (deriveKey C passphrase salt) other tag enc = none
  otherTag : ∀ other, other.length = TAG_LEN → other ≠ tag →
    C.decipheriv (deriveKey C passphrase salt) iv other enc = none
  otherText : ∀ other, other.length = enc.length → other ≠ enc →
    C.decipheriv (deriveKey C passphrase salt) iv tag other = none

/-- The bytes of a payload with one of them changed. -/
structure Changed (payload other : String) : Prop where
  byte : ∃ index new, ∃ h : index < (Base64.decode payload.toList).length,
    (Base64.decode payload.toList)[index] ≠ new ∧
    Base64.decode other.toList = (Base64.decode payload.toList).set index new

section Frames

variable {C : Cipher} {passphrase : String}

/-- A text is read back from its bytes. -/
theorem utf8Text_utf8Bytes (C : Cipher) (text : String) : utf8Text C (utf8Bytes text) = text := by
  have hbytes : (utf8Bytes text).map (fun byte => UInt8.ofNat byte.val) = text.toUTF8.data.toList := by
    rw [utf8Bytes, List.map_map]
    conv_rhs => rw [← List.map_id text.toUTF8.data.toList]
    exact List.map_congr_left fun byte _ => UInt8.ofNat_toNat
  have hvalid : text.toUTF8.IsValidUTF8 := text.isValidUTF8
  have hread : String.fromUTF8? text.toUTF8 = some text := by
    rw [String.fromUTF8?, dif_pos hvalid]
    rfl
  rw [utf8Text, hbytes]
  exact congrArg (fun read => read.getD (C.replaced (utf8Bytes text))) hread

/-- The bytes after a front, up to a length. -/
theorem subarray_append {front part back : List Byte} {start stop : ℕ} (hstart : front.length = start)
    (hstop : start + part.length = stop) : subarray (front ++ (part ++ back)) start stop = part := by
  rw [subarray, ← hstop, ← hstart, List.take_length_add_append, List.drop_left, List.take_left]

/-- What decryption does with the parts of a frame. -/
theorem decrypt_frame {payload : String} {version : Byte} {salt iv tag enc : List Byte}
    (hpassphrase : passphrase ≠ "") (hsalt : salt.length = SALT_LEN) (hiv : iv.length = IV_LEN)
    (htag : tag.length = TAG_LEN)
    (h : Base64.decode payload.toList = [version] ++ salt ++ iv ++ tag ++ enc) :
    decrypt C payload passphrase =
      if version ≠ VERSION then .error (.typeError s!"decrypt: unsupported version {version}")
      else match C.decipheriv (deriveKey C passphrase salt) iv tag enc with
        | some dec => .ok (utf8Text C dec)
        | none => .error (.error "Unsupported state or unable to authenticate data") := by
  generalize hbuf : [version] ++ salt ++ iv ++ tag ++ enc = buf at h
  have hlong : ¬ buf.length < 1 + SALT_LEN + IV_LEN + TAG_LEN := by
    simp only [← hbuf, List.length_append, List.length_singleton, hsalt, hiv, htag]
    omega
  have hhead : buf.headD 0 = version := by
    rw [← hbuf]
    rfl
  have hsalt' : subarray buf 1 (1 + SALT_LEN) = salt := by
    rw [← hbuf, List.append_assoc, List.append_assoc, List.append_assoc]
    exact subarray_append rfl (by rw [hsalt])
  have hiv' : subarray buf (1 + SALT_LEN) (1 + SALT_LEN + IV_LEN) = iv := by
    rw [← hbuf, List.append_assoc, List.append_assoc]
    exact subarray_append (by simp [hsalt]; omega) (by rw [hiv])
  have htag' : subarray buf (1 + SALT_LEN + IV_LEN) (1 + SALT_LEN + IV_LEN + TAG_LEN) = tag := by
    rw [← hbuf, List.append_assoc]
    exact subarray_append (by simp [hsalt, hiv]; omega) (by rw [htag])
  have henc' : buf.drop (1 + SALT_LEN + IV_LEN + TAG_LEN) = enc := by
    rw [← hbuf]
    exact List.drop_left' (by simp [hsalt, hiv, htag]; omega)
  rw [decrypt, if_neg hpassphrase]
  simp only [h, if_neg hlong, hhead, hsalt', hiv', htag', henc']

/-- A list with a byte changed is another list of the same length. -/
theorem set_ne {bytes : List Byte} {index : ℕ} {new : Byte} (h : index < bytes.length)
    (hne : bytes[index] ≠ new) : bytes.set index new ≠ bytes := by
  intro heq
  have hlength : index < (bytes.set index new).length := by
    rw [heq]
    exact h
  have hget : (bytes.set index new)[index] = new := List.getElem_set_self _
  exact hne (by simpa [heq] using hget)

/-- A byte that is changed in two lists is changed in one of them. -/
theorem set_append_cases {front back : List Byte} {index : ℕ} {new : Byte}
    (h : index < (front ++ back).length) (hne : (front ++ back)[index] ≠ new) :
    (∃ front', front'.length = front.length ∧ front' ≠ front ∧
      (front ++ back).set index new = front' ++ back) ∨
    ∃ place, ∃ hplace : place < back.length, back[place] ≠ new ∧
      (front ++ back).set index new = front ++ back.set place new := by
  rcases Nat.lt_or_ge index front.length with hfront | hback
  · rw [List.getElem_append_left hfront] at hne
    exact .inl ⟨front.set index new, by simp, set_ne hfront hne, List.set_append_left _ _ hfront⟩
  · rw [List.length_append] at h
    rw [List.getElem_append_right hback] at hne
    exact .inr ⟨index - front.length, by omega, hne, List.set_append_right _ _ hback⟩

/-- A frame with one byte changed is not decrypted. -/
theorem decrypt_changed {payload other : String} {salt iv tag enc : List Byte} (hpassphrase : passphrase ≠ "")
    (hsalt : salt.length = SALT_LEN) (hiv : iv.length = IV_LEN) (htag : tag.length = TAG_LEN)
    (hideal : Ideal C passphrase salt iv tag enc)
    (hpayload : Base64.decode payload.toList = [VERSION] ++ (salt ++ (iv ++ (tag ++ enc))))
    (h : Changed payload other) : Throws (decrypt C other passphrase) := by
  -- a frame that is not opened is rejected
  have hclosed : ∀ {salt' iv' tag' enc' : List Byte}, salt'.length = SALT_LEN → iv'.length = IV_LEN →
      tag'.length = TAG_LEN → C.decipheriv (deriveKey C passphrase salt') iv' tag' enc' = none →
      Base64.decode other.toList = [VERSION] ++ (salt' ++ (iv' ++ (tag' ++ enc'))) →
      Throws (decrypt C other passphrase) := by
    intro salt' iv' tag' enc' hsalt' hiv' htag' hnone hother
    rw [decrypt_frame hpassphrase hsalt' hiv' htag' (by simpa using hother), hnone]
    exact ⟨_, rfl⟩
  obtain ⟨index, new, hindex, hne, hset⟩ := h.byte
  simp only [hpayload] at hindex hne hset
  rcases set_append_cases hindex hne with ⟨version, hlength, hversion, hother⟩ | ⟨place, hplace, hne, hother⟩
  · -- the version
    obtain ⟨byte, rfl⟩ := List.length_eq_one_iff.mp hlength
    have hbyte : byte ≠ VERSION := fun heq => hversion (by rw [heq])
    rw [hother] at hset
    rw [decrypt_frame hpassphrase hsalt hiv htag (by simpa using hset), if_pos hbyte]
    exact ⟨_, rfl⟩
  rw [hother] at hset
  rcases set_append_cases hplace hne with ⟨salt', hlength, hchanged, hother⟩ | ⟨place, hplace, hne, hother⟩
  · -- the salt
    rw [hother] at hset
    have hkey := hideal.otherSalt salt' (hlength.trans hsalt) hchanged
    exact hclosed (hlength.trans hsalt) hiv htag (hideal.otherKey _ hkey) hset
  rw [hother] at hset
  rcases set_append_cases hplace hne with ⟨iv', hlength, hchanged, hother⟩ | ⟨place, hplace, hne, hother⟩
  · -- the iv
    rw [hother] at hset
    exact hclosed hsalt (hlength.trans hiv) htag (hideal.otherIv iv' (hlength.trans hiv) hchanged) hset
  rw [hother] at hset
  rcases set_append_cases hplace hne with ⟨tag', hlength, hchanged, hother⟩ | ⟨place, hplace, hne, hother⟩
  · -- the tag
    rw [hother] at hset
    exact hclosed hsalt hiv (hlength.trans htag) (hideal.otherTag tag' (hlength.trans htag) hchanged) hset
  · -- the ciphertext
    rw [hother] at hset
    exact hclosed hsalt hiv htag
      (hideal.otherText _ (by simp) (set_ne hplace hne)) hset

end Frames

section Encrypting

variable {C : Cipher} {passphrase : String}

/-- The frame that an encryption has written. -/
theorem encrypt_frame (hpassphrase : passphrase ≠ "") (plaintext : String) (salt : Bytes SALT_LEN)
    (iv : Bytes IV_LEN) : ∃ payload, encrypt C plaintext passphrase salt iv = .ok payload ∧
      Base64.decode payload.toList = [VERSION] ++ salt.val ++ iv.val ++
        (C.cipheriv (deriveKey C passphrase salt) iv (utf8Bytes plaintext)).2.val ++
        (C.cipheriv (deriveKey C passphrase salt) iv (utf8Bytes plaintext)).1 := by
  refine ⟨_, if_neg hpassphrase, ?_⟩
  rw [String.toList_ofList]
  exact Base64.decode_encode .standard _

/-- What is not a frame of this version is not decrypted, under any
passphrase. -/
theorem decrypt_malformed (C : Cipher) {payload : String} (passphrase : String)
    (h : (Base64.decode payload.toList).length < 45 ∨ (Base64.decode payload.toList).headD 0 ≠ VERSION) :
    Throws (decrypt C payload passphrase) := by
  unfold decrypt
  split
  · exact ⟨_, rfl⟩
  · dsimp only
    split
    · exact ⟨_, rfl⟩
    · rename_i hlong
      rcases h with hshort | hversion
      · exact absurd hshort hlong
      · rw [if_pos hversion]
        exact ⟨_, rfl⟩

/-- Under a passphrase every text is encrypted, with every salt and iv, and
comes back. A payload of fewer than forty-five bytes, or of another version, is
rejected, and so is every payload that differs in one byte from one that was
encrypted where the cryptography is ideal. -/
theorem encryption_sound (C : Cipher) {passphrase : String} (hpassphrase : passphrase ≠ "") :
    (∀ plaintext salt iv, ∃ payload, encrypt C plaintext passphrase salt iv = .ok payload ∧
      decrypt C payload passphrase = .ok plaintext) ∧
    (∀ payload, ((Base64.decode payload.toList).length < 45 ∨
      ∃ version rest, Base64.decode payload.toList = version :: rest ∧ version ≠ VERSION) →
        Throws (decrypt C payload passphrase)) ∧
    ∀ plaintext (salt : Bytes SALT_LEN) (iv : Bytes IV_LEN) payload other,
      Ideal C passphrase salt iv (C.cipheriv (deriveKey C passphrase salt) iv (utf8Bytes plaintext)).2
        (C.cipheriv (deriveKey C passphrase salt) iv (utf8Bytes plaintext)).1 →
      encrypt C plaintext passphrase salt iv = .ok payload → Changed payload other →
        Throws (decrypt C other passphrase) := by
  refine ⟨fun plaintext salt iv => ?_, fun payload h => ?_, ?_⟩
  · obtain ⟨payload, hencrypt, hframe⟩ := @encrypt_frame C passphrase hpassphrase plaintext salt iv
    refine ⟨payload, hencrypt, ?_⟩
    have htag := (C.cipheriv (deriveKey C passphrase salt) iv (utf8Bytes plaintext)).2.property
    rw [decrypt_frame hpassphrase salt.property iv.property htag hframe, if_neg (by simp),
      C.decipheriv_cipheriv]
    exact congrArg Except.ok (utf8Text_utf8Bytes C plaintext)
  · refine decrypt_malformed C passphrase (h.imp_right ?_)
    rintro ⟨version, rest, hdecode, hversion⟩
    rw [hdecode]
    exact hversion
  · intro plaintext salt iv payload other hideal hencrypt hchanged
    obtain ⟨written, hwritten, hframe⟩ := @encrypt_frame C passphrase hpassphrase plaintext salt iv
    obtain rfl := Except.ok.inj (hwritten.symm.trans hencrypt)
    have htag := (C.cipheriv (deriveKey C passphrase salt) iv (utf8Bytes plaintext)).2.property
    exact decrypt_changed hpassphrase salt.property iv.property htag hideal (by simpa using hframe) hchanged

/-- The bytes from 0 to 15. -/
def sampleSalt : Bytes SALT_LEN := ⟨(List.range 16).map byteOf, rfl⟩

/-- The bytes from 16 to 27. -/
def sampleIv : Bytes IV_LEN := ⟨(List.range 12).map fun n => byteOf (16 + n), rfl⟩

/-- The key of scrypt for this salt and the passphrase of the example. -/
def sampleKey : List Byte :=
  [188, 75, 234, 226, 60, 134, 235, 208, 1, 156, 70, 56, 167, 40, 164, 37, 205, 246, 80, 146, 251, 39, 193,
    65, 233, 214, 90, 111, 20, 138, 20, 52]

/-- The ciphertext of AES-256-GCM for a text of three bytes. -/
def sampleEnc : List Byte := [68, 176, 253]

/-- Its tag. -/
def sampleTag : Bytes TAG_LEN :=
  ⟨[235, 237, 74, 5, 102, 14, 38, 118, 90, 70, 131, 58, 98, 153, 195, 76], rfl⟩

/-- A tag of another ciphertext. -/
def zeroTag : Bytes TAG_LEN := ⟨List.replicate 16 0, rfl⟩

/-- The cryptography of the example. Elsewhere a zero is added to what is
encrypted. -/
def sampleCipher : Cipher where
  scryptSync passphrase salt :=
    if passphrase = "passphrase" ∧ salt = sampleSalt.val then sampleKey else 0 :: salt
  cipheriv key iv plain :=
    if key = sampleKey ∧ iv = sampleIv.val ∧ plain = [104, 195, 169] then (sampleEnc, sampleTag)
    else (plain ++ [0], zeroTag)
  decipheriv key iv tag enc :=
    if key = sampleKey ∧ iv = sampleIv.val ∧ tag = sampleTag.val ∧ enc = sampleEnc then some [104, 195, 169]
    else if tag = zeroTag.val ∧ enc.getLast? = some 0 then some enc.dropLast else none
  replaced _ := ""
  decipheriv_cipheriv key iv plain := by
    have htag : zeroTag.val ≠ sampleTag.val := by decide
    by_cases h : key = sampleKey ∧ iv = sampleIv.val ∧ plain = [104, 195, 169]
    · simp [h]
    · simp [h, htag]

/-- The cryptography is ideal at the ciphertext of the example. -/
theorem sample_ideal : Ideal sampleCipher "passphrase" sampleSalt sampleIv sampleTag sampleEnc := by
  have hkey : deriveKey sampleCipher "passphrase" sampleSalt = sampleKey := by simp [deriveKey, sampleCipher]
  have htag : sampleTag.val ≠ zeroTag.val := by decide
  have hlast : sampleEnc.getLast? ≠ some 0 := by decide
  refine ⟨fun other hlength hne => ?_, fun other hne => ?_, fun other _ hne => ?_, fun other _ hne => ?_,
    fun other _ hne => ?_⟩
  · rw [hkey]
    intro heq
    have hlengths := congrArg List.length heq
    simp [deriveKey, sampleCipher, hne, hlength, SALT_LEN, sampleKey] at hlengths
  · rw [hkey] at hne
    simp [sampleCipher, hne, htag]
  · simp [sampleCipher, hne, htag]
  · simp [sampleCipher, hne, hlast]
  · simp [sampleCipher, hne, htag]

/-- A text of two characters comes back, and not with its last byte changed. -/
theorem encryption_sound_sample :
    decrypt sampleCipher "AQABAgMEBQYHCAkKCwwNDg8QERITFBUWFxgZGhvr7UoFZg4mdlpGgzpimcNMRLD9" "passphrase" =
      .ok "hé" ∧
    Throws (decrypt sampleCipher "AQABAgMEBQYHCAkKCwwNDg8QERITFBUWFxgZGhvr7UoFZg4mdlpGgzpimcNMRLD+"
      "passphrase") := by
  obtain ⟨hround, -, htamper⟩ := @encryption_sound sampleCipher "passphrase" (by decide)
  have hencrypt : encrypt sampleCipher "hé" "passphrase" sampleSalt sampleIv =
      .ok "AQABAgMEBQYHCAkKCwwNDg8QERITFBUWFxgZGhvr7UoFZg4mdlpGgzpimcNMRLD9" := by decide +kernel
  obtain ⟨payload, hpayload, hdecrypt⟩ := hround "hé" sampleSalt sampleIv
  obtain rfl := Except.ok.inj (hpayload.symm.trans hencrypt)
  refine ⟨hdecrypt, htamper "hé" sampleSalt sampleIv _ _ ?_ hencrypt ⟨47, 254, ?_⟩⟩
  · have hsealed : sampleCipher.cipheriv (deriveKey sampleCipher "passphrase" sampleSalt) sampleIv
        (utf8Bytes "hé") = (sampleEnc, sampleTag) := by decide +kernel
    rw [hsealed]
    exact sample_ideal
  · exact ⟨by decide +kernel, by decide +kernel, by decide +kernel⟩

end Encrypting

end LpPlatform.Encryption
