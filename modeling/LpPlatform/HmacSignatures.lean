import LpPlatform.Base64
import LpPlatform.HmacGuard

/-!
# Signatures of requests

A signature is the hexadecimal HMAC of a timestamp, a request line and a body
with a line break between each two. Its check reads the timestamp, compares it
with the clock and compares the bytes that two texts of digits stand for. The
decoder of digits stops silently at a pair that is none, so the comparison of
the lengths is what makes it exact. The framing is injective where the first
two parts are single lines.
-/

namespace LpPlatform.HmacSignatures

open DecimalText JsValues
open HmacGuard (InvalidReason constantTimeEqualHex hexBytes hexDigit? parseTimestamp)

/-- A byte in two hexadecimal digits. -/
def hexPair (byte : Fin 256) : List Char := [hexDigit (byte / 16), hexDigit byte]

/-- `digest('hex')`. -/
def hexText (bytes : List (Fin 256)) : List Char := bytes.flatMap hexPair

/-- HMAC with SHA-256. -/
structure Hmac where
  /-- The bytes for a secret and a text. -/
  mac : String → String → List (Fin 256)
  /-- There are thirty-two of them. -/
  length_mac : ∀ secret text, (mac secret text).length = 32

/-- `SignatureMaterial`. -/
structure SignatureMaterial where
  timestamp : String
  body : String
  requestLine : Option String
  deriving DecidableEq

/-- `payload`. -/
def payload (material : SignatureMaterial) : String :=
  "\n".intercalate [material.timestamp, material.requestLine.getD "", material.body]

/-- `sign`. -/
def sign (M : Hmac) (secret : String) (material : SignatureMaterial) : Except Failure String :=
  if secret = "" then .error (.typeError "hmac.sign: secret must be non-empty")
  else .ok (String.ofList (hexText (M.mac secret (payload material))))

/-- `VerifyResult`. -/
inductive VerifyResult where
  | valid
  | invalid (reason : InvalidReason)
  deriving DecidableEq

/-- `VerifyOptions`. -/
structure VerifyOptions where
  nowMs : Option ℚ
  windowMs : Option ℚ

/-- The instant to compare with: the clock is read when none is given. -/
def VerifyOptions.now (opts : VerifyOptions) (clock : ℚ) : ℚ := opts.nowMs.getD clock

/-- The window: `HMAC_REPLAY_WINDOW_MS` when none is given. -/
def VerifyOptions.window (opts : VerifyOptions) : ℚ :=
  opts.windowMs.getD HmacGuard.HMAC_REPLAY_WINDOW_MS

/-- The distance of two numbers of the language. -/
def distance (a b : ℚ) : ℚ := |toDouble (a - b)|

/-- `verify`. -/
def verify (M : Hmac) (P : DateParser) (clock : ℚ) (secret : String) (material : SignatureMaterial)
    (signature : String) (opts : VerifyOptions) : Except Failure VerifyResult :=
  match parseTimestamp P material.timestamp with
  | none => .ok (.invalid .badTimestamp)
  | some tsMs =>
    if opts.window < distance (opts.now clock) tsMs then .ok (.invalid .staleTimestamp)
    else (sign M secret material).map fun expected =>
      if constantTimeEqualHex expected signature then .valid else .invalid .invalidSignature

section Digits

/-- Among the first characters, the digits are those that are printed, in
either case. -/
theorem hexDigit?_ascii : ∀ n < 128, ∀ v < 16,
    hexDigit? (Char.ofNat n) = some v ↔ (Char.ofNat n).toLower = Nat.digitChar v := by
  decide +kernel

/-- Digits are among the first characters, and have a value below sixteen. -/
theorem hexDigit?_bound {c : Char} {v : ℕ} (h : hexDigit? c = some v) : c.toNat < 128 ∧ v < 16 := by
  have hdigit : c.isDigit = true → 48 ≤ c.toNat ∧ c.toNat ≤ 57 := fun hc => by
    simpa [Char.isDigit, UInt32.le_iff_toNat_le] using hc
  unfold hexDigit? at h
  split at h
  · rename_i hc
    have hbound := hdigit hc
    have hv : c.toNat - 48 = v := Option.some.inj h
    omega
  · split at h
    · have hv : c.toNat - 87 = v := Option.some.inj h
      omega
    · split at h
      · have hv : c.toNat - 55 = v := Option.some.inj h
        omega
      · exact absurd h (by simp)

/-- Printed digits are among the first characters. -/
theorem digitChar_bound : ∀ v < 16, (Nat.digitChar v).toNat < 128 := by decide

/-- Lowering the case leaves no character among the first that was not there. -/
theorem toLower_bound {c : Char} (h : c.toLower.toNat < 128) : c.toNat < 128 := by
  unfold Char.toLower at h
  split at h
  · rename_i hc
    have hupper : c.val ≤ 'Z'.val := hc.2
    have hle : c.toNat ≤ 90 := UInt32.le_iff_toNat_le.mp hupper
    omega
  · exact h

/-- The digits are those that are printed, in either case. -/
theorem hexDigit?_iff {c : Char} {v : ℕ} (hv : v < 16) :
    hexDigit? c = some v ↔ c.toLower = Nat.digitChar v := by
  have hback : Char.ofNat c.toNat = c := Char.ofNat_toNat c
  constructor
  · intro h
    have hc := (hexDigit?_bound h).1
    have hascii := hexDigit?_ascii c.toNat hc v hv
    rw [hback] at hascii
    exact hascii.mp h
  · intro h
    have hlower : c.toLower.toNat < 128 := by
      rw [h]
      exact digitChar_bound v hv
    have hascii := hexDigit?_ascii c.toNat (toLower_bound hlower) v hv
    rw [hback] at hascii
    exact hascii.mpr h

/-- The bytes read are at most half as many as the characters. -/
theorem length_hexBytes (cs : List Char) : 2 * (hexBytes cs).length ≤ cs.length := by
  fun_induction hexBytes cs with
  | case1 a b rest high low hhigh hlow ih =>
    simp only [List.length_cons]
    omega
  | case2 a b rest hnone => simp
  | case3 cs hshort => simp

/-- A byte is given by its two digits. -/
theorem halves_eq {byte : Fin 256} {high low : ℕ} (hlow : low < 16)
    (h : 16 * high + low = byte) : high = byte / 16 ∧ low = (byte : ℕ) % 16 := by omega

/-- Digits are read as bytes exactly when they print the bytes, in either
case. -/
theorem hexBytes_iff (bytes : List (Fin 256)) (cs : List Char) :
    (cs.length = 2 * bytes.length ∧ hexBytes cs = bytes.map Fin.val) ↔
      cs.map Char.toLower = hexText bytes := by
  induction bytes generalizing cs with
  | nil =>
    cases cs with
    | nil => simp [hexText, hexBytes]
    | cons c cs => simp [hexText]
  | cons byte bytes ih =>
    match cs with
    | [] => simp [hexText, hexPair]
    | [c] =>
      constructor
      · intro h
        have hlen := h.1
        simp only [List.length_cons, List.length_nil] at hlen
        omega
      · intro h
        have hlen := congrArg List.length h
        simp [hexText, hexPair] at hlen
    | a :: b :: rest =>
      have hhigh : (byte : ℕ) / 16 % 16 = byte / 16 := by omega
      have htext : (a :: b :: rest).map Char.toLower = hexText (byte :: bytes) ↔
          a.toLower = Nat.digitChar (byte / 16) ∧ b.toLower = Nat.digitChar (byte % 16) ∧
            rest.map Char.toLower = hexText bytes := by
        simp [hexText, hexPair, hexDigit, hhigh]
      rw [htext, ← hexDigit?_iff (by omega : (byte : ℕ) / 16 < 16),
        ← hexDigit?_iff (by omega : (byte : ℕ) % 16 < 16), ← ih rest]
      constructor
      · rintro ⟨hlen, hbytes⟩
        rw [hexBytes] at hbytes
        split at hbytes
        · rename_i high low ha hb
          obtain ⟨hbyte, hrest⟩ := List.cons.inj hbytes
          obtain ⟨rfl, rfl⟩ := halves_eq (hexDigit?_bound hb).2 hbyte
          simp only [List.length_cons] at hlen
          exact ⟨ha, hb, by omega, hrest⟩
        · simp at hbytes
      · rintro ⟨ha, hb, hlen, hrest⟩
        refine ⟨by simp only [List.length_cons]; omega, ?_⟩
        have hbyte : 16 * ((byte : ℕ) / 16) + (byte : ℕ) % 16 = byte := by omega
        simp [hexBytes, ha, hb, hrest, hbyte]

end Digits

section Comparison

/-- A character takes one code unit at least. -/
theorem length_le_utf16Length (s : String) : s.toList.length ≤ utf16Length s := by
  unfold utf16Length
  induction s.toList with
  | nil => simp
  | cons c cs ih =>
    have hc : 1 ≤ if c.toNat < 0x10000 then 1 else 2 := by split <;> omega
    simp only [List.length_cons, List.map_cons, List.sum_cons]
    omega

/-- Characters of one code unit. -/
theorem utf16Length_eq {s : String} (h : ∀ c ∈ s.toList, c.toNat < 0x10000) :
    utf16Length s = s.toList.length := by
  have hmap : s.toList.map (fun c => if c.toNat < 0x10000 then 1 else 2) = s.toList.map fun _ => 1 :=
    List.map_congr_left fun c hc => if_pos (h c hc)
  simp [utf16Length, hmap]

/-- The printed digits have one code unit each. -/
theorem hexText_bound {bytes : List (Fin 256)} : ∀ c ∈ hexText bytes, c.toNat < 0x10000 := by
  intro c hc
  obtain ⟨byte, -, hdigit⟩ := List.mem_flatMap.mp hc
  have hsmall : ∀ v < 16, (Nat.digitChar v).toNat < 0x10000 := fun v hv => by
    have hv := digitChar_bound v hv
    omega
  simp only [hexPair, hexDigit, List.mem_cons, List.not_mem_nil, or_false] at hdigit
  rcases hdigit with rfl | rfl
  · exact hsmall _ (Nat.mod_lt _ (by decide))
  · exact hsmall _ (Nat.mod_lt _ (by decide))

theorem length_hexText (bytes : List (Fin 256)) : (hexText bytes).length = 2 * bytes.length := by
  induction bytes with
  | nil => rfl
  | cons byte bytes ih =>
    have hcons : hexText (byte :: bytes) = hexPair byte ++ hexText bytes := List.flatMap_cons
    rw [hcons, List.length_append, ih, List.length_cons]
    simp only [hexPair, List.length_cons, List.length_nil]
    omega

/-- The digits of bytes are read as these bytes. -/
theorem hexBytes_hexText (bytes : List (Fin 256)) :
    hexBytes (hexText bytes) = bytes.map Fin.val := by
  have hlower : (hexText bytes).map Char.toLower = hexText bytes := by
    have hdigit : ∀ v < 16, (Nat.digitChar v).toLower = Nat.digitChar v := by decide
    conv_rhs => rw [← List.map_id (hexText bytes)]
    refine List.map_congr_left fun c hc => ?_
    obtain ⟨byte, -, hpair⟩ := List.mem_flatMap.mp hc
    simp only [hexPair, hexDigit, List.mem_cons, List.not_mem_nil, or_false] at hpair
    rcases hpair with rfl | rfl
    · exact hdigit _ (Nat.mod_lt _ (by decide))
    · exact hdigit _ (Nat.mod_lt _ (by decide))
  exact ((hexBytes_iff bytes (hexText bytes)).mpr hlower).2

/-- Bytes that print alike are the same. -/
theorem hexText_inj {bytes other : List (Fin 256)} (h : hexText bytes = hexText other) :
    bytes = other := by
  have hread := congrArg hexBytes h
  rw [hexBytes_hexText, hexBytes_hexText] at hread
  exact List.map_injective_iff.mpr Fin.val_injective hread

/-- The comparison succeeds exactly on the digits of the bytes, in either
case. -/
theorem constantTimeEqualHex_iff {bytes : List (Fin 256)} (hne : bytes ≠ []) (signature : String) :
    constantTimeEqualHex (String.ofList (hexText bytes)) signature = true ↔
      signature.toList.map Char.toLower = hexText bytes := by
  have hexpected : utf16Length (String.ofList (hexText bytes)) = 2 * bytes.length := by
    rw [utf16Length_eq (by simpa using hexText_bound), String.toList_ofList, length_hexText]
  have hbytes : bytes.map Fin.val ≠ [] := by simpa using hne
  simp only [constantTimeEqualHex, hexpected, String.toList_ofList, hexBytes_hexText, Bool.and_eq_true, decide_eq_true_eq, ← hexBytes_iff]
  constructor
  · rintro ⟨⟨hlen, -⟩, hequal⟩
    have hchars := length_le_utf16Length signature
    have hread := length_hexBytes signature.toList
    rw [← hequal, List.length_map] at hread
    exact ⟨by omega, hequal.symm⟩
  · rintro ⟨hlen, hread⟩
    have hlower := (hexBytes_iff bytes signature.toList).mp ⟨hlen, hread⟩
    have hsmall : ∀ c ∈ signature.toList, c.toNat < 0x10000 := by
      intro c hc
      have hmem : c.toLower ∈ hexText bytes := by
        rw [← hlower]
        exact List.mem_map_of_mem hc
      obtain ⟨byte, -, hpair⟩ := List.mem_flatMap.mp hmem
      have hascii : c.toLower.toNat < 128 := by
        simp only [hexPair, hexDigit, List.mem_cons, List.not_mem_nil, or_false] at hpair
        rcases hpair with h | h
        · rw [h]
          exact digitChar_bound _ (Nat.mod_lt _ (by decide))
        · rw [h]
          exact digitChar_bound _ (Nat.mod_lt _ (by decide))
      have hc := toLower_bound hascii
      omega
    exact ⟨⟨by rw [utf16Length_eq hsmall, hlen], hbytes⟩, hread.symm⟩

end Comparison

section Framing

/-- A text of one line. -/
def OneLine (text : String) : Prop := '\n' ∉ text.toList

instance (text : String) : Decidable (OneLine text) := inferInstanceAs (Decidable (¬ _))

/-- Only the body may have several lines. -/
structure SignatureMaterial.Framed (material : SignatureMaterial) : Prop where
  timestamp : OneLine material.timestamp
  requestLine : OneLine (material.requestLine.getD "")

/-- The same parts, where a missing request line is an empty one. -/
structure SignatureMaterial.Same (material other : SignatureMaterial) : Prop where
  timestamp : material.timestamp = other.timestamp
  requestLine : material.requestLine.getD "" = other.requestLine.getD ""
  body : material.body = other.body

/-- The first line break ends the first line. -/
theorem line_append_inj {a b rest rest' : List Char} (ha : '\n' ∉ a) (hb : '\n' ∉ b)
    (h : a ++ '\n' :: rest = b ++ '\n' :: rest') : a = b ∧ rest = rest' := by
  induction a generalizing b with
  | nil =>
    cases b with
    | nil => exact ⟨rfl, (List.cons.inj h).2⟩
    | cons c b =>
      have hc : '\n' = c := (List.cons.inj h).1
      exact absurd (hc ▸ List.mem_cons_self) hb
  | cons c a ih =>
    cases b with
    | nil =>
      have hc : c = '\n' := (List.cons.inj h).1
      exact absurd (hc ▸ List.mem_cons_self) ha
    | cons c' b =>
      obtain ⟨rfl, hrest⟩ := List.cons.inj h
      obtain ⟨rfl, htail⟩ := ih (fun hmem => ha (List.mem_cons_of_mem _ hmem))
        (fun hmem => hb (List.mem_cons_of_mem _ hmem)) hrest
      exact ⟨rfl, htail⟩

/-- The characters that are signed. -/
theorem toList_payload (material : SignatureMaterial) :
    (payload material).toList = material.timestamp.toList ++ '\n' ::
      ((material.requestLine.getD "").toList ++ '\n' :: material.body.toList) := by
  simp [payload, String.intercalate_cons_cons]

/-- Framed materials that are signed alike have the same parts. -/
theorem payload_inj {material other : SignatureMaterial} (h : material.Framed) (h' : other.Framed)
    (heq : payload material = payload other) : material.Same other := by
  have hchars := congrArg String.toList heq
  rw [toList_payload, toList_payload] at hchars
  obtain ⟨htimestamp, hrest⟩ := line_append_inj h.timestamp h'.timestamp hchars
  obtain ⟨hline, hbody⟩ := line_append_inj h.requestLine h'.requestLine hrest
  exact ⟨String.toList_inj.mp htimestamp, String.toList_inj.mp hline, String.toList_inj.mp hbody⟩

end Framing

section Distances

/-- Whole numbers below 2 ^ 53 are doubles. -/
theorem roundBits_small {n : ℕ} (h : n < 2 ^ 53) : roundBits n 1 = n := by
  by_cases hn : n = 0
  · subst hn
    rfl
  · have hlog : Nat.log2 n ≤ 52 := Nat.lt_succ_iff.mp ((Nat.log2_lt hn).mpr h)
    have hself : 2 ^ Nat.log2 n ≤ n := Nat.log2_self_le hn
    have hone : Nat.log2 1 = 0 := by decide
    obtain ⟨k, hk⟩ : ∃ k : ℕ, Nat.log2 n + k = 52 := ⟨52 - Nat.log2 n, by omega⟩
    have hguess : (53 + ((0 : ℕ) : ℤ) - (Nat.log2 n : ℤ)) = ((k + 1 : ℕ) : ℤ) := by omega
    have hscale : 2 ^ 53 ≤ n * 2 ^ (k + 1) := by
      have hpow : 2 ^ Nat.log2 n * 2 ^ (k + 1) = 2 ^ 53 := by
        rw [← pow_add]
        congr 1
        omega
      calc 2 ^ 53 = 2 ^ Nat.log2 n * 2 ^ (k + 1) := hpow.symm
        _ ≤ n * 2 ^ (k + 1) := Nat.mul_le_mul_right _ hself
    have hshift : (((k + 1 : ℕ) : ℤ) - 1) = ((k : ℕ) : ℤ) := by omega
    have hround : roundHalfEven (n * 2 ^ k) 1 = n * 2 ^ k := by simp [roundHalfEven, Nat.mod_one]
    have hpow : ((2 : ℚ) ^ k) ≠ 0 := by positivity
    rw [roundBits, if_neg hn]
    simp only [hone, hguess, Int.natCast_nonneg, if_true, Int.toNat_natCast, one_mul, hscale, hshift, hround]
    push_cast
    field_simp

/-- Rounding an integer quotient does not fall below its integer part. -/
theorem div_le_roundHalfEven (n d : ℕ) : n / d ≤ roundHalfEven n d := by
  simp only [roundHalfEven]
  split
  · exact le_rfl
  · split
    · exact Nat.le_succ _
    · split
      · exact le_rfl
      · exact Nat.le_succ _

/-- Whole numbers from 2 ^ 53 on are rounded to whole numbers from there on. -/
theorem roundBits_large {n : ℕ} (h : 2 ^ 53 ≤ n) : ∃ m : ℕ, roundBits n 1 = m ∧ 2 ^ 53 ≤ m := by
  have hn : n ≠ 0 := by omega
  have hlog : 53 ≤ Nat.log2 n := (Nat.le_log2 hn).mpr h
  have hself : 2 ^ Nat.log2 n ≤ n := Nat.log2_self_le hn
  have hone : Nat.log2 1 = 0 := by decide
  obtain ⟨k, hk⟩ : ∃ k : ℕ, Nat.log2 n = k + 53 := ⟨Nat.log2 n - 53, by omega⟩
  have hguess : (53 + ((0 : ℕ) : ℤ) - (Nat.log2 n : ℤ)) = -((k : ℕ) : ℤ) := by omega
  have hshift : -((k : ℕ) : ℤ) - 1 = -((k + 1 : ℕ) : ℤ) := by omega
  have hneg : ¬ 0 ≤ -((k + 1 : ℕ) : ℤ) := by omega
  have hpow : 2 ^ k * 2 ^ 53 ≤ n := by
    rw [← pow_add, ← hk]
    exact hself
  have hscaled : (if 0 ≤ -((k : ℕ) : ℤ) then (n * 2 ^ (-((k : ℕ) : ℤ)).toNat, 1)
      else (n, 2 ^ k)) = (n, 2 ^ k) := by
    split
    · have hk0 : k = 0 := by omega
      subst hk0
      simp
    · rfl
  have hquotient : 2 ^ 52 ≤ n / 2 ^ (k + 1) := by
    rw [Nat.le_div_iff_mul_le (by positivity)]
    calc 2 ^ 52 * 2 ^ (k + 1) = 2 ^ k * 2 ^ 53 := by ring
      _ ≤ n := hpow
  have hround : 2 ^ 52 ≤ roundHalfEven n (2 ^ (k + 1)) := hquotient.trans (div_le_roundHalfEven _ _)
  refine ⟨roundHalfEven n (2 ^ (k + 1)) * 2 ^ (k + 1), ?_, ?_⟩
  · rw [roundBits, if_neg hn]
    simp only [hone, hguess, neg_neg, Int.toNat_natCast, one_mul, hscaled, hpow, if_true, hshift,
      hneg, if_false]
    push_cast
    rfl
  · calc 2 ^ 53 = 2 ^ 52 * 2 ^ 1 := by norm_num
      _ ≤ roundHalfEven n (2 ^ (k + 1)) * 2 ^ (k + 1) :=
        Nat.mul_le_mul hround (Nat.pow_le_pow_right (by decide) (by omega))

/-- Whole numbers are rounded to whole numbers. -/
theorem roundBits_nat (n : ℕ) : ∃ m : ℕ, roundBits n 1 = m := by
  rcases Nat.lt_or_ge n (2 ^ 53) with h | h
  · exact ⟨n, roundBits_small h⟩
  · obtain ⟨m, hm, -⟩ := roundBits_large h
    exact ⟨m, hm⟩

/-- A whole number is rounded by its magnitude. -/
theorem abs_toDouble_int (z : ℤ) : |toDouble z| = roundBits z.natAbs 1 := by
  obtain ⟨m, hm⟩ := roundBits_nat z.natAbs
  have hnonneg : 0 ≤ roundBits z.natAbs 1 := by
    rw [hm]
    exact Nat.cast_nonneg m
  unfold toDouble
  simp only [Rat.num_intCast, Rat.den_intCast]
  split
  · rw [abs_neg, abs_of_nonneg hnonneg]
  · exact abs_of_nonneg hnonneg

/-- On whole milliseconds, a window below 2 ^ 53 is compared with the exact
distance. -/
theorem distance_le_iff {now ts : ℤ} {window : ℚ} (h : window < 2 ^ 53) :
    distance now ts ≤ window ↔ |(now : ℚ) - ts| ≤ window := by
  have hcast : (now : ℚ) - ts = ((now - ts : ℤ) : ℚ) := by push_cast; rfl
  have habs : |((now - ts : ℤ) : ℚ)| = ((now - ts).natAbs : ℚ) := by
    rw [Nat.cast_natAbs, Int.cast_abs]
  rw [distance, hcast, abs_toDouble_int, habs]
  rcases Nat.lt_or_ge (now - ts).natAbs (2 ^ 53) with hsmall | hlarge
  · rw [roundBits_small hsmall]
  · obtain ⟨m, hm, hround⟩ := roundBits_large hlarge
    have hcomputed : ((2 ^ 53 : ℕ) : ℚ) ≤ (m : ℚ) := by exact_mod_cast hround
    have hexact : ((2 ^ 53 : ℕ) : ℚ) ≤ ((now - ts).natAbs : ℚ) := by exact_mod_cast hlarge
    have hwindow : window < ((2 ^ 53 : ℕ) : ℚ) := by push_cast; exact h
    rw [hm]
    constructor
    · intro hle
      exact absurd (hcomputed.trans hle) (not_le.mpr hwindow)
    · intro hle
      exact absurd (hexact.trans hle) (not_le.mpr hwindow)

/-- A timestamp is a whole number of milliseconds. -/
theorem parseTimestamp_int {P : DateParser} {text : String} {ts : ℚ}
    (h : parseTimestamp P text = some ts) : ∃ z : ℤ, ts = z := by
  unfold parseTimestamp at h
  split at h
  · rename_i hdigits
    obtain ⟨hnumber, -⟩ := Option.filter_eq_some_iff.mp h
    have hall : ∀ c ∈ text.toList, c.isDigit = true := List.all_eq_true.mp hdigits.2
    have htrim : trim text.toList = text.toList :=
      trim_eq_self fun c hc => isSpace_of_isDigit (hall c hc)
    rw [number?, htrim] at hnumber
    obtain ⟨l, hl, rfl⟩ := Option.map_eq_some_iff.mp hnumber
    have hdrop : text.toList.dropWhile (· ≠ '.') = [] :=
      List.dropWhile_eq_nil_iff.mpr fun c hc => ne_point_of_isDigit (hall c hc)
    have hsign : ∀ rest, text.toList ≠ '-' :: rest := by
      intro rest he
      have hminus := hall '-' (by rw [he]; exact List.mem_cons_self)
      exact absurd hminus (by decide)
    rw [literal?.eq_2 _ hsign, unsigned?, hdrop] at hl
    obtain ⟨n, -, rfl⟩ := Option.map_eq_some_iff.mp hl
    obtain ⟨m, hm⟩ := roundBits_nat n
    refine ⟨m, ?_⟩
    have hvalue : litValue ⟨false, n, 0⟩ = n := by simp [litValue]
    have hpos : ¬ ((n : ℕ) : ℚ) < 0 := not_lt.mpr (Nat.cast_nonneg n)
    rw [hvalue, toDouble, if_neg hpos]
    simpa using hm
  · cases hparse : P.parse text with
    | none => simp [hparse] at h
    | some ms => exact ⟨ms, by simpa [hparse] using h.symm⟩

end Distances

section Verification

variable {M : Hmac} {P : DateParser} {clock : ℚ} {secret signature : String}
  {material : SignatureMaterial} {opts : VerifyOptions}

/-- Characters of eight bits, as the headers of a request have. -/
def EightBit (text : String) : Prop := ∀ c ∈ text.toList, c.toNat < 256

instance (text : String) : Decidable (EightBit text) :=
  inferInstanceAs (Decidable (∀ c ∈ text.toList, c.toNat < 256))

/-- The timestamp lies within the window and the signature is the HMAC of the
payload, in digits of either case. -/
def Signed (M : Hmac) (P : DateParser) (clock : ℚ) (secret : String) (material : SignatureMaterial)
    (signature : String) (opts : VerifyOptions) : Prop :=
  ∃ tsMs, parseTimestamp P material.timestamp = some tsMs ∧
    distance (opts.now clock) tsMs ≤ opts.window ∧
    signature.toList.map Char.toLower = hexText (M.mac secret (payload material))

/-- A signature is valid exactly when it was made in the window. -/
theorem verify_valid_iff (hsecret : secret ≠ "") :
    verify M P clock secret material signature opts = .ok .valid ↔
      Signed M P clock secret material signature opts := by
  have hne : M.mac secret (payload material) ≠ [] := by
    intro hnil
    have hlen := M.length_mac secret (payload material)
    simp [hnil] at hlen
  have hhex := constantTimeEqualHex_iff hne signature
  unfold verify Signed
  cases hts : parseTimestamp P material.timestamp with
  | none => simp
  | some tsMs =>
    by_cases hwindow : opts.window < distance (opts.now clock) tsMs
    · have hstale : ¬ distance (opts.now clock) tsMs ≤ opts.window := not_le.mpr hwindow
      simp [hwindow, hstale]
    · have hfresh : distance (opts.now clock) tsMs ≤ opts.window := not_lt.mp hwindow
      simp only [hwindow, if_false, sign, hsecret, Except.map, Except.ok.injEq, Option.some.injEq,
        exists_eq_left', hfresh, true_and, ← hhex]
      split
      · rename_i hequal
        simp [hequal]
      · rename_i hequal
        simp [hequal]

/-- The guard of the broker API checks signatures with the clock and the
default window. -/
theorem guard_verify {G : HmacGuard.HmacConfig} {requestLine : String} {nowMs : Instant}
    (hmac : ∀ secret text, G.hmac secret text = String.ofList (hexText (M.mac secret text))) :
    HmacGuard.verify G secret ⟨material.timestamp, material.body, requestLine⟩ signature nowMs =
      (verify M G.dateParser nowMs secret { material with requestLine := some requestLine } signature
        ⟨none, none⟩).map fun
        | .valid => none
        | .invalid reason => some reason := by
  have hpayload : HmacGuard.payload ⟨material.timestamp, material.body, requestLine⟩ =
      payload { material with requestLine := some requestLine } := by
    refine String.toList_inj.mp ?_
    rw [toList_payload]
    simp [HmacGuard.payload]
  unfold HmacGuard.verify verify
  cases parseTimestamp G.dateParser material.timestamp with
  | none => rfl
  | some tsMs =>
    by_cases hwindow : HmacGuard.HMAC_REPLAY_WINDOW_MS < distance nowMs tsMs
    · have hdouble : HmacGuard.HMAC_REPLAY_WINDOW_MS < |toDouble (nowMs - tsMs)| := hwindow
      simp [VerifyOptions.window, VerifyOptions.now, hwindow, hdouble, Except.map]
    · have hdouble : ¬ HmacGuard.HMAC_REPLAY_WINDOW_MS < |toDouble (nowMs - tsMs)| := hwindow
      by_cases hsecret : secret = ""
      · simp [VerifyOptions.window, VerifyOptions.now, hwindow, hdouble, HmacGuard.sign, sign, hsecret,
          Except.map]
      · simp only [VerifyOptions.window, VerifyOptions.now, Option.getD_none, hwindow, hdouble, if_false, HmacGuard.sign, sign,
          hsecret, Except.map, hpayload, hmac]
        split <;> rfl

/-- HMAC with SHA-256 under the secret of the example, for one payload. -/
def bodyMac : Hmac where
  mac _ text := if text = "1000\n\nbody" then
      [198, 197, 84, 94, 99, 115, 53, 219, 30, 214, 104, 44, 253, 223, 4, 178, 210, 189, 179, 189, 2,
        36, 153, 144, 81, 184, 241, 166, 69, 144, 237, 176]
    else List.replicate 32 0
  length_mac _ text := by
    by_cases h : text = "1000\n\nbody"
    · simp [h]
    · simp [h]

end Verification

end LpPlatform.HmacSignatures
