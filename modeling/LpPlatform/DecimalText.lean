import Mathlib.Algebra.Group.Nat.Defs
import Mathlib.Data.List.TakeWhile
import Mathlib.Data.Nat.Basic

/-!
# Decimal literals as text

A literal is a sign, a coefficient and the number of digits after the point.
It is read from the grammar `-?digits(.digits)?` and printed in fixed
notation. Printing and reading back returns the literal, so two literals that
print alike are equal.
-/

namespace LpPlatform.DecimalText

/-- A decimal literal: its value is the coefficient over a power of ten. -/
structure Literal where
  /-- A minus sign stands in front. -/
  negative : Bool
  /-- All digits, read as one natural number. -/
  coefficient : ℕ
  /-- How many of the digits stand after the point. -/
  scale : ℕ
  deriving DecidableEq, Repr

/-- A nonempty run of digits. -/
def digits? (cs : List Char) : Option ℕ :=
  if cs ≠ [] ∧ cs.all Char.isDigit then some (Nat.ofDigitChars 10 cs 0) else none

/-- Digits with an optional fraction. -/
def unsigned? (negative : Bool) (cs : List Char) : Option Literal :=
  match cs.dropWhile (· ≠ '.') with
  | [] => (digits? cs).map fun whole => ⟨negative, whole, 0⟩
  | _ :: fraction =>
    (digits? (cs.takeWhile (· ≠ '.'))).bind fun whole =>
      (digits? fraction).map fun part =>
        ⟨negative, 10 ^ fraction.length * whole + part, fraction.length⟩

/-- The grammar `-?digits(.digits)?`. -/
def literal? : List Char → Option Literal
  | '-' :: cs => unsigned? true cs
  | cs => unsigned? false cs

/-- A natural number with leading zeros up to a width. -/
def padded (width n : ℕ) : List Char :=
  List.replicate (width - (Nat.toDigits 10 n).length) '0' ++ Nat.toDigits 10 n

/-- Digits in fixed notation, without a sign. -/
def unsignedText (coefficient scale : ℕ) : List Char :=
  Nat.toDigits 10 (coefficient / 10 ^ scale) ++
    if scale = 0 then [] else '.' :: padded scale (coefficient % 10 ^ scale)

/-- A literal in fixed notation. -/
def Literal.fixed (l : Literal) : List Char :=
  (if l.negative then ['-'] else []) ++ unsignedText l.coefficient l.scale

theorem isDigit_padded (width n : ℕ) : (padded width n).all Char.isDigit = true := by
  rw [padded, List.all_append, Bool.and_eq_true]
  refine ⟨?_, List.all_eq_true.mpr fun c hc => ?_⟩
  · rw [List.all_replicate]
    split <;> rfl
  · exact Nat.isDigit_of_mem_toDigits (by decide) (by decide) hc

theorem ofDigitChars_padded (width n : ℕ) : Nat.ofDigitChars 10 (padded width n) 0 = n := by
  simp [padded, Nat.ofDigitChars_append]

theorem padded_ne_nil (width n : ℕ) : padded width n ≠ [] := by simp [padded]

theorem length_padded {width n : ℕ} (hw : 0 < width) (hn : n < 10 ^ width) :
    (padded width n).length = width := by
  have hlen : (Nat.toDigits 10 n).length ≤ width :=
    (Nat.length_toDigits_le_iff (by decide) hw).mpr hn
  simp only [padded, List.length_append, List.length_replicate]
  omega

theorem digits?_toDigits (n : ℕ) : digits? (Nat.toDigits 10 n) = some n := by
  have hall : (Nat.toDigits 10 n).all Char.isDigit = true :=
    List.all_eq_true.mpr fun c hc => Nat.isDigit_of_mem_toDigits (by decide) (by decide) hc
  simp [digits?, hall]

theorem digits?_padded (width n : ℕ) : digits? (padded width n) = some n := by
  simp only [digits?, padded_ne_nil, isDigit_padded, ofDigitChars_padded, ne_eq,
    not_false_eq_true, and_self, if_true]

theorem ne_point_of_isDigit {c : Char} (h : c.isDigit = true) : decide (c ≠ '.') = true := by
  have hne : c ≠ '.' := fun hc => by simp [hc] at h
  simpa using hne

/-- Digits before a point are read up to the point. -/
theorem takeWhile_toDigits (n : ℕ) (rest : List Char) :
    (Nat.toDigits 10 n ++ '.' :: rest).takeWhile (· ≠ '.') = Nat.toDigits 10 n := by
  rw [List.takeWhile_append_of_pos]
  · simp
  · exact fun c hc => ne_point_of_isDigit (Nat.isDigit_of_mem_toDigits (by decide) (by decide) hc)

theorem dropWhile_toDigits (n : ℕ) (rest : List Char) :
    (Nat.toDigits 10 n ++ '.' :: rest).dropWhile (· ≠ '.') = '.' :: rest := by
  rw [List.dropWhile_append_of_pos]
  · simp
  · exact fun c hc => ne_point_of_isDigit (Nat.isDigit_of_mem_toDigits (by decide) (by decide) hc)

theorem dropWhile_toDigits_end (n : ℕ) : (Nat.toDigits 10 n).dropWhile (· ≠ '.') = [] :=
  List.dropWhile_eq_nil_iff.mpr fun _ hc =>
    ne_point_of_isDigit (Nat.isDigit_of_mem_toDigits (by decide) (by decide) hc)

theorem unsigned?_unsignedText (negative : Bool) (coefficient scale : ℕ) :
    unsigned? negative (unsignedText coefficient scale) = some ⟨negative, coefficient, scale⟩ := by
  by_cases hs : scale = 0
  · subst hs
    simp only [unsignedText, if_true, List.append_nil, Nat.pow_zero, Nat.div_one, unsigned?,
      dropWhile_toDigits_end, digits?_toDigits, Option.map_some]
  · have hmod : coefficient % 10 ^ scale < 10 ^ scale := Nat.mod_lt _ (Nat.pow_pos (by decide))
    have hlen := length_padded (Nat.pos_of_ne_zero hs) hmod
    simp only [unsignedText, hs, if_false, unsigned?, dropWhile_toDigits, takeWhile_toDigits,
      digits?_toDigits, digits?_padded, Option.bind_some, Option.map_some, hlen,
      Nat.div_add_mod]

theorem head_unsignedText (coefficient scale : ℕ) :
    ∃ c cs, unsignedText coefficient scale = c :: cs ∧ c ≠ '-' := by
  cases h : Nat.toDigits 10 (coefficient / 10 ^ scale) with
  | nil => simp at h
  | cons c cs =>
    have hc : c.isDigit = true :=
      Nat.isDigit_of_mem_toDigits (b := 10) (n := coefficient / 10 ^ scale) (by decide) (by decide)
        (by simp [h])
    exact ⟨c, _, by rw [unsignedText, h, List.cons_append], fun he => by simp [he] at hc⟩

/-- A literal in fixed notation reads back as itself. -/
theorem literal?_fixed (l : Literal) : literal? l.fixed = some l := by
  obtain ⟨negative, coefficient, scale⟩ := l
  have hread := unsigned?_unsignedText negative coefficient scale
  cases negative with
  | true => simpa [Literal.fixed, literal?] using hread
  | false =>
    obtain ⟨c, cs, hcs, hne⟩ := head_unsignedText coefficient scale
    have hfixed : Literal.fixed ⟨false, coefficient, scale⟩ = c :: cs := by
      simp [Literal.fixed, hcs]
    rw [hfixed, literal?.eq_2, ← hcs, hread]
    intro rest he
    exact hne (List.cons.inj he).1

/-- Literals that print alike are equal. -/
theorem fixed_injective {l m : Literal} (h : l.fixed = m.fixed) : l = m := by
  have hl := literal?_fixed l
  rw [h, literal?_fixed m] at hl
  exact (Option.some.inj hl).symm

/-- A positive number does not start with a zero. -/
theorem head_toDigits {n : ℕ} (hn : 0 < n) : ∃ c cs, Nat.toDigits 10 n = c :: cs ∧ c ≠ '0' := by
  induction n using Nat.strongRecOn with
  | ind n ih =>
    by_cases hsmall : n < 10
    · have hdigit : ∀ m < 10, 0 < m → m.digitChar ≠ '0' := by decide
      exact ⟨n.digitChar, [], Nat.toDigits_of_lt_base hsmall, hdigit n hsmall hn⟩
    · obtain ⟨c, cs, hcs, hne⟩ := ih (n / 10) (by omega) (by omega)
      refine ⟨c, cs ++ [(n % 10).digitChar], ?_, hne⟩
      rw [Nat.toDigits_of_base_le (by decide) (by omega), hcs, List.cons_append]

/-- Leading zeros are all that a zero is padded to. -/
theorem any_padded (width n : ℕ) : (padded width n).any (· ≠ '0') = true ↔ n ≠ 0 := by
  constructor
  · rintro hany rfl
    simp [padded] at hany
  · intro hn
    by_contra hnone
    have hzeros : padded width n = List.replicate (padded width n).length '0' := by
      refine List.eq_replicate_iff.mpr ⟨rfl, fun c hc => ?_⟩
      by_contra hne
      exact hnone (List.any_eq_true.mpr ⟨c, hc, by simpa using hne⟩)
    have hvalue := ofDigitChars_padded width n
    rw [hzeros] at hvalue
    simp at hvalue
    exact hn hvalue.symm

theorem digits?_all {cs : List Char} {n : ℕ} (h : digits? cs = some n) :
    ∀ c ∈ cs, c.isDigit = true := by
  simp only [digits?, Option.ite_none_right_eq_some] at h
  exact List.all_eq_true.mp h.1.2

/-- A literal is written in digits and a point. -/
theorem unsigned?_chars {negative : Bool} {cs : List Char} {l : Literal}
    (h : unsigned? negative cs = some l) : ∀ c ∈ cs, c.isDigit = true ∨ c = '.' := by
  have hsplit : cs.takeWhile (· ≠ '.') ++ cs.dropWhile (· ≠ '.') = cs := List.takeWhile_append_dropWhile
  simp only [unsigned?] at h
  split at h
  · obtain ⟨n, hn, _⟩ := Option.map_eq_some_iff.mp h
    exact fun c hc => Or.inl (digits?_all hn c hc)
  · rename_i point fraction hdrop
    obtain ⟨whole, hwhole, hrest⟩ := Option.bind_eq_some_iff.mp h
    obtain ⟨part, hpart, _⟩ := Option.map_eq_some_iff.mp hrest
    have hpoint : point = '.' := by
      have hhead := List.head?_dropWhile_not (p := fun c : Char => decide (c ≠ '.')) (l := cs)
      rw [hdrop] at hhead
      simpa using hhead
    intro c hc
    rw [← hsplit, hdrop, List.mem_append, List.mem_cons] at hc
    rcases hc with hc | rfl | hc
    · exact Or.inl (digits?_all hwhole c hc)
    · exact Or.inr hpoint
    · exact Or.inl (digits?_all hpart c hc)

end LpPlatform.DecimalText
