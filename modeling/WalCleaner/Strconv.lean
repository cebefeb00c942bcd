import Mathlib.Data.List.Basic
import Mathlib.Data.Nat.Digits

/-!
# WalCleaner.Strconv

**Segment names and indices**: `strconv.Atoi`, which reads a WAL segment's index off its file
name, and `fmt.Sprintf("%08d", i)`, which spells the file name of segment `i`.

`atoi` accepts an optional sign and at least one decimal digit whose value fits in a 64-bit
`int`; `sprintf08d` writes the decimal digits of `|i|` by repeated division (`Nat.toDigits`),
zero-padded so that sign and digits fill eight characters. The round trip `atoi_sprintf08d` holds
for every 64-bit index, negative ones and those wider than eight digits included.
-/

namespace WalCleaner

/-- The smallest 64-bit `int`, `-2^63`. -/
def minInt64 : Int := -9223372036854775808

/-- One past the largest 64-bit `int`, `2^63`. -/
def int64Bound : Int := 9223372036854775808

/-- Whether a byte is a decimal digit: `ch - '0'` does not exceed 9 in `Atoi`'s loop. -/
def isDigit (c : Char) : Bool := Nat.ble 48 c.toNat && Nat.ble c.toNat 57

/-- `Atoi`'s loop `n = n*10 + int(ch - '0')`, or `none` at the first byte that is not a digit. -/
def parseDigits : List Char → Nat → Option Nat
  | [], n => some n
  | c :: cs, n => if isDigit c then parseDigits cs (n * 10 + (c.toNat - 48)) else none

/-- The sign `Atoi` strips: whether the number is negative, and the bytes after a leading `-` or
`+`. -/
def splitSign : List Char → Bool × List Char
  | c :: ds => if c = '-' then (true, ds) else if c = '+' then (false, ds) else (false, c :: ds)
  | [] => (false, [])

/-- `ParseInt`'s range check for a 64-bit `int`. -/
def inInt64 (n : Int) : Option Int := if minInt64 ≤ n ∧ n < int64Bound then some n else none

/-- `strconv.Atoi` on a 64-bit host: an optional sign and at least one decimal digit, with a
value in `int64`'s range (its fast and slow paths accept the same strings). -/
def atoi (s : List Char) : Option Int :=
  let sign := splitSign s
  if sign.2 = [] then none
  else (parseDigits sign.2 0).bind fun u => inInt64 (if sign.1 then -(u : Int) else u)

/-- Left-pad a digit string with `0` to width `w`. -/
def padZeros (w : Nat) (ds : List Char) : List Char := List.replicate (w - ds.length) '0' ++ ds

/-- `fmt.Sprintf("%08d", i)`: the digits of `|i|` after a `-` for a negative `i`, zero-padded so
that sign and digits fill at least eight characters. -/
def sprintf08d (i : Int) : List Char :=
  if i < 0 then '-' :: padZeros 7 (Nat.toDigits 10 i.natAbs) else padZeros 8 (Nat.toDigits 10 i.natAbs)

example : sprintf08d 42 = "00000042".toList := by decide
example : sprintf08d (-42) = "-0000042".toList := by decide
example : atoi "+0042".toList = some 42 := by decide

/-! ### Parsing digit strings -/

theorem parseDigits_append (l l' : List Char) (n : Nat) :
    parseDigits (l ++ l') n = (parseDigits l n).bind (parseDigits l') := by
  induction l generalizing n with
  | nil => rfl
  | cons c cs ih =>
    simp only [List.cons_append, parseDigits]
    split
    · exact ih _
    · rfl

theorem parseDigits_zeros (k : Nat) (l : List Char) :
    parseDigits (List.replicate k '0' ++ l) 0 = parseDigits l 0 := by
  induction k with
  | zero => rfl
  | succ k ih => simpa [List.replicate_succ, parseDigits, isDigit] using ih

theorem digitChar_toNat : ∀ d, d < 10 → (Nat.digitChar d).toNat = 48 + d := by decide

theorem toDigitsCore_append (fuel n : Nat) (ds ds' : List Char) :
    Nat.toDigitsCore 10 fuel n (ds ++ ds') = Nat.toDigitsCore 10 fuel n ds ++ ds' := by
  induction fuel generalizing n ds with
  | zero => rfl
  | succ fuel ih =>
    simp only [Nat.toDigitsCore]
    split
    · rfl
    · exact ih _ (_ :: ds)

theorem toDigitsCore_fuel {f₁ f₂ n : Nat} (ds : List Char) (h₁ : n < f₁) (h₂ : n < f₂) :
    Nat.toDigitsCore 10 f₁ n ds = Nat.toDigitsCore 10 f₂ n ds := by
  induction f₁ generalizing f₂ n ds with
  | zero => omega
  | succ f₁ ih =>
    obtain ⟨f₂, rfl⟩ : ∃ f, f₂ = f + 1 := ⟨f₂ - 1, by omega⟩
    simp only [Nat.toDigitsCore]
    split
    · rfl
    · exact ih _ (by omega) (by omega)

/-- The decimal digits of `n` are those of `n / 10` followed by the digit `n % 10`. -/
theorem toDigits_eq (n : Nat) :
    Nat.toDigits 10 n =
      (if n < 10 then [] else Nat.toDigits 10 (n / 10)) ++ [Nat.digitChar (n % 10)] := by
  unfold Nat.toDigits
  conv_lhs => rw [Nat.toDigitsCore]
  by_cases h : n < 10
  · simp [h, Nat.div_eq_of_lt h]
  · have happ := toDigitsCore_append n (n / 10) [] [Nat.digitChar (n % 10)]
    rw [List.nil_append] at happ
    simp only [h, show n / 10 ≠ 0 by omega, if_false, happ]
    rw [@toDigitsCore_fuel n (n / 10 + 1) (n / 10) [] (by omega) (by omega)]

theorem parseDigits_toDigits (n : Nat) : parseDigits (Nat.toDigits 10 n) 0 = some n := by
  induction n using Nat.strong_induction_on with
  | _ n ih =>
    have hd := digitChar_toNat (n % 10) (Nat.mod_lt _ (by omega))
    have hdig : isDigit (Nat.digitChar (n % 10)) = true := by
      simp only [isDigit, hd, Bool.and_eq_true, Nat.ble_eq]
      omega
    rw [toDigits_eq, parseDigits_append]
    split
    · simp [parseDigits, hdig, hd]
      omega
    · rw [ih (n / 10) (by omega)]
      simp [parseDigits, hdig, hd]
      omega

theorem toDigits_ne_nil (n : Nat) : Nat.toDigits 10 n ≠ [] := by
  rw [toDigits_eq]
  simp

theorem isDigit_of_mem_toDigits {n : Nat} {c : Char} (h : c ∈ Nat.toDigits 10 n) :
    isDigit c = true := by
  induction n using Nat.strong_induction_on with
  | _ n ih =>
    rw [toDigits_eq, List.mem_append, List.mem_singleton] at h
    rcases h with h | rfl
    · split at h
      · simp at h
      · exact ih _ (by omega) h
    · have hd := digitChar_toNat (n % 10) (Nat.mod_lt _ (by omega))
      simp only [isDigit, hd, Bool.and_eq_true, Nat.ble_eq]
      omega

/-! ### The round trip -/

/-- Every character of a `%08d` spelling is a digit or `-`. -/
theorem mem_sprintf08d {i : Int} {c : Char} (h : c ∈ sprintf08d i) : isDigit c = true ∨ c = '-' := by
  have hpad : ∀ w, c ∈ padZeros w (Nat.toDigits 10 i.natAbs) → isDigit c = true := fun w hc => by
    rw [padZeros, List.mem_append] at hc
    rcases hc with hc | hc
    · rw [List.eq_of_mem_replicate hc]
      rfl
    · exact isDigit_of_mem_toDigits hc
  unfold sprintf08d at h
  split at h
  · rcases List.mem_cons.mp h with rfl | h
    · exact Or.inr rfl
    · exact Or.inl (hpad 7 h)
  · exact Or.inl (hpad 8 h)

theorem parseDigits_padZeros (w n : Nat) :
    parseDigits (padZeros w (Nat.toDigits 10 n)) 0 = some n := by
  rw [padZeros, parseDigits_zeros, parseDigits_toDigits]

theorem padZeros_ne_nil (w n : Nat) : padZeros w (Nat.toDigits 10 n) ≠ [] := by
  simp [padZeros, toDigits_ne_nil]

/-- The head of a zero-padded digit string is a digit, never a sign. -/
theorem padZeros_head (w n : Nat) :
    ∃ c cs, padZeros w (Nat.toDigits 10 n) = c :: cs ∧ isDigit c = true := by
  obtain ⟨c, cs, h⟩ := List.exists_cons_of_ne_nil (padZeros_ne_nil w n)
  refine ⟨c, cs, h, ?_⟩
  have hc : c ∈ padZeros w (Nat.toDigits 10 n) := h ▸ List.mem_cons_self c cs
  rw [padZeros, List.mem_append] at hc
  rcases hc with hc | hc
  · rw [List.eq_of_mem_replicate hc]
    rfl
  · exact isDigit_of_mem_toDigits hc

theorem inInt64_of_range {n : Int} (hlo : minInt64 ≤ n) (hhi : n < int64Bound) :
    inInt64 n = some n := by
  rw [inInt64, if_pos ⟨hlo, hhi⟩]

theorem range_of_inInt64 {n m : Int} (h : inInt64 n = some m) :
    m = n ∧ minInt64 ≤ n ∧ n < int64Bound := by
  unfold inInt64 at h
  by_cases hr : minInt64 ≤ n ∧ n < int64Bound
  · rw [if_pos hr] at h
    exact ⟨(Option.some.inj h).symm, hr⟩
  · rw [if_neg hr] at h
    cases h

/-- **`%08d` parses back.** `Atoi` reads every 64-bit index back from its `%08d` spelling. -/
theorem atoi_sprintf08d {i : Int} (hlo : minInt64 ≤ i) (hhi : i < int64Bound) :
    atoi (sprintf08d i) = some i := by
  unfold sprintf08d
  split
  · have hi : -(i.natAbs : Int) = i := by omega
    simp only [atoi, splitSign, if_true, padZeros_ne_nil, if_false, parseDigits_padZeros,
      Option.some_bind, hi, inInt64_of_range hlo hhi]
  · obtain ⟨c, cs, hcs, hc⟩ := padZeros_head 8 i.natAbs
    have hsign : c ≠ '-' ∧ c ≠ '+' := by
      constructor <;> (rintro rfl; exact absurd hc (by decide))
    have hparse := parseDigits_padZeros 8 i.natAbs
    have hi : (i.natAbs : Int) = i := by omega
    rw [hcs] at hparse ⊢
    simp only [atoi, splitSign, hsign.1, hsign.2, if_false, List.cons_ne_nil, hparse]
    rw [Option.some_bind]
    simp only [Bool.false_eq_true, if_false, hi]
    exact inInt64_of_range hlo hhi

/-- Whatever `Atoi` accepts is a 64-bit `int`. -/
theorem atoi_range {s : List Char} {n : Int} (h : atoi s = some n) :
    minInt64 ≤ n ∧ n < int64Bound := by
  simp only [atoi] at h
  split at h
  · cases h
  · obtain ⟨u, -, hu⟩ := Option.bind_eq_some.mp h
    obtain ⟨rfl, hr⟩ := range_of_inInt64 hu
    exact hr

end WalCleaner
